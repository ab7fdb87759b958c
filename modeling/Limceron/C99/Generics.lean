/-
# `Limceron.C99.Generics` — the types of `Result` and `Option`

The C back end gives each `Result<T, E>`, `Option<T>` and `T?` a struct of its own.
It walks over the program once, enters each name it meets in a table of 128, and
prints the table in front of the declarations:

| type | name | fields |
| :-- | :-- | :-- |
| `Result<T, E>` | `Result_t_e` | `t value; e error` |
| `Option<T>`, `T?` | `Option_t` | `t value` |

The components `t`, `e` are those of the outermost names; any other type is `void`.
So a struct has the types of its arguments when these are plain (`PlainArg`), and its
name says which they are when no two instances of the program are confused (`Confused`):
their components are the same, an underscore of theirs is taken for the one between
them, or they differ only where the name is cut.
-/
import Limceron.Lib.NameTables
import Limceron.Parse.Syntax

namespace Limceron.Generics

open Parse (Node NodeKind NodeVal)

/-- A piece of C text. -/
abbrev Text := List Char

/-! ## The source -/

/-- The names that stand for C types. -/
def monoTable : List (String × String) := [
  ("string", "LcnString"), ("String", "LcnString"), ("int", "int64_t"), ("i8", "int8_t"),
  ("i16", "int16_t"), ("i32", "int32_t"), ("i64", "int64_t"), ("u8", "uint8_t"),
  ("u16", "uint16_t"), ("u32", "uint32_t"), ("u64", "uint64_t"), ("f32", "float"),
  ("f64", "double"), ("float", "double"), ("bool", "bool"), ("void", "void")]

def monoLookup (name : String) : Text :=
  ((monoTable.find? (·.1 = name)).map (·.2.toList)).getD name.toList

def monoTypeComponent (name : String) : Text := monoLookup name

def monoTypeIdent (name : String) : Text := monoLookup name

/-- The component of a type, by the reading of its name. -/
def componentOf (read : String → Text) : Option Node → Text
  | none => "LcnString".toList
  | some t =>
      if t.kind = .typeNamed then (t.name.map read).getD "void".toList else "void".toList

def monoTypeFromExpr (t : Option Node) : Text := componentOf monoTypeComponent t

def monoIdentFromExpr (t : Option Node) : Text := componentOf monoTypeIdent t

/-- `snprintf` into a buffer of 128. -/
def cut (s : Text) : Text := s.take 127

/-- `mono_result_name`, of arguments that are there. -/
def monoResultName (generics : List Node) : Text :=
  cut ("Result_".toList ++ monoIdentFromExpr generics.head? ++ '_' ::
    monoIdentFromExpr generics.tail.head?)

/-- `mono_option_name`, of arguments that are there. -/
def monoOptionName (generics : List Node) : Text :=
  cut ("Option_".toList ++ monoIdentFromExpr generics.head?)

inductive Base where
  | result
  | option
  deriving DecidableEq, Repr

/-- An entry of the table `mono`. -/
structure Mono where
  name : Text
  base : Base
  generics : List Node

/-- `mono_register_full`. -/
def monoRegister (table : List Mono) (m : Mono) : List Mono :=
  if 128 ≤ table.length then table
  else if table.any (fun m' => m'.name = m.name) then table
  else table ++ [m]

/-- The entry of a generic type with arguments. -/
def monoNamed (name : Option String) (generics : List Node) : Option Mono :=
  if generics = [] then none
  else if name = some "Result" then some ⟨monoResultName generics, .result, generics⟩
  else if name = some "Option" then some ⟨monoOptionName generics, .option, generics⟩
  else none

/-- The named type below an optional. -/
def namedLeft (left : List Node) : Option Node :=
  left.head?.filter fun t => t.kind = .typeNamed ∧ t.name.isSome

/-- The entry of an optional. -/
def monoOptional (left : List Node) : Option Mono :=
  (namedLeft left).map fun t => ⟨monoOptionName [t], .option, [t]⟩

/-- What `mono_collect_from_node` enters for a node. -/
def monoEntry (n : Node) : Option Mono :=
  if n.kind = .typeNamed then monoNamed n.name n.generics
  else if n.kind = .typeOptional then monoOptional n.left
  else none

mutual

/-- The nodes in the order `mono_collect_from_node` visits them. -/
def walk : Node → List Node
  | ⟨kind, name, typeExpr, isPub, isMut, isUnsafe, left, right, params, generics, attrs, val⟩ =>
      ⟨kind, name, typeExpr, isPub, isMut, isUnsafe, left, right, params, generics, attrs, val⟩
        :: (walkAll left ++ walkAll right ++ walkAll params ++ walkAll typeExpr ++
          walkAll generics ++ walkAll attrs)

/-- A node and what is linked to it by `next`. -/
def walkAll : List Node → List Node
  | [] => []
  | n :: ns => walk n ++ walkAll ns

end

def monoVisit (table : List Mono) (n : Node) : List Mono :=
  match monoEntry n with
  | some m => monoRegister table m
  | none => table

/-- `mono_collect_from_node`. -/
def monoCollect (program : Node) : List Mono := (walk program).foldl monoVisit []

/-- A struct of the section, and its fields behind the flag. -/
structure Typedef where
  name : Text
  value : Text
  error : Option Text
  deriving DecidableEq

/-- `mono_emit_result` and `mono_emit_option`, the struct. -/
def monoEmit (m : Mono) : Typedef :=
  match m.base with
  | .result =>
      ⟨m.name, monoTypeFromExpr m.generics.head?, some (monoTypeFromExpr m.generics.tail.head?)⟩
  | .option => ⟨m.name, monoTypeFromExpr m.generics.head?, none⟩

/-- The structs in front of the declarations. -/
def monoSection (program : Node) : List Typedef := (monoCollect program).map monoEmit

/-- The types `cg_type` has names for. -/
def cgNamed : List (String × String) := [
  ("i8", "int8_t"), ("i16", "int16_t"), ("i32", "int32_t"), ("i64", "int64_t"),
  ("i128", "int64_t"), ("u8", "uint8_t"), ("u16", "uint16_t"), ("u32", "uint32_t"),
  ("u64", "uint64_t"), ("u128", "uint64_t"), ("f32", "float"), ("f64", "double"),
  ("int", "int64_t"), ("float", "double"), ("bool", "bool"), ("void", "void"),
  ("string", "LcnString"), ("String", "LcnString"), ("Vec", "LcnVec"), ("List", "LcnVec"),
  ("Map", "void *"), ("Set", "void *"), ("Channel", "LcnChannel *")]

/-- `cg_type` of a named type. -/
def cgTypeNamed (name : String) (generics : List Node) : Text :=
  if name = "Result" then
    if generics = [] then "LcnResult".toList else monoResultName generics
  else if name = "Option" then
    if generics = [] then "LcnOption".toList else monoOptionName generics
  else ((cgNamed.find? (·.1 = name)).map (·.2.toList)).getD name.toList

/-- The type of an optional. -/
def cgTypeOptional (left : List Node) : Text :=
  ((namedLeft left).map fun t => monoOptionName [t]).getD "LcnOption".toList

mutual

/-- `cg_type`. -/
def cgType : Node → Text
  | ⟨kind, name, _, _, _, _, left, _, _, generics, _, _⟩ =>
      if kind = .typeNamed then (name.map (cgTypeNamed · generics)).getD "void".toList
      else if kind = .typeRef ∨ kind = .typePtr then cgTypeLeft "void" left ++ " *".toList
      else if kind = .typeOptional then cgTypeOptional left
      else if kind = .typeSecret then cgTypeLeft "LcnString" left
      else "void /* unknown type */".toList

/-- The type below another one, or what stands for it. -/
def cgTypeLeft (absent : String) : List Node → Text
  | [] => absent.toList
  | t :: _ => cgType t

end

/-! ## Instances -/

/-- A type, without the names that mean the same. -/
inductive TypeForm where
  | named (name : Option String) (args : List TypeForm)
  | other (kind : NodeKind) (name : Option String) (val : NodeVal)
      (left right params typeExpr : List TypeForm)

def aliasOf (name : String) : String :=
  if name = "int" then "i64"
  else if name = "float" then "f64"
  else if name = "String" then "string"
  else name

mutual

def typeForm : Node → TypeForm
  | ⟨kind, name, typeExpr, _, _, _, left, right, params, generics, _, val⟩ =>
      if kind = .typeNamed then .named (name.map aliasOf) (typeForms generics)
      else .other kind name val (typeForms left) (typeForms right) (typeForms params)
        (typeForms typeExpr)

def typeForms : List Node → List TypeForm
  | [] => []
  | t :: ts => typeForm t :: typeForms ts

end

/-- The arguments of an instance of `Result` or `Option`. -/
def instanceOf (n : Node) : Option (Base × List Node) :=
  if n.kind = .typeNamed ∧ n.generics ≠ [] then
    if n.name = some "Result" then some (.result, n.generics)
    else if n.name = some "Option" then some (.option, n.generics)
    else none
  else if n.kind = .typeOptional then n.left.head?.map fun t => (.option, [t])
  else none

/-- What makes two instances the same: the generic type and its arguments. -/
def instanceForm (n : Node) : Option (Base × List TypeForm) :=
  (instanceOf n).map fun i => (i.1, typeForms i.2)

/-- The structs of a program are those of its instances. -/
structure Faithful (program : Node) : Prop where
  /-- Two instances have one C type when they are the same. -/
  names : ∀ m ∈ walk program, ∀ n ∈ walk program, (instanceOf m).isSome → (instanceOf n).isSome →
    (cgType m = cgType n ↔ instanceForm m = instanceForm n)
  /-- Each one has a struct. -/
  once : ∀ n ∈ walk program, (instanceOf n).isSome →
    ((monoSection program).map Typedef.name).count (cgType n) = 1
  /-- The struct has the types of the arguments. -/
  fields : ∀ n ∈ walk program, ∀ i, instanceOf n = some i → ∀ d ∈ monoSection program,
    d.name = cgType n → d.value :: d.error.toList = i.2.map cgType
  /-- An instance below another one has its struct before it. -/
  order : ∀ n ∈ walk program, ∀ i, instanceOf n = some i → ∀ t ∈ i.2, (instanceOf t).isSome →
    ∀ before d after, monoSection program = before ++ d :: after → d.name = cgType n →
      cgType t ∈ before.map Typedef.name

/-! ## Plain arguments -/

/-- The names whose C type is not their component. -/
def wrapped : List String :=
  ["Result", "Option", "Vec", "List", "Map", "Set", "Channel", "i128", "u128"]

mutual

/-- `void`, or a secret of it. -/
def voidType : Node → Bool
  | ⟨kind, name, _, _, _, _, left, _, _, _, _, _⟩ =>
      if kind = .typeNamed then name = none ∨ name = some "void"
      else if kind = .typeSecret then voidLeft left
      else false

def voidLeft : List Node → Bool
  | [] => false
  | t :: _ => voidType t

end

/-- A type whose component is its C type. -/
def PlainArg (t : Node) : Prop :=
  t.kind = .typeNamed ∧ (∀ name ∈ t.name, name ∉ wrapped) ∨ voidType t

/-- A type `T?` is that of a name `T`. -/
def PlainOptional (n : Node) : Prop :=
  n.kind = .typeOptional → n.left ≠ [] → (namedLeft n.left).isSome

/-- Plain arguments, as many as the generic type has parameters. -/
def PlainArgs : Base × List Node → Prop
  | (.result, [t, e]) => PlainArg t ∧ PlainArg e
  | (.option, [t]) => PlainArg t
  | _ => False

/-- The name of an instance, before it is cut. -/
def fullName : Base × List Node → Text
  | (.result, args) => "Result_".toList ++ monoIdentFromExpr args.head? ++ '_' ::
      monoIdentFromExpr args.tail.head?
  | (.option, args) => "Option_".toList ++ monoIdentFromExpr args.head?

/-- How the name of an instance is taken for that of another one. -/
inductive Confused : Base × List Node → Base × List Node → Prop
  /-- The components are the same. -/
  | components {base : Base} {args args' : List Node}
      (h : args.map (fun t => monoIdentFromExpr (some t)) =
        args'.map fun t => monoIdentFromExpr (some t)) : Confused (base, args) (base, args')
  /-- An underscore of a component is taken for the one between the components. -/
  | split {t e t' e' : Node} (m : Text)
      (hvalue : monoIdentFromExpr (some t') = monoIdentFromExpr (some t) ++ '_' :: m)
      (herror : monoIdentFromExpr (some e) = m ++ '_' :: monoIdentFromExpr (some e')) :
      Confused (.result, [t, e]) (.result, [t', e'])
  /-- One of the names is cut. -/
  | cut {i j : Base × List Node} (hlong : 127 < (fullName i).length)
      (h : (fullName i).take 127 = (fullName j).take 127) : Confused i j

/-- The arguments are plain, and the table has room for the names, which are different. -/
structure Plain (program : Node) : Prop where
  optionals : ∀ n ∈ walk program, PlainOptional n
  args : ∀ n ∈ walk program, ∀ i, instanceOf n = some i → PlainArgs i
  apart : ∀ m ∈ walk program, ∀ n ∈ walk program, ∀ i j, instanceOf m = some i →
    instanceOf n = some j → instanceForm m ≠ instanceForm n → ¬ Confused i j
  count : ∃ forms : List (Base × List TypeForm), forms.length ≤ 128 ∧
    ∀ n ∈ walk program, ∀ f, instanceForm n = some f → f ∈ forms

/-! ## Components -/

theorem find_none {α : Type} {l : List (String × α)} {name : String}
    (h : name ∉ l.map (·.1)) : l.find? (·.1 = name) = none := by
  refine List.find?_eq_none.mpr fun p hp heq => h ?_
  exact List.mem_map.mpr ⟨p, hp, by simpa using heq⟩

theorem monoLookup_of_notMem {name : String} (h : name ∉ monoTable.map (·.1)) :
    monoLookup name = name.toList := by
  rw [monoLookup, find_none h]
  rfl

/-- Names that mean the same have one component. -/
theorem monoLookup_aliasOf (a : String) : monoLookup (aliasOf a) = monoLookup a := by
  rw [aliasOf]
  split
  · rename_i h
    rw [h]
    decide
  · split
    · rename_i h
      rw [h]
      decide
    · split
      · rename_i h
        rw [h]
        decide
      · rfl

theorem cgTypeNamed_plain {a : String} (ha : a ∉ wrapped) (generics : List Node) :
    cgTypeNamed a generics = monoLookup a := by
  have htable : ∀ a ∈ monoTable.map (·.1),
      monoLookup a = ((cgNamed.find? (·.1 = a)).map (·.2.toList)).getD a.toList := by decide
  have hnames : ∀ a ∈ cgNamed.map (·.1), a ∈ monoTable.map (·.1) ∨ a ∈ wrapped := by decide
  have hne : ∀ w ∈ wrapped, a ≠ w := fun w hw heq => ha (heq ▸ hw)
  rw [cgTypeNamed, if_neg (hne _ (by decide)), if_neg (hne _ (by decide))]
  by_cases hat : a ∈ monoTable.map (·.1)
  · exact (htable a hat).symm
  · have hnot : a ∉ cgNamed.map (·.1) := by
      intro hmem
      rcases hnames a hmem with h | h
      · exact hat h
      · exact ha h
    rw [find_none hnot, monoLookup_of_notMem hat]
    rfl

/-- The name of an instance is longer than a name of `wrapped`. -/
theorem instance_ne_lookup {a : String} (ha : a = "Result" ∨ a = "Option") (generics : List Node) :
    cgTypeNamed a generics ≠ monoLookup a := by
  have hlong {base rest : Text} (hbase : base.length = 7) : cut (base ++ rest) ≠ monoLookup a := by
    intro heq
    have hlen := congrArg List.length heq
    have hshort : (monoLookup a).length = 6 := by rcases ha with rfl | rfl <;> decide
    rw [cut, List.length_take, List.length_append, hbase, hshort] at hlen
    omega
  rcases ha with rfl | rfl
  · rw [cgTypeNamed, if_pos rfl]
    split
    · decide
    · rw [monoResultName, List.append_assoc]
      exact hlong rfl
  · rw [cgTypeNamed, if_neg (by decide), if_pos rfl]
    split
    · decide
    · exact hlong rfl

theorem cgTypeNamed_iff (a : String) (generics : List Node) :
    cgTypeNamed a generics = monoLookup a ↔ a ∉ wrapped := by
  refine ⟨fun heq ha => ?_, fun ha => cgTypeNamed_plain ha generics⟩
  have hrest : ∀ w ∈ wrapped, w ≠ "Result" → w ≠ "Option" →
      ((cgNamed.find? (·.1 = w)).map (·.2.toList)).getD w.toList ≠ monoLookup w := by decide
  by_cases hresult : a = "Result"
  · exact instance_ne_lookup (.inl hresult) generics heq
  · by_cases hoption : a = "Option"
    · exact instance_ne_lookup (.inr hoption) generics heq
    · rw [cgTypeNamed, if_neg hresult, if_neg hoption] at heq
      exact hrest a ha hresult hoption heq

/-! ## Types that are `void` -/

theorem cgTypeNamed_void (a : String) (generics : List Node) :
    cgTypeNamed a generics = "void".toList ↔ a = "void" := by
  have hwrapped : ∀ w ∈ wrapped, w ≠ "Result" → w ≠ "Option" →
      ((cgNamed.find? (·.1 = w)).map (·.2.toList)).getD w.toList ≠ "void".toList := by decide
  have htable : ∀ a ∈ monoTable.map (·.1), monoLookup a = "void".toList → a = "void" := by decide
  constructor
  · intro h
    by_cases hresult : a = "Result"
    · rw [cgTypeNamed, if_pos hresult] at h
      split at h
      · exact absurd h (by decide)
      · exact absurd (congrArg List.head? h) (by simp [monoResultName, cut])
    · by_cases hoption : a = "Option"
      · rw [cgTypeNamed, if_neg hresult, if_pos hoption] at h
        split at h
        · exact absurd h (by decide)
        · exact absurd (congrArg List.head? h) (by simp [monoOptionName, cut])
      · by_cases ha : a ∈ wrapped
        · rw [cgTypeNamed, if_neg hresult, if_neg hoption] at h
          exact absurd h (hwrapped a ha hresult hoption)
        · rw [cgTypeNamed_plain ha] at h
          by_cases hat : a ∈ monoTable.map (·.1)
          · exact htable a hat h
          · rw [monoLookup_of_notMem hat] at h
            exact String.toList_injective h
  · rintro rfl
    exact cgTypeNamed_plain (by decide) generics

theorem cgTypeOptional_ne (left : List Node) : cgTypeOptional left ≠ "void".toList := by
  intro h
  rw [cgTypeOptional] at h
  cases hleft : namedLeft left with
  | none =>
      rw [hleft] at h
      exact absurd h (by decide)
  | some t =>
      rw [hleft] at h
      exact absurd (congrArg List.head? h) (by simp [monoOptionName, cut])

mutual

theorem voidType_iff : ∀ t : Node, voidType t ↔ cgType t = "void".toList
  | ⟨kind, name, _, _, _, _, left, _, _, generics, _, _⟩ => by
      rw [voidType, cgType]
      by_cases hnamed : kind = .typeNamed
      · rw [if_pos hnamed, if_pos hnamed]
        cases name with
        | none => simp
        | some name =>
            rw [Option.map_some, Option.getD_some, cgTypeNamed_void]
            simp
      · rw [if_neg hnamed, if_neg hnamed]
        by_cases hpointer : kind = .typeRef ∨ kind = .typePtr
        · have hsecret : kind ≠ .typeSecret := by
            rintro rfl
            rcases hpointer with h | h <;> cases h
          rw [if_neg hsecret, if_pos hpointer]
          refine iff_of_false Bool.false_ne_true fun h => ?_
          exact absurd (congrArg List.getLast? h) (by simp)
        · rw [if_neg hpointer]
          by_cases hoptional : kind = .typeOptional
          · have hsecret : kind ≠ .typeSecret := by
              rw [hoptional]
              decide
            rw [if_neg hsecret, if_pos hoptional]
            exact iff_of_false Bool.false_ne_true (cgTypeOptional_ne left)
          · rw [if_neg hoptional]
            by_cases hsecret : kind = .typeSecret
            · rw [if_pos hsecret, if_pos hsecret]
              exact voidLeft_iff left
            · rw [if_neg hsecret, if_neg hsecret]
              exact iff_of_false Bool.false_ne_true (by decide)

theorem voidLeft_iff : ∀ left : List Node,
    voidLeft left ↔ cgTypeLeft "LcnString" left = "void".toList
  | [] => by
      rw [voidLeft, cgTypeLeft]
      exact iff_of_false Bool.false_ne_true (by decide)
  | t :: _ => by
      rw [voidLeft, cgTypeLeft]
      exact voidType_iff t

end

theorem cgType_named {n : Node} (hkind : n.kind = .typeNamed) :
    cgType n = (n.name.map (cgTypeNamed · n.generics)).getD "void".toList := by
  obtain ⟨kind, name, typeExpr, isPub, isMut, isUnsafe, left, right, params, generics, attrs,
    val⟩ := n
  obtain rfl : kind = .typeNamed := hkind
  rw [cgType, if_pos rfl]

theorem cgType_optional {n : Node} (hkind : n.kind = .typeOptional) :
    cgType n = cgTypeOptional n.left := by
  obtain ⟨kind, name', typeExpr, isPub, isMut, isUnsafe, left, right, params, generics, attrs,
    val⟩ := n
  obtain rfl : kind = .typeOptional := hkind
  rw [cgType, if_neg (by decide), if_neg (by decide), if_pos rfl]

theorem component_named {t : Node} (hkind : t.kind = .typeNamed) (read : String → Text) :
    componentOf read (some t) = (t.name.map read).getD "void".toList :=
  if_pos hkind

theorem component_other {t : Node} (hkind : t.kind ≠ .typeNamed) (read : String → Text) :
    componentOf read (some t) = "void".toList :=
  if_neg hkind

/-- A struct has the type of an argument when this is plain. -/
theorem plainArg_iff (t : Node) : PlainArg t ↔ monoTypeFromExpr (some t) = cgType t := by
  rw [PlainArg, monoTypeFromExpr]
  by_cases hkind : t.kind = .typeNamed
  · rw [component_named hkind, cgType_named hkind, voidType_iff, cgType_named hkind]
    cases t.name with
    | none => simp
    | some name =>
        simp only [Option.mem_some_iff, forall_eq', Option.map_some, Option.getD_some]
        rw [monoTypeComponent, eq_comm (a := monoLookup name), cgTypeNamed_iff, cgTypeNamed_void]
        refine ⟨fun h => ?_, fun h => .inl ⟨hkind, h⟩⟩
        rcases h with h | rfl
        · exact h.2
        · decide
  · rw [component_other hkind, voidType_iff]
    exact ⟨fun h => (h.resolve_left fun hn => hkind hn.1).symm, fun h => .inr h.symm⟩

/-- The component of a type depends on its form. -/
theorem component_form {t t' : Node} (h : typeForm t = typeForm t') :
    monoIdentFromExpr (some t) = monoIdentFromExpr (some t') := by
  obtain ⟨kind, name, _, _, _, _, _, _, _, _, _, _⟩ := t
  obtain ⟨kind', name', _, _, _, _, _, _, _, _, _, _⟩ := t'
  rw [typeForm, typeForm] at h
  rw [monoIdentFromExpr, monoIdentFromExpr]
  by_cases hkind : kind = .typeNamed
  · by_cases hkind' : kind' = .typeNamed
    · rw [if_pos hkind, if_pos hkind'] at h
      rw [component_named hkind, component_named hkind']
      have hnames : name.map aliasOf = name'.map aliasOf := (TypeForm.named.inj h).1
      have hread : monoTypeIdent = monoLookup ∘ aliasOf := by
        funext a
        exact (monoLookup_aliasOf a).symm
      rw [hread, ← Option.map_map, ← Option.map_map, hnames]
    · rw [if_pos hkind, if_neg hkind'] at h
      cases h
  · by_cases hkind' : kind' = .typeNamed
    · rw [if_neg hkind, if_pos hkind'] at h
      cases h
    · rw [component_other hkind, component_other hkind']

/-! ## Names of instances -/

def instName : Base × List Node → Text
  | (.result, args) => monoResultName args
  | (.option, args) => monoOptionName args

theorem instName_eq (i : Base × List Node) : instName i = (fullName i).take 127 := by
  obtain ⟨base, args⟩ := i
  cases base <;> rfl

theorem fullName_result (args : List Node) : fullName (.result, args) = "Result_".toList ++
    (monoIdentFromExpr args.head? ++ '_' :: monoIdentFromExpr args.tail.head?) :=
  List.append_assoc _ _ _

theorem fullName_option (args : List Node) :
    fullName (.option, args) = "Option_".toList ++ monoIdentFromExpr args.head? :=
  rfl

theorem monoEntry_eq {n : Node} {m : Mono} (h : monoEntry n = some m) :
    instanceOf n = some (m.base, m.generics) ∧ m.name = instName (m.base, m.generics) := by
  rw [monoEntry] at h
  rw [instanceOf]
  split at h
  · rename_i hkind
    rw [monoNamed] at h
    split at h
    · cases h
    · rename_i hgenerics
      rw [if_pos ⟨hkind, hgenerics⟩]
      split at h
      · rename_i hname
        obtain rfl := Option.some.inj h
        exact ⟨if_pos hname, rfl⟩
      · rename_i hresult
        split at h
        · rename_i hname
          obtain rfl := Option.some.inj h
          exact ⟨(if_neg hresult).trans (if_pos hname), rfl⟩
        · cases h
  · rename_i hnamed
    rw [if_neg fun hn => hnamed hn.1]
    split at h
    · rename_i hkind
      rw [if_pos hkind]
      obtain ⟨t, ht, rfl⟩ := Option.map_eq_some_iff.mp h
      rw [namedLeft, Option.filter_eq_some_iff] at ht
      rw [ht.1]
      exact ⟨rfl, rfl⟩
    · cases h

/-- An instance is entered under the name that is used for it, but for the optionals of
types that are not named. -/
theorem instance_entry {n : Node} {i : Base × List Node} (h : instanceOf n = some i)
    (hn : PlainOptional n) :
    cgType n = instName i ∧ monoEntry n = some ⟨instName i, i.1, i.2⟩ := by
  rw [instanceOf] at h
  rw [monoEntry]
  split at h
  · rename_i hnamed
    obtain ⟨hkind, hgenerics⟩ := hnamed
    rw [if_pos hkind, monoNamed, if_neg hgenerics, cgType_named hkind]
    split at h
    · rename_i hname
      obtain rfl := Option.some.inj h
      rw [hname, Option.map_some, Option.getD_some, cgTypeNamed, if_pos rfl, if_neg hgenerics]
      exact ⟨rfl, if_pos rfl⟩
    · split at h
      · rename_i hname
        obtain rfl := Option.some.inj h
        rw [hname, Option.map_some, Option.getD_some, cgTypeNamed, if_neg (by decide),
          if_pos rfl, if_neg hgenerics, if_neg (by decide)]
        exact ⟨rfl, if_pos rfl⟩
      · cases h
  · split at h
    · rename_i hnot hkind
      have hother : n.kind ≠ .typeNamed := by
        rw [hkind]
        decide
      obtain ⟨t, ht, rfl⟩ := Option.map_eq_some_iff.mp h
      have hleft : n.left ≠ [] := by
        intro hnil
        rw [hnil] at ht
        cases ht
      obtain ⟨t', ht'⟩ := Option.isSome_iff_exists.mp (hn hkind hleft)
      obtain rfl : t' = t := by
        rw [namedLeft, Option.filter_eq_some_iff, ht] at ht'
        exact (Option.some.inj ht'.1).symm
      rw [if_neg hother, if_pos hkind, cgType_optional hkind, cgTypeOptional, monoOptional, ht']
      exact ⟨rfl, rfl⟩
    · cases h

/-- The optional of a type that is not named has a name of its own. -/
theorem optional_other {n : Node} (hn : ¬ PlainOptional n) :
    cgType n = "LcnOption".toList ∧ (instanceOf n).isSome := by
  rw [PlainOptional, Classical.not_imp, Classical.not_imp, Option.not_isSome_iff_eq_none] at hn
  obtain ⟨hkind, hleft, hnone⟩ := hn
  have hother : n.kind ≠ .typeNamed := by
    rw [hkind]
    decide
  constructor
  · rw [cgType_optional hkind, cgTypeOptional, hnone]
    rfl
  · rw [instanceOf, if_neg fun h => hother h.1, if_pos hkind]
    cases hl : n.left with
    | nil => exact absurd hl hleft
    | cons t ts => rfl

/-- Joined components are the same when they are, unless an underscore of theirs can be
taken for the one between them. -/
theorem join_inj {a b a' b' : Text} :
    a ++ '_' :: b = a' ++ '_' :: b' ↔ (a = a' ∧ b = b') ∨
      (∃ m, a' = a ++ '_' :: m ∧ b = m ++ '_' :: b') ∨
      ∃ m, a = a' ++ '_' :: m ∧ b' = m ++ '_' :: b := by
  rw [List.append_eq_append_iff]
  constructor
  · rintro (⟨c, rfl, h⟩ | ⟨c, rfl, h⟩)
    · cases c with
      | nil => exact .inl ⟨(List.append_nil a).symm, by simpa using h⟩
      | cons d c =>
          obtain ⟨rfl, rfl⟩ := List.cons.inj h
          exact .inr (.inl ⟨c, rfl, rfl⟩)
    · cases c with
      | nil => exact .inl ⟨List.append_nil a', by simpa using h.symm⟩
      | cons d c =>
          obtain ⟨rfl, rfl⟩ := List.cons.inj h
          exact .inr (.inr ⟨c, rfl, rfl⟩)
  · rintro (⟨rfl, rfl⟩ | ⟨m, rfl, rfl⟩ | ⟨m, rfl, rfl⟩)
    · exact .inl ⟨[], (List.append_nil a).symm, rfl⟩
    · exact .inl ⟨'_' :: m, rfl, rfl⟩
    · exact .inr ⟨'_' :: m, rfl, rfl⟩

theorem typeForms_eq_map (ts : List Node) : typeForms ts = ts.map typeForm := by
  induction ts with
  | nil => rw [typeForms, List.map_nil]
  | cons t ts ih => rw [typeForms, List.map_cons, ih]

theorem components_form {args args' : List Node} (h : typeForms args = typeForms args') :
    args.map (fun t => monoIdentFromExpr (some t)) =
      args'.map fun t => monoIdentFromExpr (some t) := by
  rw [typeForms_eq_map, typeForms_eq_map] at h
  induction args generalizing args' with
  | nil => rw [List.map_eq_nil_iff.mp h.symm]
  | cons t ts ih =>
      cases args' with
      | nil => cases h
      | cons t' ts' =>
          rw [List.map_cons, List.map_cons, List.cons.injEq] at h
          rw [List.map_cons, List.map_cons, component_form h.1, ih h.2]

theorem component_head (args : List Node) : monoIdentFromExpr args.head? =
    (args.map fun t => monoIdentFromExpr (some t)).head?.getD "LcnString".toList := by
  cases args <;> rfl

/-- Instances that are confused have one name. -/
theorem Confused.instName_eq {i j : Base × List Node} (h : Confused i j) :
    instName i = instName j := by
  rw [Generics.instName_eq, Generics.instName_eq]
  cases h with
  | @components base args args' h =>
      have htail : args.tail.map (fun t => monoIdentFromExpr (some t)) =
          args'.tail.map fun t => monoIdentFromExpr (some t) := by
        rw [List.map_tail, List.map_tail, h]
      have hname : fullName (base, args) = fullName (base, args') := by
        cases base with
        | result =>
            rw [fullName_result, fullName_result, component_head args, component_head args', h,
              component_head args.tail, component_head args'.tail, htail]
        | option =>
            rw [fullName_option, fullName_option, component_head args, component_head args', h]
      rw [hname]
  | split m hvalue herror =>
      rw [fullName_result, fullName_result]
      simp only [List.head?_cons, List.tail_cons]
      rw [hvalue, herror, List.append_assoc, List.cons_append]
  | cut _ h => exact h

/-- Instances with plain arguments have different names unless they are confused. -/
theorem confused_of_instName {i j : Base × List Node} (hi : PlainArgs i) (hj : PlainArgs j)
    (h : instName i = instName j) : Confused i j ∨ Confused j i := by
  rw [instName_eq, instName_eq] at h
  by_cases hlong : 127 < (fullName i).length
  · exact .inl (.cut hlong h)
  · by_cases hlong' : 127 < (fullName j).length
    · exact .inr (.cut hlong' h.symm)
    · rw [List.take_of_length_le (Nat.not_lt.mp hlong),
        List.take_of_length_le (Nat.not_lt.mp hlong')] at h
      match i, j, hi, hj with
      | (.result, [t, e]), (.result, [t', e']), _, _ =>
          rw [fullName_result, fullName_result, List.append_cancel_left_eq] at h
          rcases join_inj.mp h with ⟨hvalue, herror⟩ | ⟨m, hvalue, herror⟩ | ⟨m, hvalue, herror⟩
          · refine .inl (.components ?_)
            rw [List.head?_cons, List.head?_cons] at hvalue
            rw [List.tail_cons, List.tail_cons, List.head?_cons, List.head?_cons] at herror
            rw [List.map_cons, List.map_cons, List.map_cons, List.map_cons, hvalue, herror]
          · exact .inl (.split m hvalue herror)
          · exact .inr (.split m hvalue herror)
      | (.result, [t, e]), (.option, [t']), _, _ =>
          exact absurd (List.cons.inj h).1 (by decide)
      | (.option, [t]), (.result, [t', e']), _, _ =>
          exact absurd (List.cons.inj h).1 (by decide)
      | (.option, [t]), (.option, [t']), _, _ =>
          rw [fullName_option, fullName_option, List.append_cancel_left_eq] at h
          refine .inl (.components ?_)
          rw [List.head?_cons, List.head?_cons] at h
          rw [List.map_cons, List.map_cons, h]

/-- The same instances have one name. -/
theorem instName_form {m n : Node} {i j : Base × List Node} (hi : instanceOf m = some i)
    (hj : instanceOf n = some j) (h : instanceForm m = instanceForm n) :
    instName i = instName j := by
  rw [instanceForm, instanceForm, hi, hj] at h
  obtain ⟨hbase, hforms⟩ := Prod.ext_iff.mp (Option.some.inj h)
  obtain ⟨base, args⟩ := i
  obtain ⟨base', args'⟩ := j
  obtain rfl : base = base' := hbase
  exact (Confused.components (components_form hforms)).instName_eq

/-! ## The table -/

theorem monoRegister_eq (table : List Mono) (m : Mono) :
    monoRegister table m = NameTables.enter 128 Mono.name table m := by
  have hany : table.any (fun m' => m'.name = m.name) = true ↔ m.name ∈ table.map Mono.name := by
    rw [List.any_eq_true, List.mem_map]
    exact exists_congr fun m' => and_congr_right fun _ => decide_eq_true_iff
  rw [monoRegister, NameTables.enter]
  by_cases hfull : 128 ≤ table.length
  · rw [if_pos hfull, if_pos hfull]
  · rw [if_neg hfull, if_neg hfull]
    by_cases hmem : m.name ∈ table.map Mono.name
    · rw [if_pos (hany.mpr hmem), if_pos hmem]
    · rw [if_neg (mt hany.mp hmem), if_neg hmem]

/-- The table is filled with the entries of the nodes. -/
theorem monoCollect_eq (program : Node) :
    monoCollect program = NameTables.fill 128 Mono.name ((walk program).filterMap monoEntry) := by
  rw [monoCollect, NameTables.fill, List.foldl_filterMap]
  congr
  funext table n
  rw [monoVisit]
  cases monoEntry n with
  | none => rfl
  | some m => exact monoRegister_eq table m

/-- The table of the nodes of a program. -/
structure Tabled (program : Node) : Prop where
  entries : ∀ m ∈ monoCollect program, ∃ n ∈ walk program, monoEntry n = some m
  nodup : ((monoCollect program).map Mono.name).Nodup
  bounded : (monoCollect program).length ≤ 128
  covers : (monoCollect program).length = 128 ∨ ∀ n ∈ walk program, ∀ m, monoEntry n = some m →
    m.name ∈ (monoCollect program).map Mono.name

theorem tabled (program : Node) : Tabled program := by
  have h := NameTables.filled 128 Mono.name
    ((walk program).filterMap monoEntry)
  rw [← monoCollect_eq] at h
  refine ⟨fun m hm => ?_, h.nodup, h.bounded, h.covers.imp_right fun hall n hn m hm => ?_⟩
  · exact List.mem_filterMap.mp (h.entries hm)
  · exact hall m (List.mem_filterMap.mpr ⟨n, hn, hm⟩)

/-! ## Fields -/

/-- The types of the fields, behind the flag. -/
def fieldsOf : Base → List Node → List Text
  | .result, args => [monoTypeFromExpr args.head?, monoTypeFromExpr args.tail.head?]
  | .option, args => [monoTypeFromExpr args.head?]

theorem monoEmit_fields (m : Mono) :
    (monoEmit m).value :: (monoEmit m).error.toList = fieldsOf m.base m.generics := by
  obtain ⟨name, base, generics⟩ := m
  cases base <;> rfl

theorem monoEmit_name (m : Mono) : (monoEmit m).name = m.name := by
  obtain ⟨name, base, generics⟩ := m
  cases base <;> rfl

theorem fieldsOf_form {args args' : List Node} (base : Base)
    (h : typeForms args = typeForms args') : fieldsOf base args = fieldsOf base args' := by
  have hcomponents := components_form h
  have hhead : monoTypeFromExpr args.head? = monoTypeFromExpr args'.head? := by
    have h := component_head args
    rwa [hcomponents, ← component_head args'] at h
  have htail : monoTypeFromExpr args.tail.head? = monoTypeFromExpr args'.tail.head? := by
    have h := component_head args.tail
    rwa [List.map_tail, hcomponents, ← List.map_tail, ← component_head args'.tail] at h
  cases base with
  | result => rw [fieldsOf, fieldsOf, hhead, htail]
  | option => rw [fieldsOf, fieldsOf, hhead]

/-- The fields have the types of the arguments when these are plain. -/
theorem fieldsOf_iff (i : Base × List Node) : fieldsOf i.1 i.2 = i.2.map cgType ↔ PlainArgs i := by
  match i with
  | (.result, []) | (.result, [_]) | (.result, _ :: _ :: _ :: _) =>
      simp [fieldsOf, PlainArgs]
  | (.result, [t, e]) => simp [fieldsOf, PlainArgs, plainArg_iff]
  | (.option, []) | (.option, _ :: _ :: _) => simp [fieldsOf, PlainArgs]
  | (.option, [t]) => simp [fieldsOf, PlainArgs, plainArg_iff]

/-- A plain argument is no instance. -/
theorem PlainArg.instanceOf {t : Node} (h : PlainArg t) : instanceOf t = none := by
  have hnamed (hkind : t.kind = .typeNamed) (hresult : t.name ≠ some "Result")
      (hoption : t.name ≠ some "Option") : Generics.instanceOf t = none := by
    have hother : t.kind ≠ .typeOptional := by
      rw [hkind]
      decide
    rw [Generics.instanceOf, if_neg hresult, if_neg hoption, if_neg hother, ite_self]
  rcases h with ⟨hkind, hname⟩ | hvoid
  · refine hnamed hkind (fun heq => ?_) (fun heq => ?_)
    · exact hname _ heq (by decide)
    · exact hname _ heq (by decide)
  · obtain ⟨kind, name, _, _, _, _, left, _, _, _, _, _⟩ := t
    rw [voidType] at hvoid
    by_cases hkind : kind = .typeNamed
    · rw [if_pos hkind, decide_eq_true_eq] at hvoid
      refine hnamed hkind ?_ ?_ <;> rcases hvoid with rfl | rfl <;> simp
    · rw [if_neg hkind] at hvoid
      have hother : kind ≠ .typeOptional := by
        rintro rfl
        rw [if_neg (by decide)] at hvoid
        cases hvoid
      rw [Generics.instanceOf, if_neg fun h => hkind h.1, if_neg hother]

/-! ## The structs of a program -/

section
variable {program : Node}

theorem section_names :
    (monoSection program).map Typedef.name = (monoCollect program).map Mono.name := by
  rw [monoSection, List.map_map]
  exact List.map_congr_left fun m _ => monoEmit_name m

variable (hoptionals : ∀ n ∈ walk program, PlainOptional n)
include hoptionals

/-- A struct is that of an instance of the program. -/
theorem struct_instance {m : Mono} (hm : m ∈ monoCollect program) :
    ∃ n ∈ walk program, instanceOf n = some (m.base, m.generics) ∧ cgType n = m.name := by
  obtain ⟨n, hn, hentry⟩ := (tabled program).entries m hm
  obtain ⟨hinst, hname⟩ := monoEntry_eq hentry
  exact ⟨n, hn, hinst, (instance_entry hinst (hoptionals n hn)).1.trans hname.symm⟩

/-- The struct of an instance has the components of its arguments for fields. -/
theorem struct_fields
    (hnames : ∀ m ∈ walk program, ∀ n ∈ walk program, (instanceOf m).isSome →
      (instanceOf n).isSome → cgType m = cgType n → instanceForm m = instanceForm n)
    {n : Node} (hn : n ∈ walk program) {i : Base × List Node} (hi : instanceOf n = some i)
    {d : Typedef} (hd : d ∈ monoSection program) (hname : d.name = cgType n) :
    d.value :: d.error.toList = fieldsOf i.1 i.2 := by
  obtain ⟨m, hm, rfl⟩ := List.mem_map.mp hd
  obtain ⟨n', hn', hi', htype⟩ := struct_instance hoptionals hm
  rw [monoEmit_name] at hname
  have hforms := hnames n' hn' n hn (by rw [hi']; rfl) (by rw [hi]; rfl) (htype.trans hname)
  rw [instanceForm, instanceForm, hi, hi'] at hforms
  obtain ⟨hbase, hargs⟩ := Prod.ext_iff.mp (Option.some.inj hforms)
  rw [monoEmit_fields, ← hbase]
  exact fieldsOf_form m.base hargs

end

/-! ## Plain programs -/

/-- The forms of the instances that have structs. -/
def tableForms (program : Node) : List (Base × List TypeForm) :=
  (monoCollect program).map fun m => (m.base, typeForms m.generics)

/-- The name of an entry depends on its form. -/
theorem entry_name {program : Node} {m : Mono} (hm : m ∈ monoCollect program) {n : Node}
    {i : Base × List Node} (hi : instanceOf n = some i)
    (h : instanceForm n = some (m.base, typeForms m.generics)) : m.name = instName i := by
  obtain ⟨n', -, hentry⟩ := (tabled program).entries m hm
  obtain ⟨hi', hname⟩ := monoEntry_eq hentry
  rw [hname]
  refine instName_form hi' hi ?_
  rw [h, instanceForm, hi']
  rfl

theorem Plain.names {program : Node} (h : Plain program) {m n : Node} (hm : m ∈ walk program)
    (hn : n ∈ walk program) {i j : Base × List Node} (hi : instanceOf m = some i)
    (hj : instanceOf n = some j) : cgType m = cgType n ↔ instanceForm m = instanceForm n := by
  rw [(instance_entry hi (h.optionals m hm)).1, (instance_entry hj (h.optionals n hn)).1]
  refine ⟨fun heq => ?_, instName_form hi hj⟩
  by_contra hne
  rcases confused_of_instName (h.args m hm i hi) (h.args n hn j hj) heq with hc | hc
  · exact h.apart m hm n hn i j hi hj hne hc
  · exact h.apart n hn m hm j i hj hi (Ne.symm hne) hc

/-- The forms of the structs are different. -/
theorem tableForms_nodup (program : Node) : (tableForms program).Nodup := by
  have hnodup := (tabled program).nodup
  rw [List.nodup_iff_pairwise_ne, List.pairwise_map] at hnodup
  rw [tableForms, List.nodup_iff_pairwise_ne, List.pairwise_map]
  refine hnodup.imp_of_mem fun {m m'} hm hm' hne heq => hne ?_
  obtain ⟨n', -, hentry⟩ := (tabled program).entries m' hm'
  obtain ⟨hi', hname⟩ := monoEntry_eq hentry
  rw [hname]
  refine entry_name hm hi' ?_
  rw [instanceForm, hi', heq]
  rfl

theorem Plain.struct_mem {program : Node} (h : Plain program) {n : Node}
    (hn : n ∈ walk program) {i : Base × List Node} (hi : instanceOf n = some i) :
    cgType n ∈ (monoCollect program).map Mono.name := by
  obtain ⟨htype, hentry⟩ := instance_entry hi (h.optionals n hn)
  rw [htype]
  by_contra hmissing
  rcases (tabled program).covers with hfull | hall
  · -- the table is full: its forms and that of the missing instance are too many
    obtain ⟨forms, hcount, hforms⟩ := h.count
    have hform : instanceForm n = some (i.1, typeForms i.2) := by
      rw [instanceForm, hi]
      rfl
    have hnew : (i.1, typeForms i.2) ∉ tableForms program := by
      intro hmem
      obtain ⟨m, hm, heq⟩ := List.mem_map.mp hmem
      refine hmissing (List.mem_map.mpr ⟨m, hm, entry_name hm hi ?_⟩)
      rw [hform, heq]
    have hsub : (i.1, typeForms i.2) :: tableForms program ⊆ forms := by
      intro f hf
      rcases List.mem_cons.mp hf with rfl | hf
      · exact hforms n hn _ hform
      · obtain ⟨m, hm, rfl⟩ := List.mem_map.mp hf
        obtain ⟨n', hn', hi', -⟩ := struct_instance h.optionals hm
        refine hforms n' hn' _ ?_
        rw [instanceForm, hi']
        rfl
    have hlen := (List.nodup_cons.mpr ⟨hnew, tableForms_nodup program⟩).length_le_of_subset hsub
    rw [List.length_cons, tableForms, List.length_map] at hlen
    omega
  · exact hmissing (hall n hn _ hentry)

theorem Plain.faithful {program : Node} (h : Plain program) : Faithful program where
  names m hm n hn hsome hsome' := by
    obtain ⟨i, hi⟩ := Option.isSome_iff_exists.mp hsome
    obtain ⟨j, hj⟩ := Option.isSome_iff_exists.mp hsome'
    exact h.names hm hn hi hj
  once n hn hsome := by
    obtain ⟨i, hi⟩ := Option.isSome_iff_exists.mp hsome
    rw [section_names]
    exact List.count_eq_one_of_mem (tabled program).nodup (h.struct_mem hn hi)
  fields n hn i hi d hd hname := by
    rw [struct_fields h.optionals ?_ hn hi hd hname, fieldsOf_iff]
    · exact h.args n hn i hi
    · intro m hm n hn hsome hsome' heq
      obtain ⟨i, hi⟩ := Option.isSome_iff_exists.mp hsome
      obtain ⟨j, hj⟩ := Option.isSome_iff_exists.mp hsome'
      exact (h.names hm hn hi hj).mp heq
  order n hn i hi t ht hsome := by
    have hplain : PlainArg t := by
      match i, h.args n hn i hi, ht with
      | (.result, [t', e']), hargs, ht =>
          rcases List.mem_cons.mp ht with rfl | ht
          · exact hargs.1
          · obtain rfl := List.mem_singleton.mp ht
            exact hargs.2
      | (.option, [t']), hargs, ht =>
          obtain rfl := List.mem_singleton.mp ht
          exact hargs
    rw [hplain.instanceOf] at hsome
    cases hsome

/-! ## Faithful programs -/

theorem Faithful.optionals {program : Node} (h : Faithful program) {n : Node}
    (hn : n ∈ walk program) : PlainOptional n := by
  by_contra hother
  obtain ⟨htype, hsome⟩ := optional_other hother
  have hcount := h.once n hn hsome
  rw [section_names, htype] at hcount
  obtain ⟨m, hm, hname⟩ := List.mem_map.mp (List.count_pos_iff.mp (hcount ▸ Nat.one_pos))
  obtain ⟨n', -, hentry⟩ := (tabled program).entries m hm
  -- the name of an entry starts with that of its generic type
  rw [(monoEntry_eq hentry).2, instName_eq] at hname
  have hhead := congrArg List.head? hname
  cases hbase : m.base with
  | result =>
      rw [hbase, fullName_result] at hhead
      exact absurd hhead (by simp)
  | option =>
      rw [hbase, fullName_option] at hhead
      exact absurd hhead (by simp)

theorem Faithful.struct_mem {program : Node} (h : Faithful program) {n : Node}
    (hn : n ∈ walk program) (hsome : (instanceOf n).isSome) :
    ∃ m ∈ monoCollect program, m.name = cgType n := by
  have hcount := h.once n hn hsome
  rw [section_names] at hcount
  exact List.mem_map.mp (List.count_pos_iff.mp (hcount ▸ Nat.one_pos))

theorem Faithful.plain {program : Node} (h : Faithful program) : Plain program where
  optionals n hn := h.optionals hn
  args n hn i hi := by
    have hsome : (instanceOf n).isSome := by
      rw [hi]
      rfl
    obtain ⟨m, hm, hname⟩ := h.struct_mem hn hsome
    have hd : monoEmit m ∈ monoSection program := List.mem_map_of_mem hm
    have hdname : (monoEmit m).name = cgType n := (monoEmit_name m).trans hname
    rw [← fieldsOf_iff, ← h.fields n hn i hi _ hd hdname]
    refine (struct_fields (fun n hn => h.optionals hn) ?_ hn hi hd hdname).symm
    intro m hm n hn hsome hsome' heq
    exact (h.names m hm n hn hsome hsome').mp heq
  apart m hm n hn i j hi hj hne hc := by
    refine hne ((h.names m hm n hn (by rw [hi]; rfl) (by rw [hj]; rfl)).mp ?_)
    rw [(instance_entry hi (h.optionals hm)).1, (instance_entry hj (h.optionals hn)).1]
    exact hc.instName_eq
  count := by
    refine ⟨tableForms program, ?_, fun n hn f hf => ?_⟩
    · rw [tableForms, List.length_map]
      exact (tabled program).bounded
    · obtain ⟨i, hi, rfl⟩ := Option.map_eq_some_iff.mp hf
      have hsome : (instanceOf n).isSome := by
        rw [hi]
        rfl
      obtain ⟨m, hm, hname⟩ := h.struct_mem hn hsome
      obtain ⟨n', hn', hi', htype⟩ := struct_instance (fun n hn => h.optionals hn) hm
      have hform := (h.names n' hn' n hn (by rw [hi']; rfl) hsome).mp (htype.trans hname)
      rw [instanceForm, hi', hf] at hform
      exact List.mem_map.mpr ⟨m, hm, Option.some.inj hform⟩

/-- The structs of a program are those of its instances just when the arguments are plain,
no two instances are confused, and the table has room for all. -/
theorem faithful_iff_plain (program : Node) : Faithful program ↔ Plain program :=
  ⟨Faithful.plain, Plain.faithful⟩

/-- A type by its name. -/
def named (name : String) (generics : List Node) : Node :=
  { kind := .typeNamed, name := some name, generics := generics }

/-- `Option<[]T>`, for a name `T`. -/
def optionOfSlice (name : String) : Node :=
  named "Option" [{ kind := .typeSlice, left := [named name []] }]

/-- `type Ints = Option<[]int>` and `type Words = Option<[]string>`. -/
def slices : Node where
  kind := .program
  params := [{ kind := .typeAlias, name := some "Ints", typeExpr := [optionOfSlice "int"] },
    { kind := .typeAlias, name := some "Words", typeExpr := [optionOfSlice "string"] }]

/-- Two instances that are not the same have one struct. -/
theorem slices_share_struct : ¬ Faithful slices := by
  intro h
  have hname : cgType (optionOfSlice "int") = cgType (optionOfSlice "string") := rfl
  have hints : optionOfSlice "int" ∈ walk slices := by
    simp [slices, optionOfSlice, named, walk, walkAll]
  have hwords : optionOfSlice "string" ∈ walk slices := by
    simp [slices, optionOfSlice, named, walk, walkAll]
  have hform := (h.names _ hints _ hwords rfl rfl).mp hname
  simp [instanceForm, instanceOf, optionOfSlice, named, typeForms, typeForm, aliasOf] at hform

end Limceron.Generics
