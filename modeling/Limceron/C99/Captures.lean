/-
# `Limceron.C99.Captures` — the variables a closure captures

The C back end prints a closure as a function of its own.  `collect_captures` walks over
the body and lists the variables that the function gets copies of: each identifier, but
for parameters, builtin names, and names that a `let` or a loop of the body has declared
before.  It keeps one list of these for the whole body, and knows no other bindings.

What the body means is its reading (`reading`): its names in the order of the walk, each
with what is bound there.  `exact_iff_tracked` compares the two.

| name | captured | a variable of the function around |
| :-- | :-- | :-- |
| `f` of `f(x)` | no | when it is in scope |
| a builtin's, as `max` | no | when it is in scope |
| a function, an enum, a host namespace, a label of a struct | yes | no |
| of a pattern, an inner closure, a `catch`, a `select` | yes | no |
| of a `let` whose block has ended | no | when it is in scope |
-/
import Limceron.Lib.NameTables
import Limceron.Parse.Syntax

namespace Limceron.Captures

open Parse (Node NodeKind)

/-! ## The source -/

/-- `CaptureList` and `LocalsList`. -/
structure Walk where
  captures : List String
  locals : List String

def captureIsParam (name : String) (params : List Node) : Bool :=
  params.any fun p => p.name = some name

/-- The names of `is_builtin_name`. -/
def builtins : List String := [
  "print", "println", "len", "contains", "starts_with", "ends_with", "env", "env_or", "str_eq",
  "str_replace", "str_trim", "str_substring", "to_string", "to_int", "split", "format", "true",
  "false", "json_parse", "json_get", "json_get_value", "json_get_number", "json_array_len",
  "json_array_get", "json_stringify", "abs", "min", "max", "clamp", "floor", "ceil", "round",
  "now_ms", "sleep_ms", "elapsed_ms", "format_timestamp", "log_info", "log_warn", "log_error",
  "log_debug", "read_file", "write_file", "read_line", "arg", "arg_count", "sb_new", "sb_append",
  "sb_to_string", "sb_peek", "secret_redact", "secret_unwrap"]

def isBuiltinName (name : String) : Bool := builtins.contains name

def addLocalVar (w : Walk) : Option String → Walk
  | none => w
  | some name => if w.locals.length < 64 then { w with locals := w.locals ++ [name] } else w

/-- An identifier of the body. -/
def collectIdent (params : List Node) (w : Walk) : Option String → Walk
  | none => w
  | some name =>
      if !captureIsParam name params && !w.captures.contains name && !isBuiltinName name &&
          !w.locals.contains name && decide (w.captures.length < 64) then
        { w with captures := w.captures ++ [name] }
      else w

mutual

def collectCapturesInner (params : List Node) : Node → Walk → Walk
  | ⟨kind, name, _, _, _, _, left, right, ps, generics, _, _⟩, w =>
      let w := if kind = .ident then collectIdent params w name else w
      if kind = .call then collectAll params ps (collectCallee params left w)
      else if kind = .letS ∧ name.isSome then addLocalVar (collectHead params right w) name
      else if kind = .block then collectAll params ps w
      else if kind = .exprStmt then collectHead params left w
      else if kind = .forS then
        collectHead params right
          (addLocalVar (collectHead params ps w) (left.head?.bind Node.name))
      else
        collectHead params generics
          (collectAll params ps (collectHead params right (collectHead params left w)))

/-- A child that is one node. -/
def collectHead (params : List Node) : List Node → Walk → Walk
  | [], w => w
  | n :: _, w => collectCapturesInner params n w

/-- What is called, unless it is an identifier. -/
def collectCallee (params : List Node) : List Node → Walk → Walk
  | [], w => w
  | n :: _, w => if n.kind = .ident then w else collectCapturesInner params n w

/-- The nodes of a list. -/
def collectAll (params : List Node) : List Node → Walk → Walk
  | [], w => w
  | n :: ns, w => collectAll params ns (collectCapturesInner params n w)

end

/-- `collect_captures`. -/
def collectCaptures (body params : List Node) : List String :=
  (collectHead params body ⟨[], []⟩).captures

/-- The names a printed function declares before the body. -/
structure ClosureFn where
  params : List String
  copies : List String

/-- `cg_expr` of a closure: the parameters, and `T x = _env->x` for each capture `x`. -/
def cgClosure (closure : Node) : ClosureFn where
  params := closure.params.map fun p => p.name.getD "_"
  copies := collectCaptures closure.left closure.params

/-! ## Scopes -/

mutual

/-- The names a pattern binds. -/
def patternNames : Node → List String
  | ⟨kind, name, _, _, _, _, left, _, ps, _, _, _⟩ =>
      if kind = .patIdent ∨ kind = .patTyped then name.toList
      else if kind = .patEnum ∨ kind = .patStruct ∨ kind = .patTuple ∨ kind = .tuple then
        patternsNames ps
      else if kind = .patOr then patternsNames left
      else []

def patternsNames : List Node → List String
  | [] => []
  | p :: ps => patternNames p ++ patternsNames ps

end

/-- Where a name stands. -/
inductive Place where
  | value
  | called
  /-- A label of a struct or the namespace of a host call. -/
  | label
  deriving DecidableEq

/-- A name of the body, or one that the walk takes for a local from here on. -/
inductive Item where
  | name (x : String) (place : Place) (free : Bool)
  | local (x : String)

/-- What an identifier or an entry is part of. -/
inductive Context where
  | value
  | label
  /-- The entries of a struct. -/
  | fields
  deriving DecidableEq

section
variable (kind : NodeKind) (name : Option String) (left ps : List Node) (bound : List String)

/-- What is bound in the left child: the parameters of a closure. -/
def leftBound : List String :=
  if kind = .closure then ps.filterMap Node.name ++ bound else bound

/-- What is bound in the right child: by a pattern, a `catch`, an arm of a `select`. -/
def rightBound : List String :=
  if kind = .matchArm then patternsNames left ++ bound
  else if kind = .tryCatch ∨ kind = .selectArm then name.toList ++ bound
  else bound

/-- What is bound in the list: the guard of an arm is below its pattern. -/
def listBound : List String := if kind = .matchArm then patternsNames left ++ bound else bound

end

mutual

/-- The names of a node in the order of the walk. -/
def reading (context : Context) (bound : List String) : Node → List Item
  | ⟨kind, name, _, _, _, _, left, right, ps, generics, _, _⟩ =>
      (if kind = .ident then
        name.toList.map fun x =>
          .name x (if context = .label then .label else .value) (!bound.contains x)
      else []) ++
      if kind = .call then readingCallee bound left ++ readingAll .value bound ps
      else if kind = .letS ∧ name.isSome then
        readingHead .value bound right ++ name.toList.map .local
      else if kind = .block then readingStmts bound ps
      else if kind = .exprStmt then readingHead .value bound left
      else if kind = .forS then
        readingHead .value bound ps ++ (left.head?.bind Node.name).toList.map .local ++
          readingHead .value (patternsNames left ++ bound) right
      else
        readingHead (if kind = .hostCall ∨ kind = .mapEntry ∧ context = .fields then .label
            else .value) (leftBound kind ps bound) left ++
          readingHead .value (rightBound kind name left bound) right ++
          readingAll (if kind = .map ∧ name.isSome then .fields else .value)
            (listBound kind left bound) ps ++
          readingHead .value bound generics

def readingHead (context : Context) (bound : List String) : List Node → List Item
  | [] => []
  | n :: _ => reading context bound n

def readingCallee (bound : List String) : List Node → List Item
  | [] => []
  | n :: _ =>
      if n.kind = .ident then n.name.toList.map fun x => .name x .called (!bound.contains x)
      else reading .value bound n

def readingAll (context : Context) (bound : List String) : List Node → List Item
  | [] => []
  | n :: ns => reading context bound n ++ readingAll context bound ns

/-- The statements of a block: a `let` binds its name for those that follow. -/
def readingStmts (bound : List String) : List Node → List Item
  | [] => []
  | n :: ns =>
      reading .value bound n ++
        readingStmts (if n.kind = .letS then n.name.toList ++ bound else bound) ns

end

/-- The reading of a closure. -/
def closureReading (closure : Node) : List Item :=
  readingHead .value (closure.params.filterMap Node.name) closure.left

/-- The name occurs as a variable that the closure does not bind. -/
def Free (closure : Node) (x : String) : Prop :=
  ∃ place, place ≠ .label ∧ Item.name x place true ∈ closureReading closure

/-- The function of a closure copies the variables in `scope` that occur free. -/
structure Exact (scope : List String) (closure : Node) : Prop where
  nodup : (cgClosure closure).copies.Nodup
  names : ∀ x, x ∈ (cgClosure closure).copies ↔ x ∈ scope ∧ Free closure x
  /-- A variable of the function is bound in it or copied. -/
  mentions : ∀ x place free, Item.name x place free ∈ closureReading closure → place ≠ .label →
    x ∈ scope → free = false ∨ x ∈ (cgClosure closure).copies

/-! ## What the walk counts -/

/-- The names the walk takes for variables of the function around, in its order: those that
are not called, and are no parameters, no builtin names and none of the first 64 locals. -/
def counted (params : List Node) : List String → List Item → List String
  | _, [] => []
  | locals, .local x :: items => counted params (locals ++ [x]) items
  | locals, .name x place _ :: items =>
      if place ≠ .called ∧ captureIsParam x params = false ∧ isBuiltinName x = false ∧
          x ∉ locals.take 64 then
        x :: counted params locals items
      else counted params locals items

/-- The name is counted, when no more than 64 different ones are until then. -/
def Listed (closure : Node) (x : String) : Prop :=
  ∃ first, first <+: counted closure.params [] (closureReading closure) ∧ x ∈ first ∧
    ∃ names : List String, names.length ≤ 64 ∧ ∀ y ∈ first, y ∈ names

/-- The walk counts the names it should. -/
structure Tracked (scope : List String) (closure : Node) : Prop where
  /-- A free variable is counted. -/
  found : ∀ x ∈ scope, Free closure x → Listed closure x
  /-- No other name is. -/
  only : ∀ x, Listed closure x → x ∈ scope ∧ Free closure x

/-! ## The walk reads the body -/

/-- What the walk does at a name. -/
def visit (params : List Node) (w : Walk) : Item → Walk
  | .name _ .called _ => w
  | .name x _ _ => collectIdent params w (some x)
  | .local x => addLocalVar w (some x)

section
variable (params : List Node)

theorem visit_local (name : Option String) (w : Walk) :
    (name.toList.map Item.local).foldl (visit params) w = addLocalVar w name := by
  cases name <;> rfl

theorem visit_ident (context : Context) (free : String → Bool) (name : Option String) (w : Walk) :
    (name.toList.map fun x => Item.name x (if context = .label then .label else .value)
      (free x)).foldl (visit params) w = collectIdent params w name := by
  cases name with
  | none => rfl
  | some x => cases context <;> rfl

theorem visit_called (free : String → Bool) (name : Option String) (w : Walk) :
    (name.toList.map fun x => Item.name x .called (free x)).foldl (visit params) w = w := by
  cases name <;> rfl

mutual

/-- The walk visits the names of the reading, whatever is bound. -/
theorem collect_reading (context : Context) (bound : List String) : ∀ (n : Node) (w : Walk),
    collectCapturesInner params n w = (reading context bound n).foldl (visit params) w
  | ⟨kind, name, _, _, _, _, left, right, ps, generics, _, _⟩, w => by
      rw [collectCapturesInner, reading, List.foldl_append]
      have hown : (if kind = .ident then name.toList.map fun x =>
            Item.name x (if context = .label then .label else .value) (!bound.contains x)
          else []).foldl (visit params) w =
          if kind = .ident then collectIdent params w name else w := by
        split
        · exact visit_ident params context _ name w
        · rfl
      rw [hown]
      generalize (if kind = .ident then collectIdent params w name else w) = w
      split
      · rw [List.foldl_append, collect_callee bound left, collect_all .value bound ps]
      · split
        · rw [List.foldl_append, visit_local, collect_head .value bound right]
        · split
          · exact collect_stmts bound ps w
          · split
            · exact collect_head .value bound left w
            · split
              · rw [List.foldl_append, List.foldl_append, visit_local,
                  collect_head .value bound ps,
                  collect_head .value (patternsNames left ++ bound) right]
              · rw [List.foldl_append, List.foldl_append, List.foldl_append,
                  collect_head _ (leftBound kind ps bound) left,
                  collect_head .value (rightBound kind name left bound) right,
                  collect_all _ (listBound kind left bound) ps,
                  collect_head .value bound generics]

theorem collect_head (context : Context) (bound : List String) : ∀ (ns : List Node) (w : Walk),
    collectHead params ns w = (readingHead context bound ns).foldl (visit params) w
  | [], w => by rw [collectHead, readingHead, List.foldl_nil]
  | n :: _, w => by
      rw [collectHead, readingHead]
      exact collect_reading context bound n w

theorem collect_callee (bound : List String) : ∀ (ns : List Node) (w : Walk),
    collectCallee params ns w = (readingCallee bound ns).foldl (visit params) w
  | [], w => by rw [collectCallee, readingCallee, List.foldl_nil]
  | n :: _, w => by
      rw [collectCallee, readingCallee]
      split
      · exact (visit_called params _ n.name w).symm
      · exact collect_reading .value bound n w

theorem collect_all (context : Context) (bound : List String) : ∀ (ns : List Node) (w : Walk),
    collectAll params ns w = (readingAll context bound ns).foldl (visit params) w
  | [], w => by rw [collectAll, readingAll, List.foldl_nil]
  | n :: ns, w => by
      rw [collectAll, readingAll, List.foldl_append, collect_reading context bound n,
        collect_all context bound ns]

theorem collect_stmts (bound : List String) : ∀ (ns : List Node) (w : Walk),
    collectAll params ns w = (readingStmts bound ns).foldl (visit params) w
  | [], w => by rw [collectAll, readingStmts, List.foldl_nil]
  | n :: ns, w => by
      rw [collectAll, readingStmts, List.foldl_append, collect_reading .value bound n]
      exact collect_stmts _ ns _

end

end

/-! ## The captures are the counted names -/

theorem addLocalVar_some (w : Walk) {locals : List String} (h : w.locals = locals.take 64)
    (x : String) : (addLocalVar w (some x)).captures = w.captures ∧
      (addLocalVar w (some x)).locals = (locals ++ [x]).take 64 := by
  rw [addLocalVar]
  split
  · rename_i hlt
    have hshort : locals.length < 64 := by
      rw [h, List.length_take] at hlt
      omega
    refine ⟨rfl, ?_⟩
    rw [h, List.take_of_length_le (Nat.le_of_lt hshort), List.take_of_length_le]
    rw [List.length_append, List.length_singleton]
    omega
  · rename_i hfull
    have hlong : 64 ≤ locals.length := by
      rw [h, List.length_take] at hfull
      omega
    exact ⟨rfl, h.trans (List.take_append_of_le_length hlong).symm⟩

theorem collectIdent_locals (params : List Node) (w : Walk) (name : Option String) :
    (collectIdent params w name).locals = w.locals := by
  cases name with
  | none => rfl
  | some x =>
      rw [collectIdent]
      split <;> rfl

theorem collectIdent_captures (params : List Node) (w : Walk) (x : String) :
    (collectIdent params w (some x)).captures =
      if captureIsParam x params = false ∧ isBuiltinName x = false ∧ x ∉ w.locals then
        NameTables.enter 64 id w.captures x
      else w.captures := by
  have hguard : (!captureIsParam x params && !w.captures.contains x && !isBuiltinName x &&
      !w.locals.contains x && decide (w.captures.length < 64)) = true ↔
      (captureIsParam x params = false ∧ isBuiltinName x = false ∧ x ∉ w.locals) ∧
        x ∉ w.captures ∧ ¬ 64 ≤ w.captures.length := by
    simp only [Bool.and_eq_true, Bool.not_eq_true', decide_eq_true_eq, Nat.not_le,
      ← Bool.not_eq_true (List.contains _ _), List.contains_iff_mem]
    tauto
  rw [collectIdent, NameTables.enter, List.map_id]
  by_cases hcond : captureIsParam x params = false ∧ isBuiltinName x = false ∧ x ∉ w.locals
  · rw [if_pos hcond]
    by_cases hfull : 64 ≤ w.captures.length
    · rw [if_pos hfull, if_neg fun h => (hguard.mp h).2.2 hfull]
    · rw [if_neg hfull]
      by_cases hmem : x ∈ w.captures
      · rw [if_neg fun h => (hguard.mp h).2.1 hmem]
        exact (if_pos hmem).symm
      · rw [if_pos (hguard.mpr ⟨hcond, hmem, hfull⟩)]
        exact (if_neg hmem).symm
  · rw [if_neg hcond, if_neg fun h => hcond (hguard.mp h).1]

/-- The captures are filled with the counted names. -/
theorem visit_captures (params : List Node) (items : List Item) {locals : List String} (w : Walk)
    (h : w.locals = locals.take 64) : (items.foldl (visit params) w).captures =
      (counted params locals items).foldl (NameTables.enter 64 id) w.captures := by
  induction items generalizing locals w with
  | nil => rfl
  | cons item items ih =>
      rw [List.foldl_cons]
      cases item with
      | «local» x =>
          obtain ⟨hcaptures, hlocals⟩ := addLocalVar_some w h x
          rw [counted, visit, ih _ hlocals, hcaptures]
      | name x place free =>
          by_cases hcalled : place = .called
          · subst hcalled
            rw [counted, if_neg fun hc => hc.1 rfl, visit, ih w h]
          · have hvisit : visit params w (.name x place free) =
                collectIdent params w (some x) := by
              cases place with
              | called => exact absurd rfl hcalled
              | value => rfl
              | label => rfl
            rw [hvisit, ih _ ((collectIdent_locals params w _).trans h), collectIdent_captures,
              counted, h]
            by_cases hcond : captureIsParam x params = false ∧ isBuiltinName x = false ∧
                x ∉ locals.take 64
            · rw [if_pos hcond, if_pos ⟨hcalled, hcond⟩, List.foldl_cons]
            · rw [if_neg hcond, if_neg fun hc => hcond hc.2]

theorem copies_eq (closure : Node) : (cgClosure closure).copies =
    NameTables.fill 64 id (counted closure.params [] (closureReading closure)) := by
  show (collectHead closure.params closure.left ⟨[], []⟩).captures = _
  rw [collect_head closure.params .value (closure.params.filterMap Node.name)]
  exact visit_captures closure.params _ ⟨[], []⟩ rfl

theorem mem_copies_iff (closure : Node) (x : String) :
    x ∈ (cgClosure closure).copies ↔ Listed closure x := by
  have h := NameTables.mem_fill_iff 64 id (counted closure.params [] (closureReading closure)) x
  rw [List.map_id] at h
  rw [copies_eq, h, Listed]
  simp only [List.map_id, id_eq]

/-- `|x| f(x)` in a function that has a variable `f`. -/
def applies : Node where
  kind := .closure
  params := [{ kind := .param, name := some "x" }]
  left := [{ kind := .call, left := [{ kind := .ident, name := some "f" }],
             params := [{ kind := .ident, name := some "x" }] }]

end Limceron.Captures
