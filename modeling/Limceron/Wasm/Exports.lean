/-
# `Limceron.Wasm.Exports` — the exports of the emitted module

`emit_module` exports each function under its symbol and under the name behind
`lcn_`, and then what a host asks for:

| export | of | when |
| :-- | :-- | :-- |
| `memory` | the memory | always |
| `agent_main` | `$lcn_main` | there is a `main` and no `agent_main` |
| `_start` | a wrapper of `$lcn_main` | there is a `main` |

A program may declare these names as well, or have `f` and `lcn_f`.
-/
import Limceron.Gen.Resolve

namespace Limceron.Wasm

open Gen

/-! ## The source -/

inductive ExportTarget where
  | memory
  | func (symbol : String)
  /-- The function `$_start`, which `emit_module` writes itself. -/
  | start
  deriving DecidableEq, Repr

structure WasmExport where
  name : String
  target : ExportTarget
  deriving DecidableEq, Repr

/-- `user_name_for`. -/
def userNameFor (name : String) : String :=
  if "lcn_".toList.isPrefixOf name.toList then String.ofList (name.toList.drop 4) else name

/-- The exports of one function. -/
def functionExports (name : String) : List WasmExport :=
  let uname := userNameFor name
  ⟨uname, .func name⟩ :: if uname ≠ name then [⟨name, .func name⟩] else []

/-- The exports that `emit_module` writes. -/
def moduleExports (mod : IrModule) : List WasmExport :=
  let names := mod.functions.map (·.name)
  let unames := names.map userNameFor
  ⟨"memory", .memory⟩ :: (names.flatMap functionExports ++
    ((if "main" ∈ unames ∧ "agent_main" ∉ unames then [⟨"agent_main", .func "lcn_main"⟩] else []) ++
      (if "main" ∈ unames then [⟨"_start", .start⟩] else [])))

/-! ## What is asked of them -/

/-- The name of a function for the user, before it is cut to fit a buffer. -/
def ownName : Origin → String
  | .main name => name
  | .ofModule stem name => "__" ++ stem ++ "_" ++ name
  | .ofAgent _ agent name => "__" ++ kebabCase agent ++ "_" ++ name
  | .trampoline => "main"

/-- No name is exported twice, and the own name of a function is that function. -/
structure ExportsUnambiguous (wit : HostErrors) (p : Program) : Prop where
  distinct : ((moduleExports (irGenProgram wit p)).map (·.name)).Nodup
  own : ∀ l ∈ lowerProgram wit p, ∀ l' ∈ lowerProgram wit p,
    ⟨ownName l.origin, .func l'.fn.name⟩ ∈ moduleExports (irGenProgram wit p) ↔
      l'.origin = l.origin

/-- What names must keep clear of. -/
structure ExportsClear (p : Program) : Prop where
  labels : ((origins p).map Origin.label).Nodup
  prefixed : ∀ o ∈ origins p, "lcn_".toList ++ o.label ∉ (origins p).map Origin.label
  memory : "memory".toList ∉ (origins p).map Origin.label
  start : "main".toList ∈ (origins p).map Origin.label →
    "_start".toList ∉ (origins p).map Origin.label
  /-- The name was not cut, or it is what the cut made of it. -/
  fits : ∀ o ∈ origins p, (ownName o).length ≤ 251 ∨ ownName o = o.symbol

/-- Functions, agents and methods as they are declared. -/
def declaredNames (p : Program) : List String :=
  p.decls.flatMap fun
    | .fn d => [d.name]
    | .agent a => a.name :: a.fns.map (·.name)
    | .other => []

/-! ## Exports of symbols -/

theorem nodup_flatMap_pair {α : Type} {g : α → α} (hg : Function.Injective g) (hne : ∀ a, g a ≠ a)
    (xs : List α) :
    (xs.flatMap fun a => [a, g a]).Nodup ↔ xs.Nodup ∧ ∀ a ∈ xs, g a ∉ xs := by
  induction xs with
  | nil => simp
  | cons x xs ih =>
    have hmem : ∀ b, (b ∈ xs.flatMap fun a => [a, g a]) ↔ b ∈ xs ∨ ∃ a ∈ xs, b = g a := by
      intro b
      simp [List.mem_flatMap, exists_or, and_or_left]
    have hx : x ∉ [g x] := by simpa using (hne x).symm
    have hpair : ((x :: xs).flatMap fun a => [a, g a]) =
        x :: g x :: xs.flatMap fun a => [a, g a] := rfl
    rw [hpair, List.nodup_cons, List.nodup_cons, ih, List.nodup_cons, List.mem_cons, hmem, hmem]
    constructor
    · rintro ⟨h₁, h₂, h₃, h₄⟩
      refine ⟨⟨fun h => h₁ (.inr (.inl h)), h₃⟩, ?_⟩
      intro a ha hga
      rcases List.mem_cons.1 ha with rfl | ha
      · rcases List.mem_cons.1 hga with h | h
        · exact hne a h
        · exact h₂ (.inl h)
      · rcases List.mem_cons.1 hga with h | h
        · exact h₁ (.inr (.inr ⟨a, ha, h.symm⟩))
        · exact h₄ a ha h
    · rintro ⟨⟨h₁, h₂⟩, h₃⟩
      refine ⟨?_, ?_, h₂, fun a ha hga => h₃ a (.tail _ ha) (.tail _ hga)⟩
      · rintro (h | h | ⟨a, ha, h⟩)
        · exact hne x h.symm
        · exact h₁ h
        · exact h₃ a (.tail _ ha) (h ▸ .head _)
      · rintro (h | ⟨a, ha, h⟩)
        · exact h₃ x (.head _) (.tail _ h)
        · exact h₁ (hg h ▸ ha)

/-- A label with `lcn_` before it. -/
def mangle (label : List Char) : List Char := "lcn_".toList ++ label

theorem mangle_injective : Function.Injective mangle := fun _ _ h => List.append_cancel_left h

theorem mangle_ne (label : List Char) : mangle label ≠ label := by
  intro h
  have hlen := congrArg List.length h
  simp only [mangle, List.length_append] at hlen
  exact absurd hlen (by simp)

theorem toList_symbol (o : Origin) : o.symbol.toList = mangle o.label := by
  rw [Origin.symbol_eq, String.toList_ofList, mangle]

/-- Behind the `lcn_` of a symbol is the label. -/
theorem userNameFor_symbol (o : Origin) : userNameFor o.symbol = String.ofList o.label := by
  rw [userNameFor, toList_symbol, mangle]
  simp

/-- The exports of a function of the program. -/
theorem functionExports_symbol (o : Origin) : functionExports o.symbol =
    [⟨String.ofList o.label, .func o.symbol⟩, ⟨o.symbol, .func o.symbol⟩] := by
  have hne : String.ofList o.label ≠ o.symbol := by
    rw [Origin.symbol_eq, ne_eq, String.ofList_inj]
    exact fun h => mangle_ne o.label h.symm
  rw [functionExports, userNameFor_symbol, if_pos hne]

/-! ## Exports of a program -/

variable (wit : HostErrors) (p : Program)

/-- The labels of the functions. -/
def labels : List (List Char) := (origins p).map Origin.label

/-- The fixed names that are exported for a `main`. -/
def mainNames : List (List Char) :=
  (if (labels p).contains "main".toList && !(labels p).contains "agent_main".toList then
      ["agent_main".toList]
    else []) ++
    (if (labels p).contains "main".toList then ["_start".toList] else [])

theorem mainNames_eq :
    mainNames p = (if "main".toList ∈ labels p ∧ "agent_main".toList ∉ labels p then
        ["agent_main".toList]
      else []) ++ (if "main".toList ∈ labels p then ["_start".toList] else []) := by
  rw [mainNames]
  generalize "main".toList = main
  generalize "agent_main".toList = agentMain
  simp only [Bool.and_eq_true, Bool.not_eq_true', List.contains_iff_mem, ← Bool.not_eq_true]

theorem functions_names :
    (irGenProgram wit p).functions.map (·.name) = (origins p).map Origin.symbol := by
  rw [irGenProgram, List.map_map]
  exact lowerProgram_names wit p

/-- There is a function with this name for the user. -/
theorem mem_unames (name : String) :
    name ∈ ((irGenProgram wit p).functions.map (·.name)).map userNameFor ↔
      name.toList ∈ labels p := by
  rw [functions_names, List.map_map, labels, List.mem_map, List.mem_map]
  refine exists_congr fun o => and_congr_right fun _ => ?_
  rw [Function.comp_apply, userNameFor_symbol]
  constructor
  · rintro rfl
    rw [String.toList_ofList]
  · intro h
    rw [h, String.ofList_toList]

theorem moduleExports_eq : moduleExports (irGenProgram wit p) =
    ⟨"memory", .memory⟩ :: ((origins p).flatMap (functionExports ∘ Origin.symbol) ++
      ((if "main".toList ∈ labels p ∧ "agent_main".toList ∉ labels p
        then [⟨"agent_main", .func "lcn_main"⟩] else []) ++
        (if "main".toList ∈ labels p then [⟨"_start", .start⟩] else []))) := by
  simp only [moduleExports, mem_unames]
  rw [functions_names, List.flatMap_map]
  rfl

theorem moduleExports_names : (moduleExports (irGenProgram wit p)).map (·.name.toList) =
    "memory".toList :: (((labels p).flatMap fun l => [l, mangle l]) ++ mainNames p) := by
  have hfns : ((origins p).flatMap (functionExports ∘ Origin.symbol)).map (·.name.toList) =
      (labels p).flatMap fun l => [l, mangle l] := by
    rw [List.map_flatMap, labels, List.flatMap_map]
    refine List.flatMap_congr fun o _ => ?_
    rw [Function.comp_apply, functionExports_symbol]
    simp [toList_symbol]
  rw [moduleExports_eq, List.map_cons, List.map_append, hfns, mainNames_eq]
  congr 2
  split <;> split <;> rfl

/-! ## Distinct names -/

variable {p}

/-- A name that does not begin like a symbol is exported for a function if it is a label. -/
theorem mem_functionNames {name : List Char} (h : name.head? ≠ some 'l') :
    (name ∈ (labels p).flatMap fun l => [l, mangle l]) ↔ name ∈ labels p := by
  rw [List.mem_flatMap]
  constructor
  · rintro ⟨l, hl, hname⟩
    rcases List.mem_cons.1 hname with rfl | hname
    · exact hl
    · rw [List.mem_singleton] at hname
      subst hname
      exact absurd rfl h
  · intro hname
    exact ⟨name, hname, .head _⟩

variable (p)

theorem mainNames_nodup : (mainNames p).Nodup := by
  rw [mainNames_eq]
  split <;> split <;> decide

theorem memory_notMem_mainNames : "memory".toList ∉ mainNames p := by
  rw [mainNames_eq]
  split <;> split <;> decide

/-- The names for a `main` are free, but perhaps for `_start`. -/
theorem mainNames_disjoint :
    List.Disjoint ((labels p).flatMap fun l => [l, mangle l]) (mainNames p) ↔
      ("main".toList ∈ labels p → "_start".toList ∉ labels p) := by
  rw [mainNames_eq]
  constructor
  · intro h hmain hstart
    rw [if_pos hmain] at h
    exact h ((mem_functionNames (by decide)).2 hstart) (List.mem_append_right _ (.head _))
  · intro h name hname hfixed
    rcases List.mem_append.1 hfixed with hagent | hstart
    · split at hagent
      next hno =>
        obtain rfl := List.mem_singleton.1 hagent
        exact hno.2 ((mem_functionNames (by decide)).1 hname)
      next => cases hagent
    · split at hstart
      next hmain =>
        obtain rfl := List.mem_singleton.1 hstart
        exact h hmain ((mem_functionNames (by decide)).1 hname)
      next => cases hstart

/-- The names are distinct under these four conditions on the labels. -/
theorem distinct_iff : ((moduleExports (irGenProgram wit p)).map (·.name)).Nodup ↔
    (labels p).Nodup ∧ (∀ l ∈ labels p, mangle l ∉ labels p) ∧ "memory".toList ∉ labels p ∧
      ("main".toList ∈ labels p → "_start".toList ∉ labels p) := by
  have htoList : ((moduleExports (irGenProgram wit p)).map (·.name)).Nodup ↔
      ((moduleExports (irGenProgram wit p)).map (·.name.toList)).Nodup := by
    rw [← List.nodup_map_iff (f := String.toList) fun _ _ => String.toList_injective, List.map_map]
    rfl
  rw [htoList, moduleExports_names, List.nodup_cons, List.nodup_append', List.mem_append,
    mem_functionNames (by decide), mainNames_disjoint,
    nodup_flatMap_pair mangle_injective mangle_ne]
  simp only [memory_notMem_mainNames, mainNames_nodup, or_false, true_and]
  tauto

/-! ## Own names -/

theorem length_label_le (o : Origin) : o.label.length ≤ 251 := by
  cases o with
  | trampoline => decide
  | _ => exact List.length_take_le _ _

theorem label_eq_take (o : Origin) : o.label = (ownName o).toList.take 251 := by
  cases o with
  | trampoline => decide
  | _ => rfl

variable {p}

/-- A function is found under its own name if that was not cut. -/
theorem own_exported {o : Origin} (ho : o ∈ origins p)
    (hfits : (ownName o).length ≤ 251 ∨ ownName o = o.symbol) :
    ⟨ownName o, .func o.symbol⟩ ∈ moduleExports (irGenProgram wit p) := by
  rw [moduleExports_eq]
  refine List.mem_cons_of_mem _ (List.mem_append_left _ (List.mem_flatMap.2 ⟨o, ho, ?_⟩))
  rw [Function.comp_apply, functionExports_symbol]
  rcases hfits with hshort | hsymbol
  · have hlabel : String.ofList o.label = ownName o := by
      rw [label_eq_take, List.take_of_length_le, String.ofList_toList]
      rwa [String.length_toList]
    rw [hlabel]
    exact .head _
  · rw [hsymbol]
    exact .tail _ (.head _)

/-- Under what names a symbol is exported. -/
theorem exported_name {name symbol : String}
    (h : ⟨name, .func symbol⟩ ∈ moduleExports (irGenProgram wit p)) :
    (∃ o ∈ origins p, o.symbol = symbol ∧ (name = String.ofList o.label ∨ name = symbol)) ∨
      name = "agent_main" := by
  rw [moduleExports_eq] at h
  rcases List.mem_cons.1 h with h | h
  · cases h
  rcases List.mem_append.1 h with h | h
  · obtain ⟨o, ho, h⟩ := List.mem_flatMap.1 h
    rw [Function.comp_apply, functionExports_symbol] at h
    left
    refine ⟨o, ho, ?_⟩
    rcases List.mem_cons.1 h with h | h
    · obtain ⟨hname, htarget⟩ := WasmExport.mk.inj h
      exact ⟨(ExportTarget.func.inj htarget).symm, .inl hname⟩
    · obtain ⟨hname, htarget⟩ := WasmExport.mk.inj (List.mem_singleton.1 h)
      have hsymbol := ExportTarget.func.inj htarget
      exact ⟨hsymbol.symm, .inr (hname.trans hsymbol.symm)⟩
  · right
    rcases List.mem_append.1 h with h | h
    · split at h
      next => exact (WasmExport.mk.inj (List.mem_singleton.1 h)).1
      next => cases h
    · split at h
      next => cases (WasmExport.mk.inj (List.mem_singleton.1 h)).2
      next => cases h

theorem fits_of_exported {o : Origin}
    (h : ⟨ownName o, .func o.symbol⟩ ∈ moduleExports (irGenProgram wit p)) :
    (ownName o).length ≤ 251 ∨ ownName o = o.symbol := by
  rcases exported_name wit h with ⟨o', -, hsymbol, hname | hname⟩ | hname
  · left
    rw [hname, String.length_ofList, Origin.symbol_inj.1 hsymbol]
    exact length_label_le o
  · exact .inr hname
  · left
    rw [hname]
    decide

/-- Exports are unambiguous if the labels keep clear of each other, of the
symbols and of the fixed names, and only then. -/
theorem exports_unambiguous_iff (wit : HostErrors) (p : Program) :
    ExportsUnambiguous wit p ↔ ExportsClear p := by
  constructor
  · intro h
    obtain ⟨hlabels, hprefixed, hmemory, hstart⟩ := (distinct_iff wit p).1 h.distinct
    refine ⟨hlabels, fun o ho => hprefixed _ (List.mem_map.2 ⟨o, ho, rfl⟩), hmemory, hstart, ?_⟩
    intro o ho
    obtain ⟨l, hl, rfl, hname⟩ := origins_mem wit ho
    have hown := (h.own l hl l hl).2 rfl
    rw [hname] at hown
    exact fits_of_exported wit hown
  · intro h
    have hdistinct := (distinct_iff wit p).2 ⟨h.labels, by
      intro l hl
      obtain ⟨o, ho, rfl⟩ := List.mem_map.1 hl
      exact h.prefixed o ho, h.memory, h.start⟩
    refine ⟨hdistinct, ?_⟩
    intro l hl l' hl'
    obtain ⟨ho, _, hlow, -⟩ := lowerProgram_mem hl
    obtain ⟨ho', _, hlow', -⟩ := lowerProgram_mem hl'
    have hown := own_exported wit ho (h.fits _ ho)
    constructor
    · intro hmem
      have hsame := congrArg WasmExport.target
        (List.inj_on_of_nodup_map hdistinct hmem hown rfl)
      have hsymbol := ExportTarget.func.inj hsame
      rw [hlow'.name, Origin.symbol_inj] at hsymbol
      exact List.inj_on_of_nodup_map h.labels ho' ho hsymbol
    · intro horigin
      rw [hlow'.name, horigin]
      exact hown

/-- `fn f() { }` and `fn lcn_f() { }`. -/
def prefixedProgram : Program where
  decls := [.fn { name := "f" }, .fn { name := "lcn_f" }]

/-- `lcn_f` is exported for the symbol of the first and the name of the second. -/
theorem exports_prefixed : ¬ ∀ (wit : HostErrors) (p : Program),
    (declaredNames p).Nodup → ExportsUnambiguous wit p := by
  intro h
  have hnodup := (h .empty prefixedProgram (by decide)).distinct
  exact (distinct_iff .empty prefixedProgram).1 hnodup |>.2.1 ['f'] (by decide) (by decide)

end Limceron.Wasm
