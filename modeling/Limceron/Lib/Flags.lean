/-
# `Limceron.Lib.Flags` — named single-bit flags in a machine word

A table gives names to bit positions of a word of `w` bits; a name given twice
has the later position.  A set of flags is the bitwise or of their values, and a
flag is tested by `&`.  A position outside of the word has no value.

With all positions inside of the word and pairwise different, testing flags is
testing names: `passes_iff`.
-/
import Mathlib.Data.List.Basic

namespace Flags

variable {ν : Type*} [DecidableEq ν] {w : Nat}

/-- One entry of the table: `name` is bit `bit`. -/
structure Flag (ν : Type*) where
  name : ν
  bit : Nat
  deriving DecidableEq

/-- The entry in force for a name: the last one. -/
def entry (table : List (Flag ν)) (n : ν) : Option (Flag ν) :=
  table.reverse.find? (fun f => decide (f.name = n))

/-- The word with the flag's bit, if it is a bit of the word. -/
def Flag.word (w : Nat) (f : Flag ν) : Option (BitVec w) :=
  if f.bit < w then some (BitVec.twoPow w f.bit) else none

def value (w : Nat) (table : List (Flag ν)) (n : ν) : Option (BitVec w) :=
  (entry table n).bind (Flag.word w)

/-- The bitwise or of the flags named. -/
def union (w : Nat) (table : List (Flag ν)) : List ν → Option (BitVec w)
  | [] => some 0
  | n :: ns => (value w table n).bind fun v => (union w table ns).map (v ||| ·)

/-- Every flag named has a value and is set in `m`. -/
def passes (table : List (Flag ν)) (m : BitVec w) (ns : List ν) : Bool :=
  ns.all fun n =>
    match value w table n with
    | some v => decide (m &&& v ≠ 0)
    | none => false

/-- The positions are bits of the word, and different entries have different ones. -/
structure Sound (w : Nat) (table : List (Flag ν)) : Prop where
  inside : ∀ f ∈ table, f.bit < w
  apart : ∀ f ∈ table, ∀ f' ∈ table, f.bit = f'.bit → f = f'

/-! ## One flag -/

theorem entry_mem {table : List (Flag ν)} {n : ν} {f : Flag ν} (h : entry table n = some f) :
    f ∈ table ∧ f.name = n := by
  refine ⟨List.mem_reverse.mp (List.mem_of_find?_eq_some h), ?_⟩
  simpa using List.find?_some h

theorem entry_isSome {table : List (Flag ν)} {f : Flag ν} (h : f ∈ table) :
    ∃ f', entry table f.name = some f' := by
  refine Option.isSome_iff_exists.mp ?_
  rw [entry, List.find?_isSome]
  exact ⟨f, List.mem_reverse.mpr h, by simp⟩

theorem value_eq_some {table : List (Flag ν)} {n : ν} {v : BitVec w}
    (h : value w table n = some v) :
    ∃ f ∈ table, f.name = n ∧ f.bit < w ∧ v = BitVec.twoPow w f.bit := by
  obtain ⟨f, hf, hv⟩ := Option.bind_eq_some_iff.mp h
  obtain ⟨hm, hn⟩ := entry_mem hf
  rw [Flag.word] at hv
  split at hv
  case isTrue hlt => exact ⟨f, hm, hn, hlt, (Option.some.inj hv).symm⟩
  case isFalse => cases hv

theorem value_of_mem {table : List (Flag ν)} (hs : ∀ f ∈ table, f.bit < w) {f : Flag ν}
    (hf : f ∈ table) : ∃ v : BitVec w, value w table f.name = some v := by
  obtain ⟨f', hf'⟩ := entry_isSome hf
  have hlt : f'.bit < w := hs f' (entry_mem hf').1
  exact ⟨BitVec.twoPow w f'.bit, by simp [value, hf', Flag.word, hlt]⟩

/-- The last entry of the table is in force, also when it has no value. -/
theorem value_last (table : List (Flag ν)) (f : Flag ν) :
    value w (table ++ [f]) f.name = f.word w := by
  simp [value, entry]

theorem value_inj {table : List (Flag ν)} (hs : Sound w table) {n n' : ν} {v : BitVec w}
    (h : value w table n = some v) (h' : value w table n' = some v) : n = n' := by
  obtain ⟨f, hf, rfl, hlt, rfl⟩ := value_eq_some h
  obtain ⟨f', hf', rfl, hlt', he⟩ := value_eq_some h'
  have hbit : f.bit = f'.bit := by
    have hget := congrArg (fun v => v.getLsbD f.bit) he
    simpa [BitVec.getLsbD_twoPow, hlt] using hget.symm
  rw [hs.apart f hf f' hf' hbit]

/-! ## Sets of flags -/

theorem union_isSome {table : List (Flag ν)} {ns : List ν}
    (h : ∀ n ∈ ns, ∃ v : BitVec w, value w table n = some v) :
    ∃ m : BitVec w, union w table ns = some m := by
  induction ns with
  | nil => exact ⟨0, rfl⟩
  | cons n ns ih =>
      obtain ⟨v, hv⟩ := h n List.mem_cons_self
      obtain ⟨m, hm⟩ := ih (fun n' hn => h n' (List.mem_cons_of_mem n hn))
      exact ⟨v ||| m, by simp [union, hv, hm]⟩

/-- The bits of a set of flags are the bits of its members. -/
theorem union_getLsbD {table : List (Flag ν)} {ns : List ν} {m : BitVec w}
    (h : union w table ns = some m) (k : Nat) :
    m.getLsbD k = true ↔ ∃ n ∈ ns, ∃ v, value w table n = some v ∧ v.getLsbD k = true := by
  induction ns generalizing m with
  | nil =>
      obtain rfl : 0 = m := Option.some.inj h
      simp
  | cons n ns ih =>
      obtain ⟨v, hv, h⟩ := Option.bind_eq_some_iff.mp h
      obtain ⟨m', hm', rfl⟩ := Option.map_eq_some_iff.mp h
      rw [BitVec.getLsbD_or, Bool.or_eq_true, ih hm']
      simp [hv]

theorem and_twoPow_ne_zero {m : BitVec w} {k : Nat} (hk : k < w) :
    m &&& BitVec.twoPow w k ≠ 0 ↔ m.getLsbD k = true := by
  rw [BitVec.and_twoPow]
  split
  case isTrue h =>
    refine iff_of_true ?_ h
    intro h0
    have hbit := congrArg (fun v => v.getLsbD k) h0
    simp [hk] at hbit
  case isFalse h => simpa using h

/-- Testing the flags `asked` in the word of the flags `held` is testing names. -/
theorem passes_iff {table : List (Flag ν)} (hs : Sound w table) {held asked : List ν}
    (hh : ∀ n ∈ held, ∃ f ∈ table, f.name = n) {m : BitVec w}
    (hm : union w table held = some m) :
    passes table m asked = true ↔ ∀ n ∈ asked, n ∈ held := by
  rw [passes, List.all_eq_true]
  refine forall₂_congr fun n _ => ?_
  cases hv : value w table n with
  | none =>
      refine iff_of_false (by simp) ?_
      intro hn
      obtain ⟨f, hf, rfl⟩ := hh n hn
      obtain ⟨v, hv'⟩ := value_of_mem hs.inside hf
      rw [hv] at hv'
      cases hv'
  | some v =>
      obtain ⟨f, hf, rfl, hlt, rfl⟩ := value_eq_some hv
      rw [decide_eq_true_iff, and_twoPow_ne_zero hlt, union_getLsbD hm]
      constructor
      · rintro ⟨n, hn, v, hv', hbit⟩
        obtain ⟨f', hf', rfl, hlt', rfl⟩ := value_eq_some hv'
        have hb : f.bit = f'.bit := by simpa [BitVec.getLsbD_twoPow, hlt] using hbit
        rwa [hs.apart f hf f' hf' hb]
      · intro hn
        exact ⟨f.name, hn, _, hv, by simp [hlt]⟩

end Flags
