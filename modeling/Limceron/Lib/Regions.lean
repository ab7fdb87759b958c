/-
# `Limceron.Lib.Regions` — address ranges laid out in sequence

A `Region` is a half-open range of addresses.  Static layouts place one range
after the other with gaps for alignment; `Sequential lo rs hi` says so, and gives
what one wants of a layout: the ranges are pairwise disjoint and lie between
`lo` and `hi`.

Two sequences one after the other are a sequence (`Sequential.append`), so a
layout of several areas is checked area by area.

`WritesOnly` says that an operation writes within one region; what stands in a
disjoint one is kept.
-/
import Mathlib.Data.List.Basic

/-- The addresses from `start` up to and without `stop`. -/
structure Region where
  start : Nat
  stop : Nat
  deriving DecidableEq, Repr

namespace Region

/-- No address is in both. -/
def Disjoint (r s : Region) : Prop := r.stop ≤ s.start ∨ s.stop ≤ r.start

theorem Disjoint.symm {r s : Region} (h : r.Disjoint s) : s.Disjoint r := Or.symm h

/-- Each region of the list starts where the one before it has ended, the first
not before `lo`, and the last ends by `hi`. -/
def Sequential : Nat → List Region → Nat → Prop
  | lo, [], hi => lo ≤ hi
  | lo, r :: rs, hi => lo ≤ r.start ∧ r.start ≤ r.stop ∧ Sequential r.stop rs hi

theorem Sequential.le {lo hi : Nat} {rs : List Region} (h : Sequential lo rs hi) : lo ≤ hi := by
  induction rs generalizing lo with
  | nil => exact h
  | cons r rs ih => exact Nat.le_trans h.1 (Nat.le_trans h.2.1 (ih h.2.2))

theorem Sequential.mem {lo hi : Nat} {rs : List Region} (h : Sequential lo rs hi) {r : Region}
    (hr : r ∈ rs) : lo ≤ r.start ∧ r.start ≤ r.stop ∧ r.stop ≤ hi := by
  induction rs generalizing lo with
  | nil => simp at hr
  | cons s rs ih =>
      obtain ⟨hlo, hle, htail⟩ := h
      rcases List.mem_cons.mp hr with rfl | hr
      · exact ⟨hlo, hle, htail.le⟩
      · obtain ⟨h₁, h₂, h₃⟩ := ih htail hr
        exact ⟨by omega, h₂, h₃⟩

theorem Sequential.mono {lo lo' hi hi' : Nat} {rs : List Region} (h : Sequential lo rs hi)
    (hlo : lo' ≤ lo) (hhi : hi ≤ hi') : Sequential lo' rs hi' := by
  induction rs generalizing lo lo' with
  | nil => exact Nat.le_trans hlo (Nat.le_trans h hhi)
  | cons r rs ih => exact ⟨Nat.le_trans hlo h.1, h.2.1, ih h.2.2 (Nat.le_refl _)⟩

theorem Sequential.append {lo mid hi : Nat} {rs ss : List Region} (h : Sequential lo rs mid)
    (h' : Sequential mid ss hi) : Sequential lo (rs ++ ss) hi := by
  induction rs generalizing lo with
  | nil => exact h'.mono h (Nat.le_refl _)
  | cons r rs ih => exact ⟨h.1, h.2.1, ih h.2.2⟩

/-- The regions of a sequence are pairwise disjoint. -/
theorem Sequential.pairwise {lo hi : Nat} {rs : List Region} (h : Sequential lo rs hi) :
    rs.Pairwise Disjoint := by
  induction rs generalizing lo with
  | nil => exact .nil
  | cons r rs ih => exact .cons (fun s hs => .inl (h.2.2.mem hs).1) (ih h.2.2)

/-! ## Writes -/

section
variable {α : Type*} {before after : Nat → α} {r s : Region}

/-- From `before` to `after` nothing outside of `r` has changed. -/
def WritesOnly (r : Region) (before after : Nat → α) : Prop :=
  ∀ x, x < r.start ∨ r.stop ≤ x → after x = before x

theorem WritesOnly.keeps (h : r.WritesOnly before after) (hd : r.Disjoint s) {x : Nat}
    (hlo : s.start ≤ x) (hhi : x < s.stop) : after x = before x := by
  refine h x ?_
  rcases hd with hd | hd
  · exact .inr (Nat.le_trans hd hlo)
  · exact .inl (Nat.lt_of_lt_of_le hhi hd)

end

end Region
