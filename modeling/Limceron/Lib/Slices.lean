/-
# `Limceron.Lib.Slices` — slices of a list, and a chain of them

A slice is given by its two ends.  A chain (`Chain`) begins each slice at or before the end of
the one before and ends it no earlier, so that without what each of them has in common with
the one before they make up the list again (`joined_chain`).
-/
import Mathlib.Data.List.TakeDrop

namespace Slices

variable {α : Type*}

/-- What is from `p` on and before `q`. -/
def slice (l : List α) (p q : ℕ) : List α := (l.take q).drop p

theorem length_slice {l : List α} {p q : ℕ} (h : q ≤ l.length) : (slice l p q).length = q - p := by
  rw [slice, List.length_drop, List.length_take, Nat.min_eq_left h]

theorem slice_append_drop {l : List α} {p q : ℕ} (h : p ≤ q) :
    slice l p q ++ l.drop q = l.drop p := by
  have hsplit : l.drop p = (l.take q ++ l.drop q).drop p := by rw [List.take_append_drop]
  rcases Nat.lt_or_ge l.length p with hp | hp
  · rw [slice, List.drop_eq_nil_of_le (Nat.le_of_lt hp),
      List.drop_eq_nil_of_le (Nat.le_of_lt (Nat.lt_of_lt_of_le hp h)), List.append_nil]
    exact List.drop_eq_nil_of_le (Nat.le_trans (List.length_take_le' ..) (Nat.le_of_lt hp))
  · have hlen : p ≤ (l.take q).length := by
      rw [List.length_take]
      omega
    rw [hsplit, List.drop_append_of_le_length hlen, slice]

theorem drop_slice (l : List α) (p q n : ℕ) : (slice l p q).drop n = slice l (p + n) q := by
  rw [slice, List.drop_drop, slice]

/-! ## Chains -/

/-- Each slice without what the one before, which ends at `e`, has already. -/
def joined (l : List α) : ℕ → List (ℕ × ℕ) → List α
  | _, [] => []
  | e, (p, q) :: cs => (slice l p q).drop (e - p) ++ joined l q cs

/-- From `e` on to `n`. -/
inductive Chain (n : ℕ) : ℕ → List (ℕ × ℕ) → Prop
  | done : Chain n n []
  | cons {e p q : ℕ} {cs : List (ℕ × ℕ)} (hp : p ≤ e) (hq : e ≤ q) (h : Chain n q cs) :
      Chain n e ((p, q) :: cs)

theorem joined_chain {l : List α} {e : ℕ} {cs : List (ℕ × ℕ)} (h : Chain l.length e cs) :
    joined l e cs = l.drop e := by
  induction h with
  | done => exact (List.drop_eq_nil_of_le (Nat.le_refl _)).symm
  | @cons e p q cs hp hq _ ih =>
      rw [joined, ih, drop_slice, Nat.add_sub_cancel' hp, slice_append_drop hq]

end Slices
