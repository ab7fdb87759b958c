/-
# `Limceron.Lib.Turns` — taking turns in a circle

Candidates sit in a circle, and whoever looks for one begins behind the last that
was found.  `next` is one search: the circle is a list, read from the place where
the search begins, and what was passed goes to its end.

| | |
| :-- | :-- |
| one search | the first of the eligible, which is then the last of them (`next_spec`) |
| as many searches as there are eligible | each of them once, in their order (`turns_all`) |

The places `0 … n - 1` of a circle, read from one of them on, are `order n start`.
-/
import Mathlib.Data.List.Basic
import Mathlib.Data.List.Perm.Basic

namespace Turns

variable {α : Type*} {eligible : α → Bool}

/-! ## Searching -/

/-- Past those who are not eligible, who have been passed already. -/
def next (eligible : α → Bool) : List α → List α → Option α × List α
  | passed, [] => (none, passed)
  | passed, x :: xs =>
      if eligible x then (some x, xs ++ (passed ++ [x])) else next eligible (passed ++ [x]) xs

/-- Who is found, search after search. -/
def turns (eligible : α → Bool) : ℕ → List α → List (Option α)
  | 0, _ => []
  | k + 1, circle => (next eligible [] circle).1 :: turns eligible k (next eligible [] circle).2

/-- The first of the eligible becomes the last. -/
theorem next_spec {passed xs rest : List α} {x : α} (hpassed : passed.filter eligible = [])
    (h : xs.filter eligible = x :: rest) :
    (next eligible passed xs).1 = some x ∧
      (next eligible passed xs).2.filter eligible = rest ++ [x] := by
  induction xs generalizing passed with
  | nil => cases h
  | cons y xs ih =>
      rw [List.filter_cons] at h
      split_ifs at h with hy
      · obtain ⟨rfl, rfl⟩ := List.cons.inj h
        rw [next, if_pos hy]
        refine ⟨rfl, ?_⟩
        rw [List.filter_append, List.filter_append, hpassed, List.nil_append, List.filter_cons,
          if_pos hy, List.filter_nil]
      · rw [next, if_neg hy]
        refine ih ?_ h
        rw [List.filter_append, hpassed, List.filter_cons, if_neg hy, List.filter_nil]
        rfl

/-- The searches find the eligible in their order. -/
theorem turns_eq {k : ℕ} {circle : List α} (h : k ≤ (circle.filter eligible).length) :
    turns eligible k circle = ((circle.filter eligible).take k).map some := by
  induction k generalizing circle with
  | zero => rfl
  | succ k ih =>
      cases hfilter : circle.filter eligible with
      | nil =>
          rw [hfilter] at h
          cases h
      | cons x rest =>
          obtain ⟨hfound, hrest⟩ := next_spec (List.filter_nil (p := eligible)) hfilter
          rw [hfilter, List.length_cons] at h
          have hlength : k ≤ ((next eligible [] circle).2.filter eligible).length := by
            rw [hrest, List.length_append, List.length_singleton]
            omega
          rw [turns, ih hlength, hfound, hrest, List.take_append_of_le_length (by omega)]
          rfl

/-- As many searches as there are eligible find each of them. -/
theorem turns_all (circle : List α) :
    turns eligible (circle.filter eligible).length circle =
      (circle.filter eligible).map some := by
  rw [turns_eq (Nat.le_refl _), List.take_length]

/-! ## Places in a circle -/

/-- The places from `start` on. -/
def order (n start : ℕ) : List ℕ := (List.range n).map fun j => (start + j) % n

theorem order_mod (n start : ℕ) : order n (start % n) = order n start := by
  rw [order, order]
  exact List.map_congr_left fun j _ => Nat.mod_add_mod _ _ _

/-- The first place, and where the search goes on. -/
theorem order_succ (n start : ℕ) :
    ∃ behind, order (n + 1) start = start % (n + 1) :: behind ∧
      order (n + 1) (start + 1) = behind ++ [start % (n + 1)] := by
  refine ⟨(List.range n).map fun j => (start + 1 + j) % (n + 1), ?_, ?_⟩
  · rw [order, List.range_succ_eq_map, List.map_cons, List.map_map, Nat.add_zero]
    refine congrArg _ (List.map_congr_left fun j _ => ?_)
    show (start + (j + 1)) % (n + 1) = _
    rw [Nat.add_assoc, Nat.add_comm 1 j]
  · rw [order, List.range_succ, List.map_append, List.map_singleton]
    congr 2
    rw [Nat.add_assoc, Nat.add_comm 1 n, Nat.add_mod_right]

/-- All places, each once. -/
theorem order_perm (n start : ℕ) : (order n start).Perm (List.range n) := by
  induction start with
  | zero =>
      have hself : order n 0 = (List.range n).map id := by
        refine List.map_congr_left fun j hj => ?_
        rw [Nat.zero_add, Nat.mod_eq_of_lt (List.mem_range.1 hj), id]
      rw [hself, List.map_id]
  | succ start ih =>
      cases n with
      | zero => rfl
      | succ n =>
          obtain ⟨behind, hhere, hnext⟩ := order_succ n start
          rw [hnext]
          refine (List.perm_append_singleton _ _).trans ?_
          rw [← hhere]
          exact ih

end Turns
