/-
# `Limceron.Lib.Ring` — queues in a ring of slots

A ring of `size` slots has its elements from the slot `head` on, and the slot
after the last one is the first (`contents`).  Putting an element behind the
last and taking the first are what they are on the list of the contents.  In a
full ring an element can also take the place of the oldest: then the contents
are the last `size` elements of all that were put in (`last`).

If the elements only grow, the last ones tell how many there are above a bound,
up to their number (`countP_last`).
-/
import Mathlib.Data.Int.Notation
import Mathlib.Data.List.Basic
import Mathlib.Logic.Function.Basic
import Mathlib.Order.Basic

namespace Ring

variable {α : Type*} {size head count : ℕ} {slots : ℕ → α}

/-- The elements from the head on. -/
def contents (size : ℕ) (slots : ℕ → α) (head count : ℕ) : List α :=
  (List.range count).map fun i => slots ((head + i) % size)

@[simp] theorem length_contents : (contents size slots head count).length = count := by
  simp [contents]

theorem contents_zero : contents size slots head 0 = [] := rfl

/-- Places less than the size apart are different slots. -/
theorem mod_ne {i j : ℕ} (hij : i < j) (hj : j < size) : (head + i) % size ≠ (head + j) % size := by
  intro h
  have hdvd : size ∣ j - i := by
    have hsub := Nat.sub_mod_eq_zero_of_mod_eq h.symm
    rw [Nat.add_sub_add_left] at hsub
    exact Nat.dvd_of_mod_eq_zero hsub
  have hle := Nat.le_of_dvd (by omega) hdvd
  omega

/-- Into the first free slot. -/
theorem contents_push (h : count < size) (a : α) :
    contents size (Function.update slots ((head + count) % size) a) head (count + 1) =
      contents size slots head count ++ [a] := by
  rw [contents, List.range_succ, List.map_append, List.map_singleton, Function.update_self]
  refine congrArg (· ++ [a]) (List.map_congr_left fun i hi => ?_)
  exact Function.update_of_ne (mod_ne (List.mem_range.1 hi) h) _ _

/-- The first and the rest. -/
theorem contents_pop :
    contents size slots head (count + 1) =
      slots (head % size) :: contents size slots ((head + 1) % size) count := by
  rw [contents, List.range_succ_eq_map, List.map_cons, List.map_map]
  refine congrArg _ (List.map_congr_left fun i _ => ?_)
  show slots ((head + (i + 1)) % size) = slots (((head + 1) % size + i) % size)
  rw [Nat.mod_add_mod, Nat.add_assoc, Nat.add_comm 1 i]

/-- Into the slot of the oldest, which the ring then starts behind. -/
theorem contents_overwrite (h : 0 < size) (a : α) :
    contents size (Function.update slots ((head + size) % size) a) ((head + 1) % size) size =
      (contents size slots head size).tail ++ [a] := by
  obtain ⟨n, rfl⟩ : ∃ n, size = n + 1 := ⟨size - 1, by omega⟩
  have hslot : (head + (n + 1)) % (n + 1) = ((head + 1) % (n + 1) + n) % (n + 1) := by
    rw [Nat.mod_add_mod]
    congr 1
    omega
  have hpush : contents (n + 1) (Function.update slots (((head + 1) % (n + 1) + n) % (n + 1)) a)
      ((head + 1) % (n + 1)) (n + 1) = contents (n + 1) slots ((head + 1) % (n + 1)) n ++ [a] :=
    contents_push (Nat.lt_succ_self n) a
  rw [hslot, hpush, contents_pop, List.tail_cons]

/-- The first free slot, and the one `i` slots before the last element. -/
theorem back_slot {tail i : ℕ} (hhead : head < size) (hcount : count ≤ size) (hi : i < count)
    (htail : tail = (head + count) % size) :
    (if (tail : ℤ) - 1 - i < 0 then (tail : ℤ) - 1 - i + size else (tail : ℤ) - 1 - i).toNat =
      (head + (count - 1 - i)) % size := by
  rcases Nat.lt_or_ge (head + count) size with hlt | hge
  · rw [Nat.mod_eq_of_lt hlt] at htail
    rw [Nat.mod_eq_of_lt (by omega), if_neg (by omega)]
    omega
  · rw [Nat.mod_eq_sub_mod hge, Nat.mod_eq_of_lt (by omega)] at htail
    rcases Nat.lt_or_ge (head + (count - 1 - i)) size with hlow | hhigh
    · rw [Nat.mod_eq_of_lt hlow, if_pos (by omega)]
      omega
    · rw [Nat.mod_eq_sub_mod hhigh, Nat.mod_eq_of_lt (by omega), if_neg (by omega)]
      omega

/-! ## The last elements -/

/-- The last `n`. -/
def last (n : ℕ) (l : List α) : List α := l.drop (l.length - n)

theorem last_of_le {n : ℕ} {l : List α} (h : l.length ≤ n) : last n l = l := by
  rw [last, Nat.sub_eq_zero_of_le h, List.drop_zero]

theorem length_last (n : ℕ) (l : List α) : (last n l).length = min n l.length := by
  rw [last, List.length_drop]
  omega

theorem last_snoc {n : ℕ} {l : List α} (h : n ≤ l.length) (hn : 0 < n) (a : α) :
    last n (l ++ [a]) = (last n l).tail ++ [a] := by
  have hlen : (l ++ [a]).length - n = (l.length - n) + 1 := by
    rw [List.length_append, List.length_singleton]
    omega
  rw [last, hlen, List.drop_append_of_le_length (by omega), last, List.tail_drop]

/-- The last elements, from the last one on. -/
theorem map_back {w : ℕ} (hw : w ≤ count) :
    ((List.range w).map fun i => slots ((head + (count - 1 - i)) % size)) =
      (last w (contents size slots head count)).reverse := by
  refine List.ext_getElem ?_ fun i hi hi' => ?_
  · simp [length_last, hw]
  · have hi'' : i < w := by simpa using hi
    simp only [List.getElem_map, List.getElem_range, List.getElem_reverse, last,
      List.getElem_drop, contents, List.length_drop, List.length_map, List.length_range]
    congr 2
    omega

/-- What only grows is above a bound from some place on. -/
theorem countP_last {n : ℕ} {l : List α} {p : α → Bool}
    (h : l.Pairwise fun a b => p a = true → p b = true) :
    (last n l).countP p = min n (l.countP p) := by
  induction l with
  | nil => simp [last]
  | cons a l ih =>
      obtain ⟨ha, hl⟩ := List.pairwise_cons.1 h
      by_cases hn : n ≤ l.length
      · have hlast : last n (a :: l) = last n l := by
          rw [last, last, List.length_cons, Nat.succ_sub hn, List.drop_succ_cons]
        rw [hlast, ih hl, List.countP_cons]
        split
        · have hall : l.countP p = l.length := List.countP_eq_length.2 fun b hb => ha b hb ‹_›
          omega
        · rfl
      · rw [last_of_le (by rw [List.length_cons]; omega)]
        have hle := (a :: l).countP_le_length (p := p)
        rw [List.length_cons] at hle
        omega

end Ring
