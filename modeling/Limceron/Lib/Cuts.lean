/-
# `Limceron.Lib.Cuts` — cutting a list at a pattern

A pattern is looked for from the left, and again behind each place where it was found:

| | |
| :-- | :-- |
| `find d s` | what stands before the first occurrence of `d`, and what from there on |
| `cuts d s` | the parts between the occurrences |
| `occurrences d s` | how many there are |

The parts do not have the pattern (`not_infix_of_mem_cuts`), and with it between them they
are the list (`intercalate_cuts`).
-/
import Mathlib.Data.List.Infix

namespace Cuts

variable {α : Type*} {d : List α}

/-! ## The first occurrence -/

/-- The first occurrence of `d` stands behind `before`. -/
structure First (d s before found : List α) : Prop where
  split : s = before ++ found
  here : d <+: found
  notBefore : ∀ i < before.length, ¬ d <+: s.drop i

/-- The occurrence, and what is left behind it. -/
theorem First.eq {s before found : List α} (h : First d s before found) :
    s = before ++ d ++ found.drop d.length := by
  rw [List.append_assoc, List.prefix_iff_eq_append.1 h.here, h.split]

theorem First.length_lt {s before found : List α} (h : First d s before found) (hd : d ≠ []) :
    (found.drop d.length).length < s.length := by
  have hlength := congrArg List.length h.eq
  have hpos := List.length_pos_of_ne_nil hd
  rw [List.length_append, List.length_append] at hlength
  omega

/-- What stands before the first occurrence has none. -/
theorem First.absent {s before found : List α} (h : First d s before found) (hd : d ≠ []) :
    ¬ d <:+: before := by
  rintro ⟨front, back, rfl⟩
  have hpos := List.length_pos_of_ne_nil hd
  refine h.notBefore front.length ?_ ?_
  · rw [List.length_append, List.length_append]
    omega
  · rw [h.split, List.append_assoc, List.append_assoc, List.drop_left]
    exact List.prefix_append _ _

variable [DecidableEq α]

/-- What stands before the first occurrence, and what from there on. -/
def find (d : List α) : List α → Option (List α × List α)
  | [] => if d = [] then some ([], []) else none
  | a :: s =>
      if d <+: a :: s then some ([], a :: s)
      else (find d s).map (Prod.map (a :: ·) id)

theorem first_of_find {s before found : List α} (h : find d s = some (before, found)) :
    First d s before found := by
  induction s generalizing before with
  | nil =>
      rw [find] at h
      split_ifs at h with hd
      cases h
      exact ⟨rfl, hd ▸ List.prefix_refl _, fun i hi => absurd hi (Nat.not_lt_zero i)⟩
  | cons a s ih =>
      rw [find] at h
      split_ifs at h with hprefix
      · cases h
        exact ⟨rfl, hprefix, fun i hi => absurd hi (Nat.not_lt_zero i)⟩
      · obtain ⟨⟨before', found'⟩, hfind, hpair⟩ := Option.map_eq_some_iff.1 h
        cases hpair
        obtain ⟨hsplit, hhere, hbefore⟩ := ih hfind
        refine ⟨congrArg (a :: ·) hsplit, hhere, ?_⟩
        intro i hi
        cases i with
        | zero => exact hprefix
        | succ i => exact hbefore i (Nat.lt_of_succ_lt_succ hi)

theorem find_eq_none_iff {s : List α} : find d s = none ↔ ¬ d <:+: s := by
  induction s with
  | nil =>
      rw [find, List.infix_nil]
      split_ifs with hd
      · exact ⟨fun h => (by cases h), fun h => absurd hd h⟩
      · exact ⟨fun _ => hd, fun _ => rfl⟩
  | cons a s ih =>
      rw [find, List.infix_cons_iff]
      split_ifs with hprefix
      · exact ⟨fun h => (by cases h), fun h => absurd (Or.inl hprefix) h⟩
      · rw [Option.map_eq_none_iff, ih]
        exact ⟨fun h => (fun hor => hor.elim hprefix h), fun h hinfix => h (Or.inr hinfix)⟩

/-! ## All of them -/

/-- The parts between the occurrences. -/
def cuts (d s : List α) : List (List α) :=
  if _hd : d = [] then [s]
  else
    match _h : find d s with
    | none => [s]
    | some (before, found) => before :: cuts d (found.drop d.length)
termination_by s.length
decreasing_by exact (first_of_find _h).length_lt _hd

def occurrences (d s : List α) : ℕ := (cuts d s).length - 1

theorem cuts_last {s : List α} (h : find d s = none) : cuts d s = [s] := by
  rw [cuts]
  split_ifs
  · rfl
  · split
    · rfl
    · rename_i hsome
      rw [h] at hsome
      cases hsome

theorem cuts_more {s before found : List α} (hd : d ≠ []) (h : find d s = some (before, found)) :
    cuts d s = before :: cuts d (found.drop d.length) := by
  rw [cuts, dif_neg hd]
  split
  · rename_i hnone
    rw [h] at hnone
    cases hnone
  · rename_i hsome
    rw [h] at hsome
    cases hsome
    rfl

/-- From the right, one occurrence at a time. -/
theorem induction {motive : List α → Prop} (hd : d ≠ [])
    (last : ∀ s, find d s = none → motive s)
    (more : ∀ s before found, find d s = some (before, found) → motive (found.drop d.length) →
      motive s) (s : List α) : motive s := by
  induction hn : s.length using Nat.strong_induction_on generalizing s with
  | _ n ih =>
      cases h : find d s with
      | none => exact last s h
      | some pair =>
          refine more s pair.1 pair.2 h (ih _ ?_ _ rfl)
          rw [← hn]
          exact (first_of_find h).length_lt hd

theorem cuts_ne_nil (d s : List α) : cuts d s ≠ [] := by
  rw [cuts]
  split_ifs
  · exact List.cons_ne_nil _ _
  · split
    · exact List.cons_ne_nil _ _
    · exact List.cons_ne_nil _ _

theorem occurrences_last {s : List α} (h : find d s = none) : occurrences d s = 0 := by
  rw [occurrences, cuts_last h]
  rfl

theorem occurrences_more {s before found : List α} (hd : d ≠ [])
    (h : find d s = some (before, found)) :
    occurrences d s = occurrences d (found.drop d.length) + 1 := by
  rw [occurrences, occurrences, cuts_more hd h, List.length_cons]
  have hpos := List.length_pos_of_ne_nil (cuts_ne_nil d (found.drop d.length))
  omega

theorem intercalate_cuts (hd : d ≠ []) (s : List α) : d.intercalate (cuts d s) = s := by
  induction s using induction hd with
  | last s h =>
      rw [cuts_last h]
      exact List.append_nil s
  | more s before found h ih =>
      rw [cuts_more hd h, List.intercalate_cons_of_ne_nil (cuts_ne_nil _ _), ih]
      exact (first_of_find h).eq.symm

theorem not_infix_of_mem_cuts (hd : d ≠ []) {s part : List α} (h : part ∈ cuts d s) :
    ¬ d <:+: part := by
  induction s using induction hd with
  | last s hnone =>
      rw [cuts_last hnone, List.mem_singleton] at h
      rw [h]
      exact find_eq_none_iff.1 hnone
  | more s before found hsome ih =>
      rw [cuts_more hd hsome, List.mem_cons] at h
      rcases h with rfl | hrest
      · exact (first_of_find hsome).absent hd
      · exact ih hrest

/-- How long it gets with something else between the parts. -/
theorem length_intercalate_cuts (hd : d ≠ []) (e s : List α) :
    (e.intercalate (cuts d s)).length + occurrences d s * d.length =
      s.length + occurrences d s * e.length := by
  induction s using induction hd with
  | last s h =>
      rw [cuts_last h, occurrences_last h, Nat.zero_mul, Nat.zero_mul]
      exact congrArg List.length (List.append_nil s)
  | more s before found h ih =>
      have hlength := congrArg List.length (first_of_find h).eq
      rw [List.length_append, List.length_append] at hlength
      rw [cuts_more hd h, occurrences_more hd h, List.intercalate_cons_of_ne_nil (cuts_ne_nil _ _),
        List.length_append, List.length_append, Nat.succ_mul, Nat.succ_mul]
      omega

theorem occurrences_le (hd : d ≠ []) (s : List α) : occurrences d s ≤ s.length := by
  have hlength := length_intercalate_cuts hd [] s
  have hpos := Nat.le_mul_of_pos_right (occurrences d s) (List.length_pos_of_ne_nil hd)
  rw [List.length_nil, Nat.mul_zero, Nat.add_zero] at hlength
  omega

/-- A list of nothing but the pattern. -/
theorem occurrences_replicate (a : α) (n : ℕ) : occurrences [a] (List.replicate n a) = n := by
  induction n with
  | zero => exact occurrences_last rfl
  | succ n ih =>
      have hfind : find [a] (List.replicate (n + 1) a) = some ([], List.replicate (n + 1) a) := by
        rw [List.replicate_succ, find, if_pos]
        exact List.prefix_append [a] _
      rw [occurrences_more (List.cons_ne_nil _ _) hfind, List.replicate_succ]
      exact congrArg (· + 1) ih

end Cuts
