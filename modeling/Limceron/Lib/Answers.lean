/-
# `Limceron.Lib.Answers` — lists of answers, and what they should be

In a list of names with answers the first entry of a name is its answer.  Read from the left
(`Scan`), an entry may be anything when its name has been met before, and has to be right
when not; then all answers are right, and there are no others (`lookup_eq_iff`).
-/
import Mathlib.Data.List.Basic

namespace Answers

variable {κ β γ : Type} {spec : κ → Option β}

/-- Each entry with a name that has not been met is right. -/
def Scan (spec : κ → Option β) : List κ → List (κ × β) → Prop
  | _, [] => True
  | seen, (y, b) :: es => (y ∈ seen ∨ spec y = some b) ∧ Scan spec (y :: seen) es

variable [BEq κ] [LawfulBEq κ] [DecidableEq κ]

theorem lookup_cons (y : κ) (e : κ × β) (es : List (κ × β)) :
    (e :: es).lookup y = if y = e.1 then some e.2 else es.lookup y := by
  rw [List.lookup_cons]
  by_cases h : y = e.1
  · rw [if_pos h, beq_iff_eq.2 h]
  · rw [if_neg h, beq_false_of_ne h]

theorem lookup_eq_none_iff {y : κ} {es : List (κ × β)} :
    es.lookup y = none ↔ y ∉ es.map Prod.fst := by
  induction es with
  | nil => exact iff_of_true rfl List.not_mem_nil
  | cons e es ih =>
      rw [lookup_cons, List.map_cons, List.mem_cons, not_or]
      by_cases h : y = e.1
      · rw [if_pos h]
        exact iff_of_false (fun hnone => nomatch hnone) fun hne => hne.1 h
      · rw [if_neg h, ih]
        exact (and_iff_right h).symm

theorem lookup_map (f : β → γ) (y : κ) (es : List (κ × β)) :
    (es.map fun e => (e.1, f e.2)).lookup y = (es.lookup y).map f := by
  induction es with
  | nil => rfl
  | cons e es ih =>
      rw [List.map_cons, lookup_cons, lookup_cons, ih]
      by_cases h : y = e.1
      · rw [if_pos h, if_pos h]
        rfl
      · rw [if_neg h, if_neg h]

theorem scan_iff {seen : List κ} {es : List (κ × β)} :
    Scan spec seen es ↔ ∀ y, y ∉ seen → ∀ b, es.lookup y = some b → spec y = some b := by
  induction es generalizing seen with
  | nil => exact iff_of_true trivial fun _ _ _ h => nomatch h
  | cons e es ih =>
      rw [Scan, ih]
      constructor
      · rintro ⟨hfirst, hrest⟩ y hy b hb
        rw [lookup_cons] at hb
        by_cases h : y = e.1
        · rw [if_pos h] at hb
          cases hb
          rw [h] at hy ⊢
          exact hfirst.resolve_left hy
        · rw [if_neg h] at hb
          exact hrest y (List.not_mem_cons_of_ne_of_not_mem h hy) b hb
      · intro hall
        constructor
        · by_cases hseen : e.1 ∈ seen
          · exact .inl hseen
          · refine .inr (hall e.1 hseen e.2 ?_)
            rw [lookup_cons, if_pos rfl]
        · intro y hy b hb
          rw [List.mem_cons, not_or] at hy
          refine hall y hy.2 b ?_
          rw [lookup_cons, if_neg hy.1]
          exact hb

theorem scan_congr {seen seen' : List κ} (h : ∀ y, y ∈ seen ↔ y ∈ seen') {es : List (κ × β)} :
    Scan spec seen es ↔ Scan spec seen' es := by
  rw [scan_iff, scan_iff]
  refine forall_congr' fun y => ?_
  rw [h y]

theorem scan_append {seen : List κ} {es fs : List (κ × β)} :
    Scan spec seen (es ++ fs) ↔ Scan spec seen es ∧ Scan spec (es.map Prod.fst ++ seen) fs := by
  induction es generalizing seen with
  | nil => exact (and_iff_right trivial).symm
  | cons e es ih =>
      rw [List.cons_append, Scan, Scan, ih, and_assoc]
      refine and_congr_right fun _ => and_congr_right fun _ => scan_congr fun y => ?_
      simp only [List.map_cons, List.cons_append, List.mem_append, List.mem_cons]
      exact or_left_comm

/-- All answers are right exactly if each name that has to be there is, and the scan is right. -/
theorem lookup_eq_iff {es : List (κ × β)} :
    (∀ y, es.lookup y = spec y) ↔
      (∀ y, spec y ≠ none → y ∈ es.map Prod.fst) ∧ Scan spec [] es := by
  rw [scan_iff]
  constructor
  · intro h
    refine ⟨fun y hy => not_not.1 fun hmem => hy ?_, fun y _ b hb => (h y).symm.trans hb⟩
    rw [← h y, lookup_eq_none_iff.2 hmem]
  · rintro ⟨hall, hscan⟩ y
    cases hes : es.lookup y with
    | some b => exact (hscan y List.not_mem_nil b hes).symm
    | none =>
        cases hspec : spec y with
        | none => rfl
        | some b =>
            have hmem := hall y (by rw [hspec]; exact fun h => nomatch h)
            exact absurd hmem (lookup_eq_none_iff.1 hes)

end Answers
