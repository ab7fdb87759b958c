/-
# `Limceron.Lib.Copies` — one copy after the other for copies all at once

A list of copies `(dst, src)` is meant to happen at once: every destination gets
what its source held before.  Done one after the other, a copy whose source is
the destination of an earlier one finds the new value there.

That is all that can go wrong: if no destination occurs twice, the two agree
exactly where each such value is the old one again (`Kept`, `atOnce_iff`).
-/
import Mathlib.Data.List.Induction
import Mathlib.Data.List.Nodup
import Mathlib.Logic.Function.Basic

namespace Copies

variable {α β : Type*} [DecidableEq α]

/-- The copies done in order. -/
def inOrder (moves : List (α × α)) (l : α → β) : α → β :=
  moves.foldl (fun l mv => Function.update l mv.1 (l mv.2)) l

/-- A source that an earlier copy overwrote still has its value. -/
def Kept (moves : List (α × α)) (l : α → β) : Prop :=
  moves.Pairwise fun mv mv' => mv'.2 = mv.1 → l mv.2 = l mv.1

theorem inOrder_concat (moves : List (α × α)) (mv : α × α) (l : α → β) :
    inOrder (moves ++ [mv]) l =
      Function.update (inOrder moves l) mv.1 (inOrder moves l mv.2) := by
  rw [inOrder, List.foldl_append]
  rfl

/-- What is no destination stays. -/
theorem inOrder_other {moves : List (α × α)} {x : α} (l : α → β)
    (h : ∀ mv ∈ moves, mv.1 ≠ x) : inOrder moves l x = l x := by
  induction moves using List.reverseRecOn with
  | nil => rfl
  | append_singleton moves mv ih =>
      rw [inOrder_concat, Function.update_of_ne]
      · exact ih fun mv' hmv' => h mv' (List.mem_append_left _ hmv')
      · exact (h mv (List.mem_append_right _ (List.mem_singleton_self mv))).symm

/-- A destination that no later copy has is not touched any more. -/
theorem inOrder_concat_of_mem {moves : List (α × α)} {mv mv' : α × α} (l : α → β)
    (hd : ((moves ++ [mv']).map Prod.fst).Nodup) (h : mv ∈ moves) :
    inOrder (moves ++ [mv']) l mv.1 = inOrder moves l mv.1 := by
  rw [inOrder_concat, Function.update_of_ne]
  rw [List.map_append, List.nodup_append] at hd
  exact hd.2.2 mv.1 (List.mem_map_of_mem h) mv'.1 (List.mem_singleton.mpr rfl)

/-- In order is at once exactly if every overwritten source is kept. -/
theorem atOnce_iff {moves : List (α × α)} {l : α → β} (hd : (moves.map Prod.fst).Nodup) :
    (∀ mv ∈ moves, inOrder moves l mv.1 = l mv.2) ↔ Kept moves l := by
  induction moves using List.reverseRecOn with
  | nil => exact ⟨fun _ => .nil, fun _ => nofun⟩
  | append_singleton moves mv ih =>
      have hinit : (moves.map Prod.fst).Nodup := by
        rw [List.map_append] at hd
        exact hd.of_append_left
      have hlast : inOrder (moves ++ [mv]) l mv.1 = inOrder moves l mv.2 := by
        rw [inOrder_concat, Function.update_self]
      have hsplit : (∀ mv' ∈ moves ++ [mv], inOrder (moves ++ [mv]) l mv'.1 = l mv'.2) ↔
          (∀ mv' ∈ moves, inOrder moves l mv'.1 = l mv'.2) ∧ inOrder moves l mv.2 = l mv.2 := by
        constructor
        · intro h
          refine ⟨fun mv' hmv' => ?_, ?_⟩
          · rw [← inOrder_concat_of_mem l hd hmv']
            exact h mv' (List.mem_append_left _ hmv')
          · rw [← hlast]
            exact h mv (List.mem_append_right _ (List.mem_singleton_self mv))
        · rintro ⟨h, hmv⟩ mv' hmv'
          rcases List.mem_append.mp hmv' with hmem | hmem
          · rw [inOrder_concat_of_mem l hd hmem, h mv' hmem]
          · obtain rfl := List.mem_singleton.mp hmem
            rw [hlast, hmv]
      rw [hsplit, ih hinit, Kept, Kept, List.pairwise_append]
      constructor
      · rintro ⟨h, hmv⟩
        refine ⟨h, List.pairwise_singleton _ _, ?_⟩
        intro mv' hmem mv'' hmv'' heq
        obtain rfl := List.mem_singleton.mp hmv''
        rw [heq, (ih hinit).mpr h mv' hmem] at hmv
        exact hmv
      · rintro ⟨h, -, hmv⟩
        refine ⟨h, ?_⟩
        by_cases hdst : ∃ mv' ∈ moves, mv'.1 = mv.2
        · obtain ⟨mv', hmem, heq⟩ := hdst
          rw [← heq, (ih hinit).mpr h mv' hmem]
          exact hmv mv' hmem mv (List.mem_singleton_self mv) heq.symm
        · exact inOrder_other l fun mv' hmem heq => hdst ⟨mv', hmem, heq⟩

end Copies
