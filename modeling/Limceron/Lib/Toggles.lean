/-
# `Limceron.Lib.Toggles` — what is told of a flag

A flag that is down at first, and a list of what was told of it: `true` when it went up
and `false` when it went down.  `Told` is what such a list has to be; it stays so where
each change is told, and nothing else (`Told.step`).
-/
import Mathlib.Data.List.Chain

namespace Toggles

/-- The news alternate, the first is that the flag went up, and the last is how it is. -/
structure Told (news : List Bool) (up : Prop) : Prop where
  alternate : news.IsChain (· ≠ ·)
  first : ∀ b ∈ news.head?, b = true
  last : up ↔ news.getLast? = some true

/-- Of a change one is told, and only of a change. -/
def Tells (before after : Prop) : Option Bool → Prop
  | none => before ↔ after
  | some true => ¬ before ∧ after
  | some false => before ∧ ¬ after

theorem told_nil {up : Prop} (h : ¬ up) : Told [] up := by
  refine ⟨List.IsChain.nil, ?_, fun hup => absurd hup h, ?_⟩
  · intro b hb
    cases hb
  · intro hlast
    cases hlast

theorem Told.step {news : List Bool} {before after : Prop} {new : Option Bool}
    (h : Told news before) (hnew : Tells before after new) :
    Told (news ++ new.toList) after := by
  cases new with
  | none =>
      rw [Option.toList_none, List.append_nil]
      exact ⟨h.alternate, h.first, hnew.symm.trans h.last⟩
  | some b =>
      have hdiffers : ∀ c ∈ news.getLast?, c ≠ b := by
        intro c hc hcb
        subst hcb
        cases c with
        | true => exact hnew.1 (h.last.2 hc)
        | false =>
            have hlast := h.last.1 hnew.1
            rw [hc] at hlast
            cases hlast
      refine ⟨?_, ?_, ?_⟩
      · rw [Option.toList_some, List.isChain_append]
        refine ⟨h.alternate, List.isChain_singleton b, ?_⟩
        intro c hc d hd
        cases hd
        exact hdiffers c hc
      · intro c hc
        cases news with
        | cons a news => exact h.first c hc
        | nil =>
            cases hc
            cases b with
            | true => rfl
            | false =>
                have hlast := h.last.1 hnew.1
                cases hlast
      · rw [Option.toList_some, List.getLast?_concat]
        cases b with
        | true => exact ⟨fun _ => rfl, fun _ => hnew.2⟩
        | false =>
            refine ⟨fun hup => absurd hup hnew.2, fun hlast => ?_⟩
            cases hlast

end Toggles
