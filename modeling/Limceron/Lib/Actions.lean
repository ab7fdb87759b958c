/-
# `Limceron.Lib.Actions` — actions of a state monad as runs of steps

An action of `StateM σ` is followed by a relation `P` between states when it
gets from the state it starts in to the state it ends in by steps of `P`.  The
rules are those of the monad; what is known about `P` then holds of every
action that is built from actions followed by it.
-/
import Mathlib.Logic.Relation

namespace Actions

/-- Every run of `m` is a sequence of `P`-steps. -/
def Follows {σ α : Type} (P : σ → σ → Prop) (m : StateM σ α) : Prop :=
  ∀ s, Relation.ReflTransGen P s (m s).2

namespace Follows

variable {σ α β : Type} {P : σ → σ → Prop}

theorem step {m : StateM σ α} (h : ∀ s, P s (m s).2) : Follows P m :=
  fun s => .single (h s)

theorem pure (a : α) : Follows P (Pure.pure a : StateM σ α) :=
  fun _ => .refl

theorem bind {m : StateM σ α} {f : α → StateM σ β} (hm : Follows P m)
    (hf : ∀ a, Follows P (f a)) : Follows P (m >>= f) :=
  fun s => (hm s).trans (hf (m s).1 (m s).2)

theorem map {m : StateM σ α} {f : α → β} (hm : Follows P m) : Follows P (f <$> m) :=
  fun s => hm s

/-- After `get`, the state that was read is the state that the rest starts in. -/
theorem get_bind {f : σ → StateM σ β}
    (hf : ∀ s, Relation.ReflTransGen P s (f s s).2) : Follows P (get >>= f) :=
  fun s => hf s

/-- An action that only looks at the state. -/
theorem read (f : σ → α) : Follows P (fun s => (f s, s) : StateM σ α) :=
  fun _ => .refl

theorem ite {c : Prop} [Decidable c] {m n : StateM σ α} (hm : Follows P m)
    (hn : Follows P n) : Follows P (if c then m else n) := by
  split
  · exact hm
  · exact hn

/-- What every step preserves, the action preserves. -/
theorem invariant {m : StateM σ α} (h : Follows P m) {I : σ → Prop}
    (hI : ∀ s t, P s t → I s → I t) (s : σ) (hs : I s) : I (m s).2 := by
  have run : ∀ t, Relation.ReflTransGen P s t → I t := by
    intro t ht
    induction ht with
    | refl => exact hs
    | tail _ hstep ih => exact hI _ _ hstep ih
  exact run _ (h s)

end Follows

end Actions
