/-
# `Limceron.Lib.Paths` — paths that avoid a set

Dominance, reachability and liveness in a control-flow graph are all statements
about which points a path can reach before it has gone through a given set.
`Avoid succ start d p` is that relation: some path from a point in `start` is
now at `p`, and no point it left was in `d`.

    p is reachable             Avoid succ start (fun _ => False) p
    d strictly dominates p     ¬ Avoid succ start (· = d) p
    v is live at p             a use of v in Avoid succ (· = p) (defs of v)

The relation is given by its two rules, and the way to use a fact
`¬ Avoid …` in a proof about executions is `Avoid.invariant`: what holds once
`d` has been left, and stays, holds wherever `Avoid` fails.
-/
import Mathlib.Logic.Basic
import Mathlib.Data.List.Chain

namespace Paths

variable {α : Type*} {succ succ' : α → α → Prop} {start start' d d' : α → Prop}

/-- Some path from `start` is at a point and has left no point of `d`. -/
inductive Avoid (succ : α → α → Prop) (start d : α → Prop) : α → Prop
  | start {p : α} : start p → Avoid succ start d p
  | step {p q : α} : Avoid succ start d p → ¬ d p → succ p q → Avoid succ start d q

theorem Avoid.mono (hs : ∀ p q, succ p q → succ' p q) (hst : ∀ p, start p → start' p)
    (hd : ∀ p, d' p → d p) {p : α} (h : Avoid succ start d p) : Avoid succ' start' d' p := by
  induction h with
  | start h => exact .start (hst _ h)
  | step _ hnd hpq ih => exact .step ih (fun h => hnd (hd _ h)) (hs _ _ hpq)

/-- A path can be continued by another. -/
theorem Avoid.trans {q : α} (hp : ∀ p, start' p → Avoid succ start d p)
    (h : Avoid succ start' d q) : Avoid succ start d q := by
  induction h with
  | start h => exact hp _ h
  | step _ hnd hpq ih => exact .step ih hnd hpq

/-- The set reached is the least one with the two rules. -/
theorem Avoid.least {I : α → Prop} (hstart : ∀ p, start p → I p)
    (hstep : ∀ p q, I p → ¬ d p → succ p q → I q) {p : α} (h : Avoid succ start d p) : I p := by
  induction h with
  | start h => exact hstart _ h
  | step _ hnd hpq ih => exact hstep _ _ ih hnd hpq

/-- One step of an execution at `p` that goes on to `q`: a fact that is
established by leaving `d` and not destroyed elsewhere holds, or `d` has been
avoided so far. -/
theorem Avoid.invariant {p q : α} {K K' : Prop} (hpq : succ p q)
    (hd : d p → K') (hkeep : ¬ d p → K → K') (h : K ∨ Avoid succ start d p) :
    K' ∨ Avoid succ start d q := by
  by_cases hp : d p
  · exact .inl (hd hp)
  · exact h.imp (hkeep hp) (fun ha => .step ha hp hpq)

end Paths
