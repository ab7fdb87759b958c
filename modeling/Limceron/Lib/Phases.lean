/-
# `Limceron.Lib.Phases` — texts with a phase at every position

A machine executes a text of instructions from the top, except where it jumps.
A *phase* says what holds in front of an instruction.  Two relations describe
how phases go along a text:

| relation | meaning |
| :-- | :-- |
| `rule p i q` | `i` may stand in phase `p`, and behind it the phase is `q` |
| `shift p q` | what is in phase `p` may be taken to be in `q` |

`Flow p is` says that the text `is` can be read from phase `p` on.  If the phases
mean something for the states of the machine, and each instruction keeps what
they mean, then every run goes through them (`Sound.run`), and whatever is
executed next is allowed where it stands (`Sound.head`).
-/
import Mathlib.Logic.Relation

namespace Phases

variable {P I S : Type*}

/-- The text can be read from phase `p` on. -/
inductive Flow (rule : P → I → P → Prop) (shift : P → P → Prop) : P → List I → Prop
  | nil (p : P) : Flow rule shift p []
  | cons {p q : P} {i : I} {is : List I} (hi : rule p i q) (his : Flow rule shift q is) :
      Flow rule shift p (i :: is)
  | shift {p q : P} {is : List I} (hp : shift p q) (his : Flow rule shift q is) :
      Flow rule shift p is

variable {rule : P → I → P → Prop} {shift : P → P → Prop}

/-- Behind an instruction that leads to one phase only, the text can be read from there. -/
theorem Flow.behind {p home : P} {pre is : List I} {i : I}
    (h : Flow rule shift p (pre ++ i :: is)) (hi : ∀ p q, rule p i q → q = home) :
    Flow rule shift home is := by
  generalize htext : pre ++ i :: is = text at h
  induction h generalizing pre with
  | nil => simp at htext
  | @cons p q j js hj hjs ih =>
      cases pre with
      | nil =>
          obtain ⟨rfl, rfl⟩ := List.cons.inj htext
          exact hi _ _ hj ▸ hjs
      | cons j' pre => exact ih (List.cons.inj htext).2
  | shift _ _ ih => exact ih htext

/-- A piece of text that leads from a phase back to it, any number of times. -/
theorem Flow.flatMap {α : Type*} {f : α → List I} {p : P} {is : List I} (as : List α)
    (hf : ∀ a ∈ as, ∀ js, Flow rule shift p js → Flow rule shift p (f a ++ js))
    (h : Flow rule shift p is) : Flow rule shift p (as.flatMap f ++ is) := by
  induction as with
  | nil => exact h
  | cons a as ih =>
      rw [List.flatMap_cons, List.append_assoc]
      exact hf a List.mem_cons_self _ (ih (fun b hb => hf b (List.mem_cons_of_mem a hb)))

/-! ## Machines -/

/-- The phases mean `inv`, and every step keeps to them: it goes on behind the
instruction, or to some other part of the text that can be read from the phase
it is in. -/
structure Sound (rule : P → I → P → Prop) (shift : P → P → Prop) (rest : S → List I)
    (next : S → S → Prop) (inv : P → S → Prop) : Prop where
  inst : ∀ {p q : P} {i : I} {is : List I} {s s' : S}, rule p i q → inv p s → rest s = i :: is →
    next s s' → (rest s' = is ∧ inv q s') ∨ ∃ r, Flow rule shift r (rest s') ∧ inv r s'
  shift : ∀ {p q : P} {s : S}, shift p q → inv p s → inv q s

variable {rest : S → List I} {next : S → S → Prop} {inv : P → S → Prop}

/-- The state is in some phase from which the rest of its text can be read. -/
def Within (rule : P → I → P → Prop) (shift : P → P → Prop) (rest : S → List I)
    (inv : P → S → Prop) (s : S) : Prop :=
  ∃ p, Flow rule shift p (rest s) ∧ inv p s

namespace Sound

variable (sound : Sound rule shift rest next inv)
include sound

/-- What is to be executed next is allowed by a rule, in a phase the state is in. -/
theorem head {s : S} (h : Within rule shift rest inv s) {i : I} {is : List I}
    (hs : rest s = i :: is) : ∃ p q, rule p i q ∧ inv p s ∧ Flow rule shift q is := by
  obtain ⟨p, hflow, hinv⟩ := h
  rw [hs] at hflow
  generalize htext : i :: is = text at hflow
  induction hflow with
  | nil => exact absurd htext (List.cons_ne_nil _ _)
  | cons hi his _ =>
      obtain ⟨rfl, rfl⟩ := List.cons.inj htext
      exact ⟨_, _, hi, hinv, his⟩
  | shift hp _ ih => exact ih (sound.shift hp hinv) htext

theorem step {s s' : S} (h : Within rule shift rest inv s) (hstep : next s s')
    (hne : rest s ≠ []) : Within rule shift rest inv s' := by
  obtain ⟨i, is, hs⟩ := List.exists_cons_of_ne_nil hne
  obtain ⟨p, q, hrule, hinv, hflow⟩ := sound.head h hs
  rcases sound.inst hrule hinv hs hstep with ⟨hrest, hinv'⟩ | ⟨r, hflow', hinv'⟩
  · exact ⟨q, hrest ▸ hflow, hinv'⟩
  · exact ⟨r, hflow', hinv'⟩

/-- A run from a state in its phase stays in its phases. -/
theorem run {s s' : S} (hne : ∀ s s', next s s' → rest s ≠ [])
    (h : Within rule shift rest inv s) (hrun : Relation.ReflTransGen next s s') :
    Within rule shift rest inv s' := by
  induction hrun with
  | refl => exact h
  | tail _ hstep ih => exact sound.step ih hstep (hne _ _ hstep)

end Sound

end Phases
