/-
# `Limceron.Lib.Choices` — programs that choose, log and note faults

What a program does depends on a stream of choices.  It logs events, and it may
note that it does something another program is not said to follow it in.

`Ahead pre p q Q` compares two programs on the same choices, where the second one
has logged `pre` already that the first one has not.  If the first notes no fault,

| | |
| :-- | :-- |
| `pre ++ ` the log of the second | is the log of the first, `++ post` |
| the choices that are left | are the same |
| the results and `post` | are related by `Q` |

There is one rule for each way to go on.
-/
import Mathlib.Data.List.Basic

namespace Choices

variable {ε φ α β γ δ : Type}

structure Outcome (ε φ α : Type) where
  trace : List ε
  faults : List φ
  rest : Nat → Nat
  out : α

def Prog (ε φ α : Type) := (Nat → Nat) → Outcome ε φ α

namespace Prog

instance : Monad (Prog ε φ) where
  pure a := fun o => ⟨[], [], o, a⟩
  bind p f := fun o =>
    ⟨(p o).trace ++ (f (p o).out (p o).rest).trace,
      (p o).faults ++ (f (p o).out (p o).rest).faults,
      (f (p o).out (p o).rest).rest, (f (p o).out (p o).rest).out⟩

theorem bind_apply (p : Prog ε φ α) (f : α → Prog ε φ β) (o : Nat → Nat) :
    (p >>= f) o =
      ⟨(p o).trace ++ (f (p o).out (p o).rest).trace,
        (p o).faults ++ (f (p o).out (p o).rest).faults,
        (f (p o).out (p o).rest).rest, (f (p o).out (p o).rest).out⟩ := rfl

theorem pure_apply (a : α) (o : Nat → Nat) : (pure a : Prog ε φ α) o = ⟨[], [], o, a⟩ := rfl

instance : LawfulMonad (Prog ε φ) := LawfulMonad.mk' (Prog ε φ)
  (fun p => by
    funext o
    show Outcome.mk ((p o).trace ++ []) ((p o).faults ++ []) (p o).rest (p o).out = p o
    rw [List.append_nil, List.append_nil])
  (fun _ _ => rfl)
  (fun p f g => by
    funext o
    simp only [bind_apply, List.append_assoc])

def log (es : List ε) : Prog ε φ Unit := fun o => ⟨es, [], o, ()⟩

def fault (fs : List φ) : Prog ε φ Unit := fun o => ⟨[], fs, o, ()⟩

/-- The next choice. -/
def choose : Prog ε φ Nat := fun o => ⟨[], [], fun i => o (i + 1), o 0⟩

theorem log_nil (k : Unit → Prog ε φ α) : log [] >>= k = k () := rfl

theorem log_append (es es' : List ε) (k : Unit → Prog ε φ α) :
    log (es ++ es') >>= k = log es >>= fun _ => log es' >>= k := by
  funext o
  simp only [bind_apply, log, List.append_assoc, List.nil_append]

end Prog

open Prog

/-- The second program follows the first, and is ahead of it by `pre`. -/
def Ahead (pre : List ε) (p : Prog ε φ α) (q : Prog ε φ β) (Q : α → List ε → β → Prop) : Prop :=
  ∀ o, (p o).faults = [] → ∃ post, pre ++ (q o).trace = (p o).trace ++ post ∧
    (q o).rest = (p o).rest ∧ Q (p o).out post (q o).out

namespace Ahead

variable {pre : List ε} {p : Prog ε φ α} {q : Prog ε φ β} {Q Q' : α → List ε → β → Prop}

theorem mono (h : Ahead pre p q Q) (hQ : ∀ a post b, Q a post b → Q' a post b) :
    Ahead pre p q Q' := by
  intro o hf
  obtain ⟨post, htrace, hrest, hout⟩ := h o hf
  exact ⟨post, htrace, hrest, hQ _ _ _ hout⟩

theorem pure {a : α} {b : β} (h : Q a pre b) :
    Ahead pre (Pure.pure a : Prog ε φ α) (Pure.pure b) Q := by
  intro o _
  exact ⟨pre, by simp [pure_apply], rfl, h⟩

theorem bind {k : α → Prog ε φ γ} {k' : β → Prog ε φ δ} {R : γ → List ε → δ → Prop}
    (h : Ahead pre p q Q) (hk : ∀ a post b, Q a post b → Ahead post (k a) (k' b) R) :
    Ahead pre (p >>= k) (q >>= k') R := by
  intro o hf
  rw [bind_apply, List.append_eq_nil_iff] at hf
  obtain ⟨post, htrace, hrest, hout⟩ := h o hf.1
  obtain ⟨post', htrace', hrest', hout'⟩ := hk _ _ _ hout _ hf.2
  refine ⟨post', ?_, ?_, ?_⟩
  · simp only [bind_apply, hrest]
    rw [← List.append_assoc, htrace, List.append_assoc, htrace', List.append_assoc]
  · simp only [bind_apply, hrest, hrest']
  · simpa only [bind_apply, hrest] using hout'

/-- A fault is noted, and the second program need not follow. -/
theorem fault {fs : List φ} {k : Unit → Prog ε φ α} (h : fs = [] → Ahead pre (k ()) q Q) :
    Ahead pre (Prog.fault fs >>= k) q Q := by
  intro o hf
  rw [bind_apply, List.append_eq_nil_iff] at hf
  exact h hf.1 o hf.2

/-- Both log the same. -/
theorem log {es : List ε} {k : Unit → Prog ε φ α} {k' : Unit → Prog ε φ β}
    (h : Ahead [] (k ()) (k' ()) Q) : Ahead [] (Prog.log es >>= k) (Prog.log es >>= k') Q := by
  intro o hf
  obtain ⟨post, htrace, hrest, hout⟩ := h o hf
  exact ⟨post, by simpa [bind_apply, Prog.log] using htrace, hrest, hout⟩

/-- The first one logs what the second has logged. -/
theorem catchUp {es : List ε} {k : Unit → Prog ε φ α} (h : Ahead pre (k ()) q Q) :
    Ahead (es ++ pre) (Prog.log es >>= k) q Q := by
  intro o hf
  obtain ⟨post, htrace, hrest, hout⟩ := h o hf
  refine ⟨post, ?_, hrest, hout⟩
  rw [List.append_assoc, htrace, bind_apply, Prog.log, List.append_assoc]

/-- The second one logs something early. -/
theorem early {es : List ε} {k : Unit → Prog ε φ β} (h : Ahead (pre ++ es) p (k ()) Q) :
    Ahead pre p (Prog.log es >>= k) Q := by
  intro o hf
  obtain ⟨post, htrace, hrest, hout⟩ := h o hf
  refine ⟨post, ?_, hrest, hout⟩
  rw [← htrace, bind_apply, Prog.log, List.append_assoc]

/-- Both make the same choice. -/
theorem choose {k : Nat → Prog ε φ α} {k' : Nat → Prog ε φ β}
    (h : ∀ n, Ahead pre (k n) (k' n) Q) : Ahead pre (Prog.choose >>= k) (Prog.choose >>= k') Q := by
  intro o hf
  exact h (o 0) _ hf

end Ahead

end Choices
