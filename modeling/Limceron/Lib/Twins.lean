/-
# `Limceron.Lib.Twins` — two runs side by side

A program reads and writes a state, and ends with a value, leaves by an exit or
does not end.  Two programs are *twins* if they behave alike on states that are
alike:

| relation | between |
| :-- | :-- |
| `I` | the states |
| `E` | the exits |
| `R` | the values |

`Twin I E R p q` says that from states related by `I`, both end the same way, in
states related by `I` again.  There is one rule for each way to build a program.
-/
import Mathlib.Data.List.Forall2
import Mathlib.Data.Option.Basic

namespace Twins

variable {σ ε α β γ δ : Type}

/-! ## Programs -/

def Prog (σ ε α : Type) := σ → Option (Except ε α × σ)

namespace Prog

instance : Monad (Prog σ ε) where
  pure a := fun s => some (.ok a, s)
  bind p f := fun s =>
    match p s with
    | none => none
    | some (.error e, s) => some (.error e, s)
    | some (.ok a, s) => f a s

theorem bind_apply (p : Prog σ ε α) (f : α → Prog σ ε β) (s : σ) :
    (p >>= f) s =
      match p s with
      | none => none
      | some (.error e, s) => some (.error e, s)
      | some (.ok a, s) => f a s := rfl

/-- No end. -/
def stuck : Prog σ ε α := fun _ => none

def exit (e : ε) : Prog σ ε α := fun s => some (.error e, s)

def read (f : σ → α) : Prog σ ε α := fun s => some (.ok (f s), s)

def modify (f : σ → σ) : Prog σ ε Unit := fun s => some (.ok (), f s)

/-- An exit is handled. -/
def catching (p : Prog σ ε α) (h : ε → Prog σ ε α) : Prog σ ε α := fun s =>
  match p s with
  | none => none
  | some (.error e, s) => h e s
  | some (.ok a, s) => some (.ok a, s)

/-- However the program ends, part of the first state comes back. -/
def restoring (back : σ → σ → σ) (p : Prog σ ε α) : Prog σ ε α := fun s =>
  (p s).map fun r => (r.1, back s r.2)

/-- One after the other, all the values. -/
def each (f : β → Prog σ ε α) : List β → Prog σ ε (List α)
  | [] => pure []
  | b :: bs => do
      let a ← f b
      let as ← each f bs
      pure (a :: as)

/-- One after the other, the last value. -/
def inTurn (f : β → Prog σ ε α) : List β → α → Prog σ ε α
  | [], a => pure a
  | b :: bs, _ => do
      let a ← f b
      inTurn f bs a

/-- One after the other, until one says that it was the last. -/
def whileTrue (f : β → Prog σ ε Bool) : List β → Prog σ ε Unit
  | [] => pure ()
  | b :: bs => do
      if ← f b then whileTrue f bs else pure ()

/-- One after the other, until one has a value. -/
def firstSome (f : β → Prog σ ε (Option α)) (a : α) : List β → Prog σ ε α
  | [] => pure a
  | b :: bs => do
      match ← f b with
      | some a => pure a
      | none => firstSome f a bs

end Prog

open Prog

/-! ## Twins -/

/-- Both are values, or both exits. -/
inductive Agree (E : ε → ε → Prop) (R : α → α → Prop) : Except ε α → Except ε α → Prop
  | ok {a b : α} : R a b → Agree E R (.ok a) (.ok b)
  | error {e f : ε} : E e f → Agree E R (.error e) (.error f)

def Twin (I : σ → σ → Prop) (E : ε → ε → Prop) (R : α → α → Prop) (p q : Prog σ ε α) : Prop :=
  ∀ s t, I s t → Option.Rel (fun r r' => Agree E R r.1 r'.1 ∧ I r.2 r'.2) (p s) (q t)

namespace Twin

variable {I : σ → σ → Prop} {E : ε → ε → Prop} {R : α → α → Prop} {S : β → β → Prop}

/-- The three ways two twins can end. -/
theorem ends {p q : Prog σ ε α} (h : Twin I E R p q) {s t : σ} (hst : I s t) :
    (p s = none ∧ q t = none) ∨
      (∃ a b s' t', p s = some (.ok a, s') ∧ q t = some (.ok b, t') ∧ R a b ∧ I s' t') ∨
        ∃ e f s' t', p s = some (.error e, s') ∧ q t = some (.error f, t') ∧ E e f ∧ I s' t' := by
  have hpq := h s t hst
  generalize p s = r at hpq
  generalize q t = r' at hpq
  cases hpq with
  | none => exact .inl ⟨rfl, rfl⟩
  | @some r r' hr =>
      obtain ⟨o, s'⟩ := r
      obtain ⟨o', t'⟩ := r'
      obtain ⟨hagree, hI⟩ := hr
      cases hagree with
      | ok hab => exact .inr (.inl ⟨_, _, s', t', rfl, rfl, hab, hI⟩)
      | error he => exact .inr (.inr ⟨_, _, s', t', rfl, rfl, he, hI⟩)

theorem mono {R' : α → α → Prop} {p q : Prog σ ε α} (h : Twin I E R p q)
    (hR : ∀ a b, R a b → R' a b) : Twin I E R' p q := by
  intro s t hst
  rcases h.ends hst with ⟨hp, hq⟩ | ⟨a, b, s', t', hp, hq, hab, hI⟩ | ⟨e, f, s', t', hp, hq, he, hI⟩
  · rw [hp, hq]
    exact .none
  · rw [hp, hq]
    exact .some ⟨.ok (hR a b hab), hI⟩
  · rw [hp, hq]
    exact .some ⟨.error he, hI⟩

theorem pure {a b : α} (h : R a b) : Twin I E R (pure a) (pure b) :=
  fun _ _ hst => .some ⟨.ok h, hst⟩

theorem stuck : Twin I E R (stuck : Prog σ ε α) stuck := fun _ _ _ => .none

theorem exit {e f : ε} (h : E e f) : Twin I E R (exit e) (exit f) :=
  fun _ _ hst => .some ⟨.error h, hst⟩

theorem read {f g : σ → α} (h : ∀ s t, I s t → R (f s) (g t)) : Twin I E R (read f) (read g) :=
  fun s t hst => .some ⟨.ok (h s t hst), hst⟩

theorem modify {f g : σ → σ} (h : ∀ s t, I s t → I (f s) (g t)) :
    Twin I E (fun _ _ => True) (modify f) (modify g) :=
  fun s t hst => .some ⟨.ok trivial, h s t hst⟩

theorem bind {p q : Prog σ ε α} {f g : α → Prog σ ε β} (h : Twin I E R p q)
    (hfg : ∀ a b, R a b → Twin I E S (f a) (g b)) : Twin I E S (p >>= f) (q >>= g) := by
  intro s t hst
  rw [bind_apply, bind_apply]
  rcases h.ends hst with ⟨hp, hq⟩ | ⟨a, b, s', t', hp, hq, hab, hI⟩ | ⟨e, f, s', t', hp, hq, he, hI⟩
  · rw [hp, hq]
    exact .none
  · rw [hp, hq]
    exact hfg a b hab s' t' hI
  · rw [hp, hq]
    exact .some ⟨.error he, hI⟩

theorem catching {p q : Prog σ ε α} {f g : ε → Prog σ ε α} (h : Twin I E R p q)
    (hfg : ∀ e e', E e e' → Twin I E R (f e) (g e')) :
    Twin I E R (catching p f) (catching q g) := by
  intro s t hst
  rw [Prog.catching, Prog.catching]
  rcases h.ends hst with ⟨hp, hq⟩ | ⟨a, b, s', t', hp, hq, hab, hI⟩ | ⟨e, f, s', t', hp, hq, he, hI⟩
  · rw [hp, hq]
    exact .none
  · rw [hp, hq]
    exact .some ⟨.ok hab, hI⟩
  · rw [hp, hq]
    exact hfg e f he s' t' hI

theorem restoring {back : σ → σ → σ} {p q : Prog σ ε α} (h : Twin I E R p q)
    (hback : ∀ s t s' t', I s t → I s' t' → I (back s s') (back t t')) :
    Twin I E R (restoring back p) (restoring back q) := by
  intro s t hst
  rw [Prog.restoring, Prog.restoring]
  rcases h.ends hst with ⟨hp, hq⟩ | ⟨a, b, s', t', hp, hq, hab, hI⟩ | ⟨e, f, s', t', hp, hq, he, hI⟩
  · rw [hp, hq]
    exact .none
  · rw [hp, hq]
    exact .some ⟨.ok hab, hback s t s' t' hst hI⟩
  · rw [hp, hq]
    exact .some ⟨.error he, hback s t s' t' hst hI⟩

/-! ## Lists -/

variable {f g : β → Prog σ ε α}

/-- Each value goes with the element it comes from. -/
theorem each {R : β → α → α → Prop} {bs : List β}
    (h : ∀ b ∈ bs, Twin I E (R b) (f b) (g b)) :
    Twin I E (fun as as' => ∀ T : α → α → Prop, (∀ b ∈ bs, ∀ a a', R b a a' → T a a') →
      List.Forall₂ T as as') (each f bs) (each g bs) := by
  induction bs with
  | nil => exact pure fun _ _ => .nil
  | cons b bs ih =>
      refine bind (h b List.mem_cons_self) fun a a' ha => ?_
      refine bind (ih fun c hc => h c (List.mem_cons_of_mem b hc)) fun as as' has => ?_
      refine pure fun T hT => .cons (hT b List.mem_cons_self a a' ha) ?_
      exact has T fun c hc => hT c (List.mem_cons_of_mem b hc)

theorem inTurn {R : β → α → α → Prop} {T : α → α → Prop} {bs : List β} {a a' : α}
    (h : ∀ b ∈ bs, Twin I E (R b) (f b) (g b)) (hnil : bs = [] → T a a')
    (hlast : ∀ b, bs.getLast? = some b → ∀ c c', R b c c' → T c c') :
    Twin I E T (inTurn f bs a) (inTurn g bs a') := by
  induction bs generalizing a a' with
  | nil => exact pure (hnil rfl)
  | cons b bs ih =>
      refine bind (h b List.mem_cons_self) fun c c' hc => ?_
      refine ih (fun d hd => h d (List.mem_cons_of_mem b hd)) ?_ ?_
      · rintro rfl
        exact hlast b rfl c c' hc
      · intro d hd
        exact hlast d (by rw [List.getLast?_cons, hd]; rfl)

theorem whileTrue {f g : β → Prog σ ε Bool} {bs : List β}
    (h : ∀ b ∈ bs, Twin I E (fun c d => c = d) (f b) (g b)) :
    Twin I E (fun _ _ => True) (whileTrue f bs) (whileTrue g bs) := by
  induction bs with
  | nil => exact pure trivial
  | cons b bs ih =>
      refine bind (h b List.mem_cons_self) fun c d hcd => ?_
      subst hcd
      cases c with
      | false => exact pure trivial
      | true => exact ih fun c hc => h c (List.mem_cons_of_mem b hc)

theorem firstSome {f g : β → Prog σ ε (Option α)} {a b : α} {bs : List β} (hab : R a b)
    (h : ∀ c ∈ bs, Twin I E (Option.Rel R) (f c) (g c)) :
    Twin I E R (firstSome f a bs) (firstSome g b bs) := by
  induction bs with
  | nil => exact pure hab
  | cons c bs ih =>
      refine bind (h c List.mem_cons_self) fun o o' ho => ?_
      cases ho with
      | none => exact ih fun d hd => h d (List.mem_cons_of_mem c hd)
      | some hR => exact pure hR

end Twin

end Twins
