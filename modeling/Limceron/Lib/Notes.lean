/-
# `Limceron.Lib.Notes` — what a run does to its notes

A relation that every single step of a program keeps (`Prog.Keeps`), and every
procedure, holds between the notes before a run and those after it
(`Reader.exec_keeps`).  Inside a token the notes are others; only what comes back from
there has to be related to what was before.
-/
import Limceron.Lib.Readers

namespace Readers

variable {τ σ ε F ρ α β γ ι : Type}

open Result

/-- Each step of the program leads to related notes. -/
def Prog.Keeps (r : σ → σ → Prop) : {α : Type} → Prog τ σ ε F ρ α → Prop
  | _, .pure _ => True
  | _, .bind p f => p.Keeps r ∧ ∀ a, (f a).Keeps r
  | _, .act f => ∀ ts s, r s (f ts s).2
  | _, .next f => ∀ ts s, r s (f ts s)
  | _, .trap _ => True
  | _, .call _ => True
  | _, .loop _ body _ => ∀ b, (body b).Keeps r
  | _, .inner f _ enter leave p =>
      (∀ ts s, r s (f ts s)) ∧ (∀ s s', r (enter s) s' → r s (leave s s')) ∧ ∀ i, (p i).Keeps r

/-- Each run that ends has led to related notes. -/
def Leads (r : σ → σ → Prop) (run : List τ → σ → Result τ σ ε α) : Prop :=
  ∀ ts s a us s', run ts s = ends a us s' → r s s'

variable {r : σ → σ → Prop}

theorem Leads.bind (htrans : ∀ s s' s'', r s s' → r s' s'' → r s s'')
    {run : List τ → σ → Result τ σ ε α} {next : α → List τ → σ → Result τ σ ε β}
    (hrun : Leads r run) (hnext : ∀ a, Leads r (next a)) :
    Leads r fun ts s => (run ts s).bind (next ·) := by
  intro ts s b us s' h
  obtain ⟨a, ts', s₁, hs₁, h⟩ := bind_eq_ends h
  exact htrans s s₁ s' (hrun ts s a ts' s₁ hs₁) (hnext a ts' s₁ b us s' h)

theorem leads_iterate (htrans : ∀ s s' s'', r s s' → r s' s'' → r s s'')
    {head : List τ → Option ε} {body : β → List τ → σ → Result τ σ ε (β ⊕ γ)}
    (hbody : ∀ b, Leads r (body b)) (n : ℕ) (b : β) : Leads r (iterate head body n b) := by
  induction n generalizing b with
  | zero =>
      intro ts s c us s' h
      cases h
  | succ n ih =>
      intro ts s c us s' h
      rw [iterate] at h
      split at h
      · cases h
      · obtain ⟨out, ts', s₁, hs₁, h⟩ := bind_eq_ends h
        have hfirst := hbody b ts s out ts' s₁ hs₁
        cases out with
        | inl b' => exact htrans s s₁ s' hfirst (ih b' ts' s₁ c us s' h)
        | inr c' =>
            cases h
            exact hfirst

theorem leads_eachOf (hrefl : ∀ s, r s s) (htrans : ∀ s s' s'', r s s' → r s' s'' → r s s'')
    {enter : σ → σ} {leave : σ → σ → σ} (hleave : ∀ s s', r (enter s) s' → r s (leave s s'))
    {p : ι → List τ → σ → Result τ σ ε β} (hp : ∀ i, Leads r (p i)) (subs : List (ι × List τ)) :
    Leads r (eachOf enter leave p subs) := by
  induction subs with
  | nil =>
      intro ts s bs us s' h
      cases h
      exact hrefl s
  | cons sub subs ih =>
      obtain ⟨i, inside⟩ := sub
      intro ts s bs us s' h
      obtain ⟨b, left, s₁, hs₁, h⟩ := bind_eq_ends h
      obtain ⟨bs', ts', s₂, hs₂, h⟩ := bind_eq_ends h
      cases h
      exact htrans s _ s' (hleave s s₁ (hp i inside _ b left s₁ hs₁)) (ih _ _ _ _ _ hs₂)

theorem leads_execWith (hrefl : ∀ s, r s s) (htrans : ∀ s s' s'', r s s' → r s' s'' → r s s'')
    {skips : τ → Bool} {watch : Bool} {env : F → List τ → σ → Result τ σ ε ρ}
    (henv : ∀ c, Leads r (env c)) {n : ℕ} (p : Prog τ σ ε F ρ α) (hp : p.Keeps r) :
    Leads r (execWith skips watch env n p) := by
  induction p with
  | pure a =>
      intro ts s b us s' h
      cases h
      exact hrefl s
  | bind p f ihp ihf => exact (ihp hp.1).bind htrans fun a => ihf a (hp.2 a)
  | act f =>
      intro ts s b us s' h
      cases h
      exact hp ts s
  | next f =>
      intro ts s b us s' h
      cases h
      exact hp ts s
  | trap e =>
      intro ts s b us s' h
      cases h
  | call c => exact henv c
  | loop stalls body b ih => exact leads_iterate htrans (fun b => ih b (hp b)) n b
  | inner f subs enter leave p ih =>
      obtain ⟨hf, hleave, hp⟩ := hp
      intro ts s bs us s' h
      cases ts with
      | nil =>
          cases h
          exact hrefl s
      | cons t ts =>
          exact htrans s _ s' (hf (t :: ts) s)
            (leads_eachOf hrefl htrans hleave (fun i => ih i (hp i)) _ _ _ _ _ _ h)

namespace Reader

variable (R : Reader τ σ ε F ρ)

/-- A run leads from notes to related notes. -/
theorem exec_keeps (hrefl : ∀ s, r s s) (htrans : ∀ s s' s'', r s s' → r s' s'' → r s s'')
    (hbody : ∀ c, (R.body c).Keeps r) (watch : Bool) (n : ℕ) (p : Prog τ σ ε F ρ α)
    (hp : p.Keeps r) : Leads r (R.exec watch n p) := by
  have hrun : ∀ c, Leads r (R.run watch n c) := by
    induction n with
    | zero =>
        intro c ts s a us s' h
        cases h
    | succ n ih => exact fun c => leads_execWith hrefl htrans ih (R.body c) (hbody c)
  exact leads_execWith hrefl htrans hrun p hp

end Reader

end Readers
