/-
# `Limceron.Lib.Grants` — rights that are handed down and withdrawn

A grant is made from what its giver holds, by an owner or by the holder of
another grant, and gives the part of it that was requested.  Rights can be
withdrawn from a grant at any time, not only those that it has; withdrawing from
one grant changes no other.

What a grant holds was given by every grant above it, and had been held by each
giver (`Formed.held_subset`), and a right that a grant does not hold it never
holds again (`Step.later`).
-/
import Mathlib.Order.BooleanAlgebra.Set
import Mathlib.Logic.Relation

/-- What was given, and what of it was withdrawn. -/
structure Grant (ρ : Type*) where
  parent : Option ℕ
  source : Set ρ
  requested : Set ρ
  withdrawn : Set ρ

namespace Grant

variable {ρ : Type*} {gs gs' : List (Grant ρ)} {g : Grant ρ} {d : ℕ}

/-- What it had at first. -/
def given (g : Grant ρ) : Set ρ := g.requested ∩ g.source

/-- What it has now. -/
def held (g : Grant ρ) : Set ρ := g.given \ g.withdrawn

def withdraw (g : Grant ρ) (R : Set ρ) : Grant ρ := { g with withdrawn := g.withdrawn ∪ R }

/-- The grant was made by the holder of the other. -/
def MadeBy (gs : List (Grant ρ)) (d a : ℕ) : Prop := ∃ g, gs[d]? = some g ∧ g.parent = some a

/-- `a` is the grant `d` or one above it. -/
def Above (gs : List (Grant ρ)) (d a : ℕ) : Prop := Relation.ReflTransGen (MadeBy gs) d a

/-- One step: a grant is made, or something is withdrawn. -/
inductive Step (gs : List (Grant ρ)) : List (Grant ρ) → Prop where
  | refl : Step gs gs
  | owner (S R : Set ρ) : Step gs (gs ++ [⟨none, S, R, ∅⟩])
  | child {p : ℕ} {g : Grant ρ} (hp : gs[p]? = some g) {S : Set ρ} (hS : S ⊆ g.held) (R : Set ρ) :
      Step gs (gs ++ [⟨some p, S, R, ∅⟩])
  | withdraw (i : ℕ) (R : Set ρ) : Step gs (gs.modify i (·.withdraw R))

/-- Each grant was made from what had been given to its maker. -/
def Formed (gs : List (Grant ρ)) : Prop :=
  ∀ (d : ℕ) (g : Grant ρ) (p : ℕ), gs[d]? = some g → g.parent = some p →
    ∃ m, gs[p]? = some m ∧ g.source ⊆ m.given

/-! ## One step -/

theorem held_subset_given (g : Grant ρ) : g.held ⊆ g.given := Set.sdiff_subset

theorem withdraw_held (g : Grant ρ) (R : Set ρ) : (g.withdraw R).held = g.held \ R :=
  Set.sdiff_sdiff.symm

/-- A grant keeps what it was made from, and holds no more than before. -/
theorem Step.later (h : Step gs gs') (hd : gs[d]? = some g) :
    ∃ g', gs'[d]? = some g' ∧ g'.parent = g.parent ∧ g'.source = g.source ∧
      g'.requested = g.requested ∧ g'.held ⊆ g.held := by
  have hlt : d < gs.length := (List.getElem?_eq_some_iff.1 hd).1
  cases h with
  | refl => exact ⟨g, hd, rfl, rfl, rfl, subset_rfl⟩
  | owner S R =>
      exact ⟨g, by rw [List.getElem?_append_left hlt, hd], rfl, rfl, rfl, subset_rfl⟩
  | child _ _ R =>
      exact ⟨g, by rw [List.getElem?_append_left hlt, hd], rfl, rfl, rfl, subset_rfl⟩
  | withdraw i R =>
      by_cases hi : i = d
      · refine ⟨g.withdraw R, ?_, rfl, rfl, rfl, ?_⟩
        · rw [hi, List.getElem?_modify_eq, hd]
          rfl
        · rw [withdraw_held]
          exact Set.sdiff_subset
      · exact ⟨g, by rw [List.getElem?_modify_ne _ _ hi, hd], rfl, rfl, rfl, subset_rfl⟩

/-- A grant of the next state is one of this state, or it was just made. -/
theorem Step.earlier (h : Step gs gs') (hd : gs'[d]? = some g) :
    (∃ g₀, gs[d]? = some g₀ ∧ g₀.parent = g.parent ∧ g₀.source = g.source) ∨
      ∀ p, g.parent = some p → ∃ m, gs[p]? = some m ∧ g.source ⊆ m.held := by
  have hnew : ∀ g₀ : Grant ρ, (gs ++ [g₀])[d]? = some g → gs[d]? = some g ∨ g₀ = g := by
    intro g₀ hg
    by_cases hlt : d < gs.length
    · rw [List.getElem?_append_left hlt] at hg
      exact .inl hg
    · rw [List.getElem?_append_right (not_lt.1 hlt), List.getElem?_singleton] at hg
      split at hg
      · exact .inr (Option.some.inj hg)
      · cases hg
  cases h with
  | refl => exact .inl ⟨g, hd, rfl, rfl⟩
  | owner S R =>
      rcases hnew _ hd with hold | rfl
      · exact .inl ⟨g, hold, rfl, rfl⟩
      · exact .inr nofun
  | @child p g₀ hp S hS R =>
      rcases hnew _ hd with hold | rfl
      · exact .inl ⟨g, hold, rfl, rfl⟩
      · refine .inr fun p' hp' => ?_
        cases hp'
        exact ⟨g₀, hp, hS⟩
  | withdraw i R =>
      left
      by_cases hi : i = d
      · rw [hi, List.getElem?_modify_eq] at hd
        obtain ⟨g₀, hg₀, rfl⟩ := Option.map_eq_some_iff.1 hd
        exact ⟨g₀, hg₀, rfl, rfl⟩
      · rw [List.getElem?_modify_ne _ _ hi] at hd
        exact ⟨g, hd, rfl, rfl⟩

/-! ## All steps -/

theorem formed_nil : Formed ([] : List (Grant ρ)) := by
  intro d g p hd
  cases hd

theorem Formed.step (hgs : Formed gs) (h : Step gs gs') : Formed gs' := by
  intro d g p hd hp
  have hmaker : ∃ g₀, gs[p]? = some g₀ ∧ g.source ⊆ g₀.given := by
    rcases h.earlier hd with ⟨g₀, hg₀, hparent, hsource⟩ | hnew
    · obtain ⟨m, hm, hsub⟩ := hgs d g₀ p hg₀ (hparent.trans hp)
      exact ⟨m, hm, hsource ▸ hsub⟩
    · obtain ⟨m, hm, hsub⟩ := hnew p hp
      exact ⟨m, hm, hsub.trans m.held_subset_given⟩
  obtain ⟨m, hm, hsub⟩ := hmaker
  obtain ⟨m', hm', -, hsource, hrequested, -⟩ := h.later hm
  refine ⟨m', hm', ?_⟩
  rw [given, hsource, hrequested]
  exact hsub

/-- What a grant was given, all above it were. -/
theorem Formed.given_subset (hgs : Formed gs) {a : ℕ} (h : Above gs d a) {ga : Grant ρ}
    (hd : gs[d]? = some g) (ha : gs[a]? = some ga) : g.given ⊆ ga.given := by
  induction h generalizing ga with
  | refl =>
      cases hd.symm.trans ha
      exact subset_rfl
  | tail _ hmade ih =>
      obtain ⟨m, hm, hparent⟩ := hmade
      obtain ⟨m', hm', hsub⟩ := hgs _ m _ hm hparent
      cases hm'.symm.trans ha
      exact (ih hm).trans (Set.inter_subset_right.trans hsub)

theorem Formed.held_subset (hgs : Formed gs) {a : ℕ} (h : Above gs d a) {ga : Grant ρ}
    (hd : gs[d]? = some g) (ha : gs[a]? = some ga) : g.held ⊆ ga.given :=
  g.held_subset_given.trans (hgs.given_subset h hd ha)

end Grant
