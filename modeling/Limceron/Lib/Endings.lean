/-
# `Limceron.Lib.Endings` — what a reader ends with

`Ends` is the big step of a reader: with enough fuel the plain run comes to this value,
these tokens and these notes.  There is one end at most (`Ends.unique`), and a rule for
each way to build a program.

| program | its end |
| :-- | :-- |
| `pure`, `act`, `next` | what they do |
| `bind` | one behind the other (`bind_ends_iff`) |
| `loop` | one turn, and the loop again (`ends_loop`) |
-/
import Limceron.Lib.Readers

namespace Readers.Reader

open Result

variable {τ σ ε F ρ α β γ : Type} (R : Reader τ σ ε F ρ)

/-- The program ends with `a`, the tokens `us` and the notes `s'`. -/
def Ends (p : Prog τ σ ε F ρ α) (ts : List τ) (s : σ) (a : α) (us : List τ) (s' : σ) : Prop :=
  ∃ n, R.exec false n p ts s = ends a us s'

variable {R} {p : Prog τ σ ε F ρ α} {ts us vs : List τ} {s s' s'' : σ} {a a' : α} {b : β}

theorem exec_of_le {n m : Nat} (hnm : n ≤ m) (h : R.exec false n p ts s = ends a us s') :
    R.exec false m p ts s = ends a us s' := by
  rw [R.exec_mono hnm, h]
  rw [h]
  rintro ⟨⟩

/-- A program has one end at most. -/
theorem Ends.unique (h : R.Ends p ts s a us s') (h' : R.Ends p ts s a' vs s'') :
    a = a' ∧ us = vs ∧ s' = s'' := by
  obtain ⟨n, hn⟩ := h
  obtain ⟨m, hm⟩ := h'
  have hmax := exec_of_le (Nat.le_max_left n m) hn
  rw [exec_of_le (Nat.le_max_right n m) hm] at hmax
  cases hmax
  exact ⟨rfl, rfl, rfl⟩

theorem ends_pure : R.Ends (.pure a : Prog τ σ ε F ρ α) ts s a ts s := ⟨0, rfl⟩

theorem ends_act (f : List τ → σ → α × σ) :
    R.Ends (.act f : Prog τ σ ε F ρ α) ts s (f ts s).1 ts (f ts s).2 := ⟨0, rfl⟩

theorem ends_next (f : List τ → σ → σ) :
    R.Ends (.next f : Prog τ σ ε F ρ Unit) ts s () (ts.tail.dropWhile R.skips) (f ts s) := ⟨0, rfl⟩

theorem ends_call {c : F} {r : ρ} :
    R.Ends (.call c) ts s r us s' ↔ R.Ends (R.body c) ts s r us s' := by
  constructor
  · rintro ⟨n, h⟩
    rw [exec_call] at h
    cases n with
    | zero => cases h
    | succ n => exact ⟨n, h⟩
  · rintro ⟨n, h⟩
    exact ⟨n + 1, h⟩

theorem bind_ends_iff {f : α → Prog τ σ ε F ρ β} :
    R.Ends (.bind p f) ts s b vs s'' ↔
      ∃ a us s', R.Ends p ts s a us s' ∧ R.Ends (f a) us s' b vs s'' := by
  constructor
  · rintro ⟨n, h⟩
    obtain ⟨a, us, s', hp, hf⟩ := bind_eq_ends h
    exact ⟨a, us, s', ⟨n, hp⟩, n, hf⟩
  · rintro ⟨a, us, s', ⟨n, hn⟩, m, hm⟩
    refine ⟨max n m, ?_⟩
    rw [exec_bind, exec_of_le (Nat.le_max_left n m) hn, Result.ends_bind]
    exact exec_of_le (Nat.le_max_right n m) hm

/-- One step behind the other. -/
theorem Ends.bind {f : α → Prog τ σ ε F ρ β} (h : R.Ends p ts s a us s')
    (h' : R.Ends (f a) us s' b vs s'') : R.Ends (.bind p f) ts s b vs s'' :=
  Reader.bind_ends_iff.mpr ⟨a, us, s', h, h'⟩

section Loop

variable {stalls : List τ → Option ε} {body : β → Prog τ σ ε F ρ (β ⊕ γ)} {c : γ}

theorem Ends.loop_inr (h : R.Ends (body b) ts s (.inr c) us s') :
    R.Ends (.loop stalls body b) ts s c us s' := by
  obtain ⟨n, h⟩ := h
  refine ⟨n + 1, ?_⟩
  rw [exec_loop, iterate, if_neg Bool.false_ne_true, exec_of_le (Nat.le_succ n) h]
  rfl

theorem Ends.loop_inl {b' : β} (h : R.Ends (body b) ts s (.inl b') us s')
    (h' : R.Ends (.loop stalls body b') us s' c vs s'') :
    R.Ends (.loop stalls body b) ts s c vs s'' := by
  obtain ⟨n, h⟩ := h
  obtain ⟨m, h'⟩ := h'
  refine ⟨max n m + 1, ?_⟩
  have hbody := exec_of_le (Nat.le_succ_of_le (Nat.le_max_left n m)) h
  rw [exec_loop, iterate, if_neg Bool.false_ne_true, hbody]
  rw [exec_loop] at h'
  have hbelow : Below False
      (iterate (fun ts => if false then stalls ts else none)
        (fun b => R.exec false m (body b)) m b' us s')
      (iterate (fun ts => if false then stalls ts else none)
        (fun b => R.exec false (max n m + 1) (body b)) (max n m) b' us s') :=
    Below.iterate (fun _ => .inl rfl)
      (fun b => R.exec_below (.inl rfl) (Nat.le_succ_of_le (Nat.le_max_right n m)) (body b))
      (Nat.le_max_right n m) b' us s'
  rcases hbelow with hsame | hmore | ⟨hfalse, -⟩
  · exact hsame.symm.trans h'
  · rw [h'] at hmore
    cases hmore
  · exact hfalse.elim

/-- A loop that has ended took a turn, and ended with it or went on. -/
theorem ends_loop :
    R.Ends (.loop stalls body b) ts s c vs s'' ↔
      R.Ends (body b) ts s (.inr c) vs s'' ∨
        ∃ b' us s', R.Ends (body b) ts s (.inl b') us s' ∧
          R.Ends (.loop stalls body b') us s' c vs s'' := by
  constructor
  · rintro ⟨n, h⟩
    rw [exec_loop] at h
    cases n with
    | zero => cases h
    | succ n =>
      rw [iterate, if_neg Bool.false_ne_true] at h
      obtain ⟨r, us, s', hbody, hrest⟩ := bind_eq_ends h
      cases r with
      | inr c' =>
        cases hrest
        exact Or.inl ⟨n + 1, hbody⟩
      | inl b' =>
        refine Or.inr ⟨b', us, s', ⟨n + 1, hbody⟩, n + 1, ?_⟩
        have hbelow : Below False
            (iterate (fun ts => if false then stalls ts else none)
              (fun b => R.exec false (n + 1) (body b)) n b' us s')
            (iterate (fun ts => if false then stalls ts else none)
              (fun b => R.exec false (n + 1) (body b)) (n + 1) b' us s') :=
          Below.iterate (fun _ => .inl rfl) (fun _ _ _ => Below.refl _) (Nat.le_succ n) b' us s'
        rw [exec_loop]
        rcases hbelow with hsame | hmore | ⟨hfalse, -⟩
        · exact hsame.symm.trans hrest
        · rw [show iterate _ _ n b' us s' = ends c vs s'' from hrest] at hmore
          cases hmore
        · exact hfalse.elim
  · rintro (h | ⟨b', us, s', h, h'⟩)
    · exact h.loop_inr
    · exact h.loop_inl h'

end Loop

end Readers.Reader
