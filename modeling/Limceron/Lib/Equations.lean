/-
# `Limceron.Lib.Equations` — variables that are bound to solve equations

A term is a variable or a literal.  A table binds some of the variables, each to a term, and a
term is followed along the table to its end.  An equation is solved by binding the variable
at one end to the other end.

| | |
| :-- | :-- |
| `Comes b n t r` | in `n` steps `t` comes to its end `r` |
| `Bounded b k` | no term takes more than `k` steps |
| `Forced cls E t u` | the equations `E` make `t` and `u` equal |
| `Consistent cls E` | they make no literals of two classes equal |
| `Solves b k cls E` | two terms have ends of one class exactly if `E` makes them equal |

Binding keeps a table that solves, and where there is nothing to bind, the equation is one that
holds already, or one that is not consistent with the others.
-/
import Mathlib.Data.Nat.Notation
import Mathlib.Data.Sum.Basic
import Mathlib.Logic.Function.Basic

namespace Limceron.Equations

/-- A variable or a literal. -/
inductive Term (V L : Type) where
  | var (v : V)
  | lit (l : L)
  deriving DecidableEq

variable {V L K : Type}

/-! ## Following a table -/

section Follow

variable (b : V → Option (Term V L))

/-- What a term is bound to. -/
def next : Term V L → Option (Term V L)
  | .var v => b v
  | .lit _ => none

/-- In `n` steps `t` comes to `r`, which is not bound. -/
inductive Comes : ℕ → Term V L → Term V L → Prop
  | stop {r : Term V L} : next b r = none → Comes 0 r r
  | step {n : ℕ} {t t' r : Term V L} : next b t = some t' → Comes n t' r → Comes (n + 1) t r

def Bounded (k : ℕ) : Prop := ∀ t, ∃ n ≤ k, ∃ r, Comes b n t r

/-- At most `k` steps. -/
def follow : ℕ → Term V L → Term V L
  | 0, t => t
  | k + 1, t => (next b t).elim t (follow k)

variable {b} {n k : ℕ} {t r : Term V L}

theorem Comes.root (h : Comes b n t r) : next b r = none := by
  induction h with
  | stop h => exact h
  | step _ _ ih => exact ih

theorem follow_eq (h : Comes b n t r) (hn : n ≤ k) : follow b k t = r := by
  induction h generalizing k with
  | stop h =>
      cases k with
      | zero => rfl
      | succ k => rw [follow, h, Option.elim_none]
  | step h _ ih =>
      cases k with
      | zero => exact absurd hn (Nat.not_succ_le_zero _)
      | succ k =>
          rw [follow, h, Option.elim_some]
          exact ih (Nat.le_of_succ_le_succ hn)

theorem Bounded.comes (h : Bounded b k) (t : Term V L) : ∃ n ≤ k, Comes b n t (follow b k t) := by
  obtain ⟨n, hn, r, hr⟩ := h t
  rw [follow_eq hr hn]
  exact ⟨n, hn, hr⟩

theorem Bounded.follow_of_le {k' : ℕ} (h : Bounded b k) (hk : k ≤ k') (t : Term V L) :
    follow b k' t = follow b k t := by
  obtain ⟨n, hn, hr⟩ := h.comes t
  exact follow_eq hr (Nat.le_trans hn hk)

theorem Bounded.root (h : Bounded b k) (t : Term V L) : next b (follow b k t) = none := by
  obtain ⟨n, -, hr⟩ := h.comes t
  exact hr.root

theorem follow_lit (b : V → Option (Term V L)) (k : ℕ) (l : L) : follow b k (.lit l) = .lit l :=
  follow_eq (.stop rfl) (Nat.zero_le k)

theorem follow_root (hr : next b r = none) : follow b k r = r :=
  follow_eq (.stop hr) (Nat.zero_le k)

theorem bounded_none : Bounded (fun _ : V => (none : Option (Term V L))) 0 := by
  intro t
  refine ⟨0, Nat.le_refl 0, t, .stop ?_⟩
  cases t with
  | var v => rfl
  | lit l => rfl

end Follow

/-! ## Binding -/

section Bind

variable [DecidableEq V] {b : V → Option (Term V L)} {v : V} {r : Term V L}

theorem next_bind_of_ne {t : Term V L} (ht : t ≠ .var v) :
    next (Function.update b v (some r)) t = next b t := by
  cases t with
  | var w =>
      refine Function.update_of_ne ?_ _ _
      rintro rfl
      exact ht rfl
  | lit l => rfl

theorem next_bind_self : next (Function.update b v (some r)) (.var v) = some r :=
  Function.update_self ..

/-- What comes to the variable now goes on to the term that it is bound to. -/
theorem Comes.bind {n : ℕ} {t s : Term V L} (h : Comes b n t s) (hv : b v = none)
    (hr : next b r = none) (hne : r ≠ .var v) :
    (s = .var v → Comes (Function.update b v (some r)) (n + 1) t r) ∧
      (s ≠ .var v → Comes (Function.update b v (some r)) n t s) := by
  induction h with
  | @stop s hs =>
      refine ⟨?_, fun hsv => .stop ((next_bind_of_ne hsv).trans hs)⟩
      rintro rfl
      exact .step next_bind_self (.stop ((next_bind_of_ne hne).trans hr))
  | @step n t t' s ht _ ih =>
      have htv : t ≠ .var v := by
        rintro rfl
        rw [next, hv] at ht
        cases ht
      have hnext := (next_bind_of_ne (r := r) htv).trans ht
      exact ⟨fun hs => .step hnext (ih.1 hs), fun hs => .step hnext (ih.2 hs)⟩

variable {k : ℕ}

theorem Bounded.bind (h : Bounded b k) (hv : b v = none) (hr : next b r = none)
    (hne : r ≠ .var v) : Bounded (Function.update b v (some r)) (k + 1) := by
  intro t
  obtain ⟨n, hn, s, hcomes⟩ := h t
  obtain ⟨hself, hother⟩ := hcomes.bind hv hr hne
  by_cases heq : s = .var v
  · exact ⟨n + 1, Nat.succ_le_succ hn, r, hself heq⟩
  · exact ⟨n, Nat.le_succ_of_le hn, s, hother heq⟩

/-- The ends after a variable was bound. -/
theorem Bounded.follow_bind (h : Bounded b k) (hv : b v = none) (hr : next b r = none)
    (hne : r ≠ .var v) (t : Term V L) :
    (follow b k t = .var v → follow (Function.update b v (some r)) (k + 1) t = r) ∧
      (follow b k t ≠ .var v →
        follow (Function.update b v (some r)) (k + 1) t = follow b k t) := by
  obtain ⟨n, hn, hcomes⟩ := h.comes t
  obtain ⟨hself, hother⟩ := hcomes.bind hv hr hne
  exact ⟨fun heq => follow_eq (hself heq) (Nat.succ_le_succ hn),
    fun heq => follow_eq (hother heq) (Nat.le_succ_of_le hn)⟩

end Bind

/-! ## Equations -/

section Equations

variable (cls : L → K)

/-- The equations make the terms equal; literals of one class are. -/
inductive Forced (E : List (Term V L × Term V L)) : Term V L → Term V L → Prop
  | eqn {t u : Term V L} : (t, u) ∈ E → Forced E t u
  | lit {l m : L} : cls l = cls m → Forced E (.lit l) (.lit m)
  | refl (t : Term V L) : Forced E t t
  | symm {t u : Term V L} : Forced E t u → Forced E u t
  | trans {t u w : Term V L} : Forced E t u → Forced E u w → Forced E t w

/-- No literals of two classes are made equal. -/
def Consistent (E : List (Term V L × Term V L)) : Prop :=
  ∀ l m, Forced cls E (.lit l) (.lit m) → cls l = cls m

/-- A variable, or the class of a literal. -/
def ends : Term V L → V ⊕ K
  | .var v => .inl v
  | .lit l => .inr (cls l)

variable {cls}

theorem Forced.mono {E E' : List (Term V L × Term V L)} (hE : E ⊆ E') {t u : Term V L}
    (h : Forced cls E t u) : Forced cls E' t u := by
  induction h with
  | eqn h => exact .eqn (hE h)
  | lit h => exact .lit h
  | refl t => exact .refl t
  | symm _ ih => exact ih.symm
  | trans _ _ ih ih' => exact ih.trans ih'

theorem Forced.of_ends {E : List (Term V L × Term V L)} {t u : Term V L}
    (h : ends cls t = ends cls u) : Forced cls E t u := by
  cases t with
  | var v =>
      cases u with
      | var w =>
          cases h
          exact .refl _
      | lit m => cases h
  | lit l =>
      cases u with
      | var w => cases h
      | lit m => exact .lit (Sum.inr.inj h)

theorem ends_eq_var {t : Term V L} {v : V} (h : ends cls t = ends cls (.var v)) : t = .var v := by
  cases t with
  | var w =>
      cases h
      rfl
  | lit l => cases h

variable (cls) in
/-- The table solves the equations, and no others. -/
structure Solves (b : V → Option (Term V L)) (k : ℕ) (E : List (Term V L × Term V L)) : Prop where
  bounded : Bounded b k
  forced : ∀ t u, Forced cls E t u ↔ ends cls (follow b k t) = ends cls (follow b k u)

section Solves

variable {b : V → Option (Term V L)} {k : ℕ} {E : List (Term V L × Term V L)} {t u : Term V L}

theorem Solves.consistent (h : Solves cls b k E) : Consistent cls E := by
  intro l m hlm
  have hends := (h.forced _ _).1 hlm
  rw [follow_lit, follow_lit] at hends
  exact Sum.inr.inj hends

theorem solves_nil : Solves cls (fun _ : V => (none : Option (Term V L))) 0 [] := by
  refine ⟨bounded_none, fun t u => ⟨fun h => ?_, Forced.of_ends⟩⟩
  induction h with
  | eqn h => exact absurd h List.not_mem_nil
  | lit h => exact congrArg Sum.inr h
  | refl t => rfl
  | symm _ ih => exact ih.symm
  | trans _ _ ih ih' => exact ih.trans ih'

/-- A term is equal to its end. -/
theorem Solves.forced_follow (h : Solves cls b k E) (t : Term V L) :
    Forced cls E t (follow b k t) :=
  (h.forced t _).2 (by rw [follow_root (h.bounded.root t)])

/-- An equation that holds already. -/
theorem Solves.agree (h : Solves cls b k E)
    (heq : ends cls (follow b k t) = ends cls (follow b k u)) : Solves cls b k ((t, u) :: E) := by
  refine ⟨h.bounded, fun x y => ⟨fun hforced => ?_, fun hends => ?_⟩⟩
  · induction hforced with
    | eqn hmem =>
        rcases List.mem_cons.1 hmem with hmem | hmem
        · cases hmem
          exact heq
        · exact (h.forced _ _).1 (.eqn hmem)
    | lit hlm => exact (h.forced _ _).1 (.lit hlm)
    | refl t => rfl
    | symm _ ih => exact ih.symm
    | trans _ _ ih ih' => exact ih.trans ih'
  · exact ((h.forced x y).2 hends).mono (List.subset_cons_self _ _)

/-- The sides of an equation do not matter. -/
theorem Solves.swap (h : Solves cls b k ((u, t) :: E)) : Solves cls b k ((t, u) :: E) := by
  have hswap : ∀ {x y t u : Term V L}, Forced cls ((u, t) :: E) x y →
      Forced cls ((t, u) :: E) x y := by
    intro x y t u hforced
    induction hforced with
    | eqn hmem =>
        rcases List.mem_cons.1 hmem with hmem | hmem
        · cases hmem
          exact (Forced.eqn List.mem_cons_self).symm
        · exact .eqn (List.mem_cons_of_mem _ hmem)
    | lit hlm => exact .lit hlm
    | refl t => exact .refl t
    | symm _ ih => exact ih.symm
    | trans _ _ ih ih' => exact ih.trans ih'
  exact ⟨h.bounded, fun x y => ⟨fun hxy => (h.forced x y).1 (hswap hxy),
    fun hxy => hswap ((h.forced x y).2 hxy)⟩⟩

/-- An equation between literals of two classes. -/
theorem Solves.clash (h : Solves cls b k E) {l m : L} (ht : follow b k t = .lit l)
    (hu : follow b k u = .lit m) (hne : cls l ≠ cls m) : ¬ Consistent cls ((t, u) :: E) := by
  intro hconsistent
  have hsub := List.subset_cons_self (t, u) E
  have htl := (h.forced_follow t).mono hsub
  have hum := (h.forced_follow u).mono hsub
  rw [ht] at htl
  rw [hu] at hum
  exact hne (hconsistent l m (htl.symm.trans ((Forced.eqn List.mem_cons_self).trans hum)))

/-- An equation that is solved by binding the end of `t`. -/
theorem Solves.bind [DecidableEq V] {v : V} (h : Solves cls b k E) (ht : follow b k t = .var v)
    (hne : follow b k u ≠ .var v) :
    Solves cls (Function.update b v (some (follow b k u))) (k + 1) ((t, u) :: E) := by
  have hv : b v = none := by
    have hroot := h.bounded.root t
    rwa [ht] at hroot
  have hr := h.bounded.root u
  have hbounded := h.bounded.bind hv hr hne
  have hfollow := h.bounded.follow_bind hv hr hne
  have hkeeps : ∀ x y, ends cls (follow b k x) = ends cls (follow b k y) →
      ends cls (follow (Function.update b v (some (follow b k u))) (k + 1) x) =
        ends cls (follow (Function.update b v (some (follow b k u))) (k + 1) y) := by
    intro x y hxy
    by_cases hx : follow b k x = .var v
    · have hy : follow b k y = .var v := ends_eq_var (hxy.symm.trans (congrArg _ hx))
      rw [(hfollow x).1 hx, (hfollow y).1 hy]
    · have hy : follow b k y ≠ .var v := fun hy => hx (ends_eq_var (hxy.trans (congrArg _ hy)))
      rwa [(hfollow x).2 hx, (hfollow y).2 hy]
  have hsub := List.subset_cons_self (t, u) E
  have hends : ∀ x, Forced cls ((t, u) :: E) x
      (follow (Function.update b v (some (follow b k u))) (k + 1) x) := by
    intro x
    have hx := (h.forced_follow x).mono hsub
    by_cases heq : follow b k x = .var v
    · have htv := (h.forced_follow t).mono hsub
      have huv := (h.forced_follow u).mono hsub
      rw [heq] at hx
      rw [ht] at htv
      rw [(hfollow x).1 heq]
      exact hx.trans (htv.symm.trans ((Forced.eqn List.mem_cons_self).trans huv))
    · rwa [(hfollow x).2 heq]
  refine ⟨hbounded, fun x y => ⟨fun hforced => ?_, fun hxy => ?_⟩⟩
  · induction hforced with
    | eqn hmem =>
        rcases List.mem_cons.1 hmem with hmem | hmem
        · cases hmem
          rw [(hfollow t).1 ht, (hfollow u).2 hne]
        · exact hkeeps _ _ ((h.forced _ _).1 (.eqn hmem))
    | lit hlm => exact hkeeps _ _ ((h.forced _ _).1 (.lit hlm))
    | refl t => rfl
    | symm _ ih => exact ih.symm
    | trans _ _ ih ih' => exact ih.trans ih'
  · exact (hends x).trans ((Forced.of_ends hxy).trans (hends y).symm)

end Solves

end Equations

end Limceron.Equations
