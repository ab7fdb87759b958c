/-
# `Limceron.Lib.Readers` — programs that read a list

A reader works on a list of tokens, from the front, and on notes of its own.  It
is a syntax tree, so that one and the same program can be run in two ways:

| way | at the head of a loop |
| :-- | :-- |
| plain | the body follows |
| watched | if the loop stalls on what stands there, the run ends with a trap |

A loop names the tokens it stalls on; that its body then really takes none of
them is shown where the loops of a program are shown `Tight`
(`Limceron.Lib.Progress`).

Procedures call each other, also back and forth.  A run has fuel for the calls
and for the loops, and `more` says that the fuel did not last.
-/
import Mathlib.Algebra.Ring.Nat
import Mathlib.Data.List.Basic

namespace Readers

/-! ## Programs -/

/-- `τ` are the tokens, `σ` the notes, `ε` the traps, `F` the procedures, each with
a result in `ρ`. -/
inductive Prog (τ σ ε F ρ : Type) : Type → Type 1 where
  | pure {α : Type} (a : α) : Prog τ σ ε F ρ α
  | bind {α β : Type} (p : Prog τ σ ε F ρ β) (f : β → Prog τ σ ε F ρ α) : Prog τ σ ε F ρ α
  /-- Looks at the tokens and writes notes. -/
  | act {α : Type} (f : List τ → σ → α × σ) : Prog τ σ ε F ρ α
  /-- Takes the first token. -/
  | next (f : List τ → σ → σ) : Prog τ σ ε F ρ Unit
  | trap {α : Type} (e : ε) : Prog τ σ ε F ρ α
  | call (c : F) : Prog τ σ ε F ρ ρ
  /-- Goes on as long as the body says `inl`. -/
  | loop {β γ : Type} (stalls : List τ → Option ε)
      (body : β → Prog τ σ ε F ρ (β ⊕ γ)) (b : β) : Prog τ σ ε F ρ γ
  /-- Takes the first token, and reads each of the lists that stand inside it. -/
  | inner {ι β : Type} (f : List τ → σ → σ) (subs : τ → List (ι × List τ))
      (enter : σ → σ) (leave : σ → σ → σ) (p : ι → Prog τ σ ε F ρ β) : Prog τ σ ε F ρ (List β)

instance {τ σ ε F ρ : Type} : Monad (Prog τ σ ε F ρ) where
  pure := .pure
  bind := .bind

theorem Prog.pure_def {τ σ ε F ρ α : Type} (a : α) :
    (Pure.pure a : Prog τ σ ε F ρ α) = .pure a := rfl

theorem Prog.bind_def {τ σ ε F ρ α β : Type} (p : Prog τ σ ε F ρ α)
    (f : α → Prog τ σ ε F ρ β) : (p >>= f) = .bind p f := rfl

/-- The procedures, the tokens that are never stopped at, and the size of a
token. -/
structure Reader (τ σ ε F ρ : Type) where
  body : F → Prog τ σ ε F ρ ρ
  skips : τ → Bool
  weight : τ → Nat

/-! ## Results -/

inductive Result (τ σ ε α : Type) where
  | more
  | ends (a : α) (ts : List τ) (s : σ)
  | traps (e : ε)

variable {τ σ ε F ρ α β γ ι : Type}

namespace Result

def bind (r : Result τ σ ε α) (f : α → List τ → σ → Result τ σ ε β) : Result τ σ ε β :=
  match r with
  | .more => .more
  | .ends a ts s => f a ts s
  | .traps e => .traps e

@[simp] theorem more_bind (f : α → List τ → σ → Result τ σ ε β) :
    (more : Result τ σ ε α).bind f = more := rfl

@[simp] theorem ends_bind (a : α) (ts : List τ) (s : σ)
    (f : α → List τ → σ → Result τ σ ε β) : (ends a ts s).bind f = f a ts s := rfl

@[simp] theorem traps_bind (e : ε) (f : α → List τ → σ → Result τ σ ε β) :
    (traps e : Result τ σ ε α).bind f = traps e := rfl

/-- What a bind that has ended comes from. -/
theorem bind_eq_ends {r : Result τ σ ε α} {f : α → List τ → σ → Result τ σ ε β} {b : β}
    {us : List τ} {s' : σ} (h : r.bind f = ends b us s') :
    ∃ a ts s, r = ends a ts s ∧ f a ts s = ends b us s' := by
  cases r with
  | more => cases h
  | traps e => cases h
  | ends a ts s => exact ⟨a, ts, s, rfl, h⟩

end Result

open Result

/-! ## Runs -/

/-- What follows the body of a loop. -/
def around (again : β → List τ → σ → Result τ σ ε γ) (r : β ⊕ γ) (ts : List τ) (s : σ) :
    Result τ σ ε γ :=
  r.elim (fun b => again b ts s) fun c => ends c ts s

/-- The loop, with what it does at its head. -/
def iterate (head : List τ → Option ε) (body : β → List τ → σ → Result τ σ ε (β ⊕ γ)) :
    Nat → β → List τ → σ → Result τ σ ε γ
  | 0, _, _, _ => more
  | n + 1, b, ts, s =>
    match head ts with
    | some e => traps e
    | none => (body b ts s).bind (around (iterate head body n))

/-- One list after the other.  What is left of them is not read. -/
def eachOf (enter : σ → σ) (leave : σ → σ → σ) (p : ι → List τ → σ → Result τ σ ε β) :
    List (ι × List τ) → List τ → σ → Result τ σ ε (List β)
  | [], ts, s => ends [] ts s
  | (i, us) :: subs, ts, s =>
      (p i us (enter s)).bind fun b _ s' =>
        (eachOf enter leave p subs ts (leave s s')).bind fun bs ts s => ends (b :: bs) ts s

/-- A run, given what the calls do. -/
def execWith (skips : τ → Bool) (watch : Bool) (env : F → List τ → σ → Result τ σ ε ρ) (n : Nat) :
    {α : Type} → Prog τ σ ε F ρ α → List τ → σ → Result τ σ ε α
  | _, .pure a, ts, s => ends a ts s
  | _, .bind p f, ts, s =>
      (execWith skips watch env n p ts s).bind fun a ts s => execWith skips watch env n (f a) ts s
  | _, .act f, ts, s => ends (f ts s).1 ts (f ts s).2
  | _, .next f, ts, s => ends () (ts.tail.dropWhile skips) (f ts s)
  | _, .trap e, _, _ => traps e
  | _, .call c, ts, s => env c ts s
  | _, .loop stalls body b, ts, s =>
      iterate (fun ts => if watch then stalls ts else none)
        (fun b => execWith skips watch env n (body b)) n b ts s
  | _, .inner f subs enter leave p, ts, s =>
      match ts with
      | [] => ends [] [] s
      | t :: us =>
          eachOf enter leave (fun i => execWith skips watch env n (p i)) (subs t)
            (us.dropWhile skips) (f ts s)

namespace Reader

variable (R : Reader τ σ ε F ρ)

/-- A call, with fuel. -/
def run (watch : Bool) : Nat → F → List τ → σ → Result τ σ ε ρ
  | 0, _, _, _ => more
  | n + 1, c, ts, s => execWith R.skips watch (run watch n) n (R.body c) ts s

def exec (watch : Bool) (n : Nat) (p : Prog τ σ ε F ρ α) (ts : List τ) (s : σ) :
    Result τ σ ε α :=
  execWith R.skips watch (R.run watch n) n p ts s

/-- The plain run comes to an end. -/
def Returns (p : Prog τ σ ε F ρ α) (ts : List τ) (s : σ) : Prop :=
  ∃ n a us s', R.exec false n p ts s = ends a us s'

/-- The watched run ends with a trap. -/
def Trapped (p : Prog τ σ ε F ρ α) (ts : List τ) (s : σ) (e : ε) : Prop :=
  ∃ n, R.exec true n p ts s = traps e

theorem run_succ (watch : Bool) (n : Nat) (c : F) (ts : List τ) (s : σ) :
    R.run watch (n + 1) c ts s = R.exec watch n (R.body c) ts s := rfl

@[simp] theorem exec_pure (watch : Bool) (n : Nat) (a : α) (ts : List τ) (s : σ) :
    R.exec watch n (.pure a) ts s = ends a ts s := rfl

@[simp] theorem exec_bind (watch : Bool) (n : Nat) (p : Prog τ σ ε F ρ α)
    (f : α → Prog τ σ ε F ρ β) (ts : List τ) (s : σ) :
    R.exec watch n (.bind p f) ts s =
      (R.exec watch n p ts s).bind fun a ts s => R.exec watch n (f a) ts s := rfl

@[simp] theorem exec_act (watch : Bool) (n : Nat) (f : List τ → σ → α × σ) (ts : List τ) (s : σ) :
    R.exec watch n (.act f) ts s = ends (f ts s).1 ts (f ts s).2 := rfl

@[simp] theorem exec_next (watch : Bool) (n : Nat) (f : List τ → σ → σ) (ts : List τ) (s : σ) :
    R.exec watch n (.next f) ts s = ends () (ts.tail.dropWhile R.skips) (f ts s) := rfl

@[simp] theorem exec_trap (watch : Bool) (n : Nat) (e : ε) (ts : List τ) (s : σ) :
    R.exec watch n (.trap e : Prog τ σ ε F ρ α) ts s = traps e := rfl

theorem exec_call (watch : Bool) (n : Nat) (c : F) (ts : List τ) (s : σ) :
    R.exec watch n (.call c) ts s = R.run watch n c ts s := rfl

theorem exec_loop (watch : Bool) (n : Nat) (stalls : List τ → Option ε)
    (body : β → Prog τ σ ε F ρ (β ⊕ γ)) (b : β) (ts : List τ) (s : σ) :
    R.exec watch n (.loop stalls body b) ts s =
      iterate (fun ts => if watch then stalls ts else none) (fun b => R.exec watch n (body b))
        n b ts s := rfl

end Reader

/-! ## More fuel, and no watch -/

/-- `x` is `y`, unless its fuel did not last or, with `w`, it ended with a trap. -/
def Below (w : Prop) (x y : Result τ σ ε α) : Prop :=
  x = y ∨ x = more ∨ (w ∧ ∃ e, x = traps e)

namespace Below

variable {w : Prop}

theorem refl (x : Result τ σ ε α) : Below w x x := .inl rfl

theorem bind {x y : Result τ σ ε α} {f g : α → List τ → σ → Result τ σ ε β} (h : Below w x y)
    (hfg : ∀ a ts s, Below w (f a ts s) (g a ts s)) : Below w (x.bind f) (y.bind g) := by
  rcases h with rfl | rfl | ⟨hw, e, rfl⟩
  · cases x with
    | more => exact refl _
    | traps e => exact refl _
    | ends a ts s => exact hfg a ts s
  · exact .inr (.inl rfl)
  · exact .inr (.inr ⟨hw, e, rfl⟩)

theorem iterate {head head' : List τ → Option ε}
    {body body' : β → List τ → σ → Result τ σ ε (β ⊕ γ)}
    (hhead : ∀ ts, head ts = head' ts ∨ (w ∧ head' ts = none))
    (hbody : ∀ b ts s, Below w (body b ts s) (body' b ts s)) {n m : Nat} (hnm : n ≤ m) (b : β)
    (ts : List τ) (s : σ) : Below w (iterate head body n b ts s) (iterate head' body' m b ts s) := by
  induction n generalizing m b ts s with
  | zero => exact .inr (.inl rfl)
  | succ n ih =>
      obtain ⟨m, rfl⟩ : ∃ k, m = k + 1 := ⟨m - 1, by omega⟩
      rw [Readers.iterate, Readers.iterate]
      have hgo : Below w
          ((body b ts s).bind (around (Readers.iterate head body n)))
          ((body' b ts s).bind (around (Readers.iterate head' body' m))) := by
        refine (hbody b ts s).bind fun r ts s => ?_
        cases r with
        | inl b => exact ih (by omega) b ts s
        | inr c => exact refl _
      rcases hhead ts with h | ⟨hw, h⟩
      · rw [h]
        cases head' ts with
        | none => exact hgo
        | some e => exact refl _
      · rw [h]
        cases head ts with
        | none => exact hgo
        | some e => exact .inr (.inr ⟨hw, e, rfl⟩)

theorem eachOf {enter : σ → σ} {leave : σ → σ → σ}
    {p q : ι → List τ → σ → Result τ σ ε β} (h : ∀ i ts s, Below w (p i ts s) (q i ts s))
    (subs : List (ι × List τ)) (ts : List τ) (s : σ) :
    Below w (eachOf enter leave p subs ts s) (eachOf enter leave q subs ts s) := by
  induction subs generalizing ts s with
  | nil => exact refl _
  | cons sub subs ih =>
      obtain ⟨i, us⟩ := sub
      refine (h i us (enter s)).bind fun b _ s' => ?_
      exact (ih ts (leave s s')).bind fun bs ts s => refl _

theorem execWith {skips : τ → Bool} {watch watch' : Bool}
    (hwatch : watch' = watch ∨ (w ∧ watch' = false))
    {env env' : F → List τ → σ → Result τ σ ε ρ}
    (henv : ∀ c ts s, Below w (env c ts s) (env' c ts s)) {n m : Nat} (hnm : n ≤ m)
    (p : Prog τ σ ε F ρ α) (ts : List τ) (s : σ) :
    Below w (execWith skips watch env n p ts s) (execWith skips watch' env' m p ts s) := by
  induction p generalizing ts s with
  | pure a => exact refl _
  | bind p f ihp ihf => exact (ihp ts s).bind ihf
  | act f => exact refl _
  | next f => exact refl _
  | trap e => exact refl _
  | call c => exact henv c ts s
  | loop stalls body b ih =>
      refine iterate (fun ts => ?_) ih hnm b ts s
      rcases hwatch with h | ⟨hw, h⟩
      · exact .inl (by rw [h])
      · exact .inr ⟨hw, by rw [h]; rfl⟩
  | inner f subs enter leave p ih =>
      cases ts with
      | nil => exact refl _
      | cons t us => exact eachOf ih _ _ _

end Below

namespace Reader

variable (R : Reader τ σ ε F ρ)

theorem run_below {w : Prop} {watch watch' : Bool}
    (hwatch : watch' = watch ∨ (w ∧ watch' = false)) {n m : Nat} (hnm : n ≤ m) (c : F)
    (ts : List τ) (s : σ) : Below w (R.run watch n c ts s) (R.run watch' m c ts s) := by
  induction n generalizing m c ts s with
  | zero => exact .inr (.inl rfl)
  | succ n ih =>
      obtain ⟨m, rfl⟩ : ∃ k, m = k + 1 := ⟨m - 1, by omega⟩
      exact Below.execWith hwatch (ih (by omega)) (by omega) (R.body c) ts s

theorem exec_below {w : Prop} {watch watch' : Bool}
    (hwatch : watch' = watch ∨ (w ∧ watch' = false)) {n m : Nat} (hnm : n ≤ m)
    (p : Prog τ σ ε F ρ α) (ts : List τ) (s : σ) :
    Below w (R.exec watch n p ts s) (R.exec watch' m p ts s) :=
  Below.execWith hwatch (R.run_below hwatch hnm) hnm p ts s

/-- More fuel changes nothing in a run whose fuel lasted. -/
theorem exec_mono {watch : Bool} {n m : Nat} (hnm : n ≤ m) {p : Prog τ σ ε F ρ α} {ts : List τ}
    {s : σ} (h : R.exec watch n p ts s ≠ more) :
    R.exec watch m p ts s = R.exec watch n p ts s := by
  rcases R.exec_below (w := False) (.inl rfl) hnm p ts s with h' | h' | ⟨hw, -⟩
  · exact h'.symm
  · exact absurd h' h
  · exact hw.elim

theorem run_mono {watch : Bool} {n m : Nat} (hnm : n ≤ m) {c : F} {ts : List τ} {s : σ}
    (h : R.run watch n c ts s ≠ more) : R.run watch m c ts s = R.run watch n c ts s :=
  R.exec_mono (p := .call c) hnm h

/-- A watched run that ends without a trap is the plain run. -/
theorem exec_of_watched {n : Nat} {p : Prog τ σ ε F ρ α} {ts us : List τ} {s s' : σ} {a : α}
    (h : R.exec true n p ts s = ends a us s') : R.exec false n p ts s = ends a us s' := by
  rcases R.exec_below (w := True) (.inr ⟨trivial, rfl⟩) n.le_refl p ts s with h' | h' | ⟨-, e, h'⟩
  · rw [← h', h]
  · rw [h] at h'
    cases h'
  · rw [h] at h'
    cases h'

end Reader

end Readers
