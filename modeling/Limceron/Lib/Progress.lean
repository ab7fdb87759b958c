/-
# `Limceron.Lib.Progress` — readers that come to an end

A *dry* run of a reader stays at the first token: it ends as soon as a token is
taken.

| dry run | the program |
| :-- | :-- |
| `still a s` | is through, and has taken nothing |
| `moved` | has taken a token |
| `trapped` | has met a trap, or a loop that stalls here |
| `bad` | went once around a loop for nothing, or called too deep |

A loop is tight if it stalls exactly where a dry run of its body goes around for
nothing.  The dry runs of single procedures and of the bodies of single loops are
all that has to be known of a reader: if none is bad, then a watched run always
ends (`Reader.exec_settles`), and the plain run ends exactly where the watched one
meets no trap (`Reader.returns_iff_meets_none`).
-/
import Limceron.Lib.Readers
import Mathlib.Algebra.BigOperators.Group.List.Basic

namespace Readers

variable {τ σ ε F ρ α β γ ι : Type}

open Result

/-! ## Dry runs -/

inductive Dry (σ α : Type) where
  | moved
  | still (a : α) (s : σ)
  | trapped
  | bad

namespace Dry

def bind (r : Dry σ α) (f : α → σ → Dry σ β) : Dry σ β :=
  match r with
  | .moved => .moved
  | .still a s => f a s
  | .trapped => .trapped
  | .bad => .bad

@[simp] theorem moved_bind (f : α → σ → Dry σ β) : (moved : Dry σ α).bind f = moved := rfl

@[simp] theorem still_bind (a : α) (s : σ) (f : α → σ → Dry σ β) :
    (still a s).bind f = f a s := rfl

@[simp] theorem trapped_bind (f : α → σ → Dry σ β) : (trapped : Dry σ α).bind f = trapped := rfl

/-- If the run is through without a token, then `Q`; and it is not bad. -/
def All (r : Dry σ α) (Q : α → σ → Prop) : Prop :=
  match r with
  | .still a s => Q a s
  | .bad => False
  | _ => True

@[simp] theorem all_moved (Q : α → σ → Prop) : (moved : Dry σ α).All Q := trivial

@[simp] theorem all_still (a : α) (s : σ) (Q : α → σ → Prop) : (still a s).All Q ↔ Q a s := Iff.rfl

@[simp] theorem all_trapped (Q : α → σ → Prop) : (trapped : Dry σ α).All Q := trivial

/-- What a loop makes of a dry run of its body. -/
def leaving (r : Dry σ (β ⊕ γ)) : Dry σ γ :=
  r.bind fun r s => r.elim (fun _ => .bad) fun c => .still c s

theorem all_bind {r : Dry σ α} {f : α → σ → Dry σ β} {Q : β → σ → Prop} :
    (r.bind f).All Q ↔ r.All fun a s => (f a s).All Q := by
  cases r with
  | moved => exact Iff.rfl
  | still a s => exact Iff.rfl
  | trapped => exact Iff.rfl
  | bad => exact Iff.rfl

theorem All.mono {r : Dry σ α} {P Q : α → σ → Prop} (h : r.All P) (hPQ : ∀ a s, P a s → Q a s) :
    r.All Q := by
  cases r with
  | moved => trivial
  | still a s => exact hPQ a s h
  | trapped => trivial
  | bad => exact h

theorem All.ne_bad {r : Dry σ α} {Q : α → σ → Prop} (h : r.All Q) : r ≠ bad := by
  rintro rfl
  exact h

end Dry

/-- A dry run, given what the calls do. -/
def dryWith (env : F → List τ → σ → Dry σ ρ) :
    {α : Type} → Prog τ σ ε F ρ α → List τ → σ → Dry σ α
  | _, .pure a, _, s => .still a s
  | _, .bind p f, ts, s => (dryWith env p ts s).bind fun a s => dryWith env (f a) ts s
  | _, .act f, ts, s => .still (f ts s).1 (f ts s).2
  | _, .next f, ts, s => if ts.isEmpty then .still () (f ts s) else .moved
  | _, .trap _, _, _ => .trapped
  | _, .call c, ts, s => env c ts s
  | _, .loop stalls body b, ts, s =>
      if (stalls ts).isSome then .trapped else (dryWith env (body b) ts s).leaving
  | _, .inner _ _ _ _ _, ts, s => if ts.isEmpty then .still [] s else .moved

namespace Reader

variable (R : Reader τ σ ε F ρ)

/-- A dry call, to a depth. -/
def dryRun : Nat → F → List τ → σ → Dry σ ρ
  | 0, _, _, _ => .bad
  | d + 1, c, ts, s => dryWith (dryRun d) (R.body c) ts s

def dry (d : Nat) (p : Prog τ σ ε F ρ α) (ts : List τ) (s : σ) : Dry σ α :=
  dryWith (R.dryRun d) p ts s

theorem dryRun_succ (d : Nat) (c : F) (ts : List τ) (s : σ) :
    R.dryRun (d + 1) c ts s = R.dry d (R.body c) ts s := rfl

@[simp] theorem dry_pure (d : Nat) (a : α) (ts : List τ) (s : σ) :
    R.dry d (.pure a) ts s = .still a s := rfl

@[simp] theorem dry_bind (d : Nat) (p : Prog τ σ ε F ρ α) (f : α → Prog τ σ ε F ρ β)
    (ts : List τ) (s : σ) :
    R.dry d (.bind p f) ts s = (R.dry d p ts s).bind fun a s => R.dry d (f a) ts s := rfl

@[simp] theorem dry_act (d : Nat) (f : List τ → σ → α × σ) (ts : List τ) (s : σ) :
    R.dry d (.act f) ts s = .still (f ts s).1 (f ts s).2 := rfl

@[simp] theorem dry_next (d : Nat) (f : List τ → σ → σ) (ts : List τ) (s : σ) :
    R.dry d (.next f) ts s = if ts.isEmpty then .still () (f ts s) else .moved := rfl

@[simp] theorem dry_trap (d : Nat) (e : ε) (ts : List τ) (s : σ) :
    R.dry d (.trap e : Prog τ σ ε F ρ α) ts s = .trapped := rfl

theorem dry_call (d : Nat) (c : F) (ts : List τ) (s : σ) :
    R.dry d (.call c) ts s = R.dryRun d c ts s := rfl

theorem dry_loop (d : Nat) (stalls : List τ → Option ε)
    (body : β → Prog τ σ ε F ρ (β ⊕ γ)) (b : β) (ts : List τ) (s : σ) :
    R.dry d (.loop stalls body b) ts s =
      if (stalls ts).isSome then .trapped else (R.dry d (body b) ts s).leaving := rfl

end Reader

/-! ## Tight loops -/

section Tight

variable (R : Reader τ σ ε F ρ)

/-- The size of a list of tokens. -/
def Reader.size (ts : List τ) : Nat := (ts.map R.weight).sum

/-- The body at `ts` leaves the loop, or takes a token before it goes around. -/
def Reader.Proceeds (d : Nat) (p : Prog τ σ ε F ρ (β ⊕ γ)) (ts : List τ) (s : σ) : Prop :=
  (R.dry d p ts s).All fun r _ => r.isRight

/-- The body at `ts` goes around, and takes nothing. -/
def Reader.Idles (d : Nat) (p : Prog τ σ ε F ρ (β ⊕ γ)) (ts : List τ) (s : σ) : Prop :=
  ∃ b s', R.dry d p ts s = .still (.inl b) s'

/-- Every loop stalls exactly where its body goes around for nothing, and what
stands inside a token is smaller than the token. -/
def Reader.Tight (d : Nat) : {α : Type} → Prog τ σ ε F ρ α → Prop
  | _, .pure _ => True
  | _, .bind p f => Tight d p ∧ ∀ a, Tight d (f a)
  | _, .act _ => True
  | _, .next _ => True
  | _, .trap _ => True
  | _, .call _ => True
  | _, .loop stalls body _ =>
      (∀ b ts s, stalls ts = none → R.Proceeds d (body b) ts s) ∧
        (∀ b ts s, stalls ts ≠ none → R.Idles d (body b) ts s) ∧ ∀ b, Tight d (body b)
  | _, .inner _ subs _ _ p =>
      (∀ t, ∀ u ∈ subs t, R.size u.2 < R.weight t) ∧ ∀ i, Tight d (p i)

/-- A reader whose procedures are tight, and are not bad to the depth `d`. -/
structure Reader.IsTight (d : Nat) : Prop where
  weight_pos : ∀ t, 0 < R.weight t
  tight : ∀ c, R.Tight d (R.body c)
  dry : ∀ c ts s, R.dryRun d c ts s ≠ .bad

end Tight

namespace Reader

variable {R : Reader τ σ ε F ρ}

variable {d : Nat}

@[simp] theorem tight_pure (a : α) : R.Tight d (.pure a) := trivial

@[simp] theorem tight_bind (p : Prog τ σ ε F ρ α) (f : α → Prog τ σ ε F ρ β) :
    R.Tight d (.bind p f) ↔ R.Tight d p ∧ ∀ a, R.Tight d (f a) := Iff.rfl

@[simp] theorem tight_act (f : List τ → σ → α × σ) : R.Tight d (.act f) := trivial

@[simp] theorem tight_next (f : List τ → σ → σ) : R.Tight d (.next f) := trivial

@[simp] theorem tight_trap (e : ε) : R.Tight d (.trap e : Prog τ σ ε F ρ α) := trivial

@[simp] theorem tight_call (c : F) : R.Tight d (.call c) := trivial

/-- Where the calls are not bad, a tight program is not. -/
theorem Tight.dry_all (hcall : ∀ c ts s, R.dryRun d c ts s ≠ .bad) {p : Prog τ σ ε F ρ α}
    (hp : R.Tight d p) (ts : List τ) (s : σ) : (R.dry d p ts s).All fun _ _ => True := by
  induction p generalizing s with
  | pure a => trivial
  | bind p f ihp ihf =>
      rw [dry_bind, Dry.all_bind]
      exact (ihp hp.1 s).mono fun a s _ => ihf a (hp.2 a) s
  | act f => trivial
  | next f =>
      rw [dry_next]
      split
      · trivial
      · trivial
  | trap e => trivial
  | call c =>
      have h := hcall c ts s
      rw [dry_call]
      generalize R.dryRun d c ts s = x at h
      cases x with
      | bad => exact absurd rfl h
      | moved => trivial
      | still a s => trivial
      | trapped => trivial
  | loop stalls body b ih =>
      rw [dry_loop]
      split
      · trivial
      · next hs =>
          have h : R.Proceeds d (body b) ts s := hp.1 b ts s (by simpa using hs)
          rw [Dry.leaving, Dry.all_bind]
          refine Dry.All.mono h fun r s hr => ?_
          cases r with
          | inl b => cases hr
          | inr c => trivial
  | inner f subs enter leave p ih =>
      unfold Reader.dry dryWith
      split
      · trivial
      · trivial

/-! ## Sizes -/

@[simp] theorem size_nil : R.size [] = 0 := rfl

@[simp] theorem size_cons (t : τ) (ts : List τ) : R.size (t :: ts) = R.weight t + R.size ts := by
  simp [size]

theorem size_dropWhile_le (ts : List τ) : R.size (ts.dropWhile R.skips) ≤ R.size ts := by
  induction ts with
  | nil => exact Nat.le_refl _
  | cons t ts ih =>
      rw [List.dropWhile_cons]
      split
      · rw [size_cons]
        omega
      · exact Nat.le_refl _

theorem size_next_le (ts : List τ) : R.size (ts.tail.dropWhile R.skips) ≤ R.size ts := by
  have h := R.size_dropWhile_le ts.tail
  cases ts with
  | nil => exact h
  | cons t ts =>
      rw [List.tail_cons] at h ⊢
      rw [size_cons]
      omega

/-- A result after which no more is left than `n`. -/
def Leaves (R : Reader τ σ ε F ρ) (n : Nat) (r : Result τ σ ε α) : Prop :=
  ∀ a ts s, r = ends a ts s → R.size ts ≤ n

theorem Leaves.ends {n : Nat} {a : α} {ts : List τ} {s : σ} (h : R.size ts ≤ n) :
    R.Leaves n (ends a ts s : Result τ σ ε α) := by
  intro _ _ _ heq
  cases heq
  exact h

theorem Leaves.more {n : Nat} : R.Leaves n (more : Result τ σ ε α) := by
  intro _ _ _ heq
  cases heq

theorem Leaves.traps {n : Nat} {e : ε} : R.Leaves n (traps e : Result τ σ ε α) := by
  intro _ _ _ heq
  cases heq

theorem Leaves.bind {n : Nat} {r : Result τ σ ε α} {f : α → List τ → σ → Result τ σ ε β}
    (h : R.Leaves n r) (hf : ∀ a ts s, R.size ts ≤ n → R.Leaves n (f a ts s)) :
    R.Leaves n (r.bind f) := by
  cases r with
  | more => exact Leaves.more
  | traps e => exact Leaves.traps
  | ends a ts s => exact hf a ts s (h a ts s rfl)

theorem Leaves.mono {n m : Nat} {r : Result τ σ ε α} (h : R.Leaves n r) (hnm : n ≤ m) :
    R.Leaves m r := fun a ts s heq => Nat.le_trans (h a ts s heq) hnm

theorem Leaves.iterate {head : List τ → Option ε}
    {body : β → List τ → σ → Result τ σ ε (β ⊕ γ)}
    (hbody : ∀ b ts s, R.Leaves (R.size ts) (body b ts s)) (n : Nat) (b : β) (ts : List τ) (s : σ) :
    R.Leaves (R.size ts) (iterate head body n b ts s) := by
  induction n generalizing b ts s with
  | zero => exact Leaves.more
  | succ n ih =>
      rw [Readers.iterate]
      cases head ts with
      | some e => exact Leaves.traps
      | none =>
          refine (hbody b ts s).bind fun r us s' hus => ?_
          cases r with
          | inl b => exact (ih b us s').mono hus
          | inr c => exact Leaves.ends hus

theorem Leaves.eachOf {enter : σ → σ} {leave : σ → σ → σ} {p : ι → List τ → σ → Result τ σ ε β}
    (subs : List (ι × List τ)) (ts : List τ) (s : σ) :
    R.Leaves (R.size ts) (eachOf enter leave p subs ts s) := by
  induction subs generalizing s with
  | nil => exact Leaves.ends (Nat.le_refl _)
  | cons sub subs ih =>
      obtain ⟨i, us⟩ := sub
      rw [Readers.eachOf]
      cases p i us (enter s) with
      | more => exact Leaves.more
      | traps e => exact Leaves.traps
      | ends b vs s' => exact (ih (leave s s')).bind fun bs ts s h => Leaves.ends h

theorem Leaves.execWith {watch : Bool} {env : F → List τ → σ → Result τ σ ε ρ}
    (henv : ∀ c ts s, R.Leaves (R.size ts) (env c ts s)) (n : Nat) (p : Prog τ σ ε F ρ α)
    (ts : List τ) (s : σ) : R.Leaves (R.size ts) (execWith R.skips watch env n p ts s) := by
  induction p generalizing ts s with
  | pure a => exact Leaves.ends (Nat.le_refl _)
  | bind p f ihp ihf => exact (ihp ts s).bind fun a us s' hus => (ihf a us s').mono hus
  | act f => exact Leaves.ends (Nat.le_refl _)
  | next f => exact Leaves.ends (R.size_next_le ts)
  | trap e => exact Leaves.traps
  | call c => exact henv c ts s
  | loop stalls body b ih => exact Leaves.iterate ih n b ts s
  | inner f subs enter leave p ih =>
      cases ts with
      | nil => exact Leaves.ends (Nat.le_refl _)
      | cons t us => exact (Leaves.eachOf _ _ _).mono (R.size_next_le (t :: us))

theorem run_leaves (watch : Bool) (n : Nat) (c : F) (ts : List τ) (s : σ) :
    R.Leaves (R.size ts) (R.run watch n c ts s) := by
  induction n generalizing c ts s with
  | zero => exact Leaves.more
  | succ n ih => exact Leaves.execWith ih n (R.body c) ts s

/-- No run puts tokens back. -/
theorem exec_leaves (watch : Bool) (n : Nat) (p : Prog τ σ ε F ρ α) (ts : List τ) (s : σ) :
    R.Leaves (R.size ts) (R.exec watch n p ts s) :=
  Leaves.execWith (run_leaves watch n) n p ts s

/-! ## What a dry run foretells -/

/-- `r` ends the way the dry run says. -/
def Foretells (R : Reader τ σ ε F ρ) (watch : Bool) (ts : List τ) (x : Dry σ α)
    (r : Result τ σ ε α) : Prop :=
  match x with
  | .still a s => r = .more ∨ r = .ends a ts s
  | .moved => ∀ a us s, r = .ends a us s → R.size us < R.size ts
  | .trapped => watch = true → r = .more ∨ ∃ e, r = .traps e
  | .bad => True

theorem Foretells.more {watch : Bool} {ts : List τ} (x : Dry σ α) :
    R.Foretells watch ts x (more : Result τ σ ε α) := by
  cases x with
  | moved => rintro _ _ _ ⟨⟩
  | still a s => exact .inl rfl
  | trapped => exact fun _ => .inl rfl
  | bad => trivial

theorem Foretells.bind {watch : Bool} {ts : List τ} {x : Dry σ α} {r : Result τ σ ε α}
    {f : α → σ → Dry σ β} {g : α → List τ → σ → Result τ σ ε β} (h : R.Foretells watch ts x r)
    (hstill : ∀ a s, R.Foretells watch ts (f a s) (g a ts s))
    (hg : ∀ a us s, R.Leaves (R.size us) (g a us s)) :
    R.Foretells watch ts (x.bind f) (r.bind g) := by
  cases x with
  | moved =>
      intro b vs s' heq
      obtain ⟨a, us, s, rfl, hb⟩ := bind_eq_ends heq
      exact Nat.lt_of_le_of_lt (hg a us s b vs s' hb) (h a us s rfl)
  | still a s =>
      rcases h with rfl | rfl
      · exact Foretells.more _
      · exact hstill a s
  | trapped =>
      intro hwatch
      rcases h hwatch with rfl | ⟨e, rfl⟩
      · exact .inl rfl
      · exact .inr ⟨e, rfl⟩
  | bad => trivial

theorem foretells_execWith (hpos : ∀ t, 0 < R.weight t) {watch : Bool} {n d : Nat}
    (hcall : ∀ c ts s, R.Foretells watch ts (R.dryRun d c ts s) (R.run watch n c ts s))
    (p : Prog τ σ ε F ρ α) (ts : List τ) (s : σ) :
    R.Foretells watch ts (R.dry d p ts s) (R.exec watch n p ts s) := by
  induction p generalizing ts s with
  | pure a => exact .inr rfl
  | bind p f ihp ihf =>
      exact (ihp ts s).bind (fun a s => ihf a ts s) fun a us s => exec_leaves watch n (f a) us s
  | act f => exact .inr rfl
  | next f =>
      cases ts with
      | nil => exact .inr rfl
      | cons t ts =>
          intro _ _ _ heq
          cases heq
          have := R.size_dropWhile_le ts
          have := hpos t
          rw [List.tail_cons, size_cons]
          omega
  | trap e => exact fun _ => .inr ⟨e, rfl⟩
  | call c => exact hcall c ts s
  | loop stalls body b ih =>
      rw [R.dry_loop, R.exec_loop]
      cases n with
      | zero => exact Foretells.more _
      | succ n =>
          rw [iterate]
          have hbody : ∀ b us s, R.Leaves (R.size us) (R.exec watch (n + 1) (body b) us s) :=
            fun b us s => exec_leaves watch (n + 1) (body b) us s
          have hgo : R.Foretells watch ts (R.dry d (body b) ts s).leaving
              ((R.exec watch (n + 1) (body b) ts s).bind
                (around (iterate (fun ts => if watch then stalls ts else none)
                  (fun b => R.exec watch (n + 1) (body b)) n))) := by
            refine (ih b ts s).bind (fun r s => ?_) fun r us s => ?_
            · cases r with
              | inl b => trivial
              | inr c => exact .inr rfl
            · cases r with
              | inl b => exact Leaves.iterate hbody n b us s
              | inr c => exact Leaves.ends (Nat.le_refl _)
          cases hs : stalls ts with
          | none =>
              rw [ite_self]
              exact hgo
          | some e =>
              intro hwatch
              subst hwatch
              exact .inr ⟨e, rfl⟩
  | inner f subs enter leave p ih =>
      cases ts with
      | nil => exact .inr rfl
      | cons t us =>
          intro a vs s' heq
          have hle := Leaves.eachOf (R := R) (subs t) (us.dropWhile R.skips) _ a vs s' heq
          have := R.size_dropWhile_le us
          have := hpos t
          rw [size_cons]
          omega

theorem foretells_run (hpos : ∀ t, 0 < R.weight t) (watch : Bool) (n d : Nat) (c : F)
    (ts : List τ) (s : σ) :
    R.Foretells watch ts (R.dryRun d c ts s) (R.run watch n c ts s) := by
  induction n generalizing d c ts s with
  | zero => exact Foretells.more _
  | succ n ih =>
      cases d with
      | zero => trivial
      | succ d => exact foretells_execWith hpos (ih d) (R.body c) ts s

theorem foretells (hpos : ∀ t, 0 < R.weight t) (watch : Bool) (n d : Nat) (p : Prog τ σ ε F ρ α)
    (ts : List τ) (s : σ) : R.Foretells watch ts (R.dry d p ts s) (R.exec watch n p ts s) :=
  foretells_execWith hpos (foretells_run hpos watch n d) p ts s

/-- Where the body of a loop proceeds, a watched run of it leaves the loop or has
taken a token. -/
theorem Proceeds.inl {p : Prog τ σ ε F ρ (β ⊕ γ)} {ts us : List τ} {s s' : σ} {b : β} {n : Nat}
    (hpos : ∀ t, 0 < R.weight t) (h : R.Proceeds d p ts s)
    (hp : R.exec true n p ts s = ends (.inl b) us s') : R.size us < R.size ts := by
  have hf := foretells hpos true n d p ts s
  rw [hp] at hf
  unfold Proceeds at h
  generalize R.dry d p ts s = x at h hf
  cases x with
  | moved => exact hf _ _ _ rfl
  | still a s =>
      rcases hf with hf | hf
      · cases hf
      · cases hf
        cases h
  | trapped =>
      rcases hf rfl with hf | ⟨e, hf⟩
      · cases hf
      · cases hf
  | bad => exact h.elim

/-- Where it idles, a plain run of it is back where it was. -/
theorem Idles.exec {p : Prog τ σ ε F ρ (β ⊕ γ)} {ts : List τ} {s : σ}
    (hpos : ∀ t, 0 < R.weight t) (h : R.Idles d p ts s) (n : Nat) :
    R.exec false n p ts s = more ∨ ∃ b s', R.exec false n p ts s = ends (.inl b) ts s' := by
  obtain ⟨b, s', hd⟩ := h
  have hf := foretells hpos false n d p ts s
  rw [hd] at hf
  rcases hf with hf | hf
  · exact .inl hf
  · exact .inr ⟨b, s', hf⟩

/-! ## Watched runs end -/

/-- The watched run has enough of some fuel. -/
def Settles (R : Reader τ σ ε F ρ) (p : Prog τ σ ε F ρ α) (ts : List τ) (s : σ) : Prop :=
  ∃ n, R.exec true n p ts s ≠ more

/-- All calls settle on less than `N`. -/
def SettlesBelow (R : Reader τ σ ε F ρ) (N : Nat) : Prop :=
  ∀ c ts s, R.size ts < N → R.Settles (.call c) ts s

theorem Settles.bind {p : Prog τ σ ε F ρ α} {f : α → Prog τ σ ε F ρ β} {ts : List τ} {s : σ}
    (hp : R.Settles p ts s)
    (hf : ∀ n a us s', R.exec true n p ts s = ends a us s' → R.Settles (f a) us s') :
    R.Settles (.bind p f) ts s := by
  obtain ⟨n, hn⟩ := hp
  cases hr : R.exec true n p ts s with
  | more => exact absurd hr hn
  | traps e =>
      refine ⟨n, ?_⟩
      rw [exec_bind, hr]
      simp
  | ends a us s' =>
      obtain ⟨m, hm⟩ := hf n a us s' hr
      refine ⟨max n m, ?_⟩
      rw [exec_bind, R.exec_mono (Nat.le_max_left n m) hn, hr, ends_bind,
        R.exec_mono (Nat.le_max_right n m) hm]
      exact hm

/-- A loop settles if its body does, and it settles wherever it goes on. -/
theorem Settles.loop {stalls : List τ → Option ε} {body : β → Prog τ σ ε F ρ (β ⊕ γ)} {b : β}
    {ts : List τ} {s : σ} (hbody : stalls ts = none → R.Settles (body b) ts s)
    (hgo : stalls ts = none → ∀ n b' us s', R.exec true n (body b) ts s = ends (.inl b') us s' →
      R.Settles (.loop stalls body b') us s') :
    R.Settles (.loop stalls body b) ts s := by
  cases hs : stalls ts with
  | some e =>
      refine ⟨1, ?_⟩
      rw [exec_loop, iterate, if_pos rfl, hs]
      simp
  | none =>
      obtain ⟨n, hn⟩ := hbody hs
      cases hr : R.exec true n (body b) ts s with
      | more => exact absurd hr hn
      | traps e =>
          refine ⟨n + 1, ?_⟩
          rw [exec_loop, iterate, if_pos rfl, hs]
          simp only [R.exec_mono (Nat.le_succ n) hn, hr]
          simp
      | ends r us s' =>
          cases r with
          | inr c =>
              refine ⟨n + 1, ?_⟩
              rw [exec_loop, iterate, if_pos rfl, hs]
              simp only [R.exec_mono (Nat.le_succ n) hn, hr]
              simp [around]
          | inl b' =>
              obtain ⟨m, hm⟩ := hgo hs n b' us s' hr
              have hle : n ≤ max n m + 1 := by omega
              refine ⟨max n m + 1, ?_⟩
              rw [exec_loop, iterate, if_pos rfl, hs]
              simp only [R.exec_mono hle hn, hr]
              have hbelow : Below False
                  (iterate (fun ts => if true then stalls ts else none)
                    (fun b => R.exec true m (body b)) m b' us s')
                  (iterate (fun ts => if true then stalls ts else none)
                    (fun b => R.exec true (max n m + 1) (body b)) (max n m) b' us s') :=
                Below.iterate (fun _ => .inl rfl)
                  (fun b => R.exec_below (.inl rfl) (by omega) (body b)) (Nat.le_max_right n m) b' us s'
              rw [exec_loop] at hm
              rcases hbelow with h | h | ⟨h, -⟩
              · rw [h] at hm
                exact hm
              · exact absurd h hm
              · exact h.elim

theorem Settles.inner {f : List τ → σ → σ} {subs : τ → List (ι × List τ)} {enter : σ → σ}
    {leave : σ → σ → σ} {p : ι → Prog τ σ ε F ρ β} {t : τ} {ts : List τ} {s : σ}
    (h : ∀ u ∈ subs t, ∀ s, R.Settles (p u.1) u.2 s) :
    R.Settles (.inner f subs enter leave p) (t :: ts) s := by
  suffices ∀ us s, ∃ n, eachOf enter leave (fun i => R.exec true n (p i)) (subs t) us s ≠ more from
    this _ _
  intro us s
  generalize subs t = l at h ⊢
  induction l generalizing s with
  | nil => exact ⟨0, by simp [eachOf]⟩
  | cons u rest ih =>
      obtain ⟨i, vs⟩ := u
      obtain ⟨n, hn⟩ := h (i, vs) List.mem_cons_self (enter s)
      cases hr : R.exec true n (p i) vs (enter s) with
      | more => exact absurd hr hn
      | traps e =>
          refine ⟨n, ?_⟩
          rw [eachOf, hr]
          simp
      | ends b ws s' =>
          obtain ⟨m, hm⟩ := ih (leave s s') fun u hu => h u (List.mem_cons_of_mem _ hu)
          refine ⟨max n m, ?_⟩
          have hbelow : Below False
              (eachOf enter leave (fun i => R.exec true m (p i)) rest us (leave s s'))
              (eachOf enter leave (fun i => R.exec true (max n m) (p i)) rest us (leave s s')) :=
            Below.eachOf (fun i => R.exec_below (.inl rfl) (Nat.le_max_right n m) (p i)) rest us
              (leave s s')
          rw [eachOf, R.exec_mono (Nat.le_max_left n m) hn, hr, ends_bind]
          rcases hbelow with h' | h' | ⟨h', -⟩
          · rw [← h']
            intro heq
            generalize eachOf enter leave (fun i => R.exec true m (p i)) rest us (leave s s') = r
              at hm heq
            cases r with
            | more => exact hm rfl
            | traps e => cases heq
            | ends a ts s => cases heq
          · exact absurd h' hm
          · exact h'.elim

/-- On less than the calls settle on, every tight program settles. -/
theorem settles_of_lt (hpos : ∀ t, 0 < R.weight t) {N : Nat} (hN : R.SettlesBelow N)
    (p : Prog τ σ ε F ρ α) (hp : R.Tight d p) (ts : List τ) (s : σ) (hts : R.size ts < N) :
    R.Settles p ts s := by
  induction p generalizing ts s with
  | pure a => exact ⟨0, by simp⟩
  | bind p f ihp ihf =>
      refine (ihp hp.1 ts s hts).bind fun n a us s' hr => ihf a (hp.2 a) us s' ?_
      exact Nat.lt_of_le_of_lt (exec_leaves true n p ts s a us s' hr) hts
  | act f => exact ⟨0, by simp⟩
  | next f => exact ⟨0, by simp⟩
  | trap e => exact ⟨0, by simp⟩
  | call c => exact hN c ts s hts
  | loop stalls body b ih =>
      obtain ⟨hproceeds, -, hbody⟩ := hp
      -- the first token of the list is taken before the loop goes around
      induction hsize : R.size ts using Nat.strongRecOn generalizing b ts s with
      | _ k ihk =>
          subst hsize
          refine Settles.loop (fun _ => ih b (hbody b) ts s hts) fun hs n b' us s' hr => ?_
          have hlt := Proceeds.inl hpos (hproceeds b ts s hs) hr
          exact ihk _ hlt b' us s' (Nat.lt_trans hlt hts) rfl
  | inner f subs enter leave p ih =>
      cases ts with
      | nil => exact ⟨0, by simp [exec, execWith]⟩
      | cons t us =>
          refine Settles.inner fun u hu s => ih u.1 (hp.2 u.1) u.2 s ?_
          have := hp.1 t u hu
          rw [size_cons] at hts
          omega

/-- At the bound itself, what the dry run does not call bad settles. -/
theorem settles_of_dry (hpos : ∀ t, 0 < R.weight t) {e : Nat} {ts : List τ}
    (hN : R.SettlesBelow (R.size ts))
    (hcall : ∀ c s, R.dryRun e c ts s ≠ .bad → R.Settles (.call c) ts s)
    (p : Prog τ σ ε F ρ α) (hp : R.Tight d p) (s : σ) (hdry : R.dry e p ts s ≠ .bad) :
    R.Settles p ts s := by
  induction p generalizing s with
  | pure a => exact ⟨0, by simp⟩
  | bind p f ihp ihf =>
      rw [dry_bind] at hdry
      have hbad : R.dry e p ts s ≠ .bad := by
        intro h
        rw [h] at hdry
        exact hdry rfl
      refine (ihp hp.1 s hbad).bind fun n a us s' hr => ?_
      have hf := foretells hpos true n e p ts s
      rw [hr] at hf
      generalize R.dry e p ts s = x at hdry hf
      cases x with
      | moved => exact settles_of_lt hpos hN (f a) (hp.2 a) us s' (hf a us s' rfl)
      | still a' s'' =>
          rcases hf with hf | hf
          · cases hf
          · cases hf
            exact ihf a (hp.2 a) s' hdry
      | trapped =>
          rcases hf rfl with hf | ⟨e, hf⟩
          · cases hf
          · cases hf
      | bad => exact absurd rfl hdry
  | act f => exact ⟨0, by simp⟩
  | next f => exact ⟨0, by simp⟩
  | trap e => exact ⟨0, by simp⟩
  | call c => exact hcall c s hdry
  | loop stalls body b ih =>
      refine Settles.loop (fun hs => ?_) fun hs n b' us s' hr => ?_
      · refine ih b (hp.2.2 b) s fun hbad => hdry ?_
        rw [dry_loop, hs, hbad]
        rfl
      · have hlt := Proceeds.inl hpos (hp.1 b ts s hs) hr
        exact settles_of_lt hpos hN (.loop stalls body b') hp us s' hlt
  | inner f subs enter leave p ih =>
      cases ts with
      | nil => exact ⟨0, by simp [exec, execWith]⟩
      | cons t us =>
          refine Settles.inner fun u hu s => settles_of_lt hpos hN (p u.1) (hp.2 u.1) u.2 s ?_
          have := hp.1 t u hu
          rw [size_cons]
          omega

theorem settles_call (hR : R.IsTight d) (N : Nat) : R.SettlesBelow N := by
  induction N with
  | zero => exact fun _ _ _ h => absurd h (Nat.not_lt_zero _)
  | succ N ih =>
      intro c ts s hts
      have hN : R.SettlesBelow (R.size ts) := fun c us s hus => ih c us s (by omega)
      have hdry := hR.dry c ts s
      -- the depth of the dry call bounds how often calls follow each other at one token
      generalize d = e at hdry
      induction e generalizing c s with
      | zero => exact absurd rfl hdry
      | succ e ihe =>
          obtain ⟨n, hn⟩ := settles_of_dry hR.weight_pos hN ihe (R.body c)
            (hR.tight c) s hdry
          exact ⟨n + 1, hn⟩

/-- The watched run of a tight program ends. -/
theorem exec_settles (hR : R.IsTight d) (p : Prog τ σ ε F ρ α) (hp : R.Tight d p) (ts : List τ)
    (s : σ) : R.Settles p ts s :=
  settles_of_lt hR.weight_pos (settles_call hR _) p hp ts s (Nat.lt_succ_self _)

/-! ## Plain runs follow -/

/-- Both are the same, or one of them has not enough fuel. -/
def Compatible (x y : Result τ σ ε α) : Prop := x = .more ∨ y = .more ∨ x = y

theorem Compatible.bind {x y : Result τ σ ε α} {f g : α → List τ → σ → Result τ σ ε β}
    (h : Compatible x y) (hfg : ∀ a ts s, Compatible (f a ts s) (g a ts s)) :
    Compatible (x.bind f) (y.bind g) := by
  rcases h with rfl | rfl | rfl
  · exact .inl rfl
  · exact .inr (.inl rfl)
  · cases x with
    | more => exact .inl rfl
    | traps e => exact .inr (.inr rfl)
    | ends a ts s => exact hfg a ts s

theorem Compatible.eachOf {enter : σ → σ} {leave : σ → σ → σ}
    {p q : ι → List τ → σ → Result τ σ ε β} (h : ∀ i ts s, Compatible (p i ts s) (q i ts s))
    (subs : List (ι × List τ)) (ts : List τ) (s : σ) :
    Compatible (eachOf enter leave p subs ts s) (eachOf enter leave q subs ts s) := by
  induction subs generalizing ts s with
  | nil => exact .inr (.inr rfl)
  | cons sub subs ih =>
      obtain ⟨i, us⟩ := sub
      refine (h i us (enter s)).bind fun b _ s' => ?_
      exact (ih ts (leave s s')).bind fun bs ts s => .inr (.inr rfl)

/-- Where a loop stalls, its plain run has never enough fuel. -/
theorem iterate_of_idles (hpos : ∀ t, 0 < R.weight t) {body : β → Prog τ σ ε F ρ (β ⊕ γ)}
    {ts : List τ} (h : ∀ b s, R.Idles d (body b) ts s) (k n : Nat) (b : β) (s : σ) :
    iterate (fun _ => none) (fun b => R.exec false k (body b)) n b ts s = more := by
  induction n generalizing b s with
  | zero => rfl
  | succ n ih =>
      rw [iterate]
      rcases (h b s).exec hpos k with hb | ⟨b', s', hb⟩
      · simp only [hb, more_bind]
      · simp only [hb, ends_bind]
        exact ih b' s'

theorem compatible_execWith (hpos : ∀ t, 0 < R.weight t) {n m : Nat}
    (hcall : ∀ c ts s, Compatible (R.run true n c ts s) (R.run false m c ts s))
    (p : Prog τ σ ε F ρ α) (hp : R.Tight d p) (ts : List τ) (s : σ) :
    Compatible (R.exec true n p ts s) (R.exec false m p ts s) := by
  induction p generalizing ts s with
  | pure a => exact .inr (.inr rfl)
  | bind p f ihp ihf => exact (ihp hp.1 ts s).bind fun a ts s => ihf a (hp.2 a) ts s
  | act f => exact .inr (.inr rfl)
  | next f => exact .inr (.inr rfl)
  | trap e => exact .inr (.inr rfl)
  | call c => exact hcall c ts s
  | loop stalls body b ih =>
      obtain ⟨-, hidles, hbody⟩ := hp
      have hrun : ∀ i j b ts s, Compatible
          (iterate (fun ts => if true then stalls ts else none)
            (fun b => R.exec true n (body b)) i b ts s)
          (iterate (fun _ => none) (fun b => R.exec false m (body b)) j b ts s) := by
        intro i
        induction i with
        | zero => exact fun _ _ _ _ => .inl rfl
        | succ i ihi =>
            intro j b ts s
            by_cases hs : stalls ts = none
            · cases j with
              | zero => exact .inr (.inl rfl)
              | succ j =>
                  rw [iterate, iterate, if_pos rfl, hs]
                  refine (ih b (hbody b) ts s).bind fun r us s' => ?_
                  cases r with
                  | inl b' => exact ihi j b' us s'
                  | inr c => exact .inr (.inr rfl)
            · exact .inr (.inl (iterate_of_idles hpos (fun b s => hidles b ts s hs) m j b s))
      exact hrun n m b ts s
  | inner f subs enter leave p ih =>
      cases ts with
      | nil => exact .inr (.inr rfl)
      | cons t us => exact Compatible.eachOf (fun i ts s => ih i (hp.2 i) ts s) _ _ _

theorem compatible_run (hR : R.IsTight d) (n m : Nat) (c : F) (ts : List τ) (s : σ) :
    Compatible (R.run true n c ts s) (R.run false m c ts s) := by
  induction n generalizing m c ts s with
  | zero => exact .inl rfl
  | succ n ih =>
      cases m with
      | zero => exact .inr (.inl rfl)
      | succ m => exact compatible_execWith hR.weight_pos (ih m) (R.body c) (hR.tight c) ts s

/-- The plain run returns exactly where the watched run meets no trap. -/
theorem returns_iff_meets_none (hR : R.IsTight d) (p : Prog τ σ ε F ρ α) (hp : R.Tight d p)
    (ts : List τ) (s : σ) : R.Returns p ts s ↔ ∀ e, ¬ R.Trapped p ts s e := by
  constructor
  · rintro ⟨m, a, us, s', hm⟩ e ⟨n, hn⟩
    have h := compatible_execWith hR.weight_pos (compatible_run hR n m) p hp ts s
    rw [hn, hm] at h
    rcases h with h | h | h
    · cases h
    · cases h
    · cases h
  · intro h
    obtain ⟨n, hn⟩ := exec_settles hR p hp ts s
    cases hr : R.exec true n p ts s with
    | more => exact absurd hr hn
    | traps e => exact absurd ⟨n, hr⟩ (h e)
    | ends a us s' => exact ⟨n, a, us, s', R.exec_of_watched hr⟩

end Reader

end Readers
