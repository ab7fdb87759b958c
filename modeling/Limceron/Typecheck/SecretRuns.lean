/-
# `Limceron.Typecheck.SecretRuns` — runs that differ in the secrets

What a function does, as far as others can see, are its calls: the names of the
functions and the operands they get.  Values and operators are left open
(`Interp`), and so is what a call returns, which may depend on all the calls so
far.  Of the syntax there are

| | |
| :-- | :-- |
| statements | block, let, assignment to a variable, return, break, continue |
| control | if, while, loop, for, match |
| expressions | literals, variables, operators, calls, `ask` |
| hatches | `secret_redact` returns `[REDACTED]`, `secret_unwrap` its argument |

Whatever else there is has no run.  Confinement is about the places where a
secret is passed on; it says nothing about a secret in a condition, nor about
one that `secret_unwrap` takes out.  Without these (`Discreet`), and if no other
function receives a secret (`PassesNoSecret`), two runs show the same.
-/
import Limceron.Lib.Twins
import Limceron.Typecheck.SecretFlow

namespace Limceron.Typecheck

open AstNode Twins

/-! ## Runs -/

/-- A call, with the values of its operands. -/
structure Event (V : Type) where
  name : Option String
  operands : List V

structure RunState (V : Type) where
  env : List (String × V)
  trace : List (Event V) := []

/-- How a statement can be left early. -/
inductive Exit (V : Type) where
  | brk | cont
  | ret (v : V)

/-- What the values are, and what operators and calls do. -/
structure Interp (V : Type) where
  unit : V
  redacted : V
  atom : AstNode → V
  apply : AstNode → List V → V
  truth : V → Bool
  items : V → List V
  binds : AstNode → V → Option (List (String × V))
  answer : List (Event V) → V

abbrev Run (V α : Type) := Prog (RunState V) (Exit V) α

/-- The variable `x` gets a new value where it was bound last. -/
def setVar {V : Type} (x : String) (v : V) : List (String × V) → List (String × V)
  | [] => []
  | b :: env => if b.1 = x then (x, v) :: env else b :: setVar x v env

namespace Interp

variable {V : Type} (I : Interp V)

/-- `&&` and `||` do without the second operand. -/
def skips (op : Option String) (v : V) : Bool :=
  (op == some "&&" && !I.truth v) || (op == some "||" && I.truth v)

def bindAll (bs : List (String × V)) : Run V Unit :=
  Prog.modify fun s => { s with env := bs ++ s.env }

def assign (x : String) (v : V) : Run V Unit :=
  Prog.modify fun s => { s with env := setVar x v s.env }

/-- The value of a name. -/
def readVar (n : AstNode) : Run V V :=
  Prog.read fun s => (n.name.bind fun x => s.env.lookup x).getD (I.atom n)

/-- A call is made, and answered. -/
def call (e : Event V) : Run V V := do
  Prog.modify fun s => { s with trace := s.trace ++ [e] }
  Prog.read fun s => I.answer s.trace

/-- What is bound inside is gone behind. -/
def inScope {α : Type} (p : Run V α) : Run V α :=
  Prog.restoring (fun s s' => { s' with env := s'.env.drop (s'.env.length - s.env.length) }) p

/-- One round of a loop, and whether there is another one. -/
def oneRound (p : Run V V) : Run V Bool :=
  Prog.catching (do let _ ← p; pure true) fun
    | .brk => pure false
    | .cont => pure true
    | .ret v => Prog.exit (.ret v)

/-- The first node of the list, if there is one. -/
def first (f : AstNode → Run V V) : List AstNode → Run V V
  | [] => pure I.unit
  | n :: _ => f n

def child (f : AstNode → Run V V) (n : Option AstNode) : Run V V := I.first f n.toList

/-- The guard of an arm, if it has one. -/
def guard (f : AstNode → Run V V) (params : List AstNode) : Run V Bool :=
  if params.isEmpty then pure true
  else do
    let v ← I.first f params
    pure (I.truth v)

/-- One item of a `for`. -/
def item (f : AstNode → Run V V) (pattern body : Option AstNode) (v : V) : Run V Bool :=
  oneRound (inScope do
    bindAll ((pattern.bind fun p => I.binds p v).getD [])
    I.child f body)

/-- One arm of a `match`: its value, if its pattern and its guard let it be taken. -/
def arm (f : AstNode → Run V V) (v : V) (a : AstNode) : Run V (Option V) :=
  if a.kind = .matchArm then
    match a.left.bind fun p => I.binds p v with
    | none => pure none
    | some bs => inScope do
        bindAll bs
        let g ← I.guard f a.params
        if g then do
          let w ← I.child f a.right
          pure (some w)
        else pure none
  else pure none

/-- The operands of a call; a callee that is a name is not evaluated. -/
def operands (n : AstNode) : List AstNode := if (callIdent n).isSome then n.params else n.children

/-- A node, when `f` is for the nodes it goes on with. -/
def node (f : AstNode → Run V V) (n : AstNode) : Run V V :=
  match n.kind with
  | .intLit | .floatLit | .stringLit | .boolLit | .noneLit => pure (I.atom n)
  | .ident => I.readVar n
  | .binary => do
      let a ← I.child f n.left
      if I.skips n.val a then pure a
      else do
        let b ← I.child f n.right
        pure (I.apply n [a, b])
  | .unary | .fieldAccess | .index | .array | .tuple | .map | .mapEntry | .range | .cast
  | .isExpr | .refE | .deref | .interpString | .resultOk | .resultErr => do
      let vs ← Prog.each f n.children
      pure (I.apply n vs)
  | .call | .methodCall | .hostCall | .ask => do
      let vs ← Prog.each f (operands n)
      if callIdent n = some "secret_redact" then pure I.redacted
      else if callIdent n = some "secret_unwrap" then pure (vs.headD I.unit)
      else I.call { name := (callIdent n).or n.name, operands := vs }
  | .block => inScope (Prog.inTurn f n.params I.unit)
  | .exprStmt => I.child f n.left
  | .letS => do
      let v ← I.child f n.right
      bindAll (n.name.toList.map fun x => (x, v))
      pure I.unit
  | .assign =>
      match n.left with
      | none => Prog.stuck
      | some t =>
          match t.kind, t.name with
          | .ident, some x => do
              let old ← I.readVar t
              let v ← I.child f n.right
              assign x (I.apply n [old, v])
              pure I.unit
          | _, _ => Prog.stuck
  | .ret => do
      let v ← I.child f n.left
      Prog.exit (.ret v)
  | .breakS => Prog.exit .brk
  | .continueS => Prog.exit .cont
  | .ifS => do
      let c ← I.child f n.left
      if I.truth c then I.child f n.right else I.first f n.params
  | .whileS => do
      let c ← I.child f n.left
      if I.truth c then do
        if ← oneRound (I.child f n.right) then f n else pure I.unit
      else pure I.unit
  | .loop => do
      if ← oneRound (I.child f n.left) then f n else pure I.unit
  | .forS => do
      let v ← I.first f n.params
      Prog.whileTrue (I.item f n.left n.right) (I.items v)
      pure I.unit
  | .matchS => do
      let v ← I.child f n.left
      Prog.firstSome (I.arm f v) I.unit n.params
  | _ => Prog.stuck

/-- A node, in so many steps. -/
def run : Nat → AstNode → Run V V
  | 0, _ => Prog.stuck
  | k + 1, n => I.node (run k) n

end Interp

/-- The body ends in an expression that is the result. -/
def SecretFn.endsInValue (fn : SecretFn) : Bool :=
  fn.returnType.isSome &&
    match fn.body with
    | none => false
    | some b =>
        b.kind == .block &&
          match b.params.getLast? with
          | none => false
          | some s =>
              s.kind == .exprStmt && s.left.any fun e => e.kind != .ifS && e.kind != .matchS

/-- What the function returns, if it ended like this. -/
def SecretFn.result {V : Type} (fn : SecretFn) : Except (Exit V) V → Option V
  | .error (.ret v) => some v
  | .ok v => if fn.endsInValue then some v else none
  | .error _ => none

/-- The function, on its parameters. -/
def SecretFn.run {V : Type} (I : Interp V) (fn : SecretFn) (k : Nat) (args : List (String × V)) :
    Option (Except (Exit V) V × RunState V) :=
  I.child (I.run k) fn.body { env := args }

/-! ## What is asked of a function -/

/-- No function but the sinks and the hatches receives a secret. -/
def PassesNoSecret (fn : SecretFn) : Prop :=
  ∀ body n a, fn.body = some body → Within n body →
    n.kind = .call ∨ n.kind = .methodCall ∨ n.kind = .hostCall → isHatchCall n = false →
      isSecretOutputSink (callIdent n) = false → a ∈ Interp.operands n → ¬ Shows (Secret fn) a

/-- The expression `e` decides how the run goes on at `n`, or is taken out of its
wrapping there. -/
inductive Steers (n : AstNode) : AstNode → Prop
  | condition {e : AstNode} : n.kind = .ifS ∨ n.kind = .whileS ∨ n.kind = .matchS →
      n.left = some e → Steers n e
  | iterator {e : AstNode} : n.kind = .forS → e ∈ n.params → Steers n e
  | guard {e : AstNode} : n.kind = .matchArm → e ∈ n.params → Steers n e
  | lazy {e : AstNode} : n.kind = .binary → n.val = some "&&" ∨ n.val = some "||" →
      n.left = some e → Steers n e
  | unwrap {e : AstNode} : callIdent n = some "secret_unwrap" → e ∈ n.params → Steers n e

/-- No secret steers the run, and none is unwrapped. -/
def Discreet (fn : SecretFn) : Prop :=
  ∀ body n e, fn.body = some body → Within n body → Steers n e → ¬ Shows (Secret fn) e

/-! ## What two runs share -/

/-- Only variables with the property `S` differ. -/
def AlikeEnv {V : Type} (S : String → Prop) : List (String × V) → List (String × V) → Prop :=
  List.Forall₂ fun b b' => b.1 = b'.1 ∧ (¬ S b.1 → b.2 = b'.2)

structure Alike {V : Type} (S : String → Prop) (s t : RunState V) : Prop where
  env : AlikeEnv S s.env t.env
  trace : s.trace = t.trace

/-- The same way to leave; the result may differ if it is secret. -/
inductive AlikeExit {V : Type} (fn : SecretFn) : Exit V → Exit V → Prop
  | brk : AlikeExit fn .brk .brk
  | cont : AlikeExit fn .cont .cont
  | ret {v w : V} : (typeIsSecret fn.returnType = false → v = w) → AlikeExit fn (.ret v) (.ret w)

/-- Two runs of the function from arguments that differ in secrets only: both end
or none, with the same calls, and the same result unless it is secret. -/
def SameOutput (fn : SecretFn) : Prop :=
  ∀ (V : Type) (I : Interp V) (k : Nat) (args args' : List (String × V)),
    AlikeEnv (Secret fn) args args' →
      Option.Rel (fun r r' => r.2.trace = r'.2.trace ∧
        (typeIsSecret fn.returnType = false → fn.result r.1 = fn.result r'.1))
        (fn.run I k args) (fn.run I k args')

section
variable {V : Type} {S : String → Prop}

theorem AlikeEnv.append {bs env env' : List (String × V)} (h : AlikeEnv S env env') :
    AlikeEnv S (bs ++ env) (bs ++ env') := by
  induction bs with
  | nil => exact h
  | cons b bs ih => exact .cons ⟨rfl, fun _ => rfl⟩ ih

theorem AlikeEnv.push {x : String} {v w : V} {env env' : List (String × V)} (hv : ¬ S x → v = w)
    (h : AlikeEnv S env env') : AlikeEnv S ((x, v) :: env) ((x, w) :: env') :=
  List.Forall₂.cons ⟨rfl, hv⟩ h

theorem AlikeEnv.setVar {x : String} {v w : V} {env env' : List (String × V)}
    (h : AlikeEnv S env env') (hv : ¬ S x → v = w) :
    AlikeEnv S (setVar x v env) (setVar x w env') := by
  induction h with
  | nil => exact .nil
  | @cons b b' env env' hb h ih =>
      rw [Typecheck.setVar, Typecheck.setVar, ← hb.1]
      split
      · exact AlikeEnv.push hv h
      · exact List.Forall₂.cons hb ih

theorem AlikeEnv.lookup {x : String} {env env' : List (String × V)} (h : AlikeEnv S env env')
    (hx : ¬ S x) : env.lookup x = env'.lookup x := by
  induction h with
  | nil => rfl
  | @cons b b' env env' hb h ih =>
      obtain ⟨y, v⟩ := b
      obtain ⟨y', v'⟩ := b'
      obtain ⟨hname, hvalue⟩ := hb
      cases hname
      rw [List.lookup_cons, List.lookup_cons, ih]
      cases hxy : x == y with
      | false => rfl
      | true =>
          have hy : y = x := (eq_of_beq hxy).symm
          exact congrArg some (hvalue (hy ▸ hx))

end

/-! ## Steps -/

section
variable {V : Type} {I : Interp V} {fn : SecretFn} {S : String → Prop}

/-- Values that are the same unless a secret shows in the expression. -/
def Low (S : String → Prop) (e : AstNode) (v w : V) : Prop := ¬ Shows S e → v = w

/-- `f` does the same at the node in both runs. -/
def Keeps (fn : SecretFn) (S : String → Prop) (f : AstNode → Run V V) (n : AstNode) : Prop :=
  Twin (Alike S) (AlikeExit fn) (Low S n) (f n) (f n)

theorem twin_bindAll (bs : List (String × V)) :
    Twin (Alike S) (AlikeExit fn) (fun _ _ => True) (Interp.bindAll bs) (Interp.bindAll bs) :=
  Twin.modify fun _ _ h => ⟨h.env.append, h.trace⟩

theorem twin_assign {x : String} {v w : V} (hv : ¬ S x → v = w) :
    Twin (Alike S) (AlikeExit fn) (fun _ _ => True) (Interp.assign x v) (Interp.assign x w) :=
  Twin.modify fun _ _ h => ⟨h.env.setVar hv, h.trace⟩

theorem twin_readVar (n : AstNode) :
    Twin (Alike S) (AlikeExit fn) (fun v w => (∀ x, n.name = some x → ¬ S x) → v = w)
      (I.readVar n) (I.readVar n) := by
  refine Twin.read fun s t h hlow => ?_
  cases hname : n.name with
  | none => rfl
  | some x => exact congrArg (·.getD (I.atom n)) (h.env.lookup (hlow x hname))

theorem twin_call (e : Event V) :
    Twin (Alike S) (AlikeExit fn) (fun v w => v = w) (I.call e) (I.call e) := by
  refine Twin.bind (Twin.modify fun s t h => ⟨h.env, ?_⟩) fun _ _ _ => ?_
  · exact congrArg (· ++ [e]) h.trace
  · exact Twin.read fun s t h => congrArg I.answer h.trace

theorem twin_inScope {α : Type} {R : α → α → Prop} {p q : Run V α}
    (h : Twin (Alike S) (AlikeExit fn) R p q) :
    Twin (Alike S) (AlikeExit fn) R (Interp.inScope p) (Interp.inScope q) := by
  refine h.restoring fun s t s' t' hst hst' => ⟨?_, hst'.trace⟩
  rw [hst.env.length_eq, hst'.env.length_eq]
  exact List.forall₂_drop _ hst'.env

theorem twin_oneRound {R : V → V → Prop} {p q : Run V V}
    (h : Twin (Alike S) (AlikeExit fn) R p q) :
    Twin (Alike S) (AlikeExit fn) (fun b c => b = c) (Interp.oneRound p) (Interp.oneRound q) := by
  refine Twin.catching (h.bind fun _ _ _ => Twin.pure rfl) ?_
  intro e e' he
  cases he with
  | brk => exact Twin.pure rfl
  | cont => exact Twin.pure rfl
  | ret hv => exact Twin.exit (.ret hv)

/-! ### Lists of nodes -/

variable {f : AstNode → Run V V}

theorem twin_first {ns : List AstNode}
    (h : ∀ c ∈ ns, Keeps fn S f c) :
    Twin (Alike S) (AlikeExit fn) (fun v w => (∀ c ∈ ns, ¬ Shows S c) → v = w) (I.first f ns)
      (I.first f ns) := by
  cases ns with
  | nil => exact Twin.pure fun _ => rfl
  | cons c ns =>
      exact (h c List.mem_cons_self).mono fun v w hvw hlow => hvw (hlow c List.mem_cons_self)

theorem twin_each {ns : List AstNode}
    (h : ∀ c ∈ ns, Keeps fn S f c) :
    Twin (Alike S) (AlikeExit fn) (fun vs ws => (∀ c ∈ ns, ¬ Shows S c) → vs = ws)
      (Prog.each f ns) (Prog.each f ns) := by
  refine (Twin.each h).mono fun vs ws hall hlow => ?_
  exact List.forall₂_eq_eq_eq.le _ _ (hall (fun v w => v = w) fun c hc _ _ hvw => hvw (hlow c hc))

theorem twin_inTurn {ns : List AstNode}
    (h : ∀ c ∈ ns, Keeps fn S f c) :
    Twin (Alike S) (AlikeExit fn)
      (fun v w => (∀ c, ns.getLast? = some c → ¬ Shows S c) → v = w)
      (Prog.inTurn f ns I.unit) (Prog.inTurn f ns I.unit) :=
  Twin.inTurn h (fun _ _ => rfl) fun c hc _ _ hvw hlow => hvw (hlow c hc)

theorem twin_guard {ns : List AstNode}
    (h : ∀ c ∈ ns, Keeps fn S f c)
    (hlow : ∀ c ∈ ns, ¬ Shows S c) :
    Twin (Alike S) (AlikeExit fn) (fun b c => b = c) (I.guard f ns) (I.guard f ns) := by
  rw [Interp.guard]
  split
  · exact Twin.pure rfl
  · exact (twin_first h).bind fun v w hvw => Twin.pure (congrArg I.truth (hvw hlow))

theorem twin_item {pattern body : Option AstNode} {v : V}
    (h : ∀ c ∈ body.toList, Keeps fn S f c) :
    Twin (Alike S) (AlikeExit fn) (fun b c => b = c) (I.item f pattern body v)
      (I.item f pattern body v) :=
  twin_oneRound (twin_inScope ((twin_bindAll _).bind fun _ _ _ => twin_first h))

theorem twin_arm {a : AstNode} {v : V}
    (h : a.kind = .matchArm → ∀ c ∈ a.children, Keeps fn S f c)
    (hguard : a.kind = .matchArm → ∀ c ∈ a.params, ¬ Shows S c) :
    Twin (Alike S) (AlikeExit fn) (Option.Rel fun v w => (∀ c ∈ a.right.toList, ¬ Shows S c) → v = w)
      (I.arm f v a) (I.arm f v a) := by
  rw [Interp.arm]
  split
  · rename_i hkind
    cases a.left.bind fun p => I.binds p v with
    | none => exact Twin.pure .none
    | some bs =>
        refine twin_inScope ((twin_bindAll bs).bind fun _ _ _ => ?_)
        refine (twin_guard (fun c hc => h hkind c (params_mem_children hc)) (hguard hkind)).bind
          fun b c hbc => ?_
        subst hbc
        cases b with
        | false => exact Twin.pure .none
        | true =>
            refine (twin_first fun c hc => h hkind c ?_).bind fun v w hvw => Twin.pure (.some hvw)
            exact right_mem_children (Option.mem_toList.mp hc)
  · exact Twin.pure .none

end

/-! ## Nodes -/

theorem isHatchCall_of_kind {n : AstNode} (h : n.kind ≠ .call) : isHatchCall n = false := by
  rw [isHatchCall, callIdent]
  split
  · rename_i hkind _
    exact absurd hkind h
  · rfl

theorem Shows.of_child {S : String → Prop} {n c : AstNode} (hn : isHatchCall n = false)
    (hc : c ∈ n.children) (h : Shows S c) : Shows S n := by
  obtain ⟨m, x, hm, hvar, hx⟩ := h
  refine ⟨m, x, hm.head ?_, hvar, hx⟩
  rw [openNext, hn]
  exact hc

/-- What is asked of the body. -/
structure Quiet (fn : SecretFn) (body : AstNode) : Prop where
  body : fn.body = some body
  confined : Confined fn
  passes : PassesNoSecret fn
  discreet : Discreet fn

section
variable {V : Type} {I : Interp V} {fn : SecretFn} {body : AstNode}

theorem within_of_reaches {n : AstNode} (h : Walks.Reaches ownNext body n) : Within n body := by
  refine h.mono fun a b hb => ?_
  rw [ownNext] at hb
  split at hb
  · cases hb
  · exact hb

/-! ### The kinds of nodes -/

variable {k : Nat} {n : AstNode}

theorem low_children (hcall : n.kind ≠ .call) {S : String → Prop} (hlow : ¬ Shows S n) :
    ∀ c ∈ n.children, ¬ Shows S c :=
  fun _ hc hshows => hlow (hshows.of_child (isHatchCall_of_kind hcall) hc)

theorem mem_children_of_left {c : AstNode} (hc : c ∈ n.left.toList) : c ∈ n.children :=
  left_mem_children (Option.mem_toList.mp hc)

theorem mem_children_of_right {c : AstNode} (hc : c ∈ n.right.toList) : c ∈ n.children :=
  right_mem_children (Option.mem_toList.mp hc)

/-- The nodes below do the same in both runs. -/
def Below (fn : SecretFn) (I : Interp V) (k : Nat) (n : AstNode) : Prop :=
  ∀ c ∈ n.children, Keeps fn (Secret fn) (I.run k) c

theorem Below.left (h : Below fn I k n) :
    Twin (Alike (Secret fn)) (AlikeExit fn)
      (fun v w => (∀ c ∈ n.left.toList, ¬ Shows (Secret fn) c) → v = w)
      (I.child (I.run k) n.left) (I.child (I.run k) n.left) :=
  twin_first fun c hc => h c (mem_children_of_left hc)

theorem Below.right (h : Below fn I k n) :
    Twin (Alike (Secret fn)) (AlikeExit fn)
      (fun v w => (∀ c ∈ n.right.toList, ¬ Shows (Secret fn) c) → v = w)
      (I.child (I.run k) n.right) (I.child (I.run k) n.right) :=
  twin_first fun c hc => h c (mem_children_of_right hc)

theorem Below.first (h : Below fn I k n) :
    Twin (Alike (Secret fn)) (AlikeExit fn)
      (fun v w => (∀ c ∈ n.params, ¬ Shows (Secret fn) c) → v = w)
      (I.first (I.run k) n.params) (I.first (I.run k) n.params) :=
  twin_first fun c hc => h c (params_mem_children hc)

theorem keeps_operator (hcall : n.kind ≠ .call) (h : Below fn I k n) :
    Twin (Alike (Secret fn)) (AlikeExit fn) (Low (Secret fn) n)
      (do let vs ← Prog.each (I.run k) n.children; pure (I.apply n vs))
      (do let vs ← Prog.each (I.run k) n.children; pure (I.apply n vs)) :=
  (twin_each h).bind fun _ _ hvw =>
    Twin.pure fun hlow => congrArg (I.apply n) (hvw (low_children hcall hlow))

/-- An operator that never skips does the same whatever its operands are. -/
theorem skips_of_strict (h : ¬ (n.val = some "&&" ∨ n.val = some "||")) (v : V) :
    I.skips n.val v = false := by
  rw [not_or] at h
  rw [Interp.skips, beq_false_of_ne h.1, beq_false_of_ne h.2]
  rfl

theorem Quiet.binary (hq : Quiet fn body) (hn : Within n body) (hkind : n.kind = .binary)
    (h : Below fn I k n) : Keeps fn (Secret fn) (I.run (k + 1)) n := by
  have hcall : n.kind ≠ .call := by simp [hkind]
  simp only [Keeps, Interp.run, Interp.node, hkind]
  refine h.left.bind fun a a' ha => ?_
  have hskips : I.skips n.val a = I.skips n.val a' := by
    by_cases hlazy : n.val = some "&&" ∨ n.val = some "||"
    · rw [ha fun c hc => hq.discreet body n c hq.body hn
        (.lazy hkind hlazy (Option.mem_toList.mp hc))]
    · rw [skips_of_strict hlazy, skips_of_strict hlazy]
  have hsame : ¬ Shows (Secret fn) n → a = a' :=
    fun hlow => ha fun c hc => low_children hcall hlow c (mem_children_of_left hc)
  rw [hskips]
  split
  · exact Twin.pure hsame
  · refine h.right.bind fun b b' hb => Twin.pure fun hlow => ?_
    rw [hsame hlow, hb fun c hc => low_children hcall hlow c (mem_children_of_right hc)]

/-- The operands of a call that others see, or whose value is taken. -/
theorem Quiet.operands (hq : Quiet fn body) (hn : Within n body)
    (hkind : n.kind = .call ∨ n.kind = .methodCall ∨ n.kind = .hostCall ∨ n.kind = .ask)
    (hredact : callIdent n ≠ some "secret_redact") :
    ∀ c ∈ Interp.operands n, ¬ Shows (Secret fn) c := by
  intro c hc
  rw [Interp.operands] at hc
  by_cases hhatch : isHatchCall n
  · have hunwrap := (callIdent_of_isHatchCall hhatch).resolve_left hredact
    rw [if_pos (by rw [hunwrap]; rfl)] at hc
    exact hq.discreet body n c hq.body hn (.unwrap hunwrap hc)
  · by_cases hsink : isSecretOutputSink (callIdent n)
    · cases hf : callIdent n with
      | none =>
          rw [hf] at hsink
          cases hsink
      | some f =>
          rw [hf] at hsink
          rw [if_pos (by rw [hf]; rfl)] at hc
          exact hq.confined c (.sink hq.body hn hf hsink hc)
    · rcases hkind with hkind | hkind | hkind | hkind
      · exact hq.passes body n c hq.body hn (.inl hkind) (Bool.of_not_eq_true hhatch)
          (Bool.of_not_eq_true hsink) hc
      · exact hq.passes body n c hq.body hn (.inr (.inl hkind)) (Bool.of_not_eq_true hhatch)
          (Bool.of_not_eq_true hsink) hc
      · exact hq.passes body n c hq.body hn (.inr (.inr hkind)) (Bool.of_not_eq_true hhatch)
          (Bool.of_not_eq_true hsink) hc
      · have hident : callIdent n = none := by simp [callIdent, hkind]
        rw [hident, if_neg (by simp)] at hc
        exact hq.confined c (.ask hq.body hn hkind hc)

theorem Quiet.call (hq : Quiet fn body) (hn : Within n body)
    (hkind : n.kind = .call ∨ n.kind = .methodCall ∨ n.kind = .hostCall ∨ n.kind = .ask)
    (h : Below fn I k n) : Keeps fn (Secret fn) (I.run (k + 1)) n := by
  have hops : ∀ c ∈ Interp.operands n, Keeps fn (Secret fn) (I.run k) c := by
    intro c hc
    rw [Interp.operands] at hc
    split at hc
    · exact h c (params_mem_children hc)
    · exact h c hc
  have hrun : I.run (k + 1) n = (do
      let vs ← Prog.each (I.run k) (Interp.operands n)
      if callIdent n = some "secret_redact" then pure I.redacted
      else if callIdent n = some "secret_unwrap" then pure (vs.headD I.unit)
      else I.call { name := (callIdent n).or n.name, operands := vs }) := by
    rcases hkind with hkind | hkind | hkind | hkind <;> simp only [Interp.run, Interp.node, hkind]
  rw [Keeps, hrun]
  refine (twin_each hops).bind fun vs ws hvw => ?_
  split
  · exact Twin.pure fun _ => rfl
  · rename_i hredact
    rw [hvw (hq.operands hn hkind hredact)]
    split
    · exact Twin.pure fun _ => rfl
    · exact (twin_call _).mono fun v w h _ => h

/-- The value of a let or an assignment, as far as its target shows it. -/
theorem Quiet.letS (hq : Quiet fn body) (hn : Within n body) (hkind : n.kind = .letS)
    (h : Below fn I k n) : Keeps fn (Secret fn) (I.run (k + 1)) n := by
  simp only [Keeps, Interp.run, Interp.node, hkind]
  refine h.right.bind fun v w hvw => ?_
  have hvalue : ∀ x, n.name = some x → ¬ Secret fn x → v = w := by
    intro x hname hx
    refine hvw fun c hc => hq.confined c (.letS hq.body hn hkind ?_ (Option.mem_toList.mp hc))
    by_contra htype
    refine hx (.letS hq.body hn ?_)
    rw [secretLet, if_pos ⟨hkind, Bool.of_not_eq_false htype⟩, hname]
  refine (Twin.modify fun s t hst => ⟨?_, hst.trace⟩).bind fun _ _ _ => Twin.pure fun _ => rfl
  cases hname : n.name with
  | none => exact hst.env
  | some x => exact AlikeEnv.push (hvalue x hname) hst.env

theorem Quiet.assign (hq : Quiet fn body) (hn : Within n body) (hkind : n.kind = .assign)
    (h : Below fn I k n) : Keeps fn (Secret fn) (I.run (k + 1)) n := by
  simp only [Keeps, Interp.run, Interp.node, hkind]
  cases hleft : n.left with
  | none => exact Twin.stuck
  | some t =>
      simp only
      split
      · rename_i x hident hname
        refine (twin_readVar t).bind fun old old' hold => h.right.bind fun v w hvw => ?_
        refine (twin_assign fun hx => ?_).bind fun _ _ _ => Twin.pure fun _ => rfl
        have hroot : ∀ y, rootVar t = some y → ¬ Secret fn y := by
          intro y hy
          obtain ⟨kind, name, type, left, right, params, val⟩ := t
          cases hident
          cases hname.symm.trans hy
          exact hx
        have hold' : old = old' := hold fun y hy => by
          cases hname.symm.trans hy
          exact hx
        have hvalue : v = w := hvw fun c hc => hq.confined c
          (.assign hq.body hn hkind hleft hroot (Option.mem_toList.mp hc))
        rw [hold', hvalue]
      · exact Twin.stuck

theorem Quiet.ret (hq : Quiet fn body) (hn : Walks.Reaches ownNext body n) (hkind : n.kind = .ret)
    (h : Below fn I k n) : Keeps fn (Secret fn) (I.run (k + 1)) n := by
  simp only [Keeps, Interp.run, Interp.node, hkind]
  refine h.left.bind fun v w hvw => Twin.exit (.ret fun htype => hvw fun c hc => ?_)
  exact hq.confined c (.result htype (.ret hq.body hn hkind (Option.mem_toList.mp hc)))

theorem Quiet.ifS (hq : Quiet fn body) (hn : Within n body) (hkind : n.kind = .ifS)
    (h : Below fn I k n) : Keeps fn (Secret fn) (I.run (k + 1)) n := by
  have hcall : n.kind ≠ .call := by simp [hkind]
  simp only [Keeps, Interp.run, Interp.node, hkind]
  refine h.left.bind fun b c hbc => ?_
  rw [hbc fun e he => hq.discreet body n e hq.body hn
    (.condition (.inl hkind) (Option.mem_toList.mp he))]
  split
  · exact h.right.mono fun v w hvw hlow =>
      hvw fun c hc => low_children hcall hlow c (mem_children_of_right hc)
  · exact h.first.mono fun v w hvw hlow =>
      hvw fun c hc => low_children hcall hlow c (params_mem_children hc)

/-- A round of a loop, and the rounds after it. -/
theorem keeps_rounds {p : Run V V} {R : V → V → Prop}
    (hp : Twin (Alike (Secret fn)) (AlikeExit fn) R p p)
    (hself : Keeps fn (Secret fn) (I.run k) n) :
    Twin (Alike (Secret fn)) (AlikeExit fn) (Low (Secret fn) n)
      (do if ← Interp.oneRound p then I.run k n else pure I.unit)
      (do if ← Interp.oneRound p then I.run k n else pure I.unit) := by
  refine (twin_oneRound hp).bind fun b c hbc => ?_
  subst hbc
  cases b with
  | false => exact Twin.pure fun _ => rfl
  | true => exact hself

theorem Quiet.whileS (hq : Quiet fn body) (hn : Within n body) (hkind : n.kind = .whileS)
    (h : Below fn I k n) (hself : Keeps fn (Secret fn) (I.run k) n) :
    Keeps fn (Secret fn) (I.run (k + 1)) n := by
  simp only [Keeps, Interp.run, Interp.node, hkind]
  refine h.left.bind fun b c hbc => ?_
  rw [hbc fun e he => hq.discreet body n e hq.body hn
    (.condition (.inr (.inl hkind)) (Option.mem_toList.mp he))]
  split
  · exact keeps_rounds h.right hself
  · exact Twin.pure fun _ => rfl

theorem Quiet.forS (hq : Quiet fn body) (hn : Within n body) (hkind : n.kind = .forS)
    (h : Below fn I k n) : Keeps fn (Secret fn) (I.run (k + 1)) n := by
  simp only [Keeps, Interp.run, Interp.node, hkind]
  refine h.first.bind fun v w hvw => ?_
  rw [hvw fun e he => hq.discreet body n e hq.body hn (.iterator hkind he)]
  refine Twin.bind (Twin.whileTrue fun u _ => ?_) fun _ _ _ => Twin.pure fun _ => rfl
  exact twin_item fun c hc => h c (mem_children_of_right hc)

theorem Quiet.matchS (hq : Quiet fn body) (hn : Within n body) (hkind : n.kind = .matchS)
    (h : Below fn I k n)
    (harms : ∀ a ∈ n.params, a.kind = .matchArm → Below fn I k a) :
    Keeps fn (Secret fn) (I.run (k + 1)) n := by
  have hcall : n.kind ≠ .call := by simp [hkind]
  simp only [Keeps, Interp.run, Interp.node, hkind]
  refine h.left.bind fun v w hvw => ?_
  rw [hvw fun e he => hq.discreet body n e hq.body hn
    (.condition (.inr (.inr hkind)) (Option.mem_toList.mp he))]
  refine Twin.firstSome (fun _ => rfl) fun a ha => ?_
  have hwithin : Within a body := ((Within.refl a).child (params_mem_children ha)).trans hn
  by_cases harm : a.kind = .matchArm
  · have hguard : ∀ c ∈ a.params, ¬ Shows (Secret fn) c :=
      fun c hc => hq.discreet body a c hq.body hwithin (.guard harm hc)
    refine (twin_arm (harms a ha) fun _ => hguard).mono fun o o' ho => ?_
    cases ho with
    | none => exact .none
    | some hvw =>
        refine .some fun hlow => hvw fun c hc => ?_
        have hnotcall : a.kind ≠ .call := by simp [harm]
        exact low_children hnotcall (low_children hcall hlow a (params_mem_children ha)) c
          (right_mem_children (Option.mem_toList.mp hc))
  · rw [Interp.arm, if_neg harm]
    exact Twin.pure .none

/-- One step of a run, if the nodes below take equal steps. -/
theorem Quiet.step (hq : Quiet fn body)
    (ih : ∀ n, Walks.Reaches ownNext body n → Keeps fn (Secret fn) (I.run k) n)
    (hn : Walks.Reaches ownNext body n) : Keeps fn (Secret fn) (I.run (k + 1)) n := by
  have hwithin := within_of_reaches hn
  have hreach : ∀ m, Walks.Reaches ownNext body m → m.kind ≠ .closure →
      ∀ c ∈ m.children, Walks.Reaches ownNext body c := by
    intro m hm hkind c hc
    refine hm.trans (Walks.Reaches.head ?_ (.refl _ c))
    rw [ownNext, if_neg hkind]
    exact hc
  have hbelow : n.kind ≠ .closure → Below fn I k n :=
    fun hkind c hc => ih c (hreach n hn hkind c hc)
  cases hkind : n.kind with
  | intLit | floatLit | stringLit | boolLit | noneLit =>
      simp only [Keeps, Interp.run, Interp.node, hkind]
      exact Twin.pure fun _ => rfl
  | ident =>
      simp only [Keeps, Interp.run, Interp.node, hkind]
      refine (twin_readVar n).mono fun v w hvw hlow => hvw fun x hname hx => ?_
      exact hlow ⟨n, x, .refl _ n, ⟨hkind, hname⟩, hx⟩
  | unary | fieldAccess | index | array | tuple | map | mapEntry | range | cast | isExpr | refE
  | deref | interpString | resultOk | resultErr =>
      simp only [Keeps, Interp.run, Interp.node, hkind]
      exact keeps_operator (by simp [hkind]) (hbelow (by simp [hkind]))
  | binary => exact hq.binary hwithin hkind (hbelow (by simp [hkind]))
  | call => exact hq.call hwithin (.inl hkind) (hbelow (by simp [hkind]))
  | methodCall => exact hq.call hwithin (.inr (.inl hkind)) (hbelow (by simp [hkind]))
  | hostCall => exact hq.call hwithin (.inr (.inr (.inl hkind))) (hbelow (by simp [hkind]))
  | ask => exact hq.call hwithin (.inr (.inr (.inr hkind))) (hbelow (by simp [hkind]))
  | block =>
      have hcall : n.kind ≠ .call := by simp [hkind]
      have hb := hbelow (by simp [hkind])
      simp only [Keeps, Interp.run, Interp.node, hkind]
      refine twin_inScope ((twin_inTurn fun c hc => hb c (params_mem_children hc)).mono ?_)
      exact fun v w hvw hlow => hvw fun c hc =>
        low_children hcall hlow c (params_mem_children (List.mem_of_getLast? hc))
  | exprStmt =>
      have hcall : n.kind ≠ .call := by simp [hkind]
      simp only [Keeps, Interp.run, Interp.node, hkind]
      exact (hbelow (by simp [hkind])).left.mono fun v w hvw hlow =>
        hvw fun c hc => low_children hcall hlow c (mem_children_of_left hc)
  | letS => exact hq.letS hwithin hkind (hbelow (by simp [hkind]))
  | assign => exact hq.assign hwithin hkind (hbelow (by simp [hkind]))
  | ret => exact hq.ret hn hkind (hbelow (by simp [hkind]))
  | breakS =>
      simp only [Keeps, Interp.run, Interp.node, hkind]
      exact Twin.exit .brk
  | continueS =>
      simp only [Keeps, Interp.run, Interp.node, hkind]
      exact Twin.exit .cont
  | ifS => exact hq.ifS hwithin hkind (hbelow (by simp [hkind]))
  | whileS => exact hq.whileS hwithin hkind (hbelow (by simp [hkind])) (ih n hn)
  | loop =>
      simp only [Keeps, Interp.run, Interp.node, hkind]
      exact keeps_rounds (hbelow (by simp [hkind])).left (ih n hn)
  | forS => exact hq.forS hwithin hkind (hbelow (by simp [hkind]))
  | matchS =>
      refine hq.matchS hwithin hkind (hbelow (by simp [hkind])) fun a ha harm c hc => ih c ?_
      exact hreach a (hreach n hn (by simp [hkind]) a (params_mem_children ha)) (by simp [harm]) c hc
  | _ =>
      simp only [Keeps, Interp.run, Interp.node, hkind]
      exact Twin.stuck

/-- However long the run. -/
theorem Quiet.run (hq : Quiet fn body) (k : Nat) (n : AstNode)
    (hn : Walks.Reaches ownNext body n) : Keeps fn (Secret fn) (I.run k) n := by
  induction k generalizing n with
  | zero => exact Twin.stuck
  | succ k ih => exact hq.step ih hn

/-- An expression statement has the value of its expression. -/
theorem Quiet.stmt (hq : Quiet fn body) (k : Nat) (n : AstNode)
    (hn : Walks.Reaches ownNext body n) :
    Twin (Alike (Secret fn)) (AlikeExit fn)
      (fun v w => n.kind = .exprStmt → (∀ e ∈ n.left.toList, ¬ Shows (Secret fn) e) → v = w)
      (I.run k n) (I.run k n) := by
  by_cases hkind : n.kind = .exprStmt
  · cases k with
    | zero => exact Twin.stuck
    | succ k =>
        have hbelow : Below fn I k n := by
          intro c hc
          refine hq.run k c (hn.trans (Walks.Reaches.head ?_ (.refl _ c)))
          rw [ownNext, if_neg (by simp [hkind])]
          exact hc
        simp only [Interp.run, Interp.node, hkind]
        exact hbelow.left.mono fun v w hvw _ hlow => hvw hlow
  · exact (hq.run k n hn).mono fun v w _ h => absurd h hkind

/-- The value of the body is the result, and as public as that. -/
theorem Quiet.value (hq : Quiet fn body) (k : Nat) :
    Twin (Alike (Secret fn)) (AlikeExit fn)
      (fun v w => typeIsSecret fn.returnType = false → fn.endsInValue → v = w)
      (I.run k body) (I.run k body) := by
  by_cases hends : fn.endsInValue
  · rw [SecretFn.endsInValue, hq.body] at hends
    simp only [Bool.and_eq_true, beq_iff_eq] at hends
    obtain ⟨htype, hkind, hlast⟩ := hends
    cases hs : body.params.getLast? with
    | none =>
        rw [hs] at hlast
        cases hlast
    | some s =>
        simp only [hs, Bool.and_eq_true, beq_iff_eq, Option.any_eq_true, bne_iff_ne] at hlast
        obtain ⟨hstmt, e, he, hif, hmatch⟩ := hlast
        have hreturned : Returned fn e := .last hq.body htype hkind hs hstmt he hif hmatch
        cases k with
        | zero => exact Twin.stuck
        | succ k =>
            simp only [Interp.run, Interp.node, hkind]
            refine twin_inScope (Twin.inTurn (fun c hc => hq.stmt k c ?_) ?_ ?_)
            · refine Walks.Reaches.head ?_ (.refl _ c)
              rw [ownNext, if_neg (by simp [hkind])]
              exact params_mem_children hc
            · intro hnil
              rw [hnil] at hs
              cases hs
            · intro c hc v w hvw hsecret _
              cases hs.symm.trans hc
              refine hvw hstmt fun e' he' => ?_
              cases he.symm.trans (Option.mem_toList.mp he')
              exact hq.confined e (.result hsecret hreturned)
  · exact (hq.run k body (.refl _ body)).mono fun v w _ _ h => absurd h hends

end

/-! ## The verdict -/

theorem agree_result {V : Type} {fn : SecretFn} {r r' : Except (Exit V) V}
    (h : Twins.Agree (AlikeExit fn)
      (fun v w => typeIsSecret fn.returnType = false → fn.endsInValue → v = w) r r')
    (htype : typeIsSecret fn.returnType = false) : fn.result r = fn.result r' := by
  cases h with
  | @ok v w hvw =>
      rw [SecretFn.result, SecretFn.result]
      split
      · rename_i hends
        rw [hvw htype hends]
      · rfl
  | error he =>
      cases he with
      | brk => rfl
      | cont => rfl
      | ret hvw => exact congrArg some (hvw htype)

/-- A function that confines its secrets, passes none on and is discreet shows none. -/
theorem sameOutput_of_confined {fn : SecretFn} (hconfined : Confined fn)
    (hpasses : PassesNoSecret fn) (hdiscreet : Discreet fn) : SameOutput fn := by
  intro V I k args args' hargs
  have hstart : Alike (Secret fn) (⟨args, []⟩ : RunState V) ⟨args', []⟩ := ⟨hargs, rfl⟩
  rw [SecretFn.run, SecretFn.run]
  cases hbody : fn.body with
  | none => exact .some ⟨rfl, fun _ => rfl⟩
  | some body =>
      have hq : Quiet fn body := ⟨hbody, hconfined, hpasses, hdiscreet⟩
      rcases (hq.value (I := I) k).ends hstart with ⟨hp, hq'⟩ | ⟨v, w, s, t, hp, hq', hvw, hst⟩ |
          ⟨e, e', s, t, hp, hq', he, hst⟩
      · simp only [Interp.child, Option.toList_some, Interp.first, hp, hq']
        exact .none
      · simp only [Interp.child, Option.toList_some, Interp.first, hp, hq']
        exact .some ⟨hst.trace, agree_result (.ok hvw)⟩
      · simp only [Interp.child, Option.toList_some, Interp.first, hp, hq']
        exact .some ⟨hst.trace, agree_result (.error he)⟩

/-- What acceptance is to mean. -/
def SecretSound (fn : SecretFn) : Prop :=
  Accepted fn → Confined fn ∧ (PassesNoSecret fn → SameOutput fn)

/-- Acceptance confines the secrets exactly if a leak comes with one that is seen, and
then hides them too if the function is discreet. -/
theorem secretSound_iff (fn : SecretFn) :
    ((Accepted fn → Confined fn) ↔ (Leak fn → SeenLeak fn)) ∧
      (Discreet fn → (SecretSound fn ↔ (Leak fn → SeenLeak fn))) := by
  refine ⟨confines_iff fn, fun hdiscreet => ?_⟩
  rw [← confines_iff]
  constructor
  · intro h haccepted
    exact (h haccepted).1
  · intro h haccepted
    exact ⟨h haccepted, fun hpasses => sameOutput_of_confined (h haccepted) hpasses hdiscreet⟩

/-! ## A secret in a branch -/

/-- `println(key)` -/
def printKey : AstNode where
  kind := .call
  left := some { kind := .ident, name := some "println" }
  params := [{ kind := .ident, name := some "key" }]

/-- `{ if true { println(key) } }` -/
def printKeyBody : AstNode where
  kind := .block
  params :=
    [{ kind := .exprStmt
       left := some
        { kind := .ifS
          left := some { kind := .boolLit, val := some "true" }
          right := some
            { kind := .block, params := [{ kind := .exprStmt, left := some printKey }] } } }]

/-- `fn show(key: secret string) { if true { println(key) } }` -/
def printKeyFn : SecretFn where
  name := some "show"
  params := [{ kind := .param, name := some "key", typeExpr := some { kind := .typeSecret } }]
  body := some printKeyBody

theorem within_printKey : Within printKey printKeyBody := by
  refine AstNode.Within.child ?_ (params_mem_children (List.mem_singleton.mpr rfl))
  refine AstNode.Within.child ?_ (left_mem_children rfl)
  refine AstNode.Within.child ?_ (right_mem_children rfl)
  refine AstNode.Within.child ?_ (params_mem_children (List.mem_singleton.mpr rfl))
  exact (AstNode.Within.refl printKey).child (left_mem_children rfl)

theorem leak_printKeyFn : Leak printKeyFn := by
  have hcall : printKey.callIdent = some "println" := rfl
  refine ⟨{ kind := .ident, name := some "key" },
    .sink rfl within_printKey hcall (by decide) (List.mem_singleton.mpr rfl), _, "key", .refl _ _,
    ⟨rfl, rfl⟩, ?_⟩
  exact .param (List.mem_singleton.mpr rfl) rfl

/-- A secret is printed in a branch, and nothing is reported. -/
theorem secret_unreported : ¬ ∀ fn : SecretFn, SecretSound fn := by
  intro h
  have haccepted : Accepted printKeyFn := fun _ => rfl
  obtain ⟨e, he, hshows⟩ := leak_printKeyFn
  exact (h printKeyFn haccepted).1 e he hshows

end Limceron.Typecheck
