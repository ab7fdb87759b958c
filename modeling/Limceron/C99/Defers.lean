/-
# `Limceron.C99.Defers` — deferred expressions in the C back end

`cg_stmt` keeps a stack of the deferred expressions, `defer_stack`, while it prints
a function.  Where a scope ends it prints those of the scope, where a `return`
stands all of them.

| left by | printed |
| :-- | :-- |
| the end of a block | the block's, and they are popped |
| `return e` | all, before `return e` |
| the last expression of a function | all, before `return` |
| `break`, `continue` | none |
| a failed `?`, a failed `ensure` | none |

`Block.run` says what is meant, `CStmt.run` what the printed statements do.  Conditions
come from a stream of choices, and both log what is evaluated.  Where a run leaves
what is printed right it notes a fault; `defers_run` is about runs without one.
-/
import Limceron.Lib.Choices

namespace Limceron.C99.Defers

open Choices

variable {ε : Type}

/-! ## Statements -/

/-- An expression; of a `{…}` `cg_expr` prints a comment and nothing else. -/
inductive Expr (ε : Type)
  | node (e : ε)
  | block (e : ε)

/-- What an expression statement at the end of a function is. -/
inductive ExprKind
  | printCall
  /-- An identifier or a field; whether `might_be_string_expr` holds of it. -/
  | path (isString : Bool)
  | other

/-- What a loop goes on by. -/
inductive Head (ε : Type)
  | while_ (c : ε)
  | loop
  | range (lo hi : ε)
  | repeat_ (n : ε)

/-- A `match` is printed as an `if` chain or as a `switch`. -/
inductive MatchKind
  | chain
  | switch
  deriving DecidableEq

mutual
inductive Stmt (ε : Type)
  /-- `let`, an assignment and the like. -/
  | act (e : Expr ε)
  | expr (k : ExprKind) (e : Expr ε)
  | ret (e : Option (Expr ε))
  | ifs (c : ε) (t : Block ε) (e : Else ε)
  | loop (h : Head ε) (b : Block ε)
  /-- `for` over anything but a range. -/
  | forIn (e : ε) (b : Block ε)
  | brk
  | cont
  | defer (e : Expr ε)
  /-- `let x = e?`. -/
  | letTry (e : ε)
  | ensure (c : ε)
  | matchOn (k : MatchKind) (subject : ε) (arms : Arms ε)
  | block (b : Block ε)

inductive Else (ε : Type)
  | none
  | elseIf (c : ε) (t : Block ε) (e : Else ε)
  | block (b : Block ε)

inductive Block (ε : Type)
  | nil
  | cons (s : Stmt ε) (b : Block ε)

/-- The bodies of the arms. -/
inductive Arms (ε : Type)
  | nil
  | cons (body : Block ε) (rest : Arms ε)
end

/-- What the emitter asks of the return type. -/
inductive RetType
  | void
  /-- `Result`, whether with type arguments. -/
  | result (generics : Bool)
  | option
  | other

/-! ## What is printed -/

/-- What a condition is. -/
inductive Test (ε : Type)
  | cond (c : ε)
  | head (h : Head ε)
  /-- `!_try.ok`, the temporary being `e`. -/
  | failed (e : ε)
  /-- `!(c)`. -/
  | unmet (c : ε)
  /-- Which arm is taken. -/
  | arm (subject : ε)

inductive CStmt (ε : Type)
  | eval (e : Expr ε)
  /-- `/* defer */ e;` -/
  | deferred (e : Expr ε)
  | report (c : ε)
  | ret (e : Option (Expr ε))
  | ifte (t : Test ε) (a b : List (CStmt ε))
  | loop (h : Head ε) (b : List (CStmt ε))
  | block (b : List (CStmt ε))
  | arms (k : MatchKind) (subject : ε) (bodies : List (List (CStmt ε)))
  | brk
  | cont

/-- The stack, the last expression first. -/
abbrev Stack (ε : Type) := List (Expr ε)

def maxDefers : Nat := 256

/-- `cg_defer_push`. -/
def cgDeferPush (ds : Stack ε) (e : Expr ε) : Stack ε :=
  if ds.length < maxDefers then e :: ds else ds

/-- `cg_defer_emit_from`: what is above the saved depth. -/
def cgDeferEmitFrom (saved : Nat) (ds : Stack ε) : List (CStmt ε) :=
  (ds.take (ds.length - saved)).map .deferred

mutual
/-- `cg_stmt`: what is printed, and the stack behind it. -/
def cgStmt (ds : Stack ε) : Stmt ε → List (CStmt ε) × Stack ε
  | .act e => ([.eval e], ds)
  | .expr _ e => ([.eval e], ds)
  | .ret e => (ds.map .deferred ++ [.ret e], ds)
  | .ifs c t e => ([.ifte (.cond c) (cgBlock ds t) (cgElse ds e)], ds)
  | .loop h b => ([.loop h (cgBlock ds b)], ds)
  | .forIn e b => ([.block (.eval (.node e) :: (cgStmts ds b).1)], (cgStmts ds b).2)
  | .brk => ([.brk], ds)
  | .cont => ([.cont], ds)
  | .defer e => ([], cgDeferPush ds e)
  | .letTry e => ([.ifte (.failed e) [.ret none] []], ds)
  | .ensure c => ([.ifte (.unmet c) [.report c, .ret none] []], ds)
  | .matchOn k subject arms => ([.arms k subject (cgArms ds arms).1], (cgArms ds arms).2)
  | .block b => ([.block (cgBlock ds b)], ds)

def cgElse (ds : Stack ε) : Else ε → List (CStmt ε)
  | .none => []
  | .elseIf c t e => [.ifte (.cond c) (cgBlock ds t) (cgElse ds e)]
  | .block b => cgBlock ds b

def cgStmts (ds : Stack ε) : Block ε → List (CStmt ε) × Stack ε
  | .nil => ([], ds)
  | .cons s b =>
      ((cgStmt ds s).1 ++ (cgStmts (cgStmt ds s).2 b).1, (cgStmts (cgStmt ds s).2 b).2)

/-- `cg_block`. -/
def cgBlock (ds : Stack ε) : Block ε → List (CStmt ε)
  | .nil => cgDeferEmitFrom ds.length ds
  | .cons s b =>
      (cgStmt ds s).1 ++ (cgStmts (cgStmt ds s).2 b).1 ++
        cgDeferEmitFrom ds.length (cgStmts (cgStmt ds s).2 b).2

/-- The arms of a match, one after the other; the stack goes on from one to the next. -/
def cgArms (ds : Stack ε) : Arms ε → List (List (CStmt ε)) × Stack ε
  | .nil => ([], ds)
  | .cons body rest =>
      ((cgStmts ds body).1 :: (cgArms (cgStmts ds body).2 rest).1,
        (cgArms (cgStmts ds body).2 rest).2)
end

/-- `cg_result_return_ok`, where the function returns a `Result`. -/
def cgResultReturnOk : RetType → List (CStmt ε)
  | .result _ => [.ret none]
  | _ => []

/-- The last statement of a function, by `cg_block_with_implicit_return`. -/
def cgTail (rt : RetType) (ds : Stack ε) : Stmt ε → List (CStmt ε)
  | .expr k e =>
      match rt, k with
      | .result _, .printCall => .eval e :: (cgDeferEmitFrom 0 ds ++ [.ret none])
      | .result false, .path false => cgDeferEmitFrom 0 ds ++ [.eval e, .ret none]
      | .void, _ => .eval e :: cgDeferEmitFrom 0 ds
      | _, _ => cgDeferEmitFrom 0 ds ++ [.ret (some e)]
  | .ret e => (cgStmt ds (.ret e)).1
  | s =>
      (cgStmt ds s).1 ++ cgDeferEmitFrom 0 (cgStmt ds s).2 ++ cgResultReturnOk rt

/-- `cg_block_with_implicit_return`, for a function: nothing is on the stack before. -/
def cgBlockWithImplicitReturn (rt : RetType) (ds : Stack ε) : Block ε → List (CStmt ε)
  | .nil => []
  | .cons s .nil => cgTail rt ds s
  | .cons s b => (cgStmt ds s).1 ++ cgBlockWithImplicitReturn rt (cgStmt ds s).2 b

/-! ## What is logged and noted -/

inductive Event (ε : Type)
  | eval (e : Expr ε)
  | deferred (e : Expr ε)
  | test (t : Test ε) (k : Nat)
  | report (c : ε)

/-- Where a run leaves what is printed right. -/
inductive Fault
  /-- A `break` or `continue` leaves a scope with deferred expressions. -/
  | jump
  /-- An expression is returned, or `?` or `ensure` fails, and something is deferred. -/
  | returned
  /-- A `{…}` is evaluated. -/
  | blockExpr
  /-- The stack is full. -/
  | overflow
  /-- An arm of a `match` defers something in its own scope. -/
  | leak
  /-- A `for` over anything but a range. -/
  | general
  /-- A `break` in an arm that is printed into a `switch`. -/
  | switchBreak

inductive Exit
  | next
  | brk
  | cont
  | ret
  /-- A loop has had its turns. -/
  | timeout
  deriving DecidableEq

abbrev Run (ε α : Type) := Prog (Event ε) Fault α

def noteIf (b : Bool) (f : Fault) : Run ε Unit := Prog.fault (if b then [f] else [])

/-- A condition is evaluated. -/
def test (t : Test ε) : Run ε Nat := do
  let k ← Prog.choose
  Prog.log [.test t k]
  pure k

def Head.enter : Head ε → Run ε Unit
  | .range lo _ => Prog.log [.eval (.node lo)]
  | .repeat_ n => Prog.log [.eval (.node n)]
  | .while_ _ => pure ()
  | .loop => pure ()

/-- Whether there is another turn. -/
def Head.go : Head ε → Run ε Bool
  | .loop => pure true
  | h => do
      let k ← test (.head h)
      pure (k != 0)

/-- The turns of a loop, `n` at most. -/
def turns (go : Run ε Bool) (body : Run ε Exit) : Nat → Run ε Exit
  | 0 => pure .timeout
  | n + 1 => do
      if ← go then
        match ← body with
        | .brk => pure .next
        | .next => turns go body n
        | .cont => turns go body n
        | .ret => pure .ret
        | .timeout => pure .timeout
      else pure .next

/-! ## What is meant -/

def Expr.isBlock : Expr ε → Bool
  | .node _ => false
  | .block _ => true

def Expr.run (as : Expr ε → Event ε) (e : Expr ε) : Run ε Unit := do
  noteIf e.isBlock .blockExpr
  Prog.log [as e]

/-- The deferred expressions of a scope that is left, the last one first. -/
def runDefers : Stack ε → Run ε Unit
  | [] => pure ()
  | e :: es => do
      e.run .deferred
      runDefers es

/-- A scope is left, in whatever way. -/
def leave (p : Run ε (Exit × Stack ε)) : Run ε Exit := do
  let r ← p
  match r.1 with
  | .timeout => pure .timeout
  | x => do
      runDefers r.2
      pure x

/-- How many expressions are deferred in the scopes around: in all, and in the loop. -/
structure Ctx where
  all : Nat
  loop : Nat

def Ctx.inner (c : Ctx) (own : Stack ε) : Ctx := ⟨own.length + c.all, own.length + c.loop⟩

def Ctx.inLoop (c : Ctx) (own : Stack ε) : Ctx := ⟨own.length + c.all, 0⟩

mutual
/-- A statement defers something in the scope it stands in. -/
def Stmt.declares : Stmt ε → Bool
  | .defer _ => true
  | .forIn _ b => b.declares
  | .matchOn _ _ arms => arms.declares
  | _ => false

def Block.declares : Block ε → Bool
  | .nil => false
  | .cons s b => s.declares || b.declares

def Arms.declares : Arms ε → Bool
  | .nil => false
  | .cons body rest => body.declares || rest.declares
end

mutual
/-- How a statement ends, and what the scope has deferred by then. -/
def Stmt.run (n : Nat) (c : Ctx) (own : Stack ε) : Stmt ε → Run ε (Exit × Stack ε)
  | .act e => do
      e.run .eval
      pure (.next, own)
  | .expr _ e => do
      e.run .eval
      pure (.next, own)
  | .ret none => pure (.ret, own)
  | .ret (some e) => do
      noteIf (own.length + c.all != 0) .returned
      e.run .eval
      pure (.ret, own)
  | .ifs cnd t e => do
      let k ← test (.cond cnd)
      let x ← if k ≠ 0 then leave (t.run n (c.inner own) []) else e.run n c own
      pure (x, own)
  | .loop h b => do
      h.enter
      let x ← turns h.go (leave (b.run n (c.inLoop own) [])) n
      pure (x, own)
  | .forIn e b => do
      noteIf true .general
      Prog.log [.eval (.node e)]
      let x ← turns (do
        let k ← test (.cond e)
        pure (k != 0)) (leave (b.run n (c.inLoop own) [])) n
      pure (x, own)
  | .brk => do
      noteIf (own.length + c.loop != 0) .jump
      pure (.brk, own)
  | .cont => do
      noteIf (own.length + c.loop != 0) .jump
      pure (.cont, own)
  | .defer e => do
      noteIf (decide (maxDefers ≤ own.length + c.all)) .overflow
      pure (.next, e :: own)
  | .letTry e => do
      let k ← test (.failed e)
      if k ≠ 0 then do
        noteIf (own.length + c.all != 0) .returned
        pure (.ret, own)
      else pure (.next, own)
  | .ensure cnd => do
      let k ← test (.unmet cnd)
      if k ≠ 0 then do
        noteIf (own.length + c.all != 0) .returned
        Prog.log [.report cnd]
        pure (.ret, own)
      else pure (.next, own)
  | .matchOn k subject arms => do
      noteIf arms.declares .leak
      let i ← test (.arm subject)
      let x ← arms.run n c own i
      noteIf (k = .switch ∧ x = .brk) .switchBreak
      pure (x, own)
  | .block b => do
      let x ← leave (b.run n (c.inner own) [])
      pure (x, own)

def Else.run (n : Nat) (c : Ctx) (own : Stack ε) : Else ε → Run ε Exit
  | .none => pure .next
  | .elseIf cnd t e => do
      let k ← test (.cond cnd)
      if k ≠ 0 then leave (t.run n (c.inner own) []) else e.run n c own
  | .block b => leave (b.run n (c.inner own) [])

def Block.run (n : Nat) (c : Ctx) (own : Stack ε) : Block ε → Run ε (Exit × Stack ε)
  | .nil => pure (.next, own)
  | .cons s b => do
      let r ← s.run n c own
      if r.1 = .next then b.run n c r.2 else pure r

def Arms.run (n : Nat) (c : Ctx) (own : Stack ε) : Arms ε → Nat → Run ε Exit
  | .nil, _ => pure .next
  | .cons body _, 0 => leave (body.run n (c.inner own) [])
  | .cons _ rest, i + 1 => rest.run n c own i
end

/-- Whether the expressions are printed before the last one of a function. -/
def lateTail : RetType → ExprKind → Bool
  | .void, _ => false
  | .result _, .printCall => false
  | _, _ => true

/-- The last statement of a function: an expression is returned. -/
def Stmt.runTail (rt : RetType) (n : Nat) (own : Stack ε) : Stmt ε → Run ε (Exit × Stack ε)
  | .expr k e => do
      noteIf (lateTail rt k && own.length != 0) .returned
      e.run .eval
      pure (.next, own)
  | s => s.run n ⟨0, 0⟩ own

def Block.runBody (rt : RetType) (n : Nat) (own : Stack ε) : Block ε → Run ε (Exit × Stack ε)
  | .nil => pure (.next, own)
  | .cons s .nil => s.runTail rt n own
  | .cons s b => do
      let r ← s.run n ⟨0, 0⟩ own
      if r.1 = .next then b.runBody rt n r.2 else pure r

/-- A function: whether it ends. -/
def runFn (rt : RetType) (n : Nat) (b : Block ε) : Run ε Bool := do
  let x ← leave (b.runBody rt n [])
  pure (x != .timeout)

/-! ## What the printed statements do -/

/-- Of a `{…}` nothing is printed. -/
def Expr.printed (as : Expr ε → Event ε) (e : Expr ε) : List (Event ε) :=
  if e.isBlock then [] else [as e]

mutual
def CStmt.run (n : Nat) : CStmt ε → Run ε Exit
  | .eval e => do
      Prog.log (e.printed .eval)
      pure .next
  | .deferred e => do
      Prog.log (e.printed .deferred)
      pure .next
  | .report c => do
      Prog.log [.report c]
      pure .next
  | .ret none => pure .ret
  | .ret (some e) => do
      Prog.log (e.printed .eval)
      pure .ret
  | .ifte t a b => do
      let k ← test t
      if k ≠ 0 then runAll n a else runAll n b
  | .loop h b => do
      h.enter
      turns h.go (runAll n b) n
  | .block b => runAll n b
  | .arms k subject bodies => do
      let i ← test (.arm subject)
      let x ← runArm n bodies i
      pure (if k = .switch ∧ x = .brk then .next else x)
  | .brk => pure .brk
  | .cont => pure .cont

def runAll (n : Nat) : List (CStmt ε) → Run ε Exit
  | [] => pure .next
  | s :: ss => do
      let x ← s.run n
      if x = .next then runAll n ss else pure x

def runArm (n : Nat) : List (List (CStmt ε)) → Nat → Run ε Exit
  | [], _ => pure .next
  | body :: _, 0 => runAll n body
  | _ :: bodies, i + 1 => runArm n bodies i
end

/-- The printed function: whether it ends. -/
def runC (n : Nat) (ss : List (CStmt ε)) : Run ε Bool := do
  let x ← runAll n ss
  pure (x != .timeout)

/-! ## Lists of printed statements -/

theorem runAll_append (n : Nat) (a b : List (CStmt ε)) :
    runAll n (a ++ b) =
      runAll n a >>= fun x => if x = .next then runAll n b else pure x := by
  induction a with
  | nil => rfl
  | cons s a ih =>
    rw [List.cons_append, runAll, runAll, ih, bind_assoc]
    congr 1
    funext x
    by_cases hx : x = .next
    · rw [if_pos hx, if_pos hx]
    · rw [if_neg hx, if_neg hx, pure_bind, if_neg hx]

theorem runAll_one (n : Nat) (s : CStmt ε) : runAll n [s] = s.run n := by
  rw [runAll]
  conv_rhs => rw [← bind_pure (s.run n)]
  congr 1
  funext x
  by_cases hx : x = .next
  · rw [if_pos hx, hx, runAll]
  · rw [if_neg hx]

/-- What is logged of deferred expressions. -/
def deferredEvents (ds : Stack ε) : List (Event ε) := ds.flatMap (Expr.printed .deferred)

theorem deferredEvents_append (ds es : Stack ε) :
    deferredEvents (ds ++ es) = deferredEvents ds ++ deferredEvents es :=
  List.flatMap_append

theorem deferredEvents_cons (e : Expr ε) (ds : Stack ε) :
    deferredEvents (e :: ds) = e.printed .deferred ++ deferredEvents ds :=
  List.flatMap_cons

theorem runAll_deferred (n : Nat) (ds : Stack ε) (ss : List (CStmt ε)) :
    runAll n (ds.map .deferred ++ ss) =
      Prog.log (deferredEvents ds) >>= fun _ => runAll n ss := by
  induction ds with
  | nil => rfl
  | cons e ds ih =>
    rw [List.map_cons, List.cons_append, runAll, CStmt.run, deferredEvents_cons, Prog.log_append,
      bind_assoc]
    simp only [pure_bind, if_pos, ih]

theorem cgDeferEmitFrom_append (own outer : Stack ε) :
    cgDeferEmitFrom outer.length (own ++ outer) = own.map .deferred := by
  rw [cgDeferEmitFrom, List.length_append, Nat.add_sub_cancel, List.take_left]

theorem cgDeferEmitFrom_zero (ds : Stack ε) : cgDeferEmitFrom 0 ds = ds.map .deferred := by
  rw [cgDeferEmitFrom, Nat.sub_zero, List.take_length]

theorem cgDeferEmitFrom_self (ds : Stack ε) : cgDeferEmitFrom ds.length ds = [] := by
  rw [cgDeferEmitFrom, Nat.sub_self, List.take_zero, List.map_nil]

theorem cgBlock_eq (ds : Stack ε) (b : Block ε) :
    cgBlock ds b = (cgStmts ds b).1 ++ cgDeferEmitFrom ds.length (cgStmts ds b).2 := by
  cases b with
  | nil => rfl
  | cons s b => rfl

/-! ## One statement after the other -/

section
variable {α β : Type} {pre : List (Event ε)} {p : Run ε α} {q : Run ε β}
  {Q : α → List (Event ε) → β → Prop}

theorem ahead_noteIf {b : Bool} {f : Fault} {k : Unit → Run ε α}
    (h : b = false → Ahead pre (k ()) q Q) : Ahead pre (noteIf b f >>= k) q Q := by
  refine Ahead.fault ?_
  intro hb
  refine h ?_
  cases b with
  | false => rfl
  | true => cases hb

theorem ahead_test {t : Test ε} {k : Nat → Run ε α} {k' : Nat → Run ε β}
    (h : ∀ n, Ahead [] (k n) (k' n) Q) : Ahead [] (test t >>= k) (test t >>= k') Q := by
  simp only [test, bind_assoc]
  refine Ahead.choose ?_
  intro n
  exact Ahead.log (h n)

/-- An expression is evaluated on both sides; of a `{…}` there is a fault. -/
theorem ahead_expr {as : Expr ε → Event ε} {e : Expr ε} {k : Unit → Run ε α}
    {k' : Unit → Run ε β} (h : Ahead [] (k ()) (k' ()) Q) :
    Ahead [] (e.run as >>= k) (Prog.log (e.printed as) >>= k') Q := by
  rw [Expr.run, bind_assoc]
  refine ahead_noteIf ?_
  intro hb
  rw [Expr.printed, hb]
  exact Ahead.log h

/-- Deferred expressions on both sides. -/
theorem ahead_defers {ds : Stack ε} {k : Unit → Run ε α} {k' : Unit → Run ε β}
    (h : Ahead [] (k ()) (k' ()) Q) :
    Ahead [] (runDefers ds >>= k) (Prog.log (deferredEvents ds) >>= k') Q := by
  induction ds with
  | nil => exact h
  | cons e ds ih =>
    rw [deferredEvents_cons, Prog.log_append, runDefers, bind_assoc]
    exact ahead_expr ih

/-- Deferred expressions the printed statements have evaluated already. -/
theorem ahead_deferred {ds : Stack ε} {k : Unit → Run ε α} (h : Ahead pre (k ()) q Q) :
    Ahead (deferredEvents ds ++ pre) (runDefers ds >>= k) q Q := by
  induction ds with
  | nil => exact h
  | cons e ds ih =>
    rw [runDefers, bind_assoc, Expr.run, bind_assoc]
    refine ahead_noteIf ?_
    intro hb
    have hevents : deferredEvents (e :: ds) = [.deferred e] ++ deferredEvents ds := by
      rw [deferredEvents_cons, Expr.printed, hb]
      rfl
    rw [hevents, List.append_assoc]
    exact Ahead.catchUp ih

end

/-! ## Exits -/

/-- A statement has ended the same way on both sides: `ds` is the stack if it goes on, a
`break` leaves nothing deferred, and behind a `return` all that is deferred has been
evaluated. -/
structure After (outer : Stack ε) (c : Ctx) (ds : Stack ε) (r : Exit × Stack ε)
    (post : List (Event ε)) (x : Exit) : Prop where
  exit : x = r.1
  stack : r.1 = .next → ds = r.2 ++ outer
  jump : r.1 = .brk ∨ r.1 = .cont → r.2 = [] ∧ c.loop = 0
  post : post = if r.1 = .ret then deferredEvents (r.2 ++ outer) else []

/-- The same for a scope. -/
structure Left (outer : Stack ε) (c : Ctx) (x : Exit) (post : List (Event ε)) (y : Exit) :
    Prop where
  exit : y = x
  jump : x = .brk ∨ x = .cont → c.loop = 0
  post : post = if x = .ret then deferredEvents outer else []

theorem After.next {outer own ds : Stack ε} {c : Ctx} (h : ds = own ++ outer) :
    After outer c ds (.next, own) [] .next := by
  refine ⟨rfl, fun _ => h, ?_, rfl⟩
  rintro (h | h) <;> cases h

theorem After.ret {outer own ds : Stack ε} {c : Ctx} :
    After outer c ds (.ret, own) (deferredEvents (own ++ outer)) .ret := by
  refine ⟨rfl, ?_, ?_, rfl⟩
  · intro h
    cases h
  · rintro (h | h) <;> cases h

/-- Nothing is deferred. -/
theorem After.bare {outer own ds : Stack ε} {c : Ctx} (h : own.length + outer.length = 0) :
    After outer c ds (.ret, own) [] .ret := by
  have hnil : own ++ outer = [] := List.length_eq_zero_iff.1 (by rw [List.length_append, h])
  have hret : After outer c ds (.ret, own) (deferredEvents (own ++ outer)) .ret := .ret
  rwa [hnil] at hret

/-- What a scope inside a statement ends in, the statement ends in. -/
theorem Left.after {outer own : Stack ε} {c : Ctx} {x y : Exit} {post : List (Event ε)}
    (h : Left (own ++ outer) (c.inner own) x post y) :
    After outer c (own ++ outer) (x, own) post y := by
  refine ⟨h.exit, fun _ => rfl, ?_, h.post⟩
  intro hx
  have hzero := h.jump hx
  rw [Ctx.inner] at hzero
  have hown : own.length = 0 := Nat.eq_zero_of_add_eq_zero_right hzero
  exact ⟨List.length_eq_zero_iff.1 hown, Nat.eq_zero_of_add_eq_zero_left hzero⟩

/-- A scope is left: what is printed at the end of a block is for the way through, and a
`return` has all. -/
theorem After.leave {n : Nat} {outer : Stack ε} {c : Ctx} {ds : Stack ε}
    {p : Run ε (Exit × Stack ε)} {ss : List (CStmt ε)}
    (h : Ahead [] p (runAll n ss) (After outer c ds)) :
    Ahead [] (leave p) (runAll n (ss ++ cgDeferEmitFrom outer.length ds)) (Left outer c) := by
  rw [Defers.leave, runAll_append]
  refine h.bind ?_
  rintro ⟨x, own⟩ post y ⟨hexit, hstack, hjump, hpost⟩
  simp only at hexit hstack hjump hpost ⊢
  subst hexit hpost
  cases y with
  | next =>
    rw [hstack rfl, cgDeferEmitFrom_append, if_pos rfl, ← List.append_nil (own.map _),
      runAll_deferred]
    refine ahead_defers (Ahead.pure ⟨rfl, ?_, rfl⟩)
    rintro (h | h) <;> cases h
  | brk =>
    obtain ⟨rfl, hloop⟩ := hjump (.inl rfl)
    exact Ahead.pure ⟨rfl, fun _ => hloop, rfl⟩
  | cont =>
    obtain ⟨rfl, hloop⟩ := hjump (.inr rfl)
    exact Ahead.pure ⟨rfl, fun _ => hloop, rfl⟩
  | ret =>
    rw [if_pos rfl, deferredEvents_append]
    refine ahead_deferred (Ahead.pure ⟨rfl, ?_, rfl⟩)
    rintro (h | h) <;> cases h
  | timeout =>
    refine Ahead.pure ⟨rfl, ?_, rfl⟩
    rintro (h | h) <;> cases h

/-! ## The stack -/

mutual
/-- Only what declares changes the stack. -/
theorem Stmt.stack_eq (ds : Stack ε) :
    ∀ s : Stmt ε, s.declares = false → (cgStmt ds s).2 = ds
  | .act _, _ | .expr _ _, _ | .ret _, _ | .ifs _ _ _, _ | .loop _ _, _ | .brk, _ | .cont, _
  | .letTry _, _ | .ensure _, _ | .block _, _ => by rw [cgStmt]
  | .defer _, h => by
      rw [Stmt.declares] at h
      cases h
  | .forIn e b, h => by
      rw [Stmt.declares] at h
      rw [cgStmt]
      exact b.stack_eq ds h
  | .matchOn k subject arms, h => by
      rw [Stmt.declares] at h
      rw [cgStmt]
      exact arms.stack_eq ds h

theorem Block.stack_eq (ds : Stack ε) :
    ∀ b : Block ε, b.declares = false → (cgStmts ds b).2 = ds
  | .nil, _ => by rw [cgStmts]
  | .cons s b, h => by
      rw [Block.declares, Bool.or_eq_false_iff] at h
      rw [cgStmts, s.stack_eq ds h.1, b.stack_eq ds h.2]

theorem Arms.stack_eq (ds : Stack ε) :
    ∀ arms : Arms ε, arms.declares = false → (cgArms ds arms).2 = ds
  | .nil, _ => by rw [cgArms]
  | .cons body rest, h => by
      rw [Arms.declares, Bool.or_eq_false_iff] at h
      rw [cgArms, body.stack_eq ds h.1, rest.stack_eq ds h.2]
end

/-! ## Loops -/

section
variable {α β : Type} {Q : α → List (Event ε) → β → Prop}

theorem ahead_enter {h : Head ε} {k : Unit → Run ε α} {k' : Unit → Run ε β}
    (hk : Ahead [] (k ()) (k' ()) Q) : Ahead [] (h.enter >>= k) (h.enter >>= k') Q := by
  cases h with
  | while_ | loop => exact hk
  | range | repeat_ => exact Ahead.log hk

theorem ahead_go {h : Head ε} {k : Bool → Run ε α} {k' : Bool → Run ε β}
    (hk : ∀ b, Ahead [] (k b) (k' b) Q) : Ahead [] (h.go >>= k) (h.go >>= k') Q := by
  cases h with
  | loop => exact hk true
  | while_ | range | repeat_ =>
    simp only [Head.go, bind_assoc, pure_bind]
    exact ahead_test fun n => hk _

end

theorem Left.leaves {outer : Stack ε} {c c' : Ctx} {x y : Exit} {post : List (Event ε)}
    (h : Left outer c x post y) (hx : x ≠ .brk ∧ x ≠ .cont) : Left outer c' x post y :=
  ⟨h.exit, fun hjump => absurd hjump (not_or.2 hx), h.post⟩

theorem Left.next {outer : Stack ε} {c : Ctx} : Left outer c .next [] .next := by
  refine ⟨rfl, ?_, rfl⟩
  rintro (h | h) <;> cases h

/-- A loop whose body follows. -/
theorem ahead_turns {n : Nat} {outer : Stack ε} {c c' : Ctx} {h : Head ε} {body : Run ε Exit}
    {ss : List (CStmt ε)} (hbody : Ahead [] body (runAll n ss) (Left outer c)) (m : Nat) :
    Ahead [] (turns h.go body m) (turns h.go (runAll n ss) m) (Left outer c') := by
  induction m with
  | zero =>
    refine Ahead.pure ⟨rfl, ?_, rfl⟩
    rintro (h | h) <;> cases h
  | succ m ih =>
    rw [turns, turns]
    refine ahead_go ?_
    intro b
    cases b with
    | false => exact Ahead.pure Left.next
    | true =>
      refine hbody.bind ?_
      intro x post y hleft
      obtain rfl := hleft.exit
      have hpost := hleft.post
      cases y with
      | next | cont =>
        subst hpost
        exact ih
      | brk =>
        subst hpost
        exact Ahead.pure Left.next
      | ret | timeout => exact Ahead.pure (hleft.leaves ⟨by decide, by decide⟩)

theorem Ctx.inner_all {c : Ctx} (own : Stack ε) {outer : Stack ε} (h : c.all = outer.length) :
    (c.inner own).all = (own ++ outer).length := by
  rw [Ctx.inner, List.length_append, h]

/-- A block is a scope. -/
theorem Block.scope {n : Nat} {b : Block ε} {c : Ctx} {outer : Stack ε}
    (h : Ahead [] (b.run n c []) (runAll n (cgStmts outer b).1)
      (After outer c (cgStmts outer b).2)) :
    Ahead [] (leave (b.run n c [])) (runAll n (cgBlock outer b)) (Left outer c) := by
  rw [cgBlock_eq]
  exact After.leave h

/-! ## Every statement -/

mutual
theorem Stmt.follows (n : Nat) : ∀ (s : Stmt ε) {c : Ctx} (own : Stack ε)
    {outer : Stack ε},
    c.all = outer.length →
      Ahead [] (s.run n c own) (runAll n (cgStmt (own ++ outer) s).1)
        (After outer c (cgStmt (own ++ outer) s).2)
  | .act e, c, own, outer, _ => by
      rw [cgStmt, runAll_one, CStmt.run, Stmt.run]
      exact ahead_expr (Ahead.pure (.next rfl))
  | .expr k e, c, own, outer, _ => by
      rw [cgStmt, runAll_one, CStmt.run, Stmt.run]
      exact ahead_expr (Ahead.pure (.next rfl))
  | .ret none, c, own, outer, _ => by
      rw [cgStmt, runAll_deferred, runAll_one, CStmt.run, Stmt.run]
      exact Ahead.early (Ahead.pure .ret)
  | .ret (some e), c, own, outer, hc => by
      rw [cgStmt, runAll_deferred, runAll_one, CStmt.run, Stmt.run]
      refine ahead_noteIf ?_
      intro hnone
      have hlen : own.length + outer.length = 0 := by simpa [hc] using hnone
      obtain ⟨rfl, rfl⟩ : own = [] ∧ outer = [] := by simpa using hlen
      exact Ahead.early (ahead_expr (Ahead.pure After.ret))
  | .ifs cnd t e, c, own, outer, hc => by
      rw [cgStmt, runAll_one, CStmt.run, Stmt.run]
      refine ahead_test ?_
      intro k
      by_cases hk : k ≠ 0
      · rw [if_pos hk, if_pos hk, ← bind_pure (runAll n _)]
        exact (Block.scope (t.follows n [] (Ctx.inner_all own hc))).bind
          fun x post y h => Ahead.pure h.after
      · rw [if_neg hk, if_neg hk, ← bind_pure (runAll n _)]
        exact (e.follows n own hc).bind fun x post y h => Ahead.pure h.after
  | .loop h b, c, own, outer, hc => by
      rw [cgStmt, runAll_one, CStmt.run, Stmt.run]
      refine ahead_enter ?_
      have hin : (c.inLoop own).all = (own ++ outer).length :=
        Ctx.inner_all own hc
      have hturns : Ahead [] (turns h.go (leave (b.run n (c.inLoop own) [])) n)
          (turns h.go (runAll n (cgBlock (own ++ outer) b)) n)
          (Left (own ++ outer) (c.inner own)) :=
        ahead_turns (Block.scope (b.follows n [] hin)) n
      rw [← bind_pure (turns h.go (runAll n _) n)]
      exact hturns.bind fun x post y h => Ahead.pure h.after
  | .forIn e b, c, own, outer, _ => by
      rw [Stmt.run]
      refine ahead_noteIf ?_
      intro h
      cases h
  | .brk, c, own, outer, _ => by
      rw [cgStmt, runAll_one, CStmt.run, Stmt.run]
      refine ahead_noteIf ?_
      intro hnone
      have hlen : own.length = 0 ∧ c.loop = 0 := by simpa using hnone
      refine Ahead.pure ⟨rfl, ?_, fun _ => ⟨List.length_eq_zero_iff.1 hlen.1, hlen.2⟩, rfl⟩
      intro h
      cases h
  | .cont, c, own, outer, _ => by
      rw [cgStmt, runAll_one, CStmt.run, Stmt.run]
      refine ahead_noteIf ?_
      intro hnone
      have hlen : own.length = 0 ∧ c.loop = 0 := by simpa using hnone
      refine Ahead.pure ⟨rfl, ?_, fun _ => ⟨List.length_eq_zero_iff.1 hlen.1, hlen.2⟩, rfl⟩
      intro h
      cases h
  | .defer e, c, own, outer, hc => by
      rw [cgStmt, runAll, Stmt.run]
      refine ahead_noteIf ?_
      intro hroom
      have hlen : (own ++ outer).length < maxDefers := by simpa [hc] using hroom
      rw [cgDeferPush, if_pos hlen]
      exact Ahead.pure (.next rfl)
  | .letTry e, c, own, outer, hc => by
      rw [cgStmt, runAll_one, CStmt.run, Stmt.run]
      refine ahead_test ?_
      intro k
      by_cases hk : k ≠ 0
      · rw [if_pos hk, if_pos hk, runAll_one, CStmt.run]
        refine ahead_noteIf ?_
        intro hnone
        exact Ahead.pure (.bare (by simpa [hc] using hnone))
      · rw [if_neg hk, if_neg hk, runAll]
        exact Ahead.pure (.next rfl)
  | .ensure cnd, c, own, outer, hc => by
      rw [cgStmt, runAll_one, CStmt.run, Stmt.run]
      refine ahead_test ?_
      intro k
      by_cases hk : k ≠ 0
      · rw [if_pos hk, if_pos hk, runAll, CStmt.run, bind_assoc]
        refine ahead_noteIf ?_
        intro hnone
        refine Ahead.log ?_
        rw [pure_bind, if_pos rfl, runAll_one, CStmt.run]
        exact Ahead.pure (.bare (by simpa [hc] using hnone))
      · rw [if_neg hk, if_neg hk, runAll]
        exact Ahead.pure (.next rfl)
  | .matchOn k subject arms, c, own, outer, hc => by
      rw [cgStmt, runAll_one, CStmt.run, Stmt.run]
      refine ahead_noteIf ?_
      intro hdeclares
      rw [arms.stack_eq _ hdeclares]
      refine ahead_test ?_
      intro i
      refine (arms.follows n own hc hdeclares i).bind ?_
      intro x post y h
      refine ahead_noteIf ?_
      intro hbreak
      obtain rfl := h.exit
      rw [if_neg (by simpa using hbreak)]
      exact Ahead.pure h.after
  | .block b, c, own, outer, hc => by
      rw [cgStmt, runAll_one, CStmt.run, Stmt.run, ← bind_pure (runAll n _)]
      exact (Block.scope (b.follows n [] (Ctx.inner_all own hc))).bind
        fun x post y h => Ahead.pure h.after

theorem Else.follows (n : Nat) : ∀ (e : Else ε) {c : Ctx} (own : Stack ε)
    {outer : Stack ε},
    c.all = outer.length →
      Ahead [] (e.run n c own) (runAll n (cgElse (own ++ outer) e))
        (Left (own ++ outer) (c.inner own))
  | .none, c, own, outer, _ => by
      rw [cgElse, runAll, Else.run]
      exact Ahead.pure .next
  | .elseIf cnd t e, c, own, outer, hc => by
      rw [cgElse, runAll_one, CStmt.run, Else.run]
      refine ahead_test ?_
      intro k
      by_cases hk : k ≠ 0
      · rw [if_pos hk, if_pos hk]
        exact Block.scope (t.follows n [] (Ctx.inner_all own hc))
      · rw [if_neg hk, if_neg hk]
        exact e.follows n own hc
  | .block b, c, own, outer, hc => by
      rw [cgElse, Else.run]
      exact Block.scope (b.follows n [] (Ctx.inner_all own hc))

theorem Block.follows (n : Nat) : ∀ (b : Block ε) {c : Ctx} (own : Stack ε)
    {outer : Stack ε},
    c.all = outer.length →
      Ahead [] (b.run n c own) (runAll n (cgStmts (own ++ outer) b).1)
        (After outer c (cgStmts (own ++ outer) b).2)
  | .nil, c, own, outer, _ => by
      rw [cgStmts, runAll, Block.run]
      exact Ahead.pure (.next rfl)
  | .cons s b, c, own, outer, hc => by
      rw [cgStmts, runAll_append, Block.run]
      refine (s.follows n own hc).bind ?_
      rintro ⟨x, own'⟩ post y h
      obtain rfl : y = x := h.exit
      by_cases hy : y = .next
      · subst hy
        have hstack : (cgStmt (own ++ outer) s).2 = own' ++ outer := h.stack rfl
        obtain rfl : post = [] := h.post
        rw [if_pos rfl, if_pos rfl, hstack]
        exact b.follows n own' hc
      · rw [if_neg hy, if_neg hy]
        exact Ahead.pure ⟨h.exit, fun hnext => absurd hnext hy, h.jump, h.post⟩

theorem Arms.follows (n : Nat) : ∀ (arms : Arms ε) {c : Ctx} (own : Stack ε)
    {outer : Stack ε},
    c.all = outer.length → arms.declares = false → ∀ i,
      Ahead [] (arms.run n c own i) (runArm n (cgArms (own ++ outer) arms).1 i)
        (Left (own ++ outer) (c.inner own))
  | .nil, c, own, outer, _, _, i => by
      rw [cgArms, runArm, Arms.run]
      exact Ahead.pure .next
  | .cons body rest, c, own, outer, hc, h, 0 => by
      rw [Arms.declares, Bool.or_eq_false_iff] at h
      have hscope : Ahead [] (leave (body.run n (c.inner own) []))
          (runAll n (cgBlock (own ++ outer) body)) (Left (own ++ outer) (c.inner own)) :=
        Block.scope (body.follows n [] (Ctx.inner_all own hc))
      rw [cgBlock_eq, body.stack_eq _ h.1, cgDeferEmitFrom_self, List.append_nil] at hscope
      rw [cgArms, runArm, Arms.run]
      exact hscope
  | .cons body rest, c, own, outer, hc, h, i + 1 => by
      rw [Arms.declares, Bool.or_eq_false_iff] at h
      rw [cgArms, runArm, Arms.run, body.stack_eq _ h.1]
      exact rest.follows n own hc h.2 i
end

/-! ## The end of a function -/

/-- A function has ended on both sides; the printed one has evaluated what is deferred. -/
structure Ended (r : Exit × Stack ε) (post : List (Event ε)) (y : Exit) : Prop where
  timeout : y = .timeout ↔ r.1 = .timeout
  post : post = if r.1 = .timeout then [] else deferredEvents r.2

theorem After.ended {c : Ctx} {ds : Stack ε} {r : Exit × Stack ε} {post : List (Event ε)} {y : Exit}
    (h : After [] c ds r post y) (hnext : r.1 ≠ .next) : Ended r post y := by
  obtain ⟨x, own⟩ := r
  obtain ⟨rfl, -, hjump, hpost⟩ := h
  refine ⟨Iff.rfl, ?_⟩
  rw [hpost]
  cases y with
  | next => exact absurd rfl hnext
  | brk =>
    obtain ⟨rfl, -⟩ := hjump (.inl rfl)
    rfl
  | cont =>
    obtain ⟨rfl, -⟩ := hjump (.inr rfl)
    rfl
  | ret => rw [if_pos rfl, List.append_nil, if_neg Exit.noConfusion]
  | timeout => rfl

/-- The printed function goes through what is deferred and is at its end. -/
theorem ahead_end {n : Nat} {own : Stack ε} {ss : List (CStmt ε)}
    (hss : ss = [] ∨ ss = [.ret none]) :
    Ahead [] (pure (.next, own)) (runAll n (own.map .deferred ++ ss)) Ended := by
  rw [runAll_deferred]
  refine Ahead.early ?_
  rcases hss with rfl | rfl
  · rw [runAll]
    exact Ahead.pure ⟨by simp, rfl⟩
  · rw [runAll_one, CStmt.run]
    exact Ahead.pure ⟨by simp, rfl⟩

theorem cgResultReturnOk_eq (rt : RetType) :
    (cgResultReturnOk rt : List (CStmt ε)) = [] ∨
      (cgResultReturnOk rt : List (CStmt ε)) = [.ret none] := by
  cases rt with
  | result => exact .inr rfl
  | void | option | other => exact .inl rfl

theorem Stmt.follows_last {n : Nat} (s : Stmt ε) {own : Stack ε} {ss : List (CStmt ε)}
    (hss : ss = [] ∨ ss = [.ret none]) :
    Ahead [] (s.run n ⟨0, 0⟩ own)
      (runAll n ((cgStmt own s).1 ++ cgDeferEmitFrom 0 (cgStmt own s).2 ++ ss)) Ended := by
  have hs : Ahead [] (s.run n ⟨0, 0⟩ own) (runAll n (cgStmt (own ++ []) s).1)
      (After [] ⟨0, 0⟩ (cgStmt (own ++ []) s).2) := s.follows n own rfl
  rw [List.append_nil] at hs
  rw [List.append_assoc, runAll_append, ← bind_pure (s.run n ⟨0, 0⟩ own)]
  refine hs.bind ?_
  rintro ⟨x, own'⟩ post y h
  obtain rfl : y = x := h.exit
  by_cases hy : y = .next
  · subst hy
    have hstack : (cgStmt own s).2 = own' ++ [] := h.stack rfl
    obtain rfl : post = [] := h.post
    rw [if_pos rfl, hstack, List.append_nil, cgDeferEmitFrom_zero]
    exact ahead_end hss
  · rw [if_neg hy]
    exact Ahead.pure (h.ended hy)

/-- What is printed of a last expression. -/
theorem cgTail_late {rt : RetType} {k : ExprKind} (h : lateTail rt k = true) (ds : Stack ε)
    (e : Expr ε) : cgTail rt ds (.expr k e) = cgDeferEmitFrom 0 ds ++ [.ret (some e)] ∨
      cgTail rt ds (.expr k e) = cgDeferEmitFrom 0 ds ++ [.eval e, .ret none] := by
  rcases rt with _ | (_ | _) | _ | _ <;> rcases k with _ | (_ | _) | _ <;>
    first | exact .inl rfl | exact .inr rfl | cases h

theorem cgTail_early {rt : RetType} {k : ExprKind} (h : lateTail rt k = false) (ds : Stack ε)
    (e : Expr ε) : ∃ ss : List (CStmt ε), (ss = [] ∨ ss = [.ret none]) ∧
      cgTail rt ds (.expr k e) = .eval e :: (ds.map .deferred ++ ss) := by
  cases rt with
  | void => exact ⟨[], .inl rfl, by rw [cgTail, cgDeferEmitFrom_zero, List.append_nil]⟩
  | result b =>
    cases k with
    | printCall => exact ⟨[.ret none], .inr rfl, by rw [cgTail, cgDeferEmitFrom_zero]⟩
    | path | other => cases h
  | option | other => cases h

theorem Stmt.follows_tail (rt : RetType) (n : Nat) (s : Stmt ε) (own : Stack ε) :
    Ahead [] (s.runTail rt n own) (runAll n (cgTail rt own s)) Ended := by
  cases s with
  | expr k e =>
    rw [Stmt.runTail]
    refine ahead_noteIf ?_
    intro hpending
    cases hlate : lateTail rt k with
    | false =>
      obtain ⟨ss, hss, hprinted⟩ := cgTail_early hlate own e
      rw [hprinted, runAll, CStmt.run, bind_assoc]
      refine ahead_expr ?_
      rw [pure_bind, if_pos rfl]
      exact ahead_end hss
    | true =>
      obtain rfl : own = [] := by simpa [hlate] using hpending
      rcases cgTail_late hlate [] e with hprinted | hprinted
      · rw [hprinted, cgDeferEmitFrom_zero, List.map_nil, List.nil_append, runAll_one, CStmt.run]
        exact ahead_expr (Ahead.pure ⟨by simp, rfl⟩)
      · rw [hprinted, cgDeferEmitFrom_zero, List.map_nil, List.nil_append, runAll, CStmt.run,
          bind_assoc]
        refine ahead_expr ?_
        rw [pure_bind, if_pos rfl, runAll_one, CStmt.run]
        exact Ahead.pure ⟨by simp, rfl⟩
  | ret e =>
    cases e with
    | none =>
      show Ahead [] (pure (.ret, own)) (runAll n (own.map .deferred ++ [.ret none])) Ended
      rw [runAll_deferred, runAll_one, CStmt.run]
      exact Ahead.early (Ahead.pure ⟨by simp, rfl⟩)
    | some e =>
      show Ahead [] (Stmt.run n ⟨0, 0⟩ own (.ret (some e)))
        (runAll n (own.map .deferred ++ [.ret (some e)])) Ended
      rw [Stmt.run, runAll_deferred, runAll_one, CStmt.run]
      refine ahead_noteIf ?_
      intro hnone
      obtain rfl : own = [] := by simpa using hnone
      exact Ahead.early (ahead_expr (Ahead.pure ⟨by simp, rfl⟩))
  | act | ifs | loop | forIn | brk | cont | defer | letTry | ensure | matchOn | block =>
    exact Stmt.follows_last _ (cgResultReturnOk_eq rt)

/-! ## Every function -/

theorem Block.follows_body (rt : RetType) (n : Nat) :
    ∀ (s : Stmt ε) (b : Block ε) (own : Stack ε),
      Ahead [] ((Block.cons s b).runBody rt n own)
        (runAll n (cgBlockWithImplicitReturn rt own (.cons s b))) Ended
  | s, .nil, own => s.follows_tail rt n own
  | s, .cons s' b, own => by
      have hs : Ahead [] (s.run n ⟨0, 0⟩ own) (runAll n (cgStmt (own ++ []) s).1)
          (After [] ⟨0, 0⟩ (cgStmt (own ++ []) s).2) := s.follows n own rfl
      rw [List.append_nil] at hs
      rw [cgBlockWithImplicitReturn, runAll_append, Block.runBody]
      · refine hs.bind ?_
        rintro ⟨x, own'⟩ post y h
        obtain rfl : y = x := h.exit
        by_cases hy : y = .next
        · subst hy
          have hstack : (cgStmt own s).2 = own' ++ [] := h.stack rfl
          obtain rfl : post = [] := h.post
          rw [if_pos rfl, if_pos rfl, hstack, List.append_nil]
          exact Block.follows_body rt n s' b own'
        · rw [if_neg hy, if_neg hy]
          exact Ahead.pure (h.ended hy)
      all_goals simp

/-- What is deferred is evaluated behind the last statement, too. -/
theorem Ended.leave {n : Nat} {p : Run ε (Exit × Stack ε)} {ss : List (CStmt ε)}
    (h : Ahead [] p (runAll n ss) Ended) :
    Ahead [] (do
      let x ← Defers.leave p
      pure (x != .timeout)) (runC n ss) fun a post b => b = a ∧ post = [] := by
  rw [Defers.leave, runC, bind_assoc]
  refine h.bind ?_
  rintro ⟨x, own⟩ post y ⟨hout, hpost⟩
  simp only at hout hpost ⊢
  subst hpost
  cases x with
  | timeout =>
    rw [hout.2 rfl]
    exact Ahead.pure ⟨rfl, rfl⟩
  | next | brk | cont | ret =>
    have hy : y ≠ .timeout := fun hy => by cases hout.1 hy
    rw [if_neg Exit.noConfusion, ← List.append_nil (deferredEvents own), bind_assoc]
    refine ahead_deferred ?_
    rw [pure_bind]
    exact Ahead.pure ⟨bne_iff_ne.2 hy, rfl⟩

/-- In a run without a fault the printed function evaluates what is meant, in that order,
and ends if it is meant to. -/
theorem defers_run (rt : RetType) (b : Block ε) (n : Nat) (o : Nat → Nat)
    (h : (runFn rt n b o).faults = []) :
    (runC n (cgBlockWithImplicitReturn rt [] b) o).trace = (runFn rt n b o).trace ∧
      (runC n (cgBlockWithImplicitReturn rt [] b) o).out = (runFn rt n b o).out := by
  have hbody :
      Ahead [] (b.runBody rt n []) (runAll n (cgBlockWithImplicitReturn rt [] b)) Ended := by
    cases b with
    | nil => exact Ahead.pure ⟨by simp, rfl⟩
    | cons s b => exact b.follows_body rt n s []
  obtain ⟨post, htrace, -, hout, rfl⟩ := (Ended.leave hbody) o h
  rw [List.append_nil] at htrace
  exact ⟨htrace, hout⟩

/-- Deferred expressions at both levels, and a loop of two turns. -/
theorem defers_run_loop :
    (runC 3 (cgBlockWithImplicitReturn .void []
        (.cons (.defer (.node 0)) (.cons (.loop (.while_ 1) (.cons (.defer (.node 2))
          (.cons (.act (.node 3)) .nil))) (.cons (.expr .other (.node 4)) .nil))))
        fun i => if i < 2 then 1 else 0).trace =
      (runFn .void 3 (.cons (.defer (.node 0)) (.cons (.loop (.while_ 1) (.cons (.defer (.node 2))
          (.cons (.act (.node 3)) .nil))) (.cons (.expr .other (.node 4)) .nil)))
        fun i => if i < 2 then 1 else 0).trace ∧
    (runC 3 (cgBlockWithImplicitReturn .void []
        (.cons (.defer (.node 0)) (.cons (.loop (.while_ 1) (.cons (.defer (.node 2))
          (.cons (.act (.node 3)) .nil))) (.cons (.expr .other (.node 4)) .nil))))
        fun i => if i < 2 then 1 else 0).out =
      (runFn .void 3 (.cons (.defer (.node 0)) (.cons (.loop (.while_ 1) (.cons (.defer (.node 2))
          (.cons (.act (.node 3)) .nil))) (.cons (.expr .other (.node 4)) .nil)))
        fun i => if i < 2 then 1 else 0).out :=
  defers_run .void _ 3 _ rfl

/-- `defer 0; return 1`: 0 is evaluated first. -/
theorem return_late :
    ¬ ∀ (rt : RetType) (b : Block Nat) (n : Nat) (o : Nat → Nat),
      (runC n (cgBlockWithImplicitReturn rt [] b) o).trace = (runFn rt n b o).trace := by
  intro h
  have hrun := h .other (.cons (.defer (.node 0)) (.cons (.ret (some (.node 1))) .nil)) 0 id
  cases hrun

end Limceron.C99.Defers
