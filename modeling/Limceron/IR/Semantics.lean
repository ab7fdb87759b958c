/-
# `Limceron.IR.Semantics` — running an IrModule

A direct reading of the instruction comments in `ir.h`.  A function runs block
by block; inside a block the instructions run in order.  The run records what
the outside can see: calls, host calls with their arguments and prints.

**Values.**  Integers and booleans are 64-bit words, booleans being 0 and 1.
Floats are their bits, with the arithmetic supplied by a `FloatArith`.  An
address names the alloca it came from: an alloca owns one slot of its frame and
clears the slot each time it executes.  Reading an id that was never assigned,
or applying an operator to operands of the wrong kind, gives `unset`.

**Phis** read the environment the block was entered with, so the phis of one
block are simultaneous.

**The host** answers a host call by a function of everything that happened so
far; quantifying over it covers every behaviour of the outside.

**Fuel** bounds the number of block entries and the depth of calls.  A run that
is cut short reports the trace it had, so statements for every fuel speak about
diverging runs as well.
-/
import Limceron.IR.Syntax
import Mathlib.Logic.Function.Basic

namespace Limceron

/-! ## Values, traces, outcomes -/

inductive Val where
  | unset
  | word (w : BitVec 64)
  | float (bits : BitVec 64)
  | str (s : String)
  | addr (slot : Int)
  deriving DecidableEq, Repr, Inhabited

/-- The word of a boolean. -/
def boolWord (b : Bool) : BitVec 64 := if b then 1 else 0

/-- The binary64 operations, on bit patterns. -/
structure FloatArith where
  add : BitVec 64 → BitVec 64 → BitVec 64
  sub : BitVec 64 → BitVec 64 → BitVec 64
  mul : BitVec 64 → BitVec 64 → BitVec 64
  div : BitVec 64 → BitVec 64 → BitVec 64
  neg : BitVec 64 → BitVec 64
  eq : BitVec 64 → BitVec 64 → Bool
  lt : BitVec 64 → BitVec 64 → Bool
  le : BitVec 64 → BitVec 64 → Bool
  ofInt : BitVec 64 → BitVec 64
  toInt : BitVec 64 → BitVec 64

/-- An arithmetic for programs that have no floats. -/
def FloatArith.unused : FloatArith where
  add a _ := a
  sub a _ := a
  mul a _ := a
  div a _ := a
  neg a := a
  eq _ _ := true
  lt _ _ := false
  le _ _ := true
  ofInt a := a
  toInt a := a

inductive Event where
  | call (name : String) (args : List Val)
  | host (name : String) (args : List Val) (result : Val)
  | print (v : Val)
  deriving DecidableEq, Repr

abbrev Trace := List Event

/-- What the outside answers to a host call, given the past. -/
abbrev Host := Trace → String → List Val → Val

/-- A host that gives back its first argument. -/
def Host.echo : Host := fun _ _ args => args.headD .unset

inductive Outcome where
  | ret (v : Option Val) (tr : Trace)
  | trap (tr : Trace)
  | stuck (tr : Trace)
  | timeout (tr : Trace)
  deriving DecidableEq, Repr

/-! ## Operators -/

/-- Does a signed 64-bit division trap? -/
def divTraps (a b : BitVec 64) : Bool :=
  b == 0 || (a == BitVec.intMin 64 && b == -1)

/-- The arithmetic of the target: wrapping `add`, `sub`, `mul`, truncating
division, signed comparisons.  `none` is a trap. -/
def evalBinop (fa : FloatArith) : IrOpcode → Val → Val → Option Val
  | .add, .word a, .word b => some (.word (a + b))
  | .sub, .word a, .word b => some (.word (a - b))
  | .mul, .word a, .word b => some (.word (a * b))
  | .div, .word a, .word b => if divTraps a b then none else some (.word (a.sdiv b))
  | .mod, .word a, .word b => if b = 0 then none else some (.word (a.srem b))
  | .fadd, .float a, .float b => some (.float (fa.add a b))
  | .fsub, .float a, .float b => some (.float (fa.sub a b))
  | .fmul, .float a, .float b => some (.float (fa.mul a b))
  | .fdiv, .float a, .float b => some (.float (fa.div a b))
  | .cmpEq, .word a, .word b => some (.word (boolWord (a == b)))
  | .cmpNe, .word a, .word b => some (.word (boolWord (a != b)))
  | .cmpLt, .word a, .word b => some (.word (boolWord (a.slt b)))
  | .cmpGt, .word a, .word b => some (.word (boolWord (b.slt a)))
  | .cmpLe, .word a, .word b => some (.word (boolWord (a.sle b)))
  | .cmpGe, .word a, .word b => some (.word (boolWord (b.sle a)))
  | .cmpEq, .float a, .float b => some (.word (boolWord (fa.eq a b)))
  | .cmpNe, .float a, .float b => some (.word (boolWord (!fa.eq a b)))
  | .cmpLt, .float a, .float b => some (.word (boolWord (fa.lt a b)))
  | .cmpGt, .float a, .float b => some (.word (boolWord (fa.lt b a)))
  | .cmpLe, .float a, .float b => some (.word (boolWord (fa.le a b)))
  | .cmpGe, .float a, .float b => some (.word (boolWord (fa.le b a)))
  | .and, .word a, .word b => some (.word (a &&& b))
  | .or, .word a, .word b => some (.word (a ||| b))
  | .strConcat, .str a, .str b => some (.str (a ++ b))
  | .gep, .word a, .word b => some (.word (a + b * 8))
  | _, _, _ => some .unset

/-- Only divisions trap. -/
theorem evalBinop_ne_none (fa : FloatArith) {op : IrOpcode} (hd : op ≠ .div) (hm : op ≠ .mod)
    (a b : Val) : evalBinop fa op a b ≠ none := by
  unfold evalBinop
  split <;> first | exact Option.some_ne_none _ | contradiction

def evalUnop (fa : FloatArith) (type : IrType) : IrOpcode → Val → Val
  | .neg, .word a => .word (0 - a)
  | .neg, .float a => .float (fa.neg a)
  | .not, .word a => .word (boolWord (a == 0))
  | .cast, .word a => if type = .f64 then .float (fa.ofInt a) else .word a
  | .cast, .float a => if type = .i64 then .word (fa.toInt a) else .float a
  | .cast, v => v
  | _, _ => .unset

/-! ## One instruction -/

/-- What a fresh slot holds: zero, of the element type that the alloca carries
in `imm_int` (`1` is `IR_TYPE_F64`). -/
def IrInst.zero (i : IrInst) : Val := if i.immInt = 1 then .float 0 else .word 0

/-- An activation: the values of the SSA ids and the contents of the slots. -/
structure Frame where
  env : Int → Val
  slots : Int → Val

namespace Frame

/-- Assign the result of an instruction; `-1` has no result. -/
def set (fr : Frame) (id : Int) (v : Val) : Frame :=
  if id < 0 then fr else { fr with env := Function.update fr.env id v }

def setSlot (fr : Frame) (slot : Int) (v : Val) : Frame :=
  { fr with slots := Function.update fr.slots slot v }

/-- The frame a function starts in. -/
def init (fn : IrFunction) (args : List Val) : Frame where
  env := (fn.params.zip args).foldl
    (fun e pa => Function.update e pa.1.valueId pa.2) (fun _ => .unset)
  slots := fun _ => .unset

end Frame

/-- What an instruction does next. -/
inductive Flow where
  | next (fr : Frame) (tr : Trace)
  | jump (target : Int) (fr : Frame) (tr : Trace)
  | stop (o : Outcome)

/-- The value a phi selects when control came from block `prev`. -/
def phiValue (entry : Int → Val) (prev : Int) (args : List (Int × Int)) : Val :=
  match args.find? (fun a => a.2 == prev) with
  | some a => entry a.1
  | none => .unset

/-- Assign a computed result, or trap. -/
def Flow.assign (fr : Frame) (tr : Trace) (id : Int) : Option Val → Flow
  | some v => .next (fr.set id v) tr
  | none => .stop (.trap tr)

/-- Continue after a call with the callee's outcome. -/
def Flow.afterCall (fr : Frame) (id : Int) : Outcome → Flow
  | .ret v tr => .next (fr.set id (v.getD .unset)) tr
  | o => .stop o

section
variable (fa : FloatArith) (host : Host)
  (callee : String → List Val → Trace → Outcome)

/-- One instruction of a block entered from `prev` with environment `entry`. -/
def execInst (entry : Int → Val) (prev : Int) (i : IrInst) (fr : Frame) (tr : Trace) :
    Flow :=
  match i.op with
  | .constInt => .next (fr.set i.id (.word i.immInt)) tr
  | .constFloat => .next (fr.set i.id (.float i.immFloat)) tr
  | .constString => .next (fr.set i.id (.str (i.immStr.getD ""))) tr
  | .constBool => .next (fr.set i.id (.word (boolWord (i.immInt != 0)))) tr
  | .add | .sub | .mul | .div | .mod | .fadd | .fsub | .fmul | .fdiv
  | .cmpEq | .cmpNe | .cmpLt | .cmpGt | .cmpLe | .cmpGe | .and | .or
  | .strConcat | .gep =>
      Flow.assign fr tr i.id
        (evalBinop fa i.op (fr.env (i.operand 0)) (fr.env (i.operand 1)))
  | .neg | .not | .cast =>
      .next (fr.set i.id (evalUnop fa i.type i.op (fr.env (i.operand 0)))) tr
  | .alloca => .next ((fr.set i.id (.addr i.id)).setSlot i.id i.zero) tr
  | .load =>
      match fr.env (i.operand 0) with
      | .addr s => .next (fr.set i.id (fr.slots s)) tr
      | _ => .stop (.stuck tr)
  | .store =>
      match fr.env (i.operand 1) with
      | .addr s => .next (fr.setSlot s (fr.env (i.operand 0))) tr
      | _ => .stop (.stuck tr)
  | .call =>
      let args := i.callArgs.map fr.env
      let name := i.fnName.getD "unknown"
      Flow.afterCall fr i.id (callee name args (tr ++ [.call name args]))
  | .hostCall =>
      let args := i.callArgs.map fr.env
      let name := i.fnName.getD "?"
      let r := host tr name args
      .next (fr.set i.id r) (tr ++ [.host name args r])
  | .ret =>
      match i.operands with
      | [] => .stop (.ret none tr)
      | v :: _ => .stop (.ret (some (fr.env v)) tr)
  | .br =>
      match fr.env (i.operand 0) with
      | .word c => .jump (if c != 0 then i.targetBb else i.falseBb) fr tr
      | _ => .stop (.stuck tr)
  | .jmp => .jump i.targetBb fr tr
  | .phi => .next (fr.set i.id (phiValue entry prev i.phiArgs)) tr
  | .print => .next fr (tr ++ [.print (fr.env (i.operand 0))])
  | .nop => .next fr tr

/-- The rest of a block.  Falling off the end is stuck. -/
def execInsts (entry : Int → Val) (prev : Int) : List IrInst → Frame → Trace → Flow
  | [], _, tr => .stop (.stuck tr)
  | i :: is, fr, tr =>
      match execInst fa host callee entry prev i fr tr with
      | .next fr' tr' => execInsts entry prev is fr' tr'
      | .jump t fr' tr' => .jump t fr' tr'
      | .stop o => .stop o

end

/-! ## Functions -/

section
variable (fa : FloatArith) (host : Host) (m : IrModule)

/-- The instructions of block `b`, if the function has it. -/
def IrFunction.blockInsts (fn : IrFunction) (b : Int) : Option (List IrInst) :=
  if b < 0 then none else (fn.blocks[b.toNat]?).map (·.insts)

@[simp] theorem IrFunction.blockInsts_natCast (fn : IrFunction) (b : Nat) :
    fn.blockInsts b = (fn.blocks[b]?).map (·.insts) := by
  simp [IrFunction.blockInsts, Int.not_lt.mpr (Int.natCast_nonneg b)]

/-- Run `fn` from the start of block `b`, entered from `prev`. -/
def runBlock : Nat → IrFunction → Int → Int → Frame → Trace → Outcome
  | 0, _, _, _, _, tr => .timeout tr
  | n + 1, fn, b, prev, fr, tr =>
      match fn.blockInsts b with
      | none => .stuck tr
      | some is =>
          let callee := fun name args tr' =>
            match m.lookup name with
            | none => Outcome.stuck tr'
            | some g => runBlock n g 0 (-1) (Frame.init g args) tr'
          match execInsts fa host callee fr.env prev is fr tr with
          | .next _ tr' => .stuck tr'
          | .jump t fr' tr' => runBlock n fn t b fr' tr'
          | .stop o => o

/-- Run the function called `name`. -/
def runFn (n : Nat) (name : String) (args : List Val) (tr : Trace) : Outcome :=
  match m.lookup name with
  | none => .stuck tr
  | some g => runBlock fa host m n g 0 (-1) (Frame.init g args) tr

theorem runBlock_succ (n : Nat) (fn : IrFunction) (b prev : Int) (fr : Frame) (tr : Trace) :
    runBlock fa host m (n + 1) fn b prev fr tr =
      match fn.blockInsts b with
      | none => .stuck tr
      | some is =>
          match execInsts fa host (runFn fa host m n) fr.env prev is fr tr with
          | .next _ tr' => .stuck tr'
          | .jump t fr' tr' => runBlock fa host m n fn t b fr' tr'
          | .stop o => o := rfl

end

end Limceron
