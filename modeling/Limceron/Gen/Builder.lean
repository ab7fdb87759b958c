/-
# `Limceron.Gen.Builder` — appending blocks and instructions

The `ir_emit_*` functions on the function under construction, as actions of a
state monad.  A new block becomes the current block, as in `ir_bb_new`.
-/
import Limceron.Gen.Names

namespace Limceron.Gen

/-- `IrGenVar`. -/
structure Var where
  name : String
  addrId : Int
  type : IrType
  isJson : Bool := false
  deriving DecidableEq, Repr

/-- `IrGenScope`: the variables and the saved lengths, the latest first. -/
structure Scope where
  vars : List Var := []
  scopeStarts : List Nat := []
  deriving DecidableEq, Repr

/-- `IrGenLoopCtx`, less the flag for a warning. -/
structure LoopCtx where
  continueBb : Int
  breakBb : Int
  deriving DecidableEq, Repr

structure CatchCtx where
  catchBb : Int
  errAddr : Int
  deriving DecidableEq, Repr

/-- How a call of the source names its function. -/
inductive CallRef where
  | plain (callee : String)
  | qualified (stem fnName : String)
  | computed
  deriving DecidableEq, Repr

/-- `IrGenContext` while a function is lowered.  `calls` is a record for the
proofs, which nothing reads: the calls of the source lowered so far, each with
the symbol that its `IR_CALL` got. -/
structure GenState where
  names : Registries := {}
  params : List IrParam := []
  blocks : List IrBasicBlock := []
  currentBb : Nat := 0
  nextValue : Int := 0
  scope : Scope := {}
  loopStack : List LoopCtx := []
  catchStack : List CatchCtx := []
  calls : List (CallRef × String) := []

abbrev GenM := StateM GenState

/-! ## Blocks -/

/-- `ir_bb_new`. -/
def bbNew (label : String) : GenM Nat := fun s =>
  (s.blocks.length,
    { s with blocks := s.blocks ++ [{ label := some label }], currentBb := s.blocks.length })

/-- `ir_set_current_bb`. -/
def setCurrentBb (bb : Nat) : GenM Unit := fun s => ((), { s with currentBb := bb })

def currentBb : GenM Nat := fun s => (s.currentBb, s)

/-- The last instruction of the current block is a `ret`, `jmp` or `br`. -/
def terminated : GenM Bool := fun s =>
  (match s.blocks[s.currentBb]? with
    | some bb => bb.last.any IrInst.isTerminator
    | none => false, s)

/-! ## Instructions -/

/-- The opcodes that produce no value. -/
def noResult (op : IrOpcode) : Bool :=
  op == .store || op == .ret || op == .br || op == .jmp || op == .print || op == .nop

/-- Append an instruction to block `k`. -/
def appendInst (blocks : List IrBasicBlock) (k : Nat) (i : IrInst) : List IrBasicBlock :=
  blocks.modify k (fun bb => { bb with insts := bb.insts ++ [i] })

/-- `ir_inst_new`, with the fields that its caller fills in. -/
def instNew (i : IrInst) : GenM Int := fun s =>
  let id := if noResult i.op then -1 else s.nextValue
  (id,
    { s with
      blocks := appendInst s.blocks s.currentBb { i with id := id }
      nextValue := if noResult i.op then s.nextValue else s.nextValue + 1 })

def emitConstInt (v : BitVec 64) : GenM Int :=
  instNew { id := -1, op := .constInt, type := .i64, immInt := v }

def emitConstFloat (bits : BitVec 64) : GenM Int :=
  instNew { id := -1, op := .constFloat, type := .f64, immFloat := bits }

def emitConstString (s : String) : GenM Int :=
  instNew { id := -1, op := .constString, type := .string, immStr := some s }

def emitConstBool (b : Bool) : GenM Int :=
  instNew { id := -1, op := .constBool, type := .bool, immInt := if b then 1 else 0 }

def emitBinop (op : IrOpcode) (type : IrType) (lhs rhs : Int) : GenM Int :=
  instNew { id := -1, op := op, type := type, operands := [lhs, rhs] }

def emitUnary (op : IrOpcode) (type : IrType) (operand : Int) : GenM Int :=
  instNew { id := -1, op := op, type := type, operands := [operand] }

/-- The place of a type in the enumeration `IrType`. -/
def typeIndex : IrType → BitVec 64
  | .i64 => 0
  | .f64 => 1
  | .bool => 2
  | .string => 3
  | .void => 4
  | .ptr => 5
  | .struct => 6

def emitAlloca (type : IrType) : GenM Int :=
  instNew { id := -1, op := .alloca, type := .ptr, immInt := typeIndex type }

def emitLoad (type : IrType) (addr : Int) : GenM Int :=
  instNew { id := -1, op := .load, type := type, operands := [addr] }

def emitStore (value addr : Int) : GenM Unit := do
  let _ ← instNew { id := -1, op := .store, type := .void, operands := [value, addr] }

/-- A call carries at most 16 arguments. -/
def emitCall (callee : String) (retType : IrType) (args : List Int) : GenM Int :=
  instNew { id := -1, op := .call, type := retType, fnName := some callee
            callArgs := args.take 16 }

/-- `ir_emit_call` for a call of the source. -/
def emitSourceCall (ref : CallRef) (callee : String) (retType : IrType) (args : List Int) :
    GenM Int := do
  modify (fun s => { s with calls := s.calls ++ [(ref, callee)] })
  emitCall callee retType args

/-- The type of the result of a host call. -/
def hostResultType (qname : String) : IrType :=
  if qname ∈ ["string.concat", "string.from_int", "string.from_bool", "string.from_float"] then
    .string
  else if qname ∈ ["math.sqrt", "math.sin", "math.cos", "math.tan", "math.log", "math.exp",
      "math.pow"] then .f64
  else if qname ∈ ["string.contains", "string.starts_with", "string.ends_with"] then .bool
  else .i64

def emitHostCall (qname : String) (args : List Int) : GenM Int :=
  instNew { id := -1, op := .hostCall, type := hostResultType qname, fnName := some qname
            callArgs := args.take 16 }

def emitRet (value : Int) : GenM Unit := do
  let _ ← instNew { id := -1, op := .ret, type := .void, operands := [value] }

def emitRetVoid : GenM Unit := do
  let _ ← instNew { id := -1, op := .ret, type := .void }

def emitBr (cond : Int) (trueBb falseBb : Nat) : GenM Unit := do
  let _ ← instNew { id := -1, op := .br, type := .void, operands := [cond]
                    targetBb := trueBb, falseBb := falseBb }

def emitJmp (target : Int) : GenM Unit := do
  let _ ← instNew { id := -1, op := .jmp, type := .void, targetBb := target }

/-- `IR_MAX_PHI_ARGS`. -/
def maxPhiArgs : Nat := 8

/-- `ir_emit_phi` and the `ir_phi_add_incoming` that follow it. -/
def emitPhi (type : IrType) (incoming : List (Int × Nat)) : GenM Int :=
  instNew { id := -1, op := .phi, type := type
            phiArgs := (incoming.take maxPhiArgs).map (fun a => (a.1, (a.2 : Int))) }

def emitStrConcat (lhs rhs : Int) : GenM Int :=
  instNew { id := -1, op := .strConcat, type := .string, operands := [lhs, rhs] }

def emitPrint (value : Int) : GenM Unit := do
  let _ ← instNew { id := -1, op := .print, type := .void, operands := [value] }

def emitCast (target : IrType) (value : Int) : GenM Int :=
  instNew { id := -1, op := .cast, type := target, operands := [value] }

/-! ## Scopes -/

def maxScope : Nat := 32
def maxVars : Nat := 512
def maxLoopDepth : Nat := 16
def maxCatchDepth : Nat := 16

namespace Scope

/-- `irgen_scope_push`; at depth 32 it does nothing. -/
def push (s : Scope) : Scope :=
  if s.scopeStarts.length < maxScope then
    { s with scopeStarts := s.vars.length :: s.scopeStarts }
  else s

/-- `irgen_scope_pop`. -/
def pop (s : Scope) : Scope :=
  match s.scopeStarts with
  | [] => s
  | n :: starts => { vars := s.vars.drop (s.vars.length - n), scopeStarts := starts }

/-- `irgen_scope_add`; the 513th variable is dropped. -/
def add (s : Scope) (name : String) (addrId : Int) (type : IrType) : Scope :=
  if s.vars.length < maxVars then
    { s with vars := { name := name, addrId := addrId, type := type } :: s.vars }
  else s

/-- Mark the latest variable as a Json handle. -/
def markJson (s : Scope) : Scope :=
  match s.vars with
  | [] => s
  | v :: vs => { s with vars := { v with isJson := true } :: vs }

/-- `irgen_scope_lookup`: the latest binding of the name. -/
def lookup (s : Scope) (name : String) : Option Var := s.vars.find? (fun v => v.name == name)

end Scope

def scopePush : GenM Unit := modify (fun s => { s with scope := s.scope.push })

def scopePop : GenM Unit := modify (fun s => { s with scope := s.scope.pop })

def scopeAdd (name : String) (addrId : Int) (type : IrType) : GenM Unit :=
  modify (fun s => { s with scope := s.scope.add name addrId type })

/-- `irgen_loop_push`; at depth 16 it does nothing. -/
def loopPush (continueBb breakBb : Nat) : GenM Unit :=
  modify (fun s =>
    if s.loopStack.length < maxLoopDepth then
      { s with loopStack := ⟨continueBb, breakBb⟩ :: s.loopStack }
    else s)

/-- `irgen_loop_pop`. -/
def loopPop : GenM Unit := modify (fun s => { s with loopStack := s.loopStack.tail })

def catchPush (catchBb : Nat) (errAddr : Int) : GenM Unit :=
  modify (fun s => { s with catchStack := ⟨catchBb, errAddr⟩ :: s.catchStack })

def catchPop : GenM Unit := modify (fun s => { s with catchStack := s.catchStack.tail })

end Limceron.Gen
