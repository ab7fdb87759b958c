/-
# `Limceron.X86.Emit` — what `ir_emit_x86_function` writes

The text of a function is its prologue, the moves of the parameters, the blocks
in order, and an epilogue of its own unless the last block ends by a return:

```
pushq %rbp ; movq %rsp, %rbp ; pushq (callee-saved)… ; subq $frame, %rsp
…
popq (callee-saved)… ; leave ; ret
```

Slots are addressed from `%rbp`: the allocas from -8 on downwards, the spilled
values below.  Values in registers are where the allocator has put them; what a
single instruction needs besides goes through `%rax`, `%r11`, `%r10` and `%rdx`.
-/
import Limceron.X86.Asm

namespace Limceron.X86

/-! ## The frame -/

def maxValues : Int := 4096

/-- `X86Context`. -/
structure X86Context where
  fn : IrFunction
  allocs : List RegAlloc
  /-- 0 for what is no alloca. -/
  allocaOffsets : Int → Int := fun _ => 0
  frameSize : Int := 0

def usesReg (allocs : List RegAlloc) (r : X86Reg) : Bool := allocs.any fun a => a.reg == r

/-- The callee-saved registers in use. -/
def savedRegs (allocs : List RegAlloc) : List X86Reg := calleeSaved.filter (usesReg allocs)

/-- One instruction: the offset of an alloca, and how far the slots reach. -/
def allocaStep (st : Int × (Int → Int)) (inst : IrInst) : Int × (Int → Int) :=
  if inst.op = .alloca ∧ 0 ≤ inst.id ∧ inst.id < maxValues then
    (st.1 - 8, Function.update st.2 inst.id (st.1 - 8))
  else st

/-- The spilled values below the allocas, each as far down as its own offset says. -/
def placeSpills : Int → List RegAlloc → Int × List RegAlloc
  | off, [] => (off, [])
  | off, a :: as =>
      if a.reg = .spill then
        let r := placeSpills (off - 8) as
        (r.1, { a with spillOffset := off + a.spillOffset } :: r.2)
      else
        let r := placeSpills off as
        (r.1, a :: r.2)

/-- `(n + 15) & ~15`. -/
def roundUp16 (n : Int) : Int := (n + 15) / 16 * 16

/-- The size below the saved registers, for `saved` pushes besides `%rbp`. -/
def frameSizeFor (saved : Nat) (raw : Int) : Int :=
  let raw := if raw < 0 then 0 else raw
  let total : Int := 1 + saved
  let size :=
    if total % 2 = 0 then roundUp16 raw
    else if raw = 0 then 0
    else if (total * 8 + roundUp16 raw) % 16 ≠ 0 then roundUp16 raw + 8
    else roundUp16 raw
  if size = 0 ∧ 0 < raw then 16 else size

/-- `x86_compute_frame`. -/
def x86ComputeFrame (fn : IrFunction) (allocs : List RegAlloc) : X86Context :=
  let allocas := fn.insts.foldl allocaStep (0, fun _ => 0)
  let spills := placeSpills allocas.1 allocs
  { fn := fn
    allocs := spills.2
    allocaOffsets := allocas.2
    frameSize := frameSizeFor (savedRegs spills.2).length (-spills.1) }

/-! ## Moves -/

namespace X86Context

variable (ctx : X86Context)

/-- `x86_find_alloc`. -/
def find (vid : Int) : Option RegAlloc := ctx.allocs.find? fun a => a.valueId == vid

/-- The register of a value, if it has one. -/
def regOf (vid : Int) : Option X86Reg :=
  match ctx.find vid with
  | some a => if a.reg = .none ∨ a.reg = .spill then none else some a.reg
  | none => none

/-- `x86_emit_move_to_reg`. -/
def moveToReg (vid : Int) (target : X86Reg) : List Asm :=
  if vid < 0 then [.movImm 0 target]
  else
    match ctx.find vid with
    | some a =>
        if a.reg = target then []
        else if a.reg ≠ .none ∧ a.reg ≠ .spill then [.mov a.reg target]
        else if a.reg = .spill then [.load a.spillOffset target]
        else if vid < maxValues ∧ ctx.allocaOffsets vid ≠ 0 then
          [.lea (ctx.allocaOffsets vid) target]
        else [.movImm 0 target]
    | none =>
        if vid < maxValues ∧ ctx.allocaOffsets vid ≠ 0 then
          [.lea (ctx.allocaOffsets vid) target]
        else [.movImm 0 target]

/-- `x86_emit_store_from_reg`. -/
def storeFromReg (vid : Int) (src : X86Reg) : List Asm :=
  match ctx.find vid with
  | none => []
  | some a =>
      if a.reg ≠ .none ∧ a.reg ≠ .spill then
        if a.reg ≠ src then [.mov src a.reg] else []
      else if a.reg = .spill then [.store src a.spillOffset]
      else []

/-! ## Instructions -/

/-- Where a result is computed: its register, or `%rax`. -/
def dstOf (a : RegAlloc) : X86Reg := if a.reg ≠ .none ∧ a.reg ≠ .spill then a.reg else .rax

/-- Behind the computation, a spilled result goes to its slot. -/
def spillResult (a : RegAlloc) (vid : Int) : List Asm :=
  if dstOf a = .rax ∧ a.reg = .spill then ctx.storeFromReg vid .rax else []

/-- The cases that compute a result in place: nothing, if it has no allocation. -/
def computed (inst : IrInst) (code : X86Reg → List Asm) : List Asm :=
  match ctx.find inst.id with
  | none => []
  | some a => code (dstOf a) ++ ctx.spillResult a inst.id

/-- `IR_CONST_INT` and `IR_CONST_BOOL`. -/
def emitConst (inst : IrInst) (imm : BitVec 64) : List Asm :=
  match ctx.find inst.id with
  | none => []
  | some a =>
      if a.reg ≠ .none ∧ a.reg ≠ .spill then [.movImm imm a.reg]
      else if a.reg = .spill then [.movImmMem imm a.spillOffset]
      else []

/-- `IR_CONST_STRING`. -/
def emitConstString (inst : IrInst) : List Asm :=
  match ctx.find inst.id with
  | none => []
  | some a =>
      if a.reg ≠ .none ∧ a.reg ≠ .spill then [.leaText (inst.immStr.getD "") a.reg]
      else if a.reg = .spill then
        [.leaText (inst.immStr.getD "") .rax, .store .rax a.spillOffset]
      else []

/-- `IR_CONST_FLOAT`. -/
def emitConstFloat (inst : IrInst) : List Asm :=
  match ctx.find inst.id with
  | none => []
  | some a =>
      if a.reg ≠ .none ∧ a.reg ≠ .spill then [.movImm inst.immFloat a.reg]
      else if a.reg = .spill then [.movImm inst.immFloat .rax, .store .rax a.spillOffset]
      else []

/-- `IR_ADD`, `IR_SUB`, `IR_MUL`. -/
def emitArith (inst : IrInst) (op : AluOp) : List Asm :=
  ctx.computed inst fun dst =>
    ctx.moveToReg (inst.operand 0) dst ++
      match ctx.regOf (inst.operand 1) with
      | some r => [.alu op r dst]
      | none =>
          let scratch := if dst = .r11 then .r10 else .r11
          ctx.moveToReg (inst.operand 1) scratch ++ [.alu op scratch dst]

/-- `IR_AND`, `IR_OR`. -/
def emitLogic (inst : IrInst) (op : AluOp) : List Asm :=
  ctx.computed inst fun dst =>
    ctx.moveToReg (inst.operand 0) dst ++ ctx.moveToReg (inst.operand 1) .r11 ++
      [.alu op .r11 dst]

/-- `IR_DIV`, `IR_MOD`. -/
def emitDivision (inst : IrInst) (result : X86Reg) : List Asm :=
  match ctx.find inst.id with
  | none => []
  | some _ =>
      ctx.moveToReg (inst.operand 0) .rax ++ [.cqto] ++
        (match ctx.regOf (inst.operand 1) with
          | some r =>
              if r ≠ .rax ∧ r ≠ .rdx then [.idiv r]
              else ctx.moveToReg (inst.operand 1) .r11 ++ [.idiv .r11]
          | none => ctx.moveToReg (inst.operand 1) .r11 ++ [.idiv .r11]) ++
        ctx.storeFromReg inst.id result

/-- `IR_NEG`, `IR_NOT`, `IR_CAST`. -/
def emitUnary (inst : IrInst) (code : X86Reg → List Asm) : List Asm :=
  ctx.computed inst fun dst => ctx.moveToReg (inst.operand 0) dst ++ code dst

/-- The comparisons. -/
def emitCompare (inst : IrInst) : List Asm :=
  match ctx.find inst.id with
  | none => []
  | some _ =>
      ctx.moveToReg (inst.operand 0) .rax ++ ctx.moveToReg (inst.operand 1) .r11 ++
        [.cmp .r11 .rax, .setcc (Native.Cond.ofOp inst.op)] ++ ctx.storeFromReg inst.id .rax

/-- The address is that of an alloca. -/
def isSlot (vid : Int) : Bool := decide (0 ≤ vid ∧ vid < maxValues ∧ ctx.allocaOffsets vid ≠ 0)

def emitAlloca (inst : IrInst) : List Asm :=
  match ctx.find inst.id with
  | none => []
  | some a =>
      if a.reg ≠ .none ∧ a.reg ≠ .spill then [.lea (ctx.allocaOffsets inst.id) a.reg] else []

def emitLoad (inst : IrInst) : List Asm :=
  ctx.computed inst fun dst =>
    if ctx.isSlot (inst.operand 0) then [.load (ctx.allocaOffsets (inst.operand 0)) dst]
    else ctx.moveToReg (inst.operand 0) .r11 ++ [.loadInd dst]

def emitStore (inst : IrInst) : List Asm :=
  ctx.moveToReg (inst.operand 0) .rax ++
    if ctx.isSlot (inst.operand 1) then [.store .rax (ctx.allocaOffsets (inst.operand 1))]
    else ctx.moveToReg (inst.operand 1) .r11 ++ [.storeInd]

/-- The arguments from the seventh on, the last one first. -/
def pushArgs (args : List Int) : List Asm :=
  (args.drop 6).reverse.flatMap fun v => ctx.moveToReg v .rax ++ [.push .rax]

def emitCall (inst : IrInst) : List Asm :=
  (inst.callArgs.zip abiArgRegs).flatMap (fun av => ctx.moveToReg av.1 av.2) ++
    ctx.pushArgs inst.callArgs ++
    [.call (inst.fnName.getD "unknown") inst.callArgs.length] ++
    (if 6 < inst.callArgs.length then [.addRsp (8 * (inst.callArgs.length - 6 : Nat))] else []) ++
    (if 0 ≤ inst.id then ctx.storeFromReg inst.id .rax else [])

/-- Restore and return. -/
def epilogue : List Asm :=
  (savedRegs ctx.allocs).reverse.map .pop ++ [.leave, .ret]

def emitRet (inst : IrInst) : List Asm :=
  (match inst.operands with
    | v :: _ => if 0 ≤ v then ctx.moveToReg v .rax else []
    | [] => []) ++ ctx.epilogue

/-- The format for a value, by the type of the instruction with its id. -/
def printFormat (vid : Int) : String :=
  match irFindInst ctx.fn vid with
  | some i =>
      match i.type with
      | .string => "%s\n"
      | .f64 => "%g\n"
      | _ => "%lld\n"
  | none => "%lld\n"

def emitPrint (inst : IrInst) : List Asm :=
  ctx.moveToReg (inst.operand 0) .rsi ++
    [.leaText (ctx.printFormat (inst.operand 0)) .rdi, .movImm 0 .rax, .call "printf" 2]

def emitStrConcat (inst : IrInst) : List Asm :=
  ctx.moveToReg (inst.operand 0) .rdi ++ ctx.moveToReg (inst.operand 1) .rsi ++
    [.call "lcn_str_concat" 2] ++
    (if 0 ≤ inst.id then ctx.storeFromReg inst.id .rax else [])

def emitGep (inst : IrInst) : List Asm :=
  ctx.computed inst fun dst =>
    ctx.moveToReg (inst.operand 0) dst ++ ctx.moveToReg (inst.operand 1) .r11 ++
      [.imulImm 8 .r11, .alu .add .r11 dst]

/-- `x86_emit_inst`. -/
def emitInst (inst : IrInst) : List Asm :=
  match inst.op with
  | .constInt | .constBool => ctx.emitConst inst inst.immInt
  | .constString => ctx.emitConstString inst
  | .constFloat => ctx.emitConstFloat inst
  | .add => ctx.emitArith inst .add
  | .sub => ctx.emitArith inst .sub
  | .mul => ctx.emitArith inst .imul
  | .div => ctx.emitDivision inst .rax
  | .mod => ctx.emitDivision inst .rdx
  | .neg => ctx.emitUnary inst fun dst => [.neg dst]
  | .not => ctx.emitUnary inst fun dst => [.xorImm 1 dst]
  | .cmpEq | .cmpNe | .cmpLt | .cmpGt | .cmpLe | .cmpGe => ctx.emitCompare inst
  | .and => ctx.emitLogic inst .and
  | .or => ctx.emitLogic inst .or
  | .alloca => ctx.emitAlloca inst
  | .load => ctx.emitLoad inst
  | .store => ctx.emitStore inst
  | .call => ctx.emitCall inst
  | .ret => ctx.emitRet inst
  | .br =>
      ctx.moveToReg (inst.operand 0) .rax ++ [.je inst.falseBb, .jmp inst.targetBb]
  | .jmp => [.jmp inst.targetBb]
  | .print => ctx.emitPrint inst
  | .strConcat => ctx.emitStrConcat inst
  | .cast => ctx.emitUnary inst fun _ => []
  | .gep => ctx.emitGep inst
  | .phi | .fadd | .fsub | .fmul | .fdiv | .nop | .hostCall => [.nop]

/-! ## Functions -/

def prologue : List Asm :=
  [.pushRbp, .movRspRbp] ++ (savedRegs ctx.allocs).map .push ++
    if 0 < ctx.frameSize then [.subRsp ctx.frameSize] else []

/-- The move of one parameter from its register. -/
def moveParam (vid : Int) (src : X86Reg) : List Asm :=
  match ctx.find vid with
  | some a =>
      if a.reg ≠ .none ∧ a.reg ≠ .spill then
        if a.reg ≠ src then [.mov src a.reg] else []
      else if a.reg = .spill then [.store src a.spillOffset]
      else []
  | none => []

/-- The first six parameters; the others are left where the caller has put them. -/
def moveParams : List Asm :=
  ((ctx.fn.params.map (·.valueId)).zip abiArgRegs).flatMap fun vr => ctx.moveParam vr.1 vr.2

def emitBlock (b : Nat) (bb : IrBasicBlock) : List Asm :=
  .label b :: bb.insts.flatMap ctx.emitInst

def emitBlocks : Nat → List IrBasicBlock → List Asm
  | _, [] => []
  | b, bb :: bbs => ctx.emitBlock b bb ++ emitBlocks (b + 1) bbs

/-- The epilogue behind a last block that does not end by a return. -/
def safetyEpilogue : List Asm :=
  match ctx.fn.blocks.getLast? with
  | none => []
  | some bb =>
      if bb.last.any (fun i => i.op == .ret) then [] else .movImm 0 .rax :: ctx.epilogue

def emitFunction : List Asm :=
  ctx.prologue ++ ctx.moveParams ++ ctx.emitBlocks 0 ctx.fn.blocks ++ ctx.safetyEpilogue

end X86Context

/-- The text of a function, for an assignment. -/
def emitWith (fn : IrFunction) (allocs : List RegAlloc) : List Asm :=
  (x86ComputeFrame fn allocs).emitFunction

/-- `ir_emit_x86_function`. -/
def irEmitX86Function (fn : IrFunction) : List Asm := emitWith fn (allocate fn)

end Limceron.X86
