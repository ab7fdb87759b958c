/-
# `Limceron.IR.Syntax` — the SSA intermediate representation

The records of `ir.h`, field by field.  Three of C's encodings are spelled
differently and mean the same:

| C | here |
| :-- | :-- |
| an array with a count (`operands`, `call_args`, `phi_args`) | a list |
| a linked list (`next`) of instructions, blocks, functions | a list |
| `bb->id`, handed out by `next_bb++` as blocks are appended | the block's position |

SSA ids stay integers, with `-1` for "no value", because the passes compare
them with `==` and `>= 0`.  A `double` is carried as its 64 bits.
-/
import Mathlib.Data.List.Basic

namespace Limceron

inductive IrOpcode where
  | constInt | constFloat | constString | constBool
  | add | sub | mul | div | mod
  | fadd | fsub | fmul | fdiv
  | neg | not
  | cmpEq | cmpNe | cmpLt | cmpGt | cmpLe | cmpGe
  | and | or
  | alloca | load | store
  | call | hostCall | ret | br | jmp | phi
  | strConcat | print | cast | gep | nop
  deriving DecidableEq, Repr, Inhabited

inductive IrType where
  | i64 | f64 | bool | string | void | ptr | struct
  deriving DecidableEq, Repr, Inhabited

/-- `IrInst`.  `operands` holds the first `operand_count` entries of the C array. -/
structure IrInst where
  id : Int
  op : IrOpcode
  type : IrType
  operands : List Int := []
  immInt : BitVec 64 := 0
  immFloat : BitVec 64 := 0
  immStr : Option String := none
  fnName : Option String := none
  callArgs : List Int := []
  targetBb : Int := -1
  falseBb : Int := -1
  phiArgs : List (Int × Int) := []
  deriving DecidableEq, Repr, Inhabited

namespace IrInst

/-- `inst->operands[k]`; the slots past `operand_count` hold `-1`. -/
def operand (i : IrInst) (k : Nat) : Int := i.operands.getD k (-1)

/-- `br`, `jmp` and `ret` end a block. -/
def isTerminator (i : IrInst) : Bool :=
  i.op == .ret || i.op == .br || i.op == .jmp

end IrInst

structure IrBasicBlock where
  label : Option String := none
  insts : List IrInst := []
  deriving DecidableEq, Repr, Inhabited

/-- `bb->last`. -/
def IrBasicBlock.last (bb : IrBasicBlock) : Option IrInst := bb.insts.getLast?

structure IrParam where
  name : String
  type : IrType
  valueId : Int
  deriving DecidableEq, Repr, Inhabited

/-- `IrFunction`.  Block `k` of `blocks` is the block with id `k`; the first is
the entry.  `currentBb` and `nextValue` are the construction state. -/
structure IrFunction where
  name : String
  returnType : IrType
  params : List IrParam := []
  blocks : List IrBasicBlock := []
  currentBb : Option Nat := none
  nextValue : Int := 0
  deriving DecidableEq, Repr, Inhabited

structure IrModule where
  functions : List IrFunction := []
  deriving DecidableEq, Repr, Inhabited

/-- The instructions in textual order: block by block, as every pass walks them. -/
def IrFunction.insts (fn : IrFunction) : List IrInst :=
  fn.blocks.flatMap (·.insts)

/-- `ir_find_inst`: the textually first instruction with this id. -/
def irFindInst (fn : IrFunction) (id : Int) : Option IrInst :=
  fn.insts.find? (fun i => i.id == id)

/-- The function called `name`, as a call resolves it. -/
def IrModule.lookup (m : IrModule) (name : String) : Option IrFunction :=
  m.functions.find? (fun f => f.name == name)

end Limceron
