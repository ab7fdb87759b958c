/-
# `Limceron.Native.Machine` — what the two native machines share

A native function runs on registers and a stack.  Addresses on the stack are
kept apart from integers: `stack off` is the address `off` bytes from the stack
pointer at entry, so the return address of the x86 stands at `stack 0` and the
stack grows towards the negative.  Every access is to an 8-byte cell.

Callees are outside.  What they may do to the caller is in `Callees`, functions
of everything that has been called so far: any result, anything in the registers
that are theirs, anything below the stack pointer.
-/
import Limceron.IR.Semantics

namespace Limceron.Native

/-- What a register or a cell of the stack holds. -/
inductive Datum where
  | junk
  | word (w : BitVec 64)
  | stack (off : Int)
  /-- The address of a string literal. -/
  | text (s : String)
  | retAddr
  deriving DecidableEq, Repr

/-- A call with the values of its arguments. -/
structure NativeEvent where
  symbol : String
  args : List Datum
  deriving DecidableEq, Repr

/-- The behaviour of the callees, and of memory outside of the stack. -/
structure Callees (Reg : Type) where
  result : List NativeEvent → BitVec 64
  regs : List NativeEvent → Reg → Datum
  stack : List NativeEvent → Int → Datum
  load : List NativeEvent → Datum → Datum

namespace Datum

/-- An operation on integers; on anything else its result is junk. -/
def lift (f : BitVec 64 → BitVec 64 → BitVec 64) : Datum → Datum → Datum
  | word a, word b => word (f a b)
  | _, _ => junk

/-- Addition, also to an address on the stack. -/
def add : Datum → Datum → Datum
  | word a, word b => word (a + b)
  | stack o, word b => stack (o + b.toInt)
  | word a, stack o => stack (o + a.toInt)
  | _, _ => junk

def sub : Datum → Datum → Datum
  | word a, word b => word (a - b)
  | stack o, word b => stack (o - b.toInt)
  | _, _ => junk

/-- An operation on one integer. -/
def map (f : BitVec 64 → BitVec 64) : Datum → Datum
  | word a => word (f a)
  | _ => junk

@[simp] theorem lift_word (f : BitVec 64 → BitVec 64 → BitVec 64) (a b : BitVec 64) :
    lift f (word a) (word b) = word (f a b) := rfl

@[simp] theorem add_word (a b : BitVec 64) : add (word a) (word b) = word (a + b) := rfl

@[simp] theorem sub_word (a b : BitVec 64) : sub (word a) (word b) = word (a - b) := rfl

@[simp] theorem map_word (f : BitVec 64 → BitVec 64) (a : BitVec 64) :
    map f (word a) = word (f a) := rfl

end Datum

/-- Signed comparisons, as condition codes. -/
inductive Cond where
  | eq | ne | lt | gt | le | ge
  deriving DecidableEq, Repr

def Cond.holds (a b : BitVec 64) : Cond → Bool
  | .eq => a == b
  | .ne => a != b
  | .lt => a.slt b
  | .gt => b.slt a
  | .le => a.sle b
  | .ge => b.sle a

/-- The condition of a comparison; there is no other opcode it is used for. -/
def Cond.ofOp : IrOpcode → Cond
  | .cmpNe => .ne
  | .cmpLt => .lt
  | .cmpGt => .gt
  | .cmpLe => .le
  | .cmpGe => .ge
  | _ => .eq

/-! ## Frames -/

/-- A cell of the frame of a function, by what it is for. -/
inductive FrameCell (Reg : Type) where
  /-- The return address. -/
  | link
  | framePointer
  | register (r : Reg)
  | alloca (id : Int)
  | spill (vid : Int)
  deriving DecidableEq, Repr

/-- Cells for different purposes have no byte in common. -/
def CellsApart {Reg : Type} (cellAt : FrameCell Reg → Int → Prop) : Prop :=
  ∀ c d a b, cellAt c a → cellAt d b → c ≠ d → a + 8 ≤ b ∨ b + 8 ≤ a

end Limceron.Native
