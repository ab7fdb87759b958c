/-
# `Limceron.X86.Asm` — the assembly of the x86-64 back end

The instructions `ir_emit_x86.c` writes, with the operands they are written
with, and what each does.  The state keeps the rest of the text that is still to
be executed; a jump goes on behind its label.

A string literal is written by its text instead of by the number of its label.
At a call the state records the symbol and the values of as many arguments as
the IR call has: six in registers, the others on top of the stack.

The callee keeps `%rbx`, `%r12` to `%r15`, `%rbp` and the stack from behind its
arguments on.  Everything else it may overwrite.
-/
import Limceron.Native.Machine
import Limceron.X86.RegAlloc

namespace Limceron.X86

open Native

/-! ## Instructions -/

/-- `op src, dst` on two registers. -/
inductive AluOp where
  | add | sub | imul | and | or
  deriving DecidableEq, Repr

inductive Asm where
  | label (bb : Nat)
  | movImm (imm : BitVec 64) (dst : X86Reg)
  /-- `movq $imm, off(%rbp)` -/
  | movImmMem (imm : BitVec 64) (off : Int)
  | mov (src dst : X86Reg)
  /-- `movq off(%rbp), dst` -/
  | load (off : Int) (dst : X86Reg)
  /-- `movq src, off(%rbp)` -/
  | store (src : X86Reg) (off : Int)
  /-- `leaq off(%rbp), dst` -/
  | lea (off : Int) (dst : X86Reg)
  | leaText (s : String) (dst : X86Reg)
  /-- `movq (%r11), dst` -/
  | loadInd (dst : X86Reg)
  /-- `movq %rax, (%r11)` -/
  | storeInd
  | alu (op : AluOp) (src dst : X86Reg)
  | imulImm (imm : BitVec 64) (dst : X86Reg)
  | xorImm (imm : BitVec 64) (dst : X86Reg)
  | neg (dst : X86Reg)
  | cqto
  | idiv (src : X86Reg)
  /-- `cmpq src, dst` compares `dst` with `src`. -/
  | cmp (src dst : X86Reg)
  /-- `setcc %al`, then `movzbq %al, %rax`. -/
  | setcc (c : Cond)
  /-- `testq %rax, %rax`, then `je`. -/
  | je (target : Int)
  | jmp (target : Int)
  | push (src : X86Reg)
  | pop (dst : X86Reg)
  | pushRbp
  | movRspRbp
  | subRsp (n : Int)
  | addRsp (n : Int)
  | call (symbol : String) (argc : Nat)
  | leave
  | ret
  /-- `nop`, or a comment. -/
  | nop
  deriving DecidableEq, Repr

def abiArgRegs : List X86Reg := [.rdi, .rsi, .rdx, .rcx, .r8, .r9]

/-- The callee-saved registers, in the order of their pushes. -/
def calleeSaved : List X86Reg := [.rbx, .r12, .r13, .r14, .r15]

/-! ## States -/

structure State where
  regs : X86Reg → Datum
  rbp : Datum
  rsp : Int
  stack : Int → Datum
  /-- The operands of the last comparison, `dst` first. -/
  flags : Datum × Datum
  rest : List Asm
  trace : List NativeEvent

namespace State

def setReg (s : State) (r : X86Reg) (d : Datum) : State :=
  { s with regs := Function.update s.regs r d }

def setStack (s : State) (o : Int) (d : Datum) : State :=
  { s with stack := Function.update s.stack o d }

def pushed (s : State) (d : Datum) : State :=
  { s with rsp := s.rsp - 8, stack := Function.update s.stack (s.rsp - 8) d }

/-- The address `off(%rbp)`. -/
def frameAddr (s : State) (off : Int) : Datum :=
  match s.rbp with
  | .stack b => .stack (b + off)
  | .word w => .word (w + BitVec.ofInt 64 off)
  | _ => .junk

end State

inductive Outcome where
  | next (s : State)
  | ret (s : State)
  | trap (s : State)
  | stuck (s : State)

/-- The text behind the label of a block. -/
def codeAt (code : List Asm) (target : Int) : Option (List Asm) :=
  if target < 0 then none
  else
    match code.dropWhile (fun i => !decide (i = .label target.toNat)) with
    | [] => none
    | _ :: rest => some rest

theorem codeAt_some {code rest : List Asm} {target : Int} (h : codeAt code target = some rest) :
    ∃ pre b, code = pre ++ .label b :: rest := by
  unfold codeAt at h
  split at h
  · cases h
  · split at h
    · cases h
    · rename_i i is hdrop
      cases h
      have hhead := List.head_dropWhile_not
        (fun i => !decide (i = Asm.label target.toNat)) (l := code) (by simp [hdrop])
      simp only [hdrop, List.head_cons, Bool.not_eq_false', decide_eq_true_eq] at hhead
      subst hhead
      refine ⟨code.takeWhile (fun i => !decide (i = .label target.toNat)), target.toNat, ?_⟩
      rw [← hdrop]
      exact List.takeWhile_append_dropWhile.symm

section
variable (out : Callees X86Reg)

def readMem (s : State) (a : Datum) : Datum :=
  match a with
  | .stack o => s.stack o
  | a => out.load s.trace a

/-- A store; memory outside of the stack is not part of the state. -/
def writeMem (s : State) (a d : Datum) : State :=
  match a with
  | .stack o => s.setStack o d
  | _ => s

/-- The arguments of a call: registers, then the top of the stack. -/
def callValues (s : State) (argc : Nat) : List Datum :=
  (abiArgRegs.take argc).map s.regs ++
    (List.range (argc - 6)).map fun (k : Nat) => s.stack (s.rsp + 8 * k)

/-- Back from a callee with `n` arguments on the stack. -/
def afterCall (s : State) (e : NativeEvent) (n : Nat) : State :=
  let tr := s.trace ++ [e]
  { s with
    regs := fun r =>
      if r = .rax then .word (out.result tr)
      else if r ∈ calleeSaved then s.regs r
      else out.regs tr r
    stack := fun o => if o < s.rsp + 8 * n then out.stack tr o else s.stack o
    flags := (.junk, .junk)
    trace := tr }

def AluOp.eval : AluOp → Datum → Datum → Datum
  | .add, a, b => a.add b
  | .sub, a, b => a.sub b
  | .imul, a, b => a.lift (· * ·) b
  | .and, a, b => a.lift (· &&& ·) b
  | .or, a, b => a.lift (· ||| ·) b

/-- Divide `%rdx:%rax`, which `cqto` has made of `%rax`. -/
def execIdiv (s : State) (src : X86Reg) : Outcome :=
  match s.regs .rax, s.regs src with
  | .word a, .word b =>
      if divTraps a b then .trap s
      else .next ((s.setReg .rax (.word (a.sdiv b))).setReg .rdx (.word (a.srem b)))
  | _, _ => .next ((s.setReg .rax .junk).setReg .rdx .junk)

def execJe (code : List Asm) (s : State) (target : Int) : Outcome :=
  match s.regs .rax with
  | .word w =>
      if w = 0 then
        match codeAt code target with
        | some rest => .next { s with rest := rest }
        | none => .stuck s
      else .next s
  | _ => .stuck s

/-- A store of an immediate has room for 32 bits of it, sign-extended; with any
other the instruction does not exist. -/
def fitsImm32 (imm : BitVec 64) : Bool := (imm.setWidth 32).signExtend 64 == imm

/-- One instruction; `rest` is behind it already. -/
def exec (code : List Asm) (i : Asm) (s : State) : Outcome :=
  match i with
  | .label _ | .nop => .next s
  | .movImm imm dst => .next (s.setReg dst (.word imm))
  | .movImmMem imm off =>
      if fitsImm32 imm then .next (writeMem s (s.frameAddr off) (.word imm)) else .stuck s
  | .mov src dst => .next (s.setReg dst (s.regs src))
  | .load off dst => .next (s.setReg dst (readMem out s (s.frameAddr off)))
  | .store src off => .next (writeMem s (s.frameAddr off) (s.regs src))
  | .lea off dst => .next (s.setReg dst (s.frameAddr off))
  | .leaText t dst => .next (s.setReg dst (.text t))
  | .loadInd dst => .next (s.setReg dst (readMem out s (s.regs .r11)))
  | .storeInd => .next (writeMem s (s.regs .r11) (s.regs .rax))
  | .alu op src dst => .next (s.setReg dst (op.eval (s.regs dst) (s.regs src)))
  | .imulImm imm dst => .next (s.setReg dst ((s.regs dst).map (· * imm)))
  | .xorImm imm dst => .next (s.setReg dst ((s.regs dst).map (· ^^^ imm)))
  | .neg dst => .next (s.setReg dst ((s.regs dst).map (0 - ·)))
  | .cqto => .next (s.setReg .rdx ((s.regs .rax).map fun a => a.sshiftRight 63))
  | .idiv src => execIdiv s src
  | .cmp src dst => .next { s with flags := (s.regs dst, s.regs src) }
  | .setcc c => .next (s.setReg .rax (s.flags.1.lift (fun a b => boolWord (c.holds a b)) s.flags.2))
  | .je target => execJe code s target
  | .jmp target =>
      match codeAt code target with
      | some rest => .next { s with rest := rest }
      | none => .stuck s
  | .push src => .next (s.pushed (s.regs src))
  | .pop dst => .next ({ s with rsp := s.rsp + 8 }.setReg dst (s.stack s.rsp))
  | .pushRbp => .next (s.pushed s.rbp)
  | .movRspRbp => .next { s with rbp := .stack s.rsp }
  | .subRsp n => .next { s with rsp := s.rsp - n }
  | .addRsp n => .next { s with rsp := s.rsp + n }
  | .call symbol argc => .next (afterCall out s ⟨symbol, callValues s argc⟩ (argc - 6))
  | .leave =>
      match s.rbp with
      | .stack b => .next { s with rsp := b + 8, rbp := s.stack b }
      | _ => .stuck s
  | .ret => if s.stack s.rsp = .retAddr then .ret s else .stuck s

def step (code : List Asm) (s : State) : Outcome :=
  match s.rest with
  | [] => .stuck s
  | i :: rest => exec out code i { s with rest := rest }

/-- From one state to another by steps. -/
def Steps (code : List Asm) : State → State → Prop :=
  Relation.ReflTransGen fun s s' => step out code s = .next s'

end

/-- The state at entry: the return address is on top of the stack. -/
structure Entry (code : List Asm) (s : State) : Prop where
  rsp : s.rsp = 0
  retAddr : s.stack 0 = .retAddr
  rest : s.rest = code
  trace : s.trace = []

end Limceron.X86
