/-
# `Limceron.X86.Frames` — the stack frame of an emitted x86-64 function

The frame hangs from the stack pointer at entry:

| address | |
| :-- | :-- |
| 0 | the return address |
| -8 | the saved `%rbp`; the new `%rbp` points here |
| -16, -24, … | the callee-saved registers in use, as they are pushed |
| -8 + offset | the slots of allocas and spilled values, offsets from -8 on downwards |

The slots and the pushed registers are laid out by two separate formulas from
the same place, and the size of the frame is made for a return address that is
not there.  `X86Context.Fits` is what a frame needs to work all the same, and
`X86Context.frameKept` that it works then: in every state of every run.
`Framed` is what that comes to for a function (`frame_works`).
-/
import Limceron.X86.Emit
import Limceron.Lib.Phases

namespace Limceron.X86

open Native

/-- How many arguments a call pushes; the two calls of the runtime push none. -/
def pushes (i : IrInst) : Option Nat :=
  match i.op with
  | .call => some (i.callArgs.length - 6)
  | .print | .strConcat => some 0
  | _ => none

namespace X86Context

variable (ctx : X86Context)

abbrev saved : List X86Reg := savedRegs ctx.allocs

/-- With `n` words pushed, the stack pointer is a multiple of 16 at a call. -/
def Aligned (n : Nat) : Prop := (8 * ctx.saved.length + ctx.frameSize + 8 * n) % 16 = 0

/-- A frame that works. -/
structure Fits : Prop where
  spills : ∀ a ∈ ctx.allocs, a.reg ≠ .spill
  slots : ∀ v, ctx.isSlot v = true →
    ctx.saved = [] ∧ -ctx.frameSize ≤ ctx.allocaOffsets v ∧ ctx.allocaOffsets v ≤ -8
  size : 0 ≤ ctx.frameSize ∧ (ctx.saved = [] ∨ ctx.frameSize = 0)
  calls : ∀ i ∈ ctx.fn.insts, ∀ n, pushes i = some n → ctx.Aligned n

/-! ## Phases -/

inductive Phase where
  | entry
  | linked
  /-- The registers pushed so far. -/
  | saving (done : List X86Reg)
  /-- The frame is complete, with `n` words pushed on top of it. -/
  | body (n : Nat)
  /-- The registers still to be popped. -/
  | restoring (left : List X86Reg)
  | left

/-- The body may change a callee-saved register only if it has been saved. -/
def Free (r : X86Reg) : Prop := r ∈ calleeSaved → r ∈ ctx.saved

def Slot (off : Int) : Prop := ∃ v, ctx.isSlot v = true ∧ ctx.allocaOffsets v = off

/-- Instructions that have nothing to do with the frame, except for its slots. -/
def Quiet : Asm → Prop
  | .movImm _ dst | .mov _ dst | .lea _ dst | .leaText _ dst | .loadInd dst | .alu _ _ dst
  | .imulImm _ dst | .xorImm _ dst | .neg dst => ctx.Free dst
  | .load off dst => ctx.Slot off ∧ ctx.Free dst
  | .movImmMem _ off | .store _ off => ctx.Slot off
  | .storeInd | .cqto | .idiv _ | .cmp _ _ | .setcc _ | .nop => True
  | _ => False

inductive Rule : Phase → Asm → Phase → Prop
  | pushRbp : Rule .entry .pushRbp .linked
  | movRspRbp : Rule .linked .movRspRbp (.saving [])
  | save {done : List X86Reg} {r : X86Reg} (hr : r ∈ calleeSaved) :
      Rule (.saving done) (.push r) (.saving (done ++ [r]))
  | reserve : Rule (.saving ctx.saved) (.subRsp ctx.frameSize) (.body 0)
  | quiet {n : Nat} {i : Asm} (hi : ctx.Quiet i) : Rule (.body n) i (.body n)
  | push {n : Nat} {r : X86Reg} : Rule (.body n) (.push r) (.body (n + 1))
  | drop {n k : Nat} : Rule (.body (n + k)) (.addRsp (8 * k)) (.body n)
  | call {n argc : Nat} {f : String} (ha : ctx.Aligned n) (hn : n = argc - 6) :
      Rule (.body n) (.call f argc) (.body n)
  | label {b : Nat} : Rule (.body 0) (.label b) (.body 0)
  | je {t : Int} : Rule (.body 0) (.je t) (.body 0)
  | jmp {t : Int} : Rule (.body 0) (.jmp t) (.body 0)
  | restore {left : List X86Reg} {r : X86Reg} :
      Rule (.restoring (left ++ [r])) (.pop r) (.restoring left)
  | leave : Rule (.restoring []) .leave .left
  | ret : Rule .left .ret (.body 0)

inductive Shift : Phase → Phase → Prop
  | reserve (h : ctx.frameSize = 0) : Shift (.saving ctx.saved) (.body 0)
  | epilogue : Shift (.body 0) (.restoring ctx.saved)

abbrev Flow : Phase → List Asm → Prop := Phases.Flow ctx.Rule ctx.Shift

variable {ctx}

/-! ## Quiet pieces -/

def Quiets (ctx : X86Context) (is : List Asm) : Prop := ∀ i ∈ is, ctx.Quiet i

theorem Quiets.nil : ctx.Quiets [] := by simp [Quiets]

theorem Quiets.cons {i : Asm} {is : List Asm} (hi : ctx.Quiet i) (his : ctx.Quiets is) :
    ctx.Quiets (i :: is) := List.forall_mem_cons.mpr ⟨hi, his⟩

theorem Quiets.append {is js : List Asm} (his : ctx.Quiets is) (hjs : ctx.Quiets js) :
    ctx.Quiets (is ++ js) := List.forall_mem_append.mpr ⟨his, hjs⟩

theorem Quiets.one {i : Asm} (hi : ctx.Quiet i) : ctx.Quiets [i] := .cons hi .nil

theorem Quiets.flow {is js : List Asm} (his : ctx.Quiets is) {n : Nat}
    (hjs : ctx.Flow (.body n) js) : ctx.Flow (.body n) (is ++ js) := by
  induction is with
  | nil => exact hjs
  | cons i is ih =>
      obtain ⟨hi, his⟩ := List.forall_mem_cons.mp his
      exact .cons (.quiet hi) (ih his)

theorem free_of_not_saved {r : X86Reg} (h : r ∉ calleeSaved) : ctx.Free r :=
  fun hr => absurd hr h

theorem free_of_mem {a : RegAlloc} (ha : a ∈ ctx.allocs) : ctx.Free a.reg := by
  intro hr
  refine List.mem_filter.mpr ⟨hr, List.any_eq_true.mpr ⟨a, ha, ?_⟩⟩
  exact beq_self_eq_true a.reg

theorem mem_of_find {vid : Int} {a : RegAlloc} (h : ctx.find vid = some a) : a ∈ ctx.allocs :=
  List.mem_of_find?_eq_some h

theorem slot_of_alloca {vid : Int} (h : ctx.isSlot vid = true) :
    ctx.Slot (ctx.allocaOffsets vid) := ⟨vid, h, rfl⟩

theorem free_dstOf {a : RegAlloc} (ha : a ∈ ctx.allocs) : ctx.Free (dstOf a) := by
  unfold dstOf
  split
  · exact free_of_mem ha
  · exact free_of_not_saved (by decide)

theorem quiets_alloca (inst : IrInst) : ctx.Quiets (ctx.emitAlloca inst) := by
  unfold emitAlloca
  split
  · exact .nil
  · rename_i a hfind
    split
    · exact .one (free_of_mem (mem_of_find hfind))
    · exact .nil

/-- The registers are popped in the order opposite to the pushes. -/
theorem flow_pops (left : List X86Reg) {is : List Asm} (h : ctx.Flow (.restoring []) is) :
    ctx.Flow (.restoring left) (left.reverse.map .pop ++ is) := by
  induction left using List.reverseRecOn with
  | nil => exact h
  | append_singleton left r ih =>
      rw [List.reverse_append]
      exact .cons .restore ih

theorem flow_epilogue {is : List Asm} (h : ctx.Flow (.body 0) is) :
    ctx.Flow (.body 0) (ctx.epilogue ++ is) := by
  rw [epilogue, List.append_assoc]
  exact .shift .epilogue (flow_pops ctx.saved (.cons .leave (.cons .ret h)))

section
variable (fits : ctx.Fits)
include fits

theorem quiets_moveToReg {t : X86Reg} (ht : ctx.Free t) (vid : Int) :
    ctx.Quiets (ctx.moveToReg vid t) := by
  unfold moveToReg
  split
  · exact .one ht
  · split
    · rename_i a hfind
      split
      · exact .nil
      · split
        · exact .one ht
        · split
          · rename_i hspill
            exact absurd hspill (fits.spills a (mem_of_find hfind))
          · split <;> exact .one ht
    · split <;> exact .one ht

theorem quiets_storeFromReg (vid : Int) (src : X86Reg) : ctx.Quiets (ctx.storeFromReg vid src) := by
  unfold storeFromReg
  split
  · exact .nil
  · rename_i a hfind
    split
    · split
      · exact .one (free_of_mem (mem_of_find hfind))
      · exact .nil
    · rw [if_neg (fits.spills a (mem_of_find hfind))]
      exact .nil

theorem quiets_moveParam (vid : Int) (src : X86Reg) : ctx.Quiets (ctx.moveParam vid src) := by
  unfold moveParam
  split
  · rename_i a hfind
    split
    · split
      · exact .one (free_of_mem (mem_of_find hfind))
      · exact .nil
    · rw [if_neg (fits.spills a (mem_of_find hfind))]
      exact .nil
  · exact .nil

theorem quiets_computed (inst : IrInst) {code : X86Reg → List Asm}
    (hcode : ∀ r, ctx.Free r → ctx.Quiets (code r)) : ctx.Quiets (ctx.computed inst code) := by
  unfold computed
  split
  · exact .nil
  · rename_i a hfind
    refine (hcode _ (free_dstOf (mem_of_find hfind))).append ?_
    unfold spillResult
    split
    · exact quiets_storeFromReg fits _ _
    · exact .nil

theorem quiets_const (inst : IrInst) (imm : BitVec 64) : ctx.Quiets (ctx.emitConst inst imm) := by
  unfold emitConst
  split
  · exact .nil
  · rename_i a hfind
    split
    · exact .one (free_of_mem (mem_of_find hfind))
    · rw [if_neg (fits.spills a (mem_of_find hfind))]
      exact .nil

theorem quiets_constString (inst : IrInst) : ctx.Quiets (ctx.emitConstString inst) := by
  unfold emitConstString
  split
  · exact .nil
  · rename_i a hfind
    split
    · exact .one (free_of_mem (mem_of_find hfind))
    · rw [if_neg (fits.spills a (mem_of_find hfind))]
      exact .nil

theorem quiets_constFloat (inst : IrInst) : ctx.Quiets (ctx.emitConstFloat inst) := by
  unfold emitConstFloat
  split
  · exact .nil
  · rename_i a hfind
    split
    · exact .one (free_of_mem (mem_of_find hfind))
    · rw [if_neg (fits.spills a (mem_of_find hfind))]
      exact .nil

theorem quiets_arith (inst : IrInst) (op : AluOp) : ctx.Quiets (ctx.emitArith inst op) := by
  refine quiets_computed fits inst (fun dst hdst => (quiets_moveToReg fits hdst _).append ?_)
  split
  · exact .one hdst
  · refine (quiets_moveToReg fits ?_ _).append (.one hdst)
    split <;> exact free_of_not_saved (by decide)

theorem quiets_logic (inst : IrInst) (op : AluOp) : ctx.Quiets (ctx.emitLogic inst op) := by
  refine quiets_computed fits inst (fun dst hdst => ?_)
  have hr11 : ctx.Free .r11 := free_of_not_saved (by decide)
  exact ((quiets_moveToReg fits hdst _).append (quiets_moveToReg fits hr11 _)).append (.one hdst)

theorem quiets_division (inst : IrInst) (result : X86Reg) :
    ctx.Quiets (ctx.emitDivision inst result) := by
  have hrax : ctx.Free .rax := free_of_not_saved (by decide)
  have hr11 : ctx.Free .r11 := free_of_not_saved (by decide)
  have hidiv : ∀ r, ctx.Quiet (.idiv r) := fun _ => trivial
  have hslow : ctx.Quiets (ctx.moveToReg (inst.operand 1) .r11 ++ [.idiv .r11]) :=
    (quiets_moveToReg fits hr11 _).append (.one (hidiv .r11))
  unfold emitDivision
  split
  · exact .nil
  · have hcqto : ctx.Quiet .cqto := trivial
    refine (((quiets_moveToReg fits hrax _).append (.one hcqto)).append ?_).append
      (quiets_storeFromReg fits _ _)
    split
    · split
      · exact .one (hidiv _)
      · exact hslow
    · exact hslow

theorem quiets_unary (inst : IrInst) {code : X86Reg → List Asm}
    (hcode : ∀ r, ctx.Free r → ctx.Quiets (code r)) : ctx.Quiets (ctx.emitUnary inst code) :=
  quiets_computed fits inst (fun r hr => (quiets_moveToReg fits hr _).append (hcode r hr))

theorem quiets_compare (inst : IrInst) : ctx.Quiets (ctx.emitCompare inst) := by
  have hrax : ctx.Free .rax := free_of_not_saved (by decide)
  have hr11 : ctx.Free .r11 := free_of_not_saved (by decide)
  unfold emitCompare
  split
  · exact .nil
  · have hcmp : ctx.Quiet (.cmp .r11 .rax) := trivial
    have hset : ctx.Quiet (.setcc (Cond.ofOp inst.op)) := trivial
    exact (((quiets_moveToReg fits hrax _).append (quiets_moveToReg fits hr11 _)).append
      (.cons hcmp (.one hset))).append (quiets_storeFromReg fits _ _)

theorem quiets_load (inst : IrInst) : ctx.Quiets (ctx.emitLoad inst) := by
  refine quiets_computed fits inst (fun dst hdst => ?_)
  split
  · rename_i hslot
    exact .one ⟨slot_of_alloca hslot, hdst⟩
  · exact (quiets_moveToReg fits (free_of_not_saved (by decide)) _).append (.one hdst)

theorem quiets_store (inst : IrInst) : ctx.Quiets (ctx.emitStore inst) := by
  refine (quiets_moveToReg fits (free_of_not_saved (by decide)) _).append ?_
  split
  · rename_i hslot
    exact .one (slot_of_alloca hslot)
  · exact (quiets_moveToReg fits (free_of_not_saved (by decide)) _).append (.one trivial)

theorem quiets_gep (inst : IrInst) : ctx.Quiets (ctx.emitGep inst) := by
  refine quiets_computed fits inst (fun dst hdst => ?_)
  have hr11 : ctx.Free .r11 := free_of_not_saved (by decide)
  exact ((quiets_moveToReg fits hdst _).append (quiets_moveToReg fits hr11 _)).append
    (.cons hr11 (.one hdst))

/-! ## Calls, returns and branches -/

theorem flow_pushArgs (args : List Int) {n : Nat} {is : List Asm}
    (h : ctx.Flow (.body (n + args.length)) is) :
    ctx.Flow (.body n) (args.flatMap (fun v => ctx.moveToReg v .rax ++ [.push .rax]) ++ is) := by
  induction args generalizing n with
  | nil => exact h
  | cons v args ih =>
      have hlen : n + (v :: args).length = n + 1 + args.length := by
        rw [List.length_cons]
        omega
      rw [List.flatMap_cons, List.append_assoc, List.append_assoc]
      refine (quiets_moveToReg fits (free_of_not_saved (by decide)) v).flow ?_
      exact .cons .push (ih (hlen ▸ h))

theorem quiets_args (args : List Int) :
    ctx.Quiets ((args.zip abiArgRegs).flatMap fun av => ctx.moveToReg av.1 av.2) := by
  intro i hi
  obtain ⟨av, hav, hi⟩ := List.mem_flatMap.mp hi
  have hreg : ∀ r ∈ abiArgRegs, r ∉ calleeSaved := by decide
  have hfree : ctx.Free av.2 := free_of_not_saved (hreg av.2 (List.of_mem_zip hav).2)
  exact quiets_moveToReg fits hfree av.1 i hi

theorem flow_call {inst : IrInst} (hcall : ctx.Aligned (inst.callArgs.length - 6)) {is : List Asm}
    (h : ctx.Flow (.body 0) is) : ctx.Flow (.body 0) (ctx.emitCall inst ++ is) := by
  have hres : ctx.Quiets (if 0 ≤ inst.id then ctx.storeFromReg inst.id .rax else []) := by
    split
    · exact quiets_storeFromReg fits _ _
    · exact .nil
  have hlen : 0 + (inst.callArgs.drop 6).reverse.length = inst.callArgs.length - 6 := by
    rw [List.length_reverse, List.length_drop, Nat.zero_add]
  unfold emitCall
  simp only [List.append_assoc]
  refine (quiets_args fits inst.callArgs).flow (flow_pushArgs fits _ ?_)
  rw [hlen]
  refine .cons (.call hcall rfl) ?_
  split
  · have hdrop : ctx.Rule (.body (0 + (inst.callArgs.length - 6)))
        (.addRsp (8 * (inst.callArgs.length - 6 : Nat))) (.body 0) := .drop
    rw [Nat.zero_add] at hdrop
    exact .cons hdrop (hres.flow h)
  · rw [show inst.callArgs.length - 6 = 0 by omega]
    exact hres.flow h

theorem flow_ret (inst : IrInst) {is : List Asm} (h : ctx.Flow (.body 0) is) :
    ctx.Flow (.body 0) (ctx.emitRet inst ++ is) := by
  rw [emitRet, List.append_assoc]
  refine Quiets.flow ?_ (flow_epilogue h)
  split
  · split
    · exact quiets_moveToReg fits (free_of_not_saved (by decide)) _
    · exact .nil
  · exact .nil

theorem flow_print {inst : IrInst} (hcall : ctx.Aligned 0) {is : List Asm}
    (h : ctx.Flow (.body 0) is) : ctx.Flow (.body 0) (ctx.emitPrint inst ++ is) := by
  have hrsi : ctx.Free .rsi := free_of_not_saved (by decide)
  have hrdi : ctx.Free .rdi := free_of_not_saved (by decide)
  have hrax : ctx.Free .rax := free_of_not_saved (by decide)
  rw [emitPrint, List.append_assoc]
  refine (quiets_moveToReg fits hrsi _).flow (.cons (.quiet hrdi) (.cons (.quiet hrax) ?_))
  exact .cons (.call hcall rfl) h

theorem flow_strConcat {inst : IrInst} (hcall : ctx.Aligned 0) {is : List Asm}
    (h : ctx.Flow (.body 0) is) : ctx.Flow (.body 0) (ctx.emitStrConcat inst ++ is) := by
  have hres : ctx.Quiets (if 0 ≤ inst.id then ctx.storeFromReg inst.id .rax else []) := by
    split
    · exact quiets_storeFromReg fits _ _
    · exact .nil
  have hrdi : ctx.Free .rdi := free_of_not_saved (by decide)
  have hrsi : ctx.Free .rsi := free_of_not_saved (by decide)
  unfold emitStrConcat
  simp only [List.append_assoc]
  refine (quiets_moveToReg fits hrdi _).flow ((quiets_moveToReg fits hrsi _).flow ?_)
  exact .cons (.call hcall rfl) (hres.flow h)

/-- The code of every instruction leads from a complete frame to a complete frame. -/
theorem flow_inst {inst : IrInst} (hi : inst ∈ ctx.fn.insts) {is : List Asm}
    (h : ctx.Flow (.body 0) is) : ctx.Flow (.body 0) (ctx.emitInst inst ++ is) := by
  have hcalls : ∀ n, pushes inst = some n → ctx.Aligned n := fits.calls inst hi
  have hnop : ctx.Flow (.body 0) ([.nop] ++ is) := .cons (.quiet trivial) h
  unfold emitInst
  cases hop : inst.op
  case constInt | constBool => exact (quiets_const fits inst _).flow h
  case constString => exact (quiets_constString fits inst).flow h
  case constFloat => exact (quiets_constFloat fits inst).flow h
  case add | sub | mul => exact (quiets_arith fits inst _).flow h
  case div | mod => exact (quiets_division fits inst _).flow h
  case neg => exact (quiets_unary fits inst (fun r hr => .one (i := .neg r) hr)).flow h
  case not => exact (quiets_unary fits inst (fun r hr => .one (i := .xorImm 1 r) hr)).flow h
  case cast => exact (quiets_unary fits inst (fun _ _ => .nil)).flow h
  case cmpEq | cmpNe | cmpLt | cmpGt | cmpLe | cmpGe => exact (quiets_compare fits inst).flow h
  case and | or => exact (quiets_logic fits inst _).flow h
  case alloca => exact (quiets_alloca inst).flow h
  case load => exact (quiets_load fits inst).flow h
  case store => exact (quiets_store fits inst).flow h
  case gep => exact (quiets_gep fits inst).flow h
  case call => exact flow_call fits (hcalls _ (by simp [pushes, hop])) h
  case print => exact flow_print fits (hcalls _ (by simp [pushes, hop])) h
  case strConcat => exact flow_strConcat fits (hcalls _ (by simp [pushes, hop])) h
  case ret => exact flow_ret fits inst h
  case br =>
    simp only [List.append_assoc]
    exact (quiets_moveToReg fits (free_of_not_saved (by decide)) _).flow
      (.cons .je (.cons .jmp h))
  case jmp => exact .cons .jmp h
  case phi | fadd | fsub | fmul | fdiv | nop | hostCall => exact hnop

theorem flow_blocks (b : Nat) (bbs : List IrBasicBlock) (hsub : ∀ bb ∈ bbs, bb ∈ ctx.fn.blocks)
    {is : List Asm} (h : ctx.Flow (.body 0) is) :
    ctx.Flow (.body 0) (ctx.emitBlocks b bbs ++ is) := by
  induction bbs generalizing b with
  | nil => exact h
  | cons bb bbs ih =>
      obtain ⟨hbb, hsub⟩ := List.forall_mem_cons.mp hsub
      rw [emitBlocks, emitBlock, List.append_assoc]
      refine .cons .label (Phases.Flow.flatMap bb.insts (fun i hi js hjs => ?_) (ih (b + 1) hsub))
      exact flow_inst fits (List.mem_flatMap.mpr ⟨bb, hbb, hi⟩) hjs

omit fits in
theorem flow_safetyEpilogue : ctx.Flow (.body 0) ctx.safetyEpilogue := by
  have hrax : ctx.Free .rax := free_of_not_saved (by decide)
  unfold safetyEpilogue
  split
  · exact .nil _
  · split
    · exact .nil _
    · refine .cons (.quiet hrax) ?_
      exact List.append_nil ctx.epilogue ▸ flow_epilogue (.nil _)

omit fits in
theorem flow_pushes (done todo : List X86Reg) (htodo : ∀ r ∈ todo, r ∈ calleeSaved)
    {is : List Asm} (h : ctx.Flow (.saving (done ++ todo)) is) :
    ctx.Flow (.saving done) (todo.map .push ++ is) := by
  induction todo generalizing done with
  | nil => exact List.append_nil done ▸ h
  | cons r todo ih =>
      obtain ⟨hr, htodo⟩ := List.forall_mem_cons.mp htodo
      refine .cons (.save hr) (ih _ htodo ?_)
      rwa [List.append_assoc]

/-- The text of the function goes through its phases. -/
theorem flow_function : ctx.Flow .entry ctx.emitFunction := by
  have hparams : ctx.Quiets ctx.moveParams := by
    intro i hi
    obtain ⟨vr, -, hi⟩ := List.mem_flatMap.mp hi
    exact quiets_moveParam fits vr.1 vr.2 i hi
  have hbody : ctx.Flow (.body 0)
      (ctx.moveParams ++ (ctx.emitBlocks 0 ctx.fn.blocks ++ ctx.safetyEpilogue)) :=
    hparams.flow (flow_blocks fits 0 ctx.fn.blocks (fun _ h => h) flow_safetyEpilogue)
  unfold emitFunction prologue
  simp only [List.append_assoc]
  refine .cons .pushRbp (.cons .movRspRbp ?_)
  refine flow_pushes [] ctx.saved (fun r hr => (List.mem_filter.mp hr).1) ?_
  split
  · exact .cons .reserve hbody
  · exact .shift (.reserve (Int.le_antisymm (by omega) fits.size.1)) hbody

end

/-! ## What the phases mean -/

/-- The cells of the frame hold what was put there: the return address, the old
`%rbp`, and the registers pushed so far. -/
structure Cells (e : State) (stack : Int → Datum) (done : List X86Reg) : Prop where
  link : stack 0 = .retAddr
  rbp : stack (-8) = e.rbp
  regs : ∀ (i : Nat) r, done[i]? = some r → stack (-16 - 8 * i) = e.regs r

/-- The callee-saved registers hold what they held at entry, but for `others`. -/
def Kept (e s : State) (others : List X86Reg) : Prop :=
  ∀ r ∈ calleeSaved, r ∉ others → s.regs r = e.regs r

def Inv (ctx : X86Context) (e : State) : Phase → State → Prop
  | .entry, s => s.rsp = 0 ∧ s.stack 0 = .retAddr ∧ s.rbp = e.rbp ∧ Kept e s []
  | .linked, s => s.rsp = -8 ∧ Cells e s.stack [] ∧ Kept e s []
  | .saving done, s =>
      s.rsp = -8 - 8 * done.length ∧ s.rbp = .stack (-8) ∧ Cells e s.stack done ∧ Kept e s []
  | .body n, s =>
      s.rsp = -8 - 8 * ctx.saved.length - ctx.frameSize - 8 * n ∧ s.rbp = .stack (-8) ∧
        Cells e s.stack ctx.saved ∧ Kept e s ctx.saved
  | .restoring left, s =>
      s.rsp = -8 - 8 * left.length - ctx.frameSize ∧ (left = [] ∨ ctx.frameSize = 0) ∧
        s.rbp = .stack (-8) ∧ Cells e s.stack left ∧ Kept e s left
  | .left, s => s.rsp = 0 ∧ s.rbp = e.rbp ∧ Kept e s []

/-- The state differs from another in what the body may change: other registers,
and the stack outside of the saved area. -/
structure Same (ctx : X86Context) (s s' : State) : Prop where
  rsp : s'.rsp = s.rsp
  rbp : s'.rbp = s.rbp
  rest : s'.rest = s.rest
  regs : ∀ r ∈ calleeSaved, r ∉ ctx.saved → s'.regs r = s.regs r
  stack : ∀ o : Int, -8 - 8 * ctx.saved.length ≤ o → o ≤ 0 → s'.stack o = s.stack o

theorem Same.setReg {s : State} {r : X86Reg} (hr : ctx.Free r) (d : Datum) :
    ctx.Same s (s.setReg r d) where
  rsp := rfl
  rbp := rfl
  rest := rfl
  regs q hq hns := by
    have hne : q ≠ r := by
      rintro rfl
      exact hns (hr hq)
    exact Function.update_of_ne hne d s.regs
  stack _ _ _ := rfl

theorem Same.trans {s s' s'' : State} (h : ctx.Same s s') (h' : ctx.Same s' s'') :
    ctx.Same s s'' where
  rsp := h'.rsp.trans h.rsp
  rbp := h'.rbp.trans h.rbp
  rest := h'.rest.trans h.rest
  regs r hr hns := (h'.regs r hr hns).trans (h.regs r hr hns)
  stack o hlo hhi := (h'.stack o hlo hhi).trans (h.stack o hlo hhi)

/-- The address is not one of the saved area. -/
def Outside (ctx : X86Context) (a : Datum) : Prop :=
  ∀ o, a = .stack o → o + 8 ≤ -8 - 8 * ctx.saved.length ∨ 8 ≤ o

theorem Same.writeMem {s : State} {a : Datum} (ha : ctx.Outside a) (d : Datum) :
    ctx.Same s (writeMem s a d) := by
  unfold Limceron.X86.writeMem
  split
  · rename_i o
    refine ⟨rfl, rfl, rfl, fun _ _ _ => rfl, fun o' hlo hhi => ?_⟩
    refine Function.update_of_ne (fun h : o' = o => ?_) d s.stack
    rcases ha o rfl with ho | ho <;> omega
  · exact ⟨rfl, rfl, rfl, fun _ _ _ => rfl, fun _ _ _ => rfl⟩

theorem outside_slot (fits : ctx.Fits) {off : Int} (h : ctx.Slot off) {s : State}
    (hrbp : s.rbp = .stack (-8)) : ctx.Outside (s.frameAddr off) := by
  obtain ⟨v, hv, rfl⟩ := h
  obtain ⟨hsaved, -, hoff⟩ := fits.slots v hv
  intro o ho
  rw [State.frameAddr, hrbp] at ho
  cases ho
  rw [hsaved, List.length_nil]
  exact .inl (by omega)

section
variable {out : Callees X86Reg} {code : List Asm}

theorem quiet_same (fits : ctx.Fits) {i : Asm} (hi : ctx.Quiet i) {s s' : State}
    (hrbp : s.rbp = .stack (-8)) (hstore : i = .storeInd → ctx.Outside (s.regs .r11))
    (h : exec out code i s = .next s') : ctx.Same s s' := by
  have hset : ∀ {r}, ctx.Free r → ∀ d, Outcome.next (s.setReg r d) = .next s' → ctx.Same s s' :=
    fun hr d heq => Outcome.next.inj heq ▸ .setReg hr d
  have hwrite : ∀ {a}, ctx.Outside a → ∀ d, Outcome.next (writeMem s a d) = .next s' →
      ctx.Same s s' := fun ha d heq => Outcome.next.inj heq ▸ .writeMem ha d
  have hrax : ctx.Free .rax := free_of_not_saved (by decide)
  have hrdx : ctx.Free .rdx := free_of_not_saved (by decide)
  have hsame : Outcome.next s = .next s' → ctx.Same s s' := by
    intro heq
    cases heq
    exact ⟨rfl, rfl, rfl, fun _ _ _ => rfl, fun _ _ _ => rfl⟩
  cases i <;> try exact hi.elim
  case movImm | mov | lea | leaText | loadInd | alu | imulImm | xorImm | neg => exact hset hi _ h
  case movImmMem imm off =>
    simp only [exec] at h
    split at h
    · exact hwrite (outside_slot fits hi hrbp) _ h
    · cases h
  case load => exact hset hi.2 _ h
  case store => exact hwrite (outside_slot fits hi hrbp) _ h
  case storeInd => exact hwrite (hstore rfl) _ h
  case cqto => exact hset hrdx _ h
  case idiv src =>
    simp only [exec, execIdiv] at h
    split at h
    · split at h
      · cases h
      · cases h
        exact (Same.setReg hrax _).trans (.setReg hrdx _)
    · cases h
      exact (Same.setReg hrax _).trans (.setReg hrdx _)
  case cmp =>
    cases h
    exact ⟨rfl, rfl, rfl, fun _ _ _ => rfl, fun _ _ _ => rfl⟩
  case setcc => exact hset hrax _ h
  case nop => exact hsame h

/-- A store through a register does not go to the saved area. -/
def Safe (ctx : X86Context) (s : State) : Prop :=
  ∀ is, s.rest = .storeInd :: is → ctx.Outside (s.regs .r11)

/-- Steps that are safe. -/
def SafeStep (ctx : X86Context) (out : Callees X86Reg) (code : List Asm) (s s' : State) : Prop :=
  ctx.Safe s ∧ step out code s = .next s'

theorem exec_of_step {s s' : State} {i : Asm} {is : List Asm} (hs : s.rest = i :: is)
    (h : step out code s = .next s') : exec out code i { s with rest := is } = .next s' := by
  rwa [step, hs] at h

theorem Inv.same {e s s' : State} {n : Nat} (h : ctx.Inv e (.body n) s) (hss : ctx.Same s s') :
    ctx.Inv e (.body n) s' := by
  obtain ⟨hrsp, hrbp, hcells, hkept⟩ := h
  refine ⟨hss.rsp.trans hrsp, hss.rbp.trans hrbp, ⟨?_, ?_, fun i r hr => ?_⟩, fun r hr hns => ?_⟩
  · exact (hss.stack 0 (by omega) (by omega)).trans hcells.link
  · exact (hss.stack (-8) (by omega) (by omega)).trans hcells.rbp
  · have hi : i < ctx.saved.length := (List.getElem?_eq_some_iff.mp hr).1
    exact (hss.stack _ (by omega) (by omega)).trans (hcells.regs i r hr)
  · exact (hss.regs r hr hns).trans (hkept r hr hns)

theorem Cells.of_append {e : State} {stack : Int → Datum} {done more : List X86Reg}
    (h : Cells e stack (done ++ more)) : Cells e stack done where
  link := h.link
  rbp := h.rbp
  regs i r hr := h.regs i r (by
    rw [List.getElem?_append_left (List.getElem?_eq_some_iff.mp hr).1]
    exact hr)

/-- What is pushed below the saved area leaves it as it is. -/
theorem Cells.pushed {e s : State} {done : List X86Reg} (h : Cells e s.stack done) (d : Datum)
    (hrsp : s.rsp ≤ -8 - 8 * done.length) : Cells e (s.pushed d).stack done := by
  have hne : ∀ o : Int, -8 - 8 * done.length ≤ o → (s.pushed d).stack o = s.stack o := by
    intro o ho
    have hlow : o ≠ s.rsp - 8 := by omega
    exact Function.update_of_ne hlow d s.stack
  refine ⟨(hne 0 (by omega)).trans h.link, (hne (-8) (by omega)).trans h.rbp, fun i r hr => ?_⟩
  have hi : i < done.length := (List.getElem?_eq_some_iff.mp hr).1
  exact (hne _ (by omega)).trans (h.regs i r hr)

/-- What a call returns to: the saved area is above the stack pointer. -/
theorem Inv.afterCall {e s : State} {n : Nat} (h : ctx.Inv e (.body n) s)
    (hsize : 0 ≤ ctx.frameSize) (ev : NativeEvent) :
    ctx.Inv e (.body n) (afterCall out s ev n) := by
  obtain ⟨hrsp, hrbp, hcells, hkept⟩ := h
  have hstack : ∀ o : Int, -8 - 8 * ctx.saved.length ≤ o →
      (Limceron.X86.afterCall out s ev n).stack o = s.stack o :=
    fun o ho => if_neg (by omega)
  refine ⟨hrsp, hrbp, ⟨?_, ?_, fun i r hr => ?_⟩, fun r hr hns => ?_⟩
  · exact (hstack 0 (by omega)).trans hcells.link
  · exact (hstack (-8) (by omega)).trans hcells.rbp
  · have hi : i < ctx.saved.length := (List.getElem?_eq_some_iff.mp hr).1
    exact (hstack _ (by omega)).trans (hcells.regs i r hr)
  · have hrax : r ≠ .rax := by
      rintro rfl
      exact absurd hr (by decide)
    refine Eq.trans ?_ (hkept r hr hns)
    show (if r = .rax then _ else if r ∈ calleeSaved then s.regs r else _) = s.regs r
    rw [if_neg hrax, if_pos hr]

theorem Inv.pop {e s : State} {left : List X86Reg} {r : X86Reg}
    (h : ctx.Inv e (.restoring (left ++ [r])) s) :
    ctx.Inv e (.restoring left) ({ s with rsp := s.rsp + 8 }.setReg r (s.stack s.rsp)) := by
  obtain ⟨hrsp, hor, hrbp, hcells, hkept⟩ := h
  have hsize : ctx.frameSize = 0 := hor.resolve_left (by simp)
  rw [List.length_append, List.length_singleton] at hrsp
  have hcell : s.stack s.rsp = e.regs r := by
    rw [show s.rsp = -16 - 8 * (left.length : Int) by omega]
    exact hcells.regs left.length r (by simp)
  refine ⟨?_, .inr hsize, hrbp, hcells.of_append, fun q hq hns => ?_⟩
  · show s.rsp + 8 = _
    omega
  · show Function.update s.regs r (s.stack s.rsp) q = e.regs q
    by_cases hqr : q = r
    · rw [hqr, Function.update_self, hcell]
    · rw [Function.update_of_ne hqr]
      exact hkept q hq (by simp [hns, hqr])

theorem Inv.save {e s : State} {done : List X86Reg} {r : X86Reg} (hr : r ∈ calleeSaved)
    (h : ctx.Inv e (.saving done) s) :
    ctx.Inv e (.saving (done ++ [r])) (s.pushed (s.regs r)) := by
  obtain ⟨hrsp, hrbp, hcells, hkept⟩ := h
  have hp : Cells e (s.pushed (s.regs r)).stack done := hcells.pushed _ (by omega)
  refine ⟨?_, hrbp, ⟨hp.link, hp.rbp, fun i q hq => ?_⟩, hkept⟩
  · show s.rsp - 8 = _
    rw [List.length_append, List.length_singleton]
    omega
  · by_cases hi : i < done.length
    · exact hp.regs i q (List.getElem?_append_left hi ▸ hq)
    · have hlen : i = done.length := by
        have hlt : i < (done ++ [r]).length := (List.getElem?_eq_some_iff.mp hq).1
        rw [List.length_append, List.length_singleton] at hlt
        omega
      obtain rfl : r = q := by simpa [hlen] using hq
      show Function.update s.stack (s.rsp - 8) (s.regs r) (-16 - 8 * i) = e.regs r
      rw [show s.rsp - 8 = -16 - 8 * (i : Int) by omega, Function.update_self]
      exact hkept r hr (List.not_mem_nil)

/-- Every step keeps to the phases. -/
theorem sound (fits : ctx.Fits) {e : State} (hcode : ctx.Flow .entry code) :
    Phases.Sound ctx.Rule ctx.Shift State.rest (ctx.SafeStep out code) (ctx.Inv e) where
  shift := by
    intro p q s hpq h
    cases hpq with
    | reserve h0 =>
        obtain ⟨hrsp, hrbp, hcells, hkept⟩ := h
        refine ⟨?_, hrbp, hcells, fun r hr _ => hkept r hr List.not_mem_nil⟩
        rw [h0, hrsp]
        simp
    | epilogue =>
        obtain ⟨hrsp, hrbp, hcells, hkept⟩ := h
        exact ⟨by simpa using hrsp, fits.size.2, hrbp, hcells, hkept⟩
  inst := by
    intro p q i is s s' hrule h hs hstep
    have hexec : exec out code i { s with rest := is } = .next s' := exec_of_step hs hstep.2
    have hjump : ∀ t rest, codeAt code t = some rest → ctx.Flow (.body 0) rest := by
      intro t rest hrest
      obtain ⟨pre, b, rfl⟩ := codeAt_some hrest
      refine hcode.behind fun p q hl => ?_
      cases hl with
      | label => rfl
      | quiet hq => exact hq.elim
    cases hrule with
    | pushRbp =>
        cases hexec
        obtain ⟨hrsp, hlink, hrbp, hkept⟩ := h
        refine .inl ⟨rfl, ?_, ⟨?_, ?_, nofun⟩, hkept⟩
        · show s.rsp - 8 = -8
          omega
        · have hlow : (0 : Int) ≠ s.rsp - 8 := by omega
          exact (Function.update_of_ne hlow s.rbp s.stack).trans hlink
        · show Function.update s.stack (s.rsp - 8) s.rbp (-8) = e.rbp
          rw [show s.rsp - 8 = -8 by omega, Function.update_self, hrbp]
    | movRspRbp =>
        cases hexec
        obtain ⟨hrsp, hcells, hkept⟩ := h
        exact .inl ⟨rfl, by simpa using hrsp, congrArg Datum.stack hrsp, hcells, hkept⟩
    | save hr =>
        cases hexec
        exact .inl ⟨rfl, Inv.save hr h⟩
    | reserve =>
        cases hexec
        obtain ⟨hrsp, hrbp, hcells, hkept⟩ := h
        refine .inl ⟨rfl, ?_, hrbp, hcells, fun r hr _ => hkept r hr List.not_mem_nil⟩
        show s.rsp - ctx.frameSize = _
        rw [hrsp]
        simp
    | quiet hq =>
        have hss : ctx.Same { s with rest := is } s' :=
          quiet_same fits hq h.2.1 (fun hi => hstep.1 is (hi ▸ hs)) hexec
        exact .inl ⟨hss.rest, Inv.same (s := { s with rest := is }) h hss⟩
    | @push n r =>
        cases hexec
        obtain ⟨hrsp, hrbp, hcells, hkept⟩ := h
        refine .inl ⟨rfl, ?_, hrbp, hcells.pushed _ ?_, hkept⟩
        · show s.rsp - 8 = _
          omega
        · have := fits.size.1
          omega
    | @drop n k =>
        cases hexec
        obtain ⟨hrsp, hrbp, hcells, hkept⟩ := h
        refine .inl ⟨rfl, ?_, hrbp, hcells, hkept⟩
        show s.rsp + 8 * k = _
        omega
    | call ha hn =>
        cases hexec
        exact .inl ⟨rfl, hn ▸ Inv.afterCall h fits.size.1 _⟩
    | label =>
        cases hexec
        exact .inl ⟨rfl, h⟩
    | je =>
        simp only [exec, execJe] at hexec
        split at hexec
        · split at hexec
          · split at hexec
            · rename_i hrest
              cases hexec
              exact .inr ⟨.body 0, hjump _ _ hrest, h⟩
            · cases hexec
          · cases hexec
            exact .inl ⟨rfl, h⟩
        · cases hexec
    | jmp =>
        simp only [exec] at hexec
        split at hexec
        · rename_i hrest
          cases hexec
          exact .inr ⟨.body 0, hjump _ _ hrest, h⟩
        · cases hexec
    | restore =>
        cases hexec
        exact .inl ⟨rfl, Inv.pop h⟩
    | leave =>
        obtain ⟨hrsp, -, hrbp, hcells, hkept⟩ := h
        simp only [exec, hrbp] at hexec
        cases hexec
        exact .inl ⟨rfl, rfl, hcells.rbp, hkept⟩
    | ret =>
        simp only [exec] at hexec
        split at hexec <;> cases hexec

end

/-! ## The frame in every state -/

/-- Where the cells of the frame are, from the stack pointer at entry. -/
inductive CellAt (ctx : X86Context) : FrameCell X86Reg → Int → Prop
  | link : CellAt ctx .link 0
  | framePointer : CellAt ctx .framePointer (-8)
  | register {i : Nat} {r : X86Reg} (h : ctx.saved[i]? = some r) :
      CellAt ctx (.register r) (-16 - 8 * i)
  | alloca {i : IrInst} (hi : i ∈ ctx.fn.insts) (hop : i.op = .alloca) (hid : 0 ≤ i.id) :
      CellAt ctx (.alloca i.id) (-8 + ctx.allocaOffsets i.id)
  | spill {a : RegAlloc} (ha : a ∈ ctx.allocs) (hreg : a.reg = .spill) :
      CellAt ctx (.spill a.valueId) (-8 + a.spillOffset)

/-- The offset from `%rbp` at which an instruction accesses memory. -/
def frameAccess : Asm → Option Int
  | .movImmMem _ off | .load off _ | .store _ off => some off
  | _ => none

/-- What is to hold of a state of a call whose state at entry is `e`. -/
structure FrameKept (ctx : X86Context) (e s : State) : Prop where
  aligned : ∀ f argc is, s.rest = .call f argc :: is → (s.rsp + 8) % 16 = 0
  /-- During a call the whole frame is above the stack pointer and the arguments. -/
  above : ∀ f argc is, s.rest = .call f argc :: is →
    ∀ c a, ctx.CellAt c a → s.rsp + 8 * (argc - 6 : Nat) ≤ a
  access : ∀ i is off, s.rest = i :: is → frameAccess i = some off →
    ∃ b, s.rbp = .stack b ∧ s.rsp ≤ b + off
  restored : ∀ is, s.rest = .ret :: is →
    s.rsp = 0 ∧ s.rbp = e.rbp ∧ ∀ r ∈ calleeSaved, s.regs r = e.regs r

variable {out : Callees X86Reg} {code : List Asm}

/-- The allocas of the function have their own slots. -/
structure SlotsApart (ctx : X86Context) : Prop where
  isSlot : ∀ i ∈ ctx.fn.insts, i.op = .alloca → 0 ≤ i.id → ctx.isSlot i.id = true
  apart : ∀ v w, ctx.isSlot v = true → ctx.isSlot w = true → v ≠ w →
    ctx.allocaOffsets v + 8 ≤ ctx.allocaOffsets w ∨ ctx.allocaOffsets w + 8 ≤ ctx.allocaOffsets v

theorem cell_above (fits : ctx.Fits) (hslots : ctx.SlotsApart) {c : FrameCell X86Reg} {a : Int}
    (hc : ctx.CellAt c a) : -8 - 8 * (ctx.saved.length : Int) - ctx.frameSize ≤ a := by
  have hsize := fits.size.1
  cases hc with
  | link => omega
  | framePointer => omega
  | register h =>
      have hi := (List.getElem?_eq_some_iff.mp h).1
      omega
  | alloca hi hop hid =>
      have hlow := (fits.slots _ (hslots.isSlot _ hi hop hid)).2.1
      omega
  | spill ha hreg => exact absurd hreg (fits.spills _ ha)

theorem cells_apart (fits : ctx.Fits) (hslots : ctx.SlotsApart) : CellsApart ctx.CellAt := by
  have hreg : ∀ {i : Nat} {r}, ctx.saved[i]? = some r → i < ctx.saved.length :=
    fun h => (List.getElem?_eq_some_iff.mp h).1
  have halloca : ∀ {i : IrInst}, i ∈ ctx.fn.insts → i.op = .alloca → 0 ≤ i.id →
      ctx.saved = [] ∧ ctx.allocaOffsets i.id ≤ -8 :=
    fun hi hop hid =>
      ⟨(fits.slots _ (hslots.isSlot _ hi hop hid)).1, (fits.slots _ (hslots.isSlot _ hi hop hid)).2.2⟩
  intro c d a b hc hd hne
  cases hc with
  | spill ha hspill => exact absurd hspill (fits.spills _ ha)
  | link =>
      cases hd with
      | link => exact absurd rfl hne
      | framePointer => exact .inr (by omega)
      | register h => exact .inr (by omega)
      | alloca hi hop hid => exact .inr (by have := (halloca hi hop hid).2; omega)
      | spill ha hspill => exact absurd hspill (fits.spills _ ha)
  | framePointer =>
      cases hd with
      | link => exact .inl (by omega)
      | framePointer => exact absurd rfl hne
      | register h => exact .inr (by omega)
      | alloca hi hop hid => exact .inr (by have := (halloca hi hop hid).2; omega)
      | spill ha hspill => exact absurd hspill (fits.spills _ ha)
  | @register i r h =>
      cases hd with
      | link => exact .inl (by omega)
      | framePointer => exact .inl (by omega)
      | @register j q h' =>
          have hij : i ≠ j := by
            rintro rfl
            exact hne (congrArg FrameCell.register (Option.some.inj (h.symm.trans h')))
          omega
      | alloca hi hop hid => simp [(halloca hi hop hid).1] at h
      | spill ha hspill => exact absurd hspill (fits.spills _ ha)
  | alloca hi hop hid =>
      have hlow := (halloca hi hop hid).2
      cases hd with
      | link => exact .inl (by omega)
      | framePointer => exact .inl (by omega)
      | register h => simp [(halloca hi hop hid).1] at h
      | alloca hj hop' hid' =>
          have hids := fun h => hne (congrArg FrameCell.alloca h)
          have hap := hslots.apart _ _ (hslots.isSlot _ hi hop hid) (hslots.isSlot _ hj hop' hid') hids
          omega
      | spill ha hspill => exact absurd hspill (fits.spills _ ha)

/-- In every state of a run the frame is as it should be. -/
theorem frameKept (fits : ctx.Fits) (hslots : ctx.SlotsApart) {e s : State}
    (he : Entry ctx.emitFunction e)
    (hrun : Relation.ReflTransGen (ctx.SafeStep out ctx.emitFunction) e s) :
    ctx.FrameKept e s := by
  have hflow : ctx.Flow .entry ctx.emitFunction := flow_function fits
  have hsound : Phases.Sound ctx.Rule ctx.Shift State.rest (ctx.SafeStep out ctx.emitFunction)
      (ctx.Inv e) := sound fits hflow
  have hne : ∀ s s', ctx.SafeStep out ctx.emitFunction s s' → s.rest ≠ [] := by
    rintro s s' ⟨-, hstep⟩ hnil
    rw [step, hnil] at hstep
    cases hstep
  have hwithin := hsound.run hne ⟨.entry, he.rest ▸ hflow, he.rsp, he.retAddr, rfl, fun _ _ _ => rfl⟩
    hrun
  refine ⟨fun f argc is hs => ?_, fun f argc is hs c a hc => ?_, fun i is off hs hacc => ?_,
    fun is hs => ?_⟩
  · obtain ⟨p, q, hrule, hinv, -⟩ := hsound.head hwithin hs
    cases hrule with
    | quiet h => exact h.elim
    | call ha hn =>
        have hal : (8 * (ctx.saved.length : Int) + ctx.frameSize + 8 * _) % 16 = 0 := ha
        rw [hinv.1]
        omega
  · obtain ⟨p, q, hrule, hinv, -⟩ := hsound.head hwithin hs
    cases hrule with
    | quiet h => exact h.elim
    | call ha hn =>
        have habove := cell_above fits hslots hc
        rw [hinv.1, ← hn]
        omega
  · obtain ⟨p, q, hrule, hinv, -⟩ := hsound.head hwithin hs
    have hslot : ∀ {n off}, ctx.Inv e (.body n) s → ctx.Slot off →
        ∃ b, s.rbp = .stack b ∧ s.rsp ≤ b + off := by
      rintro n _ ⟨hrsp, hrbp, -⟩ ⟨v, hv, rfl⟩
      have hlow := (fits.slots v hv).2.1
      exact ⟨-8, hrbp, by omega⟩
    cases hrule with
    | quiet h =>
        cases i <;> cases hacc
        · exact hslot hinv h
        · exact hslot hinv h.1
        · exact hslot hinv h
    | _ => cases hacc
  · obtain ⟨p, q, hrule, hinv, -⟩ := hsound.head hwithin hs
    cases hrule with
    | quiet h => exact h.elim
    | ret => exact ⟨hinv.1, hinv.2.1, fun r hr => hinv.2.2 r hr List.not_mem_nil⟩

end X86Context

/-! ## The frame of a function -/

/-- The instruction gets a slot. -/
def TakesSlot (i : IrInst) : Prop := i.op = .alloca ∧ 0 ≤ i.id ∧ i.id < maxValues

instance (i : IrInst) : Decidable (TakesSlot i) := inferInstanceAs (Decidable (_ ∧ _))

/-- The allocas that get a slot. -/
def slotAllocas (fn : IrFunction) : List IrInst := fn.insts.filter fun i => decide (TakesSlot i)

theorem allocaStep_of_slot {i : IrInst} (hi : TakesSlot i) (st : Int × (Int → Int)) :
    allocaStep st i = (st.1 - 8, Function.update st.2 i.id (st.1 - 8)) := if_pos hi

theorem allocaStep_of_not {i : IrInst} (hi : ¬ TakesSlot i) (st : Int × (Int → Int)) :
    allocaStep st i = st := if_neg hi

/-- What the walk over the allocas knows of the slots it has handed out. -/
structure SlotInv (top : Int) (offsets : Int → Int) : Prop where
  le_zero : top ≤ 0
  range : ∀ v, offsets v ≠ 0 → top ≤ offsets v ∧ offsets v ≤ -8
  apart : ∀ v w, offsets v ≠ 0 → offsets w ≠ 0 → v ≠ w →
    offsets v + 8 ≤ offsets w ∨ offsets w + 8 ≤ offsets v

theorem SlotInv.push {top : Int} {offsets : Int → Int} (h : SlotInv top offsets) (id : Int) :
    SlotInv (top - 8) (Function.update offsets id (top - 8)) := by
  have htop := h.le_zero
  have hcases : ∀ v, Function.update offsets id (top - 8) v ≠ 0 →
      (v = id ∧ Function.update offsets id (top - 8) v = top - 8) ∨
        (v ≠ id ∧ Function.update offsets id (top - 8) v = offsets v ∧ offsets v ≠ 0) := by
    intro v hv
    by_cases hvi : v = id
    · exact .inl ⟨hvi, hvi ▸ Function.update_self ..⟩
    · rw [Function.update_of_ne hvi] at hv ⊢
      exact .inr ⟨hvi, rfl, hv⟩
  refine ⟨by omega, fun v hv => ?_, fun v w hv hw hne => ?_⟩
  · rcases hcases v hv with ⟨-, heq⟩ | ⟨-, heq, hv'⟩
    · omega
    · have := h.range v hv'
      omega
  · rcases hcases v hv with ⟨hvi, heq⟩ | ⟨-, heq, hv'⟩ <;>
      rcases hcases w hw with ⟨hwi, heq'⟩ | ⟨-, heq', hw'⟩
    · exact absurd (hvi.trans hwi.symm) hne
    · have := h.range w hw'
      omega
    · have := h.range v hv'
      omega
    · rw [heq, heq']
      exact h.apart v w hv' hw' hne

theorem SlotInv.step {st : Int × (Int → Int)} (h : SlotInv st.1 st.2) (i : IrInst) :
    SlotInv (allocaStep st i).1 (allocaStep st i).2 := by
  unfold allocaStep
  split
  · exact h.push i.id
  · exact h

theorem SlotInv.walk (is : List IrInst) {st : Int × (Int → Int)} (h : SlotInv st.1 st.2) :
    SlotInv (is.foldl allocaStep st).1 (is.foldl allocaStep st).2 := by
  induction is generalizing st with
  | nil => exact h
  | cons i is ih => exact ih (h.step i)

/-- The walk goes down 8 bytes for every alloca that takes a slot. -/
theorem walk_top (is : List IrInst) (st : Int × (Int → Int)) :
    (is.foldl allocaStep st).1 = st.1 - 8 * (is.filter fun i => decide (TakesSlot i)).length := by
  induction is generalizing st with
  | nil => simp
  | cons i is ih =>
      rw [List.foldl_cons, ih]
      by_cases hi : TakesSlot i
      · rw [allocaStep_of_slot hi, List.filter_cons_of_pos (by simpa using hi), List.length_cons]
        show st.1 - 8 - _ = _
        omega
      · rw [allocaStep_of_not hi, List.filter_cons_of_neg (by simpa using hi)]

theorem walk_keeps (is : List IrInst) {st : Int × (Int → Int)} (hst : SlotInv st.1 st.2) {v : Int}
    (hv : st.2 v ≠ 0) : (is.foldl allocaStep st).2 v ≠ 0 := by
  induction is generalizing st with
  | nil => exact hv
  | cons i is ih =>
      refine ih (hst.step i) ?_
      by_cases hi : TakesSlot i
      · have htop := hst.le_zero
        rw [allocaStep_of_slot hi]
        show Function.update st.2 i.id (st.1 - 8) v ≠ 0
        by_cases hvi : v = i.id
        · rw [hvi, Function.update_self]
          omega
        · rwa [Function.update_of_ne hvi]
      · rwa [allocaStep_of_not hi]

/-- Every alloca that takes a slot has got one. -/
theorem walk_covers (is : List IrInst) {st : Int × (Int → Int)} (hst : SlotInv st.1 st.2) {i : IrInst}
    (hi : i ∈ is) (hslot : TakesSlot i) : (is.foldl allocaStep st).2 i.id ≠ 0 := by
  induction is generalizing st with
  | nil => simp at hi
  | cons j is ih =>
      rcases List.mem_cons.mp hi with rfl | hi
      · refine walk_keeps is (hst.step i) ?_
        have htop := hst.le_zero
        rw [allocaStep_of_slot hslot]
        show Function.update st.2 i.id (st.1 - 8) i.id ≠ 0
        rw [Function.update_self]
        omega
      · exact ih (hst.step j) hi

theorem walk_finds (is : List IrInst) {st : Int × (Int → Int)} {v : Int}
    (hv : (is.foldl allocaStep st).2 v ≠ 0) :
    st.2 v ≠ 0 ∨ ∃ i ∈ is, TakesSlot i := by
  induction is generalizing st with
  | nil => exact .inl hv
  | cons i is ih =>
      by_cases hi : TakesSlot i
      · exact .inr ⟨i, List.mem_cons_self, hi⟩
      · rw [List.foldl_cons, allocaStep_of_not hi] at hv
        exact (ih hv).imp_right (fun ⟨j, hj, h⟩ => ⟨j, List.mem_cons_of_mem i hj, h⟩)

theorem placeSpills_eq {allocs : List RegAlloc} (h : ∀ a ∈ allocs, a.reg ≠ .spill) (off : Int) :
    placeSpills off allocs = (off, allocs) := by
  induction allocs with
  | nil => rfl
  | cons a as ih =>
      obtain ⟨ha, has⟩ := List.forall_mem_cons.mp h
      rw [placeSpills, if_neg ha, ih has]

theorem frameSizeFor_zero (saved : Nat) : frameSizeFor saved 0 = 0 := by
  unfold frameSizeFor
  dsimp only
  have : roundUp16 0 = 0 := by decide
  split <;> simp_all

theorem frameSizeFor_slots {raw : Int} (h : 0 < raw) : frameSizeFor 0 raw = roundUp16 raw + 8 := by
  have hround : roundUp16 raw % 16 = 0 := Int.mul_emod_left _ _
  have hpos : raw ≤ roundUp16 raw := by
    unfold roundUp16
    omega
  unfold frameSizeFor
  simp only [if_neg (show ¬ raw < 0 by omega)]
  rw [if_neg (show ¬ ((1 : Int) + (0 : Nat)) % 2 = 0 by decide), if_neg (show raw ≠ 0 by omega),
    if_pos (show ((1 + ((0 : Nat) : Int)) * 8 + roundUp16 raw) % 16 ≠ 0 by omega), if_neg (by omega)]

/-- What a function needs for its frame to work: no spilled value, allocas or callee-saved
registers but not both, and words on the stack in pairs at a call. -/
structure Framed (fn : IrFunction) : Prop where
  spills : ∀ a ∈ allocate fn, a.reg ≠ .spill
  few : ∀ i ∈ fn.insts, i.op = .alloca → 0 ≤ i.id → i.id < maxValues
  apart : slotAllocas fn = [] ∨ savedRegs (allocate fn) = []
  parity : ∀ i ∈ fn.insts, ∀ n, pushes i = some n →
    ((savedRegs (allocate fn)).length + min 1 (slotAllocas fn).length + n) % 2 = 0

section Framed

variable {fn : IrFunction}

/-- The frame that is computed for the function. -/
def frameOf (fn : IrFunction) : X86Context := x86ComputeFrame fn (allocate fn)

theorem slotInv_new : SlotInv 0 fun _ => 0 :=
  ⟨le_rfl, fun _ hv => absurd rfl hv, fun _ _ hv => absurd rfl hv⟩

theorem slotInv_frame (fn : IrFunction) :
    SlotInv (-(8 * (slotAllocas fn).length)) (frameOf fn).allocaOffsets := by
  have hwalk := @SlotInv.walk fn.insts (0, fun _ => 0) slotInv_new
  rw [walk_top] at hwalk
  exact (Int.zero_sub _) ▸ hwalk

theorem Framed.allocs_eq (h : Framed fn) : (frameOf fn).allocs = allocate fn :=
  congrArg Prod.snd (placeSpills_eq h.spills _)

/-- With slots the frame is a word larger than they are, rounded up to 16 bytes. -/
theorem Framed.frameSize_eq (h : Framed fn) :
    (slotAllocas fn = [] ∧ (frameOf fn).frameSize = 0) ∨
      (slotAllocas fn ≠ [] ∧ savedRegs (allocate fn) = [] ∧
        (frameOf fn).frameSize = roundUp16 (8 * (slotAllocas fn).length) + 8) := by
  have htop : (fn.insts.foldl allocaStep (0, fun _ => 0)).1 = -(8 * (slotAllocas fn).length) :=
    (walk_top fn.insts (0, fun _ => 0)).trans (Int.zero_sub _)
  have hsize : (frameOf fn).frameSize =
      frameSizeFor (savedRegs (allocate fn)).length (8 * (slotAllocas fn).length) := by
    unfold frameOf x86ComputeFrame
    simp only [placeSpills_eq h.spills, htop, Int.neg_neg]
  by_cases hnil : slotAllocas fn = []
  · refine .inl ⟨hnil, hsize.trans ?_⟩
    rw [hnil]
    exact frameSizeFor_zero _
  · have hsaved := h.apart.resolve_left hnil
    have hpos := List.length_pos_of_ne_nil hnil
    refine .inr ⟨hnil, hsaved, hsize.trans ?_⟩
    rw [hsaved]
    exact frameSizeFor_slots (by omega)

theorem Framed.fits (h : Framed fn) : (frameOf fn).Fits := by
  have hinv := slotInv_frame fn
  have hround : ∀ n : Int, roundUp16 n % 16 = 0 ∧ n ≤ roundUp16 n := fun n => by
    unfold roundUp16
    omega
  obtain ⟨hmod, hle⟩ := hround (8 * (slotAllocas fn).length)
  refine ⟨h.allocs_eq ▸ h.spills, fun v hv => ?_, ?_, fun i hi n hn => ?_⟩
  · have hne : (frameOf fn).allocaOffsets v ≠ 0 := (of_decide_eq_true hv).2.2
    have hrange := hinv.range v hne
    rcases h.frameSize_eq with ⟨hnil, -⟩ | ⟨-, hsaved, hsize⟩
    · rw [hnil, List.length_nil] at hrange
      omega
    · rw [X86Context.saved, h.allocs_eq, hsize]
      exact ⟨hsaved, by omega, hrange.2⟩
  · rw [X86Context.saved, h.allocs_eq]
    rcases h.frameSize_eq with ⟨-, hsize⟩ | ⟨-, hsaved, hsize⟩
    · exact ⟨hsize.ge, .inr hsize⟩
    · exact ⟨by omega, .inl hsaved⟩
  · have hparity := h.parity i hi n hn
    rw [X86Context.Aligned, X86Context.saved, h.allocs_eq]
    rcases h.frameSize_eq with ⟨hnil, hsize⟩ | ⟨hnil, hsaved, hsize⟩
    · rw [hnil, List.length_nil] at hparity
      omega
    · have hpos := List.length_pos_of_ne_nil hnil
      rw [hsaved, List.length_nil] at hparity ⊢
      omega

theorem Framed.slotsApart (h : Framed fn) : (frameOf fn).SlotsApart := by
  refine ⟨fun i hi hop hid => ?_, fun v w hv hw hne => ?_⟩
  · have hlt := h.few i hi hop hid
    exact decide_eq_true ⟨hid, hlt, walk_covers fn.insts slotInv_new hi ⟨hop, hid, hlt⟩⟩
  · exact (slotInv_frame fn).apart v w (of_decide_eq_true hv).2.2 (of_decide_eq_true hw).2.2 hne

/-- The frame of an emitted function works, in every state of every run whose stores through
registers stay outside of what is saved. -/
theorem frame_works (h : Framed fn) :
    CellsApart (frameOf fn).CellAt ∧ ∀ (out : Callees X86Reg) (e s : State),
      Entry (irEmitX86Function fn) e →
      Relation.ReflTransGen ((frameOf fn).SafeStep out (irEmitX86Function fn)) e s →
      (frameOf fn).FrameKept e s :=
  ⟨X86Context.cells_apart h.fits h.slotsApart,
    fun _ _ _ he hrun => X86Context.frameKept h.fits h.slotsApart he hrun⟩

end Framed

/-- `fn twice(a: int) -> int { a + f(a) }` -/
def twiceFunction : IrFunction where
  name := "lcn_twice"
  returnType := .i64
  params := [⟨"a", .i64, 0⟩]
  nextValue := 3
  blocks :=
    [{ label := some "entry", insts :=
      [{ id := 1, op := .call, type := .i64, fnName := some "lcn_f", callArgs := [0] },
       { id := 2, op := .add, type := .i64, operands := [0, 1] },
       { id := -1, op := .ret, type := .void, operands := [2] }] }]

/-- A call of it, at entry. -/
def twiceEntry : State where
  regs := fun _ => .word 0
  rbp := .word 0
  rsp := 0
  stack := fun _ => .retAddr
  flags := (.word 0, .word 0)
  rest := irEmitX86Function twiceFunction
  trace := []

/-- Behind the first instruction. -/
theorem frame_works_twice : CellsApart (frameOf twiceFunction).CellAt ∧
    ∃ s : State, s.rsp = -8 ∧ (frameOf twiceFunction).FrameKept twiceEntry s := by
  have hparity : ∀ i ∈ twiceFunction.insts, pushes i = some 0 ∨ pushes i = none := by decide
  have hframed : Framed twiceFunction := by
    refine ⟨by decide, by decide, .inl (by decide), fun i hi n hn => ?_⟩
    rcases hparity i hi with h | h
    · obtain rfl : 0 = n := Option.some.inj (h.symm.trans hn)
      decide
    · exact nomatch h.symm.trans hn
  have hsafe : (frameOf twiceFunction).Safe twiceEntry := by
    intro is h
    have hcode : twiceEntry.rest.head? = some .pushRbp := rfl
    rw [h] at hcode
    exact nomatch Option.some.inj hcode
  obtain ⟨hcells, hruns⟩ := frame_works hframed
  refine ⟨hcells, _, rfl, hruns ⟨fun _ => 0, fun _ _ => .word 0, fun _ _ => .word 0,
    fun _ _ => .word 0⟩ twiceEntry _ ⟨rfl, rfl, rfl, rfl⟩ (.single ⟨hsafe, rfl⟩)⟩

end Limceron.X86
