/-
# `Limceron.Wasm.Emit` — function bodies of the emitted module

`emit_function_body` puts the blocks of an IR function into a dispatch loop:

```
  block $exit (loop $dispatch
    block $bb_{n-1} ( … block $bb_0 ( br_table $bb ) body 0 … ) body n-1
```

A branch to `$bb_k` lands behind the k-th block, where the body of basic block
`k` stands; every body ends by a return or by setting `$bb` and going round
again.  A phi is assigned by the block that jumps to it, one phi after the other.
-/
import Limceron.IR.WellFormed
import Limceron.Wasm.Machine

namespace Limceron.Wasm

/-- `WASM_MAX_LOCALS`. -/
def maxLocals : Int := 4096

/-! ## Values and their types -/

/-- `scan_function_values`: the type of a value, from its last definition. -/
def valueType (fn : IrFunction) (vid : Int) : IrType :=
  if vid < 0 ∨ maxLocals ≤ vid then .void
  else
    match fn.insts.reverse.find? (fun i => i.op.hasResult && i.id == vid) with
    | some i => if i.op = .alloca then .ptr else i.type
    | none =>
        match fn.params.reverse.find? (fun p => p.valueId == vid) with
        | some p => p.type
        | none => .void

/-- The type an emitter case reads for an operand. -/
def operandType (fn : IrFunction) (vid : Int) (default : IrType) : IrType :=
  if 0 ≤ vid ∧ vid < maxLocals then valueType fn vid else default

/-- `wasm_type_name` is `i32`. -/
def isI32 : IrType → Bool
  | .bool | .string | .ptr | .struct => true
  | _ => false

/-- The width of a load or store. -/
def accessBits : IrType → Nat
  | .bool | .ptr | .string => 32
  | _ => 64

/-! ## Instructions -/

def pushValue (vid : Int) : WInstr := .simple (emitGetValue vid)

def setValue (vid : Int) : WInstr := .simple (emitSetValue vid)

/-- The value of the first pair for `src`, unless it is negative. -/
def phiSource (src : Int) (inst : IrInst) : Option Int :=
  match inst.phiArgs.find? (fun a => a.2 == src) with
  | some a => if a.1 < 0 then none else some a.1
  | none => none

/-- `emit_phi_assignments` over the instructions of the target. -/
def phiCopies (src : Int) (insts : List IrInst) : List WInstr :=
  insts.flatMap fun inst =>
    if inst.op = .phi then
      match phiSource src inst with
      | some v => [pushValue v, setValue inst.id]
      | none => []
    else []

def emitPhiAssignments (fn : IrFunction) (src target : Int) : List WInstr :=
  match fn.blockInsts target with
  | some insts => phiCopies src insts
  | none => []

/-- Copies, then the block to dispatch to. -/
def emitEdge (fn : IrFunction) (src target : Int) : List WInstr :=
  emitPhiAssignments fn src target ++ [.simple (.const 32 target), .bbSet]

def intOp : IrOpcode → WBin
  | .add => .add
  | .sub => .sub
  | .mul => .mul
  | .div => .divS
  | .mod => .remS
  | .and => .and
  | .or => .or
  | .cmpEq => .eq
  | .cmpNe => .ne
  | .cmpLt => .ltS
  | .cmpGt => .gtS
  | .cmpLe => .leS
  | _ => .geS

def floatOp : IrOpcode → WFloat
  | .fadd => .add
  | .fsub => .sub
  | .fmul => .mul
  | .fdiv => .div
  | .cmpEq => .eq
  | .cmpNe => .ne
  | .cmpLt => .lt
  | .cmpGt => .gt
  | .cmpLe => .le
  | _ => .ge

/-- The comparison for an operand type. -/
def compareInstr (type : IrType) (op : IrOpcode) : WInstr :=
  match type with
  | .f64 => .float (floatOp op)
  | .bool | .ptr | .string => .bin 32 (intOp op)
  | _ => .bin 64 (intOp op)

/-- The conversion of `IR_CAST`, by the names of the two types. -/
def castInstrs (src dst : IrType) : List WInstr :=
  match src, dst with
  | .i64, .f64 => [.f64ConvertI64S]
  | .f64, .i64 => [.i64TruncF64S]
  | src, dst =>
      if src = .i64 ∧ isI32 dst then [.simple .i32WrapI64]
      else if isI32 src ∧ dst = .i64 then [.simple .i64ExtendI32S]
      else []

/-- `lcn_` in front of a name that does not have it. -/
def callSymbol (name : String) : String :=
  if "lcn_".toList.isPrefixOf name.toList then name
  else String.ofList ("lcn_".toList ++ name.toList)

/-- Push both operands, apply, store the result. -/
def emitBinary (inst : IrInst) (op : WInstr) : List WInstr :=
  [pushValue (inst.operand 0), pushValue (inst.operand 1), op, setValue inst.id]

/-- Take 8 bytes at the bump pointer. -/
def emitAlloca (id : Int) : List WInstr :=
  [.bumpGet, .localTee id, .simple (.const 32 8), .bin 32 .add, .bumpSet]

/-- `emit_instruction` in block `b`. -/
def emitInstruction (ctx : EmitCtx) (fn : IrFunction) (b : Nat) (inst : IrInst) : List WInstr :=
  match inst.op with
  | .constInt => [.simple (.const 64 inst.immInt.toInt), setValue inst.id]
  | .constBool => [.simple (.const 32 (if inst.immInt != 0 then 1 else 0)), setValue inst.id]
  | .constFloat => [.f64Const inst.immFloat, setValue inst.id]
  | .constString =>
      [.simple (.const 32 (stringPointer ctx (utf8 (inst.immStr.getD "")))), setValue inst.id]
  | .add | .sub | .mul | .div | .mod => emitBinary inst (.bin 64 (intOp inst.op))
  | .fadd | .fsub | .fmul | .fdiv => emitBinary inst (.float (floatOp inst.op))
  | .neg => [.simple (.const 64 0), pushValue (inst.operand 0), .bin 64 .sub, setValue inst.id]
  | .not =>
      [pushValue (inst.operand 0),
        .eqz (if operandType fn (inst.operand 0) .bool = .i64 then 64 else 32), setValue inst.id]
  | .cmpEq | .cmpNe | .cmpLt | .cmpGt | .cmpLe | .cmpGe =>
      emitBinary inst (compareInstr (operandType fn (inst.operand 0) .i64) inst.op)
  | .and | .or => emitBinary inst (.bin 32 (intOp inst.op))
  | .alloca => emitAlloca inst.id
  | .load =>
      [pushValue (inst.operand 0), .load (accessBits inst.type), setValue inst.id]
  | .store =>
      [pushValue (inst.operand 1), pushValue (inst.operand 0),
        .store (accessBits (operandType fn (inst.operand 0) .i64))]
  | .call =>
      let result := decide (0 ≤ inst.id ∧ inst.type ≠ .void)
      inst.callArgs.map pushValue ++
        .call (callSymbol (inst.fnName.getD "unknown")) inst.callArgs.length result ::
          (if result then [setValue inst.id] else [])
  | .hostCall => (emitHostCall ctx fn inst).map .simple
  | .ret =>
      (match inst.operands with
        | v :: _ => if 0 ≤ v then [pushValue v] else []
        | [] => []) ++ [.ret]
  | .br =>
      [pushValue (inst.operand 0),
        .ifElse (emitEdge fn b inst.targetBb) (emitEdge fn b inst.falseBb), .br .dispatch]
  | .jmp => emitEdge fn b inst.targetBb ++ [.br .dispatch]
  | .phi | .print => []
  | .strConcat => [pushValue (inst.operand 0), setValue inst.id]
  | .cast =>
      pushValue (inst.operand 0) ::
        (castInstrs (operandType fn (inst.operand 0) .i64) inst.type ++ [setValue inst.id])
  | .gep =>
      [pushValue (inst.operand 0), pushValue (inst.operand 1)] ++
        (if operandType fn (inst.operand 1) .i64 = .i64 then [.simple .i32WrapI64] else []) ++
        [.simple (.const 32 8), .bin 32 .mul, .bin 32 .add, setValue inst.id]
  | .nop => [.nop]

/-! ## Bodies -/

/-- The code of basic block `b` behind its label. -/
def emitBlock (ctx : EmitCtx) (fn : IrFunction) (b : Nat) (bb : IrBasicBlock) : List WInstr :=
  bb.insts.flatMap (emitInstruction ctx fn b) ++
    if bb.last.any IrInst.isTerminator then []
    else if b + 1 < fn.blocks.length then
      [.simple (.const 32 (b + 1 : Nat)), .bbSet, .br .dispatch]
    else [.br .exit]

/-- The innermost code: branch on `$bb`. -/
def dispatchTable (n : Nat) : List WInstr :=
  [.bbGet, .brTable ((List.range n).map .bb) .exit]

/-- The first `k` blocks, each behind the end of the `block` with its label. -/
def nestBlocks (table : List WInstr) (code : Nat → List WInstr) : Nat → List WInstr
  | 0 => table
  | k + 1 => .block (.bb k) (nestBlocks table code k) :: code k

/-- The code of block `b` of a function. -/
def blockCode (ctx : EmitCtx) (fn : IrFunction) (b : Nat) : List WInstr :=
  match fn.blocks[b]? with
  | some bb => emitBlock ctx fn b bb
  | none => [.br .exit]

/-- The body of the dispatch loop. -/
def dispatchBody (ctx : EmitCtx) (fn : IrFunction) : List WInstr :=
  nestBlocks (dispatchTable fn.blocks.length) (blockCode ctx fn) fn.blocks.length

/-- The value returned behind the dispatch loop. -/
def defaultReturn : IrType → List WInstr
  | .void => []
  | .f64 => [.f64Const 0]
  | .i64 => [.simple (.const 64 0)]
  | _ => [.simple (.const 32 0)]

/-- `emit_function_body`. -/
def emitFunctionBody (ctx : EmitCtx) (fn : IrFunction) : List WInstr :=
  [.simple (.const 32 0), .bbSet, .block .exit [.loop .dispatch (dispatchBody ctx fn)]] ++
    defaultReturn fn.returnType

def emitFunction (ctx : EmitCtx) (fn : IrFunction) : WFunc where
  params := fn.params.map (·.valueId)
  body := emitFunctionBody ctx fn

/-- The functions of the emitted module, by symbol. -/
def emitModule (m : IrModule) : WModule := fun symbol =>
  (m.lookup symbol).map (emitFunction (emitCtx m))

/-- The instance before the first call. -/
def initialStore (m : IrModule) (counters : Counters) : Store where
  mem := initialMemory (emitCtx m)
  bump := BitVec.ofNat 32 (bumpInit (emitCtx m))
  counters := counters

/-! ## Values -/

section
variable {fa : FloatArith} {host : WasmHost} {callee : String → List (BitVec 64) → Store → Res}
  {again : Label → List WInstr → St → Res}

theorem execSeq_pushValue {vid : Int} (h : 0 ≤ vid) (is : List WInstr) (st : St) :
    execSeq fa host callee again (pushValue vid :: is) st =
      execSeq fa host callee again is (st.push (st.locals vid)) := by
  rw [execSeq_cons, pushValue, emitGetValue, if_neg (Int.not_lt.mpr h)]
  rfl

theorem execSeq_setValue {vid : Int} (h : 0 ≤ vid) (is : List WInstr) (st : St) :
    execSeq fa host callee again (setValue vid :: is) st =
      execSeq fa host callee again is (st.pop.setLocal vid st.top) := by
  rw [execSeq_cons, setValue, emitSetValue, if_neg (Int.not_lt.mpr h)]
  rfl

theorem execSeq_const (bits : Nat) (c : Int) (is : List WInstr) (st : St) :
    execSeq fa host callee again (.simple (.const bits c) :: is) st =
      execSeq fa host callee again is (st.push ((BitVec.ofInt bits c).setWidth 64)) := rfl

theorem execSeq_bbSet (is : List WInstr) (st : St) :
    execSeq fa host callee again (.bbSet :: is) st =
      execSeq fa host callee again is { st.pop with bb := st.top.setWidth 32 } := rfl

theorem execSeq_br (l : Label) (is : List WInstr) (st : St) :
    execSeq fa host callee again (.br l :: is) st = .br l st := rfl

theorem execSeq_ret (is : List WInstr) (st : St) :
    execSeq fa host callee again (.ret :: is) st = .ret st.stack st.store := rfl

theorem execSeq_store (bits : Nat) (is : List WInstr) (st : St) :
    execSeq fa host callee again (.store bits :: is) st =
      (execStore bits st).andThen (execSeq fa host callee again is) := rfl

end

@[simp] theorem St.push_locals (st : St) (v : BitVec 64) : (st.push v).locals = st.locals := rfl

@[simp] theorem St.push_stack (st : St) (v : BitVec 64) : (st.push v).stack = v :: st.stack := rfl

@[simp] theorem St.push_store (st : St) (v : BitVec 64) : (st.push v).store = st.store := rfl

@[simp] theorem St.push_bb (st : St) (v : BitVec 64) : (st.push v).bb = st.bb := rfl

@[simp] theorem St.top_push (st : St) (v : BitVec 64) : (st.push v).top = v := rfl

@[simp] theorem St.below_push (st : St) (v : BitVec 64) : (st.push v).below = st.top := rfl

@[simp] theorem St.pop_push (st : St) (v : BitVec 64) : (st.push v).pop = st := rfl

@[simp] theorem St.setLocal_store (st : St) (id : Int) (v : BitVec 64) :
    (st.setLocal id v).store = st.store := rfl

@[simp] theorem St.setLocal_locals (st : St) (id : Int) (v : BitVec 64) :
    (st.setLocal id v).locals = Function.update st.locals id v := rfl

@[simp] theorem St.setLocal_stack (st : St) (id : Int) (v : BitVec 64) :
    (st.setLocal id v).stack = st.stack := rfl

@[simp] theorem St.setLocal_bb (st : St) (id : Int) (v : BitVec 64) :
    (st.setLocal id v).bb = st.bb := rfl

/-! ## The pieces of a body -/

def Instr.isImport : Instr → Bool
  | .callImport _ => true
  | _ => false

@[simp] theorem isImport_const (bits : Nat) (c : Int) : (Instr.const bits c).isImport = false := rfl

@[simp] theorem isImport_sub (bits : Nat) : (Instr.sub bits).isImport = false := rfl

@[simp] theorem isImport_i32Load : Instr.i32Load.isImport = false := rfl

@[simp] theorem isImport_i32WrapI64 : Instr.i32WrapI64.isImport = false := rfl

@[simp] theorem isImport_i64ExtendI32S : Instr.i64ExtendI32S.isImport = false := rfl

@[simp] theorem isImport_emitGetValue (vid : Int) : (emitGetValue vid).isImport = false := by
  rw [emitGetValue]
  split <;> rfl

@[simp] theorem isImport_emitSetValue (vid : Int) : (emitSetValue vid).isImport = false := by
  rw [emitSetValue]
  split <;> rfl

/-- Neither structured nor about the bump pointer or the host. -/
def WInstr.straight : WInstr → Bool
  | .simple i => !i.isImport
  | .bumpGet | .bumpSet | .block _ _ | .loop _ _ | .ifElse _ _ => false
  | _ => true

/-- What bodies are put together from. -/
inductive EmitPiece (ctx : EmitCtx) : List WInstr → Prop
  | single (i : WInstr) (h : i.straight = true) : EmitPiece ctx [i]
  | alloca (id : Int) : EmitPiece ctx (emitAlloca id)
  | callImport (s : HostCallSite) (h : s ∈ ctx.hostCalls) : EmitPiece ctx [.simple (.callImport s)]

/-- A host was called or a slot taken. -/
def StoreEvent.noted : StoreEvent → Bool
  | .slot _ | .host .. => true
  | .stored _ _ | .visit _ _ => false

/-- From `s` to `s'` the bump pointer has not moved, and neither has a slot been
taken nor a host been called. -/
structure Quiet (s s' : Store) : Prop where
  bump : s'.bump = s.bump
  events : ∃ es, s'.events = s.events ++ es ∧ ∀ e ∈ es, e.noted = false

namespace Quiet

theorem refl (s : Store) : Quiet s s := ⟨rfl, [], (List.append_nil _).symm, by simp⟩

theorem of_events {s s' : Store} (hbump : s'.bump = s.bump) (hevents : s'.events = s.events) :
    Quiet s s' :=
  ⟨hbump, [], by rw [hevents, List.append_nil], by simp⟩

theorem log (st : St) {e : StoreEvent} (h : e.noted = false) :
    Quiet st.store (st.log e).store :=
  ⟨rfl, [e], rfl, by simpa using h⟩

end Quiet

section
variable {fa : FloatArith} {host : WasmHost} {callee : String → List (BitVec 64) → Store → Res}
  {again : Label → List WInstr → St → Res}

theorem execLoad_quiet (bits : Nat) (st : St) : Quiet st.store (execLoad bits st).store := by
  simp only [execLoad]
  split <;> exact Quiet.refl _

theorem execStore_quiet (bits : Nat) (st : St) : Quiet st.store (execStore bits st).store := by
  simp only [execStore]
  split
  · exact ⟨rfl, _, rfl, by simp [StoreEvent.noted]⟩
  · exact Quiet.refl _

theorem execSimple_quiet {i : Instr} (h : i.isImport = false) (st : St) :
    Quiet st.store (execSimple host i st).store := by
  cases i with
  | i32Load => exact execLoad_quiet 32 st
  | ifReturn v =>
      rw [execSimple]
      split <;> exact Quiet.refl _
  | callImport site => cases h
  | globalSet g => exact Quiet.of_events rfl rfl
  | _ => exact Quiet.refl _

/-- Straight code is quiet, calls apart. -/
theorem execInstr_quiet {i : WInstr} (h : i.straight = true)
    (hcall : ∀ symbol argc result, i ≠ .call symbol argc result) (st : St) :
    Quiet st.store (execInstr fa host callee again i st).store := by
  cases i with
  | simple i => exact execSimple_quiet (by simpa [WInstr.straight] using h) st
  | bin bits op =>
      rw [execInstr]
      split <;> exact Quiet.refl _
  | load bits => exact execLoad_quiet bits st
  | store bits => exact execStore_quiet bits st
  | brTable targets default =>
      simp only [execInstr]
      exact Quiet.log _ rfl
  | call symbol argc result => exact absurd rfl (hcall symbol argc result)
  | bumpGet | bumpSet | block | loop | ifElse => cases h
  | _ => simp only [execInstr]; exact Quiet.refl _

/-- A call leaves the store its callee left. -/
theorem afterCall_store {I : Store → Prop} (st : St) (argc : Nat) (result : Bool) {r : Res}
    (h : I r.store) : I (st.afterCall argc result r).store := by
  cases r <;> exact h

/-- The slot is at the bump pointer, which moves on by 8. -/
theorem execSeq_emitAlloca (id : Int) (st : St) :
    execSeq fa host callee again (emitAlloca id) st =
      .next { st with
        locals := Function.update st.locals id (st.store.bump.setWidth 64)
        store := { st.store with
          bump := st.store.bump + 8#32
          events := st.store.events ++ [.slot st.store.bump] } } := by
  have hset : (((st.store.bump.setWidth 64).setWidth 32 + 8#32).setWidth 64).setWidth 32 =
      st.store.bump + 8#32 := by
    rw [BitVec.setWidth_setWidth_of_le _ (by decide), BitVec.setWidth_setWidth_of_le _ (by decide),
      BitVec.setWidth_eq, BitVec.setWidth_eq]
  simp only [emitAlloca, execSeq_cons, execSeq_nil, execInstr, execSimple, WBin.eval, St.push,
    St.log, St.setLocal, St.top, St.below, St.pop, St.pop2, List.headD_cons, List.tail_cons,
    Res.andThen_next]
  rw [← hset]
  rfl

/-- What a piece can do to the store. -/
theorem EmitPiece.keeps {ctx : EmitCtx} {I : Store → Prop}
    (hquiet : ∀ s s', I s → Quiet s s' → I s')
    (hslot : ∀ s, I s →
      I { s with bump := s.bump + 8#32, events := s.events ++ [.slot s.bump] })
    (hhost : ∀ site ∈ ctx.hostCalls, ∀ s args r mem, host s.events site args s.mem = (r, mem) →
      I s → I { s with mem := mem, events := s.events ++ [.host site args r s.mem mem] })
    {is : List WInstr} (h : EmitPiece ctx is) : KeepsStore fa host I is := by
  intro callee again hcallee st hst
  cases h with
  | alloca id =>
      rw [execSeq_emitAlloca]
      exact hslot st.store hst
  | callImport site hsite =>
      rw [execSeq_singleton]
      exact hhost site hsite st.store st.stack.reverse _ _ rfl hst
  | single i hi =>
      rw [execSeq_singleton]
      by_cases hcall : ∃ symbol argc result, i = .call symbol argc result
      · obtain ⟨symbol, argc, result, rfl⟩ := hcall
        rw [execInstr]
        exact afterCall_store st argc result (hcallee symbol _ st.store hst)
      · refine hquiet st.store _ hst (execInstr_quiet hi ?_ st)
        intro symbol argc result he
        exact hcall ⟨symbol, argc, result, he⟩

end

@[simp] theorem straight_pushValue (vid : Int) : (pushValue vid).straight = true := by
  simp [pushValue, WInstr.straight]

@[simp] theorem straight_setValue (vid : Int) : (setValue vid).straight = true := by
  simp [setValue, WInstr.straight]

theorem built_of_straight {ctx : EmitCtx} {is : List WInstr}
    (h : is.all WInstr.straight = true) : BuiltFrom (EmitPiece ctx) is :=
  .pieces fun i hi => .single i (List.all_eq_true.mp h i hi)

theorem emitEdge_built (ctx : EmitCtx) (fn : IrFunction) (src target : Int) :
    BuiltFrom (EmitPiece ctx) (emitEdge fn src target) := by
  refine .append ?_ (built_of_straight rfl)
  rw [emitPhiAssignments]
  split
  case h_1 insts _ =>
    refine .flatMap fun inst _ => ?_
    split
    · split
      · exact built_of_straight (by simp)
      · exact .nil
    · exact .nil
  case h_2 => exact .nil

/-- A host call is one of the registered sites. -/
theorem emitHostCall_built (ctx : EmitCtx) (fn : IrFunction) (inst : IrInst) :
    BuiltFrom (EmitPiece ctx) ((emitHostCall ctx fn inst).map .simple) := by
  have hfence : ∀ g code cost τ,
      ((emitFence g code cost τ).map WInstr.simple).all WInstr.straight = true := by
    intro g code cost τ
    rw [emitFence]
    split <;> rfl
  rw [emitHostCall]
  cases hlookup : hostCallLookup ctx (inst.fnName.getD "?") with
  | none => exact built_of_straight (by simp [WInstr.straight])
  | some s =>
      simp only [List.map_append, emitDispatch, List.map_flatMap]
      refine .append (built_of_straight (hfence _ _ _ _))
        (.append (built_of_straight (hfence _ _ _ _))
          (.append (built_of_straight (hfence _ _ _ _)) (.append (.append ?_ ?_) ?_)))
      · refine .flatMap fun o _ => built_of_straight ?_
        cases o <;> simp [emitOperand, WInstr.straight]
      · refine .cons (.callImport s (List.mem_of_find?_eq_some hlookup)) (built_of_straight ?_)
        split <;> rfl
      · exact built_of_straight (by simp [WInstr.straight])

theorem emitInstruction_built (ctx : EmitCtx) (fn : IrFunction) (b : Nat) (inst : IrInst) :
    BuiltFrom (EmitPiece ctx) (emitInstruction ctx fn b inst) := by
  cases hop : inst.op <;> simp only [emitInstruction, hop]
  case alloca => exact .piece (.alloca inst.id)
  case br =>
    exact .cons (.single _ (by simp)) (.append
      (.ifElse (emitEdge_built ctx fn b inst.targetBb) (emitEdge_built ctx fn b inst.falseBb))
      (built_of_straight rfl))
  case jmp => exact .append (emitEdge_built ctx fn b inst.targetBb) (built_of_straight rfl)
  case call =>
    refine .append (built_of_straight ?_) (.cons (.single _ rfl) ?_)
    · simp
    · split
      · exact built_of_straight (by simp)
      · exact .nil
  case hostCall => exact emitHostCall_built ctx fn inst
  case ret =>
    refine .append ?_ (built_of_straight rfl)
    split
    · split
      · exact built_of_straight (by simp)
      · exact .nil
    · exact .nil
  case cmpEq | cmpNe | cmpLt | cmpGt | cmpLe | cmpGe =>
    refine built_of_straight ?_
    cases operandType fn (inst.operand 0) .i64 <;>
      simp [emitBinary, compareInstr, pushValue, setValue, WInstr.straight]
  case cast =>
    refine .cons (.single _ (by simp)) (.append ?_ (built_of_straight (by simp)))
    cases operandType fn (inst.operand 0) .i64 <;> cases inst.type <;> exact built_of_straight rfl
  case gep =>
    refine .append (.append (built_of_straight (by simp)) ?_) (built_of_straight ?_)
    · split
      · exact built_of_straight rfl
      · exact .nil
    · simp [setValue, WInstr.straight]
  all_goals exact built_of_straight (by simp [emitBinary, pushValue, setValue, WInstr.straight])

theorem nestBlocks_built {ctx : EmitCtx} {table : List WInstr} {code : Nat → List WInstr}
    (ht : BuiltFrom (EmitPiece ctx) table) (hc : ∀ k, BuiltFrom (EmitPiece ctx) (code k))
    (k : Nat) :
    BuiltFrom (EmitPiece ctx) (nestBlocks table code k) := by
  induction k with
  | zero => exact ht
  | succ k ih => exact .append (.block (.bb k) ih) (hc k)

theorem blockCode_built (ctx : EmitCtx) (fn : IrFunction) (b : Nat) :
    BuiltFrom (EmitPiece ctx) (blockCode ctx fn b) := by
  rw [blockCode]
  split
  case h_1 bb _ =>
    refine .append (.flatMap fun inst _ => emitInstruction_built ctx fn b inst) ?_
    split
    · exact .nil
    · split <;> exact built_of_straight rfl
  case h_2 => exact built_of_straight rfl

theorem dispatchBody_built (ctx : EmitCtx) (fn : IrFunction) :
    BuiltFrom (EmitPiece ctx) (dispatchBody ctx fn) :=
  nestBlocks_built (built_of_straight rfl) (blockCode_built ctx fn) _

theorem emitFunctionBody_built (ctx : EmitCtx) (fn : IrFunction) :
    BuiltFrom (EmitPiece ctx) (emitFunctionBody ctx fn) := by
  refine .append ?_ (built_of_straight (by cases fn.returnType <;> rfl))
  refine .cons (.single _ rfl) (.cons (.single _ rfl) ?_)
  exact .block .exit (.loop .dispatch (dispatchBody_built ctx fn))

/-- Every function of an emitted module is put together from these pieces. -/
theorem emitModule_built (m : IrModule) (symbol : String) (f : WFunc)
    (h : emitModule m symbol = some f) : BuiltFrom (EmitPiece (emitCtx m)) f.body := by
  obtain ⟨fn, -, rfl⟩ := Option.map_eq_some_iff.mp h
  exact emitFunctionBody_built (emitCtx m) fn

end Limceron.Wasm
