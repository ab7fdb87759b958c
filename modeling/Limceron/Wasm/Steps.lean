/-
# `Limceron.Wasm.Steps` — one instruction and the code emitted for it

Inside a block every instruction is simulated by its code (`stepSim`): the two
go on in related states, or both end, by a trap or for want of fuel, in a call.
A call is simulated by what its callee does, which is a hypothesis here
(`CalleeSim`).
-/
import Limceron.Wasm.Related
import Limceron.Wasm.Slots

namespace Limceron.Wasm

/-! ## Results -/

/-- Neither side returns. -/
def Halts : Outcome → Res → Prop
  | .trap _, .trap _ => True
  | .timeout _, .timeout _ => True
  | _, _ => False

/-- A function with this return type ends alike. -/
def Gives (τ : IrType) : Outcome → Res → Prop
  | .ret none _, .ret [] _ => τ = .void
  | .ret (some v) _, .ret [c] _ => τ ≠ .void ∧ Cell τ v c
  | .trap _, .trap _ => True
  | .timeout _, .timeout _ => True
  | _, _ => False

namespace Gives

variable {τ : IrType} {v : Val} {tr : Trace} {r : Res}

theorem retNone (h : Gives τ (.ret none tr) r) : τ = .void ∧ ∃ s, r = .ret [] s := by
  match r, h with
  | .ret [] s, hvoid => exact ⟨hvoid, s, rfl⟩

theorem retSome (h : Gives τ (.ret (some v) tr) r) :
    τ ≠ .void ∧ ∃ c s, r = .ret [c] s ∧ Cell τ v c := by
  match r, h with
  | .ret [c] s, ⟨hne, hcell⟩ => exact ⟨hne, c, s, rfl, hcell⟩

theorem trap (h : Gives τ (.trap tr) r) : ∃ s, r = .trap s := by
  match r, h with
  | .trap s, _ => exact ⟨s, rfl⟩

theorem timeout (h : Gives τ (.timeout tr) r) : ∃ s, r = .timeout s := by
  match r, h with
  | .timeout s, _ => exact ⟨s, rfl⟩

theorem not_stuck (h : Gives τ (.stuck tr) r) : False := by
  cases r <;> cases h

end Gives

/-- Nothing has been written above the bump pointer. -/
structure Ready (s : Store) : Prop where
  inside : s.bump.toNat ≤ memorySize
  zero : ∀ x, s.bump.toNat ≤ x → s.mem x = 0

/-- The arguments fit the parameters. -/
def ArgsFit (params : List IrParam) (cells : List (BitVec 64)) : Prop :=
  List.Forall₂ (fun pa c => pa.type.HasWord c) params cells

/-- The functions of a module, called where their slots fit, do the same. -/
def CalleeSim (m : IrModule) (callee : String → List Val → Trace → Outcome)
    (calleeLog : String → List Val → Trace → List RunEvent)
    (calleeMeets : String → List Val → Trace → Prop)
    (wcallee : String → List (BitVec 64) → Store → Res) : Prop :=
  ∀ name g cells tr s, m.lookup name = some g → ArgsFit g.params cells →
    calleeMeets name (cells.map .word) tr → Ready s →
    s.bump.toNat + 8 * slotCount (calleeLog name (cells.map .word) tr) ≤ memorySize →
    Gives g.returnType (callee name (cells.map .word) tr) (wcallee name cells s) ∧
      Ended s.bump.toNat s (calleeLog name (cells.map .word) tr) (wcallee name cells s).store

/-- A cast to bool finds a bool. -/
def CastKept (i : IrInst) (fr : Frame) : Prop :=
  i.type = .bool → fr.env (i.operand 0) = .word 0 ∨ fr.env (i.operand 0) = .word 1

/-- One instruction. -/
def StepSim (fn : IrFunction) (vars : Int → IrType) (base : Nat) (p : Point) (entry : Int → Val)
    (prev : Int) (s : Store) (log : List RunEvent) : Flow → Res → Prop
  | .next fr' _, .next st' =>
      (∃ tbl', Related fn vars base tbl' p.next entry prev fr' st') ∧ Ended base s log st'.store
  | .stop o, r => Halts o r ∧ Ended base s log r.store
  | _, _ => False

/-! ## The code of an instruction -/

section
variable {fa : FloatArith} {whost : WasmHost}
  {wcallee : String → List (BitVec 64) → Store → Res} {again : Label → List WInstr → St → Res}

theorem execSeq_emitBinary {inst : IrInst} (h0 : 0 ≤ inst.operand 0) (h1 : 0 ≤ inst.operand 1)
    (hid : 0 ≤ inst.id) (bits : Nat) (op : WBin) (st : St) :
    execSeq fa whost wcallee again (emitBinary inst (.bin bits op)) st =
      match op.eval ((st.locals (inst.operand 0)).setWidth bits)
        ((st.locals (inst.operand 1)).setWidth bits) with
      | some v => .next (st.setLocal inst.id v)
      | none => .trap st.store := by
  rw [emitBinary, execSeq_pushValue h0, execSeq_pushValue h1, execSeq_cons, execInstr]
  simp only [St.push_locals, St.below_push, St.top_push, St.push_store]
  cases op.eval ((st.locals (inst.operand 0)).setWidth bits)
      ((st.locals (inst.operand 1)).setWidth bits) with
  | none => rfl
  | some v =>
      rw [Res.andThen_next, execSeq_setValue hid]
      rfl

theorem execSeq_unary {inst : IrInst} {v : Int} (hv : 0 ≤ v) (hid : 0 ≤ inst.id) {i : WInstr}
    {c : BitVec 64} (st : St)
    (hi : execInstr fa whost wcallee again i (st.push (st.locals v)) = .next (st.push c)) :
    execSeq fa whost wcallee again [pushValue v, i, setValue inst.id] st =
      .next (st.setLocal inst.id c) := by
  rw [execSeq_pushValue hv, execSeq_cons, hi, Res.andThen_next, execSeq_setValue hid]
  rfl

/-- The arguments of a call end up on the stack, the last on top. -/
theorem execSeq_pushArgs {args : List Int} (h : ∀ v ∈ args, 0 ≤ v) (is : List WInstr) (st : St) :
    execSeq fa whost wcallee again (args.map pushValue ++ is) st =
      execSeq fa whost wcallee again is
        { st with stack := (args.map st.locals).reverse ++ st.stack } := by
  induction args generalizing st with
  | nil => rfl
  | cons v args ih =>
      rw [List.map_cons, List.cons_append, execSeq_pushValue (h v List.mem_cons_self),
        ih fun x hx => h x (List.mem_cons_of_mem v hx)]
      simp [St.push]

end

/-! ## Integers and bools -/

theorem intOp_eval (fa : FloatArith) {op : IrOpcode}
    (hop : op = .add ∨ op = .sub ∨ op = .mul ∨ op = .div ∨ op = .mod) (a b : BitVec 64) :
    evalBinop fa op (.word a) (.word b) =
      ((intOp op).eval (a.setWidth 64) (b.setWidth 64)).map .word := by
  rcases hop with rfl | rfl | rfl | rfl | rfl
  case inr.inr.inr.inl =>
    simp only [evalBinop, intOp, WBin.eval, BitVec.setWidth_eq, divTraps, Bool.or_eq_true,
      Bool.and_eq_true, beq_iff_eq]
    split <;> rfl
  case inr.inr.inr.inr =>
    simp only [evalBinop, intOp, WBin.eval, BitVec.setWidth_eq]
    split <;> rfl
  all_goals simp [evalBinop, intOp, WBin.eval]

def isCompare : IrOpcode → Bool
  | .cmpEq | .cmpNe | .cmpLt | .cmpGt | .cmpLe | .cmpGe => true
  | _ => false

/-- Comparisons, 64 bits wide for ints and 32 for bools. -/
theorem compare_eval (fa : FloatArith) {op : IrOpcode} (hop : isCompare op = true) {τ : IrType}
    (hτ : τ.scalar = true) {a b : BitVec 64} (ha : τ.HasWord a) (hb : τ.HasWord b) :
    ∃ bits r, compareInstr τ op = .bin bits (intOp op) ∧
      (intOp op).eval (a.setWidth bits) (b.setWidth bits) = some (boolWord r) ∧
      evalBinop fa op (.word a) (.word b) = some (.word (boolWord r)) := by
  cases τ with
  | i64 =>
      refine ⟨64, ?_⟩
      simp only [BitVec.setWidth_eq]
      cases op <;> first | exact ⟨_, rfl, rfl, rfl⟩ | cases hop
  | bool =>
      refine ⟨32, ?_⟩
      rcases ha rfl with rfl | rfl <;> rcases hb rfl with rfl | rfl <;> cases op <;>
        first
        | exact ⟨true, rfl, by decide, by rfl⟩
        | exact ⟨false, rfl, by decide, by rfl⟩
        | cases hop
  | _ => cases hτ

/-- `and` and `or` of bools are 32 bits wide. -/
theorem logic_eval (fa : FloatArith) {op : IrOpcode} (hop : op = .and ∨ op = .or) {a b : BitVec 64}
    (ha : IrType.HasWord .bool a) (hb : IrType.HasWord .bool b) :
    ∃ r, (intOp op).eval (a.setWidth 32) (b.setWidth 32) = some (boolWord r) ∧
      evalBinop fa op (.word a) (.word b) = some (.word (boolWord r)) := by
  rcases hop with rfl | rfl <;> rcases ha rfl with rfl | rfl <;> rcases hb rfl with rfl | rfl <;>
    first
    | exact ⟨true, by decide, by rfl⟩
    | exact ⟨false, by decide, by rfl⟩

/-! ## The type the emitter reads for an operand -/

section
variable {m : IrModule} {fn : IrFunction} {vars : Int → IrType} (hfn : fn.IntBool m vars)
  (hsmall : fn.SmallIds)
include hfn hsmall

theorem IntBool.valueType_eq {v : Int} {τ : IrType} (h : fn.HasType v τ) : valueType fn v = τ := by
  have hnn := IntBool.type_nonneg hfn h
  rcases h with ⟨pa, hpa, rfl, rfl⟩ | ⟨q, j, hq, hid, rfl, hop, rfl⟩
  · have hlt := hsmall.params pa hpa
    have hnone : fn.insts.reverse.find? (fun i => i.op.hasResult && i.id == pa.valueId) = none := by
      rw [List.find?_eq_none]
      intro i hi hfound
      simp only [Bool.and_eq_true, beq_iff_eq] at hfound
      obtain ⟨p, hp⟩ := instAt_of_mem (List.mem_reverse.mp hi)
      exact hfn.ssa.params p i hp (hfound.2 ▸ hnn) ⟨pa, hpa, hfound.2.symm⟩
    obtain ⟨pa', hpa'⟩ : ∃ pa', fn.params.reverse.find? (fun p => p.valueId == pa.valueId) =
        some pa' := Option.isSome_iff_exists.mp
      (List.find?_isSome.mpr ⟨pa, List.mem_reverse.mpr hpa, by simp⟩)
    have hmem := List.mem_reverse.mp (List.mem_of_find?_eq_some hpa')
    have hsame : pa' = pa :=
      List.inj_on_of_nodup_map hfn.paramIds hmem hpa (by simpa using List.find?_some hpa')
    rw [valueType, if_neg (by omega), hnone, hpa', hsame]
  · have hlt := hsmall.insts q j hq
    have hres : j.op.hasResult = true := by
      by_contra hno
      have := hfn.ssa.result q j hq
      rw [if_neg hno] at this
      omega
    have hjmem : j ∈ fn.insts := by
      obtain ⟨b, bb, -, hbb, hk⟩ := instAt_some hq
      exact List.mem_flatMap.mpr ⟨bb, List.mem_of_getElem? hbb, List.mem_of_getElem? hk⟩
    obtain ⟨i, hi⟩ : ∃ i, fn.insts.reverse.find?
        (fun i => i.op.hasResult && i.id == j.id) = some i :=
      Option.isSome_iff_exists.mp
        (List.find?_isSome.mpr ⟨j, List.mem_reverse.mpr hjmem, by simp [hres]⟩)
    have hmem := List.mem_reverse.mp (List.mem_of_find?_eq_some hi)
    obtain ⟨p, hp⟩ := instAt_of_mem hmem
    have heq : i.id = j.id := by
      have := List.find?_some hi
      simp only [Bool.and_eq_true, beq_iff_eq] at this
      exact this.2
    have hpq := hfn.ssa.unique p q i j hp hq (heq ▸ hid) heq
    obtain rfl : i = j := Option.some.inj (hp.symm.trans (hpq ▸ hq))
    rw [valueType, if_neg (by omega), hi]
    exact if_neg hop

theorem IntBool.operandType_eq {v : Int} {τ : IrType} (h : fn.HasType v τ) (hτ : τ.scalar = true)
    (default : IrType) : operandType fn v default = τ := by
  have hval := IntBool.valueType_eq hfn hsmall h
  have hrange : 0 ≤ v ∧ v < maxLocals := by
    by_contra hno
    rw [valueType, if_pos (by omega)] at hval
    rw [← hval] at hτ
    cases hτ
  rw [operandType, if_pos hrange, hval]

end

/-! ## Every instruction -/

section
variable {m : IrModule} {fn : IrFunction} {vars : Int → IrType} {base : Nat} {tbl : SlotTable}
  {p : Point} {entry : Int → Val} {prev : Int} {fr : Frame} {st : St} {i : IrInst}

section
variable (hfn : fn.IntBool m vars) (h : Related fn vars base tbl p entry prev fr st)
  (hi : fn.instAt p = some i) (hnt : i.isTerminator = false)
include hfn h hi hnt

/-- Both sides assign the result. -/
theorem stepSim_assign (hid : 0 ≤ i.id) (hop : i.op ≠ .alloca) {v : Val} {c : BitVec 64}
    (hc : i.type ≠ .void → Cell i.type v c) (tr : Trace) :
    StepSim fn vars base p entry prev st.store [] (.next (fr.set i.id v) tr)
      (.next (st.setLocal i.id c)) := by
  refine ⟨⟨tbl, h.step hfn hi hnt (fun x hx => Frame.set_env_of_ne hx) ?_ (fun _ _ => rfl) ?_
    h.stack ?_⟩, .refl base h.slots.zero⟩
  · exact fun x hx => Function.update_of_ne hx _ _
  · intro _
    rw [Holds, if_neg hop]
    intro hty
    rw [Frame.set_env_self hid, St.setLocal_locals, Function.update_self]
    exact hc hty
  · rw [Frame.set_slots]
    exact h.slots

/-- Neither side does anything. -/
theorem stepSim_skip (hid : i.id = -1) (tr : Trace) :
    StepSim fn vars base p entry prev st.store [] (.next fr tr) (.next st) := by
  refine ⟨⟨tbl, h.step hfn hi hnt (fun _ _ => rfl) (fun _ _ => rfl) (fun _ _ => rfl) ?_ h.stack
    h.slots⟩, .refl base h.slots.zero⟩
  intro hnn
  omega

/-- A phi is in its local already. -/
theorem stepSim_phi (hop : i.op = .phi) (tr : Trace) :
    StepSim fn vars base p entry prev st.store []
      (.next (fr.set i.id (phiValue entry prev i.phiArgs)) tr) (.next st) := by
  have hid : 0 ≤ i.id := by simpa [hop, IrOpcode.hasResult] using hfn.ssa.result p i hi
  have hcell := h.phis p.idx i hi (Nat.le_refl _) hop
  have hsim := stepSim_assign hfn h hi hnt hid (by simp [hop]) (fun _ => hcell) tr
  rwa [St.setLocal, Function.update_eq_self] at hsim

variable {fa : FloatArith} {whost : WasmHost} {wcallee : String → List (BitVec 64) → Store → Res}
  {again : Label → List WInstr → St → Res}

theorem stepSim_alloca (hop : i.op = .alloca) (tr : Trace)
    (hfit : st.store.bump.toNat + 8 ≤ memorySize) :
    StepSim fn vars base p entry prev st.store [.slot]
      (.next ((fr.set i.id (.addr i.id)).setSlot i.id i.zero) tr)
      (execSeq fa whost wcallee again (emitAlloca i.id) st) := by
  have hpage : memorySize = 65536 := rfl
  have hid : 0 ≤ i.id := by simpa [hop, IrOpcode.hasResult] using hfn.ssa.result p i hi
  have htyped := hfn.typed p i hi
  rw [IrFunction.Typed, hop] at htyped
  have hbump : (st.store.bump + 8#32).toNat = st.store.bump.toNat + 8 := by
    rw [BitVec.toNat_add, BitVec.toNat_ofNat]
    omega
  rw [execSeq_emitAlloca, IrInst.zero, if_neg htyped]
  refine ⟨⟨Function.update tbl i.id (some st.store.bump.toNat),
    h.step hfn hi hnt (fun x hx => Frame.set_env_of_ne hx)
      (fun x hx => Function.update_of_ne hx _ _) (fun x hx => Function.update_of_ne hx _ _) ?_
      h.stack ?_⟩, hbump, fun _ _ => rfl, ?_, ⟨[.slot st.store.bump], rfl, .cons trivial .nil⟩⟩
  · intro _
    rw [Holds, if_pos hop]
    refine ⟨Frame.set_env_self hid, st.store.bump.toNat, Function.update_self .., ?_⟩
    simp only [Function.update_self]
    exact BitVec.eq_of_toNat_eq (by simp [BitVec.toNat_setWidth])
  · rw [Frame.setSlot_slots, Frame.set_slots]
    exact h.slots.alloca i.id hfit rfl rfl
  · intro x hx
    have hx' : st.store.bump.toNat + 8 ≤ x := hbump ▸ hx
    exact h.slots.zero x (by omega)

omit hnt in
/-- What a load or a store finds at the alloca it names. -/
theorem Related.address {q : Point} {j : IrInst} (hq : fn.instAt q = some j)
    (hop : j.op = .alloca) (hmem : j.id ∈ i.uses) :
    fr.env j.id = .addr j.id ∧ 0 ≤ j.id ∧ ∃ a, tbl j.id = some a ∧
      ((st.locals j.id).setWidth 32).toNat = a ∧ a + 8 ≤ memorySize ∧
      ∃ w, Cell (vars j.id) (fr.slots j.id) w ∧ st.store.mem.read a 8 = w := by
  obtain ⟨henv, a, ha, hloc⟩ := h.slot hfn (hfn.ssa.uses p i j.id hi hmem) hq hop
  obtain ⟨-, hhi, w, hw, hr⟩ := h.slots.held j.id a ha
  have hin := h.slots.inside
  have hpage : memorySize = 65536 := rfl
  refine ⟨henv, ?_, a, ha, ?_, by omega, w, hw, hr⟩
  · simpa [hop, IrOpcode.hasResult] using hfn.ssa.result q j hq
  · rw [hloc, BitVec.toNat_setWidth, BitVec.toNat_ofNat]
    omega

theorem stepSim_load (hop : i.op = .load) {callee : String → List Val → Trace → Outcome}
    {host : Host} (tr : Trace) :
    StepSim fn vars base p entry prev st.store []
      (execInst fa host callee entry prev i fr tr)
      (execSeq fa whost wcallee again
        [pushValue (i.operand 0), .load (accessBits i.type), setValue i.id] st) := by
  have hid : 0 ≤ i.id := by simpa [hop, IrOpcode.hasResult] using hfn.ssa.result p i hi
  obtain ⟨q, j, hq, hja, hops⟩ := (hfn.ssa.address p i hi).1 hop
  have h0 : i.operand 0 = j.id := by rw [IrInst.operand, hops]; rfl
  have htyped := hfn.typed p i hi
  rw [IrFunction.Typed, hop, h0] at htyped
  obtain ⟨hsc, hvar⟩ := htyped
  obtain ⟨henv, hjid, a, -, haddr, hin, w, hw, hr⟩ :=
    Related.address hfn h hi hq hja (by simp [IrInst.uses, hops])
  rw [hvar] at hw
  have hload : execInstr fa whost wcallee again (.load (accessBits i.type))
      (st.push (st.locals j.id)) = .next (st.push w) := by
    rw [execInstr, execLoad]
    simp only [St.top_push, haddr]
    cases hty : i.type with
    | i64 =>
        rw [if_pos (by simpa [accessBits] using hin)]
        simp only [accessBits, St.push_store, St.push_stack, List.tail_cons]
        rw [show 64 / 8 = 8 from rfl, hr]
        rfl
    | bool =>
        rw [if_pos (by simp only [accessBits]; omega)]
        simp only [accessBits, St.push_store, St.push_stack, List.tail_cons]
        rw [show 32 / 8 = 4 from rfl,
          Memory.read_narrow (Memory.narrow_bool (hw.word hty)) hr]
        rfl
    | _ => rw [hty] at hsc; cases hsc
  rw [h0, execSeq_unary hjid hid st hload]
  simp only [execInst, hop, h0, henv]
  exact stepSim_assign hfn h hi hnt hid (by simp [hop]) (fun _ => hw) tr

theorem stepSim_store (hsmall : fn.SmallIds) (hop : i.op = .store)
    {callee : String → List Val → Trace → Outcome} {host : Host} (tr : Trace) :
    StepSim fn vars base p entry prev st.store []
      (execInst fa host callee entry prev i fr tr)
      (execSeq fa whost wcallee again
        [pushValue (i.operand 1), pushValue (i.operand 0),
          .store (accessBits (operandType fn (i.operand 0) .i64))] st) := by
  have hid : i.id = -1 := by simpa [hop, IrOpcode.hasResult] using hfn.ssa.result p i hi
  obtain ⟨q, j, v, hq, hja, hops⟩ := (hfn.ssa.address p i hi).2 hop
  have h0 : i.operand 0 = v := by rw [IrInst.operand, hops]; rfl
  have h1 : i.operand 1 = j.id := by rw [IrInst.operand, hops]; rfl
  have htyped := hfn.typed p i hi
  rw [IrFunction.Typed, hop, h0, h1] at htyped
  obtain ⟨hsc, hty⟩ := htyped
  obtain ⟨henv, hjid, a, ha, haddr, hin, -⟩ :=
    Related.address hfn h hi hq hja (by simp [IrInst.uses, hops])
  have hv := h.value hfn (hfn.ssa.uses p i v hi (by simp [IrInst.uses, hops])) hty hsc
  have hvnn := IntBool.type_nonneg hfn hty
  rw [h0, h1, IntBool.operandType_eq hfn hsmall hty hsc, execSeq_pushValue hjid,
    execSeq_pushValue hvnn, execSeq_store, execStore]
  simp only [St.push_locals, St.below_push, St.top_push, St.push_stack, St.push_store,
    List.tail_cons, haddr]
  have hwidth : accessBits (vars j.id) / 8 = 8 ∨
      accessBits (vars j.id) / 8 = 4 ∧ vars j.id = .bool := by
    cases hvj : vars j.id with
    | i64 => exact .inl rfl
    | bool => exact .inr ⟨rfl, rfl⟩
    | _ => rw [hvj] at hsc; cases hsc
  rw [if_pos (by omega), Res.andThen_next, execSeq_nil]
  simp only [execInst, hop, h0, h1, henv]
  refine ⟨⟨tbl, h.step hfn hi hnt (fun _ _ => rfl) (fun _ _ => rfl) (fun _ _ => rfl) ?_ h.stack
    (h.slots.store ha hv hwidth rfl rfl)⟩, rfl, ?_, ?_, ⟨[_], rfl, .nil⟩⟩
  · intro hnn
    omega
  · obtain ⟨hlo, -⟩ := h.slots.held j.id a ha
    intro x hx
    exact Memory.write_other _ _ _ _ _ (.inl (by omega))
  · obtain ⟨-, hhi, -⟩ := h.slots.held j.id a ha
    intro x hx
    have hx' : st.store.bump.toNat ≤ x := hx
    exact (Memory.write_other _ _ _ _ _ (.inr (by omega))).trans (h.slots.zero x hx')

omit hi hnt in
/-- The arguments of a call. -/
theorem Related.args {vs : List Int} {ps : List IrParam}
    (hps : ∀ pa ∈ ps, pa.type.scalar = true) (hd : ∀ v ∈ vs, fn.DefinedAt v p)
    (ht : List.Forall₂ (fun v (pa : IrParam) => fn.HasType v pa.type) vs ps) :
    vs.map fr.env = (vs.map st.locals).map .word ∧ ArgsFit ps (vs.map st.locals) ∧
      ∀ v ∈ vs, 0 ≤ v := by
  induction ht with
  | nil => exact ⟨rfl, .nil, nofun⟩
  | @cons v pa vs ps hv _ ih =>
      obtain ⟨henv, hfit, hnn⟩ := ih (fun pa hpa => hps pa (List.mem_cons_of_mem _ hpa))
        (fun v hv => hd v (List.mem_cons_of_mem _ hv))
      have hcell := h.value hfn (hd v List.mem_cons_self) hv (hps pa List.mem_cons_self)
      refine ⟨?_, .cons hcell.word hfit, ?_⟩
      · rw [List.map_cons, henv, hcell.val]
        rfl
      · intro x hx
        rcases List.mem_cons.mp hx with rfl | hx
        · exact IntBool.type_nonneg hfn hv
        · exact hnn x hx

/-- Back from a call that has returned. -/
theorem Related.afterCall (hid : 0 ≤ i.id) (hop : i.op ≠ .alloca) {v : Val} {c : BitVec 64}
    (hc : i.type ≠ .void → Cell i.type v c) {s : Store} {l : List RunEvent}
    (he : Ended st.store.bump.toNat st.store l s)
    (hfit : st.store.bump.toNat + 8 * slotCount l ≤ memorySize) :
    Related fn vars base tbl p.next entry prev (fr.set i.id v)
      { st with locals := Function.update st.locals i.id c, stack := [], store := s } := by
  refine h.step hfn hi hnt (fun x hx => Frame.set_env_of_ne hx)
    (fun x hx => Function.update_of_ne hx _ _) (fun _ _ => rfl) ?_ rfl ?_
  · intro _
    rw [Holds, if_neg hop]
    intro hty
    rw [Frame.set_env_self hid]
    simp only [Function.update_self]
    exact hc hty
  · rw [Frame.set_slots]
    exact he.slotsHold h.slots hfit

/-- A call whose callee does the same. -/
theorem stepSim_call (hm : m.IntBool) (hop : i.op = .call)
    {callee : String → List Val → Trace → Outcome}
    {calleeLog : String → List Val → Trace → List RunEvent}
    {calleeMeets : String → List Val → Trace → Prop} {host : Host}
    (hcallee : CalleeSim m callee calleeLog calleeMeets wcallee) (tr : Trace)
    (hmeets : calleeMeets (i.fnName.getD "unknown") (i.callArgs.map fr.env)
      (tr ++ [.call (i.fnName.getD "unknown") (i.callArgs.map fr.env)]))
    (hfit : st.store.bump.toNat + 8 * slotCount (instLog calleeLog i fr tr) ≤ memorySize)
    (ctx : EmitCtx) (b : Nat) :
    StepSim fn vars base p entry prev st.store (instLog calleeLog i fr tr)
      (execInst fa host callee entry prev i fr tr)
      (execSeq fa whost wcallee again (emitInstruction ctx fn b i) st) := by
  have hid : 0 ≤ i.id := by simpa [hop, IrOpcode.hasResult] using hfn.ssa.result p i hi
  have htyped := hfn.typed p i hi
  rw [IrFunction.Typed, hop] at htyped
  obtain ⟨name, g, hname, hprefix, hg, hty, hargs⟩ := htyped
  obtain ⟨gvars, hgfn⟩ := hm g (List.mem_of_find?_eq_some hg)
  have hsymbol : callSymbol name = name := if_pos hprefix
  obtain ⟨henv, hargsFit, hnn⟩ := Related.args hfn h (fun pa hpa => (hgfn.params pa hpa).1)
    (fun v hv => hfn.ssa.uses p i v hi (by simp [IrInst.uses, hop, hv])) hargs
  simp only [instLog, hop, hname, Option.getD_some, henv] at hfit hmeets ⊢
  simp only [execInst, hop, hname, Option.getD_some, henv]
  have hready : Ready st.store := ⟨h.slots.inside, h.slots.zero⟩
  obtain ⟨hgives, hended⟩ := hcallee name g _ _ st.store hg hargsFit hmeets hready hfit
  have htake : (((i.callArgs.map st.locals).reverse ++ st.stack).take i.callArgs.length).reverse =
      i.callArgs.map st.locals := by
    rw [List.take_append_of_le_length (by simp), List.take_of_length_le (by simp),
      List.reverse_reverse]
  have hdrop : ((i.callArgs.map st.locals).reverse ++ st.stack).drop i.callArgs.length = [] := by
    rw [h.stack, List.append_nil, List.drop_of_length_le (by simp)]
  simp only [emitInstruction, hop, hname, Option.getD_some, hsymbol]
  rw [execSeq_pushArgs hnn, execSeq_cons, execInstr, htake]
  revert hgives hended
  generalize callee name _ _ = o
  generalize wcallee name _ _ = r
  intro hgives hended
  cases o with
  | ret v tr' =>
      cases v with
      | none =>
          obtain ⟨hvoid, s, rfl⟩ := hgives.retNone
          have hflag : decide (0 ≤ i.id ∧ i.type ≠ .void) = false := by simp [hty, hvoid]
          have hrel := Related.afterCall hfn h hi hnt hid (by simp [hop])
            (c := st.locals i.id) (v := .unset) (fun hne => absurd (hty.trans hvoid) hne)
            hended hfit
          rw [Function.update_eq_self] at hrel
          simp only [hflag, Bool.false_eq_true, if_false, St.afterCall, hdrop, Res.andThen_next,
            execSeq_nil, List.append_nil]
          exact ⟨⟨tbl, hrel⟩, hended.mono h.slots.base_le⟩
      | some v =>
          obtain ⟨hne, c, s, rfl, hcell⟩ := hgives.retSome
          have hflag : decide (0 ≤ i.id ∧ i.type ≠ .void) = true := by simp [hty, hid, hne]
          have hrel := Related.afterCall hfn h hi hnt hid (by simp [hop])
            (fun _ => hty ▸ hcell) hended hfit
          simp only [hflag, if_true, St.afterCall, hdrop, Res.andThen_next, List.append_nil,
            List.headD_cons]
          rw [execSeq_setValue hid]
          exact ⟨⟨tbl, hrel⟩, hended.mono h.slots.base_le⟩
  | trap tr' =>
      obtain ⟨s, rfl⟩ := hgives.trap
      exact ⟨trivial, hended.mono h.slots.base_le⟩
  | timeout tr' =>
      obtain ⟨s, rfl⟩ := hgives.timeout
      exact ⟨trivial, hended.mono h.slots.base_le⟩
  | stuck tr' => exact hgives.not_stuck.elim

omit hnt in
/-- An operand of an instruction. -/
theorem Related.operand {v : Int} {τ : IrType} (hmem : v ∈ i.uses) (ht : fn.HasType v τ)
    (hτ : τ.scalar = true) : 0 ≤ v ∧ Cell τ (fr.env v) (st.locals v) :=
  ⟨IntBool.type_nonneg hfn ht, h.value hfn (hfn.ssa.uses p i v hi hmem) ht hτ⟩

/-- An operator on two operands: `none` is a trap on both sides. -/
theorem stepSim_binary {x y : Int} (hops : i.operands = [x, y]) (hx : 0 ≤ x) (hy : 0 ≤ y)
    (hid : 0 ≤ i.id) (hop : i.op ≠ .alloca) {bits : Nat} {op : WBin} {r : Option (BitVec 64)}
    (heval : op.eval ((st.locals x).setWidth bits) ((st.locals y).setWidth bits) = r)
    (hr : ∀ c, r = some c → i.type.HasWord c) (tr : Trace) :
    StepSim fn vars base p entry prev st.store [] (Flow.assign fr tr i.id (r.map .word))
      (execSeq fa whost wcallee again (emitBinary i (.bin bits op)) st) := by
  have h0 : i.operand 0 = x := by rw [IrInst.operand, hops]; rfl
  have h1 : i.operand 1 = y := by rw [IrInst.operand, hops]; rfl
  rw [execSeq_emitBinary (by rwa [h0]) (by rwa [h1]) hid, h0, h1, heval]
  cases r with
  | none => exact ⟨trivial, .refl base h.slots.zero⟩
  | some c =>
      exact stepSim_assign hfn h hi hnt hid hop (fun _ => ⟨rfl, hr c rfl⟩) tr

/-- Arithmetic is 64 bits wide. -/
theorem stepSim_arith {op : IrOpcode}
    (hop : op = .add ∨ op = .sub ∨ op = .mul ∨ op = .div ∨ op = .mod) (hne : i.op ≠ .alloca)
    (hid : 0 ≤ i.id) (htyped : i.type = .i64 ∧
      ∃ x y, i.operands = [x, y] ∧ fn.HasType x .i64 ∧ fn.HasType y .i64) (tr : Trace) :
    StepSim fn vars base p entry prev st.store []
      (Flow.assign fr tr i.id (evalBinop fa op (fr.env (i.operand 0)) (fr.env (i.operand 1))))
      (execSeq fa whost wcallee again (emitBinary i (.bin 64 (intOp op))) st) := by
  obtain ⟨hty, x, y, hops, hx, hy⟩ := htyped
  obtain ⟨hxnn, hxc⟩ := Related.operand hfn h hi (by simp [IrInst.uses, hops]) hx rfl
  obtain ⟨hynn, hyc⟩ := Related.operand hfn h hi (by simp [IrInst.uses, hops]) hy rfl
  have h0 : i.operand 0 = x := by rw [IrInst.operand, hops]; rfl
  have h1 : i.operand 1 = y := by rw [IrInst.operand, hops]; rfl
  rw [h0, h1, hxc.val, hyc.val, intOp_eval fa hop]
  exact stepSim_binary hfn h hi hnt hops hxnn hynn hid hne rfl
    (fun c _ => hty ▸ hasWord_i64 c) tr

theorem stepSim_compare (hsmall : fn.SmallIds) {op : IrOpcode} (hop : isCompare op = true)
    (hne : i.op ≠ .alloca) (hid : 0 ≤ i.id) (htyped : i.type = .bool ∧
      ∃ x y τ, i.operands = [x, y] ∧ τ.scalar = true ∧ fn.HasType x τ ∧ fn.HasType y τ)
    (tr : Trace) :
    StepSim fn vars base p entry prev st.store []
      (Flow.assign fr tr i.id (evalBinop fa op (fr.env (i.operand 0)) (fr.env (i.operand 1))))
      (execSeq fa whost wcallee again
        (emitBinary i (compareInstr (operandType fn (i.operand 0) .i64) op)) st) := by
  obtain ⟨hty, x, y, τ, hops, hτ, hx, hy⟩ := htyped
  obtain ⟨hxnn, hxc⟩ := Related.operand hfn h hi (by simp [IrInst.uses, hops]) hx hτ
  obtain ⟨hynn, hyc⟩ := Related.operand hfn h hi (by simp [IrInst.uses, hops]) hy hτ
  have h0 : i.operand 0 = x := by rw [IrInst.operand, hops]; rfl
  have h1 : i.operand 1 = y := by rw [IrInst.operand, hops]; rfl
  obtain ⟨bits, r, hinstr, heval, hbin⟩ := compare_eval fa hop hτ hxc.word hyc.word
  rw [h0, h1, hxc.val, hyc.val, hbin, IntBool.operandType_eq hfn hsmall hx hτ, hinstr]
  refine stepSim_binary hfn h hi hnt hops hxnn hynn hid hne heval ?_ tr
  rintro c ⟨⟩
  exact hasWord_bool r i.type

theorem stepSim_logic {op : IrOpcode} (hop : op = .and ∨ op = .or) (hne : i.op ≠ .alloca)
    (hid : 0 ≤ i.id) (htyped : i.type = .bool ∧
      ∃ x y, i.operands = [x, y] ∧ fn.HasType x .bool ∧ fn.HasType y .bool) (tr : Trace) :
    StepSim fn vars base p entry prev st.store []
      (Flow.assign fr tr i.id (evalBinop fa op (fr.env (i.operand 0)) (fr.env (i.operand 1))))
      (execSeq fa whost wcallee again (emitBinary i (.bin 32 (intOp op))) st) := by
  obtain ⟨hty, x, y, hops, hx, hy⟩ := htyped
  obtain ⟨hxnn, hxc⟩ := Related.operand hfn h hi (by simp [IrInst.uses, hops]) hx rfl
  obtain ⟨hynn, hyc⟩ := Related.operand hfn h hi (by simp [IrInst.uses, hops]) hy rfl
  have h0 : i.operand 0 = x := by rw [IrInst.operand, hops]; rfl
  have h1 : i.operand 1 = y := by rw [IrInst.operand, hops]; rfl
  obtain ⟨r, heval, hbin⟩ := logic_eval fa hop hxc.word hyc.word
  rw [h0, h1, hxc.val, hyc.val, hbin]
  refine stepSim_binary hfn h hi hnt hops hxnn hynn hid hne heval ?_ tr
  rintro c ⟨⟩
  exact hasWord_bool r i.type

theorem stepSim_neg (hop : i.op = .neg) (hid : 0 ≤ i.id)
    (htyped : i.type = .i64 ∧ ∃ x, i.operands = [x] ∧ fn.HasType x .i64) (tr : Trace) :
    StepSim fn vars base p entry prev st.store []
      (.next (fr.set i.id (evalUnop fa i.type .neg (fr.env (i.operand 0)))) tr)
      (execSeq fa whost wcallee again
        [.simple (.const 64 0), pushValue (i.operand 0), .bin 64 .sub, setValue i.id] st) := by
  obtain ⟨hty, x, hops, hx⟩ := htyped
  obtain ⟨hxnn, hxc⟩ := Related.operand hfn h hi (by simp [IrInst.uses, hops]) hx rfl
  have h0 : i.operand 0 = x := by rw [IrInst.operand, hops]; rfl
  rw [h0, hxc.val, execSeq_const, execSeq_pushValue hxnn, execSeq_cons, execInstr]
  simp only [WBin.eval, St.push_locals, St.below_push, St.top_push, BitVec.setWidth_eq,
    Res.andThen_next]
  rw [execSeq_setValue hid]
  exact stepSim_assign hfn h hi hnt hid (by simp [hop])
    (fun _ => hty ▸ Cell.i64 (0 - st.locals x)) tr

theorem stepSim_not (hsmall : fn.SmallIds) (hop : i.op = .not) (hid : 0 ≤ i.id)
    (htyped : i.type = .bool ∧ ∃ x τ, i.operands = [x] ∧ τ.scalar = true ∧ fn.HasType x τ)
    (tr : Trace) :
    StepSim fn vars base p entry prev st.store []
      (.next (fr.set i.id (evalUnop fa i.type .not (fr.env (i.operand 0)))) tr)
      (execSeq fa whost wcallee again
        [pushValue (i.operand 0),
          .eqz (if operandType fn (i.operand 0) .bool = .i64 then 64 else 32),
          setValue i.id] st) := by
  obtain ⟨hty, x, τ, hops, hτ, hx⟩ := htyped
  obtain ⟨hxnn, hxc⟩ := Related.operand hfn h hi (by simp [IrInst.uses, hops]) hx hτ
  have h0 : i.operand 0 = x := by rw [IrInst.operand, hops]; rfl
  have hz : ((st.locals x).setWidth (if τ = .i64 then 64 else 32) == 0) = (st.locals x == 0) := by
    cases τ with
    | i64 => rw [if_pos rfl, BitVec.setWidth_eq]
    | bool => rcases hxc.word rfl with hc | hc <;> rw [hc] <;> rfl
    | _ => cases hτ
  rw [h0, hxc.val, IntBool.operandType_eq hfn hsmall hx hτ,
    execSeq_unary hxnn hid (c := boolWord (st.locals x == 0))]
  · exact stepSim_assign hfn h hi hnt hid (by simp [hop]) (fun _ => Cell.bool _ _) tr
  · rw [execInstr, St.top_push, hz]
    rfl

theorem stepSim_cast (hsmall : fn.SmallIds) (hop : i.op = .cast) (hid : 0 ≤ i.id)
    (htyped : i.type.scalar = true ∧ ∃ x τ, i.operands = [x] ∧ τ.scalar = true ∧ fn.HasType x τ)
    (hkept : CastKept i fr) (tr : Trace) :
    StepSim fn vars base p entry prev st.store []
      (.next (fr.set i.id (evalUnop fa i.type .cast (fr.env (i.operand 0)))) tr)
      (execSeq fa whost wcallee again (pushValue (i.operand 0) ::
        (castInstrs (operandType fn (i.operand 0) .i64) i.type ++ [setValue i.id])) st) := by
  obtain ⟨hsc, x, τ, hops, hτ, hx⟩ := htyped
  obtain ⟨hxnn, hxc⟩ := Related.operand hfn h hi (by simp [IrInst.uses, hops]) hx hτ
  have h0 : i.operand 0 = x := by rw [IrInst.operand, hops]; rfl
  have hbool : i.type = .bool → st.locals x = 0 ∨ st.locals x = 1 := by
    intro hty
    have hk := hkept hty
    rwa [h0, hxc.val, Val.word.injEq, Val.word.injEq] at hk
  have hcode : execSeq fa whost wcallee again
      (pushValue x :: (castInstrs τ i.type ++ [setValue i.id])) st =
        .next (st.setLocal i.id (st.locals x)) := by
    rw [execSeq_pushValue hxnn]
    cases τ with
    | i64 =>
        cases hty : i.type with
        | i64 => exact execSeq_setValue hid [] _
        | bool => rcases hbool hty with hc | hc <;> rw [hc] <;> exact execSeq_setValue hid [] _
        | _ => rw [hty] at hsc; cases hsc
    | bool =>
        cases hty : i.type with
        | i64 => rcases hxc.word rfl with hc | hc <;> rw [hc] <;> exact execSeq_setValue hid [] _
        | bool => exact execSeq_setValue hid [] _
        | _ => rw [hty] at hsc; cases hsc
    | _ => cases hτ
  have hval : evalUnop fa i.type .cast (.word (st.locals x)) = .word (st.locals x) := by
    rw [evalUnop, if_neg]
    intro hty
    rw [hty] at hsc
    cases hsc
  rw [h0, hxc.val, IntBool.operandType_eq hfn hsmall hx hτ, hcode, hval]
  exact stepSim_assign hfn h hi hnt hid (by simp [hop]) (fun _ => ⟨rfl, hbool⟩) tr

/-- Every instruction inside a block. -/
theorem stepSim (hm : m.IntBool) (hsmall : fn.SmallIds) (hcast : i.op = .cast → CastKept i fr)
    {callee : String → List Val → Trace → Outcome}
    {calleeLog : String → List Val → Trace → List RunEvent}
    {calleeMeets : String → List Val → Trace → Prop} {host : Host}
    (hcallee : CalleeSim m callee calleeLog calleeMeets wcallee) (tr : Trace)
    (hmeets : i.op = .call → calleeMeets (i.fnName.getD "unknown") (i.callArgs.map fr.env)
      (tr ++ [.call (i.fnName.getD "unknown") (i.callArgs.map fr.env)]))
    (hfit : st.store.bump.toNat + 8 * slotCount (instLog calleeLog i fr tr) ≤ memorySize)
    (ctx : EmitCtx) (b : Nat) :
    StepSim fn vars base p entry prev st.store (instLog calleeLog i fr tr)
      (execInst fa host callee entry prev i fr tr)
      (execSeq fa whost wcallee again (emitInstruction ctx fn b i) st) := by
  have htyped := hfn.typed p i hi
  have hresult := hfn.ssa.result p i hi
  cases hop : i.op <;>
    simp only [IrFunction.Typed, IrOpcode.hasResult, hop, if_true, Bool.false_eq_true,
      if_false] at htyped hresult
  case call => exact stepSim_call hfn h hi hnt hm hop hcallee tr (hmeets hop) hfit ctx b
  all_goals simp only [instLog, emitInstruction, hop] at hfit ⊢
  case load => exact stepSim_load hfn h hi hnt hop tr
  case store => exact stepSim_store hfn h hi hnt hsmall hop tr
  case ret | br | jmp => simp [IrInst.isTerminator, hop] at hnt
  all_goals simp only [execInst, hop]
  case constInt =>
    rw [execSeq_const, execSeq_setValue hresult, BitVec.ofInt_toInt, BitVec.setWidth_eq]
    exact stepSim_assign hfn h hi hnt hresult (by simp [hop]) (fun _ => htyped ▸ Cell.i64 _) tr
  case constBool =>
    have hconst : (BitVec.ofInt 32 (if (i.immInt != 0) = true then 1 else 0)).setWidth 64 =
        boolWord (i.immInt != 0) := by
      cases i.immInt != 0 <;> rfl
    rw [execSeq_const, execSeq_setValue hresult, hconst]
    exact stepSim_assign hfn h hi hnt hresult (by simp [hop]) (fun _ => Cell.bool _ _) tr
  case add | sub | mul | div | mod =>
    exact stepSim_arith hfn h hi hnt (by simp) (by simp [hop]) hresult htyped tr
  case cmpEq | cmpNe | cmpLt | cmpGt | cmpLe | cmpGe =>
    exact stepSim_compare hfn h hi hnt hsmall rfl (by simp [hop]) hresult htyped tr
  case and | or => exact stepSim_logic hfn h hi hnt (by simp) (by simp [hop]) hresult htyped tr
  case neg => exact stepSim_neg hfn h hi hnt hop hresult htyped tr
  case not => exact stepSim_not hfn h hi hnt hsmall hop hresult htyped tr
  case cast => exact stepSim_cast hfn h hi hnt hsmall hop hresult htyped (hcast hop) tr
  case alloca => exact stepSim_alloca hfn h hi hnt hop tr hfit
  case phi => exact stepSim_phi hfn h hi hnt hop tr
  case print => exact stepSim_skip hfn h hi hnt hresult _
  case nop => exact stepSim_skip hfn h hi hnt hresult tr

end

end

end Limceron.Wasm
