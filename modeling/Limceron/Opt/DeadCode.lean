/-
# `Limceron.Opt.DeadCode` — `ir_opt_dead_code_elim`

The pass walks the blocks in order and unlinks every instruction that has no
side effect and whose id nothing uses in the function as it stands by then.

Both tests miss a case.

| test | misses | then |
| :-- | :-- | :-- |
| `has_side_effects` | `host_call`, trapping `div` and `mod` | they are unlinked |
| `ir_value_used` | the arguments of a `host_call` | their definitions are unlinked |

So a run is preserved as long as it does not come to one of these
(`DceGuard`): `dce_preserves`.
-/
import Limceron.IR.Check
import Mathlib.Data.List.Forall2
import Mathlib.Logic.Function.Iterate

namespace Limceron

/-! ## The pass -/

/-- The uses `ir_value_used` looks at, of one instruction. -/
def IrInst.usesValue (inst : IrInst) (id : Int) : Bool :=
  inst.operands.any (· == id) ||
  (inst.op == .call && inst.callArgs.any (· == id)) ||
  (inst.op == .phi && inst.phiArgs.any (·.1 == id))

/-- `ir_value_used`. -/
def irValueUsed (fn : IrFunction) (id : Int) : Bool :=
  fn.insts.any (·.usesValue id)

def hasSideEffects : IrOpcode → Bool
  | .store | .ret | .br | .jmp | .print | .call => true
  | _ => false

/-- The test before unlinking `inst` from `fn`. -/
def dceRemovable (fn : IrFunction) (inst : IrInst) : Bool :=
  !hasSideEffects inst.op && decide (0 ≤ inst.id) && !irValueUsed fn inst.id

/-- The function with other instructions in block `b`. -/
def IrFunction.withInsts (fn : IrFunction) (b : Nat) (is : List IrInst) : IrFunction :=
  { fn with blocks := fn.blocks.modify b (fun bb => { bb with insts := is }) }

/-- The walk through a block: `kept` ends in `prev`, `rest` starts at `inst`. -/
structure DceScan where
  kept : List IrInst
  rest : List IrInst
  eliminated : Nat := 0

/-- One turn of the inner loop. -/
def dceStep (fn : IrFunction) (b : Nat) (s : DceScan) : DceScan :=
  match s.rest with
  | [] => s
  | inst :: next =>
      if dceRemovable (fn.withInsts b (s.kept ++ s.rest)) inst then
        { s with rest := next, eliminated := s.eliminated + 1 }
      else { s with kept := s.kept ++ [inst], rest := next }

/-- The walk through a block `insts`, after `k` turns. -/
def dceScan (fn : IrFunction) (b : Nat) (insts : List IrInst) (k : Nat) : DceScan :=
  (dceStep fn b)^[k] { kept := [], rest := insts }

def dceBlock (fn : IrFunction) (b : Nat) : IrFunction × Nat :=
  match fn.blocks[b]? with
  | none => (fn, 0)
  | some bb =>
      let s := dceScan fn b bb.insts bb.insts.length
      (fn.withInsts b s.kept, s.eliminated)

/-- The first `b` blocks. -/
def dceUpTo (fn : IrFunction) : Nat → IrFunction × Nat
  | 0 => (fn, 0)
  | b + 1 =>
      let s := dceBlock (dceUpTo fn b).1 b
      (s.1, (dceUpTo fn b).2 + s.2)

def dceFunction (fn : IrFunction) : IrFunction × Nat := dceUpTo fn fn.blocks.length

/-- `ir_opt_dead_code_elim`, with the number of instructions eliminated. -/
def irOptDeadCodeElim (m : IrModule) : IrModule × Nat :=
  (⟨m.functions.map (fun fn => (dceFunction fn).1)⟩,
    m.functions.foldl (fun eliminated fn => eliminated + (dceFunction fn).2) 0)

/-! ## What the walk unlinks -/

/-- The function as the walk finds it when it comes to `p`. -/
def dceCurrent (fn : IrFunction) (p : Point) : IrFunction :=
  let before := (dceUpTo fn p.bb.toNat).1
  let s := dceScan before p.bb.toNat ((fn.blockInsts p.bb).getD []) p.idx
  before.withInsts p.bb.toNat (s.kept ++ s.rest)

/-- The test of the walk at `p`. -/
def unlinks (fn : IrFunction) (p : Point) : Bool :=
  match fn.instAt p with
  | some inst => dceRemovable (dceCurrent fn p) inst
  | none => false

/-- The instructions of a block that stay. -/
def keptInsts (fn : IrFunction) (b : Nat) : Nat → List IrInst → List IrInst
  | _, [] => []
  | k, i :: is =>
      if unlinks fn ⟨b, k⟩ then keptInsts fn b (k + 1) is
      else i :: keptInsts fn b (k + 1) is

theorem keptInsts_append (fn : IrFunction) (b : Nat) (is js : List IrInst) (k : Nat) :
    keptInsts fn b k (is ++ js) = keptInsts fn b k is ++ keptInsts fn b (k + is.length) js := by
  induction is generalizing k with
  | nil => simp [keptInsts]
  | cons i is ih =>
      have := ih (k + 1)
      simp only [List.cons_append, keptInsts, List.length_cons]
      split <;> simp [this, Nat.add_assoc, Nat.add_comm 1]

theorem mem_keptInsts {fn : IrFunction} {b : Nat} {is : List IrInst} {i : IrInst} {k : Nat} :
    i ∈ keptInsts fn b k is ↔
      ∃ l, is[l]? = some i ∧ unlinks fn ⟨b, k + l⟩ = false := by
  induction is generalizing k with
  | nil => simp [keptInsts]
  | cons j is ih =>
      have hshift : (∃ l, (j :: is)[l]? = some i ∧ unlinks fn ⟨b, k + l⟩ = false) ↔
          (j = i ∧ unlinks fn ⟨b, k⟩ = false) ∨
            ∃ l, is[l]? = some i ∧ unlinks fn ⟨b, k + 1 + l⟩ = false := by
        constructor
        · rintro ⟨_ | l, hl, hu⟩
          · exact .inl ⟨by simpa using hl, hu⟩
          · exact .inr ⟨l, by simpa using hl, by rwa [Nat.add_assoc, Nat.add_comm 1]⟩
        · rintro (⟨rfl, hu⟩ | ⟨l, hl, hu⟩)
          · exact ⟨0, rfl, hu⟩
          · exact ⟨l + 1, by simpa using hl, by rwa [Nat.add_comm l, ← Nat.add_assoc]⟩
      rw [hshift, ← ih, keptInsts]
      cases unlinks fn ⟨b, k⟩ <;> simp [eq_comm]

section
variable {fn : IrFunction} {b : Nat} {bb : IrBasicBlock}

/-- `k` turns into a block, the walk has kept what is not unlinked before `k`. -/
theorem dceScan_eq (hb : fn.blocks[b]? = some bb) :
    ∀ k ≤ bb.insts.length,
      (dceScan (dceUpTo fn b).1 b bb.insts k).kept = keptInsts fn b 0 (bb.insts.take k) ∧
      (dceScan (dceUpTo fn b).1 b bb.insts k).rest = bb.insts.drop k
  | 0, _ => ⟨rfl, rfl⟩
  | k + 1, hk => by
      obtain ⟨hkept, hrest⟩ := dceScan_eq hb k (by omega)
      have hlt : k < bb.insts.length := by omega
      have hat : fn.instAt ⟨b, k⟩ = some bb.insts[k] := by
        simp [IrFunction.instAt, hb, hlt]
      have hcur : (dceUpTo fn b).1.withInsts b
          (keptInsts fn b 0 (bb.insts.take k) ++ bb.insts.drop k) = dceCurrent fn ⟨b, k⟩ := by
        simp only [dceCurrent, Int.toNat_natCast, IrFunction.blockInsts_natCast, hb,
          Option.map_some, Option.getD_some, hkept, hrest]
      have hstep : dceScan (dceUpTo fn b).1 b bb.insts (k + 1) =
          dceStep (dceUpTo fn b).1 b (dceScan (dceUpTo fn b).1 b bb.insts k) :=
        Function.iterate_succ_apply' ..
      rw [hstep, dceStep, hrest, hkept]
      have hdrop : bb.insts.drop k = bb.insts[k] :: bb.insts.drop (k + 1) :=
        List.drop_eq_getElem_cons hlt
      have htake : keptInsts fn b 0 (bb.insts.take (k + 1)) =
          keptInsts fn b 0 (bb.insts.take k) ++
            if unlinks fn ⟨b, k⟩ then [] else [bb.insts[k]] := by
        rw [List.take_succ_eq_append_getElem hlt, keptInsts_append]
        simp [keptInsts, Nat.min_eq_left (Nat.le_of_lt hlt)]
      have hun : unlinks fn ⟨b, k⟩ = dceRemovable (dceCurrent fn ⟨b, k⟩) bb.insts[k] := by
        simp [unlinks, hat]
      rw [htake, hun, hcur, hdrop]
      cases hr : dceRemovable (dceCurrent fn ⟨b, k⟩) bb.insts[k] <;> simp [hr]

end

theorem IrFunction.blocks_withInsts (fn : IrFunction) (b c : Nat) (is : List IrInst) :
    (fn.withInsts b is).blocks[c]? =
      (fn.blocks[c]?).map (fun bb => if c = b then { bb with insts := is } else bb) := by
  simp only [IrFunction.withInsts, List.getElem?_modify]
  by_cases h : b = c
  · simp [h]
  · cases fn.blocks[c]? <;> simp [h, Ne.symm h]

/-- The blocks the walk has been through are pruned, the others as they were. -/
theorem dceUpTo_blocks (fn : IrFunction) : ∀ b c : Nat, (dceUpTo fn b).1.blocks[c]? =
    (fn.blocks[c]?).map (fun bb =>
      if c < b then { bb with insts := keptInsts fn c 0 bb.insts } else bb)
  | 0, c => by simp [dceUpTo]
  | b + 1, c => by
      have ih := dceUpTo_blocks fn b
      have hb : (dceUpTo fn b).1.blocks[b]? = fn.blocks[b]? := by simp [ih b]
      simp only [dceUpTo, dceBlock, hb]
      cases hfb : fn.blocks[b]? with
      | none =>
          rw [ih c]
          cases hfc : fn.blocks[c]? with
          | none => rfl
          | some bc =>
              have : c < b := by
                have h1 := List.getElem?_eq_none_iff.mp hfb
                have h2 := (List.getElem?_eq_some_iff.mp hfc).1
                omega
              simp [this, Nat.lt_succ_of_lt this]
      | some bb =>
          have hscan := (dceScan_eq hfb bb.insts.length (Nat.le_refl _)).1
          rw [List.take_length] at hscan
          simp only [hscan, IrFunction.blocks_withInsts, ih c, Option.map_map]
          cases hfc : fn.blocks[c]? with
          | none => rfl
          | some bc =>
              by_cases hcb : c = b
              · subst hcb
                obtain rfl : bb = bc := by simpa [hfb] using hfc
                simp
              · have : c < b + 1 ↔ c < b := by omega
                simp [hcb, this]

/-- Every block of the result is what stays of the block. -/
theorem blockInsts_dce (fn : IrFunction) (b : Int) :
    (dceFunction fn).1.blockInsts b = (fn.blockInsts b).map (keptInsts fn b.toNat 0) := by
  unfold IrFunction.blockInsts
  split
  · rfl
  · rw [dceFunction, dceUpTo_blocks]
    cases hb : fn.blocks[b.toNat]? with
    | none => rfl
    | some bb => simp [(List.getElem?_eq_some_iff.mp hb).1]

/-- What stays is there at every visit of the walk. -/
theorem mem_dceCurrent {fn : IrFunction} {p q : Point} {i j : IrInst}
    (hi : fn.instAt p = some i) (hj : fn.instAt q = some j) (hq : unlinks fn q = false) :
    j ∈ (dceCurrent fn p).insts := by
  obtain ⟨b, bb, hpb, hb, hk⟩ := instAt_some hi
  obtain ⟨c, bc, hqc, hc, hl⟩ := instAt_some hj
  obtain ⟨pb, k⟩ := p
  obtain ⟨qb, l⟩ := q
  obtain rfl : pb = b := hpb
  obtain rfl : qb = c := hqc
  have hlt := (List.getElem?_eq_some_iff.mp hk).1
  obtain ⟨hkept, hrest⟩ := dceScan_eq hb k (Nat.le_of_lt hlt)
  suffices h : ∃ is, ((dceCurrent fn ⟨b, k⟩).blocks[c]?).map (·.insts) = some is ∧ j ∈ is by
    obtain ⟨is, his, hmem⟩ := h
    obtain ⟨bb', hbb', rfl⟩ := Option.map_eq_some_iff.mp his
    exact List.mem_flatMap.mpr ⟨bb', List.mem_of_getElem? hbb', hmem⟩
  simp only [dceCurrent, Int.toNat_natCast, IrFunction.blockInsts_natCast, hb, Option.map_some,
    Option.getD_some, hkept, hrest, IrFunction.blocks_withInsts, dceUpTo_blocks, hc]
  rcases Nat.lt_trichotomy c b with h | rfl | h
  · -- a block the walk has left
    refine ⟨keptInsts fn c 0 bc.insts, by simp [h, Nat.ne_of_lt h], mem_keptInsts.mpr ?_⟩
    exact ⟨l, hl, by simpa using hq⟩
  · -- the block the walk is in
    obtain rfl : bb = bc := by simpa [hb] using hc
    refine ⟨_, by simp; rfl, List.mem_append.mpr ?_⟩
    by_cases hlk : l < k
    · refine .inl (mem_keptInsts.mpr ⟨l, ?_, by simpa using hq⟩)
      rw [List.getElem?_take_of_lt hlk, hl]
    · refine .inr (List.mem_of_getElem? (i := l - k) ?_)
      rw [List.getElem?_drop, Nat.add_sub_cancel' (by omega), hl]
  · exact ⟨bc.insts, by simp [Nat.not_lt.mpr (Nat.le_of_lt h), Nat.ne_of_gt h],
      List.mem_of_getElem? hl⟩

/-- What is unlinked is not used by what stays, host calls aside. -/
theorem usesValue_of_unlinks {fn : IrFunction} {p q : Point} {i j : IrInst}
    (hi : fn.instAt p = some i) (hp : unlinks fn p = true) (hj : fn.instAt q = some j)
    (hq : unlinks fn q = false) : j.usesValue i.id = false := by
  simp only [unlinks, hi, dceRemovable, Bool.and_eq_true, Bool.not_eq_true'] at hp
  exact Bool.eq_false_iff.mpr fun h =>
    Bool.eq_false_iff.mp hp.2 (List.any_eq_true.mpr ⟨j, mem_dceCurrent hi hj hq, h⟩)

/-! ## The condition on a run -/

/-- `x` is the id of an instruction that the walk unlinks. -/
def Unlinked (fn : IrFunction) (x : Int) : Prop :=
  ∃ q j, fn.instAt q = some j ∧ unlinks fn q = true ∧ j.id = x

/-- The run does not come to a host call or a trapping division that the walk
unlinks, nor to a host call whose arguments it unlinks. -/
def DceGuard (fa : FloatArith) (fn : IrFunction) : Guard := fun _ p i fr =>
  (unlinks fn p = true → i.op ≠ .hostCall ∧
    (i.op = .div ∨ i.op = .mod →
      evalBinop fa i.op (fr.env (i.operand 0)) (fr.env (i.operand 1)) ≠ none)) ∧
  (i.op = .hostCall → ∀ x ∈ i.callArgs, ¬ Unlinked fn x)

theorem Unlinked.nonneg {fn : IrFunction} {x : Int} (h : Unlinked fn x) : 0 ≤ x := by
  obtain ⟨q, j, hj, hq, rfl⟩ := h
  simp only [unlinks, hj, dceRemovable, Bool.and_eq_true, decide_eq_true_eq] at hq
  exact hq.1.2

section
variable {fn : IrFunction} {p : Point} {i : IrInst} (hi : fn.instAt p = some i)
  (hp : unlinks fn p = false)
include hi hp

theorem not_unlinked_of_usesValue {x : Int} (h : i.usesValue x = true) : ¬ Unlinked fn x := by
  rintro ⟨q, j, hj, hq, rfl⟩
  simp [usesValue_of_unlinks hj hq hi hp] at h

theorem operand_not_unlinked (k : Nat) : ¬ Unlinked fn (i.operand k) := by
  by_cases hk : k < i.operands.length
  · refine not_unlinked_of_usesValue hi hp ?_
    have : i.operand k ∈ i.operands := by simp [IrInst.operand, hk]
    simp [IrInst.usesValue, this]
  · have : i.operand k = -1 := by simp [IrInst.operand, Nat.not_lt.mp hk]
    exact fun h => by have := h.nonneg; omega

theorem callArg_not_unlinked (hop : i.op = .call) {x : Int} (hx : x ∈ i.callArgs) :
    ¬ Unlinked fn x :=
  not_unlinked_of_usesValue hi hp (by simp [IrInst.usesValue, hop, hx])

theorem phiArg_not_unlinked (hop : i.op = .phi) {a : Int × Int} (ha : a ∈ i.phiArgs) :
    ¬ Unlinked fn a.1 :=
  not_unlinked_of_usesValue hi hp (by
    simp only [IrInst.usesValue, hop, Bool.or_eq_true]
    exact .inr (by simpa using ⟨a.2, ha⟩))

end

/-! ## The simulation -/

/-- The activations agree on every id and every slot that is not unlinked. -/
structure Agree (fn : IrFunction) (fr fr' : Frame) : Prop where
  env : ∀ x, ¬ Unlinked fn x → fr'.env x = fr.env x
  slots : ∀ x, ¬ Unlinked fn x → fr'.slots x = fr.slots x

theorem Agree.set {fn : IrFunction} {fr fr' : Frame} (h : Agree fn fr fr') (id : Int) (v : Val) :
    Agree fn (fr.set id v) (fr'.set id v) where
  env x hx := by
    by_cases hid : 0 ≤ id
    · by_cases hxid : x = id
      · rw [hxid, Frame.set_env_self hid, Frame.set_env_self hid]
      · rw [Frame.set_env_of_ne hxid, Frame.set_env_of_ne hxid, h.env x hx]
    · simpa [Frame.set, Int.not_le.mp hid] using h.env x hx
  slots x hx := by simpa using h.slots x hx

theorem Agree.setSlot {fn : IrFunction} {fr fr' : Frame} (h : Agree fn fr fr') (s : Int)
    (v : Val) : Agree fn (fr.setSlot s v) (fr'.setSlot s v) where
  env x hx := by simpa using h.env x hx
  slots x hx := by
    by_cases hxs : x = s
    · simp [hxs]
    · simpa [Function.update_of_ne hxs] using h.slots x hx

/-- The same flow, up to what is unlinked. -/
def FlowAgree (fn : IrFunction) : Flow → Flow → Prop
  | .next fr tr, .next fr' tr' => tr = tr' ∧ Agree fn fr fr'
  | .jump t fr tr, .jump t' fr' tr' => t = t' ∧ tr = tr' ∧ Agree fn fr fr'
  | .stop o, .stop o' => o = o'
  | _, _ => False

theorem FlowAgree.assign {fn : IrFunction} {fr fr' : Frame} (h : Agree fn fr fr') (tr : Trace)
    (id : Int) (o : Option Val) :
    FlowAgree fn (Flow.assign fr tr id o) (Flow.assign fr' tr id o) := by
  cases o with
  | none => rfl
  | some v => exact ⟨rfl, h.set id v⟩

theorem FlowAgree.afterCall {fn : IrFunction} {fr fr' : Frame} (h : Agree fn fr fr') (id : Int)
    (o : Outcome) : FlowAgree fn (Flow.afterCall fr id o) (Flow.afterCall fr' id o) := by
  cases o with
  | ret v tr => exact ⟨rfl, h.set id _⟩
  | trap tr | stuck tr | timeout tr => rfl

/-- Everything the relation of the simulation says. -/
structure DceRel (fn : IrFunction) (p : Point) (entry : Int → Val) (fr : Frame)
    (entry' : Int → Val) (fr' : Frame) : Prop where
  known : Known fn p fr
  entry : ∀ x, ¬ Unlinked fn x → entry' x = entry x
  agree : Agree fn fr fr'

section
variable {fa : FloatArith} {fn : IrFunction} (wf : fn.WellFormed) {p : Point} {i : IrInst}
  (hi : fn.instAt p = some i) {host : Host} {callee : String → List Val → Trace → Outcome}
  {path : Path} {prev : Int} {entry entry' : Int → Val} {fr fr' : Frame} {tr : Trace}
include wf hi

/-- In SSA form a load or store finds the address of its slot. -/
theorem env_address {a : Int} (hk : Known fn p fr) (ha : a ∈ i.operands) {q : Point}
    {j : IrInst} (hj : fn.instAt q = some j) (hop : j.op = .alloca) (hja : j.id = a) :
    fr.env a = .addr a :=
  wf.env_static hi hk (List.mem_append_left _ ha) hj hja (by simp [IrInst.staticVal, hop, hja])

/-- An instruction that stays does the same on both sides. -/
theorem execInst_kept (hp : unlinks fn p = false) (hG : DceGuard fa fn path p i fr)
    (hR : DceRel fn p entry fr entry' fr') :
    FlowAgree fn (execInst fa host callee entry prev i fr tr)
      (execInst fa host callee entry' prev i fr' tr) := by
  have hop : ∀ k, fr'.env (i.operand k) = fr.env (i.operand k) :=
    fun k => hR.agree.env _ (operand_not_unlinked hi hp k)
  have hargs : (∀ x ∈ i.callArgs, ¬ Unlinked fn x) →
      i.callArgs.map fr'.env = i.callArgs.map fr.env :=
    fun h => List.map_congr_left fun x hx => hR.agree.env x (h x hx)
  have hset : ∀ v, FlowAgree fn (.next (fr.set i.id v) tr) (.next (fr'.set i.id v) tr) :=
    fun v => ⟨rfl, hR.agree.set i.id v⟩
  cases ho : i.op <;> simp only [execInst, ho, hop]
  case add | sub | mul | div | mod | fadd | fsub | fmul | fdiv | cmpEq | cmpNe | cmpLt | cmpGt
      | cmpLe | cmpGe | and | or | strConcat | gep => exact .assign hR.agree _ _ _
  case constInt | constFloat | constString | constBool | neg | not | cast => exact hset _
  case alloca => exact ⟨rfl, (hR.agree.set _ _).setSlot _ _⟩
  case load =>
    obtain ⟨q, j, hj, hja, hops⟩ := (wf.address p i hi).1 ho
    have ha : i.operand 0 = j.id := by simp [IrInst.operand, hops]
    rw [ha, env_address wf hi hR.known (by simp [hops]) hj hja rfl]
    simp only [hR.agree.slots j.id (ha ▸ operand_not_unlinked hi hp 0)]
    exact hset _
  case store =>
    split
    · exact ⟨rfl, hR.agree.setSlot _ _⟩
    · rfl
  case call =>
    rw [hargs fun x => callArg_not_unlinked hi hp ho]
    exact .afterCall hR.agree _ _
  case hostCall =>
    rw [hargs (hG.2 ho)]
    exact ⟨rfl, hR.agree.set i.id _⟩
  case ret =>
    cases hops : i.operands with
    | nil => rfl
    | cons v vs =>
        have : i.operand 0 = v := by simp [IrInst.operand, hops]
        simp only [← this, hop]
        rfl
  case br =>
    split
    · exact ⟨rfl, rfl, hR.agree⟩
    · rfl
  case jmp => exact ⟨rfl, rfl, hR.agree⟩
  case phi =>
    have : phiValue entry' prev i.phiArgs = phiValue entry prev i.phiArgs := by
      unfold phiValue
      cases hf : i.phiArgs.find? (fun a => a.2 == prev) with
      | none => rfl
      | some a => exact hR.entry _ (phiArg_not_unlinked hi hp ho (List.mem_of_find?_eq_some hf))
    rw [this]
    exact hset _
  case print => exact ⟨rfl, hR.agree⟩
  case nop => exact ⟨rfl, hR.agree⟩

/-- An instruction that is unlinked goes on without a trace, and touches only
its own id and slot. -/
theorem execInst_unlinked (hp : unlinks fn p = true) (hG : DceGuard fa fn path p i fr)
    (hk : Known fn p fr) : ∃ fr₁, execInst fa host callee entry prev i fr tr = .next fr₁ tr ∧
      ∀ s, s ≠ i.id → fr₁.slots s = fr.slots s := by
  have hpure : hasSideEffects i.op = false := by
    simp only [unlinks, hi, dceRemovable, Bool.and_eq_true, Bool.not_eq_true'] at hp
    exact hp.1.1
  obtain ⟨hnh, htrap⟩ := hG.1 hp
  have hset : ∀ v s, s ≠ i.id → (fr.set i.id v).slots s = fr.slots s := by simp
  have assign : ∀ o : Option Val, o ≠ none →
      ∃ fr₁, Flow.assign fr tr i.id o = .next fr₁ tr ∧ ∀ s, s ≠ i.id → fr₁.slots s = fr.slots s := by
    rintro (_ | v) h
    · exact absurd rfl h
    · exact ⟨_, rfl, hset v⟩
  cases ho : i.op <;> simp only [hasSideEffects, ho, reduceCtorEq] at hpure <;>
    simp only [execInst, ho]
  case div | mod =>
    rw [← ho]
    exact assign _ (htrap (by simp [ho]))
  case add | sub | mul | fadd | fsub | fmul | fdiv | cmpEq | cmpNe | cmpLt | cmpGt
      | cmpLe | cmpGe | and | or | strConcat | gep =>
    exact assign _ (evalBinop_ne_none fa (by decide) (by decide) _ _)
  case alloca =>
    exact ⟨_, rfl, fun s hs => by simp [Function.update_of_ne hs]⟩
  case load =>
    obtain ⟨q, j, hj, hja, hops⟩ := (wf.address p i hi).1 ho
    have ha : i.operand 0 = j.id := by simp [IrInst.operand, hops]
    rw [ha, env_address wf hi hk (by simp [hops]) hj hja rfl]
    exact ⟨_, rfl, hset _⟩
  case hostCall => exact absurd ho hnh
  all_goals exact ⟨_, rfl, fun s hs => by simp⟩

theorem stepSim_kept (hp : unlinks fn p = false) :
    StepSim fa (DceGuard fa fn) (fun _ => DceRel fn) p i (some i) := by
  intro host callee path entry prev fr entry' fr' tr hR hG
  have hf : FlowAgree fn (execInst fa host callee entry prev i fr tr)
      (execInst fa host callee entry' prev i fr' tr) := execInst_kept wf hi hp hG hR
  cases he : execInst fa host callee entry prev i fr tr <;>
    cases he' : execInst fa host callee entry' prev i fr' tr <;>
    simp only [he, he', FlowAgree] at hf
  case next.next =>
    exact ⟨hf.1, (wf.known fa).next hi hR.known he, hR.entry, hf.2⟩
  case jump.jump =>
    exact ⟨hf.1, hf.2.1, (wf.known fa).jump hi hR.known he, hf.2.2.env, hf.2.2⟩
  case stop.stop => exact hf

theorem stepSim_unlinked (hp : unlinks fn p = true) :
    StepSim fa (DceGuard fa fn) (fun _ => DceRel fn) p i none := by
  intro host callee path entry prev fr entry' fr' tr hR hG
  obtain ⟨fr₁, he, hslots⟩ : ∃ fr₁, execInst fa host callee entry prev i fr tr = .next fr₁ tr ∧
      ∀ s, s ≠ i.id → fr₁.slots s = fr.slots s := execInst_unlinked wf hi hp hG hR.known
  have hself : Unlinked fn i.id := ⟨p, i, hi, hp, rfl⟩
  refine ⟨fr₁, he, (wf.known fa).next hi hR.known he, hR.entry, ⟨?_, ?_⟩⟩
  · intro x hx
    have hxi : x ≠ i.id := by rintro rfl; exact hx hself
    rw [execInst_env_of_ne he hxi, hR.agree.env x hx]
  · intro x hx
    have hxi : x ≠ i.id := by rintro rfl; exact hx hself
    rw [hslots x hxi, hR.agree.slots x hx]

end

/-- A block against what stays of it, by induction on the rest of the block. -/
theorem listSim_dce {fa : FloatArith} {fn : IrFunction} (wf : fn.WellFormed) {b : Nat}
    {full : List IrInst} (hb : fn.blockInsts b = some full) :
    ∀ (is : List IrInst) (k : Nat), full.drop k = is →
      ListSim fa (DceGuard fa fn) (fun _ => DceRel fn) ⟨b, k⟩ is (keptInsts fn b k is)
  | [], _, _ => .nil
  | i :: is, k, hd => by
      obtain ⟨hi, hd'⟩ := fn.instAt_next (p := ⟨b, k⟩) hb hd
      rw [keptInsts]
      cases hp : unlinks fn ⟨b, k⟩ with
      | false => exact .keep (stepSim_kept wf hi hp) (listSim_dce wf hb is (k + 1) hd')
      | true => exact .drop (stepSim_unlinked wf hi hp) (listSim_dce wf hb is (k + 1) hd')

theorem dceFunction_name (fn : IrFunction) :
    (dceFunction fn).1.name = fn.name ∧ (dceFunction fn).1.params = fn.params := by
  have : ∀ b, (dceUpTo fn b).1.name = fn.name ∧ (dceUpTo fn b).1.params = fn.params := by
    intro b
    induction b with
    | zero => exact ⟨rfl, rfl⟩
    | succ b ih =>
        simp only [dceUpTo, dceBlock]
        split <;> exact ih
  exact this _

theorem fnSim_dce {fa : FloatArith} {fn : IrFunction} (wf : fn.WellFormed) :
    FnSim fa (DceGuard fa fn) fn (dceFunction fn).1 where
  name := (dceFunction_name fn).1
  params := (dceFunction_name fn).2
  rel := by
    refine ⟨fun _ => DceRel fn, ?_, ?_, ?_⟩
    · exact fun args => ⟨(wf.known fa).entry args, fun _ _ => rfl, fun _ _ => rfl, fun _ _ => rfl⟩
    · intro b is hb
      have hb0 : b = (b.toNat : Int) := by
        have : ¬ b < 0 := fun h => by simp [IrFunction.blockInsts, h] at hb
        omega
      refine ⟨keptInsts fn b.toNat 0 is, by rw [blockInsts_dce, hb]; rfl, ?_⟩
      rw [hb0] at hb ⊢
      exact listSim_dce wf hb is 0 rfl
    · intro b hb
      rw [blockInsts_dce, hb]
      rfl

/-! ## The verdict -/

/-- Nothing that is an argument of a remaining call or host call is unlinked. -/
def ArgsRemain (fn : IrFunction) : Prop :=
  ∀ i ∈ (dceFunction fn).1.insts, i.op = .call ∨ i.op = .hostCall →
    ∀ x ∈ i.callArgs, ¬ Unlinked fn x

theorem mem_insts_dce {fn : IrFunction} {i : IrInst} :
    i ∈ (dceFunction fn).1.insts ↔ ∃ p, fn.instAt p = some i ∧ unlinks fn p = false := by
  constructor
  · intro h
    obtain ⟨p, hp⟩ := instAt_of_mem h
    obtain ⟨b, bb, hpb, hbb, hk⟩ := instAt_some hp
    have hins : (dceFunction fn).1.blockInsts b = some bb.insts := by simp [hbb]
    rw [blockInsts_dce, IrFunction.blockInsts_natCast, Int.toNat_natCast] at hins
    obtain ⟨is, his, hkept⟩ := Option.map_eq_some_iff.mp hins
    obtain ⟨l, hl, hu⟩ := mem_keptInsts.mp (hkept ▸ List.mem_of_getElem? hk)
    refine ⟨⟨b, l⟩, ?_, by simpa using hu⟩
    rw [IrFunction.instAt, IrFunction.blockInsts_natCast, his]
    exact hl
  · rintro ⟨⟨pb, k⟩, hp, hu⟩
    obtain ⟨b, bb, hpb, hbb, hk⟩ := instAt_some hp
    obtain rfl : pb = b := hpb
    have hins := blockInsts_dce fn b
    rw [IrFunction.blockInsts_natCast, IrFunction.blockInsts_natCast, hbb, Int.toNat_natCast,
      Option.map_some, Option.map_some] at hins
    obtain ⟨bb', hbb', heq⟩ := Option.map_eq_some_iff.mp hins
    refine List.mem_flatMap.mpr ⟨bb', List.mem_of_getElem? hbb', ?_⟩
    rw [heq]
    exact mem_keptInsts.mpr ⟨k, hk, by simpa using hu⟩

/-- Dead-code elimination preserves every run that does not come to an unlinked
host call, an unlinked division that traps, or a host call with an unlinked
argument.  Arguments of calls are never unlinked, and those of a remaining host
call only where the condition names it. -/
theorem dce_preserves (fa : FloatArith) (m : IrModule) (wf : m.WellFormed) :
    (∀ host n name args tr, RunMeets (DceGuard fa) fa host m n name args tr →
      runFn fa host (irOptDeadCodeElim m).1 n name args tr = runFn fa host m n name args tr) ∧
    ∀ fn ∈ m.functions, ArgsRemain fn ↔
      ∀ p i, fn.instAt p = some i → unlinks fn p = false → i.op = .hostCall →
        ∀ x ∈ i.callArgs, ¬ Unlinked fn x := by
  constructor
  · intro host n name args tr hmeets
    have hsim : ModSim fa (DceGuard fa) m (irOptDeadCodeElim m).1 := by
      refine List.forall₂_map_right_iff.mpr (List.forall₂_same.mpr ?_)
      exact fun fn hfn => fnSim_dce (wf fn hfn)
    exact (hsim.runFn_eq n name args tr hmeets).symm
  · intro fn _
    constructor
    · exact fun h p i hi hp hop => h i (mem_insts_dce.mpr ⟨p, hi, hp⟩) (.inr hop)
    · intro h i hmem hop x hx
      obtain ⟨p, hi, hp⟩ := mem_insts_dce.mp hmem
      rcases hop with hop | hop
      · exact callArg_not_unlinked hi hp hop hx
      · exact h p i hi hp hop x hx

/-- `%0 = 7` is not used; the function returns `8 + 8`. -/
def unusedConstModule : IrModule where
  functions := [
    { name := "lcn_f", returnType := .i64, nextValue := 3
      blocks := [
        { label := some "entry"
          insts := [
            { id := 0, op := .constInt, type := .i64, immInt := 7 },
            { id := 1, op := .constInt, type := .i64, immInt := 8 },
            { id := 2, op := .add, type := .i64, operands := [1, 1] },
            { id := -1, op := .ret, type := .void, operands := [2] }] }] }]

theorem dce_preserves_unusedConst :
    irOptDeadCodeElim unusedConstModule ≠ (unusedConstModule, 0) ∧
    runFn .unused .echo (irOptDeadCodeElim unusedConstModule).1 1 "lcn_f" [] [] =
      runFn .unused .echo unusedConstModule 1 "lcn_f" [] [] := by
  refine ⟨by decide, ?_⟩
  have wf : unusedConstModule.WellFormed := by
    rintro fn hfn
    obtain rfl := List.mem_singleton.mp hfn
    exact IrFunction.wellFormed_of_ssaCheck (by decide)
  refine (dce_preserves .unused unusedConstModule wf).1 .echo 1 "lcn_f" [] []
    (RunMeets.of_points ?_ 1 "lcn_f" [] [])
  rintro fn hfn h p i fr hi
  have hops : ∀ j ∈ fn.insts, j.op ≠ .hostCall ∧ j.op ≠ .div ∧ j.op ≠ .mod := by
    obtain rfl := List.mem_singleton.mp hfn
    decide
  obtain ⟨b, bb, -, hbb, hk⟩ := instAt_some hi
  obtain ⟨hh, hd, hm⟩ := hops i
    (List.mem_flatMap.mpr ⟨bb, List.mem_of_getElem? hbb, List.mem_of_getElem? hk⟩)
  exact ⟨fun _ => ⟨hh, fun h => (h.elim hd hm).elim⟩, fun h => (hh h).elim⟩

/-- `fn() -> int { log.info(7) }` in SSA form. -/
def hostArgModule : IrModule where
  functions := [
    { name := "lcn_f", returnType := .i64, nextValue := 2
      blocks := [
        { label := some "entry"
          insts := [
            { id := 0, op := .constInt, type := .i64, immInt := 7 },
            { id := 1, op := .hostCall, type := .i64, fnName := some "log.info", callArgs := [0] },
            { id := -1, op := .ret, type := .void, operands := [1] }] }] }]

/-- The walk finds no use of `%0` and unlinks it, so the host is called with
an id that nothing assigns. -/
theorem dce_hostArg : ¬ ∀ (fa : FloatArith) (m : IrModule), m.WellFormed →
    SameRuns fa m (irOptDeadCodeElim m).1 ∧ ∀ fn ∈ m.functions, ArgsRemain fn := by
  intro h
  have wf : hostArgModule.WellFormed := by
    rintro fn hfn
    obtain rfl := List.mem_singleton.mp hfn
    exact IrFunction.wellFormed_of_ssaCheck (by decide)
  have hsame := (h .unused hostArgModule wf).1 .echo 1 "lcn_f" [] []
  have hbefore : runFn .unused .echo hostArgModule 1 "lcn_f" [] [] =
      .ret (some (.word 7)) [.host "log.info" [.word 7] (.word 7)] := rfl
  have hafter : runFn .unused .echo (irOptDeadCodeElim hostArgModule).1 1 "lcn_f" [] [] =
      .ret (some .unset) [.host "log.info" [.unset] .unset] := rfl
  rw [hbefore, hafter] at hsame
  simp at hsame

end Limceron
