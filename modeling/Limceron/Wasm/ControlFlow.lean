/-
# `Limceron.Wasm.ControlFlow` — the dispatch loop follows the IR

Run on an instance, a function over ints and bools visits the blocks the IR
visits, enters each with its phis at the values of their pairs, and ends alike:
`ControlFollows`, and `controlFollows` for every run that meets four conditions.

| condition | what the emitter does otherwise |
| :-- | :-- |
| ids below `WASM_MAX_LOCALS` | no local and no type for the value |
| an edge copies as if at once (`EdgeKept`) | a phi reads the new value of an earlier phi |
| a cast to bool of 0 or 1 | `i32.wrap_i64` drops the high half |
| room for the slots | an alloca goes past the end of the page |

The second is what the copies at the predecessor are about.  They are emitted
phi by phi, while the phis of a block are simultaneous; a loop that swaps two
variables comes out wrong (`control_departs`).
-/
import Limceron.Wasm.Steps

namespace Limceron

/-- Where a terminator goes. -/
def IrInst.takes (i : IrInst) (env : Int → Val) : Option Int :=
  match i.op with
  | .jmp => some i.targetBb
  | .br =>
      match env (i.operand 0) with
      | .word c => some (if c != 0 then i.targetBb else i.falseBb)
      | _ => none
  | _ => none

namespace Wasm

/-! ## The conditions -/

/-- On the edge from `src`, a phi that is the source of a later one keeps its
value. -/
def EdgeKept (fn : IrFunction) (env : Int → Val) (src target : Int) : Prop :=
  ∀ is, fn.blockInsts target = some is → Copies.Kept (phiMoves src is) env

/-- The conditions on the instructions of a run. -/
def controlGuard (fn : IrFunction) : Guard := fun _ p i fr =>
  (i.op = .cast → CastKept i fr) ∧ ∀ t, i.takes fr.env = some t → EdgeKept fn fr.env p.bb t

/-! ## Copies -/

section
variable {fa : FloatArith} {whost : WasmHost} {wcallee : String → List (BitVec 64) → Store → Res}
  {again : Label → List WInstr → St → Res}

theorem phiSource_nonneg {src v : Int} {i : IrInst} (h : phiSource src i = some v) : 0 ≤ v := by
  rw [phiSource] at h
  split at h
  · split at h
    · cases h
    · obtain rfl := Option.some.inj h
      omega
  · cases h

theorem execSeq_phiCopies {src : Int} {is : List IrInst} (hid : ∀ i ∈ is, i.op = .phi → 0 ≤ i.id)
    (rest : List WInstr) (st : St) :
    execSeq fa whost wcallee again (phiCopies src is ++ rest) st =
      execSeq fa whost wcallee again rest
        { st with locals := Copies.inOrder (phiMoves src is) st.locals } := by
  induction is generalizing st with
  | nil => rfl
  | cons i is ih =>
      have hrest := ih fun j hj => hid j (List.mem_cons_of_mem i hj)
      rw [phiCopies] at hrest ⊢
      rw [List.flatMap_cons, List.append_assoc, phiMoves, List.filterMap_cons]
      by_cases hop : i.op = .phi
      · simp only [if_pos hop]
        cases hsrc : phiSource src i with
        | none => exact hrest st
        | some v =>
            simp only [List.cons_append, List.nil_append, Option.map_some]
            rw [execSeq_pushValue (phiSource_nonneg hsrc),
              execSeq_setValue (hid i List.mem_cons_self hop)]
            exact hrest _
      · simp only [if_neg hop]
        exact hrest st

theorem execSeq_emitEdge {fn : IrFunction} {src : Int} {k : Nat} {is : List IrInst}
    (his : fn.blockInsts k = some is) (hid : ∀ i ∈ is, i.op = .phi → 0 ≤ i.id)
    (rest : List WInstr) (st : St) :
    execSeq fa whost wcallee again (emitEdge fn src k ++ rest) st =
      execSeq fa whost wcallee again rest
        { st with
          locals := Copies.inOrder (phiMoves src is) st.locals
          bb := BitVec.ofNat 32 k } := by
  have hk : ((BitVec.ofInt 32 k).setWidth 64).setWidth 32 = BitVec.ofNat 32 k := by
    rw [BitVec.setWidth_setWidth_of_le _ (by decide), BitVec.setWidth_eq, BitVec.ofInt_natCast]
  rw [emitEdge, emitPhiAssignments, his, List.append_assoc, execSeq_phiCopies hid]
  rw [List.cons_append, List.cons_append, List.nil_append, execSeq_const, execSeq_bbSet]
  simp only [St.top_push, St.pop_push, hk]

end

/-! ## The end of a block -/

/-- How a block ends: by an edge, or with the function. -/
def RoundSim (fn : IrFunction) (vars : Int → IrType) (base : Nat)
    (cont : Path → Int → Frame → Trace → Prop) (b : Int) (s : Store) (log : List RunEvent) :
    Flow → Res → Prop
  | .jump t fr' tr', .br .dispatch st' =>
      (∃ tbl' k, t = (k : Nat) ∧ k < fn.blocks.length ∧ st'.bb = BitVec.ofNat 32 k ∧
        Related fn vars base tbl' (.start t) fr'.env b fr' st') ∧
      (∃ h', cont h' t fr' tr') ∧ Ended base s log st'.store
  | .stop o, r => Gives fn.returnType o r ∧ Ended base s log r.store
  | _, _ => False

theorem Halts.gives {o : Outcome} {r : Res} (h : Halts o r) (τ : IrType) : Gives τ o r := by
  cases o <;> cases r <;> first | exact trivial | cases h

/-- A function that ends alike has left its loop. -/
theorem Gives.ended {τ : IrType} {o : Outcome} {r : Res} (h : Gives τ o r) :
    (∃ vs s, r = .ret vs s) ∨ (∃ s, r = .trap s) ∨ ∃ s, r = .timeout s := by
  cases o with
  | ret v tr =>
      cases v with
      | none =>
          obtain ⟨-, s, rfl⟩ := h.retNone
          exact .inl ⟨[], s, rfl⟩
      | some v =>
          obtain ⟨-, c, s, rfl, -⟩ := h.retSome
          exact .inl ⟨[c], s, rfl⟩
  | trap tr => exact .inr (.inl h.trap)
  | timeout tr => exact .inr (.inr h.timeout)
  | stuck tr => exact h.not_stuck.elim

theorem Gives.escapes {τ : IrType} {o : Outcome} {r : Res} (h : Gives τ o r) : r.Escapes := by
  rcases h.ended with ⟨vs, s, rfl⟩ | ⟨s, rfl⟩ | ⟨s, rfl⟩
  · exact .ret vs s
  · exact .trap s
  · exact .timeout s

section
variable {m : IrModule} {fn : IrFunction} {vars : Int → IrType} {base : Nat}
  {cont : Path → Int → Frame → Trace → Prop} {b : Int} {s s' : Store} {l l' : List RunEvent}
  {f : Flow} {r : Res}

theorem RoundSim.not_next {fr : Frame} {tr : Trace}
    (h : RoundSim fn vars base cont b s l (.next fr tr) r) : False := by
  cases r <;> cases h

theorem RoundSim.jump {t : Int} {fr : Frame} {tr : Trace}
    (h : RoundSim fn vars base cont b s l (.jump t fr tr) r) : ∃ st', r = .br .dispatch st' ∧
      (∃ tbl' k, t = (k : Nat) ∧ k < fn.blocks.length ∧ st'.bb = BitVec.ofNat 32 k ∧
        Related fn vars base tbl' (.start t) fr.env b fr st') ∧
      (∃ h', cont h' t fr tr) ∧ Ended base s l st'.store := by
  match r, h with
  | .br .dispatch st', h => exact ⟨st', rfl, h⟩

theorem RoundSim.after (h : RoundSim fn vars base cont b s' l' f r) (he : Ended base s l s') :
    RoundSim fn vars base cont b s (l ++ l') f r := by
  cases f with
  | next fr tr => exact h.not_next.elim
  | jump t fr tr =>
      obtain ⟨st', rfl, hrel, hcont, hended⟩ := h.jump
      exact ⟨hrel, hcont, he.trans hended⟩
  | stop o => exact ⟨h.1, he.trans h.2⟩

theorem RoundSim.escapes (h : RoundSim fn vars base cont b s l f r) : r.Escapes := by
  cases f with
  | next fr tr => exact h.not_next.elim
  | jump t fr tr =>
      obtain ⟨st', rfl, -⟩ := h.jump
      exact .dispatch st'
  | stop o => exact h.1.escapes

end

section
variable {m : IrModule} {fn : IrFunction} {vars : Int → IrType} {base : Nat} {tbl : SlotTable}
  {p : Point} {entry : Int → Val} {prev : Int} {fr : Frame} {st : St} {i : IrInst}
  {fa : FloatArith} {whost : WasmHost} {wcallee : String → List (BitVec 64) → Store → Res}
  {again : Label → List WInstr → St → Res} {host : Host}
  {callee : String → List Val → Trace → Outcome} {cont : Path → Int → Frame → Trace → Prop}

/-- A block of a function has an index. -/
theorem blockInsts_index {t : Int} (h : (fn.blockInsts t).isSome = true) :
    ∃ (k : Nat) (is : List IrInst), t = k ∧ k < fn.blocks.length ∧ fn.blockInsts k = some is := by
  obtain ⟨is, his⟩ := Option.isSome_iff_exists.mp h
  have hnn : ¬ t < 0 := by
    intro hneg
    rw [IrFunction.blockInsts, if_pos hneg] at his
    cases his
  have hk : ((t.toNat : Nat) : Int) = t := by omega
  refine ⟨t.toNat, is, hk.symm, ?_, by rw [hk, his]⟩
  rw [IrFunction.blockInsts, if_neg hnn] at his
  obtain ⟨bb, hbb, -⟩ := Option.map_eq_some_iff.mp his
  exact (List.getElem?_eq_some_iff.mp hbb).1

variable (hfn : fn.IntBool m vars) (h : Related fn vars base tbl p entry prev fr st)
  (hi : fn.instAt p = some i) (hterm : i.isTerminator = true)
include hfn h hi hterm

/-- The edge from a terminator to a block: copies, then back to the dispatcher. -/
theorem roundSim_edge {t : Int} (hs : fn.Succ p (.start t))
    (hsome : (fn.blockInsts t).isSome = true) (hk : EdgeKept fn fr.env p.bb t) {path : Path} {tr : Trace} (hcont : cont path t fr tr) :
    RoundSim fn vars base cont p.bb st.store [] (.jump t fr tr)
      (execSeq fa whost wcallee again (emitEdge fn p.bb t ++ [.br .dispatch]) st) := by
  obtain ⟨k, is, rfl, hlt, his⟩ := blockInsts_index hsome
  have hid : ∀ i ∈ is, i.op = .phi → 0 ≤ i.id := by
    intro j hj hop
    obtain ⟨n, hn, rfl⟩ := List.mem_iff_getElem.mp hj
    have hjt : fn.instAt ⟨k, n⟩ = some is[n] := by
      rw [instAt_of_blockInsts his, List.getElem?_eq_getElem hn]
    simpa [hop, IrOpcode.hasResult] using hfn.ssa.result _ _ hjt
  rw [execSeq_emitEdge his hid, execSeq_br]
  exact ⟨⟨tbl, k, rfl, hlt, rfl, h.edge hfn hi hterm hs his (hk is his) rfl h.stack rfl⟩,
    ⟨path, hcont⟩, .refl base h.slots.zero⟩

/-- The code of a terminator. -/
theorem roundSim_terminator (ctx : EmitCtx) {b : Nat} (hb : p.bb = b) {path : Path} {tr : Trace}
    (hguard : ∀ t, i.takes fr.env = some t → EdgeKept fn fr.env p.bb t)
    (hcont : ∀ t fr' tr', execInst fa host callee entry prev i fr tr = .jump t fr' tr' →
      cont path t fr' tr') :
    RoundSim fn vars base cont p.bb st.store [] (execInst fa host callee entry prev i fr tr)
      (execSeq fa whost wcallee again (emitInstruction ctx fn b i) st) := by
  have htyped := hfn.typed p i hi
  have htargets := hfn.targets p i hi
  have hop : i.op = .ret ∨ i.op = .br ∨ i.op = .jmp := by
    simpa [IrInst.isTerminator, or_assoc] using hterm
  rcases hop with hop | hop | hop <;>
    simp only [IrFunction.Typed, hop] at htyped htargets <;>
    simp only [IrInst.takes, execInst, emitInstruction, hop] at hguard hcont ⊢
  case inl =>
    by_cases hvoid : fn.returnType = .void
    · rw [if_pos hvoid] at htyped
      rw [htyped]
      simp only [List.nil_append]
      rw [execSeq_ret, h.stack]
      exact ⟨hvoid, .refl base h.slots.zero⟩
    · rw [if_neg hvoid] at htyped
      obtain ⟨v, hops, hv⟩ := htyped
      have hτ := hfn.returns.resolve_left hvoid
      obtain ⟨hnn, hcell⟩ := Related.operand hfn h hi (by simp [IrInst.uses, hops]) hv hτ
      rw [hops]
      simp only [if_pos hnn, List.cons_append, List.nil_append]
      rw [execSeq_pushValue hnn, execSeq_ret, St.push_stack, h.stack]
      exact ⟨⟨hvoid, hcell⟩, .refl base h.slots.zero⟩
  case inr.inr =>
    rw [← hb]
    exact roundSim_edge hfn h hi hterm
      ⟨i, hi, .inl ⟨.inl hop, rfl⟩⟩ (htargets.1 (by simp)) (hguard _ rfl) (hcont _ _ _ rfl)
  case inr.inl =>
    obtain ⟨c, hops, hc⟩ := htyped
    obtain ⟨hnn, hcell⟩ := Related.operand hfn h hi (by simp [IrInst.uses, hops]) hc rfl
    have h0 : i.operand 0 = c := by rw [IrInst.operand, hops]; rfl
    rw [h0, hcell.val] at hguard hcont ⊢
    simp only at hguard hcont ⊢
    have hedge : ∀ t, fn.Succ p (.start t) → (fn.blockInsts t).isSome = true →
        EdgeKept fn fr.env p.bb t → cont path t fr tr →
        RoundSim fn vars base cont p.bb st.store [] (.jump t fr tr)
          ((execSeq fa whost wcallee again (emitEdge fn p.bb t) st).andThen
            (execSeq fa whost wcallee again [.br .dispatch])) := by
      intro t hs hsome hk hct
      rw [← execSeq_append]
      exact roundSim_edge hfn h hi hterm hs hsome hk hct
    rw [execSeq_pushValue hnn, execSeq_cons, execInstr, St.top_push, St.pop_push, ← hb]
    rcases hcell.word rfl with hz | ho
    · rw [hz] at hguard hcont ⊢
      exact hedge _ ⟨i, hi, .inr (.inl ⟨hop, rfl⟩)⟩ (htargets.2 trivial) (hguard _ rfl)
        (hcont _ _ _ rfl)
    · rw [ho] at hguard hcont ⊢
      exact hedge _ ⟨i, hi, .inl ⟨.inr hop, rfl⟩⟩ (htargets.1 (by simp)) (hguard _ rfl)
        (hcont _ _ _ rfl)

omit hi hterm in
/-- The rest of a block: its instructions, then its terminator. -/
theorem roundSim_insts (hm : m.IntBool) (hsmall : fn.SmallIds)
    {calleeLog : String → List Val → Trace → List RunEvent}
    {calleeMeets : String → List Val → Trace → Prop}
    (hcallee : CalleeSim m callee calleeLog calleeMeets wcallee) (ctx : EmitCtx) {b : Nat}
    {full : List IrInst} {t : IrInst} (ht : t.isTerminator = true) (body : List IrInst)
    (hbody : ∀ i ∈ body, i.isTerminator = false) (hb : p.bb = b)
    (hfull : fn.blockInsts p.bb = some full) (hdrop : full.drop p.idx = body ++ [t]) {path : Path}
    {tr : Trace} (hmeets : InstsMeet (controlGuard fn) fa host callee calleeMeets cont entry prev
      path p (body ++ [t]) fr tr)
    (hfit : st.store.bump.toNat +
      8 * slotCount (instsLog fa host callee calleeLog entry prev (body ++ [t]) fr tr) ≤
        memorySize) :
    RoundSim fn vars base cont p.bb st.store
      (instsLog fa host callee calleeLog entry prev (body ++ [t]) fr tr)
      (execInsts fa host callee entry prev (body ++ [t]) fr tr)
      (execSeq fa whost wcallee again ((body ++ [t]).flatMap (emitInstruction ctx fn b)) st) := by
  induction body generalizing p fr st tr path tbl with
  | nil =>
      obtain ⟨hi, -⟩ := fn.instAt_next hfull hdrop
      obtain ⟨⟨-, hguard⟩, -, hrest⟩ := hmeets
      have hlog : instLog calleeLog t fr tr = [] := by
        have hop : t.op = .ret ∨ t.op = .br ∨ t.op = .jmp := by
          simpa [IrInst.isTerminator, or_assoc] using ht
        rcases hop with hop | hop | hop <;> simp only [instLog, hop]
      have hcont : ∀ t' fr' tr', execInst fa host callee entry prev t fr tr = .jump t' fr' tr' →
          cont (p :: path) t' fr' tr' := by
        intro t' fr' tr' hj
        rw [hj] at hrest
        exact hrest
      have hsim : RoundSim fn vars base cont p.bb st.store []
          (execInst fa host callee entry prev t fr tr)
          (execSeq fa whost wcallee again (emitInstruction ctx fn b t) st) :=
        roundSim_terminator hfn h hi ht ctx hb hguard hcont
      rw [List.nil_append, List.flatMap_singleton]
      simp only [instsLog, execInsts, hlog, List.nil_append]
      revert hsim
      cases execInst fa host callee entry prev t fr tr with
      | next fr' tr' => exact fun hsim => hsim.not_next.elim
      | jump t' fr' tr' => exact id
      | stop o => exact id
  | cons i body ih =>
      obtain ⟨hi, hdrop'⟩ := fn.instAt_next hfull hdrop
      obtain ⟨⟨hcast, -⟩, hcall, hrest⟩ := hmeets
      rw [List.cons_append] at hfit ⊢
      rw [List.flatMap_cons, execSeq_append]
      simp only [instsLog, execInsts, slotCount_append] at hfit ⊢
      have hsim : StepSim fn vars base p entry prev st.store (instLog calleeLog i fr tr)
          (execInst fa host callee entry prev i fr tr)
          (execSeq fa whost wcallee again (emitInstruction ctx fn b i) st) :=
        stepSim hfn h hi (hbody i List.mem_cons_self) hm hsmall hcast hcallee tr hcall (by omega)
          ctx b
      revert hsim hrest hfit
      cases execInst fa host callee entry prev i fr tr with
      | next fr' tr' =>
          cases execSeq fa whost wcallee again (emitInstruction ctx fn b i) st with
          | next st' =>
              rintro hrest hfit ⟨⟨tbl', hrel⟩, hended⟩
              have hbump := hended.bump
              simp only at hfit
              exact (ih hrel (fun j hj => hbody j (List.mem_cons_of_mem i hj)) hb hfull hdrop' hrest
                (by omega)).after hended
          | _ => exact fun _ _ => False.elim
      | jump t' fr' tr' => exact fun _ _ => False.elim
      | stop o =>
          rintro hrest hfit ⟨hhalts, hended⟩
          rw [List.append_nil, (hhalts.gives fn.returnType).escapes.andThen]
          exact ⟨hhalts.gives _, hended⟩

end

/-! ## Runs -/

section
variable (fa : FloatArith) (host : Host) (whost : WasmHost) (m : IrModule)

/-- Blocks of the functions of a module, followed for `n` rounds. -/
def BlockSim (n : Nat) : Prop :=
  ∀ fn ∈ m.functions, ∀ vars, fn.IntBool m vars → ∀ base tbl (b : Nat) prev path fr tr st,
    b < fn.blocks.length → st.bb = BitVec.ofNat 32 b →
    Related fn vars base tbl (.start b) fr.env prev fr st →
    BlockMeets controlGuard fa host m n fn b prev path fr tr →
    st.store.bump.toNat + 8 * slotCount (blockLog fa host m n fn b prev fr tr) ≤ memorySize →
    Gives fn.returnType (runBlock fa host m n fn b prev fr tr)
      (runCode fa whost (emitModule m) n [.loop .dispatch (dispatchBody (emitCtx m) fn)] st) ∧
    Ended base st.store (blockLog fa host m n fn b prev fr tr)
      (runCode fa whost (emitModule m) n [.loop .dispatch (dispatchBody (emitCtx m) fn)] st).store

variable {fa host whost m}

theorem Related.log {fn : IrFunction} {vars : Int → IrType} {base : Nat} {tbl : SlotTable}
    {p : Point} {entry : Int → Val} {prev : Int} {fr : Frame} {st : St}
    (h : Related fn vars base tbl p entry prev fr st) (e : StoreEvent) :
    Related fn vars base tbl p entry prev fr (st.log e) :=
  { h with slots := h.slots.of_same rfl rfl }

/-- Entering a block logs it with its phis. -/
theorem Related.visit {fn : IrFunction} {vars : Int → IrType} {base : Nat} {tbl : SlotTable}
    {b : Nat} {entry : Int → Val} {prev : Int} {fr : Frame} {st : St} {is : List IrInst}
    (h : Related fn vars base tbl (.start b) entry prev fr st) (his : fn.blockInsts b = some is)
    (hb : b < 2 ^ 32) :
    Ended base st.store [.visit b (phiValues entry prev is)]
      (st.log (.visit (BitVec.ofNat 32 b) st.locals)).store where
  bump := rfl
  kept _ _ := rfl
  zero := h.slots.zero
  events := by
    refine ⟨[.visit (BitVec.ofNat 32 b) st.locals], rfl, .cons ⟨?_, ?_⟩ .nil⟩
    · rw [BitVec.toNat_ofNat, Nat.mod_eq_of_lt hb]
    · intro pv hpv
      obtain ⟨i, hi, rfl⟩ := List.mem_map.mp hpv
      obtain ⟨hmem, hop⟩ := List.mem_filter.mp hi
      obtain ⟨k, hk, rfl⟩ := List.mem_iff_getElem.mp hmem
      have hat : fn.instAt ⟨b, k⟩ = some is[k] := by
        rw [instAt_of_blockInsts his, List.getElem?_eq_getElem hk]
      exact (h.phis k _ hat (Nat.zero_le k) (by simpa using hop)).val

theorem emitBlock_eq {ctx : EmitCtx} {fn : IrFunction} {b : Nat} {bb : IrBasicBlock}
    (hbb : fn.blocks[b]? = some bb) {body : List IrInst} {t : IrInst}
    (his : bb.insts = body ++ [t]) (ht : t.isTerminator = true) :
    blockCode ctx fn b = (body ++ [t]).flatMap (emitInstruction ctx fn b) := by
  have hlast : bb.last.any IrInst.isTerminator = true := by
    rw [IrBasicBlock.last, his, List.getLast?_append]
    simpa using ht
  rw [blockCode, hbb]
  simp only [emitBlock, if_pos hlast, List.append_nil, his]

/-- One more round. -/
theorem blockSim_succ (hm : m.IntBool) (hsmall : ∀ fn ∈ m.functions, fn.SmallIds) {n : Nat}
    (ih : BlockSim fa host whost m n)
    (hcallee : CalleeSim m (runFn fa host m n) (runLog fa host m n)
      (fun name args tr => ∀ g, m.lookup name = some g →
        BlockMeets controlGuard fa host m n g 0 (-1) [] (Frame.init g args) tr)
      (callFunc fa whost (emitModule m) n)) :
    BlockSim fa host whost m (n + 1) := by
  intro fn hmem vars hfn base tbl b prev path fr tr st hb hbb h hmeets hfit
  have hlt : b < 2 ^ 32 := by
    have := hfn.blockIds
    omega
  obtain ⟨bb, hget⟩ : ∃ bb, fn.blocks[b]? = some bb := ⟨_, List.getElem?_eq_getElem hb⟩
  have his : fn.blockInsts b = some bb.insts := by
    rw [IrFunction.blockInsts_natCast, hget, Option.map_some]
  obtain ⟨body, t, hbody, ht, hnt⟩ := hfn.ends b _ his
  have hvisit := h.visit his hlt
  have hrel := h.log (.visit (BitVec.ofNat 32 b) st.locals)
  have hmeets' := hmeets _ his
  rw [blockLog_succ, his] at hfit ⊢
  rw [runBlock_succ, his, runCode_succ]
  rw [hbody] at his hvisit hmeets' hfit ⊢
  simp only [slotCount, slotCount_append] at hfit ⊢
  have hround : RoundSim fn vars base
      (fun h' t fr' tr' => BlockMeets controlGuard fa host m n fn t b h' fr' tr') b
      (st.log (.visit (BitVec.ofNat 32 b) st.locals)).store
      (instsLog fa host (runFn fa host m n) (runLog fa host m n) fr.env prev (body ++ [t]) fr tr)
      (execInsts fa host (runFn fa host m n) fr.env prev (body ++ [t]) fr tr)
      (execSeq fa whost (callFunc fa whost (emitModule m) n) (loopAgain fa whost (emitModule m) n)
        (blockCode (emitCtx m) fn b) (st.log (.visit (BitVec.ofNat 32 b) st.locals))) := by
    rw [emitBlock_eq hget hbody ht]
    refine roundSim_insts hfn hrel hm (hsmall fn hmem) hcallee (emitCtx m) ht body hnt rfl his rfl
      hmeets' ?_
    have hb' := hvisit.bump
    simp only [slotCount] at hb'
    omega
  rw [execSeq_dispatchLoop hb hlt hbb hround.escapes]
  revert hround hfit
  cases execInsts fa host (runFn fa host m n) fr.env prev (body ++ [t]) fr tr with
  | next fr' tr' => exact fun _ hround => hround.not_next.elim
  | jump t' fr' tr' =>
      generalize execSeq fa whost (callFunc fa whost (emitModule m) n)
        (loopAgain fa whost (emitModule m) n) (blockCode (emitCtx m) fn b)
        (st.log (.visit (BitVec.ofNat 32 b) st.locals)) = r
      intro hfit hround
      obtain ⟨st', rfl, ⟨tbl', k, rfl, hlt', hbb', hrel'⟩, ⟨path', hmeets''⟩, hended⟩ := hround.jump
      have hstack : ({ st' with stack := st.stack } : St) = st' := by
        rw [h.stack, ← hrel'.stack]
      have hbump := hvisit.bump
      have hbump' := hended.bump
      simp only [slotCount] at hbump
      simp only at hfit
      obtain ⟨hgives, hrest⟩ := ih fn hmem vars hfn base tbl' k b path' fr' tr' st' hlt' hbb'
        hrel' hmeets'' (by omega)
      rw [St.round, if_pos rfl, hstack]
      exact ⟨hgives, hvisit.trans (hended.trans hrest)⟩
  | stop o =>
      generalize execSeq fa whost (callFunc fa whost (emitModule m) n)
        (loopAgain fa whost (emitModule m) n) (blockCode (emitCtx m) fn b)
        (st.log (.visit (BitVec.ofNat 32 b) st.locals)) = r
      rintro - ⟨hgives, hended⟩
      have hstop : st.round (loopAgain fa whost (emitModule m) n) .dispatch
          (dispatchBody (emitCtx m) fn) r = r := by
        rcases hgives.ended with ⟨vs, s, rfl⟩ | ⟨s, rfl⟩ | ⟨s, rfl⟩ <;> rfl
      rw [hstop]
      refine ⟨hgives, ?_⟩
      rw [List.append_nil]
      exact hvisit.trans hended

/-! ## Calls -/

theorem foldl_update_other {κ α : Type*} (key : κ → Int) {kvs : List (κ × α)} {x : Int}
    (hx : ∀ kv ∈ kvs, key kv.1 ≠ x) (l : Int → α) :
    kvs.foldl (fun l kv => Function.update l (key kv.1) kv.2) l x = l x := by
  induction kvs generalizing l with
  | nil => rfl
  | cons kv kvs ih =>
      rw [List.foldl_cons, ih fun kv' h => hx kv' (List.mem_cons_of_mem kv h),
        Function.update_of_ne (hx kv List.mem_cons_self).symm]

/-- Arguments are in the locals of the parameters. -/
theorem cells_of_args {ps : List IrParam} {cells : List (BitVec 64)} (hargs : ArgsFit ps cells)
    (hnodup : (ps.map (·.valueId)).Nodup) (env : Int → Val) (locals : Int → BitVec 64) :
    ∀ pa ∈ ps, Cell pa.type
      ((ps.zip (cells.map Val.word)).foldl
        (fun e pa => Function.update e pa.1.valueId pa.2) env pa.valueId)
      (((ps.map (·.valueId)).zip cells).foldl
        (fun l pa => Function.update l pa.1 pa.2) locals pa.valueId) := by
  induction hargs generalizing env locals with
  | nil => exact nofun
  | @cons pa c ps cells hc _ ih =>
      rw [List.map_cons, List.nodup_cons] at hnodup
      intro pa' hpa'
      simp only [List.map_cons, List.zip_cons_cons, List.foldl_cons]
      rcases List.mem_cons.mp hpa' with rfl | hpa'
      · have henv : ∀ kv ∈ ps.zip (cells.map Val.word), kv.1.valueId ≠ pa'.valueId :=
          fun kv hkv heq => hnodup.1 (heq ▸ List.mem_map_of_mem (List.of_mem_zip hkv).1)
        have hlocals : ∀ kv ∈ (ps.map (·.valueId)).zip cells, kv.1 ≠ pa'.valueId :=
          fun kv hkv heq => hnodup.1 (heq ▸ (List.of_mem_zip hkv).1)
        refine ⟨?_, ?_⟩
        · rw [foldl_update_other (fun v : Int => v) hlocals, Function.update_self]
          exact (foldl_update_other (fun pa : IrParam => pa.valueId) henv _).trans
            (Function.update_self ..)
        · rw [foldl_update_other (fun v : Int => v) hlocals, Function.update_self]
          exact hc
      · exact ih hnodup.2 _ _ pa' hpa'

/-- Where a function starts. -/
theorem Related.entry {fn : IrFunction} {vars : Int → IrType} (hfn : fn.IntBool m vars)
    {cells : List (BitVec 64)} (hargs : ArgsFit fn.params cells) {s : Store} (hs : Ready s)
    (ctx : EmitCtx) :
    Related fn vars s.bump.toNat (fun _ => none) (.start (0 : Nat))
      (Frame.init fn (cells.map .word)).env (-1) (Frame.init fn (cells.map .word))
      ((emitFunction ctx fn).start cells s) where
  reach := .start rfl
  stack := rfl
  params := cells_of_args hargs hfn.paramIds _ _
  insts _ _ _ _ := .inr (.start rfl)
  phis _ i hi _ hop := absurd hop (hfn.entryPhis _ i hi rfl)
  slots := ⟨Nat.le_refl _, hs.inside, hs.zero, nofun, nofun⟩

theorem Gives.atEnd {τ : IrType} {o : Outcome} {r : Res} (h : Gives τ o r) (st : St)
    (l : Label) (k : St → Res) : ((st.leave l r).andThen k).atEnd = r := by
  rcases h.ended with ⟨vs, s, rfl⟩ | ⟨s, rfl⟩ | ⟨s, rfl⟩ <;> rfl

theorem calleeSim_of_blockSim (hm : m.IntBool) {n : Nat} (h : BlockSim fa host whost m n) :
    CalleeSim m (runFn fa host m n) (runLog fa host m n)
      (RunMeets controlGuard fa host m n) (callFunc fa whost (emitModule m) n) := by
  intro name g cells tr s hg hargs hmeets hs hfit
  obtain ⟨vars, hgfn⟩ := hm g (List.mem_of_find?_eq_some hg)
  have hentry := Related.entry hgfn hargs hs (emitCtx m)
  have hfunc : emitModule m name = some (emitFunction (emitCtx m) g) := by
    rw [emitModule, hg, Option.map_some]
  simp only [runLog, hg] at hfit
  obtain ⟨hgives, hended⟩ := h g (List.mem_of_find?_eq_some hg) vars hgfn _ _ 0 (-1) [] _ tr _
    hgfn.entry rfl hentry (hmeets g hg) hfit
  have hcall : callFunc fa whost (emitModule m) n name cells s =
      runCode fa whost (emitModule m) n [.loop .dispatch (dispatchBody (emitCtx m) g)]
        ((emitFunction (emitCtx m) g).start cells s) := by
    rw [callFunc, hfunc]
    cases n with
    | zero => rfl
    | succ n =>
        rw [runCode_succ] at hgives ⊢
        simp only [runCode_succ]
        rw [show (emitFunction (emitCtx m) g).body = emitFunctionBody (emitCtx m) g from rfl,
          emitFunctionBody, List.cons_append, List.cons_append, List.cons_append, List.nil_append,
          execSeq_const, execSeq_bbSet, execSeq_block]
        exact hgives.atEnd _ _ _
  simp only [runFn, runLog, hg, hcall]
  exact ⟨hgives, hended⟩

/-- However long the run is followed. -/
theorem blockSim (hm : m.IntBool) (hsmall : ∀ fn ∈ m.functions, fn.SmallIds) (n : Nat) :
    BlockSim fa host whost m n := by
  induction n with
  | zero =>
      intro fn _ vars _ base tbl b prev path fr tr st _ _ h _ _
      exact ⟨trivial, .refl base h.slots.zero⟩
  | succ n ih => exact blockSim_succ hm hsmall ih (calleeSim_of_blockSim hm ih)

end

/-! ## Following the IR -/

section
variable (fa : FloatArith) (host : Host) (whost : WasmHost) (m : IrModule)

/-- A call on the instance ends as in the IR, and goes through the same blocks
with the same phis. -/
structure ControlFollows (s : Store) (n : Nat) (name : String) (cells : List (BitVec 64))
    (tr : Trace) : Prop where
  result : ∀ g, m.lookup name = some g →
    Gives g.returnType (runFn fa host m n name (cells.map .word) tr)
      (callFunc fa whost (emitModule m) n name cells s)
  visits : ∃ es, (callFunc fa whost (emitModule m) n name cells s).store.events = s.events ++ es ∧
    List.Forall₂ RunEvent.Matches (runLog fa host m n name (cells.map .word) tr)
      (es.filter StoreEvent.isLogged)

/-- Every value has a local, every step of the run keeps what its edge copies,
and the slots fit. -/
structure ControlMeets (s : Store) (n : Nat) (name : String) (cells : List (BitVec 64))
    (tr : Trace) : Prop where
  ids : ∀ fn ∈ m.functions, fn.SmallIds
  edges : RunMeets controlGuard fa host m n name (cells.map .word) tr
  slots : s.bump.toNat + 8 * slotCount (runLog fa host m n name (cells.map .word) tr) ≤ memorySize

/-- The stores of an instance on which such calls have been made. -/
inductive Instance : Store → Prop
  | start (counters : Counters) : Instance (initialStore m counters)
  | call {s : Store} {n : Nat} {name : String} {g : IrFunction} {cells : List (BitVec 64)}
      {tr : Trace} : Instance s → m.lookup name = some g → ArgsFit g.params cells →
      ControlMeets fa host m s n name cells tr →
      Instance (callFunc fa whost (emitModule m) n name cells s).store

variable {fa host whost m}

/-- Without strings and host calls there is no data. -/
theorem emitCtx_intBool (hm : m.IntBool) : emitCtx m = {} := by
  have hno : ∀ i ∈ m.functions.flatMap (·.insts), i.op ≠ .constString ∧ i.op ≠ .hostCall := by
    intro i hi
    obtain ⟨fn, hfn, hmem⟩ := List.mem_flatMap.mp hi
    obtain ⟨vars, hib⟩ := hm fn hfn
    obtain ⟨p, hp⟩ := instAt_of_mem hmem
    have htyped := hib.typed p i hp
    constructor <;> intro hop <;> simp only [IrFunction.Typed, hop] at htyped
  have hstrings : constStrings m = [] :=
    List.filterMap_eq_nil_iff.mpr fun i hi => if_neg (hno i hi).1
  have hcalls : hostCallNames m = [] :=
    List.filterMap_eq_nil_iff.mpr fun i hi => if_neg (hno i hi).2
  rw [emitCtx, preregisterHostCalls, preinternStrings, hstrings, hcalls]
  rfl

theorem ready_initialStore (hm : m.IntBool) (counters : Counters) :
    Ready (initialStore m counters) := by
  rw [initialStore, emitCtx_intBool hm]
  refine ⟨show (BitVec.ofNat 32 (bumpInit {})).toNat ≤ memorySize by decide, ?_⟩
  intro x _
  show (if x < dataBase then 0 else ([] : Bytes).getD (x - dataBase) 0) = 0
  split <;> rfl

/-- A call that meets the conditions, with what it leaves. -/
theorem ControlMeets.follows (hm : m.IntBool) {s : Store} (hs : Ready s) {n : Nat} {name : String}
    {g : IrFunction} (hg : m.lookup name = some g) {cells : List (BitVec 64)}
    (hargs : ArgsFit g.params cells) {tr : Trace} (h : ControlMeets fa host m s n name cells tr) :
    ControlFollows fa host whost m s n name cells tr ∧
      Ready (callFunc fa whost (emitModule m) n name cells s).store := by
  obtain ⟨hgives, hended⟩ := calleeSim_of_blockSim hm (blockSim hm h.ids n) name g cells tr s hg
    hargs h.edges hs h.slots
  refine ⟨⟨fun g' hg' => ?_, hended.events⟩, ⟨?_, hended.zero⟩⟩
  · obtain rfl : g' = g := Option.some.inj (hg'.symm.trans hg)
    exact hgives
  · rw [hended.bump]
    exact h.slots

theorem Instance.ready (hm : m.IntBool) {s : Store} (h : Instance fa host whost m s) : Ready s := by
  induction h with
  | start counters => exact ready_initialStore hm counters
  | call _ hg hargs hmeets ih => exact (hmeets.follows hm ih hg hargs).2

/-- In every run that meets the conditions the dispatch loop follows the IR. -/
theorem controlFollows (hm : m.IntBool) {s : Store} (hs : Instance fa host whost m s) {n : Nat}
    {name : String} {g : IrFunction} (hg : m.lookup name = some g) {cells : List (BitVec 64)}
    (hargs : ArgsFit g.params cells) {tr : Trace} (h : ControlMeets fa host m s n name cells tr) :
    ControlFollows fa host whost m s n name cells tr :=
  (h.follows hm (hs.ready hm) hg hargs).1

end

/-! ## A swap -/

/-- Goes round once if its argument says so, exchanging `%4` and `%5`. -/
def swapFunction : IrFunction where
  name := "lcn_swap"
  returnType := .i64
  params := [{ name := "again", type := .bool, valueId := 0 }]
  blocks :=
    [{ insts :=
        [{ id := 1, op := .constInt, type := .i64, immInt := 1 },
         { id := 2, op := .constInt, type := .i64, immInt := 2 },
         { id := 3, op := .constBool, type := .bool },
         { id := -1, op := .jmp, type := .void, targetBb := 1 }] },
     { insts :=
        [{ id := 4, op := .phi, type := .i64, phiArgs := [(1, 0), (5, 1)] },
         { id := 5, op := .phi, type := .i64, phiArgs := [(2, 0), (4, 1)] },
         { id := 6, op := .phi, type := .bool, phiArgs := [(0, 0), (3, 1)] },
         { id := -1, op := .br, type := .void, operands := [6], targetBb := 1, falseBb := 2 }] },
     { insts :=
        [{ id := 7, op := .phi, type := .i64, phiArgs := [(5, 1)] },
         { id := -1, op := .ret, type := .void, operands := [7] }] }]
  nextValue := 8

def swapModule : IrModule := ⟨[swapFunction]⟩

/-- Does the call give this word? -/
def Res.gives (c : BitVec 64) : Res → Bool
  | .ret [c'] _ => c' == c
  | _ => false

theorem runFn_swap : runFn .unused .echo swapModule 5 "lcn_swap" [.word 1] [] =
    .ret (some (.word 1)) [] := by decide +kernel

theorem callFunc_swap : (callFunc .unused .idle (emitModule swapModule) 5 "lcn_swap" [1]
    (initialStore swapModule fun _ => 0)).gives 2 = true := by decide +kernel

theorem swap_points {P : Point → IrInst → Prop}
    (h : ∀ p ∈ swapFunction.points, ∀ i ∈ swapFunction.instAt p, P p i) (p : Point) (i : IrInst)
    (hi : swapFunction.instAt p = some i) : P p i :=
  h p (IrFunction.mem_points.mpr ⟨i, hi⟩) i hi

theorem swap_typed (p : Point) (i : IrInst) (hi : swapFunction.instAt p = some i) :
    swapFunction.Typed swapModule (fun _ => .i64) i := by
  have h0 : swapFunction.HasType 0 .bool := .inl ⟨_, List.mem_singleton_self _, rfl, rfl⟩
  have hinst : ∀ q j, swapFunction.instAt q = some j → 0 ≤ j.id → j.op ≠ .alloca →
      swapFunction.HasType j.id j.type := fun q j hq hid hop => .inr ⟨q, j, hq, hid, rfl, hop, rfl⟩
  have h1 := hinst ⟨0, 0⟩ _ rfl (by decide) (by decide)
  have h2 := hinst ⟨0, 1⟩ _ rfl (by decide) (by decide)
  have h3 := hinst ⟨0, 2⟩ _ rfl (by decide) (by decide)
  have h4 := hinst ⟨1, 0⟩ _ rfl (by decide) (by decide)
  have h5 := hinst ⟨1, 1⟩ _ rfl (by decide) (by decide)
  have h6 := hinst ⟨1, 2⟩ _ rfl (by decide) (by decide)
  have h7 := hinst ⟨2, 0⟩ _ rfl (by decide) (by decide)
  have hp := IrFunction.mem_points.mpr ⟨i, hi⟩
  have hpoints : swapFunction.points =
      [⟨0, 0⟩, ⟨0, 1⟩, ⟨0, 2⟩, ⟨0, 3⟩, ⟨1, 0⟩, ⟨1, 1⟩, ⟨1, 2⟩, ⟨1, 3⟩, ⟨2, 0⟩, ⟨2, 1⟩] := rfl
  simp only [hpoints, List.mem_cons, List.not_mem_nil, or_false] at hp
  rcases hp with rfl | rfl | rfl | rfl | rfl | rfl | rfl | rfl | rfl | rfl <;>
    obtain rfl := Option.some.inj hi
  · exact (rfl : IrType.i64 = .i64)
  · exact (rfl : IrType.i64 = .i64)
  · exact (rfl : IrType.bool = .bool)
  · exact trivial
  · exact ⟨rfl, List.forall_mem_cons.mpr ⟨h1, List.forall_mem_singleton.mpr h5⟩⟩
  · exact ⟨rfl, List.forall_mem_cons.mpr ⟨h2, List.forall_mem_singleton.mpr h4⟩⟩
  · exact ⟨rfl, List.forall_mem_cons.mpr ⟨h0, List.forall_mem_singleton.mpr h3⟩⟩
  · exact ⟨6, rfl, h6⟩
  · exact ⟨rfl, List.forall_mem_singleton.mpr h5⟩
  · exact ⟨7, rfl, h7⟩

theorem swap_pairs : ∀ p ∈ swapFunction.points, ∀ i ∈ swapFunction.instAt p, i.op = .phi →
    ∀ t ∈ swapFunction.points, ∀ j ∈ swapFunction.instAt t,
      (((j.op = .jmp ∨ j.op = .br) ∧ Point.start p.bb = .start j.targetBb) ∨
        (j.op = .br ∧ Point.start p.bb = .start j.falseBb) ∨
        (j.isTerminator = false ∧ Point.start p.bb = t.next)) →
      t.bb ∈ i.phiArgs.map Prod.snd := by decide +kernel

theorem swap_ends : ∀ bb ∈ swapFunction.blocks, ∃ h : bb.insts ≠ [],
    (bb.insts.getLast h).isTerminator = true ∧
      ∀ i ∈ bb.insts.dropLast, i.isTerminator = false := by decide

theorem swapModule_intBool : swapModule.IntBool := by
  intro fn hfn
  obtain rfl := List.mem_singleton.mp hfn
  refine ⟨fun _ => .i64, ?_, ?_, ?_, ?_, ?_, ?_, ?_, ?_, ?_, ?_, swap_typed⟩
  · exact IrFunction.wellFormed_of_ssaCheck (by decide +kernel)
  · decide
  · decide
  · exact .inr rfl
  · decide
  · decide
  · intro b is his
    obtain ⟨k, -, rfl, -⟩ := blockInsts_index (Option.isSome_iff_exists.mpr ⟨is, his⟩)
    rw [IrFunction.blockInsts_natCast] at his
    obtain ⟨bb, hbb, rfl⟩ := Option.map_eq_some_iff.mp his
    obtain ⟨hne, hlast, hbody⟩ := swap_ends bb (List.mem_of_getElem? hbb)
    exact ⟨_, _, (List.dropLast_append_getLast hne).symm, hlast, hbody⟩
  · exact swap_points (by decide)
  · exact swap_points (by decide)
  · rintro p i t hi hop ⟨j, hj, hs⟩
    have hmem := swap_pairs p (IrFunction.mem_points.mpr ⟨i, hi⟩) i hi hop t
      (IrFunction.mem_points.mpr ⟨j, hj⟩) j hj hs
    obtain ⟨a, ha, hb⟩ := List.mem_map.mp hmem
    exact ⟨a.1, hb ▸ ha⟩

/-- No copy of a list reads what an earlier one has written. -/
theorem kept_of_apart {moves : List (Int × Int)} (h : moves.Pairwise fun mv mv' => mv'.2 ≠ mv.1)
    (env : Int → Val) : Copies.Kept moves env :=
  h.imp fun hne heq => absurd heq hne

/-- Without going round, the swap is not done. -/
theorem swap_meets : RunMeets controlGuard .unused .echo swapModule 3 "lcn_swap"
    ([0].map Val.word) [] := by
  intro g hg
  obtain rfl := Option.some.inj hg
  intro is his
  obtain rfl := Option.some.inj his
  refine And.intro ⟨nofun, nofun⟩ (And.intro nofun ?_)
  refine And.intro ⟨nofun, nofun⟩ (And.intro nofun ?_)
  refine And.intro ⟨nofun, nofun⟩ (And.intro nofun ?_)
  refine And.intro ⟨nofun, ?_⟩ (And.intro nofun ?_)
  · rintro t ⟨⟩ is his
    obtain rfl := Option.some.inj his
    exact kept_of_apart (by decide) _
  intro is his
  obtain rfl := Option.some.inj his
  refine And.intro ⟨nofun, nofun⟩ (And.intro nofun ?_)
  refine And.intro ⟨nofun, nofun⟩ (And.intro nofun ?_)
  refine And.intro ⟨nofun, nofun⟩ (And.intro nofun ?_)
  refine And.intro ⟨nofun, ?_⟩ (And.intro nofun ?_)
  · rintro t ⟨⟩ is his
    obtain rfl := Option.some.inj his
    exact kept_of_apart (by decide) _
  intro is his
  obtain rfl := Option.some.inj his
  exact ⟨⟨nofun, nofun⟩, nofun, ⟨nofun, nofun⟩, nofun, trivial⟩

theorem swap_ids : ∀ fn ∈ swapModule.functions, fn.SmallIds := by
  intro fn hfn
  obtain rfl := List.mem_singleton.mp hfn
  exact ⟨by decide, swap_points (by decide)⟩

theorem swap_room : (initialStore swapModule fun _ => 0).bump.toNat +
    8 * slotCount (runLog .unused .echo swapModule 3 "lcn_swap" ([0].map .word) []) ≤
      memorySize := by decide +kernel

theorem swap_args {c : BitVec 64} (h : c = 0 ∨ c = 1) : ArgsFit swapFunction.params [c] :=
  .cons (fun _ => h) .nil

theorem swap_lookup : swapModule.lookup "lcn_swap" = some swapFunction := rfl

theorem Gives.word {τ : IrType} {v : Val} {tr : Trace} {r : Res} {c : BitVec 64}
    (h : Gives τ (.ret (some v) tr) r) (hr : r.gives c = true) : v = .word c := by
  obtain ⟨-, c', s, rfl, hcell⟩ := h.retSome
  rw [hcell.val, eq_of_beq hr]

theorem ControlFollows.word {fa : FloatArith} {host : Host} {whost : WasmHost} {m : IrModule}
    {s : Store} {n : Nat} {name : String} {cells : List (BitVec 64)} {tr tr' : Trace}
    (h : ControlFollows fa host whost m s n name cells tr) {g : IrFunction}
    (hg : m.lookup name = some g) {v : Val} {c : BitVec 64}
    (hrun : runFn fa host m n name (cells.map .word) tr = .ret (some v) tr')
    (hcall : (callFunc fa whost (emitModule m) n name cells s).gives c = true) : v = .word c := by
  have hgives := h.result g hg
  rw [hrun] at hgives
  exact hgives.word hcall

/-- The run that does not go round. -/
theorem controlFollows_swap : ControlFollows .unused .echo .idle swapModule
    (initialStore swapModule fun _ => 0) 3 "lcn_swap" [0] [] :=
  controlFollows swapModule_intBool (.start fun _ => 0) swap_lookup (swap_args (.inl rfl))
    ⟨swap_ids, swap_meets, swap_room⟩

/-- The one that does gives 2, where the IR gives 1. -/
theorem control_departs :
    ¬ ∀ (fa : FloatArith) (host : Host) (whost : WasmHost) (m : IrModule), m.IntBool →
      ∀ s, Instance fa host whost m s → ∀ n name g cells tr, m.lookup name = some g →
        ArgsFit g.params cells → ControlFollows fa host whost m s n name cells tr := by
  intro h
  have hfollows := h .unused .echo .idle swapModule swapModule_intBool _ (.start fun _ => 0) 5
    "lcn_swap" swapFunction [1] [] swap_lookup (swap_args (.inr rfl))
  exact absurd (hfollows.word swap_lookup runFn_swap callFunc_swap) (by decide)

end Wasm

end Limceron
