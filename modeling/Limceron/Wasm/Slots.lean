/-
# `Limceron.Wasm.Slots` — the memory of local variables

Each execution of an `IR_ALLOCA` takes 8 bytes at `$bump_ptr` and moves it on.
Nothing ever moves it back, not the end of a loop body and not a return, so an
instance that goes on executing allocas leaves its page.  `localsInside_iff`
says how far it gets.
-/
import Limceron.Gen.Program
import Limceron.Wasm.Dispatch

namespace Limceron.Wasm

/-! ## Slots handed out -/

def StoreEvent.slot? : StoreEvent → Option (BitVec 32)
  | .slot a => some a
  | _ => none

/-- The addresses of the slots, one for each alloca executed so far. -/
def Store.slots (s : Store) : List (BitVec 32) := s.events.filterMap StoreEvent.slot?

/-- The variables of an instance are inside of its memory, and so is all that
the bump pointer has passed. -/
structure LocalsInside (s : Store) : Prop where
  slots : ∀ a ∈ s.slots, a.toNat + 8 ≤ memorySize
  bump : s.bump.toNat ≤ memorySize

/-- The slot of the `k`-th alloca. -/
def slotAt (base : BitVec 32) (k : Nat) : BitVec 32 := base + BitVec.ofNat 32 (8 * k)

/-- The bump pointer has passed one slot for each alloca. -/
structure Bumped (base : BitVec 32) (s : Store) : Prop where
  slots : s.slots = (List.range s.slots.length).map (slotAt base)
  bump : s.bump = slotAt base s.slots.length

/-! ## What one piece does -/

/-- The bump pointer and the slots are what they were. -/
def SameSlots (s s' : Store) : Prop := s'.bump = s.bump ∧ s'.slots = s.slots

theorem Bumped.of_same {base : BitVec 32} {s s' : Store} (h : Bumped base s)
    (hs : SameSlots s s') : Bumped base s' := by
  obtain ⟨hbump, hslots⟩ := hs
  refine ⟨?_, ?_⟩
  · rw [hslots]
    exact h.slots
  · rw [hbump, hslots]
    exact h.bump

theorem slots_log {st : St} {e : StoreEvent} (h : e.slot? = none) :
    (st.log e).store.slots = st.store.slots := by
  simp [St.log, Store.slots, h]

section
variable {fa : FloatArith} {host : WasmHost} {callee : String → List (BitVec 64) → Store → Res}
  {again : Label → List WInstr → St → Res}

theorem SameSlots.of_quiet {s s' : Store} (h : Quiet s s') : SameSlots s s' := by
  obtain ⟨hbump, es, hevents, hes⟩ := h
  have hnone : ∀ e ∈ es, e.slot? = none := by
    intro e he
    have := hes e he
    cases e <;> first | rfl | cases this
  refine ⟨hbump, ?_⟩
  rw [Store.slots, hevents, List.filterMap_append, List.filterMap_eq_nil_iff.mpr hnone,
    List.append_nil]
  rfl

/-- One more slot. -/
theorem Bumped.slot {base : BitVec 32} {s : Store} (h : Bumped base s) :
    Bumped base
      { s with bump := s.bump + 8#32, events := s.events ++ [.slot s.bump] } := by
  have hslots : Store.slots { s with bump := s.bump + 8#32, events := s.events ++ [.slot s.bump] } =
      s.slots ++ [s.bump] := by
    simp [Store.slots, StoreEvent.slot?]
  refine ⟨?_, ?_⟩
  · rw [hslots, List.length_append, List.length_singleton, List.range_succ, List.map_append,
      ← h.slots, h.bump]
    rfl
  · rw [hslots, List.length_append, List.length_singleton]
    simp only [h.bump, slotAt, Nat.mul_add, BitVec.ofNat_add, ← BitVec.add_assoc]

theorem piece_bumped (base : BitVec 32) {ctx : EmitCtx} {is : List WInstr}
    (h : EmitPiece ctx is) :
    KeepsStore fa host (Bumped base) is := by
  refine h.keeps (fun s s' hs hq => hs.of_same (.of_quiet hq)) (fun s hs => hs.slot) ?_
  intro site _ s args r mem _ hs
  refine hs.of_same ⟨rfl, ?_⟩
  simp [Store.slots, StoreEvent.slot?]

end

/-! ## Runs -/

/-- Along every run of an instance the bump pointer counts the allocas. -/
theorem bumped_runCalls (fa : FloatArith) (host : WasmHost) (m : IrModule) (counters : Counters)
    (calls : List OuterCall) :
    Bumped (initialStore m counters).bump
      (runCalls fa host (emitModule m) (initialStore m counters) calls) := by
  refine BuiltFrom.keeps_runCalls (fun is h => piece_bumped _ h) (emitModule_built m) calls ?_
  exact ⟨rfl, by simp [slotAt, Store.slots, initialStore]⟩

theorem slotAt_toNat {base : BitVec 32} {k : Nat} (h : base.toNat + 8 * k < 2 ^ 32) :
    (slotAt base k).toNat = base.toNat + 8 * k := by
  rw [slotAt, BitVec.toNat_add, BitVec.toNat_ofNat]
  omega

/-- The first slot that does not fit is outside, however far the run has gone. -/
theorem Bumped.inside_iff {base : BitVec 32} {s : Store} (h : Bumped base s) :
    LocalsInside s ↔ base.toNat + 8 * s.slots.length ≤ memorySize := by
  have hpage : memorySize = 65536 := rfl
  have hslot : ∀ k, k < s.slots.length → slotAt base k ∈ s.slots := by
    intro k hk
    rw [h.slots]
    exact List.mem_map_of_mem (List.mem_range.mpr hk)
  constructor
  · rintro ⟨hslots, hbump⟩
    have hind : ∀ k, k ≤ s.slots.length → base.toNat + 8 * k ≤ memorySize ∨ k = 0 := by
      intro k
      induction k with
      | zero => exact fun _ => .inr rfl
      | succ k ih =>
          intro hk
          have hin := hslots _ (hslot k (by omega))
          have hlt := base.isLt
          rcases ih (by omega) with hle | rfl
          · rw [slotAt_toNat (by omega)] at hin
            exact .inl (by omega)
          · rw [slotAt_toNat (by omega)] at hin
            exact .inl (by omega)
    rcases hind _ (Nat.le_refl _) with hle | hzero
    · exact hle
    · rw [h.bump, hzero, slotAt_toNat (by have := base.isLt; omega)] at hbump
      rwa [hzero]
  · intro hle
    refine ⟨?_, ?_⟩
    · intro a ha
      rw [h.slots] at ha
      obtain ⟨k, hk, rfl⟩ := List.mem_map.mp ha
      have hlt := List.mem_range.mp hk
      rw [slotAt_toNat (by omega)]
      omega
    · rw [h.bump, slotAt_toNat (by omega)]
      exact hle

/-- A run has its variables in memory exactly as long as a slot for every alloca
executed so far fits behind the static data. -/
theorem localsInside_iff (fa : FloatArith) (host : WasmHost) (m : IrModule) (counters : Counters)
    (calls : List OuterCall) :
    LocalsInside (runCalls fa host (emitModule m) (initialStore m counters) calls) ↔
      (initialStore m counters).bump.toNat + 8 *
        (runCalls fa host (emitModule m) (initialStore m counters) calls).slots.length ≤
          memorySize :=
  (bumped_runCalls fa host m counters calls).inside_iff

/-! ## A loop -/

/-- `loop { let x = 1 }` -/
def loopProgram : Program where
  decls := [.fn { name := "main", body := [.loop [.letS "x" none (some (.intLit 1))]] }]

/-- The IR of its `main`: entry, header, body, exit. -/
def loopFunction : IrFunction where
  name := "lcn_main"
  returnType := .void
  blocks :=
    [{ label := some "entry", insts := [{ id := -1, op := .jmp, type := .void, targetBb := 1 }] },
     { label := some "loop.header"
       insts := [{ id := -1, op := .jmp, type := .void, targetBb := 2 }] },
     { label := some "loop.body"
       insts :=
        [{ id := 0, op := .alloca, type := .ptr },
         { id := 1, op := .constInt, type := .i64, immInt := 1 },
         { id := -1, op := .store, type := .void, operands := [1, 0] },
         { id := -1, op := .jmp, type := .void, targetBb := 1 }] },
     { label := some "loop.exit", insts := [{ id := -1, op := .ret, type := .void }] }]
  currentBb := some 3
  nextValue := 2

theorem irGenProgram_loopProgram :
    Gen.irGenProgram .empty loopProgram = ⟨[loopFunction]⟩ := by decide +kernel

section
variable (fa : FloatArith) (host : WasmHost) (m : WModule)

/-- The dispatch loop of `main`. -/
def loopCode : List WInstr :=
  [.loop .dispatch (dispatchBody (emitCtx ⟨[loopFunction]⟩) loopFunction)]

theorem runCode_header (n : Nat) {st : St} (hbb : st.bb = 1#32) :
    ∃ st', st'.bb = 2#32 ∧ SameSlots st.store st'.store ∧
      runCode fa host m (n + 1) loopCode st = runCode fa host m n loopCode st' := by
  refine ⟨{ st.log (.visit 1 st.locals) with bb := 2#32 }, rfl, ⟨rfl, slots_log rfl⟩, ?_⟩
  rw [runCode_succ, loopCode, execSeq_dispatchLoop (b := 1) (by decide) (by decide) hbb]
  · rfl
  · exact Res.Escapes.dispatch _

/-- The body of the loop takes a slot and stores to it, or traps. -/
theorem execSeq_loopBody (callee : String → List (BitVec 64) → Store → Res)
    (again : Label → List WInstr → St → Res) (st : St) :
    (∃ st', st'.bb = 1#32 ∧ st'.store.slots = st.store.slots ++ [st.store.bump] ∧
      execSeq fa host callee again (blockCode (emitCtx ⟨[loopFunction]⟩) loopFunction 2) st =
        .br .dispatch st') ∨
    (memorySize < st.store.bump.toNat + 8 ∧
      ∃ s : Store, s.slots = st.store.slots ++ [st.store.bump] ∧
        execSeq fa host callee again (blockCode (emitCtx ⟨[loopFunction]⟩) loopFunction 2) st =
          .trap s) := by
  have hset : (st.store.bump.setWidth 64).setWidth 32 = st.store.bump := by
    rw [BitVec.setWidth_setWidth_of_le _ (by decide), BitVec.setWidth_eq]
  have hcode : blockCode (emitCtx ⟨[loopFunction]⟩) loopFunction 2 =
      emitAlloca 0 ++ [.simple (.const 64 1), setValue 1, pushValue 0, pushValue 1, .store 64,
        .simple (.const 32 1), .bbSet, .br .dispatch] := rfl
  rw [hcode, execSeq_append, execSeq_emitAlloca, Res.andThen_next, execSeq_const,
    execSeq_setValue (by decide), execSeq_pushValue (by decide), execSeq_pushValue (by decide),
    execSeq_store, execStore]
  simp only [St.push_locals, St.push_stack, St.push_store, St.top_push, St.below_push, St.pop_push,
    St.setLocal_locals, St.setLocal_stack, St.setLocal_store, List.tail_cons, ne_eq, Int.reduceEq,
    not_false_eq_true, Function.update_of_ne, Function.update_self, hset]
  by_cases hin : st.store.bump.toNat + 64 / 8 ≤ memorySize
  · rw [if_pos hin, Res.andThen_next, execSeq_const, execSeq_bbSet, execSeq_br]
    refine .inl ⟨_, rfl, ?_, rfl⟩
    simp [St.log, St.pop, Store.slots, StoreEvent.slot?]
  · rw [if_neg hin, Res.andThen_trap]
    refine .inr ⟨by omega, _, ?_, rfl⟩
    simp [Store.slots, StoreEvent.slot?]

/-- However often the loop is to go round: it does, or it has left its memory. -/
theorem loop_slots (j : Nat) {st : St} (hbb : st.bb = 1#32) :
    ¬ LocalsInside (runCode fa host m (2 * j) loopCode st).store ∨
      (runCode fa host m (2 * j) loopCode st).store.slots.length = st.store.slots.length + j := by
  induction j generalizing st with
  | zero => exact .inr rfl
  | succ j ih =>
      obtain ⟨st₁, hbb₁, hsame, hrun⟩ := runCode_header fa host m (2 * j + 1) hbb
      rw [Nat.mul_succ, hrun, runCode_succ, loopCode, ← hsame.2]
      rcases execSeq_loopBody fa host (callFunc fa host m (2 * j)) (loopAgain fa host m (2 * j))
        (st₁.log (.visit 2#32 st₁.locals)) with
        ⟨st', hbb', hslots, hbody⟩ | ⟨hout, s, hslots, hbody⟩
      · have hlen : st'.store.slots.length = st₁.store.slots.length + 1 := by
          rw [hslots, slots_log rfl, List.length_append]
          rfl
        rw [execSeq_dispatchLoop (b := 2) (by decide) (by decide) hbb₁
          (by rw [hbody]; exact Res.Escapes.dispatch _), hbody]
        simp only [St.round, if_pos, loopAgain]
        have hnext := @ih { st' with stack := st₁.stack } hbb'
        rw [hlen] at hnext
        rw [show st₁.store.slots.length + (j + 1) = st₁.store.slots.length + 1 + j by omega]
        exact hnext
      · rw [execSeq_dispatchLoop (b := 2) (by decide) (by decide) hbb₁
          (by rw [hbody]; exact Res.Escapes.trap _), hbody]
        refine .inl fun hin => ?_
        have hmem := hin.slots st₁.store.bump (by
          show _ ∈ s.slots
          rw [hslots]
          exact List.mem_append_right _ (List.mem_singleton.mpr rfl))
        have hbump : (st₁.log (.visit 2#32 st₁.locals)).store.bump = st₁.store.bump := rfl
        rw [hbump] at hout
        omega

/-- Calling `main` goes round the dispatch loop. -/
theorem callFunc_main (n : Nat) (s : Store) :
    ∃ st, st.bb = 1#32 ∧ SameSlots s st.store ∧
      (callFunc fa host (emitModule ⟨[loopFunction]⟩) (n + 1) "lcn_main" [] s).store =
        (runCode fa host (emitModule ⟨[loopFunction]⟩) n loopCode st).store := by
  let st₀ : St := { (emitFunction (emitCtx ⟨[loopFunction]⟩) loopFunction).start [] s with bb := 0 }
  refine ⟨{ st₀.log (.visit 0#32 st₀.locals) with bb := 1#32 }, rfl, ⟨rfl, slots_log rfl⟩, ?_⟩
  have hcall : callFunc fa host (emitModule ⟨[loopFunction]⟩) (n + 1) "lcn_main" [] s =
      (runCode fa host (emitModule ⟨[loopFunction]⟩) (n + 1)
        (emitFunctionBody (emitCtx ⟨[loopFunction]⟩) loopFunction) st₀).atEnd := rfl
  have hbody : emitFunctionBody (emitCtx ⟨[loopFunction]⟩) loopFunction =
      [.simple (.const 32 0), .bbSet, .block .exit loopCode] := rfl
  rw [hcall, Res.atEnd_store, hbody, runCode_succ, execSeq_const, execSeq_bbSet, execSeq_block,
    loopCode, execSeq_dispatchLoop (b := 0) (by decide) (by decide) rfl]
  · rw [andThen_execSeq_nil, St.leave_store]
    rfl
  · exact Res.Escapes.dispatch _

end

/-- A host that answers zero and writes nothing. -/
def WasmHost.idle : WasmHost := fun _ _ _ mem => (0, mem)

/-- The page is full at some time. -/
theorem loopProgram_leaves (j : Nat) (hj : 64512 < 8 * j) :
    ¬ LocalsInside (runCalls .unused .idle (emitModule ⟨[loopFunction]⟩)
      (initialStore ⟨[loopFunction]⟩ fun _ => 0) [⟨"lcn_main", [], 2 * j + 1⟩]) := by
  intro hin
  have hle := (bumped_runCalls .unused .idle ⟨[loopFunction]⟩ (fun _ => 0)
    [⟨"lcn_main", [], 2 * j + 1⟩]).inside_iff.mp hin
  obtain ⟨st, hbb, hsame, hcall⟩ := callFunc_main .unused .idle (2 * j)
    (initialStore ⟨[loopFunction]⟩ fun _ => 0)
  rw [runCalls_singleton, hcall] at hin hle
  rcases loop_slots .unused .idle (emitModule ⟨[loopFunction]⟩) j hbb with hout | hlen
  · exact hout hin
  · have hbase : (initialStore ⟨[loopFunction]⟩ fun _ => 0).bump = 1024#32 := by decide +kernel
    have hpage : memorySize = 65536 := rfl
    rw [hlen, hbase, hsame.2, hpage] at hle
    simp only [BitVec.toNat_ofNat] at hle
    omega

/-- After 8064 rounds the page is full, and the next slot is outside. -/
theorem locals_leave_memory :
    ¬ ∀ (fa : FloatArith) (host : WasmHost) (wit : Gen.HostErrors) (p : Program)
      (counters : Counters) (calls : List OuterCall),
      LocalsInside (runCalls fa host (emitModule (Gen.irGenProgram wit p))
        (initialStore (Gen.irGenProgram wit p) counters) calls) := by
  intro h
  have hin := h .unused .idle .empty loopProgram (fun _ => 0)
  rw [irGenProgram_loopProgram] at hin
  obtain ⟨j, hj⟩ : ∃ j, 64512 < 8 * j := ⟨8065, by decide⟩
  exact loopProgram_leaves j hj (hin [⟨"lcn_main", [], 2 * j + 1⟩])

end Limceron.Wasm
