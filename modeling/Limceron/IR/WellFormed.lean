/-
# `Limceron.IR.WellFormed` — SSA form and what it gives a run

`WellFormed fn` is SSA as `ir.h` promises it: ids are handed out to exactly the
instructions that have a result, no id is defined twice, every operand is a
parameter or has a definition that dominates the use, and loads and stores
address an alloca directly.

What the passes need of it is one invariant of runs.  Constants and allocas
have a value that is written in the instruction (`staticVal`).  At every point
of a run the id of such an instruction holds that value, or the path so far has
avoided the instruction (`Known`).  Where the instruction dominates the point,
the second case is excluded (`WellFormed.env_static`).
-/
import Limceron.IR.Simulation

namespace Limceron

/-! ## Uses and definitions -/

/-- `ir_inst_new` gives these opcodes the id `-1`. -/
def IrOpcode.hasResult : IrOpcode → Bool
  | .store | .ret | .br | .jmp | .print | .nop => false
  | _ => true

/-- The ids an instruction reads where it stands: operands and, for calls, the
call arguments.  (A phi reads at the end of its predecessors.) -/
def IrInst.uses (i : IrInst) : List Int :=
  i.operands ++ (if i.op = .call ∨ i.op = .hostCall then i.callArgs else [])

namespace IrFunction

variable (fn : IrFunction)

def IsParam (v : Int) : Prop := ∃ pa ∈ fn.params, pa.valueId = v

/-- `v` is a parameter, or its definition has been executed on every path that
comes to `p`. -/
def DefinedAt (v : Int) (p : Point) : Prop :=
  fn.IsParam v ∨ ∃ q j, fn.instAt q = some j ∧ 0 ≤ j.id ∧ j.id = v ∧ ¬ fn.Avoids q p

/-- SSA form. -/
structure WellFormed : Prop where
  result : ∀ p i, fn.instAt p = some i → if i.op.hasResult then 0 ≤ i.id else i.id = -1
  unique : ∀ p q i j, fn.instAt p = some i → fn.instAt q = some j → 0 ≤ i.id →
    i.id = j.id → p = q
  params : ∀ p i, fn.instAt p = some i → 0 ≤ i.id → ¬ fn.IsParam i.id
  uses : ∀ p i v, fn.instAt p = some i → v ∈ i.uses → fn.DefinedAt v p
  phis : ∀ p i v b t, fn.instAt p = some i → i.op = .phi → (v, b) ∈ i.phiArgs →
    t.bb = b → fn.Succ t (.start p.bb) → fn.DefinedAt v t
  address : ∀ p i, fn.instAt p = some i →
    (i.op = .load → ∃ q j, fn.instAt q = some j ∧ j.op = .alloca ∧ i.operands = [j.id]) ∧
    (i.op = .store → ∃ q j v, fn.instAt q = some j ∧ j.op = .alloca ∧ i.operands = [v, j.id])

end IrFunction

def IrModule.WellFormed (m : IrModule) : Prop := ∀ fn ∈ m.functions, fn.WellFormed

/-- The value of a constant. -/
def IrInst.constVal (i : IrInst) : Option Val :=
  match i.op with
  | .constInt => some (.word i.immInt)
  | .constFloat => some (.float i.immFloat)
  | .constString => some (.str (i.immStr.getD ""))
  | .constBool => some (.word (boolWord (i.immInt != 0)))
  | _ => none

/-- The value of an instruction, where the instruction itself says it. -/
def IrInst.staticVal (i : IrInst) : Option Val :=
  if i.op = .alloca then some (.addr i.id) else i.constVal

theorem IrInst.staticVal_of_constVal {i : IrInst} {v : Val} (h : i.constVal = some v) :
    i.staticVal = some v := by
  unfold staticVal
  split
  · simp_all [constVal]
  · exact h

theorem IrInst.hasResult_of_staticVal {i : IrInst} {v : Val} (h : i.staticVal = some v) :
    i.op.hasResult = true := by
  cases hop : i.op <;> simp_all [staticVal, constVal, IrOpcode.hasResult]

/-! ## What one instruction does to the environment -/

section
variable {fa : FloatArith} {host : Host} {callee : String → List Val → Trace → Outcome}
  {entry : Int → Val} {prev : Int} {i : IrInst} {fr fr' : Frame} {tr tr' : Trace}

theorem Frame.set_env_of_ne {id x : Int} {v : Val} (h : x ≠ id) :
    (fr.set id v).env x = fr.env x := by
  unfold Frame.set
  split <;> simp [Function.update_of_ne h]

theorem Frame.set_env_self {id : Int} {v : Val} (h : 0 ≤ id) : (fr.set id v).env id = v := by
  simp [Frame.set, Int.not_lt.mpr h]

@[simp] theorem Frame.set_slots {id : Int} {v : Val} : (fr.set id v).slots = fr.slots := by
  unfold Frame.set
  split <;> rfl

@[simp] theorem Frame.setSlot_env {s : Int} {v : Val} : (fr.setSlot s v).env = fr.env := rfl

@[simp] theorem Frame.setSlot_slots {s : Int} {v : Val} :
    (fr.setSlot s v).slots = Function.update fr.slots s v := rfl

/-- Only the id of the instruction is assigned. -/
theorem execInst_env_of_ne (h : execInst fa host callee entry prev i fr tr = .next fr' tr')
    {x : Int} (hx : x ≠ i.id) : fr'.env x = fr.env x := by
  have hset : ∀ v, (fr.set i.id v).env x = fr.env x := fun v => Frame.set_env_of_ne hx
  have hassign : ∀ o, Flow.assign fr tr i.id o = .next fr' tr' → fr'.env x = fr.env x := by
    rintro (_ | v) h
    · simp [Flow.assign] at h
    · simp only [Flow.assign, Flow.next.injEq] at h
      rw [← h.1, hset]
  have hcall : ∀ o, Flow.afterCall fr i.id o = .next fr' tr' → fr'.env x = fr.env x := by
    rintro (⟨v, t⟩ | _ | _ | _) h <;> simp only [Flow.afterCall, Flow.next.injEq, reduceCtorEq] at h
    rw [← h.1, hset]
  cases hop : i.op <;> simp only [execInst, hop] at h <;>
    first
    | exact hassign _ h
    | exact hcall _ h
    | skip
  case load | store | ret | br =>
    split at h
    all_goals simp only [Flow.next.injEq, reduceCtorEq] at h
    all_goals rw [← h.1]; simp [hset]
  case jmp => simp at h
  all_goals simp only [Flow.next.injEq] at h
  all_goals rw [← h.1]
  all_goals simp [hset]

theorem execInst_const {v : Val} (hv : i.constVal = some v) :
    execInst fa host callee entry prev i fr tr = .next (fr.set i.id v) tr := by
  cases hop : i.op <;> simp only [IrInst.constVal, hop, Option.some.injEq, reduceCtorEq] at hv <;>
    subst hv <;> simp only [execInst, hop]

theorem execInst_alloca (hop : i.op = .alloca) :
    execInst fa host callee entry prev i fr tr =
      .next ((fr.set i.id (.addr i.id)).setSlot i.id i.zero) tr := by
  simp only [execInst, hop]

/-- An instruction with a static value assigns it. -/
theorem execInst_static {v : Val} (hv : i.staticVal = some v) (hid : 0 ≤ i.id) :
    ∃ fr', execInst fa host callee entry prev i fr tr = .next fr' tr ∧ fr'.env i.id = v := by
  by_cases hop : i.op = .alloca
  · obtain rfl : Val.addr i.id = v := by simpa [IrInst.staticVal, hop] using hv
    exact ⟨_, execInst_alloca hop, by simp [Frame.set_env_self hid]⟩
  · exact ⟨_, execInst_const (by simpa [IrInst.staticVal, hop] using hv),
      Frame.set_env_self hid⟩

end

/-! ## Invariants of the runs of one function -/

/-- `K` holds wherever a run of `fn` comes, whatever the host and the callees do. -/
structure RunInvariant (fa : FloatArith) (fn : IrFunction) (K : Point → Frame → Prop) :
    Prop where
  entry : ∀ args, K (.start 0) (Frame.init fn args)
  next : ∀ {host callee entry prev p i fr fr' tr tr'}, fn.instAt p = some i → K p fr →
    execInst fa host callee entry prev i fr tr = .next fr' tr' → K p.next fr'
  jump : ∀ {host callee entry prev p i fr fr' tr tr' t}, fn.instAt p = some i → K p fr →
    execInst fa host callee entry prev i fr tr = .jump t fr' tr' → K (.start t) fr'

theorem Succ.of_next {fa : FloatArith} {fn : IrFunction} {host callee entry prev}
    {p : Point} {i : IrInst} {fr fr' : Frame} {tr tr' : Trace} (hi : fn.instAt p = some i)
    (h : execInst fa host callee entry prev i fr tr = .next fr' tr') : fn.Succ p p.next :=
  ⟨i, hi, .inr (.inr ⟨execInst_next h, rfl⟩)⟩

theorem Succ.of_jump {fa : FloatArith} {fn : IrFunction} {host callee entry prev}
    {p : Point} {i : IrInst} {fr fr' : Frame} {tr tr' : Trace} {t : Int}
    (hi : fn.instAt p = some i)
    (h : execInst fa host callee entry prev i fr tr = .jump t fr' tr') :
    fn.Succ p (.start t) := by
  rcases (execInst_jump h).1 with ⟨hop, rfl⟩ | ⟨hop, rfl⟩
  · exact ⟨i, hi, .inl ⟨hop, rfl⟩⟩
  · exact ⟨i, hi, .inr (.inl ⟨hop, rfl⟩)⟩

/-- Every static value is in place, or its instruction has been avoided. -/
def Known (fn : IrFunction) (p : Point) (fr : Frame) : Prop :=
  ∀ q j v, fn.instAt q = some j → j.staticVal = some v → fr.env j.id = v ∨ fn.Avoids q p

namespace IrFunction.WellFormed

variable {fn : IrFunction} (wf : fn.WellFormed)
include wf

theorem id_nonneg {q : Point} {j : IrInst} {v : Val} (hq : fn.instAt q = some j)
    (hv : j.staticVal = some v) : 0 ≤ j.id := by
  simpa [IrInst.hasResult_of_staticVal hv] using wf.result q j hq

/-- `Known` is established by executing the instruction and destroyed by none,
since no other instruction assigns its id. -/
theorem known (fa : FloatArith) : RunInvariant fa fn (Known fn) where
  entry _ _ _ _ _ _ := .inr (.start rfl)
  next := by
    intro host callee entry prev p i fr fr' tr tr' hi hk h q j v hq hv
    have hjid := wf.id_nonneg hq hv
    refine Paths.Avoid.invariant (Succ.of_next hi h) ?_ ?_ (hk q j v hq hv)
    · rintro rfl
      obtain rfl : i = j := by simpa [hi] using hq
      obtain ⟨fr₁, he, hfr₁⟩ : ∃ fr₁, execInst fa host callee entry prev i fr tr = .next fr₁ tr ∧
          fr₁.env i.id = v := execInst_static hv hjid
      rw [h] at he
      obtain ⟨rfl, -⟩ := Flow.next.inj he
      exact hfr₁
    · intro hpq hold
      rw [execInst_env_of_ne h, hold]
      exact fun hid => hpq (wf.unique q p j i hq hi hjid hid).symm
  jump := by
    intro host callee entry prev p i fr fr' tr tr' t hi hk h q j v hq hv
    refine Paths.Avoid.invariant (Succ.of_jump hi h) ?_ ?_ (hk q j v hq hv)
    · rintro rfl
      obtain rfl : i = j := by simpa [hi] using hq
      rcases (execInst_jump h).1 with ⟨hop | hop, -⟩ | ⟨hop, -⟩ <;>
        simp [IrInst.staticVal, IrInst.constVal, hop] at hv
    · rw [(execInst_jump h).2.1]
      exact fun _ hold => hold

/-- An operand whose definition has a static value holds it. -/
theorem env_static {p : Point} {i : IrInst} {fr : Frame} (hi : fn.instAt p = some i)
    (hk : Known fn p fr) {x : Int} (hx : x ∈ i.uses) {q : Point} {j : IrInst} {v : Val}
    (hq : fn.instAt q = some j) (hj : j.id = x) (hv : j.staticVal = some v) :
    fr.env x = v := by
  have hjid := wf.id_nonneg hq hv
  rcases wf.uses p i x hi hx with hp | ⟨q', j', hq', hj'id, hj', hdom⟩
  · exact absurd (hj ▸ hp) (wf.params q j hq hjid)
  · obtain rfl : q' = q := wf.unique q' q j' j hq' hq hj'id (hj'.trans hj.symm)
    obtain rfl : j' = j := by simpa [hq'] using hq
    exact hj ▸ (hk q' j' v hq' hv).resolve_right hdom

end IrFunction.WellFormed

/-! ## Finding a definition -/

/-- A position is inside a block of the function. -/
theorem instAt_some {fn : IrFunction} {p : Point} {i : IrInst} (h : fn.instAt p = some i) :
    ∃ (b : Nat) (bb : IrBasicBlock), p.bb = b ∧ fn.blocks[b]? = some bb ∧
      bb.insts[p.idx]? = some i := by
  unfold IrFunction.instAt IrFunction.blockInsts at h
  split at h
  · simp at h
  · obtain ⟨is, his, hi⟩ := Option.bind_eq_some_iff.mp h
    obtain ⟨bb, hbb, rfl⟩ := Option.map_eq_some_iff.mp his
    exact ⟨p.bb.toNat, bb, by omega, hbb, hi⟩

theorem instAt_of_mem {fn : IrFunction} {i : IrInst} (h : i ∈ fn.insts) :
    ∃ p, fn.instAt p = some i := by
  obtain ⟨bb, hbb, hi⟩ := List.mem_flatMap.mp h
  obtain ⟨b, hb, rfl⟩ := List.mem_iff_getElem.mp hbb
  obtain ⟨k, hk, rfl⟩ := List.mem_iff_getElem.mp hi
  refine ⟨⟨b, k⟩, ?_⟩
  simp [IrFunction.instAt, hb, hk]

/-- `ir_find_inst` returns an instruction of the function with the id asked for. -/
theorem irFindInst_instAt {fn : IrFunction} {x : Int} {j : IrInst}
    (h : irFindInst fn x = some j) : j.id = x ∧ ∃ q, fn.instAt q = some j :=
  ⟨by simpa using List.find?_some h, instAt_of_mem (List.mem_of_find?_eq_some h)⟩

end Limceron
