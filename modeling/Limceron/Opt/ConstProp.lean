/-
# `Limceron.Opt.ConstProp` — `ir_opt_constant_prop`

A load is replaced by a constant when the function contains exactly one store
to its address and the stored value is that constant.  The pass counts stores;
it does not ask whether the store comes before the load on the path taken.

    let mut x: int
    if c { x = 5 }
    x                       -- becomes 5 on both paths

A load is replaced rightly where the store has been executed since the slot was
allocated, or where the constant is the zero the slot starts with (`PropGuard`).
Every run all of whose loads are of this kind is preserved: `constProp_preserves`.
-/
import Limceron.Opt.Rewrite
import Limceron.IR.Check
import Limceron.Gen.Program
import Mathlib.Data.List.Forall2

namespace Limceron

/-! ## The pass -/

/-- The opcodes of constants. -/
def IrOpcode.isConst : IrOpcode → Bool
  | .constInt | .constFloat | .constString | .constBool => true
  | _ => false

/-- `si` is a store to `addr`. -/
def IrInst.storesTo (si : IrInst) (addr : Int) : Bool :=
  si.op == .store && decide (2 ≤ si.operands.length) && si.operand 1 == addr

/-- The search for stores to `addr`: `store_val` and `store_count`. -/
def propScan (fn : IrFunction) (addr : Int) : Option IrInst × Nat :=
  fn.insts.foldl (fun s si =>
    if si.storesTo addr then
      (match irFindInst fn (si.operand 0) with
        | some valInst => if valInst.op.isConst then some valInst else s.1
        | none => s.1, s.2 + 1)
    else s) (none, 0)

/-- What replaces `inst`, if anything does. -/
def propInst (fn : IrFunction) (inst : IrInst) : Option IrInst :=
  if inst.op = .load ∧ inst.operands.length = 1 then
    match propScan fn (inst.operand 0) with
    | (some storeVal, 1) =>
        some { inst with
          op := storeVal.op, type := storeVal.type, immInt := storeVal.immInt
          immFloat := storeVal.immFloat, immStr := storeVal.immStr, operands := [] }
    | _ => none
  else none

/-- Visit position `p`; the second component is `propagated`. -/
def propAt (s : IrFunction × Nat) (p : Point) : IrFunction × Nat :=
  match (s.1.instAt p).bind (propInst s.1) with
  | some inst' => (s.1.setInst p inst', s.2 + 1)
  | none => s

def propFunction (fn : IrFunction) : IrFunction × Nat := fn.points.foldl propAt (fn, 0)

/-- `ir_opt_constant_prop`, with the number of loads replaced. -/
def irOptConstantProp (m : IrModule) : IrModule × Nat :=
  (⟨m.functions.map (fun fn => (propFunction fn).1)⟩,
    m.functions.foldl (fun propagated fn => propagated + (propFunction fn).2) 0)

/-! ## What the search finds -/

theorem isConst_iff {i : IrInst} : i.op.isConst = true ↔ i.constVal.isSome = true := by
  cases hop : i.op <;> simp [IrOpcode.isConst, IrInst.constVal, hop]

/-- The search over a list, from any state. -/
theorem propScan_foldl (fn : IrFunction) (addr : Int) :
    ∀ (is : List IrInst) (s : Option IrInst × Nat),
      is.foldl (fun s si =>
        if si.storesTo addr then
          (match irFindInst fn (si.operand 0) with
            | some valInst => if valInst.op.isConst then some valInst else s.1
            | none => s.1, s.2 + 1)
        else s) s =
      ((is.filter (·.storesTo addr)).foldl (fun v si =>
          match irFindInst fn (si.operand 0) with
          | some valInst => if valInst.op.isConst then some valInst else v
          | none => v) s.1,
        s.2 + (is.filter (·.storesTo addr)).length)
  | [], s => rfl
  | i :: is, s => by
      rw [List.foldl_cons, propScan_foldl fn addr is]
      cases h : i.storesTo addr
      · simp [h]
      · simp [h, Nat.add_assoc, Nat.add_comm 1]

/-- Every store to the address is one instruction, and its value is the constant. -/
theorem propScan_one {fn : IrFunction} {addr : Int} {val : IrInst}
    (h : propScan fn addr = (some val, 1)) :
    val.op.isConst = true ∧ ∀ st ∈ fn.insts, st.storesTo addr = true →
      irFindInst fn (st.operand 0) = some val := by
  rw [propScan, propScan_foldl] at h
  obtain ⟨hval, hlen⟩ := Prod.mk.inj h
  obtain ⟨si, hsi⟩ := List.length_eq_one_iff.mp (by simpa using hlen)
  simp only [hsi, List.foldl_cons, List.foldl_nil] at hval
  have hfound : val.op.isConst = true ∧ irFindInst fn (si.operand 0) = some val := by
    split at hval
    · rename_i v hv
      split at hval
      · obtain rfl := Option.some.inj hval
        exact ⟨by assumption, hv⟩
      · simp at hval
    · simp at hval
  refine ⟨hfound.1, fun st hst hto => ?_⟩
  have hmem : st ∈ fn.insts.filter (·.storesTo addr) := List.mem_filter.mpr ⟨hst, hto⟩
  rw [hsi, List.mem_singleton] at hmem
  rw [hmem, hfound.2]

/-- A load from `a` becomes the constant `v`, which is what every store to `a`
in `fn` writes. -/
theorem propInst_some {fn : IrFunction} {inst inst' : IrInst} (h : propInst fn inst = some inst') :
    inst.op = .load ∧ ∃ a v, inst.operands = [a] ∧ inst'.constVal = some v ∧
      ConstFor inst inst' ∧ ∀ st ∈ fn.insts, st.storesTo a = true →
        ∃ c, irFindInst fn (st.operand 0) = some c ∧ c.constVal = some v := by
  unfold propInst at h
  split at h
  · rename_i hload
    split at h
    · rename_i val hscan
      obtain rfl := Option.some.inj h
      obtain ⟨hconst, hstores⟩ := propScan_one hscan
      obtain ⟨v, hv⟩ := Option.isSome_iff_exists.mp (isConst_iff.mp hconst)
      obtain ⟨a, ha⟩ := List.length_eq_one_iff.mp hload.2
      have hop : inst.operand 0 = a := by simp [IrInst.operand, ha]
      refine ⟨hload.1, a, v, ha, hv, ?_, fun st hst hto => ⟨val, ?_, hv⟩⟩
      · exact ⟨rfl, by simp [hload.1, IrOpcode.hasResult], isConst_iff.mp hconst, rfl,
          by simp [hload.1]⟩
      · exact hstores st hst (by rwa [hop])
    · simp at h
  · simp at h

/-! ## The walk -/

/-- The walk over `fn` comes to `p`, and `s` is the function it finds there. -/
def PropVisits (fn s : IrFunction) (p : Point) : Prop :=
  ∃ ps qs, fn.points = ps ++ p :: qs ∧ (ps.foldl propAt (fn, 0)).1 = s

/-- Every store to `a` in `fn` has the constant `v` as its value in `s`. -/
def StoresConst (fn s : IrFunction) (a : Int) (v : Val) : Prop :=
  ∀ q st, fn.instAt q = some st → st.storesTo a = true →
    ∃ c, irFindInst s (st.operand 0) = some c ∧ c.constVal = some v

/-- The load `i` at `p` was replaced by `i'`. -/
structure Propagated (fn s : IrFunction) (p : Point) (i i' : IrInst) (a : Int) (v : Val) :
    Prop where
  visit : ∃ s₀, PropVisits fn s₀ p ∧ propInst s₀ i = some i'
  at_ : s.instAt p = some i'
  load : i.op = .load
  operands : i.operands = [a]
  const : i'.constVal = some v
  id : i'.id = i.id
  stores : StoresConst fn s a v

/-- What holds after part of the walk. -/
structure PropWalk (fn s : IrFunction) : Prop where
  walk : Relation.ReflTransGen Overwrites fn s
  insts : ∀ p i, fn.instAt p = some i →
    s.instAt p = some i ∨ ∃ i' a v, Propagated fn s p i i' a v

theorem Propagated.overwrites {fn s s' : IrFunction} (h : Overwrites s s') {p : Point}
    {i i' : IrInst} {a : Int} {v : Val} (hp : Propagated fn s p i i' a v) :
    Propagated fn s' p i i' a v where
  visit := hp.visit
  at_ := h.instAt_const hp.at_ hp.const
  load := hp.load
  operands := hp.operands
  const := hp.const
  id := hp.id
  stores q st hq hst := by
    obtain ⟨c, hc, hv⟩ := hp.stores q st hq hst
    exact ⟨c, h.irFindInst hc hv, hv⟩

theorem mem_insts_of_instAt {fn : IrFunction} {p : Point} {i : IrInst}
    (h : fn.instAt p = some i) : i ∈ fn.insts := by
  obtain ⟨b, bb, -, hb, hk⟩ := instAt_some h
  exact List.mem_flatMap.mpr ⟨bb, List.mem_of_getElem? hb, List.mem_of_getElem? hk⟩

/-- One visit. -/
theorem PropWalk.step {fn : IrFunction} {ps qs : List Point} {p : Point}
    (hps : fn.points = ps ++ p :: qs) {s : IrFunction × Nat} (hs : ps.foldl propAt (fn, 0) = s)
    (h : PropWalk fn s.1) : PropWalk fn (propAt s p).1 := by
  unfold propAt
  split
  · rename_i inst' hbind
    obtain ⟨inst, hi, hf⟩ := Option.bind_eq_some_iff.mp hbind
    obtain ⟨hload, a, v, ha, hv, hfor, hstores⟩ := propInst_some hf
    have hnone : inst.constVal = none := by simp [IrInst.constVal, hload]
    have how : Overwrites s.1 (s.1.setInst p inst') := ⟨p, inst, inst', hi, hnone, hfor, rfl⟩
    refine ⟨h.walk.tail how, fun q i hq => ?_⟩
    rcases h.insts q i hq with hsame | ⟨i', b, w, hprop⟩
    · by_cases hqp : q = p
      · subst hqp
        obtain rfl : inst = i := by simpa [hi] using hsame
        refine .inr ⟨inst', a, v, ?_⟩
        refine ⟨⟨s.1, ⟨ps, qs, hps, by rw [hs]⟩, hf⟩, by simp [IrFunction.instAt_setInst hi], hload,
          ha, hv, hfor.id, ?_⟩
        intro r st hr hto
        -- a store is never overwritten, so the scan has seen it
        have hst : s.1.instAt r = some st := by
          rcases h.insts r st hr with hr' | ⟨_, _, _, hp⟩
          · exact hr'
          · simp [IrInst.storesTo, hp.load] at hto
        obtain ⟨c, hc, hcv⟩ := hstores st (mem_insts_of_instAt hst) hto
        exact ⟨c, how.irFindInst hc hcv, hcv⟩
      · exact .inl (by simp [IrFunction.instAt_setInst hi, hqp, hsame])
    · exact .inr ⟨i', b, w, hprop.overwrites how⟩
  · exact h

theorem propWalk (fn : IrFunction) : PropWalk fn (propFunction fn).1 := by
  suffices h : ∀ qs ps, fn.points = ps ++ qs → PropWalk fn (ps.foldl propAt (fn, 0)).1 →
      PropWalk fn (qs.foldl propAt (ps.foldl propAt (fn, 0))).1 from
    h fn.points [] rfl ⟨.refl, fun _ _ h => .inl h⟩
  intro qs
  induction qs with
  | nil => exact fun _ _ h => h
  | cons p qs ih =>
      intro ps hps h
      have := ih (ps ++ [p]) (by simp [hps]) (by
        rw [List.foldl_append]
        exact h.step hps rfl)
      rwa [List.foldl_append] at this

/-! ## The condition on a run -/

/-- On the path, a store to `a` has been executed, and since then no alloca of `a`. -/
def StoredSince (fn : IrFunction) (a : Int) (h : Path) : Prop :=
  ∃ h₁ q h₂, h = h₁ ++ q :: h₂ ∧ (∃ st, fn.instAt q = some st ∧ st.storesTo a = true) ∧
    ∀ r ∈ h₁, ∀ j, fn.instAt r = some j → j.op = .alloca → j.id ≠ a

/-- Where the pass replaces a load by a constant, the store has been executed
since the slot was allocated, or the constant is the zero of a fresh slot. -/
def PropGuard (fn : IrFunction) : Guard := fun h p i _ =>
  ∀ s i', PropVisits fn s p → propInst s i = some i' →
    StoredSince fn (i.operand 0) h ∨
    ∃ q j, fn.instAt q = some j ∧ j.op = .alloca ∧ j.id = i.operand 0 ∧
      i'.constVal = some j.zero

theorem StoredSince.tail {fn : IrFunction} {a : Int} {h : Path} {p : Point} {i : IrInst}
    (hi : fn.instAt p = some i) (hst : i.storesTo a = false) (hs : StoredSince fn a (p :: h)) :
    StoredSince fn a h ∧ (i.op = .alloca → i.id ≠ a) := by
  obtain ⟨h₁, q, h₂, heq, ⟨st, hq, hto⟩, hno⟩ := hs
  cases h₁ with
  | nil =>
      obtain ⟨rfl, -⟩ := List.cons.inj heq
      obtain rfl : i = st := by simpa [hi] using hq
      simp [hst] at hto
  | cons r h₁ =>
      obtain ⟨rfl, rfl⟩ := List.cons.inj heq
      exact ⟨⟨h₁, q, h₂, rfl, ⟨st, hq, hto⟩, fun r hr => hno r (List.mem_cons_of_mem _ hr)⟩,
        hno p List.mem_cons_self i hi⟩

/-! ## Slots -/

section
variable {fa : FloatArith} {host : Host} {callee : String → List Val → Trace → Outcome}
  {entry : Int → Val} {prev : Int} {i : IrInst} {fr fr' : Frame} {tr tr' : Trace}

/-- Only allocas and stores touch the slots. -/
theorem execInst_slots (h : execInst fa host callee entry prev i fr tr = .next fr' tr')
    (ha : i.op ≠ .alloca) (hs : i.op ≠ .store) : fr'.slots = fr.slots := by
  have hassign : ∀ o, Flow.assign fr tr i.id o = .next fr' tr' → fr'.slots = fr.slots := by
    rintro (_ | v) h
    · simp [Flow.assign] at h
    · obtain ⟨rfl, -⟩ := Flow.next.inj h
      simp
  have hcall : ∀ o, Flow.afterCall fr i.id o = .next fr' tr' → fr'.slots = fr.slots := by
    rintro (⟨v, t⟩ | _ | _ | _) h <;>
      simp only [Flow.afterCall, Flow.next.injEq, reduceCtorEq] at h
    rw [← h.1, Frame.set_slots]
  cases hop : i.op <;> simp only [execInst, hop] at h <;>
    first
    | exact hassign _ h
    | exact hcall _ h
    | skip
  case alloca => exact absurd hop ha
  case store => exact absurd hop hs
  case load | ret | br =>
    split at h
    all_goals simp only [Flow.next.injEq, reduceCtorEq] at h
    all_goals rw [← h.1]; simp
  case jmp => simp at h
  all_goals simp only [Flow.next.injEq] at h
  all_goals rw [← h.1]
  all_goals simp

end

/-- In SSA form a store writes its value to the slot it names. -/
theorem execInst_store {fn : IrFunction} (wf : fn.WellFormed) {p : Point} {i : IrInst}
    {fr : Frame} (hi : fn.instAt p = some i) (hk : Known fn p fr) (hop : i.op = .store) :
    ∃ b, (∀ a, i.storesTo a = true ↔ a = b) ∧
      ∀ fa host callee entry prev tr, execInst fa host callee entry prev i fr tr =
        .next (fr.setSlot b (fr.env (i.operand 0))) tr := by
  obtain ⟨q, j, x, hj, hja, hops⟩ := (wf.address p i hi).2 hop
  have hto : ∀ a, i.storesTo a = true ↔ j.id = a := by
    intro a
    simp [IrInst.storesTo, hop, hops, IrInst.operand]
  refine ⟨j.id, fun a => (hto a).trans eq_comm, ?_⟩
  have haddr : fr.env j.id = .addr j.id :=
    wf.env_static hi hk (List.mem_append_left _ (by simp [hops])) hj rfl
      (by simp [IrInst.staticVal, hja])
  have h1 : i.operand 1 = j.id := by simp [IrInst.operand, hops]
  intro fa host callee entry prev tr
  simp only [execInst, hop, h1, haddr]

/-! ## The simulation -/

/-- What a run that meets the guard knows at a point: the static values of the
rewritten function, and for every slot whose stores all write one constant, that
it holds this constant once stored to, and before that the zero. -/
structure PropKnown (fn fn' : IrFunction) (h : Path) (p : Point) (fr : Frame) : Prop where
  known : Known fn' p fr
  stored : ∀ a v, StoresConst fn fn' a v → StoredSince fn a h → fr.slots a = v
  fresh : ∀ a v q j, StoresConst fn fn' a v → fn.instAt q = some j → j.op = .alloca →
    j.id = a → fr.slots a = j.zero ∨ fr.slots a = v ∨ fn.Avoids q p

/-- The static values of the original are among those of the rewritten one. -/
theorem Known.of_rewritten {fn fn' : IrFunction} (hw : Rewritten fn fn') {p : Point}
    {fr : Frame} (hk : Known fn' p fr) : Known fn p fr := by
  intro q j v hq hv
  obtain ⟨j', hq', hor⟩ := hw.some q j hq
  have hj' : j' = j := by
    refine hor.resolve_right ?_
    rintro ⟨hnone, hfor⟩
    simp [IrInst.staticVal, hfor.alloca, hnone] at hv
  rw [← hw.avoids]
  exact hk q j v (hj' ▸ hq') hv

section
variable {fa : FloatArith} {fn fn' : IrFunction} (hw : Rewritten fn fn') (wf : fn.WellFormed)
  {p : Point} {i i' : IrInst} (hi : fn.instAt p = some i) (hi' : fn'.instAt p = some i')
  {host : Host} {callee : String → List Val → Trace → Outcome} {h : Path} {prev : Int}
  {entry : Int → Val} {fr fr' : Frame} {tr tr' : Trace}
include hw wf hi hi'

/-- A store is not overwritten and writes the constant of its slot. -/
theorem slots_store (hk : Known fn' p fr)
    (he : execInst fa host callee entry prev i fr tr = .next fr' tr') {a : Int} {v : Val}
    (hsc : StoresConst fn fn' a v) (hto : i.storesTo a = true) : fr'.slots a = v := by
  have hop : i.op = .store := by
    simp only [IrInst.storesTo, Bool.and_eq_true, beq_iff_eq] at hto
    exact hto.1.1
  obtain ⟨b, hb, hexec⟩ := execInst_store wf hi (hk.of_rewritten hw) hop
  obtain rfl := (hb a).mp hto
  obtain ⟨rfl, -⟩ := Flow.next.inj ((hexec ..).symm.trans he)
  have hsame : i' = i := by
    obtain ⟨j, hj, hor⟩ := hw.some p i hi
    obtain rfl : i' = j := by simpa [hi'] using hj
    refine hor.resolve_right fun hfor => ?_
    simpa [hop, IrOpcode.hasResult] using hfor.2.result
  obtain ⟨c, hc, hcv⟩ := hsc p i hi hto
  obtain ⟨hcid, q, hq⟩ := irFindInst_instAt hc
  have hmem : i.operand 0 ∈ i'.uses := by
    obtain ⟨-, j, x, -, -, hops⟩ := (wf.address p i hi).2 hop
    simp [hsame, IrInst.uses, IrInst.operand, hops]
  simp [(hw.wf wf).env_static hi' hk hmem hq hcid (IrInst.staticVal_of_constVal hcv)]

omit hi' in
/-- Other slots keep their contents, but for the one an alloca clears. -/
theorem slots_other (hk : Known fn' p fr)
    (he : execInst fa host callee entry prev i fr tr = .next fr' tr') {a : Int}
    (hto : i.storesTo a = false) (ha : i.op = .alloca → i.id ≠ a) :
    fr'.slots a = fr.slots a := by
  by_cases hal : i.op = .alloca
  · rw [execInst_alloca hal] at he
    obtain ⟨rfl, -⟩ := Flow.next.inj he
    simp [Function.update_of_ne (Ne.symm (ha hal))]
  by_cases hop : i.op = .store
  · obtain ⟨b, hb, hexec⟩ := execInst_store wf hi (hk.of_rewritten hw) hop
    obtain ⟨rfl, -⟩ := Flow.next.inj ((hexec ..).symm.trans he)
    have hab : a ≠ b := fun h => by simp [(hb a).mpr h] at hto
    simp [Function.update_of_ne hab]
  · rw [execInst_slots he hal hop]

/-- The step lemma. -/
theorem PropKnown.next (hk : PropKnown fn fn' h p fr)
    (he : execInst fa host callee entry prev i fr tr = .next fr' tr')
    (he' : execInst fa host callee entry prev i' fr tr = .next fr' tr') :
    PropKnown fn fn' (p :: h) p.next fr' where
  known := ((hw.wf wf).known fa).next hi' hk.known he'
  stored := by
    intro a v hsc hss
    cases hto : i.storesTo a with
    | true => exact slots_store hw wf hi hi' hk.known he hsc hto
    | false =>
        obtain ⟨hss', hal⟩ := hss.tail hi hto
        rw [slots_other hw wf hi hk.known he hto hal, hk.stored a v hsc hss']
  fresh := by
    intro a v q j hsc hj hja hid
    by_cases hpq : p = q
    · subst hpq
      obtain rfl : i = j := by simpa [hi] using hj
      rw [execInst_alloca hja] at he
      obtain ⟨rfl, -⟩ := Flow.next.inj he
      exact .inl (by simp [hid])
    cases hto : i.storesTo a with
    | true => exact .inr (.inl (slots_store hw wf hi hi' hk.known he hsc hto))
    | false =>
        have hal : i.op = .alloca → i.id ≠ a := by
          intro hal hia
          have hid0 : 0 ≤ i.id := by simpa [hal, IrOpcode.hasResult] using wf.result p i hi
          exact hpq (wf.unique p q i j hi hj hid0 (hia.trans hid.symm))
        rw [slots_other hw wf hi hk.known he hto hal]
        exact (hk.fresh a v q j hsc hj hja hid).imp_right
          (Or.imp_right fun hav => .step hav hpq (Succ.of_next hi he))

theorem PropKnown.jump (hk : PropKnown fn fn' h p fr) {t : Int}
    (he : execInst fa host callee entry prev i fr tr = .jump t fr' tr')
    (he' : execInst fa host callee entry prev i' fr tr = .jump t fr' tr') :
    PropKnown fn fn' (p :: h) (.start t) fr' := by
  obtain ⟨hop, rfl, -⟩ := execInst_jump he
  have hto : ∀ a, i.storesTo a = false := by
    intro a
    rcases hop with ⟨h | h, -⟩ | ⟨h, -⟩ <;> simp [IrInst.storesTo, h]
  refine ⟨((hw.wf wf).known fa).jump hi' hk.known he', ?_, ?_⟩
  · exact fun a v hsc hss => hk.stored a v hsc (hss.tail hi (hto a)).1
  · intro a v q j hsc hj hja hid
    have hpq : p ≠ q := by
      rintro rfl
      obtain rfl : i = j := by simpa [hi] using hj
      rcases hop with ⟨h | h, -⟩ | ⟨h, -⟩ <;> simp [hja] at h
    exact (hk.fresh a v q j hsc hj hja hid).imp_right
      (Or.imp_right fun hav => .step hav hpq (Succ.of_jump hi he))

end

/-- Where the guard is met, a replaced load reads the constant. -/
theorem execInst_propagated {fa : FloatArith} {host : Host}
    {callee : String → List Val → Trace → Outcome} {entry : Int → Val} {prev : Int}
    {fn fn' : IrFunction} (hw : Rewritten fn fn') (wf : fn.WellFormed) {p : Point}
    {i i' : IrInst} {a : Int} {v : Val} (hi : fn.instAt p = some i)
    (hp : Propagated fn fn' p i i' a v) {h : Path} {fr : Frame} {tr : Trace}
    (hk : PropKnown fn fn' h p fr) (hG : PropGuard fn h p i fr) :
    execInst fa host callee entry prev i' fr tr = execInst fa host callee entry prev i fr tr := by
  have ha : i.operand 0 = a := by simp [IrInst.operand, hp.operands]
  have hmem : a ∈ i.uses := by simp [IrInst.uses, hp.operands]
  obtain ⟨q, j, hj, hja, hops⟩ := (wf.address p i hi).1 hp.load
  obtain rfl : a = j.id := by simpa [hp.operands] using hops
  have haddr : fr.env j.id = .addr j.id :=
    wf.env_static hi (hk.known.of_rewritten hw) hmem hj rfl (by simp [IrInst.staticVal, hja])
  have hslot : fr.slots j.id = v := by
    obtain ⟨s, hvisit, hprop⟩ := hp.visit
    rcases hG s i' hvisit hprop with hss | ⟨q', j', hj', hja', hid', hzero⟩
    · exact hk.stored _ v hp.stores (ha ▸ hss)
    · have hid0 : 0 ≤ j'.id := by simpa [hja', IrOpcode.hasResult] using wf.result q' j' hj'
      obtain rfl : q' = q := wf.unique q' q j' j hj' hj hid0 (hid'.trans ha)
      obtain rfl : j' = j := by simpa [hj'] using hj
      have hv : v = j'.zero := by simpa [hp.const] using hzero
      -- the alloca dominates the load
      have hdom : ¬ fn.Avoids q' p := by
        rcases wf.uses p i _ hi hmem with hpar | ⟨r, k, hr, hkid, hk', hdom⟩
        · exact absurd hpar (wf.params q' j' hj' hid0)
        · obtain rfl : r = q' := wf.unique r q' k j' hr hj' hkid hk'
          exact hdom
      rcases hk.fresh _ v q' j' hp.stores hj' hja' rfl with h | h | h
      · rw [h, hv]
      · exact h
      · exact absurd h hdom
  rw [execInst_const hp.const, hp.id]
  simp only [execInst, hp.load, ha, haddr, hslot]

theorem fnSim_constProp {fa : FloatArith} {fn : IrFunction} (wf : fn.WellFormed) :
    FnSim fa (PropGuard fn) fn (propFunction fn).1 := by
  obtain ⟨hwalk, hinsts⟩ := propWalk fn
  generalize (propFunction fn).1 = fn' at hwalk hinsts
  have hw := Rewritten.of_walk hwalk
  refine ⟨hw.name, hw.params, fun h p entry fr entry' fr' =>
    entry' = entry ∧ fr' = fr ∧ PropKnown fn fn' h p fr, ?_, .of_points hw.blocks hw.none ?_⟩
  · refine fun args => ⟨rfl, rfl, ?_, ?_, ?_⟩
    · have hinit : Frame.init fn args = Frame.init fn' args := by simp [Frame.init, hw.params]
      exact hinit ▸ ((hw.wf wf).known fa).entry args
    · rintro a v - ⟨h₁, q, h₂, heq, -⟩
      simp at heq
    · exact fun _ _ _ _ _ _ _ _ => .inr (.inr (.start rfl))
  · intro p i hi
    obtain ⟨i', hi', -⟩ := hw.some p i hi
    refine ⟨i', hi', ?_⟩
    rintro host callee h entry prev fr entry' fr' tr ⟨rfl, rfl, hk⟩ hG
    have hsame : execInst fa host callee entry' prev i' fr' tr =
        execInst fa host callee entry' prev i fr' tr := by
      rcases hinsts p i hi with h' | ⟨j, a, v, hp⟩
      · obtain rfl : i' = i := by simpa [hi'] using h'
        rfl
      · obtain rfl : i' = j := by simpa [hi'] using hp.at_
        exact execInst_propagated hw wf hi hp hk hG
    rw [hsame]
    cases he : execInst fa host callee entry' prev i fr' tr with
    | next fr₁ tr₁ => exact ⟨rfl, rfl, rfl, hk.next hw wf hi hi' he (hsame.trans he)⟩
    | jump t fr₁ tr₁ => exact ⟨rfl, rfl, rfl, rfl, hk.jump hw wf hi hi' he (hsame.trans he)⟩
    | stop o => rfl

/-- Constant propagation preserves every run in which each load it replaces is
executed after the store, or replaced by the zero its slot starts with. -/
theorem constProp_preserves (fa : FloatArith) (m : IrModule) (wf : m.WellFormed) (host : Host)
    (n : Nat) (name : String) (args : List Val) (tr : Trace)
    (hmeets : RunMeets PropGuard fa host m n name args tr) :
    runFn fa host (irOptConstantProp m).1 n name args tr = runFn fa host m n name args tr := by
  have hsim : ModSim fa PropGuard m (irOptConstantProp m).1 := by
    refine List.forall₂_map_right_iff.mpr (List.forall₂_same.mpr ?_)
    exact fun fn hfn => fnSim_constProp (wf fn hfn)
  exact (hsim.runFn_eq n name args tr hmeets).symm

/-- `let x: int = 5; x` -/
def storedProgram : Program where
  decls := [.fn { name := "f", returnType := some (.named "int")
                  body := [.letS "x" (some (.named "int")) (some (.intLit 5)),
                    .expr (.ident "x")] }]

/-- The function generated for it. -/
def storedFunction : IrFunction where
  name := "lcn_f"
  returnType := .i64
  blocks := [
    { label := some "entry"
      insts := [
        { id := 0, op := .alloca, type := .ptr },
        { id := 1, op := .constInt, type := .i64, immInt := 5 },
        { id := -1, op := .store, type := .void, operands := [1, 0] },
        { id := 2, op := .load, type := .i64, operands := [0] },
        { id := -1, op := .ret, type := .void, operands := [2] }] }]
  currentBb := some 0
  nextValue := 3

theorem constProp_preserves_stored :
    irOptConstantProp (Gen.irGenProgram .empty storedProgram) ≠
      (Gen.irGenProgram .empty storedProgram, 0) ∧
    runFn .unused .echo (irOptConstantProp (Gen.irGenProgram .empty storedProgram)).1 1
        "lcn_f" [] [] =
      runFn .unused .echo (Gen.irGenProgram .empty storedProgram) 1 "lcn_f" [] [] := by
  have hgen : Gen.irGenProgram .empty storedProgram = ⟨[storedFunction]⟩ := by decide +kernel
  rw [hgen]
  refine ⟨by decide, ?_⟩
  have wf : IrModule.WellFormed ⟨[storedFunction]⟩ := by
    rintro fn hfn
    obtain rfl := List.mem_singleton.mp hfn
    exact IrFunction.wellFormed_of_ssaCheck (by decide)
  refine constProp_preserves .unused ⟨[storedFunction]⟩ wf .echo 1 "lcn_f" [] [] ?_
  rintro fn hfn
  obtain rfl : storedFunction = fn := Option.some.inj hfn
  have other : ∀ h p i fr, i.op ≠ .load → PropGuard storedFunction h p i fr :=
    fun h p i fr hop s i' _ hs => absurd (propInst_some hs).1 hop
  rintro is his
  obtain rfl := Option.some.inj his
  refine ⟨other _ _ _ _ (by decide), nofun, other _ _ _ _ (by decide), nofun,
    other _ _ _ _ (by decide), nofun, ?_, nofun, other _ _ _ _ (by decide), nofun, trivial⟩
  rintro s i' - -
  refine .inl ⟨[], ⟨0, 2⟩, [⟨0, 1⟩, ⟨0, 0⟩], rfl, ⟨_, rfl, rfl⟩, nofun⟩

/-- `let mut x: int; if c { x = 5 }; x` -/
def branchProgram : Program where
  decls := [.fn { name := "f", params := [⟨"c", some (.named "bool")⟩]
                  returnType := some (.named "int")
                  body := [.letS "x" (some (.named "int")) none,
                    .expr (.ifE (.ident "c") [.assign .eq (.ident "x") (.intLit 5)] .none),
                    .expr (.ident "x")] }]

/-- With `c` false the store is not executed, and the slot still holds zero. -/
theorem constProp_branch : ¬ ∀ (fa : FloatArith) (wit : Gen.HostErrors) (p : Program),
    (Gen.irGenProgram wit p).WellFormed →
      SameRuns fa (Gen.irGenProgram wit p) (irOptConstantProp (Gen.irGenProgram wit p)).1 := by
  intro h
  have wf : (Gen.irGenProgram .empty branchProgram).WellFormed := by
    have check : (Gen.irGenProgram .empty branchProgram).functions.all (·.ssaCheck) = true := by
      decide +kernel
    exact fun fn hfn => IrFunction.wellFormed_of_ssaCheck (List.all_eq_true.mp check fn hfn)
  have hsame := h .unused .empty branchProgram wf .echo 3 "lcn_f" [.word 0] []
  have hbefore : runFn .unused .echo (Gen.irGenProgram .empty branchProgram) 3 "lcn_f"
      [.word 0] [] = .ret (some (.word 0)) [] := by decide +kernel
  have hafter : runFn .unused .echo
      (irOptConstantProp (Gen.irGenProgram .empty branchProgram)).1 3 "lcn_f" [.word 0] [] =
        .ret (some (.word 5)) [] := by decide +kernel
  rw [hbefore, hafter] at hsame
  simp at hsame

end Limceron
