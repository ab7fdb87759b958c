/-
# `Limceron.Opt.Rewrite` — replacing one instruction by a constant

Constant folding and constant propagation overwrite one instruction after the
other with a constant of the same id.  One such overwrite keeps the control
flow and the SSA form (`WellFormed.setInst`), and it keeps the runs if the
instruction computed the constant wherever control comes to it
(`FnSim.setInst`).

`FnEquiv` chains the overwrites: exchanging one function for the other inside
any module leaves the runs of the module alone.
-/
import Limceron.IR.WellFormed
import Mathlib.Logic.Relation

namespace Limceron

/-! ## Overwriting -/

namespace IrFunction

/-- Overwrite the instruction at `p`. -/
def setInst (fn : IrFunction) (p : Point) (i : IrInst) : IrFunction :=
  { fn with blocks :=
      fn.blocks.modify p.bb.toNat (fun bb => { bb with insts := bb.insts.set p.idx i }) }

variable {fn : IrFunction} {p q : Point} {i i' : IrInst}

theorem blockInsts_setInst (hp : 0 ≤ p.bb) (b : Int) :
    (fn.setInst p i').blockInsts b =
      (fn.blockInsts b).map (fun is => if b = p.bb then is.set p.idx i' else is) := by
  unfold blockInsts setInst
  by_cases hb : b < 0
  · simp [hb]
  · simp only [hb, if_false, List.getElem?_modify]
    have hbb : p.bb.toNat = b.toNat ↔ b = p.bb := by omega
    simp only [hbb]
    cases fn.blocks[b.toNat]? <;> by_cases h : b = p.bb <;> simp [h]

theorem bb_nonneg (h : fn.instAt p = some i) : 0 ≤ p.bb := by
  by_contra hb
  simp [instAt, blockInsts, Int.not_le.mp hb] at h

theorem instAt_setInst (hi : fn.instAt p = some i) :
    (fn.setInst p i').instAt q = if q = p then some i' else fn.instAt q := by
  have hp := bb_nonneg hi
  unfold instAt at hi ⊢
  rw [blockInsts_setInst hp]
  cases hq : fn.blockInsts q.bb with
  | none =>
      have : q ≠ p := by rintro rfl; simp [hq] at hi
      simp [this]
  | some is =>
      by_cases hb : q.bb = p.bb
      · rw [← hb, hq] at hi
        simp only [Option.bind_some] at hi
        have hlen : p.idx < is.length := (List.getElem?_eq_some_iff.mp hi).1
        by_cases hx : q.idx = p.idx
        · obtain rfl : q = p := by cases q; cases p; simp_all
          simp [hlen]
        · have : q ≠ p := fun h => hx (by rw [h])
          simp [hb, this, List.getElem?_set_ne (Ne.symm hx)]
      · have : q ≠ p := fun h => hb (by rw [h])
        simp [hb, this]

theorem insts_setInst (hi : fn.instAt p = some i) (i' : IrInst) :
    ∃ pre post, fn.insts = pre ++ i :: post ∧ (fn.setInst p i').insts = pre ++ i' :: post := by
  have hp := bb_nonneg hi
  have split : ∀ (bs : List IrBasicBlock) (b : Nat) (bb : IrBasicBlock), bs[b]? = some bb →
      bb.insts[p.idx]? = some i → ∃ pre post, bs.flatMap (·.insts) = pre ++ i :: post ∧
        (bs.modify b (fun bb => { bb with insts := bb.insts.set p.idx i' })).flatMap (·.insts) =
          pre ++ i' :: post := by
    intro bs
    induction bs with
    | nil => intro b bb hb; simp at hb
    | cons b₀ bs ih =>
        rintro (_ | b) bb hb hk
        · obtain rfl : b₀ = bb := by simpa using hb
          obtain ⟨hlt, hget⟩ := List.getElem?_eq_some_iff.mp hk
          refine ⟨b₀.insts.take p.idx, b₀.insts.drop (p.idx + 1) ++ bs.flatMap (·.insts), ?_, ?_⟩
          · rw [List.flatMap_cons, ← List.cons_append, ← List.append_assoc, ← hget,
              List.getElem_cons_drop hlt, List.take_append_drop]
          · simp [List.set_eq_take_append_cons_drop, hlt]
        · obtain ⟨pre, post, h₁, h₂⟩ := ih b bb (by simpa using hb) hk
          exact ⟨b₀.insts ++ pre, post, by simp [h₁], by simp [h₂]⟩
  unfold instAt blockInsts at hi
  rw [if_neg (by omega)] at hi
  cases hb : fn.blocks[p.bb.toNat]? with
  | none => simp [hb] at hi
  | some bb => exact split fn.blocks p.bb.toNat bb hb (by simpa [hb] using hi)

/-- Overwriting another instruction does not change what `ir_find_inst` finds. -/
theorem irFindInst_setInst (hi : fn.instAt p = some i) (hid : i'.id = i.id) {x : Int}
    {j : IrInst} (hj : irFindInst fn x = some j) (hne : j ≠ i) :
    irFindInst (fn.setInst p i') x = some j := by
  obtain ⟨pre, post, h₁, h₂⟩ := insts_setInst hi i'
  unfold irFindInst at hj ⊢
  rw [h₁, List.find?_append] at hj
  rw [h₂, List.find?_append]
  cases hpre : pre.find? (fun k => k.id == x) with
  | some k => simpa [hpre] using hj
  | none =>
      by_cases hx : i.id = x
      · simp [hpre, hx] at hj
        exact absurd hj.symm hne
      · simpa [hpre, List.find?_cons, hid, hx] using hj

end IrFunction

/-! ## A constant in place of a computation -/

/-- `i'` is a constant with the id of `i`, and `i` is neither a jump, a phi nor
an alloca. -/
structure ConstFor (i i' : IrInst) : Prop where
  id : i'.id = i.id
  result : i.op.hasResult = true
  const : i'.constVal.isSome
  operands : i'.operands = []
  alloca : i.op ≠ .alloca

namespace ConstFor

variable {i i' : IrInst} (h : ConstFor i i')
include h

theorem ops : i'.op = .constInt ∨ i'.op = .constFloat ∨ i'.op = .constString ∨
    i'.op = .constBool := by
  have hc := h.const
  cases hop : i'.op <;> simp_all [IrInst.constVal]

theorem uses : i'.uses = [] := by
  rcases h.ops with ho | ho | ho | ho <;> simp [IrInst.uses, ho, h.operands]

theorem notTerminator : i.isTerminator = false ∧ i'.isTerminator = false := by
  have hr := h.result
  constructor
  · cases hop : i.op <;> simp_all [IrInst.isTerminator, IrOpcode.hasResult]
  · rcases h.ops with ho | ho | ho | ho <;> simp [IrInst.isTerminator, ho]

end ConstFor

namespace IrFunction

variable {fn : IrFunction} {p : Point} {i i' : IrInst}

theorem succ_setInst (hi : fn.instAt p = some i) (h : ConstFor i i') (q r : Point) :
    (fn.setInst p i').Succ q r ↔ fn.Succ q r := by
  unfold Succ
  rw [instAt_setInst hi]
  by_cases hq : q = p
  · subst hq
    obtain ⟨hni, hni'⟩ := h.notTerminator
    have hjb : ∀ j : IrInst, j.isTerminator = false → j.op ≠ .jmp ∧ j.op ≠ .br := by
      intro j hj
      constructor <;> intro ho <;> simp [IrInst.isTerminator, ho] at hj
    simp [hi, hni, hni', hjb i hni, hjb i' hni']
  · simp [hq]

theorem avoids_setInst (hi : fn.instAt p = some i) (h : ConstFor i i') (d q : Point) :
    (fn.setInst p i').Avoids d q ↔ fn.Avoids d q :=
  ⟨fun ha => ha.mono (fun _ _ => (succ_setInst hi h _ _).mp) (fun _ => id) (fun _ => id),
   fun ha => ha.mono (fun _ _ => (succ_setInst hi h _ _).mpr) (fun _ => id) (fun _ => id)⟩

theorem definedAt_setInst (hi : fn.instAt p = some i) (h : ConstFor i i') {v : Int} {q : Point}
    (hd : fn.DefinedAt v q) : (fn.setInst p i').DefinedAt v q := by
  rcases hd with hp | ⟨d, j, hj, hjid, hjv, hdom⟩
  · exact .inl hp
  · refine .inr ⟨d, if d = p then i' else j, ?_, ?_, ?_, ?_⟩
    · rw [instAt_setInst hi]
      split <;> simp [hj]
    · split
      · rename_i hdp
        subst hdp
        obtain rfl : i = j := by simpa [hi] using hj
        rwa [h.id]
      · exact hjid
    · split
      · rename_i hdp
        subst hdp
        obtain rfl : i = j := by simpa [hi] using hj
        rwa [h.id]
      · exact hjv
    · rwa [avoids_setInst hi h]

/-- The SSA form survives. -/
theorem WellFormed.setInst (wf : fn.WellFormed) (hi : fn.instAt p = some i)
    (h : ConstFor i i') : (fn.setInst p i').WellFormed := by
  have hid : 0 ≤ i.id := by simpa [h.result] using wf.result p i hi
  -- every instruction of the new function stands where one with the same id stood
  have old : ∀ q j, (fn.setInst p i').instAt q = some j →
      (q = p ∧ j = i') ∨ (q ≠ p ∧ fn.instAt q = some j) := by
    intro q j hq
    rw [instAt_setInst hi] at hq
    by_cases hqp : q = p
    · rw [if_pos hqp] at hq
      exact .inl ⟨hqp, (Option.some.inj hq).symm⟩
    · rw [if_neg hqp] at hq
      exact .inr ⟨hqp, hq⟩
  have oldId : ∀ q j, (fn.setInst p i').instAt q = some j →
      ∃ k, fn.instAt q = some k ∧ k.id = j.id := by
    intro q j hq
    rcases old q j hq with ⟨rfl, rfl⟩ | ⟨-, hq'⟩
    · exact ⟨i, hi, h.id.symm⟩
    · exact ⟨j, hq', rfl⟩
  have newAlloca : ∀ q j, fn.instAt q = some j → j.op = .alloca →
      (fn.setInst p i').instAt q = some j := by
    intro q j hq hop
    rw [instAt_setInst hi, if_neg, hq]
    rintro rfl
    obtain rfl : i = j := by simpa [hi] using hq
    exact h.alloca hop
  refine ⟨?_, ?_, ?_, ?_, ?_, ?_⟩
  · intro q j hq
    rcases old q j hq with ⟨rfl, rfl⟩ | ⟨-, hq'⟩
    · rcases h.ops with ho | ho | ho | ho <;> simpa [ho, IrOpcode.hasResult, h.id] using hid
    · exact wf.result q j hq'
  · intro q r j k hq hr hjid hjk
    obtain ⟨j₀, hq₀, hj₀⟩ := oldId q j hq
    obtain ⟨k₀, hr₀, hk₀⟩ := oldId r k hr
    exact wf.unique q r j₀ k₀ hq₀ hr₀ (hj₀ ▸ hjid) (by rw [hj₀, hk₀, hjk])
  · intro q j hq hjid
    obtain ⟨j₀, hq₀, hj₀⟩ := oldId q j hq
    exact hj₀ ▸ wf.params q j₀ hq₀ (hj₀ ▸ hjid)
  · intro q j v hq hv
    rcases old q j hq with ⟨rfl, rfl⟩ | ⟨-, hq'⟩
    · simp [h.uses] at hv
    · exact definedAt_setInst hi h (wf.uses q j v hq' hv)
  · intro q j v b t hq hop hv ht hs
    rcases old q j hq with ⟨rfl, rfl⟩ | ⟨-, hq'⟩
    · rcases h.ops with ho | ho | ho | ho <;> simp [ho] at hop
    · exact definedAt_setInst hi h
        (wf.phis q j v b t hq' hop hv ht ((succ_setInst hi h _ _).mp hs))
  · intro q j hq
    rcases old q j hq with ⟨rfl, rfl⟩ | ⟨-, hq'⟩
    · constructor <;> intro hop <;> rcases h.ops with ho | ho | ho | ho <;> simp [ho] at hop
    · obtain ⟨hl, hs⟩ := wf.address q j hq'
      constructor
      · intro hop
        obtain ⟨r, k, hr, hk, hjk⟩ := hl hop
        exact ⟨r, k, newAlloca r k hr hk, hk, hjk⟩
      · intro hop
        obtain ⟨r, k, v, hr, hk, hjk⟩ := hs hop
        exact ⟨r, k, v, newAlloca r k hr hk, hk, hjk⟩

end IrFunction

/-! ## Many overwrites -/

/-- Some instruction that is no constant is overwritten by a constant. -/
def Overwrites (s s' : IrFunction) : Prop :=
  ∃ p inst inst', s.instAt p = some inst ∧ inst.constVal = none ∧ ConstFor inst inst' ∧
    s' = s.setInst p inst'

section
variable {s s' : IrFunction}

/-- A constant stays where it is, -/
theorem Overwrites.instAt_const (h : Overwrites s s') {q : Point} {j : IrInst} {v : Val}
    (hj : s.instAt q = some j) (hv : j.constVal = some v) : s'.instAt q = some j := by
  obtain ⟨p, inst, inst', hi, hb, -, rfl⟩ := h
  rw [IrFunction.instAt_setInst hi, if_neg, hj]
  rintro rfl
  obtain rfl : inst = j := by simpa [hi] using hj
  simp [hb] at hv

/-- is found under its id as before, -/
theorem Overwrites.irFindInst (h : Overwrites s s') {x : Int} {j : IrInst} {v : Val}
    (hj : irFindInst s x = some j) (hv : j.constVal = some v) : irFindInst s' x = some j := by
  obtain ⟨p, inst, inst', hi, hb, hc, rfl⟩ := h
  refine IrFunction.irFindInst_setInst hi hc.id hj ?_
  rintro rfl
  simp [hb] at hv

/-- and what is none was there from the start. -/
theorem Overwrites.instAt_other (h : Overwrites s s') {q : Point} {j : IrInst}
    (hj : s'.instAt q = some j) (hb : j.constVal = none) : s.instAt q = some j := by
  obtain ⟨p, inst, inst', hi, -, hc, rfl⟩ := h
  rw [IrFunction.instAt_setInst hi] at hj
  split at hj
  · obtain rfl := Option.some.inj hj
    simpa [hb] using hc.const
  · exact hj

end

section
variable {s s' : IrFunction} (h : Relation.ReflTransGen Overwrites s s')
include h

theorem instAt_const_of_walk {q : Point} {j : IrInst} {v : Val}
    (hj : s.instAt q = some j) (hv : j.constVal = some v) : s'.instAt q = some j := by
  induction h with
  | refl => exact hj
  | tail _ h ih => exact h.instAt_const ih hv

theorem irFindInst_of_walk {x : Int} {j : IrInst} {v : Val}
    (hj : irFindInst s x = some j) (hv : j.constVal = some v) : irFindInst s' x = some j := by
  induction h with
  | refl => exact hj
  | tail _ h ih => exact h.irFindInst ih hv

theorem instAt_other_of_walk {q : Point} {j : IrInst} (hj : s'.instAt q = some j)
    (hb : j.constVal = none) : s.instAt q = some j := by
  induction h with
  | refl => exact hj
  | tail _ h ih => exact ih (h.instAt_other hj hb)

end

/-- What overwriting instructions by constants leaves of a function. -/
structure Rewritten (fn fn' : IrFunction) : Prop where
  name : fn'.name = fn.name
  params : fn'.params = fn.params
  blocks : ∀ b, (fn'.blockInsts b).isSome = (fn.blockInsts b).isSome
  none : ∀ p, fn.instAt p = none → fn'.instAt p = none
  some : ∀ p i, fn.instAt p = some i →
    ∃ i', fn'.instAt p = some i' ∧ (i' = i ∨ i.constVal = .none ∧ ConstFor i i')
  avoids : ∀ d p, fn'.Avoids d p ↔ fn.Avoids d p
  wf : fn.WellFormed → fn'.WellFormed

theorem Rewritten.refl (fn : IrFunction) : Rewritten fn fn :=
  ⟨rfl, rfl, fun _ => rfl, fun _ h => h, fun _ i h => ⟨i, h, .inl rfl⟩, fun _ _ => .rfl, id⟩

theorem Rewritten.step {fn s s' : IrFunction} (h : Rewritten fn s) (hs : Overwrites s s') :
    Rewritten fn s' := by
  obtain ⟨p, inst, inst', hi, hc, hfor, rfl⟩ := hs
  refine ⟨h.name, h.params, ?_, ?_, ?_, ?_, fun wf => (h.wf wf).setInst hi hfor⟩
  · intro b
    simp [IrFunction.blockInsts_setInst (IrFunction.bb_nonneg hi), h.blocks b]
  · intro q hq
    rw [IrFunction.instAt_setInst hi, if_neg, h.none q hq]
    rintro rfl
    simp [h.none q hq] at hi
  · intro q i hq
    obtain ⟨i', hi', hor⟩ := h.some q i hq
    rw [IrFunction.instAt_setInst hi]
    split
    · rename_i hqp
      subst hqp
      obtain rfl : inst = i' := by simpa [hi] using hi'
      refine ⟨inst', rfl, .inr ?_⟩
      rcases hor with rfl | ⟨-, hfor'⟩
      · exact ⟨hc, hfor⟩
      · simpa [hc] using hfor'.const
    · exact ⟨i', hi', hor⟩
  · intro d q
    rw [IrFunction.avoids_setInst hi hfor, h.avoids]

theorem Rewritten.of_walk {fn fn' : IrFunction} (h : Relation.ReflTransGen Overwrites fn fn') :
    Rewritten fn fn' := by
  induction h with
  | refl => exact .refl fn
  | tail _ hs ih => exact ih.step hs

/-! ## The runs -/

/-- The same activation on both sides, with an invariant of the runs. -/
def SameWith (K : Point → Frame → Prop) : PointRel :=
  fun _ p entry fr entry' fr' => entry' = entry ∧ fr' = fr ∧ K p fr

/-- Overwriting an instruction that does the same wherever `K` holds. -/
theorem FnSim.setInst {fa : FloatArith} {fn : IrFunction} {K : Point → Frame → Prop}
    (hK : RunInvariant fa fn K) {p : Point} {i i' : IrInst} (hi : fn.instAt p = some i)
    (heq : ∀ host callee entry prev fr tr, K p fr →
      execInst fa host callee entry prev i' fr tr = execInst fa host callee entry prev i fr tr) :
    FnSim fa .none fn (fn.setInst p i') where
  name := rfl
  params := rfl
  rel := by
    have hp := IrFunction.bb_nonneg hi
    refine ⟨SameWith K, fun args => ⟨rfl, rfl, hK.entry args⟩, .of_points ?_ ?_ ?_⟩
    · intro b
      simp [IrFunction.blockInsts_setInst hp]
    · intro q hq
      rw [IrFunction.instAt_setInst hi, if_neg, hq]
      rintro rfl
      simp [hi] at hq
    · intro q j hj
      refine ⟨if q = p then i' else j, ?_, ?_⟩
      · rw [IrFunction.instAt_setInst hi]
        split <;> simp [hj]
      rintro host callee path entry prev fr entry' fr' tr ⟨rfl, rfl, hk⟩ -
      have hsame : execInst fa host callee entry' prev (if q = p then i' else j) fr' tr =
          execInst fa host callee entry' prev j fr' tr := by
        split
        · rename_i hqp
          subst hqp
          obtain rfl : i = j := by simpa [hi] using hj
          exact heq _ _ _ _ _ _ hk
        · rfl
      rw [hsame]
      cases he : execInst fa host callee entry' prev j fr' tr with
      | next fr₁ tr₁ => exact ⟨rfl, rfl, rfl, hK.next hj hk he⟩
      | jump t fr₁ tr₁ => exact ⟨rfl, rfl, rfl, rfl, hK.jump hj hk he⟩
      | stop o => rfl

/-! ## Exchanging a function inside a module -/

theorem FnSim.refl {fa : FloatArith} (fn : IrFunction) : FnSim fa .none fn fn where
  name := rfl
  params := rfl
  rel := by
    refine ⟨SameWith fun _ _ => True, fun _ => ⟨rfl, rfl, trivial⟩,
      .of_points (fun _ => rfl) (fun _ h => h) fun p i hi => ⟨i, hi, ?_⟩⟩
    rintro host callee path entry prev fr entry' fr' tr ⟨rfl, rfl, -⟩ -
    cases execInst fa host callee entry' prev i fr' tr <;> simp [FlowSim, SameWith]

/-- Exchanging `fn` for `fn'` in any module leaves its runs alone. -/
def FnEquiv (fa : FloatArith) (fn fn' : IrFunction) : Prop :=
  ∀ pre post, SameRuns fa ⟨pre ++ fn :: post⟩ ⟨pre ++ fn' :: post⟩

theorem SameRuns.trans {fa : FloatArith} {m₁ m₂ m₃ : IrModule} (h : SameRuns fa m₁ m₂)
    (h' : SameRuns fa m₂ m₃) : SameRuns fa m₁ m₃ :=
  fun host n name args tr => (h' host n name args tr).trans (h host n name args tr)

theorem FnEquiv.refl (fa : FloatArith) (fn : IrFunction) : FnEquiv fa fn fn :=
  fun _ _ _ _ _ _ _ => rfl

theorem FnEquiv.trans {fa : FloatArith} {f g h : IrFunction} (hfg : FnEquiv fa f g)
    (hgh : FnEquiv fa g h) : FnEquiv fa f h :=
  fun pre post => (hfg pre post).trans (hgh pre post)

theorem FnSim.equiv {fa : FloatArith} {fn fn' : IrFunction} (h : FnSim fa .none fn fn') :
    FnEquiv fa fn fn' := by
  intro pre post
  refine ModSim.sameRuns ?_
  exact List.rel_append (List.forall₂_same.mpr fun f _ => FnSim.refl f)
    (.cons h (List.forall₂_same.mpr fun f _ => FnSim.refl f))

/-- Exchanging every function, one after the other. -/
theorem sameRuns_of_forall₂ {fa : FloatArith} {fs fs' : List IrFunction}
    (h : List.Forall₂ (FnEquiv fa) fs fs') :
    ∀ pre, SameRuns fa ⟨pre ++ fs⟩ ⟨pre ++ fs'⟩ := by
  induction h with
  | nil => exact fun _ _ _ _ _ _ => rfl
  | @cons f f' fs fs' hf _ ih =>
      intro pre
      have := ih (pre ++ [f'])
      simp only [List.append_assoc, List.cons_append, List.nil_append] at this
      exact (hf pre fs).trans this

end Limceron
