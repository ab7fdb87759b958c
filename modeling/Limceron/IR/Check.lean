/-
# `Limceron.IR.Check` — deciding SSA form

`WellFormed` speaks about all paths, so it is not decidable as it stands.  A
use is certainly dominated by its definition in two cases, and they cover the
straight-line code and the allocas of a function:

| definition | use |
| :-- | :-- |
| earlier in the same block | anywhere in the block |
| in the entry block, before any terminator | in another block |

`ssaCheck` asks for one of them at every use; `wellFormed_of_ssaCheck` says that
this is enough.
-/
import Limceron.IR.WellFormed

namespace Limceron

namespace IrFunction

variable {fn : IrFunction}

/-! ## Two cases of dominance -/

/-- A block is only entered at its start. -/
theorem not_avoids_of_lt {p q : Point} (hb : q.bb = p.bb) (hlt : q.idx < p.idx) :
    ¬ fn.Avoids q p := by
  intro h
  have hinv : p.bb = q.bb → p.idx ≤ q.idx := by
    refine Paths.Avoid.least (I := fun r => r.bb = q.bb → r.idx ≤ q.idx) ?_ ?_ h
    · rintro r rfl _
      exact Nat.zero_le _
    · rintro r s hr hrq ⟨i, -, hs⟩ hsb
      rcases hs with ⟨-, rfl⟩ | ⟨-, rfl⟩ | ⟨-, rfl⟩
      · exact Nat.zero_le _
      · exact Nat.zero_le _
      · have hle := hr hsb
        have hne : r.idx ≠ q.idx := by
          intro h
          apply hrq
          cases r; cases q; simp_all [Point.next]
        exact Nat.lt_of_le_of_ne hle hne
  have := hinv hb.symm
  omega

/-- Every path leaves the entry block through its straight part. -/
theorem not_avoids_of_entry {p q : Point} (hq : q.bb = 0)
    (hstraight : ∀ r i, r.bb = 0 → r.idx < q.idx → fn.instAt r = some i →
      i.isTerminator = false) (hp : p.bb ≠ 0) : ¬ fn.Avoids q p := by
  intro h
  have hinv : p.bb = 0 ∧ p.idx ≤ q.idx := by
    refine Paths.Avoid.least (I := fun r => r.bb = 0 ∧ r.idx ≤ q.idx) ?_ ?_ h
    · rintro r rfl
      exact ⟨rfl, Nat.zero_le _⟩
    · rintro r s ⟨hr0, hrle⟩ hrq ⟨i, hi, hs⟩
      have hne : r.idx ≠ q.idx := by
        intro h
        apply hrq
        cases r; cases q; simp_all
      have hnt := hstraight r i hr0 (Nat.lt_of_le_of_ne hrle hne) hi
      rcases hs with ⟨hop | hop, -⟩ | ⟨hop, -⟩ | ⟨-, rfl⟩
      · simp [IrInst.isTerminator, hop] at hnt
      · simp [IrInst.isTerminator, hop] at hnt
      · simp [IrInst.isTerminator, hop] at hnt
      · exact ⟨hr0, Nat.lt_of_le_of_ne hrle hne⟩
  exact hp hinv.1

/-! ## The check -/

theorem mem_points {p : Point} : p ∈ fn.points ↔ ∃ i, fn.instAt p = some i := by
  constructor
  · intro h
    obtain ⟨⟨bb, b⟩, hbb, hmem⟩ := List.mem_flatMap.mp h
    obtain ⟨k, hk, rfl⟩ := List.mem_map.mp hmem
    have hb : fn.blocks[b]? = some bb := List.mem_zipIdx_iff_getElem?.mp hbb
    have hlt : k < bb.insts.length := List.mem_range.mp hk
    exact ⟨bb.insts[k], by simp [instAt, hb, hlt]⟩
  · rintro ⟨i, hi⟩
    obtain ⟨b, bb, hpb, hbb, hk⟩ := instAt_some hi
    refine List.mem_flatMap.mpr ⟨(bb, b), List.mem_zipIdx_iff_getElem?.mpr hbb, ?_⟩
    refine List.mem_map.mpr ⟨p.idx, List.mem_range.mpr (List.getElem?_eq_some_iff.mp hk).1, ?_⟩
    rw [← hpb]

variable (fn)

/-- `v` is a parameter or certainly defined on every path to `p`. -/
def definedCheck (v : Int) (p : Point) : Bool :=
  fn.params.any (·.valueId == v) ||
  fn.points.any (fun q =>
    (fn.instAt q).any (fun j => j.id == v) && decide (0 ≤ v) &&
    ((q.bb == p.bb && decide (q.idx < p.idx)) ||
     (q.bb == 0 && p.bb != 0 &&
      (List.range q.idx).all (fun k => (fn.instAt ⟨0, k⟩).all (fun i => !i.isTerminator)))))

/-- The operand is the id of an alloca. -/
def allocaCheck (a : Int) : Bool :=
  fn.points.any (fun q => (fn.instAt q).any (fun j => j.op == .alloca && j.id == a))

def instCheck (p : Point) (i : IrInst) : Bool :=
  (if i.op.hasResult then decide (0 ≤ i.id) else i.id == -1) &&
  fn.points.all (fun q =>
    (fn.instAt q).all (fun j => decide (i.id < 0) || i.id != j.id || decide (p = q))) &&
  (decide (i.id < 0) || fn.params.all (·.valueId != i.id)) &&
  i.uses.all (fn.definedCheck · p) &&
  (i.op != .phi || i.phiArgs.all (fun a => fn.points.all (fun t =>
    t.bb != a.2 || fn.definedCheck a.1 t ||
      (fn.instAt t).all (fun j => (j.targetBb != p.bb || j.op != .jmp && j.op != .br) &&
        (j.falseBb != p.bb || j.op != .br) && (j.isTerminator || t.next != .start p.bb))))) &&
  (i.op != .load || i.operands.length == 1 && fn.allocaCheck (i.operand 0)) &&
  (i.op != .store || i.operands.length == 2 && fn.allocaCheck (i.operand 1))

def ssaCheck : Bool :=
  fn.points.all (fun p => (fn.instAt p).all (fn.instCheck p))

variable {fn}

theorem definedAt_of_check {v : Int} {p : Point} (h : fn.definedCheck v p = true) :
    fn.DefinedAt v p := by
  simp only [definedCheck, Bool.or_eq_true, List.any_eq_true, Bool.and_eq_true,
    Option.any_eq_true, beq_iff_eq, decide_eq_true_eq, bne_iff_ne] at h
  rcases h with ⟨pa, hpa, rfl⟩ | ⟨q, -, ⟨⟨j, hj, rfl⟩, hv⟩, hdom⟩
  · exact .inl ⟨pa, hpa, rfl⟩
  · refine .inr ⟨q, j, hj, hv, rfl, ?_⟩
    rcases hdom with ⟨hb, hlt⟩ | ⟨⟨hq, hp⟩, hstraight⟩
    · exact not_avoids_of_lt hb hlt
    · refine not_avoids_of_entry hq (fun r i hr hlt hi => ?_) hp
      have := List.all_eq_true.mp hstraight r.idx (List.mem_range.mpr hlt)
      obtain ⟨rb, k⟩ := r
      obtain rfl : rb = 0 := hr
      simpa [hi] using this

theorem alloca_of_check {a : Int} (h : fn.allocaCheck a = true) :
    ∃ q j, fn.instAt q = some j ∧ j.op = .alloca ∧ j.id = a := by
  simp only [allocaCheck, List.any_eq_true, Option.any_eq_true, Bool.and_eq_true,
    beq_iff_eq] at h
  obtain ⟨q, -, j, hj, hop, hid⟩ := h
  exact ⟨q, j, hj, hop, hid⟩

/-- A function that passes the check is in SSA form. -/
theorem wellFormed_of_ssaCheck (h : fn.ssaCheck = true) : fn.WellFormed := by
  have check : ∀ p i, fn.instAt p = some i → fn.instCheck p i = true := by
    intro p i hi
    simpa [hi] using List.all_eq_true.mp h p (mem_points.mpr ⟨i, hi⟩)
  simp only [instCheck, Bool.and_eq_true] at check
  refine ⟨?_, ?_, ?_, ?_, ?_, ?_⟩
  · intro p i hi
    have := (check p i hi).1.1.1.1.1.1
    split at this <;> simp_all
  · intro p q i j hi hj hid hij
    have := List.all_eq_true.mp (check p i hi).1.1.1.1.1.2 q (mem_points.mpr ⟨j, hj⟩)
    simpa [hj, hij, Int.not_lt.mpr (hij ▸ hid)] using this
  · intro p i hi hid
    have := (check p i hi).1.1.1.1.2
    simp only [Bool.or_eq_true, decide_eq_true_eq, Int.not_lt.mpr hid, false_or,
      List.all_eq_true, bne_iff_ne] at this
    rintro ⟨pa, hpa, hv⟩
    exact this pa hpa hv
  · intro p i v hi hv
    exact definedAt_of_check (List.all_eq_true.mp (check p i hi).1.1.1.2 v hv)
  · intro p i v b t hi hop hv htb ⟨j, hj, hs⟩
    have := (check p i hi).1.1.2
    simp only [hop, bne_self_eq_false, Bool.false_or, List.all_eq_true] at this
    have := this (v, b) hv t (mem_points.mpr ⟨j, hj⟩)
    simp only [htb, bne_self_eq_false, Bool.false_or, Bool.or_eq_true, hj, Option.all_some] at this
    refine this.elim definedAt_of_check fun hno => absurd hs ?_
    simp only [Bool.and_eq_true, Bool.or_eq_true, bne_iff_ne, ne_eq] at hno
    rintro (⟨hop, ht⟩ | ⟨hop, ht⟩ | ⟨hnt, ht⟩)
    · have : j.targetBb = p.bb := (Point.mk.inj ht).1.symm
      rcases hop with hop | hop <;> simp_all
    · have : j.falseBb = p.bb := (Point.mk.inj ht).1.symm
      simp_all
    · simp_all
  · intro p i hi
    obtain ⟨⟨-, hl⟩, hs⟩ := check p i hi
    constructor
    · intro hop
      simp only [hop, bne_self_eq_false, Bool.false_or, Bool.and_eq_true, beq_iff_eq] at hl
      obtain ⟨q, j, hj, hja, hid⟩ := alloca_of_check hl.2
      obtain ⟨a, ha⟩ := List.length_eq_one_iff.mp hl.1
      exact ⟨q, j, hj, hja, by simpa [ha, IrInst.operand] using hid.symm⟩
    · intro hop
      simp only [hop, bne_self_eq_false, Bool.false_or, Bool.and_eq_true, beq_iff_eq] at hs
      obtain ⟨q, j, hj, hja, hid⟩ := alloca_of_check hs.2
      obtain ⟨v, a, ha⟩ := List.length_eq_two.mp hs.1
      exact ⟨q, j, v, hj, hja, by simpa [ha, IrInst.operand] using hid.symm⟩

end IrFunction

end Limceron
