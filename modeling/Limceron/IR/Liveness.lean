/-
# `Limceron.IR.Liveness` — which values are live where

A value is live at a point when some path from there comes to a use of it before
it comes to a definition of it: `Paths.Avoid` from the point, avoiding the
definitions.  An operand of a phi is used at the end of the predecessor it is
listed for, not where the phi stands.

`TextRange` is the cruder notion of the register allocator, which reads the
function from top to bottom and does not look at branches.
-/
import Limceron.IR.Simulation

namespace Limceron

namespace IrInst

/-- Values read where the instruction stands; those of a phi are not. -/
def reads (i : IrInst) : List Int :=
  i.operands ++ if i.op = .call ∨ i.op = .hostCall then i.callArgs else []

/-- Blocks that control can go on to. -/
def targets (i : IrInst) : List Int :=
  if i.op = .jmp then [i.targetBb] else if i.op = .br then [i.targetBb, i.falseBb] else []

end IrInst

namespace IrFunction

variable (fn : IrFunction)

def DefinesAt (v : Int) (p : Point) : Prop := ∃ i, fn.instAt p = some i ∧ i.id = v

/-- The operand of a phi of block `t` for control coming from block `b`. -/
def PhiReads (b t v : Int) : Prop :=
  ∃ is, fn.blockInsts t = some is ∧ ∃ i ∈ is, i.op = .phi ∧ (v, b) ∈ i.phiArgs

def UsedAt (v : Int) (p : Point) : Prop :=
  ∃ i, fn.instAt p = some i ∧ (v ∈ i.reads ∨ ∃ t ∈ i.targets, fn.PhiReads p.bb t v)

/-- Before the instruction at `p` the value is still needed. -/
def LiveAt (v : Int) (p : Point) : Prop :=
  ∃ q, Paths.Avoid fn.Succ (· = p) (fn.DefinesAt v) q ∧ fn.UsedAt v q

variable {fn}

theorem LiveAt.of_usedAt {v : Int} {p : Point} (h : fn.UsedAt v p) : fn.LiveAt v p :=
  ⟨p, .start rfl, h⟩

/-- Liveness is carried backwards over what is not a definition. -/
theorem LiveAt.of_succ {v : Int} {p q : Point} (hpq : fn.Succ p q) (hd : ¬ fn.DefinesAt v p)
    (h : fn.LiveAt v q) : fn.LiveAt v p := by
  obtain ⟨r, hr, huse⟩ := h
  refine ⟨r, hr.trans ?_, huse⟩
  rintro _ rfl
  exact .step (.start rfl) hd hpq

theorem not_definesAt {v : Int} {p : Point} {i : IrInst} (hi : fn.instAt p = some i)
    (hne : i.id ≠ v) : ¬ fn.DefinesAt v p := by
  rintro ⟨j, hj, hid⟩
  rw [hi] at hj
  cases hj
  exact hne hid

theorem LiveAt.of_next {v : Int} {p : Point} {i : IrInst} (hi : fn.instAt p = some i)
    (ht : i.isTerminator = false) (hne : i.id ≠ v) (h : fn.LiveAt v p.next) : fn.LiveAt v p :=
  h.of_succ ⟨i, hi, .inr (.inr ⟨ht, rfl⟩)⟩ (not_definesAt hi hne)

theorem LiveAt.of_jmp {v : Int} {p : Point} {i : IrInst} (hi : fn.instAt p = some i)
    (hop : i.op = .jmp) (hne : i.id ≠ v) (h : fn.LiveAt v (.start i.targetBb)) :
    fn.LiveAt v p :=
  h.of_succ ⟨i, hi, .inl ⟨.inl hop, rfl⟩⟩ (not_definesAt hi hne)

theorem LiveAt.of_reads {v : Int} {p : Point} {i : IrInst} (hi : fn.instAt p = some i)
    (hv : v ∈ i.reads) : fn.LiveAt v p :=
  .of_usedAt ⟨i, hi, .inl hv⟩

end IrFunction

/-! ## Positions in the text -/

/-- The values that the text of the instruction names, call arguments of a host
call excepted. -/
def IrInst.mentions (i : IrInst) : List Int :=
  i.operands ++ (if i.op = .call then i.callArgs else []) ++
    if i.op = .phi then i.phiArgs.map (·.1) else []

namespace IrFunction

variable (fn : IrFunction)

/-- The value is defined by the `k`-th instruction; parameters count for the first. -/
def DefinedAtIdx (v : Int) (k : Nat) : Prop :=
  (v ∈ fn.params.map (·.valueId) ∧ k = 0) ∨ ∃ i, fn.insts[k]? = some i ∧ i.id = v ∧ 0 ≤ v

def MentionedAtIdx (v : Int) (k : Nat) : Prop :=
  ∃ i, fn.insts[k]? = some i ∧ v ∈ i.mentions ∧ 0 ≤ v

/-- Index `k` lies between the definition of `v` and its last mention. -/
def TextRange (v : Int) (k : Nat) : Prop :=
  ∃ s, fn.DefinedAtIdx v s ∧ s ≤ k ∧ (k = s ∨ ∃ j, fn.MentionedAtIdx v j ∧ k ≤ j)

/-- The values of a function: parameters, then results in textual order. -/
def valueIds : List Int :=
  fn.params.map (·.valueId) ++ (fn.insts.map (·.id)).filter (0 ≤ ·)

end IrFunction

/-- A function in which every value has one definition. -/
structure SsaFunction extends IrFunction where
  nodup : toIrFunction.valueIds.Nodup

end Limceron
