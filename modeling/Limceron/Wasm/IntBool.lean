/-
# `Limceron.Wasm.IntBool` — functions over ints and bools, and their locals

The functions whose values are ints and bools, with variables of these types in
the slots of their allocas (`IrFunction.IntBool`), and what a state of the
emitted code has to do with the state of the IR it stands for.

| the IR has | the instance has |
| :-- | :-- |
| a value at a point where it is defined | the same word in its local |
| a phi of the block that is still to come | already the value it will get |
| a slot, named by its alloca | eight bytes of its own, at the address in its local |

The second line is what the copies at the end of a predecessor are for: a block
is entered with its phis assigned, and the IR assigns them one by one as it
comes to them.
-/
import Limceron.IR.Visits
import Limceron.IR.Check
import Limceron.Lib.Copies
import Limceron.Wasm.Dispatch
import Limceron.Wasm.Words

namespace Limceron

/-- Int or bool. -/
def IrType.scalar : IrType → Bool
  | .i64 | .bool => true
  | _ => false

/-! ## The functions -/

namespace IrFunction

/-- `v` is a parameter or the result of an instruction, of type `τ`. -/
def HasType (fn : IrFunction) (v : Int) (τ : IrType) : Prop :=
  (∃ pa ∈ fn.params, pa.valueId = v ∧ pa.type = τ) ∨
    ∃ q j, fn.instAt q = some j ∧ 0 ≤ j.id ∧ j.id = v ∧ j.op ≠ .alloca ∧ j.type = τ

/-- The types of an instruction; `vars` is the type of the variable in a slot. -/
def Typed (m : IrModule) (fn : IrFunction) (vars : Int → IrType) (i : IrInst) : Prop :=
  match i.op with
  | .constInt => i.type = .i64
  | .constBool => i.type = .bool
  | .add | .sub | .mul | .div | .mod =>
      i.type = .i64 ∧ ∃ a b, i.operands = [a, b] ∧ fn.HasType a .i64 ∧ fn.HasType b .i64
  | .neg => i.type = .i64 ∧ ∃ a, i.operands = [a] ∧ fn.HasType a .i64
  | .not => i.type = .bool ∧ ∃ a τ, i.operands = [a] ∧ τ.scalar = true ∧ fn.HasType a τ
  | .cmpEq | .cmpNe | .cmpLt | .cmpGt | .cmpLe | .cmpGe =>
      i.type = .bool ∧
        ∃ a b τ, i.operands = [a, b] ∧ τ.scalar = true ∧ fn.HasType a τ ∧ fn.HasType b τ
  | .and | .or =>
      i.type = .bool ∧ ∃ a b, i.operands = [a, b] ∧ fn.HasType a .bool ∧ fn.HasType b .bool
  | .alloca => i.immInt ≠ 1
  | .load => i.type.scalar = true ∧ vars (i.operand 0) = i.type
  | .store => (vars (i.operand 1)).scalar = true ∧ fn.HasType (i.operand 0) (vars (i.operand 1))
  | .call =>
      ∃ name g, i.fnName = some name ∧ "lcn_".toList.isPrefixOf name.toList = true ∧
        m.lookup name = some g ∧ i.type = g.returnType ∧
        List.Forall₂ (fun v (pa : IrParam) => fn.HasType v pa.type) i.callArgs g.params
  | .ret =>
      if fn.returnType = .void then i.operands = []
      else ∃ v, i.operands = [v] ∧ fn.HasType v fn.returnType
  | .br => ∃ c, i.operands = [c] ∧ fn.HasType c .bool
  | .phi => i.type.scalar = true ∧ ∀ a ∈ i.phiArgs, fn.HasType a.1 i.type
  | .cast => i.type.scalar = true ∧ ∃ a τ, i.operands = [a] ∧ τ.scalar = true ∧ fn.HasType a τ
  | .jmp | .print | .nop => True
  | _ => False

/-- A well-formed function over ints and bools. -/
structure IntBool (m : IrModule) (fn : IrFunction) (vars : Int → IrType) : Prop where
  ssa : fn.WellFormed
  params : ∀ pa ∈ fn.params, pa.type.scalar = true ∧ 0 ≤ pa.valueId
  paramIds : (fn.params.map (·.valueId)).Nodup
  returns : fn.returnType = .void ∨ fn.returnType.scalar = true
  entry : 0 < fn.blocks.length
  /-- Block ids are C ints. -/
  blockIds : fn.blocks.length ≤ 2 ^ 31
  /-- One terminator in each block, at its end. -/
  ends : ∀ b is, fn.blockInsts b = some is → ∃ body t, is = body ++ [t] ∧
    t.isTerminator = true ∧ ∀ i ∈ body, i.isTerminator = false
  targets : ∀ p i, fn.instAt p = some i →
    ((i.op = .jmp ∨ i.op = .br) → (fn.blockInsts i.targetBb).isSome) ∧
    (i.op = .br → (fn.blockInsts i.falseBb).isSome)
  /-- Phis have a pair for every block control can come from. -/
  entryPhis : ∀ p i, fn.instAt p = some i → p.bb = 0 → i.op ≠ .phi
  phiPairs : ∀ p i t, fn.instAt p = some i → i.op = .phi → fn.Succ t (.start p.bb) →
    ∃ v, (v, t.bb) ∈ i.phiArgs
  typed : ∀ p i, fn.instAt p = some i → fn.Typed m vars i

/-- Every value has a local: its id is below `WASM_MAX_LOCALS`. -/
structure SmallIds (fn : IrFunction) : Prop where
  params : ∀ pa ∈ fn.params, pa.valueId < Wasm.maxLocals
  insts : ∀ p i, fn.instAt p = some i → i.id < Wasm.maxLocals

end IrFunction

/-- The functions of a module are well-formed and over ints and bools. -/
def IrModule.IntBool (m : IrModule) : Prop :=
  ∀ fn ∈ m.functions, ∃ vars, fn.IntBool m vars

/-! ## Words -/

/-- The words of a type. -/
def IrType.HasWord (τ : IrType) (c : BitVec 64) : Prop := τ = .bool → c = 0 ∨ c = 1

/-- A value of a type, and the cell that stands for it. -/
structure Cell (τ : IrType) (v : Val) (c : BitVec 64) : Prop where
  val : v = .word c
  word : τ.HasWord c

theorem hasWord_i64 (c : BitVec 64) : IrType.HasWord .i64 c := nofun

theorem hasWord_bool (b : Bool) (τ : IrType) : τ.HasWord (boolWord b) := by
  intro _
  cases b
  · exact .inl rfl
  · exact .inr rfl

theorem Cell.i64 (c : BitVec 64) : Cell .i64 (.word c) c := ⟨rfl, hasWord_i64 c⟩

theorem Cell.bool (b : Bool) (τ : IrType) : Cell τ (.word (boolWord b)) (boolWord b) :=
  ⟨rfl, hasWord_bool b τ⟩

/-! ## Blocks are entered at their start -/

namespace IrFunction

variable {fn : IrFunction}

theorem succ_next {r : Point} {b : Int} {k : Nat} (h : fn.Succ r ⟨b, k + 1⟩) : r = ⟨b, k⟩ := by
  obtain ⟨i, -, hs⟩ := h
  rcases hs with ⟨-, hs⟩ | ⟨-, hs⟩ | ⟨-, hs⟩
  · exact absurd (Point.mk.inj hs).2 (Nat.succ_ne_zero k)
  · exact absurd (Point.mk.inj hs).2 (Nat.succ_ne_zero k)
  · obtain ⟨hb, hk⟩ := Point.mk.inj hs
    cases r with
    | mk rb rk => exact Point.mk.injEq .. ▸ ⟨hb.symm, (Nat.succ.inj hk).symm⟩

/-- A path to a position of a block has come through the positions before it. -/
theorem Avoids.before {d : Point} {b : Int} {k j : Nat} (h : fn.Avoids d ⟨b, k + j⟩) :
    fn.Avoids d ⟨b, k⟩ := by
  induction j with
  | zero => exact h
  | succ j ih =>
      cases h with
      | start h => exact absurd (Point.mk.inj h).2 (Nat.succ_ne_zero _)
      | step ha _ hs =>
          rw [succ_next hs] at ha
          exact ih ha

/-- The first time control comes to a block, it has avoided all that is there. -/
theorem avoids_of_reaches {p : Point} {k : Nat} (h : fn.Reaches p) (hk : p.idx ≤ k) :
    fn.Avoids ⟨p.bb, k⟩ p := by
  have hor : fn.Avoids ⟨p.bb, k⟩ p ∨ fn.Avoids ⟨p.bb, k⟩ ⟨p.bb, k⟩ := by
    generalize p.bb = b at *
    refine Paths.Avoid.least (I := fun r => fn.Avoids ⟨b, k⟩ r ∨ fn.Avoids ⟨b, k⟩ ⟨b, k⟩) ?_ ?_ h
    · exact fun r hr => .inl (.start hr)
    · intro r s hr _ hs
      rcases hr with hr | hr
      · by_cases hd : r = ⟨b, k⟩
        · exact .inr (hd ▸ hr)
        · exact .inl (.step hr hd hs)
      · exact .inr hr
  rcases hor with h | h
  · exact h
  · obtain ⟨j, rfl⟩ := Nat.exists_eq_add_of_le hk
    exact h.before

end IrFunction

end Limceron
