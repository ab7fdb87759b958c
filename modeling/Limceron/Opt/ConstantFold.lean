/-
# `Limceron.Opt.ConstantFold` — `ir_opt_constant_fold`

The pass walks a function once in textual order.  An instruction with two
operands whose definitions are constants *by now* (an earlier step of the same
walk may have made them so) is overwritten by the constant it computes.

The arithmetic is done by the compiler itself, in C, on `int64_t`.  That is
where it differs from the target:

| operands | target | C |
| :-- | :-- | :-- |
| `INT64_MIN / -1` | traps | undefined; the x86-64 `idiv` kills the compiler |
| `INT64_MIN % -1` | `0` | the same |
| overflowing `+ - *` | wraps | undefined; `CHost` says what the build does |

`constantFold_iff` is the verdict: the pass terminates and preserves values and
runs exactly when no step of the walk stands at such operands.  The division by
a constant zero is not among them, because the pass leaves it alone.
-/
import Limceron.Opt.Rewrite
import Mathlib.Data.List.Forall2

namespace Limceron

/-! ## The pass -/

/-- What the build of the compiler does where C leaves signed overflow of `+`,
`-` and `*` open: the value it produces, or `none` if it traps. -/
structure CHost where
  overflow : IrOpcode → BitVec 64 → BitVec 64 → Option (BitVec 64)

/-- A build in which signed overflow wraps. -/
def CHost.wrapping : CHost where
  overflow
    | .add, a, b => some (a + b)
    | .sub, a, b => some (a - b)
    | .mul, a, b => some (a * b)
    | _, _, _ => none

/-- `a + b`, `a - b`, `a * b`, `a / b`, `a % b` on `int64_t` in the compiler.
`none`: the compiler does not survive it. -/
def cArith (c : CHost) : IrOpcode → BitVec 64 → BitVec 64 → Option (BitVec 64)
  | .add, a, b => if a.saddOverflow b then c.overflow .add a b else some (a + b)
  | .sub, a, b => if a.ssubOverflow b then c.overflow .sub a b else some (a - b)
  | .mul, a, b => if a.smulOverflow b then c.overflow .mul a b else some (a * b)
  | .div, a, b => if divTraps a b then none else some (a.sdiv b)
  | .mod, a, b => if divTraps a b then none else some (a.srem b)
  | _, _, _ => none

/-- `d == 0.0`: both zeros. -/
def isFloatZero (d : BitVec 64) : Bool := d == 0 || d == BitVec.intMin 64

/-- Replace an instruction with an integer constant. -/
def foldToInt (inst : IrInst) (r : BitVec 64) : IrInst :=
  { inst with op := .constInt, type := .i64, immInt := r, operands := [] }

def foldToBool (inst : IrInst) (r : Bool) : IrInst :=
  { inst with op := .constBool, type := .bool, immInt := boolWord r, operands := [] }

def foldToFloat (inst : IrInst) (r : BitVec 64) : IrInst :=
  { inst with op := .constFloat, type := .f64, immFloat := r, operands := [] }

def foldToString (inst : IrInst) (r : String) : IrInst :=
  { inst with op := .constString, type := .string, immStr := some r, operands := [] }

section
variable (fa : FloatArith) (c : CHost)

/-- Integer operands `a` and `b`.  `some none` leaves the instruction alone. -/
def foldIntInst (inst : IrInst) (a b : BitVec 64) : Option (Option IrInst) :=
  match inst.op with
  | .add | .sub | .mul => (cArith c inst.op a b).map (fun r => some (foldToInt inst r))
  | .div | .mod =>
      if b = 0 then some none
      else (cArith c inst.op a b).map (fun r => some (foldToInt inst r))
  | .cmpEq => some (some (foldToBool inst (a == b)))
  | .cmpNe => some (some (foldToBool inst (a != b)))
  | .cmpLt => some (some (foldToBool inst (a.slt b)))
  | .cmpGt => some (some (foldToBool inst (b.slt a)))
  | .cmpLe => some (some (foldToBool inst (a.sle b)))
  | .cmpGe => some (some (foldToBool inst (b.sle a)))
  | _ => some none

/-- Float operands; the compiler's `double` is the target's `f64`. -/
def foldFloatInst (inst : IrInst) (a b : BitVec 64) : Option IrInst :=
  match inst.op with
  | .fadd => some (foldToFloat inst (fa.add a b))
  | .fsub => some (foldToFloat inst (fa.sub a b))
  | .fmul => some (foldToFloat inst (fa.mul a b))
  | .fdiv => if isFloatZero b then none else some (foldToFloat inst (fa.div a b))
  | _ => none

/-- One instruction of the walk, in the function as it stands.  `none`: the
compiler dies; `some none`: the instruction stays. -/
def foldInst (fn : IrFunction) (inst : IrInst) : Option (Option IrInst) :=
  if inst.operands.length ≠ 2 then some none
  else
    match irFindInst fn (inst.operand 0), irFindInst fn (inst.operand 1) with
    | some lhs, some rhs =>
        match lhs.op, rhs.op with
        | .constInt, .constInt => foldIntInst c inst lhs.immInt rhs.immInt
        | .constFloat, .constFloat => some (foldFloatInst fa inst lhs.immFloat rhs.immFloat)
        | .constString, .constString =>
            if inst.op = .strConcat then
              some (some (foldToString inst (lhs.immStr.getD "" ++ rhs.immStr.getD "")))
            else some none
        | _, _ => some none
    | _, _ => some none

/-- Visit position `p`; the second component is `folded`. -/
def foldAt (s : IrFunction × Nat) (p : Point) : Option (IrFunction × Nat) :=
  match s.1.instAt p with
  | none => some s
  | some inst =>
      (foldInst fa c s.1 inst).map fun
        | none => s
        | some inst' => (s.1.setInst p inst', s.2 + 1)

def foldFunction (fn : IrFunction) (folded : Nat) : Option (IrFunction × Nat) :=
  fn.points.foldlM (foldAt fa c) (fn, folded)

def foldFunctions : List IrFunction → Nat → Option (List IrFunction × Nat)
  | [], folded => some ([], folded)
  | fn :: fns, folded =>
      (foldFunction fa c fn folded).bind fun s =>
        (foldFunctions fns s.2).map fun r => (s.1 :: r.1, r.2)

/-- `ir_opt_constant_fold`, with the number of instructions folded. -/
def irOptConstantFold (m : IrModule) : Option (IrModule × Nat) :=
  (foldFunctions fa c m.functions 0).map fun r => (⟨r.1⟩, r.2)

end

/-! ## Where C and the target part -/

/-- On operands `a` and `b` the compiler's own arithmetic traps or gives another
value than the target. -/
def FoldGoesWrong (c : CHost) (op : IrOpcode) (a b : BitVec 64) : Prop :=
  ((op = .div ∨ op = .mod) ∧ a = BitVec.intMin 64 ∧ b = -1) ∨
  (op = .add ∧ a.saddOverflow b ∧ c.overflow .add a b ≠ some (a + b)) ∨
  (op = .sub ∧ a.ssubOverflow b ∧ c.overflow .sub a b ≠ some (a - b)) ∨
  (op = .mul ∧ a.smulOverflow b ∧ c.overflow .mul a b ≠ some (a * b))

/-- The two operands of `inst` are the integer constants `a` and `b` in `fn`. -/
def ConstIntOperands (fn : IrFunction) (inst : IrInst) (a b : BitVec 64) : Prop :=
  inst.operands.length = 2 ∧
  (∃ lhs, irFindInst fn (inst.operand 0) = some lhs ∧ lhs.constVal = some (.word a) ∧
    lhs.op = .constInt) ∧
  ∃ rhs, irFindInst fn (inst.operand 1) = some rhs ∧ rhs.constVal = some (.word b) ∧
    rhs.op = .constInt

/-- The walk over `fn` reaches position `p`, and `s` is the function it finds
there. -/
def FoldReaches (fa : FloatArith) (c : CHost) (fn s : IrFunction) (p : Point) : Prop :=
  ∃ ps qs k, fn.points = ps ++ p :: qs ∧ ps.foldlM (foldAt fa c) (fn, 0) = some (s, k)

/-- No visit of the walk over `fn` stands at operands on which C and the target
part. -/
def FnFoldSafe (fa : FloatArith) (c : CHost) (fn : IrFunction) : Prop :=
  ∀ s p inst a b, FoldReaches fa c fn s p → s.instAt p = some inst →
    ConstIntOperands s inst a b → ¬ FoldGoesWrong c inst.op a b

/-- The same for the whole pass. -/
def FoldSafe (fa : FloatArith) (c : CHost) (m : IrModule) : Prop :=
  ∀ fn ∈ m.functions, FnFoldSafe fa c fn

/-! ## What the pass is meant to do -/

/-- The value of every instruction is unchanged: each one is either as it was,
or now is a constant, namely what the target computes from its operands. -/
def SameValues (fa : FloatArith) (fn fn' : IrFunction) : Prop :=
  ∀ p i, fn.instAt p = some i → fn'.instAt p = some i ∨
    ∃ i' lhs rhs a b v, fn'.instAt p = some i' ∧
      irFindInst fn' (i.operand 0) = some lhs ∧ lhs.constVal = some a ∧
      irFindInst fn' (i.operand 1) = some rhs ∧ rhs.constVal = some b ∧
      evalBinop fa i.op a b = some v ∧ i'.constVal = some v ∧ i'.id = i.id

/-- The compiler survives the pass, no instruction changes its value, and a
module in SSA form runs as before. -/
def FoldPreserves (fa : FloatArith) (c : CHost) (m : IrModule) : Prop :=
  ∃ m' k, irOptConstantFold fa c m = some (m', k) ∧
    List.Forall₂ (SameValues fa) m.functions m'.functions ∧
    (m.WellFormed → SameRuns fa m m')

/-! ## One instruction -/

/-- The operators of `evalBinop`. -/
def IrOpcode.isBinop : IrOpcode → Bool
  | .add | .sub | .mul | .div | .mod | .fadd | .fsub | .fmul | .fdiv
  | .cmpEq | .cmpNe | .cmpLt | .cmpGt | .cmpLe | .cmpGe | .and | .or
  | .strConcat | .gep => true
  | _ => false

theorem execInst_binop {fa : FloatArith} {host : Host}
    {callee : String → List Val → Trace → Outcome} {entry : Int → Val} {prev : Int}
    {i : IrInst} {fr : Frame} {tr : Trace} (h : i.op.isBinop = true) :
    execInst fa host callee entry prev i fr tr =
      Flow.assign fr tr i.id
        (evalBinop fa i.op (fr.env (i.operand 0)) (fr.env (i.operand 1))) := by
  cases hop : i.op <;> simp_all [IrOpcode.isBinop, execInst]

/-! ## What a step of the walk produces -/

section
variable {fa : FloatArith} {c : CHost}

/-- Away from the bad operands the compiler computes what the target does. -/
theorem cArith_eq (fa : FloatArith) {op : IrOpcode} {a b : BitVec 64} (hgood : ¬ FoldGoesWrong c op a b)
    (hb : op = .div ∨ op = .mod → b ≠ 0)
    (hop : op = .add ∨ op = .sub ∨ op = .mul ∨ op = .div ∨ op = .mod) :
    ∃ r, cArith c op a b = some r ∧ evalBinop fa op (.word a) (.word b) = some (.word r) := by
  rcases hop with rfl | rfl | rfl | rfl | rfl
  case inr.inr.inr.inl =>
    have hnt : divTraps a b = false := by
      have := hb (.inl rfl)
      simp_all [divTraps, FoldGoesWrong]
    exact ⟨a.sdiv b, by simp [cArith, hnt], by simp [evalBinop, hnt]⟩
  case inr.inr.inr.inr =>
    have hnz := hb (.inr rfl)
    have hnt : divTraps a b = false := by
      simp_all [divTraps, FoldGoesWrong]
    exact ⟨a.srem b, by simp [cArith, hnt], if_neg hnz⟩
  all_goals
    refine ⟨_, ?_, rfl⟩
    simp only [cArith]
    split
    · rename_i ho
      by_contra hne
      simp_all [FoldGoesWrong]
    · rfl

/-- The constant written in place of an instruction. -/
structure ConstOf (inst inst' : IrInst) (v : Val) : Prop where
  id : inst'.id = inst.id
  const : inst'.constVal = some v
  operands : inst'.operands = []

theorem ConstOf.constFor {inst inst' : IrInst} {v : Val} (h : ConstOf inst inst' v)
    (hb : inst.op.isBinop = true) : ConstFor inst inst' where
  id := h.id
  result := by cases hop : inst.op <;> simp_all [IrOpcode.isBinop, IrOpcode.hasResult]
  const := by simp [h.const]
  operands := h.operands
  alloca := by rintro hop; simp [hop, IrOpcode.isBinop] at hb

theorem constOf_foldToInt (inst : IrInst) (r : BitVec 64) :
    ConstOf inst (foldToInt inst r) (.word r) := ⟨rfl, rfl, rfl⟩

theorem constOf_foldToBool (inst : IrInst) (r : Bool) :
    ConstOf inst (foldToBool inst r) (.word (boolWord r)) :=
  ⟨rfl, by cases r <;> rfl, rfl⟩

theorem constOf_foldToFloat (inst : IrInst) (r : BitVec 64) :
    ConstOf inst (foldToFloat inst r) (.float r) := ⟨rfl, rfl, rfl⟩

theorem constOf_foldToString (inst : IrInst) (r : String) :
    ConstOf inst (foldToString inst r) (.str r) := ⟨rfl, rfl, rfl⟩

/-- Folding integers: the constant is the one of `cArith`, which agrees with the
target away from the bad operands. -/
theorem foldIntInst_spec (fa : FloatArith) {inst inst' : IrInst} {a b : BitVec 64}
    (h : foldIntInst c inst a b = some (some inst')) :
    inst.op.isBinop = true ∧ ∃ v, ConstOf inst inst' v ∧
      (¬ FoldGoesWrong c inst.op a b → evalBinop fa inst.op (.word a) (.word b) = some v) := by
  have arith : ∀ op, inst.op = op → (op = .add ∨ op = .sub ∨ op = .mul ∨ op = .div ∨ op = .mod) →
      (op = .div ∨ op = .mod → b ≠ 0) →
      (cArith c inst.op a b).map (fun r => some (foldToInt inst r)) = some (some inst') →
      ∃ v, ConstOf inst inst' v ∧
        (¬ FoldGoesWrong c inst.op a b → evalBinop fa inst.op (.word a) (.word b) = some v) := by
    rintro op rfl hop hb hr
    obtain ⟨r, hr₁, hi⟩ := Option.map_eq_some_iff.mp hr
    obtain rfl := Option.some.inj hi
    refine ⟨_, constOf_foldToInt inst r, fun hgood => ?_⟩
    obtain ⟨r', hr', he⟩ := cArith_eq fa hgood hb hop
    rw [he, Option.some.inj (hr₁.symm.trans hr')]
  have cmp : ∀ r : Bool, some (some (foldToBool inst r)) = some (some inst') →
      evalBinop fa inst.op (.word a) (.word b) = some (.word (boolWord r)) →
      ∃ v, ConstOf inst inst' v ∧
        (¬ FoldGoesWrong c inst.op a b → evalBinop fa inst.op (.word a) (.word b) = some v) := by
    intro r hr he
    obtain rfl := Option.some.inj (Option.some.inj hr)
    exact ⟨_, constOf_foldToBool inst r, fun _ => he⟩
  cases hop : inst.op <;> simp only [foldIntInst, hop] at h
  case add | sub | mul =>
    refine ⟨rfl, ?_⟩
    rw [← hop]
    exact arith _ rfl (by simp [hop]) (by simp [hop]) (by rw [hop]; exact h)
  case div | mod =>
    split at h
    · simp at h
    · rename_i hb
      refine ⟨rfl, ?_⟩
      rw [← hop]
      exact arith _ rfl (by simp [hop]) (fun _ => hb) (by rw [hop]; exact h)
  case cmpEq | cmpNe | cmpLt | cmpGt | cmpLe | cmpGe =>
    refine ⟨rfl, ?_⟩
    rw [← hop]
    exact cmp _ h (by rw [hop]; rfl)
  all_goals simp at h

theorem foldFloatInst_spec {inst inst' : IrInst} {a b : BitVec 64}
    (h : foldFloatInst fa inst a b = some inst') :
    inst.op.isBinop = true ∧ ∃ v, ConstOf inst inst' v ∧
      evalBinop fa inst.op (.float a) (.float b) = some v := by
  cases hop : inst.op <;> simp only [foldFloatInst, hop] at h
  case fadd | fsub | fmul =>
    obtain rfl := Option.some.inj h
    exact ⟨rfl, _, constOf_foldToFloat inst _, rfl⟩
  case fdiv =>
    split at h
    · simp at h
    · obtain rfl := Option.some.inj h
      exact ⟨rfl, _, constOf_foldToFloat inst _, rfl⟩
  all_goals simp at h

/-- The operands of `inst` are the constants `a` and `b`. -/
def ConstOperands (fn : IrFunction) (inst : IrInst) (a b : Val) : Prop :=
  ∃ lhs rhs, irFindInst fn (inst.operand 0) = some lhs ∧ lhs.constVal = some a ∧
    irFindInst fn (inst.operand 1) = some rhs ∧ rhs.constVal = some b

/-- What the walk writes is a constant, and the right one unless the operands
are bad. -/
theorem foldInst_spec {fn : IrFunction} {inst inst' : IrInst}
    (h : foldInst fa c fn inst = some (some inst')) :
    inst.op.isBinop = true ∧ inst.operands.length = 2 ∧
      ∃ a b v, ConstOperands fn inst a b ∧ ConstOf inst inst' v ∧
        ((∀ x y, ConstIntOperands fn inst x y → ¬ FoldGoesWrong c inst.op x y) →
          evalBinop fa inst.op a b = some v) := by
  unfold foldInst at h
  split at h
  · simp at h
  rename_i hlen
  have hlen : inst.operands.length = 2 := by simpa using hlen
  split at h
  · rename_i lhs rhs hl hr
    split at h
    · rename_i hlo hro
      obtain ⟨hb, v, hv, he⟩ := foldIntInst_spec fa h
      have hlv : lhs.constVal = some (.word lhs.immInt) := by simp [IrInst.constVal, hlo]
      have hrv : rhs.constVal = some (.word rhs.immInt) := by simp [IrInst.constVal, hro]
      exact ⟨hb, hlen, _, _, v, ⟨lhs, rhs, hl, hlv, hr, hrv⟩, hv, fun hgood =>
        he (hgood _ _ ⟨hlen, ⟨lhs, hl, hlv, hlo⟩, ⟨rhs, hr, hrv, hro⟩⟩)⟩
    · rename_i hlo hro
      obtain ⟨hb, v, hv, he⟩ := foldFloatInst_spec (Option.some.inj h)
      exact ⟨hb, hlen, _, _, v, ⟨lhs, rhs, hl, by simp [IrInst.constVal, hlo], hr,
        by simp [IrInst.constVal, hro]⟩, hv, fun _ => he⟩
    · rename_i hlo hro
      split at h
      · rename_i hop
        obtain rfl := Option.some.inj (Option.some.inj h)
        exact ⟨by rw [hop]; rfl, hlen, _, _, _, ⟨lhs, rhs, hl, by simp [IrInst.constVal, hlo]; rfl,
          hr, by simp [IrInst.constVal, hro]; rfl⟩, constOf_foldToString inst _,
          fun _ => by rw [hop]; rfl⟩
      · simp at h
    · simp at h
  · simp at h

/-- At integer constants the walk runs `foldIntInst`. -/
theorem foldInst_constInt {fn : IrFunction} {inst : IrInst} {a b : BitVec 64}
    (h : ConstIntOperands fn inst a b) : foldInst fa c fn inst = foldIntInst c inst a b := by
  obtain ⟨hlen, ⟨lhs, hl, hlv, hlo⟩, ⟨rhs, hr, hrv, hro⟩⟩ := h
  obtain rfl : lhs.immInt = a := by simpa [IrInst.constVal, hlo] using hlv
  obtain rfl : rhs.immInt = b := by simpa [IrInst.constVal, hro] using hrv
  simp [foldInst, hlen, hl, hr, hlo, hro]

/-- The compiler dies only at bad operands. -/
theorem foldInst_ne_none {fn : IrFunction} {inst : IrInst}
    (hgood : ∀ x y, ConstIntOperands fn inst x y → ¬ FoldGoesWrong c inst.op x y) :
    foldInst fa c fn inst ≠ none := by
  unfold foldInst
  split
  · simp
  rename_i hlen
  split
  · rename_i lhs rhs hl hr
    split
    · rename_i hlo hro
      have hg := hgood lhs.immInt rhs.immInt ⟨by simpa using hlen,
        ⟨lhs, hl, by simp [IrInst.constVal, hlo], hlo⟩, ⟨rhs, hr, by simp [IrInst.constVal, hro], hro⟩⟩
      cases hop : inst.op <;> simp only [foldIntInst, hop] <;> first | simp; done | skip
      case add | sub | mul =>
        obtain ⟨r, hr, -⟩ := cArith_eq fa hg (by simp [hop]) (by simp [hop])
        rw [hop] at hr
        simp [hr]
      case div | mod =>
        split
        · simp
        · rename_i hb
          obtain ⟨r, hr, -⟩ := cArith_eq fa hg (fun _ => hb) (by simp [hop])
          rw [hop] at hr
          simp [hr]
    · simp
    · split <;> simp
    · simp
  · simp

/-- At bad operands it dies, or writes a wrong constant. -/
theorem foldInst_wrong (fa : FloatArith) {fn : IrFunction} {inst : IrInst} {a b : BitVec 64}
    (h : ConstIntOperands fn inst a b) (hw : FoldGoesWrong c inst.op a b) :
    foldInst fa c fn inst = none ∨ ∃ inst' r, foldInst fa c fn inst = some (some inst') ∧
      inst'.constVal = some (.word r) ∧ evalBinop fa inst.op (.word a) (.word b) ≠ some (.word r) := by
  rw [foldInst_constInt h]
  have wrapped : ∀ op r', inst.op = op → evalBinop fa op (.word a) (.word b) = some (.word r') →
      foldIntInst c inst a b = (c.overflow op a b).map (fun r => some (foldToInt inst r)) →
      c.overflow op a b ≠ some r' →
      foldIntInst c inst a b = none ∨ ∃ inst' r, foldIntInst c inst a b = some (some inst') ∧
        inst'.constVal = some (.word r) ∧
        evalBinop fa inst.op (.word a) (.word b) ≠ some (.word r) := by
    rintro op r' rfl he hf hne
    rw [hf]
    cases hc : c.overflow inst.op a b with
    | none => exact .inl rfl
    | some r =>
        refine .inr ⟨_, r, rfl, rfl, ?_⟩
        rw [he]
        rintro hr
        obtain rfl : r' = r := by simpa using hr
        exact hne hc
  rcases hw with ⟨hop | hop, rfl, rfl⟩ | ⟨hop, ho, hne⟩ | ⟨hop, ho, hne⟩ | ⟨hop, ho, hne⟩
  case inl.inl | inl.inr =>
    have ht : divTraps (BitVec.intMin 64) (-1) = true := by decide
    have hnz : ¬ (-1 : BitVec 64) = 0 := by decide
    exact .inl (by simp only [foldIntInst, hop, if_neg hnz, cArith, ht, if_true, Option.map_none])
  all_goals
    exact wrapped _ _ hop rfl (by simp only [foldIntInst, hop, cArith, ho, if_true]) hne

/-! ## What later steps cannot undo -/

theorem constVal_of_isBinop {i : IrInst} (h : i.op.isBinop = true) : i.constVal = none := by
  cases hop : i.op <;> simp_all [IrOpcode.isBinop, IrInst.constVal]

theorem ConstOperands.of_walk {s s' : IrFunction} (h : Relation.ReflTransGen Overwrites s s')
    {inst : IrInst} {a b : Val} (hc : ConstOperands s inst a b) : ConstOperands s' inst a b := by
  obtain ⟨lhs, rhs, hl, ha, hr, hb⟩ := hc
  exact ⟨lhs, rhs, irFindInst_of_walk h hl ha, ha, irFindInst_of_walk h hr hb, hb⟩

/-- A step of the walk leaves the function alone or overwrites what it visits. -/
theorem foldAt_cases {s s' : IrFunction} {k k' : Nat} {p : Point}
    (h : foldAt fa c (s, k) p = some (s', k')) : s' = s ∨ ∃ inst inst', s.instAt p = some inst ∧
      foldInst fa c s inst = some (some inst') ∧ s' = s.setInst p inst' := by
  unfold foldAt at h
  split at h
  · exact .inl (Prod.mk.inj (Option.some.inj h)).1.symm
  · rename_i inst hi
    obtain ⟨r, hr, he⟩ := Option.map_eq_some_iff.mp h
    cases r with
    | none => exact .inl (Prod.mk.inj he).1.symm
    | some inst' => exact .inr ⟨inst, inst', hi, hr, (Prod.mk.inj he).1.symm⟩

theorem foldAt_overwrites {s s' : IrFunction} {k k' : Nat} {p : Point}
    (h : foldAt fa c (s, k) p = some (s', k')) : Relation.ReflTransGen Overwrites s s' := by
  rcases foldAt_cases h with rfl | ⟨inst, inst', hi, hf, rfl⟩
  · exact .refl
  · obtain ⟨hb, -, -, -, v, -, hv, -⟩ := foldInst_spec hf
    exact .single ⟨p, inst, inst', hi, constVal_of_isBinop hb, hv.constFor hb, rfl⟩

theorem foldlM_overwrites {ps : List Point} {s s' : IrFunction} {k k' : Nat}
    (h : ps.foldlM (foldAt fa c) (s, k) = some (s', k')) :
    Relation.ReflTransGen Overwrites s s' := by
  induction ps generalizing s k with
  | nil =>
      obtain ⟨rfl, -⟩ := Prod.mk.inj (Option.some.inj h)
      exact .refl
  | cons p ps ih =>
      obtain ⟨⟨s₁, k₁⟩, h₁, h₂⟩ := Option.bind_eq_some_iff.mp h
      exact (foldAt_overwrites h₁).trans (ih h₂)

/-- The count does not influence the walk. -/
theorem foldlM_count {ps : List Point} {s s' : IrFunction} {k k' : Nat}
    (h : ps.foldlM (foldAt fa c) (s, k) = some (s', k')) (l : Nat) :
    ∃ l', ps.foldlM (foldAt fa c) (s, l) = some (s', l') := by
  induction ps generalizing s k l with
  | nil =>
      obtain ⟨rfl, -⟩ := Prod.mk.inj (Option.some.inj h)
      exact ⟨l, rfl⟩
  | cons p ps ih =>
      obtain ⟨⟨s₁, k₁⟩, h₁, h₂⟩ := Option.bind_eq_some_iff.mp h
      have hcount : ∃ l₁, foldAt fa c (s, l) p = some (s₁, l₁) := by
        cases hi : s.instAt p with
        | none =>
            simp only [foldAt, hi] at h₁ ⊢
            exact ⟨l, by simpa using (Prod.mk.inj (Option.some.inj h₁)).1⟩
        | some inst =>
            simp only [foldAt, hi] at h₁ ⊢
            obtain ⟨r, hr, he⟩ := Option.map_eq_some_iff.mp h₁
            cases r with
            | none => exact ⟨l, by simpa [hr] using (Prod.mk.inj he).1⟩
            | some inst' => exact ⟨l + 1, by simpa [hr] using (Prod.mk.inj he).1⟩
      obtain ⟨l₁, hl₁⟩ := hcount
      obtain ⟨l', hl'⟩ := ih h₂ l₁
      exact ⟨l', Option.bind_eq_some_iff.mpr ⟨_, hl₁, hl'⟩⟩

/-! ## A safe walk preserves -/

/-- What holds between the function and its state in a safe walk. -/
structure FoldedTo (fa : FloatArith) (fn s : IrFunction) : Prop where
  values : SameValues fa fn s
  wf : fn.WellFormed → s.WellFormed
  runs : fn.WellFormed → FnEquiv fa fn s

theorem FoldedTo.refl (fn : IrFunction) : FoldedTo fa fn fn :=
  ⟨fun _ _ h => .inl h, id, fun _ => .refl fa fn⟩

/-- Overwriting an operator with its value keeps the runs: where control comes
to it, the ids of the operands hold the constants. -/
theorem fnEquiv_setInst {s : IrFunction} (wf : s.WellFormed) {p : Point} {inst inst' : IrInst}
    {a b v : Val} (hi : s.instAt p = some inst) (hb : inst.op.isBinop = true)
    (hlen : inst.operands.length = 2) (hops : ConstOperands s inst a b)
    (hc : ConstOf inst inst' v) (hv : evalBinop fa inst.op a b = some v) :
    FnEquiv fa s (s.setInst p inst') := by
  refine (FnSim.setInst (wf.known fa) hi ?_).equiv
  intro host callee entry prev fr tr hk
  obtain ⟨lhs, rhs, hl, ha, hr, hb'⟩ := hops
  have operand : ∀ n < 2, ∀ j w, irFindInst s (inst.operand n) = some j → j.constVal = some w →
      fr.env (inst.operand n) = w := by
    intro n hn j w hj hw
    obtain ⟨hjid, q, hq⟩ := irFindInst_instAt hj
    have hmem : inst.operand n ∈ inst.uses := by
      refine List.mem_append_left _ ?_
      have hlt : n < inst.operands.length := by omega
      simp [IrInst.operand, hlt]
    exact wf.env_static hi hk hmem hq hjid (IrInst.staticVal_of_constVal hw)
  rw [execInst_const hc.const, execInst_binop hb, operand 0 (by decide) lhs a hl ha,
    operand 1 (by decide) rhs b hr hb', hv, hc.id]
  rfl

theorem FoldedTo.step {fn s : IrFunction} (h : FoldedTo fa fn s) {p : Point}
    {inst inst' : IrInst} {a b v : Val} (hi : s.instAt p = some inst)
    (hb : inst.op.isBinop = true) (hlen : inst.operands.length = 2)
    (hops : ConstOperands s inst a b) (hc : ConstOf inst inst' v)
    (hv : evalBinop fa inst.op a b = some v) : FoldedTo fa fn (s.setInst p inst') := by
  have how : Overwrites s (s.setInst p inst') := ⟨p, inst, inst', hi, constVal_of_isBinop hb, hc.constFor hb, rfl⟩
  refine ⟨?_, fun wf => (h.wf wf).setInst hi (hc.constFor hb),
    fun wf => (h.runs wf).trans (fnEquiv_setInst (h.wf wf) hi hb hlen hops hc hv)⟩
  intro q i hq
  rcases h.values q i hq with hs | ⟨i', lhs, rhs, x, y, w, hs, hl, hx, hr, hy, hw, hi', hid⟩
  · by_cases hqp : q = p
    · subst hqp
      obtain rfl : inst = i := by simpa [hi] using hs
      obtain ⟨lhs, rhs, hl, ha, hr, hb'⟩ := hops.of_walk (.single how)
      exact .inr ⟨inst', lhs, rhs, a, b, v, by simp [IrFunction.instAt_setInst hi], hl, ha, hr,
        hb', hv, hc.const, hc.id⟩
    · exact .inl (by simp [IrFunction.instAt_setInst hi, hqp, hs])
  · exact .inr ⟨i', lhs, rhs, x, y, w, how.instAt_const hs hi', how.irFindInst hl hx, hx,
      how.irFindInst hr hy, hy, hw, hi', hid⟩

/-- The step lemma: a visit away from bad operands. -/
theorem foldAt_safe {fn s : IrFunction} {k : Nat} {p : Point} (h : FoldedTo fa fn s)
    (hsafe : ∀ inst a b, s.instAt p = some inst → ConstIntOperands s inst a b →
      ¬ FoldGoesWrong c inst.op a b) :
    ∃ s' k', foldAt fa c (s, k) p = some (s', k') ∧ FoldedTo fa fn s' := by
  cases hi : s.instAt p with
  | none => exact ⟨s, k, by simp [foldAt, hi], h⟩
  | some inst =>
      have hgood := fun a b => hsafe inst a b hi
      cases hf : foldInst fa c s inst with
      | none => exact absurd hf (foldInst_ne_none hgood)
      | some r =>
          cases r with
          | none => exact ⟨s, k, by simp [foldAt, hi, hf], h⟩
          | some inst' =>
              obtain ⟨hb, hlen, a, b, v, hops, hc, hv⟩ := foldInst_spec hf
              exact ⟨_, k + 1, by simp [foldAt, hi, hf],
                h.step hi hb hlen hops hc (hv hgood)⟩

/-- The run lemma, by induction on the positions still to visit. -/
theorem foldFunction_safe {fn : IrFunction} (hsafe : FnFoldSafe fa c fn) (k : Nat) :
    ∃ s k', foldFunction fa c fn k = some (s, k') ∧ FoldedTo fa fn s := by
  suffices h : ∀ qs ps s l, fn.points = ps ++ qs →
      ps.foldlM (foldAt fa c) (fn, k) = some (s, l) → FoldedTo fa fn s →
      ∃ s' l', qs.foldlM (foldAt fa c) (s, l) = some (s', l') ∧ FoldedTo fa fn s' from
    h fn.points [] fn k rfl rfl (.refl fn)
  intro qs
  induction qs with
  | nil => exact fun ps s l _ _ hs => ⟨s, l, rfl, hs⟩
  | cons p qs ih =>
      intro ps s l hps hrun hs
      obtain ⟨l₀, hrun₀⟩ := foldlM_count hrun 0
      obtain ⟨s₁, l₁, h₁, hs₁⟩ := foldAt_safe (k := l) hs (p := p)
        (fun inst a b hi => hsafe s p inst a b ⟨ps, qs, l₀, hps, hrun₀⟩ hi)
      obtain ⟨s', l', h', hs'⟩ := ih (ps ++ [p]) s₁ l₁ (by simp [hps])
        (by rw [List.foldlM_append, hrun]; simp [h₁]) hs₁
      exact ⟨s', l', Option.bind_eq_some_iff.mpr ⟨_, h₁, h'⟩, hs'⟩

theorem foldFunctions_safe {fns : List IrFunction} (hsafe : ∀ fn ∈ fns, FnFoldSafe fa c fn)
    (k : Nat) : ∃ fns' k', foldFunctions fa c fns k = some (fns', k') ∧
      List.Forall₂ (FoldedTo fa) fns fns' := by
  induction fns generalizing k with
  | nil => exact ⟨[], k, rfl, .nil⟩
  | cons fn fns ih =>
      obtain ⟨s, k₁, hs, hfold⟩ := foldFunction_safe (hsafe fn List.mem_cons_self) k
      obtain ⟨fns', k', hfs, hrest⟩ := ih (fun g hg => hsafe g (List.mem_cons_of_mem _ hg)) k₁
      exact ⟨s :: fns', k', by simp [foldFunctions, hs, hfs], .cons hfold hrest⟩

theorem foldPreserves_of_safe {m : IrModule} (hsafe : FoldSafe fa c m) :
    FoldPreserves fa c m := by
  obtain ⟨fns', k', hf, hall⟩ := foldFunctions_safe hsafe 0
  refine ⟨⟨fns'⟩, k', by simp [irOptConstantFold, hf], hall.imp fun _ _ h => h.values, ?_⟩
  intro wf
  have hruns : List.Forall₂ (FnEquiv fa) m.functions fns' :=
    ((List.forall₂_and_left ..).mpr ⟨wf, hall⟩).imp fun _ _ h => h.2.runs h.1
  exact sameRuns_of_forall₂ hruns []

/-! ## An unsafe walk does not -/

/-- Each function of the result is the walk's result. -/
theorem foldFunctions_forall₂ {fns fns' : List IrFunction} {k k' : Nat}
    (h : foldFunctions fa c fns k = some (fns', k')) :
    List.Forall₂ (fun fn fn' => ∃ l, foldFunction fa c fn 0 = some (fn', l)) fns fns' := by
  induction fns generalizing k k' fns' with
  | nil =>
      obtain ⟨rfl, -⟩ := Prod.mk.inj (Option.some.inj h)
      exact .nil
  | cons fn fns ih =>
      obtain ⟨⟨s, k₁⟩, hs, hr⟩ := Option.bind_eq_some_iff.mp h
      obtain ⟨⟨r, k₂⟩, hfs, he⟩ := Option.map_eq_some_iff.mp hr
      obtain ⟨rfl, -⟩ := Prod.mk.inj he
      exact .cons (foldlM_count hs 0) (ih hfs)

/-- A visit to bad operands that the compiler survives leaves a wrong value. -/
theorem foldSafe_of_sameValues {fn fn' : IrFunction} {l : Nat}
    (hrun : foldFunction fa c fn 0 = some (fn', l)) (hvals : SameValues fa fn fn') :
    FnFoldSafe fa c fn := by
  rintro s p inst a b ⟨ps, qs, k, hps, hs⟩ hi hops hw
  unfold foldFunction at hrun
  rw [hps, List.foldlM_append, hs] at hrun
  obtain ⟨⟨s₁, k₁⟩, hat, hrest⟩ := Option.bind_eq_some_iff.mp
    (show (foldAt fa c (s, k) p).bind (fun r => qs.foldlM (foldAt fa c) r) = some (fn', l)
      from hrun)
  obtain hnone | ⟨inst', r, hf, hr, hne⟩ := foldInst_wrong fa hops hw
  · simp [foldAt, hi, hnone] at hat
  obtain ⟨hb, -, x, y, v, hxy, hc, -⟩ := foldInst_spec hf
  obtain rfl : s.setInst p inst' = s₁ := by
    simp only [foldAt, hi, hf, Option.map_some, Option.some.injEq, Prod.mk.injEq] at hat
    exact hat.1
  have how : Overwrites s (s.setInst p inst') := ⟨p, inst, inst', hi, constVal_of_isBinop hb, hc.constFor hb, rfl⟩
  have hpast := foldlM_overwrites hs
  have hfuture := foldlM_overwrites hrest
  have hfn : fn.instAt p = some inst := instAt_other_of_walk hpast hi (constVal_of_isBinop hb)
  have hfn' : fn'.instAt p = some inst' :=
    instAt_const_of_walk hfuture (by simp [IrFunction.instAt_setInst hi]) hr
  -- the operands are still found at the end
  obtain ⟨-, ⟨lhs, hl, hlv, -⟩, ⟨rhs, hr', hrv, -⟩⟩ := hops
  have hend : ConstOperands fn' inst (.word a) (.word b) :=
    ConstOperands.of_walk (hfuture.head how) ⟨lhs, rhs, hl, hlv, hr', hrv⟩
  obtain ⟨lhs', rhs', hl', hlv', hr'', hrv'⟩ := hend
  rcases hvals p inst hfn with hsame | ⟨i', lhs'', rhs'', x', y', v', hi', hle, hx', hre, hy', hv', hc', -⟩
  · obtain rfl : inst' = inst := by simpa [hfn'] using hsame
    simp [constVal_of_isBinop hb] at hr
  · obtain rfl : inst' = i' := by simpa [hfn'] using hi'
    obtain rfl : lhs' = lhs'' := by simpa [hl'] using hle
    obtain rfl : rhs' = rhs'' := by simpa [hr''] using hre
    rw [hlv', Option.some.injEq] at hx'
    rw [hrv', Option.some.injEq] at hy'
    rw [hr, Option.some.injEq] at hc'
    subst hx' hy' hc'
    exact hne hv'

/-- Constant folding preserves values, runs and the compiler itself exactly when
no visit of the walk stands at operands on which C and the target part. -/
theorem constantFold_iff (fa : FloatArith) (c : CHost) (m : IrModule) :
    FoldPreserves fa c m ↔ FoldSafe fa c m := by
  refine ⟨?_, foldPreserves_of_safe⟩
  rintro ⟨m', k, hrun, hvals, -⟩ fn hfn
  obtain ⟨⟨fns', k'⟩, hf, he⟩ := Option.map_eq_some_iff.mp hrun
  obtain ⟨rfl, -⟩ := Prod.mk.inj he
  obtain ⟨i, hi, rfl⟩ := List.mem_iff_getElem.mp hfn
  have hall := foldFunctions_forall₂ hf
  have hi' : i < fns'.length := hall.length_eq ▸ hi
  obtain ⟨l, hl⟩ := hall.get hi hi'
  exact foldSafe_of_sameValues hl (hvals.get hi hi')

end

/-! ## INT64_MIN / -1 -/

/-- `fn() -> int { INT64_MIN / -1 }` in SSA form. -/
def divMinModule : IrModule where
  functions := [
    { name := "lcn_f", returnType := .i64, nextValue := 3
      blocks := [
        { label := some "entry"
          insts := [
            { id := 0, op := .constInt, type := .i64, immInt := BitVec.intMin 64 },
            { id := 1, op := .constInt, type := .i64, immInt := -1 },
            { id := 2, op := .div, type := .i64, operands := [0, 1] },
            { id := -1, op := .ret, type := .void, operands := [2] }] }] }]

/-- The compiler divides `INT64_MIN` by `-1` and dies, also where its build lets
signed overflow wrap. -/
theorem constantFold_divMin : ¬ FoldPreserves .unused .wrapping divMinModule := by
  rintro ⟨m', k, hrun, -⟩
  have : irOptConstantFold .unused .wrapping divMinModule = none := rfl
  simp [this] at hrun

end Limceron
