/-
# `Limceron.Gen.Steps` — what lowering does to its state

Whatever is lowered, the state changes in five ways only (`EmitStep`): a block
is added, the current block is set, an instruction is appended, a call of the
source is appended and recorded, or the stacks of scopes, loops and handlers
change.  That is `irgenExpr_emits` and its companions, one for each function of
the lowering, by recursion on the tree.

What is then shown of a single `EmitStep` holds of the lowering of any body.
-/
import Limceron.Lib.Actions
import Limceron.Gen.Program

namespace Limceron.Gen

open Actions

/-! ## The steps -/

/-- The symbol that lowering gives to a call, if it makes an `IR_CALL` of it. -/
def Registries.resolve (r : Registries) : CallRef → Option String
  | .plain callee => some (r.callTarget callee).1
  | .qualified stem fnName => (r.lookupModuleFn stem fnName).map (·.irSymbol)
  | .computed => some (r.callTarget "unknown").1

/-- One change of the state. -/
inductive EmitStep : GenState → GenState → Prop
  | block (s : GenState) (label : String) : EmitStep s (bbNew label s).2
  | move (s : GenState) (bb : Nat) : EmitStep s (setCurrentBb bb s).2
  | inst (s : GenState) (i : IrInst) (h : i.op ≠ .call) : EmitStep s (instNew i s).2
  | call (s : GenState) (ref : CallRef) (symbol : String) (retType : IrType) (args : List Int)
      (h : s.names.resolve ref = some symbol) :
      EmitStep s (emitSourceCall ref symbol retType args s).2
  | nesting (s : GenState) (scope : Scope) (loops : List LoopCtx) (catches : List CatchCtx) :
      EmitStep s { s with scope := scope, loopStack := loops, catchStack := catches }

/-- Lowering leaves the registries alone. -/
theorem EmitStep.names {s t : GenState} (h : EmitStep s t) : t.names = s.names := by
  cases h <;> rfl

/-- The action changes the state by `EmitStep`s. -/
abbrev Emits {α : Type} (m : GenM α) : Prop := Follows EmitStep m

namespace Emits

theorem bbNew (label : String) : Emits (bbNew label) := .step fun s => .block s label

theorem setCurrentBb (bb : Nat) : Emits (setCurrentBb bb) := .step fun s => .move s bb

theorem instNew {i : IrInst} (h : i.op ≠ .call) : Emits (instNew i) := .step fun s => .inst s i h

theorem currentBb : Emits currentBb := .read _

theorem terminated : Emits terminated := .read _

theorem valueType (v : Int) : Emits (valueType v) := .read _

theorem get : Emits (get : GenM GenState) := .read _

/-! ### Instructions -/

theorem constInt (v : BitVec 64) : Emits (emitConstInt v) := instNew nofun

theorem constFloat (bits : BitVec 64) : Emits (emitConstFloat bits) := instNew nofun

theorem constString (s : String) : Emits (emitConstString s) := instNew nofun

theorem constBool (b : Bool) : Emits (emitConstBool b) := instNew nofun

theorem binop {op : IrOpcode} (h : op ≠ .call) (type : IrType) (lhs rhs : Int) :
    Emits (emitBinop op type lhs rhs) := instNew h

theorem unary {op : IrOpcode} (h : op ≠ .call) (type : IrType) (operand : Int) :
    Emits (emitUnary op type operand) := instNew h

theorem alloca (type : IrType) : Emits (emitAlloca type) := instNew nofun

theorem load (type : IrType) (addr : Int) : Emits (emitLoad type addr) := instNew nofun

theorem hostCall (qname : String) (args : List Int) : Emits (emitHostCall qname args) :=
  instNew nofun

theorem phi (type : IrType) (incoming : List (Int × Nat)) : Emits (emitPhi type incoming) :=
  instNew nofun

theorem strConcat (lhs rhs : Int) : Emits (emitStrConcat lhs rhs) := instNew nofun

theorem cast (target : IrType) (value : Int) : Emits (emitCast target value) :=
  instNew nofun

theorem store (value addr : Int) : Emits (emitStore value addr) :=
  .bind (instNew nofun) fun _ => .pure _

theorem print (value : Int) : Emits (emitPrint value) :=
  .bind (instNew nofun) fun _ => .pure _

theorem ret (value : Int) : Emits (emitRet value) :=
  .bind (instNew nofun) fun _ => .pure _

theorem retVoid : Emits emitRetVoid := .bind (instNew nofun) fun _ => .pure _

theorem br (cond : Int) (t f : Nat) : Emits (emitBr cond t f) :=
  .bind (instNew nofun) fun _ => .pure _

theorem jmp (target : Int) : Emits (emitJmp target) :=
  .bind (instNew nofun) fun _ => .pure _

/-! ### Stacks -/

theorem scopePush : Emits scopePush := .step fun s => .nesting s _ _ _

theorem scopePop : Emits scopePop := .step fun s => .nesting s _ _ _

theorem scopeAdd (name : String) (addr : Int) (type : IrType) : Emits (scopeAdd name addr type) :=
  .step fun s => .nesting s _ _ _

theorem loopPush (c b : Nat) : Emits (loopPush c b) := by
  refine .step fun s => ?_
  show EmitStep s (if _ then _ else _)
  split
  · exact .nesting s _ _ _
  · exact .nesting s s.scope s.loopStack s.catchStack

theorem loopPop : Emits loopPop := .step fun s => .nesting s _ _ _

theorem catchPush (bb : Nat) (addr : Int) : Emits (catchPush bb addr) :=
  .step fun s => .nesting s _ _ _

theorem catchPop : Emits catchPop := .step fun s => .nesting s _ _ _

/-! ### Pieces -/

theorem jumpUnlessTerminated (bb : Nat) : Emits (jumpUnlessTerminated bb) := by
  refine .bind terminated fun b => ?_
  split
  · exact .pure _
  · exact .bind (jmp _) fun _ => .bind currentBb fun _ => .pure _

theorem bindSlot (name : String) (value : Int) : Emits (bindSlot name value) :=
  .bind (alloca _) fun _ => .bind (store _ _) fun _ => scopeAdd _ _ _

theorem bindOption (name : Option String) (value : Int) : Emits (bindOption name value) := by
  cases name with
  | none => exact .pure _
  | some name => exact bindSlot name value

theorem mergePhi {type : GenM IrType} (h : Emits type) (a b : Int × Option Nat) :
    Emits (mergePhi type a b) := by
  unfold Gen.mergePhi
  split
  · exact .pure _
  · exact .bind h fun _ => phi _ _

theorem selectBlocks (cond : Int) (t e m : String) (a b : Int) :
    Emits (selectBlocks cond t e m a b) :=
  .bind (bbNew _) fun _ => .bind (bbNew _) fun _ => .bind (bbNew _) fun _ =>
  .bind (br _ _ _) fun _ => .bind (setCurrentBb _) fun _ => .bind (jmp _) fun _ =>
  .bind (setCurrentBb _) fun _ => .bind (jmp _) fun _ => .bind (setCurrentBb _) fun _ => phi _ _

theorem mathSign (x : Int) : Emits (mathSign x) :=
  .bind (constInt _) fun _ => .bind (constInt _) fun _ => .bind (constInt _) fun _ =>
  .bind (binop (by decide) _ _ _) fun _ =>
  .bind (bbNew _) fun _ => .bind (bbNew _) fun _ => .bind (bbNew _) fun _ =>
  .bind (br _ _ _) fun _ => .bind (setCurrentBb _) fun _ => .bind (jmp _) fun _ =>
  .bind (setCurrentBb _) fun _ => .bind (binop (by decide) _ _ _) fun _ =>
  .bind (selectBlocks _ _ _ _ _ _) fun _ => .bind currentBb fun _ => .bind (jmp _) fun _ =>
  .bind (setCurrentBb _) fun _ => phi _ _

theorem lowerHostCall (qname : String) (args : List Int) : Emits (lowerHostCall qname args) := by
  unfold Gen.lowerHostCall
  split
  · exact .bind (constInt _) fun _ => .bind (binop (by decide) _ _ _) fun _ =>
      .bind (binop (by decide) _ _ _) fun _ => selectBlocks _ _ _ _ _ _
  · exact .bind (binop (by decide) _ _ _) fun _ => selectBlocks _ _ _ _ _ _
  · exact .bind (binop (by decide) _ _ _) fun _ => selectBlocks _ _ _ _ _ _
  · exact .bind (binop (by decide) _ _ _) fun _ => .bind (selectBlocks _ _ _ _ _ _) fun _ =>
      .bind (binop (by decide) _ _ _) fun _ => selectBlocks _ _ _ _ _ _
  · exact mathSign _
  · exact hostCall _ _

theorem lowerBinary (op : BinOp) (left right : Expr) (lhs rhs : Int) :
    Emits (lowerBinary op left right lhs rhs) := by
  have arith : ∀ {b : Bool} {f i : IrOpcode}, f ≠ .call → i ≠ .call →
      (if b then f else i) ≠ .call := by
    rintro (_ | _) f i hf hi
    · exact hi
    · exact hf
  refine .bind (valueType _) fun _ => .bind (valueType _) fun _ => ?_
  cases op
  case plus => exact .ite (strConcat _ _) (binop (arith (by decide) (by decide)) _ _ _)
  case minus | star | slash => exact binop (arith (by decide) (by decide)) _ _ _
  all_goals exact binop (by decide) _ _ _

theorem lowerUnary (op : UnOp) (left : Expr) (v : Int) : Emits (lowerUnary op left v) := by
  cases op
  · exact unary (by decide) _ _
  · exact unary (by decide) _ _
  · exact .pure _

theorem lowerIdent (wit : HostErrors) (name : String) : Emits (lowerIdent wit name) := by
  refine .bind get fun s => ?_
  split
  · exact load _ _
  · split
    · exact .pure _
    · exact constInt _

theorem lowerSegment (isJson : Bool) (v : Int) : Emits (lowerSegment isJson v) := by
  refine .ite (hostCall _ _) (.bind (valueType _) fun t => ?_)
  split
  · exact .pure _
  all_goals exact hostCall _ _

theorem concatSegment (acc seg : Int) : Emits (concatSegment acc seg) :=
  .ite (.pure _) (.ite (.pure _) (hostCall _ _))

theorem compareHostError (wit : HostErrors) (subj : Int) (name : String) :
    Emits (lowerPattern.compareHostError wit subj name) := by
  unfold lowerPattern.compareHostError
  split
  · exact .pure _
  · exact .bind (constInt _) fun _ => .bind (binop (by decide) _ _ _) fun _ => .pure _

theorem lowerPattern (wit : HostErrors) (subj : Int) (pat : Pattern) :
    Emits (lowerPattern wit subj pat) := by
  have compare : ∀ v, Emits (do
      let lit ← emitConstInt v
      return some (some (← emitBinop .cmpEq .bool subj lit)) : GenM (Option (Option Int))) :=
    fun v => .bind (constInt _) fun _ => .bind (binop (by decide) _ _ _) fun _ => .pure _
  cases pat with
  | wildcard => exact .pure _
  | ident name => exact .ite (compareHostError _ _ _) (.pure _)
  | literal lit =>
      cases lit
      · exact compare _
      · exact compare _
      · exact compare _
      · exact .pure _
      · exact .pure _
  | enum name params => exact compareHostError _ _ _
  | other name => exact .pure _

theorem newArmBlocks (i : Nat) : ∀ n, Emits (newArmBlocks i n)
  | 0 => .pure _
  | n + 1 => .bind (bbNew _) fun _ => .bind (bbNew _) fun _ => .bind (bbNew _) fun _ =>
      .bind (newArmBlocks (i + 1) n) fun _ => .pure _

/-! ### Control structures -/

theorem lowerIf {cond thn els : GenM Int} (hc : Emits cond) (ht : Emits thn) (he : Emits els) :
    Emits (lowerIf cond thn els) :=
  .bind currentBb fun _ => .bind hc fun _ => .bind (bbNew _) fun _ =>
  .bind (bbNew _) fun _ => .bind (bbNew _) fun _ => .bind (setCurrentBb _) fun _ =>
  .bind (br _ _ _) fun _ => .bind (setCurrentBb _) fun _ => .bind scopePush fun _ =>
  .bind ht fun _ => .bind (jumpUnlessTerminated _) fun _ => .bind scopePop fun _ =>
  .bind (setCurrentBb _) fun _ => .bind scopePush fun _ => .bind he fun _ =>
  .bind (jumpUnlessTerminated _) fun _ => .bind scopePop fun _ => .bind (setCurrentBb _) fun _ =>
  mergePhi (valueType _) _ _

theorem lowerBranch (bb mergeBb : Nat) {body : GenM Unit} (h : Emits body) :
    Emits (lowerBranch bb mergeBb body) :=
  .bind (setCurrentBb _) fun _ => .bind scopePush fun _ => .bind h fun _ =>
  .bind (jmp _) fun _ => scopePop

theorem lowerIfStmt {cond : GenM Int} {thn : GenM Unit} {els : Option (GenM Unit)}
    (hc : Emits cond) (ht : Emits thn) (he : ∀ e ∈ els, Emits e) :
    Emits (lowerIfStmt cond thn els) := by
  refine .bind currentBb fun _ => .bind hc fun _ => .bind (bbNew _) fun _ => ?_
  cases els with
  | none =>
      exact .bind (bbNew _) fun _ => .bind (setCurrentBb _) fun _ => .bind (br _ _ _) fun _ =>
        .bind (lowerBranch _ _ ht) fun _ => setCurrentBb _
  | some els =>
      exact .bind (bbNew _) fun _ => .bind (bbNew _) fun _ => .bind (setCurrentBb _) fun _ =>
        .bind (br _ _ _) fun _ => .bind (lowerBranch _ _ ht) fun _ =>
        .bind (lowerBranch _ _ (he els rfl)) fun _ => setCurrentBb _

theorem lowerPropagate (catches : List CatchCtx) (v : Int) : Emits (lowerPropagate catches v) := by
  cases catches with
  | nil => exact ret _
  | cons top _ => exact .bind (store _ _) fun _ => jmp _

theorem lowerTry {operand : GenM Int} (h : Emits operand) : Emits (lowerTry operand) :=
  .bind h fun _ => .ite (.pure _)
  (.bind (constInt _) fun _ => .bind (binop (by decide) _ _ _) fun _ => .bind currentBb fun _ =>
   .bind (bbNew _) fun _ => .bind (bbNew _) fun _ => .bind (setCurrentBb _) fun _ =>
   .bind (br _ _ _) fun _ => .bind (setCurrentBb _) fun _ => .bind get fun _ =>
   .bind (lowerPropagate _ _) fun _ => .bind (setCurrentBb _) fun _ => .pure _)

theorem lowerTryCatch {body handler : GenM Int} (hb : Emits body) (name : String)
    (hh : Emits handler) : Emits (lowerTryCatch body name handler) :=
  .bind get fun _ => .ite (.pure _)
  (.bind (alloca _) fun _ => .bind currentBb fun _ =>
   .bind (bbNew _) fun _ => .bind (bbNew _) fun _ => .bind (bbNew _) fun _ =>
   .bind (setCurrentBb _) fun _ => .bind (jmp _) fun _ => .bind (catchPush _ _) fun _ =>
   .bind (setCurrentBb _) fun _ => .bind scopePush fun _ => .bind hb fun _ =>
   .bind (jumpUnlessTerminated _) fun _ => .bind scopePop fun _ => .bind catchPop fun _ =>
   .bind (setCurrentBb _) fun _ => .bind scopePush fun _ => .bind (load _ _) fun _ =>
   .bind (bindSlot _ _) fun _ => .bind hh fun _ => .bind (jumpUnlessTerminated _) fun _ =>
   .bind scopePop fun _ => .bind (setCurrentBb _) fun _ => mergePhi (.pure _) _ _)

/-! ### Match -/

/-- The guard and the body of an arm. -/
structure Arm (a : ArmCode) : Prop where
  guard : ∀ g ∈ a.guard, Emits g
  body : Emits a.body

theorem lowerArmBody (binding : Option String) (subj : Int) (mergeBb : Nat) {body : GenM Int}
    (h : Emits body) : Emits (lowerArmBody binding subj mergeBb body) :=
  .bind scopePush fun _ => .bind (bindOption _ _) fun _ => .bind h fun _ =>
  .bind (jumpUnlessTerminated _) fun _ => .bind scopePop fun _ => .pure _

theorem lowerResultMatch {subject : GenM Int} (hs : Emits subject) {ok err : ArmCode}
    (ho : Arm ok) (he : Arm err) : Emits (lowerResultMatch subject ok err) :=
  .bind hs fun _ => .ite (.pure _)
  (.bind (constInt _) fun _ => .bind (binop (by decide) _ _ _) fun _ => .bind currentBb fun _ =>
   .bind (bbNew _) fun _ => .bind (bbNew _) fun _ => .bind (bbNew _) fun _ =>
   .bind (setCurrentBb _) fun _ => .bind (br _ _ _) fun _ => .bind (setCurrentBb _) fun _ =>
   .bind (lowerArmBody _ _ _ ho.body) fun _ => .bind (setCurrentBb _) fun _ =>
   .bind (lowerArmBody _ _ _ he.body) fun _ => .bind (setCurrentBb _) fun _ =>
   mergePhi (.pure _) _ _)

theorem enterGuard (i nextBb : Nat) (predVal : Option Int) : Emits (enterGuard i nextBb predVal) := by
  cases predVal with
  | none => exact .pure _
  | some v => exact .bind (bbNew _) fun _ => .bind (br _ _ _) fun _ => setCurrentBb _

theorem lowerGuard (subj : Int) (i : Nat) (bbs : ArmBlocks) (pat : Pattern)
    (predVal : Option Int) {guard : Option (GenM Int)} (h : ∀ g ∈ guard, Emits g) :
    Emits (lowerGuard subj i bbs pat predVal guard) := by
  cases guard with
  | none =>
      cases predVal with
      | none => exact .bind (jmp _) fun _ => .pure _
      | some v => exact .bind (br _ _ _) fun _ => .pure _
  | some g =>
      exact .bind (enterGuard _ _ _) fun _ => .bind scopePush fun _ => .bind (bindOption _ _) fun _ =>
        .bind (h g rfl) fun _ => .bind scopePop fun _ => .ite (.pure _)
        (.bind (br _ _ _) fun _ => .pure _)

theorem lowerArms (wit : HostErrors) (subj : Int) (mergeBb : Nat) : ∀ (i : Nat)
    (bbs : List ArmBlocks) (arms : List ArmCode), (∀ a ∈ arms, Arm a) →
      Emits (lowerArms wit subj mergeBb i bbs arms)
  | _, [], [], _ => .pure _
  | _, _ :: _, [], _ => .pure _
  | _, [], _ :: _, _ => .pure _
  | i, bbs :: rest, a :: arms, h => by
      obtain ⟨ha, harms⟩ := List.forall_mem_cons.mp h
      refine .bind (setCurrentBb _) fun _ => .bind (lowerPattern _ _ _) fun p => ?_
      cases p with
      | none => exact .pure _
      | some predVal =>
          refine .bind (lowerGuard _ _ _ _ _ ha.guard) fun _ => .ite (.pure _) ?_
          refine .bind (setCurrentBb _) fun _ => .bind (lowerArmBody _ _ _ ha.body) fun _ =>
            .bind (setCurrentBb _) fun _ => .bind (jmp _) fun _ =>
            .bind (lowerArms wit subj mergeBb (i + 1) rest arms harms) fun ends => ?_
          cases ends with
          | none => exact .pure _
          | some ends => exact .pure _

theorem lowerDecisionTree (wit : HostErrors) {subject : GenM Int} (hs : Emits subject)
    {arms : List ArmCode} (h : ∀ a ∈ arms, Arm a) :
    Emits (lowerDecisionTree wit subject arms) := by
  refine .ite (.pure _) (.bind hs fun _ => .ite (.pure _) ?_)
  refine .bind currentBb fun _ => .bind (bbNew _) fun _ => .ite (.pure _) ?_
  refine .bind (newArmBlocks _ _) fun _ => .bind (setCurrentBb _) fun _ =>
    .bind (jmp _) fun _ => .bind (lowerArms _ _ _ _ _ _ h) fun ends => ?_
  cases ends with
  | none => exact .pure _
  | some ends => exact .bind (setCurrentBb _) fun _ => phi _ _

theorem lowerMatch (wit : HostErrors) {subject : GenM Int} (hs : Emits subject)
    {arms : List ArmCode} (h : ∀ a ∈ arms, Arm a) : Emits (lowerMatch wit subject arms) := by
  have mem : ∀ {v a}, armFor v arms = some a → a ∈ arms := fun hf =>
    List.mem_reverse.mp (List.mem_of_find?_eq_some hf)
  unfold Gen.lowerMatch
  split
  · rename_i ok err hok herr
    exact .ite (lowerResultMatch hs (h ok (mem hok)) (h err (mem herr))) (lowerDecisionTree wit hs h)
  · exact lowerDecisionTree wit hs h

/-! ### Loops -/

theorem bindPattern (patName : Option String) (loopVar : Int) :
    Emits (bindPattern patName loopVar) := by
  cases patName with
  | none => exact .pure _
  | some name => exact .bind scopePush fun _ => scopeAdd _ _ _

theorem unbindPattern (patName : Option String) : Emits (unbindPattern patName) :=
  .ite scopePop (.pure _)

theorem lowerFor (patName : Option String) {start stop : GenM Int} {body : GenM Unit}
    (h₁ : Emits start) (h₂ : Emits stop) (hb : Emits body) :
    Emits (lowerFor patName start stop body) :=
  .bind h₁ fun _ => .bind h₂ fun _ => .bind (alloca _) fun _ => .bind (store _ _) fun _ =>
  .bind (bindPattern _ _) fun _ => .bind currentBb fun _ => .bind (bbNew _) fun _ =>
  .bind (bbNew _) fun _ => .bind (bbNew _) fun _ => .bind (bbNew _) fun _ =>
  .bind (setCurrentBb _) fun _ => .bind (jmp _) fun _ => .bind (setCurrentBb _) fun _ =>
  .bind (load _ _) fun _ => .bind (binop (by decide) _ _ _) fun _ => .bind (br _ _ _) fun _ =>
  .bind (setCurrentBb _) fun _ => .bind (loopPush _ _) fun _ => .bind hb fun _ =>
  .bind loopPop fun _ => .bind (jumpUnlessTerminated _) fun _ => .bind (setCurrentBb _) fun _ =>
  .bind (load _ _) fun _ => .bind (constInt _) fun _ => .bind (binop (by decide) _ _ _) fun _ =>
  .bind (store _ _) fun _ => .bind (jmp _) fun _ => .bind (setCurrentBb _) fun _ =>
  unbindPattern _

theorem lowerWhile {cond : GenM Int} {body : GenM Unit} (hc : Emits cond) (hb : Emits body) :
    Emits (lowerWhile cond body) :=
  .bind currentBb fun _ => .bind (bbNew _) fun _ => .bind (bbNew _) fun _ =>
  .bind (bbNew _) fun _ => .bind (setCurrentBb _) fun _ => .bind (jmp _) fun _ =>
  .bind (setCurrentBb _) fun _ => .bind hc fun _ => .bind (br _ _ _) fun _ =>
  .bind (setCurrentBb _) fun _ => .bind scopePush fun _ => .bind (loopPush _ _) fun _ =>
  .bind hb fun _ => .bind loopPop fun _ => .bind (jumpUnlessTerminated _) fun _ =>
  .bind scopePop fun _ => setCurrentBb _

theorem lowerLoop {body : GenM Unit} (hb : Emits body) : Emits (lowerLoop body) :=
  .bind currentBb fun _ => .bind (bbNew _) fun _ => .bind (bbNew _) fun _ =>
  .bind (bbNew _) fun _ => .bind (setCurrentBb _) fun _ => .bind (jmp _) fun _ =>
  .bind (setCurrentBb _) fun _ => .bind (jmp _) fun _ => .bind (setCurrentBb _) fun _ =>
  .bind scopePush fun _ => .bind (loopPush _ _) fun _ => .bind hb fun _ =>
  .bind loopPop fun _ => .bind (jumpUnlessTerminated _) fun _ => .bind scopePop fun _ =>
  setCurrentBb _

theorem lowerLeave (target : LoopCtx → Int) (label : String) : Emits (lowerLeave target label) := by
  refine .bind get fun s => ?_
  cases s.loopStack with
  | nil => exact .pure _
  | cons top _ => exact .bind (jmp _) fun _ => .bind (bbNew _) fun _ => setCurrentBb _

/-! ### Calls, accesses, bindings -/

/-- The registries after an action are the ones before. -/
theorem names {α : Type} {m : GenM α} (h : Emits m) (s : GenState) : (m s).2.names = s.names :=
  h.invariant (I := fun t => t.names = s.names) (fun _ _ hst h => hst.names.trans h) s rfl

theorem lowerCall {ref : CallRef} {callee : String} {args : GenM (List Int)}
    (h : ∀ r : Registries, r.resolve ref = some (r.callTarget callee).1) (ha : Emits args) :
    Emits (lowerCall ref callee args) :=
  .bind ha fun vals => .get_bind fun s =>
    .single (.call s ref (s.names.callTarget callee).1 (s.names.callTarget callee).2 vals (h _))

/-- A call through the module registry. -/
theorem lowerMethodCall (receiver : Expr) (name : String) {code : GenM Int}
    {args : GenM (List Int)} (hc : Emits code) (ha : Emits args) : Emits (do
      let s ← MonadState.get
      lowerMethodCall (Expr.moduleFn s.names receiver name) code args : GenM Int) := by
  refine .get_bind fun s => ?_
  cases hf : Expr.moduleFn s.names receiver name with
  | none => exact (Follows.bind hc fun _ => constInt 0) s
  | some f =>
      have hsym : s.names.resolve (.qualified f.moduleStem f.fnName) = some f.irSymbol := by
        cases receiver with
        | ident stem =>
            have hf : s.names.lookupModuleFn stem name = some f := hf
            have hkey := List.find?_some hf
            simp only [Bool.and_eq_true, beq_iff_eq] at hkey
            simp [Registries.resolve, hkey, hf]
        | _ => simp [Expr.moduleFn] at hf
      exact (ha s).tail (.call _ _ f.irSymbol _ _ (names ha s ▸ hsym))

theorem lowerCast (isJson : Bool) {operand : GenM Int} (h : Emits operand) (type : TypeExpr) :
    Emits (lowerCast isJson operand type) := by
  refine .bind h fun _ => ?_
  split
  · exact hostCall _ _
  · exact cast _ _

theorem lowerFieldAccess (isJson : Bool) {operand : GenM Int} (h : Emits operand) (name : String)
    (safe : Bool) : Emits (lowerFieldAccess isJson operand name safe) :=
  .bind h fun _ => .ite (.bind (constString _) fun _ => hostCall _ _) (constInt 0)

theorem markJsonIf (isJson : Bool) : Emits (markJsonIf isJson) := .step fun s => .nesting s _ _ _

theorem storeValue (v addr : Int) : Emits (storeValue v addr) := .ite (store _ _) (.pure _)

theorem lowerLet (name : String) (type : Option TypeExpr) (init : Option Expr)
    {code : Option (GenM Int)} (h : ∀ c ∈ code, Emits c) :
    Emits (lowerLet name type init code) := by
  refine .bind get fun _ => .bind (alloca _) fun _ => .bind (scopeAdd _ _ _) fun _ =>
    .bind (markJsonIf _) fun _ => ?_
  cases code with
  | none => exact .pure _
  | some c => exact .bind (h c rfl) fun _ => storeValue _ _

theorem lowerAssign (name : String) {value : GenM Int} (h : Emits value) :
    Emits (lowerAssign name value) := by
  refine .bind get fun s => ?_
  cases s.scope.lookup name with
  | none => exact .pure _
  | some var => exact .bind h fun _ => storeValue _ _

/-! ## The lowering -/

section
variable (wit : HostErrors)

mutual

theorem expr : ∀ e, Emits (irgenExpr wit e)
  | .intLit v => constInt v
  | .floatLit bits => constFloat bits
  | .stringLit s => constString s
  | .interpString parts => .bind (segments true (-1) parts) fun _ => .ite (constString _) (.pure _)
  | .boolLit b => constBool b
  | .noneLit => constInt 0
  | .ident name => lowerIdent wit name
  | .binary op left right =>
      .bind (expr left) fun _ => .bind (expr right) fun _ => lowerBinary op left right _ _
  | .unary op operand => .bind (expr operand) fun _ => lowerUnary op operand _
  | .call callee es => by
      cases callee with
      | ident name =>
          exact .ite (.bind (printArg es) fun _ => .pure _) (lowerCall (fun _ => rfl) (args 16 es))
      | _ => exact lowerCall (fun _ => rfl) (args 16 es)
  | .methodCall receiver name es => lowerMethodCall receiver name (expr receiver) (args 16 es)
  | .hostCall qname es => .bind (args 16 es) fun _ => lowerHostCall qname _
  | .cast operand type => .bind get fun _ => lowerCast _ (expr operand) type
  | .fieldAccess operand name safe => .bind get fun _ => lowerFieldAccess _ (expr operand) name safe
  | .ifE cond thn els => lowerIf (expr cond) (tail thn) (elseValue els)
  | .resultOk none => constInt 0
  | .resultOk (some e) => expr e
  | .resultErr none => constInt (-1)
  | .resultErr (some e) => expr e
  | .tryE operand => lowerTry (expr operand)
  | .tryCatch body errName handler => lowerTryCatch (tail body) errName (tail handler)
  | .matchE subject as => lowerMatch wit (expr subject) (arms as)
  | .block _ => .pure _
  | .other => .pure _

theorem printArg : ∀ es, Emits (irgenPrint wit es)
  | [] => .pure _
  | e :: _ => .bind (expr e) fun _ => print _

theorem args : ∀ n es, Emits (irgenArgs wit n es)
  | 0, [] => .pure _
  | 0, _ :: _ => .pure _
  | _ + 1, [] => .pure _
  | n + 1, e :: es => .bind (expr e) fun _ => .bind (args n es) fun _ => .pure _

theorem segments : ∀ b acc es, Emits (irgenSegments wit b acc es)
  | true, _, [] => .pure _
  | false, _, [] => .pure _
  | true, _, _ :: es =>
      .ite (segments false _ es)
        (.bind (constString _) fun _ => .bind (concatSegment _ _) fun _ => segments false _ es)
  | false, _, e :: es =>
      .bind (expr e) fun _ => .bind get fun _ => .bind (lowerSegment _ _) fun _ =>
        .bind (concatSegment _ _) fun _ => segments true _ es

theorem tail : ∀ ss, Emits (irgenTail wit ss)
  | [] => .pure _
  | [s] => by
      cases s with
      | expr e => exact expr e
      | _ => exact .bind (stmt _) fun _ => .pure _
  | s :: t :: ss => by
      have h : Emits (do
          irgenStmt wit s
          irgenTail wit (t :: ss) : GenM Int) := .bind (stmt s) fun _ => tail (t :: ss)
      cases s <;> exact h

theorem elseValue : ∀ e, Emits (irgenElseValue wit e)
  | .none => .pure _
  | .block ss => tail ss
  | .elif cond thn e => .bind (lowerIfStmt (expr cond) (stmts thn) (els e)) fun _ => .pure _

theorem els : ∀ e, ∀ m ∈ irgenElse wit e, Emits m
  | .none, _, h => nomatch h
  | .block ss, _, h => Option.some.inj h ▸ stmts ss
  | .elif cond thn e, _, h => Option.some.inj h ▸ lowerIfStmt (expr cond) (stmts thn) (els e)

theorem stmts : ∀ ss, Emits (irgenStmts wit ss)
  | [] => .pure _
  | s :: ss => .bind (stmt s) fun _ => stmts ss

theorem stmt : ∀ s, Emits (irgenStmt wit s)
  | .letS name type none => lowerLet name type none nofun
  | .letS name type (some init) =>
      lowerLet name type (some init) fun _ h => Option.some.inj h ▸ expr init
  | .assign _ target value => by
      cases target with
      | ident name => exact lowerAssign name (expr value)
      | _ => exact .pure _
  | .ret none => retVoid
  | .ret (some e) => .bind (expr e) fun _ => ret _
  | .expr e => .bind (expr e) fun _ => .pure _
  | .forS patName (.range start stop) body => lowerFor patName (expr start) (expr stop) (stmts body)
  | .forS _ .other body => .bind scopePush fun _ => .bind (stmts body) fun _ => scopePop
  | .whileS cond body => lowerWhile (expr cond) (stmts body)
  | .loop body => lowerLoop (stmts body)
  | .breakS => lowerLeave _ _
  | .continueS => lowerLeave _ _
  | .other => .pure _

theorem arms : ∀ as, ∀ a ∈ irgenArms wit as, Arm a
  | [], _, h => nomatch h
  | .mk _ g body :: as, a, h => by
      rcases List.mem_cons.mp h with rfl | h
      · exact ⟨guard g, armBody body⟩
      · exact arms as a h

theorem guard : ∀ g, ∀ m ∈ irgenGuard wit g, Emits m
  | none, _, h => nomatch h
  | some e, _, h => Option.some.inj h ▸ expr e

theorem armBody : ∀ b, Emits (irgenArmBody wit b)
  | .block ss => tail ss
  | .expr e => expr e

end

theorem fnTail : ∀ ss, Emits (irgenFnTail wit ss)
  | [] => .pure _
  | [s] => by
      cases s with
      | expr e => exact .bind (expr wit e) fun _ => .ite (ret _) (.pure _)
      | _ => exact .bind (stmt wit _) fun _ => .pure _
  | s :: t :: ss => by
      have h : Emits (do
          irgenStmt wit s
          irgenFnTail wit (t :: ss)) := .bind (stmt wit s) fun _ => fnTail (t :: ss)
      cases s <;> exact h

theorem fnBody (body : List Stmt) (retType : IrType) : Emits (irgenFnBody wit body retType) :=
  .bind (.ite (stmts wit body) (fnTail wit body)) fun _ => .bind terminated fun _ =>
  .ite retVoid (.pure _)

/-- The part of `irgen_function` and of `irgen_agent_function_named` that lowers. -/
theorem scopedBody (body : List Stmt) (retType : IrType) : Emits (do
    Gen.scopePush
    let _ ← Gen.bbNew "entry"
    irgenFnBody wit body retType
    Gen.scopePop) :=
  .bind scopePush fun _ => .bind (bbNew _) fun _ => .bind (fnBody wit body retType) fun _ =>
  scopePop

end

end Emits

end Limceron.Gen
