/-
# `Limceron.Gen.Lower` — from the syntax tree to the IR

`irgen_expr` and `irgen_stmt`, case by case.  An expression gives an SSA value,
or `-1` when there is none; both append to the function under construction and
leave the current block where the code left it.

A control structure is an action built from the actions that lower its parts;
`irgenExpr` and `irgenStmt` then only go through the tree.  Where the source
snapshots `current_bb` before it lowers a part and goes back to it afterwards,
so does the model: in `lowerIf` the branch is put into the block the condition
started in.

The contract in `vdag.errors.wit` is read from a file at compile time and is a
parameter here.
-/
import Limceron.Gen.Builder

namespace Limceron.Gen

/-- `lcn_wit_resolve_host_error`: enumeration and variant to a code. -/
abbrev HostErrors := String → String → Option (BitVec 64)

/-- A contract without errors. -/
def HostErrors.empty : HostErrors := fun _ _ => none

/-! ## Types of values -/

/-- `irgen_infer_type`. -/
def inferType : Expr → IrType
  | .intLit _ => .i64
  | .floatLit _ => .f64
  | .stringLit _ => .string
  | .interpString _ => .string
  | .boolLit _ => .bool
  | .noneLit => .ptr
  | .binary op left _ =>
      match op with
      | .eqEq | .notEq | .lt | .gt | .ltEq | .gtEq | .andAnd | .pipePipe => .bool
      | _ => inferType left
  | .unary op operand => if op = .bang then .bool else inferType operand
  | _ => .i64

/-- `irgen_value_type`. -/
def valueType (valId : Int) : GenM IrType := fun s =>
  (if valId < 0 then .void
    else match s.params.find? (fun p => p.valueId == valId) with
      | some p => p.type
      | none =>
          match (s.blocks.flatMap (·.insts)).find? (fun i => i.id == valId) with
          | some i => i.type
          | none => .i64, s)

/-- `host_call_returns_json`. -/
def hostCallReturnsJson (qname : String) : Bool :=
  qname ∈ ["json.parse", "json.field", "json.field_get", "json.field_get_safe",
    "json.array_index", "json.array_get"]

/-- `expr_is_json`. -/
def exprIsJson (scope : Scope) : Expr → Bool
  | .hostCall qname _ => hostCallReturnsJson qname
  | .ident name => (scope.lookup name).any (·.isJson)
  | .fieldAccess operand _ _ => exprIsJson scope operand
  | .tryE operand => exprIsJson scope operand
  | _ => false

/-! ## Names with separators -/

/-- The parts before and after the first `::`. -/
def splitColons : List Char → Option (List Char × List Char)
  | ':' :: ':' :: cs => some ([], cs)
  | c :: cs => (splitColons cs).map (fun p => (c :: p.1, p.2))
  | [] => none

/-- `l6_pat_ident_is_qualified`, on the name. -/
def isQualified (name : String) : Bool := (splitColons name.toList).isSome

/-- The last component of a path separated by `::` or `.`. -/
def pathTail (tail : List Char) : List Char → List Char
  | ':' :: ':' :: cs => pathTail cs cs
  | '.' :: cs => pathTail cs cs
  | _ :: cs => pathTail tail cs
  | [] => tail

def variantTail (name : String) : String := String.ofList (pathTail name.toList name.toList)

/-- The part before the first `::` or `.`; nothing if there is none. -/
def pathHead : List Char → Option (List Char)
  | ':' :: ':' :: _ => some []
  | '.' :: _ => some []
  | c :: cs => (pathHead cs).map (c :: ·)
  | [] => none

def isHostErrorHead (head : List Char) : Bool :=
  head == "host_error".toList || head == "host-error".toList

/-- `<enum>::<variant>` as an identifier; the name of the enumeration is cut to
the 63 characters of its buffer. -/
def identHostError (wit : HostErrors) (name : String) : Option (BitVec 64) :=
  match splitColons name.toList with
  | some (head, tail) =>
      if head ≠ [] then wit (String.ofList (head.take 63)) (String.ofList tail) else none
  | none => none

/-- The code of `host_error::<variant>` in a pattern. -/
def patHostError (wit : HostErrors) (name : String) : Option (BitVec 64) :=
  match splitColons name.toList with
  | some (_, tail) => wit "host-error" (String.ofList tail)
  | none => none

/-! ## Integer functions of `math` -/

/-- Two empty blocks that meet again and select a value.  The branch goes into
the current block, which is the merge block by then. -/
def selectBlocks (cond : Int) (thn els merge : String) (a b : Int) : GenM Int := do
  let t ← bbNew thn
  let e ← bbNew els
  let m ← bbNew merge
  emitBr cond t e
  setCurrentBb t
  emitJmp m
  setCurrentBb e
  emitJmp m
  setCurrentBb m
  emitPhi .i64 [(a, t), (b, e)]

def mathAbs (x : Int) : GenM Int := do
  let zero ← emitConstInt 0
  let neg ← emitBinop .sub .i64 zero x
  let cond ← emitBinop .cmpLt .bool x zero
  selectBlocks cond "abs.neg" "abs.pos" "abs.merge" neg x

def mathMin (a b : Int) : GenM Int := do
  let cond ← emitBinop .cmpLt .bool a b
  selectBlocks cond "min.lt" "min.ge" "min.merge" a b

def mathMax (a b : Int) : GenM Int := do
  let cond ← emitBinop .cmpGt .bool a b
  selectBlocks cond "max.gt" "max.le" "max.merge" a b

def mathClamp (x lo hi : Int) : GenM Int := do
  let c1 ← emitBinop .cmpGt .bool x lo
  let tmp ← selectBlocks c1 "clamp.gt" "clamp.le" "clamp.m1" x lo
  let c2 ← emitBinop .cmpLt .bool tmp hi
  selectBlocks c2 "clamp.lt" "clamp.ge" "clamp.m2" tmp hi

def mathSign (x : Int) : GenM Int := do
  let zero ← emitConstInt 0
  let one ← emitConstInt 1
  let neg1 ← emitConstInt (-1)
  let cpos ← emitBinop .cmpGt .bool x zero
  let pb ← bbNew "sign.pos"
  let nb ← bbNew "sign.npos"
  let mb ← bbNew "sign.mrg"
  emitBr cpos pb nb
  setCurrentBb pb
  emitJmp mb
  setCurrentBb nb
  let cneg ← emitBinop .cmpLt .bool x zero
  let inner ← selectBlocks cneg "sign.neg" "sign.zer" "sign.nm" neg1 zero
  let nm ← currentBb
  emitJmp mb
  setCurrentBb mb
  emitPhi .i64 [(one, pb), (inner, nm)]

/-- `AST_HOST_CALL` behind its arguments. -/
def lowerHostCall (qname : String) (args : List Int) : GenM Int :=
  match qname, args with
  | "math.abs", [x] => mathAbs x
  | "math.min", [a, b] => mathMin a b
  | "math.max", [a, b] => mathMax a b
  | "math.clamp", [x, lo, hi] => mathClamp x lo hi
  | "math.sign", [x] => mathSign x
  | _, _ => emitHostCall qname args

/-! ## Pieces of the cases -/

/-- The instruction of `irgen_binary`. -/
def lowerBinary (op : BinOp) (left right : Expr) (lhs rhs : Int) : GenM Int := do
  let lhsType ← valueType lhs
  let rhsType ← valueType rhs
  let isFloat : Bool := lhsType == .f64 || rhsType == .f64
  let inferred := inferType (.binary op left right)
  let resultType :=
    if inferred = .void ∨ inferred = .i64 then
      if lhsType = .f64 ∨ rhsType = .f64 then .f64
      else if lhsType = .i64 ∨ rhsType = .i64 then .i64
      else inferred
    else inferred
  match op with
  | .plus =>
      if inferType left = .string ∨ inferType right = .string then emitStrConcat lhs rhs
      else emitBinop (if isFloat then .fadd else .add) resultType lhs rhs
  | .minus => emitBinop (if isFloat then .fsub else .sub) resultType lhs rhs
  | .star => emitBinop (if isFloat then .fmul else .mul) resultType lhs rhs
  | .slash => emitBinop (if isFloat then .fdiv else .div) resultType lhs rhs
  | .percent => emitBinop .mod resultType lhs rhs
  | .eqEq => emitBinop .cmpEq .bool lhs rhs
  | .notEq => emitBinop .cmpNe .bool lhs rhs
  | .lt => emitBinop .cmpLt .bool lhs rhs
  | .gt => emitBinop .cmpGt .bool lhs rhs
  | .ltEq => emitBinop .cmpLe .bool lhs rhs
  | .gtEq => emitBinop .cmpGe .bool lhs rhs
  | .andAnd => emitBinop .and .bool lhs rhs
  | .pipePipe => emitBinop .or .bool lhs rhs
  | .other => emitBinop .add .i64 lhs rhs

/-- The instruction of `irgen_unary`. -/
def lowerUnary (op : UnOp) (left : Expr) (operand : Int) : GenM Int :=
  match op with
  | .minus => emitUnary .neg (inferType left) operand
  | .bang => emitUnary .not .bool operand
  | .other => return operand

/-- The case `AST_IDENT`. -/
def lowerIdent (wit : HostErrors) (name : String) : GenM Int := do
  let s ← get
  match s.scope.lookup name with
  | some var => emitLoad var.type var.addrId
  | none =>
      match s.params.find? (fun p => p.name == name) with
      | some p => return p.valueId
      | none => emitConstInt ((identHostError wit name).getD 0)

/-- Jump to a block unless the current one has ended; gives the block that jumps. -/
def jumpUnlessTerminated (target : Nat) : GenM (Option Nat) := do
  if ← terminated then return none
  emitJmp target
  return some (← currentBb)

/-- The pairs of a phi: branches that have a value and go on to the merge block. -/
def incoming (branches : List (Int × Option Nat)) : List (Int × Nat) :=
  branches.filterMap (fun b => if b.1 < 0 then none else b.2.map (fun pred => (b.1, pred)))

/-- A phi for two branches, or no value if neither has one. -/
def mergePhi (type : GenM IrType) (a b : Int × Option Nat) : GenM Int := do
  if incoming [a, b] = [] then return -1
  emitPhi (← type) (incoming [a, b])

/-- Allocate a slot for a name and store a value in it. -/
def bindSlot (name : String) (value : Int) : GenM Unit := do
  let slot ← emitAlloca .i64
  emitStore value slot
  scopeAdd name slot .i64

/-- The segment of an interpolated string for a value that is not a literal. -/
def lowerSegment (isJson : Bool) (v : Int) : GenM Int := do
  if isJson then emitHostCall "json.as_string" [v]
  else
    match ← valueType v with
    | .string => return v
    | .bool => emitHostCall "string.from_bool" [v]
    | .f64 => emitHostCall "string.from_float" [v]
    | _ => emitHostCall "string.from_int" [v]

/-- The text of a literal segment. -/
def literalText : Expr → String
  | .stringLit s => s
  | _ => ""

/-- Append a segment to what has been concatenated so far. -/
def concatSegment (acc seg : Int) : GenM Int :=
  if seg < 0 then return acc
  else if acc < 0 then return seg
  else emitHostCall "string.concat" [acc, seg]

/-- The verb that coerces a Json handle. -/
def jsonCastVerb : TypeExpr → Option String
  | .named name =>
      if name = "int" ∨ name = "i64" then some "json.as_int"
      else if name = "string" ∨ name = "str" then some "json.as_string"
      else if name = "bool" then some "json.as_bool"
      else none
  | _ => none

/-- The type of the slot of a `let`. -/
def letType (names : Registries) (type : Option TypeExpr) (init : Option Expr) : IrType :=
  match astTypeToIr type with
  | .void =>
      match init with
      | none => .i64
      | some e =>
          match e with
          | .call (.ident callee) _ =>
              match names.lookupFnRet callee with
              | .void => inferType e
              | t => t
          | .methodCall (.ident receiver) name _ =>
              match names.lookupModuleFn receiver name with
              | some f => if f.retType = .void then inferType e else f.retType
              | none => inferType e
          | _ => inferType e
  | t => t

/-- The condition of an arm in the general case: `none` for a catch-all. -/
def lowerPattern (wit : HostErrors) (subj : Int) : Pattern → GenM (Option (Option Int))
  | .wildcard => return some none
  | .ident name =>
      if isQualified name then compareHostError name else return some none
  | .literal (.int v) => do
      let lit ← emitConstInt v
      return some (some (← emitBinop .cmpEq .bool subj lit))
  | .literal .true => do
      let one ← emitConstInt 1
      return some (some (← emitBinop .cmpEq .bool subj one))
  | .literal .false => do
      let zero ← emitConstInt 0
      return some (some (← emitBinop .cmpEq .bool subj zero))
  | .literal _ => return none
  | .enum name _ => compareHostError name
  | .other _ => return none
where
  /-- Compare with the code of a host error, if the contract has it. -/
  compareHostError (name : String) : GenM (Option (Option Int)) :=
    match patHostError wit name with
    | none => return none
    | some code => do
        let lit ← emitConstInt code
        return some (some (← emitBinop .cmpEq .bool subj lit))

/-- The patterns that the general case takes. -/
def treePattern : Pattern → Bool
  | .wildcard => true
  | .ident name =>
      match splitColons name.toList with
      | some (head, _) => isHostErrorHead head
      | none => true
  | .literal .str | .literal .none => false
  | .literal _ => true
  | .enum name _ =>
      match pathHead name.toList with
      | some head => isHostErrorHead head
      | none => false
  | .other _ => false

/-- The name that an arm of the general case binds, in guard and body. -/
def armBinding : Pattern → Option String
  | .ident name => if isQualified name then none else some name
  | .enum _ (.ident name :: _) => some name
  | _ => none

/-- The name that `Ok` or `Err` binds: whatever the first payload pattern is called. -/
def payloadBinding : Pattern → Option String
  | .enum _ (p :: _) => p.name
  | _ => none

def bindOption (name : Option String) (value : Int) : GenM Unit :=
  match name with
  | some name => bindSlot name value
  | none => return ()

/-! ## Control structures

Each takes the lowering of its parts as actions. -/

/-- `AST_IF` as an expression. -/
def lowerIf (cond thn els : GenM Int) : GenM Int := do
  let pre ← currentBb
  let c ← cond
  let thenBb ← bbNew "if.then"
  let elseBb ← bbNew "if.else"
  let mergeBb ← bbNew "if.merge"
  setCurrentBb pre
  emitBr c thenBb elseBb
  setCurrentBb thenBb
  scopePush
  let thenVal ← thn
  let thenPred ← jumpUnlessTerminated mergeBb
  scopePop
  setCurrentBb elseBb
  scopePush
  let elseVal ← els
  let elsePred ← jumpUnlessTerminated mergeBb
  scopePop
  setCurrentBb mergeBb
  mergePhi (valueType (if 0 ≤ thenVal then thenVal else elseVal))
    (thenVal, thenPred) (elseVal, elsePred)

/-- A branch of `AST_IF` as a statement; it jumps to `mergeBb` in any case. -/
def lowerBranch (bb mergeBb : Nat) (body : GenM Unit) : GenM Unit := do
  setCurrentBb bb
  scopePush
  body
  emitJmp mergeBb
  scopePop

/-- `AST_IF` as a statement; `els` is the `else`, if there is one. -/
def lowerIfStmt (cond : GenM Int) (thn : GenM Unit) (els : Option (GenM Unit)) : GenM Unit := do
  let pre ← currentBb
  let c ← cond
  let thenBb ← bbNew "if.then"
  match els with
  | some els =>
      let elseBb ← bbNew "if.else"
      let mergeBb ← bbNew "if.merge"
      setCurrentBb pre
      emitBr c thenBb elseBb
      lowerBranch thenBb mergeBb thn
      lowerBranch elseBb mergeBb els
      setCurrentBb mergeBb
  | none =>
      let mergeBb ← bbNew "if.merge"
      setCurrentBb pre
      emitBr c thenBb mergeBb
      lowerBranch thenBb mergeBb thn
      setCurrentBb mergeBb

/-- The block that an error goes to: the innermost handler, or a return. -/
def lowerPropagate (catchStack : List CatchCtx) (v : Int) : GenM Unit :=
  match catchStack with
  | top :: _ => do
      emitStore v top.errAddr
      emitJmp top.catchBb
  | [] => emitRet v

/-- `AST_TRY`. -/
def lowerTry (operand : GenM Int) : GenM Int := do
  let v ← operand
  if v < 0 then return -1
  let zero ← emitConstInt 0
  let isErr ← emitBinop .cmpLt .bool v zero
  let pre ← currentBb
  let errBb ← bbNew "try.err"
  let okBb ← bbNew "try.ok"
  setCurrentBb pre
  emitBr isErr errBb okBb
  setCurrentBb errBb
  lowerPropagate (← get).catchStack v
  setCurrentBb okBb
  return v

/-- `AST_TRY_CATCH`. -/
def lowerTryCatch (body : GenM Int) (errName : String) (handler : GenM Int) : GenM Int := do
  if maxCatchDepth ≤ (← get).catchStack.length then return -1
  let errAddr ← emitAlloca .i64
  let pre ← currentBb
  let tryBb ← bbNew "try.body"
  let catchBb ← bbNew "try.catch"
  let mergeBb ← bbNew "try.merge"
  setCurrentBb pre
  emitJmp tryBb
  catchPush catchBb errAddr
  setCurrentBb tryBb
  scopePush
  let okVal ← body
  let bodyPred ← jumpUnlessTerminated mergeBb
  scopePop
  catchPop
  setCurrentBb catchBb
  scopePush
  let errVal ← emitLoad .i64 errAddr
  bindSlot errName errVal
  let catchVal ← handler
  let catchPred ← jumpUnlessTerminated mergeBb
  scopePop
  setCurrentBb mergeBb
  mergePhi (return .i64) (okVal, bodyPred) (catchVal, catchPred)

/-! ### Match -/

/-- An arm, with the lowering of its guard and its body. -/
structure ArmCode where
  pat : Pattern
  guard : Option (GenM Int)
  body : GenM Int

/-- The tail of the path of an enum pattern. -/
def ArmCode.variant (a : ArmCode) : Option String :=
  match a.pat with
  | .enum name _ => some (variantTail name)
  | _ => none

/-- The last arm for a variant. -/
def armFor (variant : String) (arms : List ArmCode) : Option ArmCode :=
  arms.reverse.find? (fun a => a.variant == some variant)

/-- `LOWER_ARM`, and the body of an arm in `irgen_lower_arm_body_l6`. -/
def lowerArmBody (binding : Option String) (subj : Int) (mergeBb : Nat) (body : GenM Int) :
    GenM (Int × Option Nat) := do
  scopePush
  bindOption binding subj
  let val ← body
  let pred ← jumpUnlessTerminated mergeBb
  scopePop
  return (val, pred)

/-- The two arms `Ok` and `Err`, told apart by the sign of the subject. -/
def lowerResultMatch (subject : GenM Int) (ok err : ArmCode) : GenM Int := do
  let subj ← subject
  if subj < 0 then return -1
  let zero ← emitConstInt 0
  let isErr ← emitBinop .cmpLt .bool subj zero
  let pre ← currentBb
  let okBb ← bbNew "match.ok"
  let errBb ← bbNew "match.err"
  let mergeBb ← bbNew "match.merge"
  setCurrentBb pre
  emitBr isErr errBb okBb
  setCurrentBb okBb
  let okEnd ← lowerArmBody (payloadBinding ok.pat) subj mergeBb ok.body
  setCurrentBb errBb
  let errEnd ← lowerArmBody (payloadBinding err.pat) subj mergeBb err.body
  setCurrentBb mergeBb
  mergePhi (return .i64) okEnd errEnd

/-- The blocks of an arm. -/
structure ArmBlocks where
  predBb : Nat
  bodyBb : Nat
  nextBb : Nat

/-- The blocks of `n` arms from the `i`-th on. -/
def newArmBlocks (i : Nat) : Nat → GenM (List ArmBlocks)
  | 0 => return []
  | n + 1 => do
      let predBb ← bbNew ("match.arm" ++ toString i)
      let bodyBb ← bbNew ("match.arm" ++ toString i ++ ".body")
      let nextBb ← bbNew ("match.arm" ++ toString i ++ ".next")
      return ⟨predBb, bodyBb, nextBb⟩ :: (← newArmBlocks (i + 1) n)

/-- From the pattern of an arm to its guard.  The branch of a pattern with a
condition goes into the block that was just made for the guard. -/
def enterGuard (i nextBb : Nat) : Option Int → GenM Unit
  | none => return ()
  | some predVal => do
      let guardBb ← bbNew ("match.arm" ++ toString i ++ ".guard")
      emitBr predVal guardBb nextBb
      setCurrentBb guardBb

/-- From the condition of an arm to its body or to the next arm; `false` when
the guard has no value. -/
def lowerGuard (subj : Int) (i : Nat) (bbs : ArmBlocks) (pat : Pattern) (predVal : Option Int) :
    Option (GenM Int) → GenM Bool
  | none => do
      match predVal with
      | none => emitJmp bbs.bodyBb
      | some v => emitBr v bbs.bodyBb bbs.nextBb
      return true
  | some guard => do
      enterGuard i bbs.nextBb predVal
      scopePush
      bindOption (armBinding pat) subj
      let g ← guard
      scopePop
      if g < 0 then return false
      emitBr g bbs.bodyBb bbs.nextBb
      return true

/-- Where an arm that does not match goes on: the next arm, or the merge block. -/
def nextArm (mergeBb : Nat) : List ArmBlocks → Nat
  | [] => mergeBb
  | bbs :: _ => bbs.predBb

/-- The arms of the general case; `none` when the lowering gives up half-way. -/
def lowerArms (wit : HostErrors) (subj : Int) (mergeBb : Nat) :
    Nat → List ArmBlocks → List ArmCode → GenM (Option (List (Int × Option Nat)))
  | _, _, [] => return some []
  | _, [], _ => return some []
  | i, bbs :: rest, arm :: arms => do
      setCurrentBb bbs.predBb
      match ← lowerPattern wit subj arm.pat with
      | none => return none
      | some predVal =>
          let guarded ← lowerGuard subj i bbs arm.pat predVal arm.guard
          if ¬ guarded then return none
          setCurrentBb bbs.bodyBb
          let armEnd ← lowerArmBody (armBinding arm.pat) subj mergeBb arm.body
          setCurrentBb bbs.nextBb
          emitJmp (nextArm mergeBb rest)
          match ← lowerArms wit subj mergeBb (i + 1) rest arms with
          | none => return none
          | some ends => return some (armEnd :: ends)

/-- `L6_MATCH_MAX_ARMS`. -/
def maxArms : Nat := 32

/-- `irgen_match_decision_tree`. -/
def lowerDecisionTree (wit : HostErrors) (subject : GenM Int) (arms : List ArmCode) : GenM Int := do
  if ¬ arms.all (fun a => treePattern a.pat) ∨ arms.length = 0 then return -1
  let subj ← subject
  if subj < 0 then return -1
  let pre ← currentBb
  let mergeBb ← bbNew "match.merge"
  if maxArms < arms.length then return -1
  let bbs ← newArmBlocks 0 arms.length
  setCurrentBb pre
  emitJmp (nextArm mergeBb bbs)
  match ← lowerArms wit subj mergeBb 0 bbs arms with
  | none => return -1
  | some ends =>
      setCurrentBb mergeBb
      emitPhi .i64 (incoming ends)

/-- `AST_MATCH`. -/
def lowerMatch (wit : HostErrors) (subject : GenM Int) (arms : List ArmCode) : GenM Int :=
  match armFor "Ok" arms, armFor "Err" arms with
  | some ok, some err =>
      if arms.length = 2 then lowerResultMatch subject ok err
      else lowerDecisionTree wit subject arms
  | _, _ => lowerDecisionTree wit subject arms

/-! ### Loops -/

def bindPattern (patName : Option String) (loopVar : Int) : GenM Unit :=
  match patName with
  | some name => do
      scopePush
      scopeAdd name loopVar .i64
  | none => return ()

def unbindPattern (patName : Option String) : GenM Unit :=
  if patName.isSome then scopePop else return ()

/-- `AST_FOR` over a range. -/
def lowerFor (patName : Option String) (start stop : GenM Int) (body : GenM Unit) : GenM Unit := do
  let startVal ← start
  let endVal ← stop
  let loopVar ← emitAlloca .i64
  emitStore startVal loopVar
  bindPattern patName loopVar
  let init ← currentBb
  let condBb ← bbNew "for.cond"
  let bodyBb ← bbNew "for.body"
  let incBb ← bbNew "for.inc"
  let exitBb ← bbNew "for.exit"
  setCurrentBb init
  emitJmp condBb
  setCurrentBb condBb
  let cur ← emitLoad .i64 loopVar
  let cmp ← emitBinop .cmpLt .bool cur endVal
  emitBr cmp bodyBb exitBb
  setCurrentBb bodyBb
  loopPush incBb exitBb
  body
  loopPop
  let _ ← jumpUnlessTerminated incBb
  setCurrentBb incBb
  let cur2 ← emitLoad .i64 loopVar
  let one ← emitConstInt 1
  let next ← emitBinop .add .i64 cur2 one
  emitStore next loopVar
  emitJmp condBb
  setCurrentBb exitBb
  unbindPattern patName

/-- `AST_WHILE`. -/
def lowerWhile (cond : GenM Int) (body : GenM Unit) : GenM Unit := do
  let pre ← currentBb
  let condBb ← bbNew "while.cond"
  let bodyBb ← bbNew "while.body"
  let exitBb ← bbNew "while.exit"
  setCurrentBb pre
  emitJmp condBb
  setCurrentBb condBb
  let c ← cond
  emitBr c bodyBb exitBb
  setCurrentBb bodyBb
  scopePush
  loopPush condBb exitBb
  body
  loopPop
  let _ ← jumpUnlessTerminated condBb
  scopePop
  setCurrentBb exitBb

/-- `AST_LOOP`. -/
def lowerLoop (body : GenM Unit) : GenM Unit := do
  let pre ← currentBb
  let headBb ← bbNew "loop.header"
  let bodyBb ← bbNew "loop.body"
  let exitBb ← bbNew "loop.exit"
  setCurrentBb pre
  emitJmp headBb
  setCurrentBb headBb
  emitJmp bodyBb
  setCurrentBb bodyBb
  scopePush
  loopPush headBb exitBb
  body
  loopPop
  let _ ← jumpUnlessTerminated headBb
  scopePop
  setCurrentBb exitBb

/-- `AST_BREAK` and `AST_CONTINUE`: jump and go on in a dead block. -/
def lowerLeave (target : LoopCtx → Int) (label : String) : GenM Unit := do
  match (← get).loopStack with
  | top :: _ =>
      emitJmp (target top)
      let dead ← bbNew label
      setCurrentBb dead
  | [] => return ()

/-! ### Calls, accesses, bindings -/

/-- `irgen_call`, behind the test for `print`. -/
def lowerCall (ref : CallRef) (callee : String) (args : GenM (List Int)) : GenM Int := do
  let vals ← args
  let (symbol, retType) := (← get).names.callTarget callee
  emitSourceCall ref symbol retType vals

/-- The function that `<module>.<fn>` names, when the receiver is an identifier. -/
def Expr.moduleFn (names : Registries) : Expr → String → Option ModuleFn
  | .ident stem, name => names.lookupModuleFn stem name
  | _, _ => none

/-- `AST_METHOD_CALL`, when the receiver and the name resolve to `target` or not. -/
def lowerMethodCall (target : Option ModuleFn) (receiver : GenM Int) (args : GenM (List Int)) :
    GenM Int :=
  match target with
  | some f => do
      let vals ← args
      emitSourceCall (.qualified f.moduleStem f.fnName) f.irSymbol f.retType vals
  | none => do
      let _ ← receiver
      emitConstInt 0

/-- `AST_CAST` of a Json handle or of any other value. -/
def lowerCast (isJson : Bool) (operand : GenM Int) (type : TypeExpr) : GenM Int := do
  let v ← operand
  match isJson, jsonCastVerb type with
  | true, some verb => emitHostCall verb [v]
  | _, _ => emitCast (astTypeToIr (some type)) v

/-- `AST_FIELD_ACCESS`. -/
def lowerFieldAccess (isJson : Bool) (operand : GenM Int) (name : String) (safe : Bool) :
    GenM Int := do
  let v ← operand
  if isJson then
    let key ← emitConstString name
    emitHostCall (if safe then "json.field_get_safe" else "json.field_get") [v, key]
  else emitConstInt 0

def markJsonIf (isJson : Bool) : GenM Unit :=
  modify (fun s => { s with scope := if isJson then s.scope.markJson else s.scope })

/-- Store a value in a slot, if there is one. -/
def storeValue (v addr : Int) : GenM Unit := if 0 ≤ v then emitStore v addr else return ()

/-- `AST_LET`: the slot, the name, then the initializer. -/
def lowerLet (name : String) (type : Option TypeExpr) (init : Option Expr)
    (initCode : Option (GenM Int)) : GenM Unit := do
  let s ← get
  let varType := letType s.names type init
  let addr ← emitAlloca varType
  scopeAdd name addr varType
  markJsonIf (type == some (.named "Json") || init.any (exprIsJson s.scope))
  match initCode with
  | some code => do
      let v ← code
      storeValue v addr
  | none => return ()

/-- `AST_ASSIGN` to a variable. -/
def lowerAssign (name : String) (value : GenM Int) : GenM Unit := do
  match (← get).scope.lookup name with
  | some var => do
      let v ← value
      storeValue v var.addrId
  | none => return ()

/-! ## Expressions and statements -/

section
variable (wit : HostErrors)

mutual

/-- `irgen_expr`. -/
def irgenExpr : Expr → GenM Int
  | .intLit v => emitConstInt v
  | .floatLit bits => emitConstFloat bits
  | .stringLit s => emitConstString s
  | .interpString parts => do
      let acc ← irgenSegments true (-1) parts
      if acc < 0 then emitConstString "" else return acc
  | .boolLit b => emitConstBool b
  | .noneLit => emitConstInt 0
  | .ident name => lowerIdent wit name
  | .binary op left right => do
      let lhs ← irgenExpr left
      let rhs ← irgenExpr right
      lowerBinary op left right lhs rhs
  | .unary op operand => do
      let v ← irgenExpr operand
      lowerUnary op operand v
  | .call (.ident callee) args =>
      if callee = "print" ∨ callee = "println" then do
        irgenPrint args
        return -1
      else lowerCall (.plain callee) callee (irgenArgs 16 args)
  | .call _ args => lowerCall .computed "unknown" (irgenArgs 16 args)
  | .methodCall receiver name args => do
      let s ← get
      lowerMethodCall (Expr.moduleFn s.names receiver name) (irgenExpr receiver)
        (irgenArgs 16 args)
  | .hostCall qname args => do
      let vals ← irgenArgs 16 args
      lowerHostCall qname vals
  | .cast operand type => do
      let s ← get
      lowerCast (exprIsJson s.scope operand) (irgenExpr operand) type
  | .fieldAccess operand name safe => do
      let s ← get
      lowerFieldAccess (exprIsJson s.scope operand) (irgenExpr operand) name safe
  | .ifE cond thn els => lowerIf (irgenExpr cond) (irgenTail thn) (irgenElseValue els)
  | .resultOk none => emitConstInt 0
  | .resultOk (some e) => irgenExpr e
  | .resultErr none => emitConstInt (-1)
  | .resultErr (some e) => irgenExpr e
  | .tryE operand => lowerTry (irgenExpr operand)
  | .tryCatch body errName handler => lowerTryCatch (irgenTail body) errName (irgenTail handler)
  | .matchE subject arms => lowerMatch wit (irgenExpr subject) (irgenArms arms)
  | .block _ => return -1
  | .other => return -1

/-- The argument of `print`. -/
def irgenPrint : List Expr → GenM Unit
  | [] => return ()
  | e :: _ => do
      let v ← irgenExpr e
      emitPrint v

/-- The first `n` arguments. -/
def irgenArgs : Nat → List Expr → GenM (List Int)
  | _, [] => return []
  | 0, _ => return []
  | n + 1, e :: es => do
      let v ← irgenExpr e
      return v :: (← irgenArgs n es)

/-- The segments of an interpolated string, a literal first. -/
def irgenSegments : Bool → Int → List Expr → GenM Int
  | _, acc, [] => return acc
  | true, acc, e :: es =>
      if literalText e = "" ∧ acc ≠ -1 then irgenSegments false acc es
      else do
        let seg ← emitConstString (literalText e)
        let acc ← concatSegment acc seg
        irgenSegments false acc es
  | false, acc, e :: es => do
      let v ← irgenExpr e
      let s ← get
      let seg ← lowerSegment (exprIsJson s.scope e) v
      let acc ← concatSegment acc seg
      irgenSegments true acc es

/-- The statements of a block whose last expression is its value. -/
def irgenTail : List Stmt → GenM Int
  | [] => return -1
  | [.expr e] => irgenExpr e
  | s :: ss => do
      irgenStmt s
      irgenTail ss

/-- The `else` of an `if` expression; an `else if` is a statement. -/
def irgenElseValue : Else → GenM Int
  | .none => return -1
  | .block stmts => irgenTail stmts
  | .elif cond thn els => do
      lowerIfStmt (irgenExpr cond) (irgenStmts thn) (irgenElse els)
      return -1

/-- The `else` of an `if` statement. -/
def irgenElse : Else → Option (GenM Unit)
  | .none => none
  | .block stmts => some (irgenStmts stmts)
  | .elif cond thn els => some (lowerIfStmt (irgenExpr cond) (irgenStmts thn) (irgenElse els))

/-- Statements in order. -/
def irgenStmts : List Stmt → GenM Unit
  | [] => return ()
  | s :: ss => do
      irgenStmt s
      irgenStmts ss

/-- `irgen_stmt`. -/
def irgenStmt : Stmt → GenM Unit
  | .letS name type none => lowerLet name type none none
  | .letS name type (some init) => lowerLet name type (some init) (some (irgenExpr init))
  | .assign _ (.ident name) value => lowerAssign name (irgenExpr value)
  | .assign _ _ _ => return ()
  | .ret none => emitRetVoid
  | .ret (some e) => do
      let v ← irgenExpr e
      emitRet v
  | .expr e => do
      let _ ← irgenExpr e
  | .forS patName (.range start stop) body =>
      lowerFor patName (irgenExpr start) (irgenExpr stop) (irgenStmts body)
  | .forS _ .other body => do
      scopePush
      irgenStmts body
      scopePop
  | .whileS cond body => lowerWhile (irgenExpr cond) (irgenStmts body)
  | .loop body => lowerLoop (irgenStmts body)
  | .breakS => lowerLeave (·.breakBb) "after.break"
  | .continueS => lowerLeave (·.continueBb) "after.continue"
  | .other => return ()

/-- The arms with their code. -/
def irgenArms : List Arm → List ArmCode
  | [] => []
  | .mk pat guard body :: arms =>
      ⟨pat, irgenGuard guard, irgenArmBody body⟩ :: irgenArms arms

def irgenGuard : Option Expr → Option (GenM Int)
  | none => none
  | some e => some (irgenExpr e)

def irgenArmBody : ArmBody → GenM Int
  | .block stmts => irgenTail stmts
  | .expr e => irgenExpr e

end

end

end Limceron.Gen
