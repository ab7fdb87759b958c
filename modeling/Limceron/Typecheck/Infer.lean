/-
# `Limceron.Typecheck.Infer` — types in function bodies

The pass `lcn_l9_infer_types` goes over each function body from the bottom up.  A type is a
literal or a variable, and variables are bound in the table of `lcn_unify`; a type is followed
along the table by `lcn_type_resolve`.

| of | is reported |
| :-- | :-- |
| `let x: T = e` | that the type of `e` is not `T` |
| `if` | that the branches have two types |
| a function with a result | that the last expression of its body has another type |

A function type is nowhere made, so types have no other form.  A node that is missing, a name
that is not declared and most expressions have a new variable as their type; when there are
1024 of them, there is no type at all.
-/
import Limceron.Lib.Equations
import Limceron.Parse.Syntax

namespace Limceron.Typecheck.Infer

open Parse (Node TokenKind)

/-! ## Types -/

inductive LcnLitKind where
  | none | int | float | bool | string | unit | litOpaque
  deriving DecidableEq, Repr

/-- A type that is a literal, with the name of an opaque one. -/
structure LcnLit where
  kind : LcnLitKind
  opaqueName : Option String := none
  deriving DecidableEq, Repr

abbrev LcnType := Equations.Term ℕ LcnLit

/-- `lcn_type_lit`. -/
def lcnTypeLit (kind : LcnLitKind) : Option LcnType := some (.lit { kind := kind })

/-- `bindings` has an entry for each variable, `count` of them. -/
structure LcnUnifyTable where
  bindings : List (Option LcnType) := []

namespace LcnUnifyTable

def count (tbl : LcnUnifyTable) : ℕ := tbl.bindings.length

/-- What a variable is bound to. -/
def binding (tbl : LcnUnifyTable) (varId : ℕ) : Option LcnType := tbl.bindings[varId]?.join

def bind (tbl : LcnUnifyTable) (varId : ℕ) (t : LcnType) : LcnUnifyTable :=
  { bindings := tbl.bindings.set varId (some t) }

end LcnUnifyTable

def inferMaxVars : ℕ := 1024

/-- `lcn_type_fresh_var`. -/
def lcnTypeFreshVar (tbl : LcnUnifyTable) : Option LcnType × LcnUnifyTable :=
  if inferMaxVars ≤ tbl.count then (none, tbl)
  else (some (.var tbl.count), { bindings := tbl.bindings ++ [none] })

/-- `lcn_type_resolve`; no variable is bound twice, so that its loop ends. -/
def lcnTypeResolve (tbl : LcnUnifyTable) (t : LcnType) : LcnType :=
  Equations.follow tbl.binding tbl.count t

/-- Literals that `lcn_unify` takes for the same. -/
def LcnLit.agrees (l m : LcnLit) : Bool :=
  if l.kind = m.kind then
    match l.kind, l.opaqueName, m.opaqueName with
    | .litOpaque, some x, some y => x == y
    | _, _, _ => true
  else (l.kind == .int && m.kind == .float) || (l.kind == .float && m.kind == .int)

/-- `lcn_unify`, of types that have been followed to their ends. -/
def unifyEnds (tbl : LcnUnifyTable) : LcnType → LcnType → Bool × LcnUnifyTable
  | .var v, b => (true, if b = .var v then tbl else tbl.bind v b)
  | .lit l, .var w => (true, tbl.bind w (.lit l))
  | .lit l, .lit m => (l.agrees m, tbl)

/-- `lcn_unify`. -/
def lcnUnify (tbl : LcnUnifyTable) (a b : Option LcnType) : Bool × LcnUnifyTable :=
  match a, b with
  | some a, some b => unifyEnds tbl (lcnTypeResolve tbl a) (lcnTypeResolve tbl b)
  | _, _ => (true, tbl)

/-- `lcn_type_to_string`, of a literal. -/
def LcnLit.toString (l : LcnLit) : String :=
  match l.kind with
  | .int => "int"
  | .float => "float"
  | .bool => "bool"
  | .string => "string"
  | .unit => "()"
  | .litOpaque => l.opaqueName.getD "<opaque>"
  | .none => "?"

/-- `l9_named_type_to_lit`. -/
def l9NamedTypeToLit (name : String) : LcnLitKind :=
  if name ∈ ["int", "i32", "i64"] then .int
  else if name ∈ ["float", "f64", "f32"] then .float
  else if name = "bool" then .bool
  else if name ∈ ["string", "str", "String"] then .string
  else if name ∈ ["void", "()"] then .unit
  else .none

/-! ## Reports -/

/-- An error, with the two literals that do not agree. -/
inductive L9Report where
  | letS (name : String) (init declared : LcnLit)
  | branches (left right : LcnLit)
  | result (fn : Option String) (tail declared : LcnLit)
  deriving DecidableEq, Repr

namespace L9Report

def types : L9Report → LcnLit × LcnLit
  | letS _ l m | branches l m | result _ l m => (l, m)

def message : L9Report → String
  | letS name l m =>
      "cannot unify " ++ l.toString ++ " and " ++ m.toString ++ " in `let " ++ name ++ "`"
  | branches l m =>
      "cannot unify " ++ l.toString ++ " and " ++ m.toString ++ " -- `if` branches disagree"
  | result fn l m =>
      "cannot unify " ++ l.toString ++ " and " ++ m.toString ++ " in return of fn '" ++
        fn.getD "<anon>" ++ "'"

def hint : L9Report → String
  | letS _ _ _ => "remove the annotation or change the initializer"
  | branches _ _ => "both branches of an `if` expression must agree (or coerce via int -> float)"
  | result _ _ _ => "change the expression or relax the function return type -- " ++
      "function boundaries still require explicit annotations"

end L9Report

/-! ## The state of the pass -/

/-- What `l9_find_fn` asks of the kind of a symbol. -/
inductive L9SymKind where
  | fn | tool | other
  deriving DecidableEq

structure L9Symbol where
  name : Option String
  kind : L9SymKind
  node : Node

/-- The locals are those up to `local_count`, the last one being the innermost. -/
structure L9Ctx where
  tbl : LcnUnifyTable := {}
  locals : List (String × LcnType) := []
  reports : List L9Report := []

abbrev L9 (α : Type) := StateM L9Ctx α

def freshVar : L9 (Option LcnType) := fun ctx =>
  let (t, tbl) := lcnTypeFreshVar ctx.tbl
  (t, { ctx with tbl := tbl })

def unify (a b : Option LcnType) : L9 Bool := fun ctx =>
  let (agree, tbl) := lcnUnify ctx.tbl a b
  (agree, { ctx with tbl := tbl })

def resolve (t : Option LcnType) : L9 (Option LcnType) := fun ctx =>
  (t.map (lcnTypeResolve ctx.tbl), ctx)

def report (r : L9Report) : L9 Unit := fun ctx => ((), { ctx with reports := ctx.reports ++ [r] })

def l9MaxLocals : ℕ := 256

/-- `l9_push_local`. -/
def l9PushLocal (name : String) (t : Option LcnType) : L9 Unit := fun ctx =>
  match t with
  | none => ((), ctx)
  | some t =>
      if l9MaxLocals ≤ ctx.locals.length then ((), ctx)
      else ((), { ctx with locals := ctx.locals ++ [(name, t)] })

/-- `l9_lookup_local`. -/
def l9LookupLocal (name : Option String) : L9 (Option LcnType) := fun ctx =>
  (name.bind fun name => (ctx.locals.reverse.find? (·.1 == name)).map Prod.snd, ctx)

/-- `local_count` is at the end what it was. -/
def inScope {α : Type} (p : L9 α) : L9 α := fun ctx =>
  let (a, ctx') := p ctx
  (a, { ctx' with locals := ctx'.locals.take ctx.locals.length })

/-- `l9_from_type_expr`. -/
def l9FromTypeExpr (texpr : List Node) : L9 (Option LcnType) :=
  match texpr with
  | [] => freshVar
  | t :: _ =>
      match t.kind, t.name with
      | .typeNamed, some name =>
          if l9NamedTypeToLit name = .none then
            pure (some (.lit { kind := .litOpaque, opaqueName := some name }))
          else pure (lcnTypeLit (l9NamedTypeToLit name))
      | _, _ => freshVar

/-- `l9_find_fn`. -/
def l9FindFn (symtab : List L9Symbol) (name : String) : Option Node :=
  (symtab.find? fun s => (s.kind == .fn || s.kind == .tool) && s.name == some name).map
    L9Symbol.node

/-! ## Expressions -/

/-- A type, or a new variable. -/
def orFresh (t : Option LcnType) : L9 (Option LcnType) := if t.isSome then pure t else freshVar

/-- The operators that give a `bool`. -/
def l9IsTest (op : TokenKind) : Bool :=
  op ∈ [.eqEq, .notEq, .lt, .gt, .ltEq, .gtEq, .andAnd, .pipePipe]

/-- The kind of what has been followed to a literal. -/
def litKind : Option LcnType → Option LcnLitKind
  | some (.lit l) => some l.kind
  | _ => none

/-- The type of a binary expression, by the types of its sides. -/
def l9BinaryType (op : TokenKind) (l r : Option LcnType) : L9 (Option LcnType) := do
  if l9IsTest op then pure (lcnTypeLit .bool)
  else
    let lr ← resolve l
    let rr ← resolve r
    match litKind lr, litKind rr with
    | some lk, some rk =>
        if op = .plus ∧ (lk = .string ∨ rk = .string) then pure (lcnTypeLit .string)
        else if lk = .float ∨ rk = .float then pure (lcnTypeLit .float)
        else if lk = .int ∧ rk = .int then pure (lcnTypeLit .int)
        else orFresh l
    | _, _ => orFresh l

/-- The type of a call, by the name of the callee. -/
def l9CallType (symtab : List L9Symbol) (callee : List Node) : L9 (Option LcnType) :=
  match callee with
  | c :: _ =>
      match c.kind, c.name with
      | .ident, some name =>
          match l9FindFn symtab name with
          | some fn => if fn.typeExpr.isEmpty then freshVar else l9FromTypeExpr fn.typeExpr
          | none => freshVar
      | _, _ => freshVar
  | [] => freshVar

/-- A literal that is compared with another one: neither opaque, nor missing, nor `()`. -/
def LcnLit.plain (l : LcnLit) : Bool := !(l.kind ∈ [.litOpaque, .none, .unit])

/-- The type of an `if`, by those of its branches. -/
def l9IfType (t e : Option LcnType) : L9 (Option LcnType) := do
  let r ← resolve t
  let s ← resolve e
  match r, s with
  | some (.lit l), some (.lit m) =>
      if l.plain && m.plain then
        if ← unify r s then pure (t.or e)
        else
          report (.branches l m)
          freshVar
      else pure (t.or e)
  | _, _ => pure (t.or e)

/-- What is reported of a `let` that does not agree. -/
def l9LetReport (name : String) (init declared : Option LcnType) : L9 Unit := do
  let r ← resolve init
  let s ← resolve declared
  match r, s with
  | some (.lit l), some (.lit m) =>
      if l.kind ≠ .litOpaque ∧ m.kind ≠ .litOpaque then report (.letS name l m) else pure ()
  | _, _ => pure ()

/-- The initializer of a `let` against the type that is declared. -/
def l9LetCheck (name : String) (init declared : Option LcnType) : L9 Unit :=
  if declared.isSome && init.isSome then do
    if ← unify init declared then pure () else l9LetReport name init declared
  else pure ()

/-- `let`, with the type of the initializer. -/
def l9Let (name : String) (texpr : List Node) (init : Option LcnType) : L9 Unit :=
  if texpr.isEmpty then do
    let t ← orFresh init
    l9PushLocal name t
  else do
    let declared ← l9FromTypeExpr texpr
    l9LetCheck name init declared
    l9PushLocal name declared

section Walk

variable (symtab : List L9Symbol)

/-- The scope of a block. -/
def inBlock {α : Type} (asBlock : Bool) (p : L9 α) : L9 α := if asBlock then inScope p else p

mutual

/-- `l9_syn_block` if `asBlock`, and else `l9_syn_expr`; an expression in the place of a block
is walked as one. -/
def l9Syn (asBlock : Bool) : Node → L9 (Option LcnType)
  | ⟨kind, name, typeExpr, _, _, _, left, right, params, _, _, val⟩ =>
      inBlock asBlock <|
        if asBlock && kind == .block then l9SynStmts params
        else
          match kind with
          | .intLit => pure (lcnTypeLit .int)
          | .floatLit => pure (lcnTypeLit .float)
          | .stringLit | .interpString => pure (lcnTypeLit .string)
          | .boolLit => pure (lcnTypeLit .bool)
          | .ident => do
              let t ← l9LookupLocal name
              orFresh t
          | .binary => do
              let l ← l9SynExpr left
              let r ← l9SynExpr right
              l9BinaryType (match val with | .op k => k | _ => .intLit) l r
          | .unary =>
              match val with
              | .op .bang => pure (lcnTypeLit .bool)
              | _ => l9SynExpr left
          | .call => do
              l9SynArgs params
              l9CallType symtab left
          | .hostCall => do
              l9SynArgs params
              freshVar
          | .ifS => do
              let t ← l9SynBlock right
              let e ← l9SynBlock params
              l9IfType t e
          | .cast => l9FromTypeExpr typeExpr
          | .ref | .deref | .tryE | .awaitE | .spawn | .resultOk | .resultErr => do
              let _ ← l9SynExpr left
              freshVar
          | _ => do
              let _ ← l9SynExpr left
              let _ ← l9SynExpr right
              l9SynArgs params
              freshVar

/-- `l9_syn_expr`, for a child that may be null. -/
def l9SynExpr : List Node → L9 (Option LcnType)
  | [] => freshVar
  | e :: _ => l9Syn false e

/-- `l9_syn_block`, for a child that may be null. -/
def l9SynBlock : List Node → L9 (Option LcnType)
  | [] => pure (lcnTypeLit .unit)
  | e :: _ => l9Syn true e

/-- All of a list. -/
def l9SynArgs : List Node → L9 Unit
  | [] => pure ()
  | e :: es => do
      let _ ← l9Syn false e
      l9SynArgs es

/-- The statements of a block; the last one is walked a second time, for its type. -/
def l9SynStmts : List Node → L9 (Option LcnType)
  | [] => pure (lcnTypeLit .unit)
  | s :: rest => do
      let _ ← (match s.kind with
        | .letS => l9SynLet s
        | .exprStmt => l9SynLeft s
        | .ifS => l9Syn false s
        | _ => pure none)
      if rest.isEmpty then
        match s.kind with
        | .exprStmt => l9SynLeft s
        | .ifS => l9Syn false s
        | _ => pure (lcnTypeLit .unit)
      else l9SynStmts rest

/-- A `let` has no type. -/
def l9SynLet : Node → L9 (Option LcnType)
  | ⟨_, name, typeExpr, _, _, _, _, right, _, _, _, _⟩ =>
      match name with
      | none => pure none
      | some name => do
          let init ← l9SynExpr right
          l9Let name typeExpr init
          pure none

/-- The expression of a statement. -/
def l9SynLeft : Node → L9 (Option LcnType)
  | ⟨_, _, _, _, _, _, left, _, _, _, _, _⟩ => l9SynExpr left

end

/-! ## Functions -/

/-- `l9_strict_return_type`. -/
def l9StrictReturnType (ret : Option LcnType) : Bool :=
  match litKind ret with
  | some k => k ∈ [.int, .float, .bool, .string]
  | none => false

/-- `l9_block_tail`, of a body. -/
def l9BlockTail (block : Node) : Option Node :=
  match if block.kind = .block then block.params.getLast? else some block with
  | none => none
  | some last =>
      if last.kind = .exprStmt then last.left.head?
      else if last.kind ∈
          [.intLit, .floatLit, .stringLit, .boolLit, .ident, .binary, .call, .ifS] then some last
      else none

/-- A parameter that has a type. -/
def l9PushParam (p : Node) : L9 Unit :=
  match p.name with
  | some name =>
      if p.typeExpr.isEmpty then pure ()
      else do
        let t ← l9FromTypeExpr p.typeExpr
        l9PushLocal name t
  | none => pure ()

/-- A let is declared once more, for the type of the last expression of the body. -/
def l9PushLet (s : Node) : L9 Unit :=
  match s.kind, s.name with
  | .letS, some name => do
      let t ← (if s.typeExpr.isEmpty then l9SynExpr symtab s.right else l9FromTypeExpr s.typeExpr)
      l9PushLocal name t
  | _, _ => pure ()

/-- One node after the other. -/
def l9Each (f : Node → L9 Unit) : List Node → L9 Unit
  | [] => pure ()
  | n :: ns => do
      f n
      l9Each f ns

/-- The type that is compared with the result, `bodyTy` being that of the body. -/
def l9TailType (body : Node) (bodyTy : Option LcnType) : L9 (Option LcnType) :=
  match l9BlockTail body with
  | none => pure bodyTy
  | some tail => inScope do
      l9Each (l9PushLet symtab) body.params
      l9Syn symtab false tail

/-- The result of a function against its last expression. -/
def l9CheckResult (name : Option String) (ret tail : Option LcnType) : L9 Unit := do
  let r ← resolve ret
  let s ← resolve tail
  match r, s with
  | some (.lit l), some (.lit m) =>
      if m.plain then
        if ← unify s r then pure () else report (.result name m l)
      else pure ()
  | _, _ => pure ()

/-- The body of a function, `ret` being the type of its result. -/
def l9CheckBody (fn body : Node) (ret : Option LcnType) : L9 Unit := do
  let bodyTy ← l9Syn symtab true body
  let r ← resolve ret
  if l9StrictReturnType r then
    let tail ← l9TailType symtab body bodyTy
    l9CheckResult fn.name ret tail
  else pure ()

/-- The type of the result. -/
def l9ReturnType (fn : Node) : L9 (Option LcnType) :=
  if fn.typeExpr.isEmpty then pure (lcnTypeLit .unit) else l9FromTypeExpr fn.typeExpr

/-- `l9_check_fn`. -/
def l9CheckFn (fn : Node) : L9 Unit :=
  match fn.left with
  | [] => pure ()
  | body :: _ => inScope do
      l9Each l9PushParam fn.params
      let ret ← l9ReturnType fn
      l9CheckBody symtab fn body ret

/-- A function has a table of its own, and no locals before it. -/
def l9CheckMember (fn : Node) : L9 Unit :=
  if fn.kind = .fn then do
    modify fun ctx => { ctx with tbl := {}, locals := [] }
    l9CheckFn symtab fn
  else pure ()

/-- The state the walk of `fns` ends in. -/
def l9Walked (fns : List Node) : L9Ctx := (l9Each (l9CheckMember symtab) fns {}).2

/-- The functions of a declaration. -/
def l9FnsOf (decl : Node) : List Node :=
  match decl.kind with
  | .fn => [decl]
  | .agent => decl.left ++ decl.params
  | .impl => decl.params
  | _ => []

end Walk

/-- `lcn_l9_infer_types`, with what is reported. -/
def lcnL9InferTypes (symtab : List L9Symbol) (program : Node) : List L9Report :=
  if program.kind = .program then
    (l9Walked symtab (program.params.flatMap l9FnsOf)).reports
  else []

end Limceron.Typecheck.Infer
