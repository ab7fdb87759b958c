/-
# `Limceron.Lang.Ast` — the syntax tree

The shapes of `AstNode` that IR generation and the emitters look at.  The C code
has one node type for everything; here expressions, statements, match arms and
declarations are types of their own, in the shapes the parser builds:

* the branches of an `if`, the body of a loop and of a function are blocks;
* `else if` is a nested `if` in the place of the block (`Else.elif`);
* a statement that begins with an expression is `AST_EXPR_STMT`, also when the
  expression is an `if`, a `match` or a block;
* a kind that IR generation does not know is `other`.

A `double` is carried as its 64 bits.
-/
import Mathlib.Data.List.Basic

namespace Limceron

/-! ## Types and operators -/

/-- A type expression: `AST_TYPE_NAMED`, `AST_TYPE_REF`, `AST_TYPE_PTR`. -/
inductive TypeExpr where
  | named (name : String)
  | ref
  | ptr
  | other
  deriving DecidableEq, Repr

/-- The operator of `AST_BINARY`; `other` has no case in `irgen_binary`. -/
inductive BinOp where
  | plus | minus | star | slash | percent
  | eqEq | notEq | lt | gt | ltEq | gtEq
  | andAnd | pipePipe
  | other
  deriving DecidableEq, Repr

inductive UnOp where
  | minus | bang
  | other
  deriving DecidableEq, Repr

/-- The operator of `AST_ASSIGN`: `=`, or a compound one. -/
inductive AssignOp where
  | eq
  | compound (op : BinOp)
  deriving DecidableEq, Repr

/-! ## Patterns -/

/-- The tag the parser puts on a literal pattern, with the value of an `int`. -/
inductive PatLit where
  | int (v : BitVec 64)
  | true
  | false
  | str
  | none
  deriving DecidableEq, Repr

/-- `name` is the path as it was written, `Result::Ok` or `host_error::timeout`. -/
inductive Pattern where
  | wildcard
  | ident (name : String)
  | literal (lit : PatLit)
  | enum (name : String) (params : List Pattern)
  | other (name : Option String)

/-- The tag of a literal pattern in `pat->name`. -/
def PatLit.tag : PatLit → String
  | .int _ => "int"
  | .true => "true"
  | .false => "false"
  | .str => "str"
  | .none => "none"

/-- `pat->name`. -/
def Pattern.name : Pattern → Option String
  | .wildcard => none
  | .ident name => some name
  | .literal lit => some lit.tag
  | .enum name _ => some name
  | .other name => name

/-! ## Expressions and statements -/

mutual

inductive Expr where
  | intLit (v : BitVec 64)
  | floatLit (bits : BitVec 64)
  | stringLit (s : String)
  /-- Literal segments and expressions, alternating, a literal first. -/
  | interpString (parts : List Expr)
  | boolLit (b : Bool)
  | noneLit
  | ident (name : String)
  | binary (op : BinOp) (left right : Expr)
  | unary (op : UnOp) (operand : Expr)
  | call (callee : Expr) (args : List Expr)
  | methodCall (receiver : Expr) (name : String) (args : List Expr)
  | hostCall (qname : String) (args : List Expr)
  | cast (operand : Expr) (type : TypeExpr)
  | fieldAccess (operand : Expr) (name : String) (safe : Bool)
  | ifE (cond : Expr) (thn : List Stmt) (els : Else)
  | resultOk (value : Option Expr)
  | resultErr (value : Option Expr)
  | tryE (operand : Expr)
  | tryCatch (body : List Stmt) (errName : String) (handler : List Stmt)
  | matchE (subject : Expr) (arms : List Arm)
  | block (stmts : List Stmt)
  | other

inductive Else where
  | none
  | block (stmts : List Stmt)
  | elif (cond : Expr) (thn : List Stmt) (els : Else)

inductive Stmt where
  | letS (name : String) (type : Option TypeExpr) (init : Option Expr)
  | assign (op : AssignOp) (target value : Expr)
  | ret (value : Option Expr)
  | expr (e : Expr)
  /-- `for <pattern> in <iterator>`; `patName` is the name of the pattern. -/
  | forS (patName : Option String) (iterator : Iterator) (body : List Stmt)
  | whileS (cond : Expr) (body : List Stmt)
  | loop (body : List Stmt)
  | breakS
  | continueS
  | other

/-- What a `for` ranges over: `AST_RANGE`, or any other expression. -/
inductive Iterator where
  | range (start stop : Expr)
  | other

inductive Arm where
  | mk (pat : Pattern) (guard : Option Expr) (body : ArmBody)

inductive ArmBody where
  | block (stmts : List Stmt)
  | expr (e : Expr)

end

def Else.isNone : Else → Bool
  | .none => true
  | _ => false

/-! ## Declarations -/

structure Param where
  name : String
  type : Option TypeExpr
  deriving DecidableEq, Repr

/-- `AST_FN`.  `stem` is the module a function was imported from, which the
loader stores in `val.str_val`. -/
structure FnDecl where
  name : String
  stem : Option String := none
  params : List Param := []
  returnType : Option TypeExpr := none
  body : List Stmt := []

/-- A literal on the right of a field. -/
inductive FieldLit where
  | int (v : BitVec 64)
  | float (bits : BitVec 64)
  | other
  deriving DecidableEq, Repr

/-- What stands on the right of a field in an agent: a literal or another
expression, a block of fields, or nothing. -/
inductive FieldValue where
  | lit (v : FieldLit)
  | block (fields : List (String × Option FieldLit))
  | missing
  deriving DecidableEq, Repr

/-- `AST_FIELD`. -/
structure AgentField where
  name : String
  right : FieldValue
  deriving DecidableEq, Repr

/-- `AST_AGENT`, with the functions among its members. -/
structure AgentDecl where
  name : String
  fields : List AgentField := []
  fns : List FnDecl := []

inductive Decl where
  | fn (d : FnDecl)
  | agent (a : AgentDecl)
  | other

/-- `AST_PROGRAM`. -/
structure Program where
  decls : List Decl

end Limceron
