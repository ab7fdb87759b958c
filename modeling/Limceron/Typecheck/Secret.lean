/-
# `Limceron.Typecheck.Secret` — the secret check

For each function the check collects names and then walks over the body:

| statement | reported |
| :-- | :-- |
| expression, defer | a call of an output sink or of a function `ask` that takes a secret |
| let | a secret on the right, unless the target is secret or the right side is a hatch call |
| let, assign | a call of an output sink on the right that takes a secret |

Names are those of the parameters of secret type and of the lets of secret type
in the outermost block, at most 256 of each.  The walk goes from statement to
statement and never into an expression, and a return is left alone.
-/
import Limceron.Lang.Node

namespace Limceron.Typecheck

open AstNode

/-! ## Names -/

/-- `is_secret_output_sink`. -/
def isSecretOutputSink (name : Option String) : Bool :=
  match name with
  | none => false
  | some name =>
      ["println", "print", "log_info", "log_warn", "log_error", "log_debug"].contains name

/-- `type_is_secret`. -/
def typeIsSecret (type : Option AstNode) : Bool :=
  match type with
  | none => false
  | some t => t.kind == .typeSecret

/-- A call of `secret_redact` or `secret_unwrap`. -/
def isHatchCall (e : AstNode) : Bool :=
  callIdent e == some "secret_redact" || callIdent e == some "secret_unwrap"

/-! ## Collecting -/

def maxSecretVars : Nat := 256

/-- A parameter of secret type. -/
def secretParam (p : AstNode) : Option String :=
  if typeIsSecret p.typeExpr then p.name else none

/-- A let of secret type. -/
def secretLet (s : AstNode) : Option String :=
  if s.kind = .letS ∧ typeIsSecret s.typeExpr then s.name else none

/-- `collect_secret_params`. -/
def collectSecretParams (params : List AstNode) : List String :=
  (params.filterMap secretParam).take maxSecretVars

/-- The statements of a body. -/
def bodyStmts (block : AstNode) : List AstNode :=
  if block.kind = .block then block.params else [block]

/-- `collect_secret_lets`. -/
def collectSecretLets (block : Option AstNode) : List String :=
  match block with
  | none => []
  | some b => ((bodyStmts b).filterMap secretLet).take maxSecretVars

mutual

/-- `expr_uses_secret`. -/
def exprUsesSecret (secrets : List String) : AstNode → Bool
  | ⟨kind, name, type, left, right, params, val⟩ =>
      (kind == .ident && name.any (· ∈ secrets)) || childUsesSecret secrets left ||
        childUsesSecret secrets right ||
          (!isHatchCall ⟨kind, name, type, left, right, params, val⟩ && anyUsesSecret secrets params)

def childUsesSecret (secrets : List String) : Option AstNode → Bool
  | none => false
  | some e => exprUsesSecret secrets e

def anyUsesSecret (secrets : List String) : List AstNode → Bool
  | [] => false
  | a :: as => exprUsesSecret secrets a || anyUsesSecret secrets as

end

/-! ## Reports -/

/-- An error: where the secret went, in which function. -/
inductive SecretReport where
  | sink (name : String) (context : String)
  | ask (context : String)
  | assigned (name : String) (context : String)
  deriving DecidableEq, Repr

namespace SecretReport

def message : SecretReport → String
  | sink name context => s!"secret value leaked to output sink '{name}' in '{context}'"
  | ask context => s!"secret value leaked to ask() prompt in '{context}'"
  | assigned name context =>
      s!"secret value assigned to non-secret variable '{name}' in '{context}'"

def hint : SecretReport → String
  | sink _ _ => "use secret_redact() to safely log secret data"
  | ask _ => "use secret_redact() before passing to ask()"
  | assigned _ _ => "declare the target as 'secret' type or use secret_unwrap()"

end SecretReport

/-! ## The walk -/

section
variable (secrets : List String) (context : String)

/-- The expression calls a sink with a secret. -/
def checkSecretSink (e : AstNode) : List SecretReport :=
  match callIdent e with
  | none => []
  | some fn =>
      if isSecretOutputSink (some fn) ∧ anyUsesSecret secrets e.params then [.sink fn context]
      else []

/-- The expression calls a function `ask` with a secret. -/
def checkSecretAsk (e : AstNode) : List SecretReport :=
  if callIdent e = some "ask" ∧ anyUsesSecret secrets e.params then [.ask context] else []

/-- The expression of an expression statement. -/
def checkSecretExpr (expr : Option AstNode) : List SecretReport :=
  match expr with
  | none => []
  | some e => checkSecretSink secrets context e ++ checkSecretAsk secrets context e

/-- The right side of a let. -/
def checkSecretLet (name : Option String) (type right : Option AstNode) : List SecretReport :=
  match right with
  | none => []
  | some e =>
      match name with
      | none => checkSecretExpr secrets context right
      | some x =>
          if !typeIsSecret type && exprUsesSecret secrets e then
            if isHatchCall e then []
            else .assigned x context :: checkSecretExpr secrets context right
          else checkSecretExpr secrets context right

/-- The right side of an assignment. -/
def checkSecretAssign (right : Option AstNode) : List SecretReport :=
  match right with
  | none => []
  | some e => checkSecretSink secrets context e

mutual

/-- `check_secret_in_stmt`, for a list of names that is not empty. -/
def checkSecretInStmt : AstNode → List SecretReport
  | ⟨kind, name, type, left, right, params, _⟩ =>
      match kind with
      | .exprStmt | .deferS => checkSecretExpr secrets context left
      | .letS => checkSecretLet secrets context name type right
      | .assign => checkSecretAssign secrets context right
      | .ifS => checkSecretInChild right ++ checkSecretInFirst params
      | .whileS | .forS => checkSecretInChild right
      | .loop => checkSecretInChild left
      | .block => checkSecretInStmts params
      | .matchS => checkSecretInArms params
      | _ => []

def checkSecretInChild : Option AstNode → List SecretReport
  | none => []
  | some s => checkSecretInStmt s

/-- The `else` of an `if`, the first of the list. -/
def checkSecretInFirst : List AstNode → List SecretReport
  | [] => []
  | s :: _ => checkSecretInStmt s

def checkSecretInStmts : List AstNode → List SecretReport
  | [] => []
  | s :: ss => checkSecretInStmt s ++ checkSecretInStmts ss

def checkSecretInArm : AstNode → List SecretReport
  | ⟨kind, _, _, _, right, _, _⟩ => if kind = .matchArm then checkSecretInChild right else []

def checkSecretInArms : List AstNode → List SecretReport
  | [] => []
  | a :: as => checkSecretInArm a ++ checkSecretInArms as

end

end

/-! ## Functions and programs -/

/-- A function, a method or a tool. -/
structure SecretFn where
  name : Option String
  params : List AstNode := []
  returnType : Option AstNode := none
  body : Option AstNode := none

/-- All names that count as secret. -/
def SecretFn.allSecrets (fn : SecretFn) : List String :=
  collectSecretParams fn.params ++ collectSecretLets fn.body

/-- `check_secret_in_fn`. -/
def checkSecretInFn (context : Option String) (fn : SecretFn) : List SecretReport :=
  if fn.allSecrets = [] then []
  else
    match fn.body with
    | none => []
    | some body => checkSecretInStmt fn.allSecrets (context.getD "<fn>") body

/-- A declaration of the program; the functions are those among the members. -/
inductive SecretDecl where
  | fn (f : SecretFn)
  | agent (name : Option String) (methods : List SecretFn)
  | tool (f : SecretFn)
  | other

/-- What is checked, each function with its context. -/
def SecretDecl.fns : SecretDecl → List (Option String × SecretFn)
  | .fn f | .tool f => [(f.name, f)]
  | .agent name methods => methods.map fun f =>
      -- `"%s.%s"` into 512 bytes.
      let context := (name.getD "<agent>") ++ "." ++ (f.name.getD "<fn>")
      (some (String.ofList (context.toList.take 511)), f)
  | .other => []

/-- `check_secrets`. -/
def checkSecrets (decls : List SecretDecl) : List SecretReport :=
  (decls.flatMap SecretDecl.fns).flatMap fun cf => checkSecretInFn cf.1 cf.2

end Limceron.Typecheck
