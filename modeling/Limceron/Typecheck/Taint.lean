/-
# `Limceron.Typecheck.Taint` — the taint check

For each function the check collects names and then walks over the body twice:

| walk | goes into | looks at | for |
| :-- | :-- | :-- | :-- |
| `check_taint_in_stmt` | if, while, loop, for, block, match | the expression of a statement | dangerous sinks |
| `check_prompt_injection` | if, block | the expression of a let, a return or an expression statement | LLM calls |

Names are those of the tainted parameters, and of the lets of the outermost block
whose right side is a source or mentions a name collected before; at most 256 of
each.  No walk goes into an expression, and no collection into a nested block.
-/
import Limceron.Lang.Node

namespace Limceron.Typecheck

open AstNode

/-! ## Names -/

/-- `contains_ci`: one of the names is part of the other, whatever the case. -/
def containsCi (haystack needle : String) : Bool :=
  let h := haystack.toList.map Char.toLower
  let n := needle.toList.map Char.toLower
  (List.range (h.length + 1)).any fun i => n.isPrefixOf (h.drop i)

def dangerousSinks : List String :=
  ["exec", "system", "eval", "shell", "run_command", "execute", "sql", "query", "llm_call",
    "lcn_llm_call", "llm_complete", "build_prompt", "system_prompt"]

def isDangerousSink (name : Option String) : Bool :=
  match name with
  | none => false
  | some name => dangerousSinks.any (containsCi name)

/-! ## Collecting -/

def maxTaintedParams : Nat := 256

/-- A parameter of tainted type. -/
def taintedParam (p : AstNode) : Option String :=
  match p.typeExpr with
  | some t => if t.kind = .typeTainted then p.name else none
  | none => none

/-- `collect_tainted_params`. -/
def collectTaintedParams (params : List AstNode) : List String :=
  (params.filterMap taintedParam).take maxTaintedParams

mutual

/-- `expr_uses_tainted`. -/
def exprUsesTainted (tainted : List String) : AstNode → Bool
  | ⟨kind, name, _, left, right, params, _⟩ =>
      (kind == .ident && name.any (· ∈ tainted)) || childUsesTainted tainted left ||
        childUsesTainted tainted right || anyUsesTainted tainted params

def childUsesTainted (tainted : List String) : Option AstNode → Bool
  | none => false
  | some e => exprUsesTainted tainted e

def anyUsesTainted (tainted : List String) : List AstNode → Bool
  | [] => false
  | a :: as => exprUsesTainted tainted a || anyUsesTainted tainted as

end

mutual

/-- `is_taint_source`. -/
def isTaintSource : AstNode → Bool
  | ⟨kind, name, _, left, right, _, _⟩ =>
      kind == .ask || (kind == .methodCall && name == some "recv") || kind == .tell ||
        (kind == .binary && (childIsTaintSource left || childIsTaintSource right))

def childIsTaintSource : Option AstNode → Bool
  | none => false
  | some e => isTaintSource e

end

/-- The right side of a let makes its variable tainted. -/
def letIsTainted (existing out : List String) (e : AstNode) : Bool :=
  isTaintSource e ||
    (exprUsesTainted existing e || exprUsesTainted out e) ||
      (e.kind == .binary &&
        (childUsesTainted existing e.left || childUsesTainted existing e.right ||
          childUsesTainted out e.left || childUsesTainted out e.right))

/-- One statement of the block. -/
def collectStep (existing out : List String) (stmt : AstNode) : List String :=
  if maxTaintedParams ≤ out.length then out
  else if stmt.kind = .letS then
    match stmt.name, stmt.right with
    | some x, some e => if letIsTainted existing out e then out ++ [x] else out
    | _, _ => out
  else out

/-- `collect_inferred_tainted`. -/
def collectInferredTainted (existing : List String) (block : Option AstNode) : List String :=
  match block with
  | none => []
  | some b => if b.kind = .block then b.params.foldl (collectStep existing) [] else []

/-! ## Reports -/

/-- An error: what was called with tainted data, in which function. -/
inductive TaintReport where
  | sink (name : Option String) (context : String)
  | llm (hint context : String)
  deriving DecidableEq, Repr

namespace TaintReport

def message : TaintReport → String
  | sink name context =>
      let name := name.getD ""
      s!"tainted data flows to dangerous sink '{name}' in '{context}'"
  | llm _ context => s!"tainted data flows to LLM call in '{context}'"

def hint : TaintReport → String
  | sink _ _ => "sanitize tainted input before passing to this function"
  | llm hint _ => hint

end TaintReport

/-- The hint of a let and of an expression statement, and that of a return. -/
def promptHint : String :=
  "sanitize tainted input before passing to LLM — this is a potential prompt injection vector"

def promptHintReturn : String := "sanitize tainted input before passing to LLM"

section
variable (tainted : List String) (context : String)

/-! ## Dangerous sinks -/

/-- A call whose callee is a name. -/
def calleeName (e : AstNode) : Option (Option String) :=
  if e.kind = .call then
    match e.left with
    | some c => if c.kind = .ident then some c.name else none
    | none => none
  else none

/-- The expression of a statement, if there is one. -/
def checkSinkCall (expr : Option AstNode) : List TaintReport :=
  match expr with
  | none => []
  | some e =>
      match calleeName e with
      | none => []
      | some name =>
          if isDangerousSink name ∧ anyUsesTainted tainted e.params then [.sink name context]
          else []

mutual

/-- `check_taint_in_stmt`, for a list of names that is not empty. -/
def checkTaintInStmt : AstNode → List TaintReport
  | ⟨kind, _, _, left, right, params, _⟩ =>
      match kind with
      | .exprStmt | .ret | .deferS => checkSinkCall tainted context left
      | .letS | .assign => checkSinkCall tainted context right
      | .ifS => checkTaintInChild right ++ checkTaintInFirst params
      | .whileS | .forS => checkTaintInChild right
      | .loop => checkTaintInChild left
      | .block => checkTaintInStmts params
      | .matchS => checkTaintInArms params
      | _ => []

def checkTaintInChild : Option AstNode → List TaintReport
  | none => []
  | some s => checkTaintInStmt s

/-- The `else` of an `if`, the first of the list. -/
def checkTaintInFirst : List AstNode → List TaintReport
  | [] => []
  | s :: _ => checkTaintInStmt s

def checkTaintInStmts : List AstNode → List TaintReport
  | [] => []
  | s :: ss => checkTaintInStmt s ++ checkTaintInStmts ss

def checkTaintInArm : AstNode → List TaintReport
  | ⟨kind, _, _, _, right, _, _⟩ => if kind = .matchArm then checkTaintInChild right else []

def checkTaintInArms : List AstNode → List TaintReport
  | [] => []
  | a :: as => checkTaintInArm a ++ checkTaintInArms as

end

/-! ## LLM calls -/

/-- `is_llm_call`. -/
def isLlmCall (e : AstNode) : Bool :=
  e.kind == .ask ||
    (match calleeName e with
      | some (some name) =>
          name == "ask" || containsCi name "llm" || containsCi name "complete" ||
            containsCi name "prompt"
      | _ => false) ||
    (e.kind == .methodCall && (e.name == some "complete" || e.name == some "call"))

def checkLlmCall (hint : String) (expr : Option AstNode) : List TaintReport :=
  match expr with
  | none => []
  | some e =>
      if isLlmCall e then
        if (if e.kind = .ask then
            childUsesTainted tainted e.left || childUsesTainted tainted e.right
          else anyUsesTainted tainted e.params) then [.llm hint context]
        else []
      else []

mutual

/-- `check_prompt_injection`, for a list of names that is not empty. -/
def checkPromptInjection : AstNode → List TaintReport
  | ⟨kind, _, _, left, right, params, _⟩ =>
      match kind with
      | .exprStmt => checkLlmCall tainted context promptHint left
      | .letS => checkLlmCall tainted context promptHint right
      | .ret => checkLlmCall tainted context promptHintReturn left
      | .block => checkPromptInStmts params
      | .ifS => checkPromptInChild right ++ checkPromptInFirst params
      | _ => []

def checkPromptInChild : Option AstNode → List TaintReport
  | none => []
  | some s => checkPromptInjection s

def checkPromptInFirst : List AstNode → List TaintReport
  | [] => []
  | s :: _ => checkPromptInjection s

def checkPromptInStmts : List AstNode → List TaintReport
  | [] => []
  | s :: ss => checkPromptInjection s ++ checkPromptInStmts ss

end

end

/-! ## Functions and programs -/

/-- A function, a method or a tool: `left` is its body. -/
structure TaintFn where
  name : Option String
  params : List AstNode := []
  body : Option AstNode := none

/-- All names that count as tainted. -/
def TaintFn.allTainted (fn : TaintFn) : List String :=
  let tainted := collectTaintedParams fn.params
  tainted ++ collectInferredTainted tainted fn.body

/-- `check_taint_in_fn`. -/
def checkTaintInFn (context : Option String) (fn : TaintFn) : List TaintReport :=
  let all := fn.allTainted
  if all = [] then []
  else
    match fn.body with
    | none => []
    | some body =>
        checkTaintInStmt all (context.getD "<fn>") body ++
          checkPromptInjection all (context.getD "<fn>") body

/-- A declaration of the program; the functions are those among the members. -/
inductive TaintDecl where
  | fn (f : TaintFn)
  | agent (name : Option String) (methods : List TaintFn)
  | tool (f : TaintFn)
  | other

/-- `"%s.%s"` into 512 bytes. -/
def methodContext (agent method : Option String) : String :=
  String.ofList (((agent.getD "<agent>") ++ "." ++ (method.getD "<fn>")).toList.take 511)

/-- What is checked, each function with its context. -/
def TaintDecl.fns : TaintDecl → List (Option String × TaintFn)
  | .fn f | .tool f => [(f.name, f)]
  | .agent name methods => methods.map fun f => (some (methodContext name f.name), f)
  | .other => []

/-- `check_taint`. -/
def checkTaint (decls : List TaintDecl) : List TaintReport :=
  (decls.flatMap TaintDecl.fns).flatMap fun cf => checkTaintInFn cf.1 cf.2

end Limceron.Typecheck
