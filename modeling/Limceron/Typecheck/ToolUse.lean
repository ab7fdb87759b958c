/-
# `Limceron.Typecheck.ToolUse` — which tools an agent calls, and may call

Two passes walk over the methods of every agent for calls of tools:

| pass | an error |
| :-- | :-- |
| `check_capabilities` | the tool requires a capability that is unknown, or that the agent lacks |
| `check_budgets` | there is a call, and the agent has no field `budget` |

The walk is one function for expressions and one for statements; which of the
two goes on at a child depends on the kind of the parent.  A tool is known by
the symbol table, and all the lists are bounded: 4096 symbols, 256 tools, 512
capabilities, 128 for an agent, 64 for a tool.
-/
import Limceron.Lang.Node
import Limceron.Typecheck.Verdict

namespace Limceron.Typecheck

open AstNode

/-! ## Declarations -/

inductive SymKind where
  | fn | agent | tool | capability | guard | guardset | budget | taint | struct | enum | trait
  | interface | const | supervisor | skill | prompt | mesh | memory | channel | router | strategy
  | letS | typeAlias
  deriving DecidableEq, Repr

/-- A field of an agent or a tool. -/
structure DeclField where
  name : Option String
  value : Option AstNode := none

/-- A function of an agent. -/
structure Method where
  name : Option String
  body : Option AstNode := none

/-- A declaration.  Those of other kinds (`use`, `impl`) have no symbol. -/
structure Decl where
  kind : Option SymKind
  name : Option String
  fields : List DeclField := []
  methods : List Method := []
  items : List (Option String) := []

/-! ## The symbol table -/

structure Symbol where
  name : String
  kind : SymKind
  decl : Decl

def maxSymbols : Nat := 4096

structure SymbolTable where
  entries : List Symbol := []
  bounded : entries.length ≤ maxSymbols := by decide

namespace SymbolTable

/-- `symtab_find`. -/
def find (st : SymbolTable) (name : String) : Option Symbol :=
  st.entries.find? fun s => s.name = name

/-- `symtab_find_kind`. -/
def findKind (st : SymbolTable) (name : String) (kind : SymKind) : Option Symbol :=
  st.entries.find? fun s => s.kind = kind ∧ s.name = name

end SymbolTable

/-- `report_error_fmt`. -/
def errorFmt (message hint : String) : Diagnostic where
  message := String.ofList (message.toList.take 511)
  hint := some hint
  isWarning := false

def duplicateError (name : String) : Diagnostic :=
  errorFmt s!"duplicate declaration: '{name}'" "previous declaration was here"

def tableFullError : Diagnostic where
  message := "too many declarations (symbol table full)"
  hint := some "reduce the number of top-level declarations"
  isWarning := false

/-- `symtab_add`; the second component is what has been reported. -/
def symtabAdd (st : SymbolTable × List Diagnostic) (name : Option String) (kind : SymKind)
    (decl : Decl) : SymbolTable × List Diagnostic :=
  match name with
  | none => st
  | some name =>
      if (st.1.findKind name kind).isSome then (st.1, st.2 ++ [duplicateError name])
      else
        if h : maxSymbols ≤ st.1.entries.length then (st.1, st.2 ++ [tableFullError])
        else
          ({ entries := st.1.entries ++ [{ name, kind, decl }]
             bounded := by
              rw [List.length_append, List.length_singleton]
              exact Nat.lt_of_not_le h }, st.2)

/-- A function of an agent, unless its name is taken. -/
def registerMethod (st : SymbolTable × List Diagnostic) (m : Method) :
    SymbolTable × List Diagnostic :=
  match m.name with
  | none => st
  | some name =>
      if (st.1.find name).isSome then st
      else symtabAdd st (some name) .fn { kind := some .fn, name := some name }

def registerDecl (st : SymbolTable × List Diagnostic) (d : Decl) :
    SymbolTable × List Diagnostic :=
  match d.kind with
  | none => st
  | some kind =>
      let st := symtabAdd st d.name kind d
      if kind = .agent then d.methods.foldl registerMethod st else st

/-- `register_declarations`. -/
def registerDeclarations (decls : List Decl) : SymbolTable × List Diagnostic :=
  decls.foldl registerDecl ({}, [])

/-! ## Lists of capabilities -/

def maxCapItems : Nat := 512

def maxAgentCaps : Nat := 128

def maxToolRequires : Nat := 64

/-- `build_cap_registry`, by qualified names. -/
def buildCapRegistry (decls : List Decl) : List String :=
  ((decls.filter fun d => d.kind = some .capability).flatMap fun d =>
    d.items.filterMap fun item =>
      item.map fun name => d.name.getD "" ++ "." ++ name).take maxCapItems

/-- An element of a list: its name, or its text if it is an identifier. -/
def entryName (e : AstNode) : Option String :=
  match e.name with
  | some name => some name
  | none => if e.kind = .ident then e.val else none

/-- The entries of the first field of that name. -/
def fieldEntries (name : String) (fields : List DeclField) : List String :=
  match fields.find? fun f => f.name = some name with
  | none => []
  | some f =>
      match f.value with
      | none => []
      | some arr => if arr.kind = .array then arr.params.filterMap entryName else []

/-- `collect_agent_caps`. -/
def collectAgentCaps (agent : Decl) : List String :=
  (fieldEntries "capabilities" agent.fields).take maxAgentCaps

/-- `collect_tool_requires`. -/
def collectToolRequires (tool : Decl) : List String :=
  (fieldEntries "requires" tool.fields).take maxToolRequires

/-! ## The walk -/

/-- The function that goes on: `find_tool_calls_in_expr`, or `find_tool_calls_in_stmt`.
On a block `find_tool_calls_in_block` goes through the statements, and otherwise it
is the function for statements, which does the same on a block. -/
inductive Mode where
  | expr | stmt
  deriving DecidableEq

/-- The parts of an arm. -/
def armNext (kind : AstKind) (next : AstNode → List (Mode × AstNode)) (arm : AstNode) :
    List (Mode × AstNode) :=
  if arm.kind = kind then next arm else []

/-- `find_tool_calls_in_expr`: where it goes from an expression. -/
def exprNext (n : AstNode) : List (Mode × AstNode) :=
  let left (m : Mode) := n.left.toList.map fun c => (m, c)
  let right (m : Mode) := n.right.toList.map fun c => (m, c)
  match n.kind with
  | .call | .methodCall | .hostCall => left .expr ++ n.params.map fun c => (.expr, c)
  | .binary | .index | .pipe | .range | .tryOtherwise | .each | .keepWhere | .repeatS
  | .waitUntil => left .expr ++ right .expr
  | .unary | .fieldAccess | .cast | .isExpr | .refE | .deref | .tryE | .awaitE | .spawn
  | .resultOk | .resultErr | .ask | .tell | .ensure => left .expr
  | .ifS => left .expr ++ right .stmt ++ n.params.head?.toList.map fun c => (.stmt, c)
  | .tryCatch => left .stmt ++ right .stmt
  | .closure => left .stmt
  | .array | .tuple => n.params.map fun c => (.expr, c)
  | .map => n.params.flatMap (armNext .mapEntry fun e =>
      (e.left.toList.map fun c => (.expr, c)) ++ e.right.toList.map fun c => (.expr, c))
  | .matchS => left .expr ++ n.params.flatMap (armNext .matchArm fun a =>
      a.right.toList.map fun c => (.stmt, c))
  | .select => n.params.flatMap (armNext .selectArm fun a =>
      (a.left.toList.map fun c => (.expr, c)) ++ a.right.toList.map fun c => (.stmt, c))
  | .interpString => (n.params.filter fun c => c.kind != .stringLit).map fun c => (.expr, c)
  | .intLit | .floatLit | .stringLit | .boolLit | .noneLit | .ident => []
  | _ => left .expr ++ right .expr

/-- `find_tool_calls_in_stmt`. -/
def stmtNext (n : AstNode) : List (Mode × AstNode) :=
  let left (m : Mode) := n.left.toList.map fun c => (m, c)
  let right (m : Mode) := n.right.toList.map fun c => (m, c)
  match n.kind with
  | .letS => right .expr
  | .ret | .deferS | .exprStmt => left .expr
  | .assign => left .expr ++ right .expr
  | .ifS => left .expr ++ right .stmt ++ n.params.head?.toList.map fun c => (.stmt, c)
  | .whileS => left .expr ++ right .stmt
  | .loop => left .stmt
  | .forS => (n.params.head?.toList.map fun c => (.expr, c)) ++ right .stmt
  | .block => n.params.map fun c => (.stmt, c)
  | .matchS => left .expr ++ n.params.flatMap (armNext .matchArm fun a =>
      a.right.toList.map fun c => (.stmt, c))
  | .breakS | .continueS => []
  | _ => left .expr ++ right .expr

def walkNext (p : Mode × AstNode) : List (Mode × AstNode) :=
  match p.1 with
  | .expr => exprNext p.2
  | .stmt => stmtNext p.2

/-- A call of a known tool. -/
def toolCallAt (tools : List String) (p : Mode × AstNode) : List String :=
  match p.1 with
  | .expr => p.2.callIdent.toList.filter fun t => tools.contains t
  | .stmt => []

/-- The walk goes on to children, and to the parts of arms and entries. -/
def Under (n : AstNode) (l : List (Mode × AstNode)) : Prop :=
  ∀ c ∈ l, c.2 ∈ n.children ∨ ∃ a ∈ n.params, c.2 ∈ a.children

namespace Under

variable {n : AstNode} {l l' : List (Mode × AstNode)}

theorem nil : Under n [] := fun _ hc => nomatch hc

theorem append (h : Under n l) (h' : Under n l') : Under n (l ++ l') := by
  intro c hc
  rcases List.mem_append.mp hc with hc | hc
  · exact h c hc
  · exact h' c hc

theorem left (m : Mode) : Under n (n.left.toList.map fun c => (m, c)) := by
  intro c hc
  obtain ⟨a, ha, rfl⟩ := List.mem_map.mp hc
  exact .inl (left_mem_children (Option.mem_toList.mp ha))

theorem right (m : Mode) : Under n (n.right.toList.map fun c => (m, c)) := by
  intro c hc
  obtain ⟨a, ha, rfl⟩ := List.mem_map.mp hc
  exact .inl (right_mem_children (Option.mem_toList.mp ha))

theorem params {as : List AstNode} (m : Mode) (h : ∀ a ∈ as, a ∈ n.params) :
    Under n (as.map fun c => (m, c)) := by
  intro c hc
  obtain ⟨a, ha, rfl⟩ := List.mem_map.mp hc
  exact .inl (params_mem_children (h a ha))

theorem first (m : Mode) : Under n (n.params.head?.toList.map fun c => (m, c)) :=
  params m fun _ ha => List.mem_of_mem_head? (Option.mem_toList.mp ha)

theorem arms {kind : AstKind} {next : AstNode → List (Mode × AstNode)}
    (h : ∀ a, ∀ c ∈ next a, c.2 ∈ a.children) : Under n (n.params.flatMap (armNext kind next)) := by
  intro c hc
  obtain ⟨a, ha, hc⟩ := List.mem_flatMap.mp hc
  rw [armNext] at hc
  split at hc
  · exact .inr ⟨a, ha, h a c hc⟩
  · cases hc

end Under

/-- The right part of an arm. -/
theorem mem_armRight {m : Mode} {a : AstNode} :
    ∀ c ∈ a.right.toList.map fun c => (m, c), c.2 ∈ a.children := by
  intro c hc
  obtain ⟨b, hb, rfl⟩ := List.mem_map.mp hc
  exact right_mem_children (Option.mem_toList.mp hb)

/-- Both parts. -/
theorem mem_armParts {m m' : Mode} {a : AstNode} :
    ∀ c ∈ (a.left.toList.map fun c => (m, c)) ++ a.right.toList.map fun c => (m', c),
      c.2 ∈ a.children := by
  intro c hc
  rcases List.mem_append.mp hc with hc | hc
  · obtain ⟨b, hb, rfl⟩ := List.mem_map.mp hc
    exact left_mem_children (Option.mem_toList.mp hb)
  · exact mem_armRight c hc

theorem exprNext_under (n : AstNode) : Under n (exprNext n) := by
  simp only [exprNext]
  cases n.kind with
  | call | methodCall | hostCall => exact (Under.left _).append (Under.params _ fun _ ha => ha)
  | unary | fieldAccess | cast | isExpr | refE | deref | tryE | awaitE | spawn | resultOk
  | resultErr | ask | tell | ensure | closure => exact Under.left _
  | ifS => exact ((Under.left _).append (Under.right _)).append (Under.first _)
  | array | tuple => exact Under.params _ fun _ ha => ha
  | map => exact Under.arms fun _ => mem_armParts
  | matchS => exact (Under.left _).append (Under.arms fun _ => mem_armRight)
  | select => exact Under.arms fun _ => mem_armParts
  | interpString => exact Under.params _ fun _ ha => List.mem_of_mem_filter ha
  | intLit | floatLit | stringLit | boolLit | noneLit | ident => exact Under.nil
  | _ => exact (Under.left _).append (Under.right _)

theorem stmtNext_under (n : AstNode) : Under n (stmtNext n) := by
  simp only [stmtNext]
  cases n.kind with
  | letS => exact Under.right _
  | ret | deferS | exprStmt | loop => exact Under.left _
  | ifS => exact ((Under.left _).append (Under.right _)).append (Under.first _)
  | forS => exact (Under.first _).append (Under.right _)
  | block => exact Under.params _ fun _ ha => ha
  | matchS => exact (Under.left _).append (Under.arms fun _ => mem_armRight)
  | breakS | continueS => exact Under.nil
  | _ => exact (Under.left _).append (Under.right _)

theorem walkNext_under (p : Mode × AstNode) : Under p.2 (walkNext p) := by
  obtain ⟨m, n⟩ := p
  cases m with
  | expr => exact exprNext_under n
  | stmt => exact stmtNext_under n

theorem wf_walkNext : WellFounded fun c p => c ∈ walkNext p := by
  refine Subrelation.wf (fun {c p} hc => ?_) (measure fun p : Mode × AstNode => sizeOf p.2).wf
  rcases walkNext_under p c hc with hc | ⟨a, ha, hc⟩
  · exact sizeOf_children hc
  · exact Nat.lt_trans (sizeOf_children hc) (sizeOf_children (params_mem_children ha))

/-- The calls of known tools, by their names, in the order of the walk. -/
def findToolCalls (tools : List String) (p : Mode × AstNode) : List String :=
  Walks.collect wf_walkNext (toolCallAt tools) p

/-- `find_tool_calls_in_agent`. -/
def findToolCallsInAgent (tools : List String) (agent : Decl) : List String :=
  agent.methods.flatMap fun m => m.body.toList.flatMap fun body => findToolCalls tools (.stmt, body)

/-! ## The passes -/

/-- `build_tool_ctx`. -/
def buildToolCtx (st : SymbolTable) : List String :=
  ((st.entries.filter fun s => s.kind = .tool).map fun s => s.name).take 256

/-- The agents of a program. -/
def agents (decls : List Decl) : List Decl := decls.filter fun d => d.kind = some .agent

def agentName (agent : Decl) : String := agent.name.getD "<anon>"

/-- `on_cap_check_tool_call`. -/
def onCapCheckToolCall (st : SymbolTable) (registry : List String) (agent : Decl) (tool : String) :
    List Diagnostic :=
  match st.findKind tool .tool with
  | none => []
  | some sym =>
      (collectToolRequires sym.decl).flatMap fun required =>
        (if registry.contains required then []
          else [errorFmt s!"tool '{tool}' requires unknown capability '{required}'"
            "declare this capability in a 'capability' block"]) ++
        if (collectAgentCaps agent).contains required then []
          else [errorFmt (s!"agent '{agentName agent}' calls tool '{tool}' but lacks " ++
            s!"required capability '{required}'")
            "add this capability to the agent's capabilities list"]

/-- One agent in `check_capabilities`. -/
def checkAgentCapabilities (st : SymbolTable) (registry : List String) (agent : Decl) :
    List Diagnostic :=
  ((collectAgentCaps agent).flatMap fun cap =>
    if registry.contains cap then []
    else [errorFmt s!"agent '{agentName agent}' references unknown capability '{cap}'"
      "declare this capability in a 'capability' block"]) ++
    (findToolCallsInAgent (buildToolCtx st) agent).flatMap (onCapCheckToolCall st registry agent)

/-- `check_capabilities`. -/
def checkCapabilities (st : SymbolTable) (registry : List String) (decls : List Decl) :
    List Diagnostic :=
  if buildToolCtx st = [] then []
  else (agents decls).flatMap (checkAgentCapabilities st registry)

/-- `agent_has_budget_field`. -/
def agentHasBudgetField (agent : Decl) : Bool :=
  agent.fields.any fun f => f.name = some "budget"

/-- `check_budgets`. -/
def checkBudgets (st : SymbolTable) (decls : List Decl) : List Diagnostic :=
  if buildToolCtx st = [] then []
  else
    (agents decls).flatMap fun agent =>
      if findToolCallsInAgent (buildToolCtx st) agent ≠ [] ∧ agentHasBudgetField agent = false then
        [errorFmt s!"agent '{agentName agent}' calls tools but has no budget"
          "add a 'budget' field to limit resource consumption"]
      else []

/-- What the passes of `typecheck_program` raise; `others` is for those that are not
about tools. -/
def toolRaises (decls : List Decl) (others : Pass → List Diagnostic) : Pass → List Diagnostic
  | .declarations => (registerDeclarations decls).2
  | .capabilities =>
      checkCapabilities (registerDeclarations decls).1 (buildCapRegistry decls) decls
  | .budgets => checkBudgets (registerDeclarations decls).1 decls
  | p => others p

end Limceron.Typecheck
