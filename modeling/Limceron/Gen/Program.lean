/-
# `Limceron.Gen.Program` — functions, agents and programs

`ir_gen_program` lowers the declarations in order.  What a function leaves
behind for the next one is the registries and, in principle, the scope: its
variables are popped at the end.

Next to each `IrFunction` the result keeps where it came from (`Origin`) and
the calls of its source.
-/
import Limceron.Gen.Lower

namespace Limceron.Gen

/-- The declaration an `IrFunction` is lowered from.  An agent is named by its
place among the agents as well, so that two agents of one name stay apart. -/
inductive Origin where
  | main (name : String)
  | ofModule (stem name : String)
  | ofAgent (index : Nat) (agent name : String)
  | trampoline
  deriving DecidableEq, Repr

/-- A function with its origin, and its calls with the symbols they got. -/
structure Lowered where
  origin : Origin
  fn : IrFunction
  calls : List (CallRef × String)

/-- `IR_MAX_PARAMS`. -/
def maxParams : Nat := 16

/-- `ir_function_add_param` for each parameter; the 17th is dropped. -/
def addParams (params : List Param) : List IrParam :=
  (params.take maxParams).mapIdx
    (fun k p => { name := p.name, type := astTypeToIr p.type, valueId := k })

/-- `ir_function_new` and its parameters. -/
def functionNew (params : List Param) : GenM Unit :=
  modify (fun s =>
    { s with
      params := addParams params, blocks := [], currentBb := 0
      nextValue := (addParams params).length, calls := [] })

/-- The function under construction. -/
def functionDone (origin : Origin) (symbol : String) (retType : IrType) : GenM Lowered := fun s =>
  ({ origin := origin
     fn :=
      { name := symbol, returnType := retType, params := s.params, blocks := s.blocks
        currentBb := some s.currentBb, nextValue := s.nextValue }
     calls := s.calls }, s)

/-- Where a top-level function comes from. -/
def FnDecl.origin (d : FnDecl) : Origin :=
  match d.stem with
  | some stem => if stem ≠ "" then .ofModule stem d.name else .main d.name
  | none => .main d.name

section
variable (wit : HostErrors)

/-! ## Functions -/

/-- The body of a function that returns a value: the last expression is returned. -/
def irgenFnTail : List Stmt → GenM Unit
  | [] => return ()
  | [.expr e] => do
      let val ← irgenExpr wit e
      if 0 ≤ val then emitRet val
  | s :: ss => do
      irgenStmt wit s
      irgenFnTail ss

/-- The statements of a body; a function without result has no tail. -/
def irgenFnStmts (body : List Stmt) (retType : IrType) : GenM Unit :=
  if retType = .void then irgenStmts wit body else irgenFnTail wit body

/-- `irgen_fn_body`. -/
def irgenFnBody (body : List Stmt) (retType : IrType) : GenM Unit := do
  irgenFnStmts wit body retType
  if ¬ (← terminated) then emitRetVoid

/-- `irgen_function`. -/
def irgenFunction (d : FnDecl) : GenM Lowered := do
  let retType := astTypeToIr d.returnType
  functionNew d.params
  modify (fun s => { s with names := s.names.registerFn d.name retType })
  scopePush
  let _ ← bbNew "entry"
  irgenFnBody wit d.body retType
  scopePop
  functionDone (FnDecl.origin d) (fnSymbol d) retType

/-! ## Agents -/

/-- `irgen_agent_function_named`. -/
def irgenAgentFunctionNamed (origin : Origin) (d : FnDecl) (symbol : String) : GenM Lowered := do
  let retType := astTypeToIr d.returnType
  functionNew d.params
  scopePush
  let _ ← bbNew "entry"
  irgenFnBody wit d.body retType
  scopePop
  functionDone origin symbol retType

/-- The return of the trampoline. -/
def emitRetOf (retType : IrType) (value : Int) : GenM Unit :=
  if retType = .void then emitRetVoid else emitRet value

/-- `irgen_emit_main_trampoline`. -/
def irgenEmitMainTrampoline (d : FnDecl) (mangled : String) : GenM Lowered := do
  let retType := astTypeToIr d.returnType
  functionNew d.params
  let _ ← bbNew "entry"
  let forwarded := (← get).params.map (·.valueId)
  let call ← emitCall mangled retType forwarded
  emitRetOf retType call
  functionDone .trampoline "lcn_main" retType

/-- Pass B of `irgen_agent`. -/
def irgenAgentFns (index : Nat) (agent : String) : List FnDecl → GenM (List Lowered)
  | [] => return []
  | d :: ds => do
      let symbol := agentFnSymbol (← get).names (kebabCase agent) d
      let l ← irgenAgentFunctionNamed wit (.ofAgent index agent d.name) d symbol
      return l :: (← irgenAgentFns index agent ds)

/-- Pass C of `irgen_agent`: the first agent with a `main` gets the trampoline. -/
def irgenAgentMain (names : Registries) (kebab : String) (fns : List FnDecl) :
    GenM (List Lowered) :=
  match fns.find? (fun d => d.name == "main"), names.hasUnmangledMain with
  | some d, false => do
      let mangled := agentFnSymbol { names with currentAgentKebab := some kebab } kebab d
      let t ← irgenEmitMainTrampoline d mangled
      modify (fun s =>
        { s with names :=
          { s.names with hasUnmangledMain := true }.registerFn "main" (astTypeToIr d.returnType) })
      return [t]
  | _, _ => return []

/-- `irgen_agent`: registration, the functions, the trampoline. -/
def irgenAgent (index : Nat) (a : AgentDecl) : GenM (List Lowered) := do
  let kebab := kebabCase a.name
  modify (fun s =>
    { s with names :=
      { s.names.registerAgentFns kebab a.fns with currentAgentKebab := some kebab } })
  let fns ← irgenAgentFns wit index a.name a.fns
  modify (fun s => { s with names := { s.names with currentAgentKebab := none } })
  let trampoline ← irgenAgentMain (← get).names kebab a.fns
  return fns ++ trampoline

/-! ## Programs -/

/-- The second pass of `ir_gen_program`; `index` counts the agents. -/
def irgenDecls : Nat → List Decl → GenM (List Lowered)
  | _, [] => return []
  | index, .fn d :: ds => do
      let l ← irgenFunction wit d
      return l :: (← irgenDecls index ds)
  | index, .agent a :: ds => do
      let ls ← irgenAgent wit index a
      return ls ++ (← irgenDecls (index + 1) ds)
  | index, .other :: ds => irgenDecls index ds

/-- The first pass of `ir_gen_program`. -/
def firstPass (p : Program) : Registries := p.decls.foldl Registries.preRegister {}

/-- The functions of a program in the order of the module. -/
def lowerProgram (p : Program) : List Lowered :=
  (irgenDecls wit 0 p.decls { names := firstPass p }).1

/-- `ir_gen_program`. -/
def irGenProgram (p : Program) : IrModule := ⟨(lowerProgram wit p).map (·.fn)⟩

end

end Limceron.Gen
