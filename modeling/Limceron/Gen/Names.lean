/-
# `Limceron.Gen.Names` — mangled names and the registries

Three registries resolve calls while functions are lowered:

| registry | key | filled |
| :-- | :-- | :-- |
| functions | name | before lowering, and again at each top-level function |
| agent functions | agent in snake case, name | when the agent is lowered |
| module functions | module stem, name | before lowering |

Each holds 256 entries and drops the rest.  Identifiers are ASCII, so a
character is a byte.
-/
import Limceron.IR.Syntax
import Limceron.Lang.Ast

namespace Limceron.Gen

/-- `ast_type_to_ir`. -/
def astTypeToIr : Option TypeExpr → IrType
  | none => .void
  | some (.named name) =>
      if name = "int" ∨ name = "i64" then .i64
      else if name = "float" ∨ name = "f64" then .f64
      else if name = "bool" then .bool
      else if name = "string" ∨ name = "str" then .string
      else if name = "void" then .void
      else if name = "Json" then .i64
      else .ptr
  | some .ref | some .ptr => .ptr
  | some .other => .void

/-! ## Mangling -/

/-- `snprintf` into a buffer of 256. -/
def snprintf256 (s : String) : String := String.ofList (s.toList.take 255)

/-- The characters `kebab_case` writes when there is room for all of them. -/
def kebabChars : Bool → List Char → List Char
  | _, [] => []
  | prevWasLower, c :: cs =>
      if 'A' ≤ c ∧ c ≤ 'Z' then
        if prevWasLower then '_' :: c.toLower :: kebabChars false cs
        else c.toLower :: kebabChars false cs
      else if 'a' ≤ c ∧ c ≤ 'z' then c :: kebabChars true cs
      else c :: kebabChars false cs

/-- `kebab_case` into a buffer of 128. -/
def kebabCase (src : String) : String := String.ofList ((kebabChars false src.toList).take 127)

/-- The symbol of a function of the main file. -/
def mainSymbol (name : String) : String := snprintf256 ("lcn_" ++ name)

/-- The symbol of a function of a module or an agent. -/
def scopedSymbol (scope name : String) : String :=
  snprintf256 ("lcn___" ++ scope ++ "_" ++ name)

/-! ## Registries -/

structure AgentFn where
  agentKebab : String
  fnName : String
  irSymbol : String
  retType : IrType
  deriving DecidableEq, Repr

structure ModuleFn where
  moduleStem : String
  fnName : String
  irSymbol : String
  retType : IrType
  deriving DecidableEq, Repr

/-- The part of `IrGenContext` that outlives a function. -/
structure Registries where
  fnRegistry : List (String × IrType) := []
  agentFnRegistry : List AgentFn := []
  moduleFnRegistry : List ModuleFn := []
  currentAgentKebab : Option String := none
  hasUnmangledMain : Bool := false
  deriving DecidableEq, Repr

def maxFns : Nat := 256
def maxAgentFns : Nat := 256
def maxModuleFns : Nat := 256

namespace Registries

/-- `irgen_register_fn`. -/
def registerFn (r : Registries) (name : String) (retType : IrType) : Registries :=
  if r.fnRegistry.length < maxFns then { r with fnRegistry := r.fnRegistry ++ [(name, retType)] }
  else r

/-- `irgen_lookup_fn_ret`. -/
def lookupFnRet (r : Registries) (name : String) : IrType :=
  match r.fnRegistry.find? (fun e => e.1 == name) with
  | some e => e.2
  | none => .void

/-- `irgen_lookup_agent_local`. -/
def lookupAgentLocal (r : Registries) (callee : String) : Option AgentFn :=
  match r.currentAgentKebab with
  | none => none
  | some kebab =>
      r.agentFnRegistry.find? (fun e => e.agentKebab == kebab && e.fnName == callee)

/-- `irgen_lookup_module_fn`. -/
def lookupModuleFn (r : Registries) (moduleStem fnName : String) : Option ModuleFn :=
  r.moduleFnRegistry.find? (fun e => e.moduleStem == moduleStem && e.fnName == fnName)

/-- The symbol and the return type that `irgen_call` puts into an `IR_CALL`. -/
def callTarget (r : Registries) (callee : String) : String × IrType :=
  match r.lookupAgentLocal callee with
  | some e => (e.irSymbol, e.retType)
  | none => (mainSymbol callee, r.lookupFnRet callee)

/-- The first pass of `ir_gen_program` at one declaration. -/
def preRegister (r : Registries) : Decl → Registries
  | .fn d =>
      let retType := astTypeToIr d.returnType
      let r := r.registerFn d.name retType
      match d.stem with
      | some stem =>
          if stem ≠ "" ∧ r.moduleFnRegistry.length < maxModuleFns then
            { r with moduleFnRegistry := r.moduleFnRegistry ++
                [{ moduleStem := stem, fnName := d.name
                   irSymbol := scopedSymbol stem d.name, retType := retType }] }
          else r
      | none => r
  | _ => r

/-- Pass A of `irgen_agent`: the functions of the agent, until the table is full. -/
def registerAgentFns (r : Registries) (kebab : String) : List FnDecl → Registries
  | [] => r
  | d :: ds =>
      if maxAgentFns ≤ r.agentFnRegistry.length then r
      else
        registerAgentFns { r with agentFnRegistry := r.agentFnRegistry ++
          [{ agentKebab := kebab, fnName := d.name, irSymbol := scopedSymbol kebab d.name
             retType := astTypeToIr d.returnType }] } kebab ds

end Registries

/-- The symbol `irgen_function` gives to a top-level function. -/
def fnSymbol (d : FnDecl) : String :=
  match d.stem with
  | some stem => if stem ≠ "" then scopedSymbol stem d.name else mainSymbol d.name
  | none => mainSymbol d.name

/-- The symbol `irgen_agent` gives to a function of the agent. -/
def agentFnSymbol (r : Registries) (kebab : String) (d : FnDecl) : String :=
  match r.lookupAgentLocal d.name with
  | some e => e.irSymbol
  | none => scopedSymbol kebab d.name

end Limceron.Gen
