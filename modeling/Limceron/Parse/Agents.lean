/-
# `Limceron.Parse.Agents` — agents, capabilities, tools, and the whole program
-/
import Limceron.Parse.Decls

namespace Limceron.Parse

open Readers

/-! ## Fields -/

def identNode (name : Option String) : Node := { kind := .ident, name := name }

/-- The hosts in the brackets of a capability. -/
def allowlist : P (List Node) := do
  if ← accept .lbracket then
    let hosts ← commaList .rbracket (do
      let text ← expectString "host:port string in capability allowlist"
      pure ({ kind := .stringLit, val := .ofStr text } : Node))
    let _ ← expect .rbracket "after capability allowlist"
    pure hosts
  else
    fail "expected '[\"host:port\", ...]' after capability '('"
    pure []

/-- An item of an array of fields: a verb, or one with its hosts. -/
def arrayItem : P Node := do
  let qname ← parseQualifiedIdent
  if ← accept .lparen then
    let hosts ← allowlist
    let _ ← expect .rparen "after parameterised capability"
    pure { kind := .capabilityItem, name := qname, params := hosts }
  else pure (identNode qname)

def fieldItem (items : List Node) : P (List Node) := do
  let item ← .call .declField
  if ← accept .comma then pure (items ++ [item])
  else
    skipSemis
    pure (items ++ [item])

/-- What stands on the right of a field. -/
def fieldValue : P Node := do
  if ← accept .lbracket then
    let elems ← commaList .rbracket arrayItem
    let _ ← expect .rbracket "after array"
    pure { kind := .array, params := elems }
  else if ← accept .lbrace then
    skipSemis
    let items ← members noStall fieldItem []
    let _ ← expect .rbrace "after block field"
    pure { kind := .block, params := items }
  else .call (.expr .none)

def parseDeclField : P Node := do
  let name ← consumeIdentName
  let _ ← expect .colon "after field name"
  let value ← fieldValue
  pure { kind := .field, name := name, right := [value] }

/-- Fields, with semicolons or newlines after them. -/
def fieldLine (fields : List Node) : P (List Node) := do
  let field ← .call .declField
  skipSemis
  pure (fields ++ [field])

/-- Fields in braces, after `{`. -/
def fieldLines (context : String) : P (List Node) := do
  skipSemis
  let fields ← members noStall fieldLine []
  let _ ← expect .rbrace context
  pure fields

/-- Fields in braces, if they are there. -/
def optionalFields (context : String) : P (List Node) := do
  if ← accept .lbrace then fieldLines context else pure []

/-! ## Agents -/

/-- `a, b, …` after `use` in an agent. -/
def useNames : P (List Node) :=
  repeating (fun elems => do
    let name ← consumeIdentName
    if ← accept .comma then pure (.inl (elems ++ [identNode name]))
    else pure (.inr (elems ++ [identNode name]))) []

/-- A member, put to the fields or to the functions. -/
def agentMember (parts : List Node × List Node) : P (List Node × List Node) := do
  let t ← cur
  match t.kind with
  | .fnK =>
      let _ ← advance
      let fn ← parseFn false
      pure (parts.1, parts.2 ++ [fn])
  | .pubK =>
      let _ ← advance
      if ← accept .fnK then
        let fn ← parseFn true
        pure (parts.1, parts.2 ++ [fn])
      else
        let field ← .call .declField
        pure (parts.1 ++ [{ field with isPub := true }], parts.2)
  | .useK =>
      let _ ← advance
      let elems ← useNames
      let field : Node :=
        { kind := .field, name := some "use", right := [{ kind := .array, params := elems }] }
      pure (parts.1 ++ [field], parts.2)
  | _ =>
      if ← checkName then
        let field ← .call .declField
        pure (parts.1 ++ [field], parts.2)
      else
        fail "expected field or function in agent body"
        let _ ← advance
        pure parts

def agentLine (parts : List Node × List Node) : P (List Node × List Node) := do
  let parts ← agentMember parts
  skipSemis
  pure parts

def parseAgent (isPub : Bool) : P Node := do
  let name ← expectName "after 'agent'"
  let _ ← expect .lbrace "after agent name"
  skipSemis
  let parts ← members noStall agentLine ([], [])
  let _ ← expect .rbrace "after agent body"
  pure { kind := .agent, isPub := isPub, name := name, params := parts.1, left := parts.2 }

/-! ## Capabilities -/

/-- A rule that names what it allows or denies. -/
def ruleNode (kind : NodeKind) (allow : Bool) (context : String) : P Node := do
  let text ← expectString context
  pure { kind := kind, isMut := allow, name := text }

def parseCapAllowRule : P Node := do
  let kind ← consumeIdentName
  let kind ← needName .allowRule kind
  if kind = "endpoint" then
    let rule ← ruleNode .capEndpointRule true "endpoint host:port string"
    let fields ← optionalFields "after endpoint rule block"
    pure { rule with params := fields }
  else if kind = "binary" then ruleNode .capBinaryRule true "binary path string"
  else if kind = "path" then
    let rule ← ruleNode .capPathRule true "path pattern string"
    let fields ← optionalFields "after path rule block"
    pure { rule with params := fields }
  else
    fail "expected 'endpoint', 'binary', or 'path' after 'allow'"
    pure { kind := .noneLit }

def denyMessage : String := "expected 'endpoint', 'binary', 'path', or 'private_ranges' after 'deny'"

def parseCapDenyRule : P Node := do
  if ← checkName then
    let kind ← consumeIdentName
    if kind = some "private_ranges" then
      pure { kind := .capDenyRange, name := some "private_ranges" }
    else if kind = some "endpoint" then
      ruleNode .capEndpointRule false "endpoint host:port string"
    else if kind = some "binary" then ruleNode .capBinaryRule false "binary path string"
    else if kind = some "path" then ruleNode .capPathRule false "path pattern string"
    else
      fail denyMessage
      pure { kind := .noneLit }
  else
    fail denyMessage
    pure { kind := .noneLit }

/-- After `default`. -/
def parseCapDefault : P Node := do
  let _ ← expect .colon "after 'default'"
  let policy ← consumeIdentName
  let policy ← needName .defaultPolicy policy
  if policy = "allow" then pure { kind := .capDefault, isMut := true }
  else if policy = "deny" then pure { kind := .capDefault }
  else
    fail "expected 'allow' or 'deny' after 'default:'"
    pure { kind := .capDefault }

/-- `requires a, b`, if it is there. -/
def capRequires : P (List Node) := do
  if ← accept .requiresK then
    let name ← expectName "after 'requires'"
    separated .comma (do
      let name ← expectName "in requires list"
      pure (identNode name)) [identNode name]
  else pure []

def capabilityItem : P (List Node) := do
  if ← accept .allowK then
    let rule ← parseCapAllowRule
    pure [rule]
  else if ← accept .denyK then
    let rule ← parseCapDenyRule
    pure [rule]
  else if ← acceptText "default" then
    let policy ← parseCapDefault
    pure [policy]
  else if ← checkName then
    let name ← consumeIdentName
    let deps ← capRequires
    pure [{ kind := .capabilityItem, name := name, params := deps }]
  else
    fail "expected capability item, 'allow', 'deny', or 'default'"
    let _ ← advance
    pure []

def capabilityLine (items : List Node) : P (List Node) := do
  let item ← capabilityItem
  skipSemis
  pure (items ++ item)

def parseCapability (isPub : Bool) : P Node := do
  let name ← expectName "after 'capability'"
  let _ ← expect .lbrace "after capability name"
  skipSemis
  let items ← members noStall capabilityLine []
  let _ ← expect .rbrace "after capability body"
  pure { kind := .capability, isPub := isPub, name := name, params := items }

/-! ## Guards, taints, budgets -/

/-- `name: T` or `name`. -/
def typedName (name : P (Option String)) : P Node := do
  let name ← name
  let ty ← typeAnnotation
  pure { kind := .param, name := name, typeExpr := ty }

def guardParams : P (List Node) := do
  if ← accept .lparen then
    let params ← commaList .rparen (typedName (expectName "in guard parameter"))
    let _ ← expect .rparen "after guard parameters"
    pure params
  else pure []

def parseGuard (isPub : Bool) : P Node := do
  let name ← expectName "after 'guard'"
  let params ← guardParams
  let body ← .call .block
  pure { kind := .guard, isPub := isPub, name := name, params := params, left := [body] }

def parseTaintDecl : P Node := do
  let name ← expectName "after 'taint'"
  pure { kind := .taint, name := name }

/-- A declaration that is a name and fields. -/
def fieldsDecl (kind : NodeKind) (isPub : Bool) (nameContext openContext closeContext : String) :
    P Node := do
  let name ← expectName nameContext
  let _ ← expect .lbrace openContext
  let fields ← fieldLines closeContext
  pure { kind := kind, isPub := isPub, name := name, params := fields }

def parseBudget (isPub : Bool) : P Node :=
  fieldsDecl .budget isPub "after 'budget'" "after budget name" "after budget body"

def parseSupervisor (isPub : Bool) : P Node :=
  fieldsDecl .supervisor isPub "after 'supervisor'" "after supervisor name" "after supervisor body"

/-! ## Tools and skills -/

/-- After `name:` in the body of a tool. -/
def toolFieldValue : P Node := do
  if ← accept .lbracket then
    let elems ← commaList .rbracket (do
      let name ← parseQualifiedIdent
      pure (identNode name))
    let _ ← expect .rbracket "after array"
    pure { kind := .array, params := elems }
  else .call (.expr .none)

/-- The name of a token, also of a keyword. -/
def tokenName (t : Token) : Option String :=
  if t.kind = .ident then t.strVal else some (tokenKindName t.kind)

/-- A field, if a colon follows the name; else a statement, and the name is lost. -/
def toolItem (parts : List Node × List Node) : P (List Node × List Node) := do
  if ← checkName then
    let saved ← advance
    if ← accept .colon then
      let value ← toolFieldValue
      let field : Node := { kind := .field, name := tokenName saved, right := [value] }
      pure (parts.1 ++ [field], parts.2)
    else
      let stmt ← .call .statement
      pure (parts.1, parts.2 ++ [stmt])
  else
    let stmt ← .call .statement
    pure (parts.1, parts.2 ++ [stmt])

def toolLine (parts : List Node × List Node) : P (List Node × List Node) := do
  let parts ← toolItem parts
  skipSemis
  pure parts

def parseTool (isPub : Bool) : P Node := do
  let name ← expectName "after 'tool'"
  let _ ← expect .lparen "after tool name"
  let params ← commaList .rparen (typedName (identName "in tool parameter"))
  let _ ← expect .rparen "after tool parameters"
  let result ← returnType
  let _ ← expect .lbrace "after tool signature"
  skipSemis
  let parts ← members noStall toolLine ([], [])
  let _ ← expect .rbrace "after tool body"
  let body : List Node := if parts.2.isEmpty then [] else [{ kind := .block, params := parts.2 }]
  pure { kind := .tool, isPub := isPub, name := name, params := params, typeExpr := result,
         right := parts.1, left := body }

def skillMember : P (List Node) := do
  let t ← cur
  match t.kind with
  | .useK =>
      let _ ← advance
      let use ← parseUseDecl
      pure [use]
  | .toolK =>
      let _ ← advance
      let tool ← parseTool false
      pure [tool]
  | .pubK =>
      let _ ← advance
      if ← accept .toolK then
        let tool ← parseTool true
        pure [tool]
      else
        let field ← .call .declField
        pure [{ field with isPub := true }]
  | .fnK =>
      let _ ← advance
      let fn ← parseFn false
      pure [fn]
  | _ =>
      if ← checkName then
        let field ← .call .declField
        pure [field]
      else
        fail "expected field, use, tool, or fn in skill body"
        let _ ← advance
        pure []

def skillLine (items : List Node) : P (List Node) := do
  let item ← skillMember
  skipSemis
  pure (items ++ item)

def parseSkill (isPub : Bool) : P Node := do
  let name ← expectName "after 'skill'"
  let _ ← expect .lbrace "after skill name"
  skipSemis
  let items ← members noStall skillLine []
  let _ ← expect .rbrace "after skill body"
  pure { kind := .skill, isPub := isPub, name := name, params := items }

/-! ## Progress, meshes, routers, metrics, health -/

/-- `total` is on the left, `current` on the right; other fields are dropped. -/
def progressField (node : Node) : P Node := do
  let fname ← consumeIdentName
  let _ ← expect .colon "after field name in progress block"
  let value ← .call (.expr .none)
  let fname ← needName .progressField fname
  let node : Node :=
    if fname = "total" then { node with left := [value] }
    else if fname = "current" then { node with right := [value] }
    else node
  if ← accept .comma then pure node
  else
    skipSemis
    pure node

def parseProgress : P Node := do
  let _ ← expect .lbrace "after 'progress'"
  skipSemis
  let node ← members noStall progressField { kind := .progress }
  let _ ← expect .rbrace "after progress body"
  pure node

/-- `parse_mesh_ident_list`: the names, and whether they stood in brackets. -/
def parseMeshIdentList : P (List Node × Bool) := do
  if ← accept .lbracket then
    let names ← commaList .rbracket (do
      let name ← expectName "agent name in mesh route list"
      pure (identNode name))
    let _ ← expect .rbracket "after mesh route list"
    pure (names, true)
  else
    let name ← expectName "agent name in mesh route"
    pure ([identNode name], false)

def meshRoute : P Node := do
  let (source, isList) ← parseMeshIdentList
  let _ ← expect .arrow "after mesh route source"
  let (target, toList) ← parseMeshIdentList
  pure { kind := .meshRoute, left := source, isMut := isList, right := target, isUnsafe := toList }

def meshStage : P Node := do
  let label ← expectString "stage name"
  let _ ← expect .arrow "after stage name"
  let name ← expectName "agent name in mesh stage"
  let config ← optionalFields "after stage config"
  pure { kind := .meshStage, val := .ofStr label, name := name, params := config }

def meshMember : P (List Node) := do
  if ← accept .routeK then
    let route ← meshRoute
    pure [route]
  else if ← acceptText "stage" then
    let stage ← meshStage
    pure [stage]
  else if ← checkName then
    let field ← .call .declField
    pure [field]
  else
    fail "expected 'route', 'stage', or field in mesh body"
    let _ ← advance
    pure []

def meshLine (items : List Node) : P (List Node) := do
  let item ← meshMember
  skipSemis
  pure (items ++ item)

def parseMesh (isPub : Bool) : P Node := do
  let name ← expectName "after 'mesh'"
  let _ ← expect .lbrace "after mesh name"
  skipSemis
  let items ← members noStall meshLine []
  let _ ← expect .rbrace "after mesh body"
  pure { kind := .mesh, isPub := isPub, name := name, params := items }

def routeRule : P Node := do
  let tier ← expectString "route tier name"
  let _ ← expect .arrow "after route tier"
  let _ ← expect .lbracket "in route model list"
  let models ← commaList .rbracket (do
    let name ← expectName "model name"
    pure (identNode name))
  let _ ← expect .rbracket "after model list"
  pure { kind := .routeRule, val := .ofStr tier, params := models }

def routerMember : P (List Node) := do
  if ← accept .routeK then
    let rule ← routeRule
    pure [rule]
  else if ← checkName then
    let field ← .call .declField
    pure [field]
  else
    fail "expected 'route' or field in router body"
    let _ ← advance
    pure []

def routerLine (items : List Node) : P (List Node) := do
  let item ← routerMember
  skipSemis
  pure (items ++ item)

def parseRouter (isPub : Bool) : P Node := do
  let name ← expectName "after 'router'"
  let _ ← expect .lbrace "after router name"
  skipSemis
  let items ← members noStall routerLine []
  let _ ← expect .rbrace "after router body"
  pure { kind := .router, isPub := isPub, name := name, params := items }

/-- After `port`: the number. -/
def metricsPort (port : Int) : P Int := do
  let _ ← expect .colon "after 'port'"
  let t ← cur
  if t.kind = .intLit then
    let _ ← advance
    pure t.intVal
  else
    fail "expected integer port number"
    let _ ← advance
    pure port

/-- After `counter`, `gauge` or `histogram`. -/
def metricsField (kw : Option String) : P Node := do
  let name ← expectName "metric name"
  let text ← expectString "metric description"
  pure { kind := .metricsField, isMut := kw = some "gauge", isPub := kw = some "histogram",
         name := name, val := .ofStr text }

def metricsMember (parts : List Node × Int) : P (List Node × Int) := do
  let t ← cur
  if t.kind = .ident then
    if t.strVal ∈ [some "counter", some "gauge", some "histogram"] then
      let _ ← advance
      let field ← metricsField t.strVal
      pure (parts.1 ++ [field], parts.2)
    else if t.strVal = some "port" then
      let _ ← advance
      let port ← metricsPort parts.2
      pure (parts.1, port)
    else
      let field ← .call .declField
      pure (parts.1 ++ [field], parts.2)
  else
    fail "expected 'counter', 'gauge', 'histogram', or 'port' in metrics body"
    let _ ← advance
    pure parts

def metricsLine (parts : List Node × Int) : P (List Node × Int) := do
  let parts ← metricsMember parts
  skipSemis
  pure parts

def parseMetrics : P Node := do
  let _ ← expect .lbrace "after 'metrics'"
  skipSemis
  let parts ← members noStall metricsLine ([], 9091)
  let _ ← expect .rbrace "after metrics body"
  pure { kind := .metrics, val := .int parts.2, params := parts.1 }

/-- What a field of `health` puts into the node. -/
def healthField (node field : Node) : Node :=
  let node : Node :=
    match field.name, field.right with
    | some "ready", right => { node with left := right }
    | some "live", right => { node with right := right }
    | some "port", [{ kind := .intLit, val := v, .. }] => { node with val := v }
    | _, _ => node
  { node with params := node.params ++ [field] }

def healthLine (node : Node) : P Node := do
  let field ← .call .declField
  skipSemis
  pure (healthField node field)

def parseHealth : P Node := do
  let _ ← expect .lbrace "after 'health'"
  skipSemis
  let node ← members noStall healthLine { kind := .health, val := .int 9090 }
  let _ ← expect .rbrace "after health body"
  pure node

/-! ## Declarations -/

def parseInvariant (isPub : Bool) : P Node := do
  let name ← expectName "after 'invariant'"
  let _ ← expect .lbrace "after invariant name"
  skipSemis
  let e ← .call (.expr .none)
  skipSemis
  let _ ← expect .rbrace "after invariant body"
  pure { kind := .invariant, isPub := isPub, name := name, left := [e] }

/-- After `extern`. -/
def parseExtern (isPub : Bool) : P Node := do
  let _ ← expect .fnK "after 'extern'"
  let name ← expectName "function name"
  let _ ← expect .lparen "after function name"
  let params ← commaList .rparen (paramAfter false)
  let _ ← expect .rparen "after parameters"
  let result ← returnType
  pure { kind := .fn, isPub := isPub, isUnsafe := true, name := name, params := params,
         typeExpr := result }

def parseLink : P Node := do
  let flags ← expectString "link flags string"
  pure { kind := .link, val := .ofStr flags }

def pubMessage : String :=
  "'pub' can only be used before fn, struct, enum, trait, interface, type, const, " ++
    "agent, capability, guard, budget, tool, skill, or supervisor"

/-- A statement, where no declaration begins. -/
def statementDecl (isPub : Bool) : P Node := do
  if isPub then
    fail pubMessage
    .call .statement
  else .call .statement

/-- The declarations that begin with a keyword. -/
def keywordDecl (isPub : Bool) : TokenKind → Option (P Node)
  | .fnK => some (parseFn isPub)
  | .structK => some (parseStruct isPub)
  | .enumK => some (parseEnum isPub)
  | .traitK => some (parseTrait isPub)
  | .interfaceK => some (parseInterface isPub)
  | .implK => some parseImpl
  | .typeK => some (parseTypeAlias isPub)
  | .constK => some (parseConstDecl isPub)
  | .modK => some parseModuleDecl
  | .useK => some parseUseDecl
  | .agentK => some (parseAgent isPub)
  | .capabilityK => some (parseCapability isPub)
  | .guardK => some (parseGuard isPub)
  | .taintK => some parseTaintDecl
  | .budgetK => some (parseBudget isPub)
  | .toolK => some (parseTool isPub)
  | .skillK => some (parseSkill isPub)
  | .supervisorK => some (parseSupervisor isPub)
  | .meshK => some (parseMesh isPub)
  | .routerK => some (parseRouter isPub)
  | .progressK => some parseProgress
  | .comptimeK => some do
      let body ← .call .block
      pure { kind := .comptime, isPub := isPub, left := [body] }
  | .invariantK => some (parseInvariant isPub)
  | _ => none

/-- The declarations that begin with a name. -/
def namedDecl (isPub : Bool) : Option String → Option (P Node)
  | some "health" => some parseHealth
  | some "metrics" => some parseMetrics
  | some "link" => some parseLink
  | some "extern" => some (parseExtern isPub)
  | _ => none

/-- The declaration that begins with a token, if one does. -/
def declOf (isPub : Bool) (t : Token) : Option (P Node) :=
  if t.kind = .ident then namedDecl isPub t.strVal else keywordDecl isPub t.kind

def withAttributes (attrs : List Node) (decl : Node) : Node :=
  if attrs.isEmpty then decl else { decl with attributes := attrs }

def parseDeclaration : P Node := do
  let attrs ← parseAttributes
  let isPub ← accept .pubK
  let t ← cur
  match declOf isPub t with
  | some parse => do
      let _ ← advance
      let decl ← parse
      pure (withAttributes attrs decl)
  | none => statementDecl isPub

/-! ## The program -/

/-- A declaration of the program. -/
def programDecl (decls : List Node) : P (List Node) := do
  let decl ← parseDeclaration
  recover
  pure (decls ++ [decl])

/-- `parse_program`. -/
def parseProgram : P Node := do
  skipSemis
  let decls ← repeating (fun decls => do
    if ← check .eof then pure (.inr decls)
    else
      let decls ← programDecl decls
      pure (.inl decls)) []
  pure { kind := .program, params := decls }

/-- The functions that call each other. -/
def fnBody : Fn → P Node
  | .typePrimary => parseTypePrimary
  | .typeExpr => parseTypeExpr
  | .pattern strip => parsePatternEx strip
  | .expr minPrec => parseExpr minPrec
  | .leading => parsePrefix
  | .block => parseBlock
  | .statement => parseStatement
  | .declField => parseDeclField

def parser : Reader Token Notes Trap Fn Node where
  body := fnBody
  skips := (·.kind == .error)
  weight := Token.weight

/-- What `parser_new` clears. -/
def Notes.new : Notes :=
  { previous := { kind := .intLit }, errors := [], hadError := false, panicMode := false }

/-- `parser_new` and `parse_program`. -/
def parseText : P Node := do
  prime
  parseProgram

/-- The parse of a text comes back. -/
def Returns (source : List Char) : Prop := parser.Returns parseText (lex source) .new

end Limceron.Parse
