/-
# `Limceron.Parse.Decls` — functions, types, modules

The declarations that are not about agents.  The keyword of a declaration has been
taken when its function is called.
-/
import Limceron.Parse.Exprs

namespace Limceron.Parse

open Readers

/-! ## Functions -/

/-- `name: T`, after an `&` or not. -/
def paramAfter (isMut : Bool) : P Node := do
  let name ← identName "in parameter"
  let _ ← expect .colon "after parameter name"
  let ty ← .call .typeExpr
  pure { kind := .param, name := name, isMut := isMut, typeExpr := [ty] }

def parseFnParam : P Node := do
  if ← accept .amp then
    let isMut ← accept .mutK
    let t ← cur
    if ← acceptText "self" then pure { kind := .param, name := t.strVal, isMut := isMut }
    else paramAfter isMut
  else paramAfter false

/-- A block, if `{` stands there. -/
def optionalBlock : P (List Node) := do
  if ← check .lbrace then
    let body ← .call .block
    pure [body]
  else pure []

def parseFn (isPub : Bool) : P Node := do
  let name ← expectName "after 'fn'"
  let generics ← parseGenericParams
  let _ ← expect .lparen "after function name"
  let params ← commaList .rparen parseFnParam
  let _ ← expect .rparen "after parameters"
  let result ← returnType
  let body ← optionalBlock
  pure { kind := .fn, isPub := isPub, name := name, generics := generics, params := params,
         typeExpr := result, left := body }

/-! ## Types -/

/-- `= e`, if it is there. -/
def defaultValue : P (List Node) := do
  if ← accept .eq then
    let e ← .call (.expr .none)
    pure [e]
  else pure []

def parseStructField (fields : List Node) : P (List Node) := do
  let attrs ← parseAttributes
  let pub ← accept .pubK
  let priv ← accept .privK
  let name ← expectName "in struct field"
  let _ ← expect .colon "after field name"
  let ty ← .call .typeExpr
  let default ← defaultValue
  skipSemis
  pure (fields ++ [{ kind := .field, attributes := attrs, isPub := pub && !priv, name := name,
                     typeExpr := [ty], right := default }])

def parseStruct (isPub : Bool) : P Node := do
  let name ← expectName "after 'struct'"
  let generics ← parseGenericParams
  let _ ← expect .lbrace "after struct name"
  skipSemis
  let fields ← members (stallsOn .structBody) parseStructField []
  let _ ← expect .rbrace "after struct body"
  pure { kind := .struct, isPub := isPub, name := name, generics := generics, params := fields }

/-- `name: T` or `T` in a variant. -/
def parseVariantField : P Node := do
  let t ← cur
  if ← accept .ident then
    if ← accept .colon then
      let ty ← .call .typeExpr
      pure { kind := .field, name := t.strVal, typeExpr := [ty] }
    else pure { kind := .field, typeExpr := [{ kind := .typeNamed, name := t.strVal }] }
  else
    let ty ← .call .typeExpr
    pure { kind := .field, typeExpr := [ty] }

/-- The fields of a variant, if `(` stands there. -/
def variantFields : P (List Node) := do
  if ← accept .lparen then
    let fields ← commaList .rparen parseVariantField
    let _ ← expect .rparen "after variant fields"
    pure fields
  else pure []

def parseVariant (variants : List Node) : P (List Node) := do
  let name ← expectName "in enum variant"
  let fields ← variantFields
  skipSemis
  pure (variants ++ [{ kind := .variant, name := name, params := fields }])

def parseEnum (isPub : Bool) : P Node := do
  let name ← expectName "after 'enum'"
  let generics ← parseGenericParams
  let _ ← expect .lbrace "after enum name"
  skipSemis
  let variants ← members (stallsOn .enumBody) parseVariant []
  let _ ← expect .rbrace "after enum body"
  pure { kind := .enum, isPub := isPub, name := name, generics := generics, params := variants }

/-- A method of a trait or of an `impl`. -/
def parseMethod (context : String) (methods : List Node) : P (List Node) := do
  let attrs ← parseAttributes
  let pub ← accept .pubK
  let _ ← expect .fnK context
  let method ← parseFn pub
  skipSemis
  pure (methods ++ [{ method with attributes := attrs }])

/-- `: A + B`, if it is there. -/
def superTraits : P (List Node) := do
  if ← accept .colon then parseBounds else pure []

def parseTrait (isPub : Bool) : P Node := do
  let name ← expectName "after 'trait'"
  let generics ← parseGenericParams
  let supers ← superTraits
  let _ ← expect .lbrace "after trait name"
  skipSemis
  let methods ← members (stallsOn .traitBody) (parseMethod "in trait body") []
  let _ ← expect .rbrace "after trait body"
  pure { kind := .trait, isPub := isPub, name := name, generics := generics, typeExpr := supers,
         params := methods }

def parseInterfaceMethod (methods : List Node) : P (List Node) := do
  let _ ← expect .fnK "in interface body"
  let method ← parseFn true
  skipSemis
  pure (methods ++ [method])

def parseInterface (isPub : Bool) : P Node := do
  let name ← expectName "after 'interface'"
  let generics ← parseGenericParams
  if ← accept .eq then
    let types ← parseBounds
    pure { kind := .interface, isPub := isPub, name := name, generics := generics,
           typeExpr := types }
  else
    let _ ← expect .lbrace "after interface name"
    skipSemis
    let methods ← members (stallsOn .interfaceBody) parseInterfaceMethod []
    let _ ← expect .rbrace "after interface body"
    pure { kind := .interface, isPub := isPub, name := name, generics := generics,
           params := methods }

/-- `Type`, or `Trait for Type`: the target, and the trait. -/
def implTarget : P (List Node × List Node) := do
  let first ← .call .typePrimary
  if ← accept .forK then
    let target ← .call .typePrimary
    pure ([target], [first])
  else pure ([first], [])

def parseImpl : P Node := do
  let generics ← parseGenericParams
  let (target, trait) ← implTarget
  let _ ← expect .lbrace "after impl target"
  skipSemis
  let methods ← members (stallsOn .implBody) (parseMethod "in impl body") []
  let _ ← expect .rbrace "after impl body"
  pure { kind := .impl, generics := generics, left := target, right := trait, params := methods }

def parseTypeAlias (isPub : Bool) : P Node := do
  let name ← expectName "after 'type'"
  let generics ← parseGenericParams
  let _ ← expect .eq "in type alias"
  let ty ← .call .typeExpr
  pure { kind := .typeAlias, isPub := isPub, name := name, generics := generics, typeExpr := [ty] }

def parseConstDecl (isPub : Bool) : P Node := do
  let t ← cur
  let named ← accept .ident
  let ty ← typeAnnotation
  let _ ← expect .eq "in const declaration"
  let value ← .call (.expr .none)
  pure { kind := .const, isPub := isPub, name := if named then t.strVal else none, typeExpr := ty,
         right := [value] }

/-! ## Modules -/

def parseModuleDecl : P Node := do
  let name ← expectName "after 'mod'"
  let name ← repeating (fun name => do
    if ← accept .dot then
      let next ← expectName "in module path"
      let name ← needName .modulePath name
      let next ← needName .modulePath next
      pure (.inl (some (name ++ "." ++ next)))
    else pure (.inr name)) name
  pure { kind := .module, name := name }

/-- `as name`, if it is there. -/
def importAlias : P (List Node) := do
  if ← accept .asK then
    let name ← expectName "after 'as'"
    pure [{ kind := .ident, name := name }]
  else pure []

/-- `use kind("text") as name`, after `(`. -/
def useImport (kind textContext closeContext : String) : P Node := do
  let text ← expectString textContext
  let _ ← expect .rparen closeContext
  let alias_ ← importAlias
  pure { kind := .use, name := some kind, val := .ofStr text, right := alias_ }

/-- `.{a, b}`: the names, after `{`. -/
def importList (path : Option String) : P Node := do
  let imports ← commaList .rbrace (do
    let name ← expectName "in import list"
    pure ({ kind := .ident, name := name } : Node))
  let _ ← expect .rbrace "after import list"
  pure { kind := .use, name := path, params := imports }

/-- One more name of the path, or the list that ends it. -/
def usePathStep (path : Option String) : P (Option String ⊕ Node) := do
  if ← accept .lbrace then
    let node ← importList path
    pure (.inr node)
  else if ← check .ident then
    let next ← advance
    let path ← needName .usePath path
    pure (.inl (some (path ++ "." ++ next.strVal.getD "")))
  else pure (.inl path)

/-- The end of the path, with a name for it. -/
def usePathEnd (path : Option String) : P Node := do
  if ← accept .asK then
    let name ← expectName "after 'as'"
    pure { kind := .use, name := path, val := .ofStr name }
  else pure { kind := .use, name := path }

def usePath (path : Option String) : P Node :=
  repeating (fun path => do
    if ← accept .dot then usePathStep path
    else if ← accept .colonColon then usePathStep path
    else
      let node ← usePathEnd path
      pure (.inr node)) path

def parseUseDecl : P Node := do
  let path ← expectName "after 'use'"
  if ← check .lparen then
    match path with
    | some "mcp" => do
        let _ ← advance
        useImport "mcp" "MCP server command" "after MCP command"
    | some "driver" => do
        let _ ← advance
        useImport "driver" "driver name (e.g. \"mysql\")" "after driver name"
    | some "a2a" => do
        let _ ← advance
        useImport "a2a" "A2A endpoint URL" "after A2A URL"
    | some "model" => do
        let _ ← advance
        useImport "model" "model path" "after model path"
    | path => usePath path
  else usePath path

end Limceron.Parse
