/-
# `Limceron.Parse.Types` — type expressions, generic parameters, attributes, patterns
-/
import Limceron.Parse.Core

namespace Limceron.Parse

open Readers

/-! ## Types -/

/-- What follows the name of a type: `.b.c`. -/
def typePath (name : String) : P String :=
  repeating (fun name => do
    if ← accept .dot then
      if ← check .ident then
        let next ← advance
        pure (.inl (name ++ "." ++ next.strVal.getD ""))
      else pure (.inl name)
    else pure (.inr name)) name

def parseTypePrimary : P Node := do
  if ← accept .secretK then
    let inner ← .call .typePrimary
    pure { kind := .typeSecret, left := [inner] }
  else if ← accept .amp then
    let isMut ← accept .mutK
    let inner ← .call .typePrimary
    pure { kind := .typeRef, isMut := isMut, left := [inner] }
  else if ← accept .star then
    if ← accept .mutK then
      let inner ← .call .typePrimary
      pure { kind := .typePtr, isMut := true, left := [inner] }
    else
      let _ ← acceptText "const"
      let inner ← .call .typePrimary
      pure { kind := .typePtr, left := [inner] }
  else if ← accept .lbracket then
    let elem ← .call .typeExpr
    if ← accept .semicolon then
      let size ← .call (.expr .none)
      let _ ← expect .rbracket "after array type size"
      pure { kind := .typeArray, left := [elem], right := [size] }
    else
      let _ ← expect .rbracket "after slice type"
      pure { kind := .typeSlice, left := [elem] }
  else if ← accept .lparen then
    let first ← .call .typeExpr
    if ← accept .comma then
      let rest ← commaList .rparen (.call .typeExpr)
      let _ ← expect .rparen "after tuple type"
      pure { kind := .typeTuple, params := first :: rest }
    else
      let _ ← expect .rparen "after grouped type"
      pure first
  else if ← accept .fnK then
    let _ ← expect .lparen "after 'fn' in function type"
    let params ← commaList .rparen (.call .typeExpr)
    let _ ← expect .rparen "after function type parameters"
    if ← accept .arrow then
      let result ← .call .typeExpr
      pure { kind := .typeFn, params := params, typeExpr := [result] }
    else pure { kind := .typeFn, params := params }
  else if ← check .ident then
    let first ← advance
    let name ← typePath (first.strVal.getD "")
    if ← accept .lt then
      let args ← commaList .gt (.call .typeExpr)
      let _ ← expect .gt "after generic arguments"
      pure { kind := .typeNamed, name := some name, generics := args }
    else pure { kind := .typeNamed, name := some name }
  else
    fail "expected type expression"
    pure { kind := .typeInfer }

/-- `T?`. -/
def optionalType (ty : Node) : P Node := do
  if ← accept .question then pure { kind := .typeOptional, left := [ty] } else pure ty

def parseTypeExpr : P Node := do
  let ty ← .call .typePrimary
  let ty ← optionalType ty
  if ← check .pipe then
    let variants ← separated .pipe (do
      let variant ← .call .typePrimary
      optionalType variant) [ty]
    pure { kind := .typeUnion, params := variants }
  else pure ty

/-- `: T`, if it is there. -/
def typeAnnotation : P (List Node) := do
  if ← accept .colon then
    let ty ← .call .typeExpr
    pure [ty]
  else pure []

/-- `-> T`, if it is there. -/
def returnType : P (List Node) := do
  if ← accept .arrow then
    let ty ← .call .typeExpr
    pure [ty]
  else pure []

/-- `A + B + …` -/
def parseBounds : P (List Node) := do
  let first ← .call .typePrimary
  separated .plus (.call .typePrimary) [first]

def parseGenericParam : P Node := do
  if ← acceptText "region" then
    let name ← expectName "after 'region'"
    pure { kind := .genericParam, name := name, isMut := true }
  else
    let name ← expectName "in generic parameter"
    if ← accept .colon then
      let bounds ← parseBounds
      pure { kind := .genericParam, name := name, params := bounds }
    else pure { kind := .genericParam, name := name }

def parseGenericParams : P (List Node) := do
  if ← accept .lt then
    let params ← commaList .gt parseGenericParam
    let _ ← expect .gt "after generic parameters"
    pure params
  else pure []

/-- Past the arguments of an attribute, up to the parenthesis that closes them. -/
def skipAttributeArgs : P Unit :=
  repeating (fun depth : Nat => do
    if ← check .eof then pure (.inr ())
    else
      let depth := if ← check .lparen then depth + 1 else depth
      let depth := if ← check .rparen then depth - 1 else depth
      if depth = 0 then pure (.inr ())
      else
        let _ ← advance
        pure (.inl depth)) 1

def attributeArgs : P Unit := do
  if ← accept .lparen then
    skipAttributeArgs
    let _ ← expect .rparen "after attribute arguments"
    pure ()
  else pure ()

def parseAttributes : P (List Node) :=
  repeating (fun attrs => do
    if ← check .hash then
      let _ ← advance
      let _ ← expect .lbracket "after '#'"
      let name ← expectName "in attribute"
      attributeArgs
      let _ ← expect .rbracket "after attribute"
      skipSemis
      pure (.inl (attrs ++ [{ kind := .attribute, name := name }]))
    else pure (.inr attrs)) []

/-! ## Patterns -/

def c99Keywords : List String :=
  [ "auto", "break", "case", "char", "const", "continue", "default", "do", "double", "else",
    "enum", "extern", "float", "for", "goto", "if", "inline", "int", "long", "register",
    "restrict", "return", "short", "signed", "sizeof", "static", "struct", "switch", "typedef",
    "union", "unsigned", "void", "volatile", "while", "_Bool", "_Complex", "_Imaginary" ]

def sanitizeCIdent (name : String) : String :=
  if c99Keywords.contains name then name ++ "_" else name

/-- What follows the name of a pattern: `.b`, `::b`. -/
def patternPath (name : String) : P String :=
  repeating (fun name => do
    let t ← cur
    if t.kind = .dot || t.kind = .colonColon then
      let _ ← advance
      if ← check .ident then
        let next ← advance
        let sep := if t.kind = .colonColon then "::" else "."
        pure (.inl (name ++ sep ++ next.strVal.getD ""))
      else pure (.inl name)
    else pure (.inr name)) name

/-- The name of the token begins with an underscore, and goes on. -/
def isUnderscored (t : Token) : Bool :=
  t.kind == .ident && ((t.strVal.getD "").toList.head? == some '_') && t.strVal != some "_"

/-- The patterns in parentheses or braces. -/
def subPatterns (close : TokenKind) : P (List Node) := commaList close (.call (.pattern true))

/-- `_name`, in a pattern that binds `name`. -/
def underscorePattern : P Node := do
  let t ← advance
  let raw := t.strVal.getD ""
  let after ← cur
  if after.kind ∈ [.colonColon, .dot, .lparen, .lbrace, .colon] then
    let name ← patternPath raw
    if ← accept .lparen then
      let fields ← subPatterns .rparen
      let _ ← expect .rparen "after enum pattern"
      pure { kind := .patEnum, name := some name, params := fields }
    else pure { kind := .patIdent, name := some name }
  else
    let bind := String.ofList (raw.toList.drop 1)
    pure { kind := .patIdent, name := some (sanitizeCIdent bind) }

/-- A pattern that begins with a name. -/
def namePattern : P Node := do
  let t ← advance
  let name ← patternPath (t.strVal.getD "")
  if ← accept .lparen then
    let fields ← subPatterns .rparen
    let _ ← expect .rparen "after enum pattern"
    pure { kind := .patEnum, name := some name, params := fields }
  else if ← accept .lbrace then
    let fields ← subPatterns .rbrace
    let _ ← expect .rbrace "after struct pattern"
    pure { kind := .patStruct, name := some name, params := fields }
  else if ← accept .colon then
    let ty ← .call .typeExpr
    pure { kind := .patTyped, name := some name, typeExpr := [ty] }
  else if ← check .pipe then
    let alts ← separated .pipe (.call (.pattern true)) [{ kind := .patIdent, name := some name }]
    pure { kind := .patOr, left := alts }
  else pure { kind := .patIdent, name := some name }

/-- An integer, or a range of them. -/
def intPattern : P Node := do
  let t ← advance
  let lit : Node := { kind := .patLiteral, name := some "int", val := .int t.intVal }
  let after ← cur
  if after.kind = .dotDot || after.kind = .dotDotEq then
    let _ ← advance
    let stop ← .call (.pattern true)
    pure { kind := .patRange, left := [lit], right := [stop], isMut := after.kind = .dotDotEq }
  else pure lit

/-- `parse_pattern_ex`. -/
def parsePatternEx (strip : Bool) : P Node := do
  let t ← cur
  if strip && isUnderscored t then underscorePattern
  else if ← acceptText "_" then pure { kind := .patWildcard }
  else if ← check .intLit then intPattern
  else if ← check .stringLit then
    let t ← advance
    pure { kind := .patLiteral, name := some "str", val := .ofStr t.strVal }
  else if ← accept .trueK then
    pure { kind := .patLiteral, name := some "true", val := .bool true }
  else if ← accept .falseK then
    pure { kind := .patLiteral, name := some "false", val := .bool false }
  else if ← accept .noneK then pure { kind := .patLiteral, name := some "none" }
  else if ← accept .lparen then
    let elems ← subPatterns .rparen
    let _ ← expect .rparen "after tuple pattern"
    pure { kind := .patTuple, params := elems }
  else if ← check .ident then namePattern
  else
    fail "expected pattern"
    pure { kind := .patWildcard }

end Limceron.Parse
