/-
# `Limceron.Parse.Exprs` — expressions, blocks and statements

| function | reads |
| :-- | :-- |
| `parse_prefix` | what can stand first in an expression |
| `parse_infix` | an operator between two expressions, and the second |
| `parse_expr` | one `parse_prefix`, and operators that bind tighter than `min_prec` |

`parse_prefix` returns a node always, and takes a token if there is one.
-/
import Limceron.Parse.Types

namespace Limceron.Parse

open Readers

/-- `get_precedence`. -/
def getPrecedence : TokenKind → Precedence
  | .pipeGt => .pipeOp
  | .pipePipe => .or
  | .andAnd => .and
  | .pipe => .bitOr
  | .caret => .bitXor
  | .amp => .bitAnd
  | .eqEq | .notEq => .equality
  | .lt | .gt | .ltEq | .gtEq => .comparison
  | .shl | .shr => .shift
  | .dotDot | .dotDotEq => .range
  | .plus | .minus => .term
  | .star | .slash | .percent => .factor
  | .power => .power
  | .dot | .lparen | .lbracket | .question | .questionDot | .asK | .isK | .colonColon =>
      .postfixOp
  | _ => .none

/-! ## Operators -/

/-- The name of a bare identifier. -/
def bareName (n : Node) : Option String := if n.kind = .ident then n.name else none

def hostNamespaces : List String :=
  ["llm", "http", "kb", "data", "mcp", "json", "string", "math", "time"]

/-- The name before a dot is a namespace of the host. -/
def hostNamespace (left : Node) : Option String :=
  (bareName left).filter hostNamespaces.contains

def exprList (close : TokenKind) : P (List Node) := commaList close (.call (.expr .none))

/-- After `left.`: a field, or a call of a method or of the host. -/
def parseDot (left : Node) : P Node := do
  let field ← expectName "after '.'"
  if ← accept .lparen then
    match hostNamespace left with
    | some ns =>
        let field ← needName .hostField field
        let args ← exprList .rparen
        let _ ← expect .rparen "after method arguments"
        pure { kind := .hostCall, left := [left], name := some (ns ++ "." ++ field),
               params := args }
    | none =>
        let args ← exprList .rparen
        let _ ← expect .rparen "after method arguments"
        pure { kind := .methodCall, left := [left], name := field, params := args }
  else pure { kind := .fieldAccess, left := [left], name := field }

/-- After `left::`: `Result::Ok` and `Result::Err` lose their path, other names are
joined. -/
def parsePathTail (left : Node) : P Node := do
  let tail ← expectName "after '::'"
  match bareName left with
  | some name =>
      let tail ← needName .pathTail tail
      if name = "Result" && (tail = "Ok" || tail = "Err") then
        pure { kind := .ident, name := some tail }
      else pure { kind := .ident, name := some (name ++ "::" ++ tail) }
  | none => pure { kind := .fieldAccess, left := [left], name := tail }

/-- A call; `Ok` and `Err` with one argument are nodes of their own. -/
def callNode (left : Node) (args : List Node) : Node :=
  match bareName left, args with
  | some "Ok", [_] => { kind := .resultOk, left := args }
  | some "Err", [_] => { kind := .resultErr, left := args }
  | _, _ => { kind := .call, left := [left], params := args }

/-- The tokens after which an open range ends. -/
def endsRange (k : TokenKind) : Bool :=
  k ∈ [.rparen, .rbracket, .rbrace, .comma, .semicolon, .eof, .lbrace]

def parseInfix (left : Node) (op : TokenKind) : P Node := do
  let prec := getPrecedence op
  let _ ← advance
  let nextPrec := if op = .power then prec - 1 else prec
  if op = .dotDot || op = .dotDotEq then
    let t ← cur
    if endsRange t.kind then pure { kind := .range, left := [left], isMut := op = .dotDotEq }
    else
      let right ← .call (.expr nextPrec)
      pure { kind := .range, left := [left], right := [right], isMut := op = .dotDotEq }
  else if op = .pipeGt then
    let right ← .call (.expr nextPrec)
    pure { kind := .pipe, left := [left], right := [right] }
  else
    let right ← .call (.expr nextPrec)
    pure { kind := .binary, val := .op op, left := [left], right := [right] }

/-- The operator `op` after `left`, with what belongs to it. -/
def parseOperator (left : Node) (op : TokenKind) : P Node :=
  match op with
  | .dot => do
      let _ ← advance
      parseDot left
  | .colonColon => do
      let _ ← advance
      parsePathTail left
  | .lparen => do
      let _ ← advance
      let args ← exprList .rparen
      let _ ← expect .rparen "after function arguments"
      pure (callNode left args)
  | .lbracket => do
      let _ ← advance
      let index ← .call (.expr .none)
      let _ ← expect .rbracket "after index expression"
      pure { kind := .index, left := [left], right := [index] }
  | .question => do
      let _ ← advance
      pure { kind := .tryE, left := [left] }
  | .asK => do
      let _ ← advance
      let ty ← .call .typePrimary
      pure { kind := .cast, left := [left], typeExpr := [ty] }
  | .isK => do
      let _ ← advance
      let ty ← .call .typePrimary
      pure { kind := .isExpr, left := [left], typeExpr := [ty] }
  | op => parseInfix left op

def parseExpr (minPrec : Precedence) : P Node := do
  let left ← .call .leading
  repeating (fun left => do
    let t ← cur
    if t.kind = .eof || getPrecedence t.kind ≤ minPrec then pure (.inr left)
    else
      let left ← parseOperator left t.kind
      pure (.inl left)) left

/-! ## What can stand first -/

/-- A block in braces, or one expression. -/
def blockOrExpr : P Node := do
  if ← check .lbrace then .call .block else .call (.expr .none)

/-- The expression inside a string: what is parsed, or `0`. -/
def interpPart (src : String) : P Node :=
  if src.isEmpty then do
    fail "ERR_INTERP_EMPTY: `$\x7b\x7d` requires an expression"
    pure { kind := .intLit, val := .int 0 }
  else do
    prime
    .call (.expr .none)

/-- The expressions inside a token, each with its tokens. -/
def interpSubs (t : Token) : List (String × List Token) :=
  match t.interpVal with
  | some is => is.parts.map fun part => (part.2, lex part.2.toList)
  | none => []

/-- `parser_new` for the text of an expression: it shares the reporter. -/
def enterInterp (s : Notes) : Notes :=
  { previous := { kind := .intLit }, errors := s.errors, hadError := false, panicMode := false }

def leaveInterp (outer inner : Notes) : Notes :=
  { outer with errors := inner.errors, hadError := outer.hadError || inner.hadError }

def takeInterp (ts : List Token) (s : Notes) : Notes :=
  let nested := ((current ts).interpVal.map (·.nestedDetected)).getD false
  let s := take ts s
  if nested then
    (s.report "ERR_NESTED_INTERPOLATION: `$\x7b...$\x7b...\x7d...\x7d` is forbidden in v1").failed
  else s

def stringNode (s : String) : Node := { kind := .stringLit, val := .str s }

/-- The literals and the expressions, one after the other. -/
def interpParts (is : InterpString) (exprs : List Node) : List Node :=
  ((is.parts.zip exprs).flatMap fun (part, e) => [stringNode part.1, e]) ++ [stringNode is.last]

def parseInterp : P Node := do
  let t ← cur
  let exprs ← .inner takeInterp interpSubs enterInterp leaveInterp interpPart
  match t.interpVal with
  | none => pure { kind := .interpString, params := [stringNode ""] }
  | some is => pure { kind := .interpString, params := interpParts is exprs }

/-- After `(`: nothing, an expression, or a tuple. -/
def parseParen : P Node := do
  if ← accept .rparen then pure { kind := .tuple }
  else
    let first ← .call (.expr .none)
    if ← accept .comma then
      let rest ← exprList .rparen
      let _ ← expect .rparen "after tuple"
      pure { kind := .tuple, params := first :: rest }
    else
      let _ ← expect .rparen "after grouped expression"
      pure first

def parseMapEntry : P Node := do
  let key ← .call (.expr .none)
  let _ ← expect .colon "in map entry"
  let value ← .call (.expr .none)
  pure { kind := .mapEntry, left := [key], right := [value] }

/-- After `else`, if it is there. -/
def parseElse : P (List Node) := do
  if ← accept .elseK then
    if ← check .ifK then
      let elseIf ← .call .leading
      pure [elseIf]
    else
      let block ← .call .block
      pure [block]
  else pure []

def parseIf : P Node := do
  let cond ← .call (.expr .none)
  let thn ← .call .block
  let els ← parseElse
  pure { kind := .ifS, left := [cond], right := [thn], params := els }

/-- `if e`, if it is there. -/
def parseMatchGuard : P (List Node) := do
  if ← accept .ifK then
    let guard ← .call (.expr .none)
    pure [guard]
  else pure []

def parseMatchArm (arms : List Node) : P (List Node) := do
  let pat ← .call (.pattern true)
  let guard ← parseMatchGuard
  let _ ← expect .arrow "in match arm"
  let body ← blockOrExpr
  skipSemis
  pure (arms ++ [{ kind := .matchArm, left := [pat], params := guard, right := [body] }])

def parseMatch : P Node := do
  let subject ← .call (.expr .none)
  let _ ← expect .lbrace "after match subject"
  skipSemis
  let arms ← members noStall parseMatchArm []
  let _ ← expect .rbrace "after match body"
  pure { kind := .matchS, left := [subject], params := arms }

def parseClosureParam : P Node := do
  let name ← expectName "in closure parameter"
  let ty ← typeAnnotation
  pure { kind := .param, name := name, typeExpr := ty }

/-- After the first `|`. -/
def parseClosure : P Node := do
  let params ← commaList .pipe parseClosureParam
  let _ ← expect .pipe "after closure parameters"
  let body ← blockOrExpr
  pure { kind := .closure, params := params, left := [body] }

/-- `catch (e: T) { … }`, if it is there: the name, the type and the handler. -/
def parseCatch : P (Option String × List Node × List Node) := do
  if ← acceptText "catch" then
    let _ ← expect .lparen "after 'catch'"
    let t ← cur
    let bound ← accept .ident
    let ty ← typeAnnotation
    let _ ← expect .rparen "after catch binding"
    let handler ← .call .block
    pure (if bound then t.strVal else some "e", ty, [handler])
  else pure (none, [], [])

/-- After `try`. -/
def parseTry : P Node := do
  if ← check .lbrace then
    let body ← .call .block
    let (name, ty, handler) ← parseCatch
    pure { kind := .tryCatch, left := [body], name := name, typeExpr := ty, right := handler }
  else
    let body ← .call (.expr .pipeOp)
    if ← accept .otherwiseK then
      let other ← .call (.expr .pipeOp)
      pure { kind := .tryOtherwise, left := [body], right := [other] }
    else pure { kind := .tryOtherwise, left := [body] }

/-- `, e`, if it is there. -/
def commaExpr : P (List Node) := do
  if ← accept .comma then
    let e ← .call (.expr .none)
    pure [e]
  else pure []

def parseAsk : P Node := do
  let _ ← expect .lparen "after 'ask'"
  let question ← .call (.expr .none)
  let context ← commaExpr
  let _ ← expect .rparen "after ask arguments"
  pure { kind := .ask, left := [question], right := context }

/-- `<T>` after `chan`, if it is there. -/
def chanType : P (List Node) := do
  if ← accept .lt then
    let ty ← .call .typeExpr
    let _ ← expect .gt "after channel type parameter"
    pure [ty]
  else pure []

/-- `(n)` after `chan`, if it is there. -/
def chanSize : P (List Node) := do
  if ← accept .lparen then
    if ← check .rparen then
      let _ ← expect .rparen "after channel buffer size"
      pure []
    else
      let size ← .call (.expr .none)
      let _ ← expect .rparen "after channel buffer size"
      pure [size]
  else pure []

def parseChan : P Node := do
  let ty ← chanType
  let size ← chanSize
  pure { kind := .channel, typeExpr := ty, left := size }

/-- `from`, or any name in its place. -/
def selectFrom : P Unit := do
  if ← acceptText "from" then pure ()
  else
    let _ ← expect .ident "expected 'from' in select arm"
    pure ()

def parseSelectArm (arms : List Node) : P (List Node) := do
  let name ← expectName "in select arm"
  selectFrom
  let chan ← .call (.expr .none)
  let _ ← expect .arrow "in select arm"
  let body ← .call .block
  skipSemis
  pure (arms ++ [{ kind := .selectArm, name := name, left := [chan], right := [body] }])

def parseSelect : P Node := do
  let _ ← expect .lbrace "after 'select'"
  skipSemis
  let arms ← members noStall parseSelectArm []
  let _ ← expect .rbrace "after select body"
  pure { kind := .select, params := arms }

/-- `: value`, or else the key again. -/
def entryValue (key : Node) : P Node := do
  if ← accept .colon then .call (.expr .none) else pure key

/-- `name: value` in a struct literal, or `name` for `name: name`. -/
def parseStructEntry (entries : List Node) : P (List Node) := do
  let name ← expectName "in struct literal"
  let key : Node := { kind := .ident, name := name }
  let value ← entryValue key
  let _ ← accept .comma
  skipSemis
  pure (entries ++ [{ kind := .mapEntry, left := [key], right := [value] }])

/-- After `Name {`. -/
def parseStructLiteral (name : Option String) : P Node := do
  skipSemis
  let entries ← members (stallsOn .structLiteral) parseStructEntry []
  let _ ← expect .rbrace "after struct literal"
  pure { kind := .map, name := name, params := entries }

def startsUpper (name : Option String) : Bool :=
  match (name.getD "").toList with
  | c :: _ => 'A' ≤ c && c ≤ 'Z'
  | [] => false

/-- A name, with a struct literal if it begins with a capital and `{` follows. -/
def parseIdent : P Node := do
  let t ← advance
  if (← check .lbrace) && startsUpper t.strVal then
    let _ ← advance
    parseStructLiteral t.strVal
  else pure { kind := .ident, name := t.strVal }

/-- A name or a keyword that may be one, or what nothing begins with. -/
def parseNameOrFail : P Node := do
  if ← checkName then
    let name ← consumeIdentName
    pure { kind := .ident, name := name }
  else
    fail "expected expression"
    let _ ← advance
    pure { kind := .noneLit }

/-- The prefix operators and what they stand before. -/
def parseUnary (op : TokenKind) : P Node :=
  match op with
  | .amp => do
      let _ ← advance
      let isMut ← accept .mutK
      let operand ← .call (.expr .unary)
      pure { kind := .ref, isMut := isMut, left := [operand] }
  | .star => do
      let _ ← advance
      let operand ← .call (.expr .unary)
      pure { kind := .deref, left := [operand] }
  | op => do
      let _ ← advance
      let operand ← .call (.expr .unary)
      pure { kind := .unary, val := .op op, left := [operand] }

/-- `parse_prefix` from `if` on. -/
def parsePrefixRest : P Node := do
  let t ← cur
  match t.kind with
  | .ifK =>
      let _ ← advance
      parseIf
  | .matchK =>
      let _ ← advance
      parseMatch
  | .pipe =>
      let _ ← advance
      parseClosure
  | .pipePipe =>
      let _ ← advance
      let body ← blockOrExpr
      pure { kind := .closure, left := [body] }
  | .spawnK =>
      let _ ← advance
      let body ← .call .block
      pure { kind := .spawn, left := [body] }
  | .keepK =>
      let _ ← advance
      let _ ← expect .whereK "after 'keep' (expected 'keep where')"
      let cond ← .call (.expr .none)
      pure { kind := .keepWhere, left := [cond] }
  | .eachK =>
      let _ ← advance
      let name ← consumeIdentName
      pure { kind := .each, name := name }
  | .askK =>
      let _ ← advance
      parseAsk
  | .tellK =>
      let _ ← advance
      let target ← .call (.expr .unary)
      let message ← .call (.expr .none)
      pure { kind := .tell, left := [target], right := [message] }
  | .awaitK =>
      let _ ← advance
      let e ← .call (.expr .none)
      pure { kind := .awaitE, left := [e] }
  | .chanK =>
      let _ ← advance
      parseChan
  | .selectK =>
      let _ ← advance
      parseSelect
  | .unsafeK =>
      let _ ← advance
      let body ← .call .block
      pure { kind := .unsafeBlock, left := [body] }
  | .comptimeK =>
      let _ ← advance
      let body ← .call .block
      pure { kind := .comptime, left := [body] }
  | .lbrace => .call .block
  | .ident =>
      if ← acceptText "task_group" then
        let body ← .call .block
        pure { kind := .taskGroup, left := [body] }
      else if ← acceptText "try" then parseTry
      else parseIdent
  | _ => parseNameOrFail

/-- After `#`: a map, or what the rest of `parse_prefix` makes of what follows. -/
def parseHash (rest : P Node) : P Node := do
  if ← accept .lbrace then
    let entries ← commaList .rbrace parseMapEntry
    let _ ← expect .rbrace "after map literal"
    pure { kind := .map, params := entries }
  else rest

def parsePrefix : P Node := do
  let t ← cur
  match t.kind with
  | .minus | .bang | .tilde | .amp | .star => parseUnary t.kind
  | .intLit =>
      let t ← advance
      pure { kind := .intLit, val := .int t.intVal }
  | .floatLit =>
      let t ← advance
      pure { kind := .floatLit, val := .float t.floatVal }
  | .stringLit =>
      let t ← advance
      pure { kind := .stringLit, val := .ofStr t.strVal }
  | .interpString => parseInterp
  | .trueK =>
      let _ ← advance
      pure { kind := .boolLit, val := .bool true }
  | .falseK =>
      let _ ← advance
      pure { kind := .boolLit, val := .bool false }
  | .noneK =>
      let _ ← advance
      pure { kind := .noneLit }
  | .lparen =>
      let _ ← advance
      parseParen
  | .lbracket =>
      let _ ← advance
      let elems ← exprList .rbracket
      let _ ← expect .rbracket "after array literal"
      pure { kind := .array, params := elems }
  | .hash =>
      let _ ← advance
      parseHash parsePrefixRest
  | _ => parsePrefixRest

/-! ## Blocks and statements -/

def parseBlockStmt (stmts : List Node) : P (List Node) := do
  let stmt ← .call .statement
  recover
  pure (stmts ++ [stmt])

def parseBlock : P Node := do
  let _ ← expect .lbrace "to begin block"
  skipSemis
  let stmts ← members noStall parseBlockStmt []
  let _ ← expect .rbrace "to end block"
  pure { kind := .block, params := stmts }

def parseLet : P Node := do
  let isMut ← accept .mutK
  let name ← identName "in let binding"
  let ty ← typeAnnotation
  if ← accept .eq then
    let init ← .call (.expr .none)
    pure { kind := .letS, isMut := isMut, name := name, typeExpr := ty, right := [init] }
  else pure { kind := .letS, isMut := isMut, name := name, typeExpr := ty }

/-- An expression, unless a token of `ends` stands there. -/
def exprUnless (ends : List TokenKind) : P (List Node) := do
  let t ← cur
  if t.kind ∈ ends then pure []
  else
    let e ← .call (.expr .none)
    pure [e]

/-- `pattern` or `pattern, pattern` in a `for`. -/
def parseForPattern : P Node := do
  let first ← .call (.pattern false)
  if ← accept .comma then
    let second ← .call (.pattern false)
    pure { kind := .tuple, params := [first, second] }
  else pure first

def parseFor : P Node := do
  let pat ← parseForPattern
  let _ ← expect .inK "in for loop"
  let iterator ← .call (.expr .none)
  let body ← .call .block
  pure { kind := .forS, left := [pat], params := [iterator], right := [body] }

def isAssignOp (k : TokenKind) : Bool :=
  k ∈ [.eq, .plusEq, .minusEq, .starEq, .slashEq, .percentEq, .ampEq, .pipeEq, .caretEq, .shlEq,
    .shrEq]

/-- A statement that begins with an expression. -/
def parseExprStmt : P Node := do
  let e ← .call (.expr .none)
  let t ← cur
  if isAssignOp t.kind then
    let _ ← advance
    let value ← .call (.expr .none)
    pure { kind := .assign, val := .op t.kind, left := [e], right := [value] }
  else pure { kind := .exprStmt, left := [e] }

def parseStatement : P Node := do
  let t ← cur
  match t.kind with
  | .letK =>
      let _ ← advance
      parseLet
  | .returnK =>
      let _ ← advance
      let value ← exprUnless [.semicolon, .rbrace, .eof]
      pure { kind := .returnS, left := value }
  | .breakK =>
      let _ ← advance
      let value ← exprUnless [.semicolon, .rbrace]
      pure { kind := .breakS, left := value }
  | .continueK =>
      let _ ← advance
      pure { kind := .continueS }
  | .deferK =>
      let _ ← advance
      let e ← .call (.expr .none)
      pure { kind := .deferS, left := [e] }
  | .forK =>
      let _ ← advance
      parseFor
  | .whileK =>
      let _ ← advance
      let cond ← .call (.expr .none)
      let body ← .call .block
      pure { kind := .whileS, left := [cond], right := [body] }
  | .loopK =>
      let _ ← advance
      let body ← .call .block
      pure { kind := .loop, left := [body] }
  | .ensureK =>
      let _ ← advance
      let cond ← .call (.expr .none)
      let message ← commaExpr
      pure { kind := .ensure, left := [cond], right := message }
  | .repeatK =>
      let _ ← advance
      let count ← .call (.expr .none)
      let _ ← accept .timesK
      let body ← .call .block
      pure { kind := .repeatS, left := [count], right := [body] }
  | .waitK =>
      let _ ← advance
      let _ ← accept .untilK
      let cond ← .call (.expr .none)
      pure { kind := .waitUntil, left := [cond] }
  | _ => parseExprStmt

end Limceron.Parse
