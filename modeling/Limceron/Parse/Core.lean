/-
# `Limceron.Parse.Core` — the parser's state and its first steps

The functions of the parser are readers of a list of tokens.  Of `Parser`, the
lexer and `current` are the list, and the rest are the notes.

| in the C code | here |
| :-- | :-- |
| `parser_check`, `parser_match` | `check`, `accept` |
| `parser_advance`, `parser_expect` | `advance`, `expect` |
| `while (!parser_check(close) && !parser_check(TOK_EOF)) { …; if (!parser_match(TOK_COMMA)) break; }` | `commaList` |
| `while (!parser_check(TOK_RBRACE) && !parser_check(TOK_EOF)) { … }` | `members` |

Two things keep a parse from coming back.  A loop whose body takes no token and
does not leave goes around forever; six of them can, and each names the tokens it
stalls on (`Stall.on`).  And a name that is missing, because `parser_expect` made
the token up, is given to `strlen` or `strcmp` in seven places (`NullUse`).
-/
import Limceron.Lib.Progress
import Limceron.Parse.Lexer
import Limceron.Parse.Syntax

namespace Limceron.Parse

open Readers

/-! ## Notes -/

/-- `Parser`, with what its reporter has of errors. -/
structure Notes where
  previous : Token
  errors : List String
  hadError : Bool
  panicMode : Bool

namespace Notes

/-- `report_error`; there is room for 100. -/
def report (s : Notes) (msg : String) : Notes :=
  if s.errors.length < 100 then { s with errors := s.errors ++ [msg] } else s

def failed (s : Notes) : Notes := { s with hadError := true }

/-- Reports that the lexer makes before the next token is there. -/
def takeIn (s : Notes) (ts : List Token) : Notes :=
  let (skipped, rest) := ts.span (·.kind == .error)
  let s := skipped.foldl (fun s t => (t.diags.foldl report s).failed) s
  (rest.take 1).foldl (fun s t => t.diags.foldl report s) s

end Notes

/-- `p->current`. -/
def current (ts : List Token) : Token := ts.headD Token.eof

/-! ## Traps -/

/-- The loops that can stall. -/
inductive Stall where
  | structBody | enumBody | traitBody | interfaceBody | implBody | structLiteral
  deriving DecidableEq, Repr

/-- The places where a name may be NULL and is not asked for it. -/
inductive NullUse where
  | pathTail | hostField | modulePath | usePath | allowRule | defaultPolicy | progressField
  deriving DecidableEq, Repr

inductive Trap where
  | stall (l : Stall)
  | null (u : NullUse)
  deriving DecidableEq, Repr

/-- `is_ident_or_keyword`. -/
def isIdentOrKeyword : TokenKind → Bool
  | .ident
  | .agentK | .guardK | .capabilityK | .taintK | .budgetK | .toolK | .skillK | .promptK
  | .supervisorK | .meshK | .memoryK | .requiresK | .strategyK | .routeK | .routerK | .channelK
  | .secretK | .invariantK | .guardsetK | .otherwiseK | .showingK | .timeoutK | .choicesK
  | .repeatK | .timesK | .waitK | .untilK | .eachK | .keepK | .whereK | .aboutK | .askK | .tellK
  | .ensureK | .allowK | .denyK | .progressK => true
  | _ => false

/-- What a type begins with. -/
def startsType : TokenKind → Bool
  | .secretK | .amp | .star | .lbracket | .lparen | .fnK | .ident => true
  | _ => false

/-- What `parse_fn` takes first, the token `fn` being missing: its name, generic
parameters, a parameter, the return type or the body. -/
def startsFn (k : TokenKind) : Bool :=
  isIdentOrKeyword k || startsType k ||
    k ∈ [.lt, .lparen, .amp, .colon, .question, .pipe, .comma, .rparen, .arrow, .lbrace]

/-- The tokens a loop goes around on, leaving all of them where they are. -/
def Stall.on (l : Stall) (k : TokenKind) : Bool :=
  !(k ∈ [.rbrace, .eof, .semicolon] ||
    match l with
    | .structBody => startsType k || k ∈ [.hash, .pubK, .privK, .colon, .question, .pipe, .eq]
    | .enumBody => k ∈ [.ident, .lparen]
    | .traitBody | .implBody => startsFn k || k ∈ [.hash, .pubK, .fnK]
    | .interfaceBody => startsFn k || k == .fnK
    | .structLiteral => k ∈ [.ident, .colon, .comma])

/-! ## Programs -/

/-- Precedence; `PREC_PRIMARY` is nowhere used. -/
abbrev Precedence := Nat

namespace Precedence

def none : Precedence := 0
def assign : Precedence := 1
def pipeOp : Precedence := 2
def or : Precedence := 3
def and : Precedence := 4
def bitOr : Precedence := 5
def bitXor : Precedence := 6
def bitAnd : Precedence := 7
def equality : Precedence := 8
def comparison : Precedence := 9
def shift : Precedence := 10
def range : Precedence := 11
def term : Precedence := 12
def factor : Precedence := 13
def power : Precedence := 14
def unary : Precedence := 15
def postfixOp : Precedence := 16

end Precedence

/-- The functions that call each other. -/
inductive Fn where
  | typePrimary
  | typeExpr
  | pattern (strip : Bool)
  | expr (minPrec : Precedence)
  | leading
  | block
  | statement
  | declField

abbrev P (α : Type) := Prog Token Notes Trap Fn Node α

def cur : P Token := .act fun ts s => (current ts, s)

def check (k : TokenKind) : P Bool := .act fun ts s => ((current ts).kind == k, s)

/-- The current token is a name, and this one. -/
def checkText (text : String) : P Bool := .act fun ts s =>
  ((current ts).kind == .ident && (current ts).strVal == some text, s)

/-- The current token is a name, or a keyword that may be one. -/
def checkName : P Bool := .act fun ts s => (isIdentOrKeyword (current ts).kind, s)

def take (ts : List Token) (s : Notes) : Notes := Notes.takeIn { s with previous := current ts } ts.tail

def advance : P Token := do
  let t ← cur
  .next take
  pure t

def accept (k : TokenKind) : P Bool := do
  if ← check k then
    let _ ← advance
    pure true
  else pure false

def acceptText (text : String) : P Bool := do
  if ← checkText text then
    let _ ← advance
    pure true
  else pure false

/-- The reports that come with the first token, in `parser_new`. -/
def prime : P Unit := .act fun ts s => ((), (ts.take 1).foldl (fun s t => t.diags.foldl .report s) s)

/-- `report_error` and `had_error`. -/
def fail (msg : String) : P Unit := .act fun _ s => ((), (s.report msg).failed)

def expected (k : TokenKind) (context : String) (found : TokenKind) : String :=
  "expected '" ++ tokenKindName k ++ "' " ++ context ++ ", found '" ++ tokenKindName found ++ "'"

def missing (k : TokenKind) (context : String) : P Token := .act fun ts s =>
  ({ kind := k }, { (s.report (expected k context (current ts).kind)).failed with panicMode := true })

def expect (k : TokenKind) (context : String) : P Token := do
  if ← check k then advance else missing k context

/-- A loop that does not stall. -/
def repeating {β γ : Type} (body : β → P (β ⊕ γ)) (b : β) : P γ := .loop (fun _ => none) body b

def skipSemis : P Unit :=
  repeating (fun _ => do
    if ← accept .semicolon then pure (.inl ()) else pure (.inr ())) ()

/-- Items with commas between them, up to `close`. -/
def commaList {α : Type} (close : TokenKind) (item : P α) : P (List α) :=
  repeating (fun items => do
    if (← check close) || (← check .eof) then pure (.inr items)
    else
      let x ← item
      if ← accept .comma then pure (.inl (items ++ [x])) else pure (.inr (items ++ [x]))) []

/-- Items as long as `sep` stands before them. -/
def separated {α : Type} (sep : TokenKind) (item : P α) (items : List α) : P (List α) :=
  repeating (fun items => do
    if ← accept sep then
      let x ← item
      pure (.inl (items ++ [x]))
    else pure (.inr items)) items

/-- The members of a body in braces. -/
def members {β : Type} (stalls : List Token → Option Trap) (item : β → P β) (b : β) : P β :=
  .loop stalls (fun b => do
    if (← check .rbrace) || (← check .eof) then pure (.inr b)
    else
      let b ← item b
      pure (.inl b)) b

def noStall (_ : List Token) : Option Trap := none

def stallsOn (l : Stall) (ts : List Token) : Option Trap :=
  if l.on (current ts).kind then some (.stall l) else none

/-- A name that is given to `strlen` or `strcmp`. -/
def needName (u : NullUse) : Option String → P String
  | some name => pure name
  | none => .trap (.null u)

/-- `consume_ident_name`. -/
def consumeIdentName : P (Option String) := do
  let t ← cur
  if isIdentOrKeyword t.kind then
    let _ ← advance
    pure (if t.kind = .ident then t.strVal else some (tokenKindName t.kind))
  else
    let t ← expect .ident "in field"
    pure t.strVal

/-- A name where keywords are names too; else `parser_expect` for its message. -/
def identName (context : String) : P (Option String) := do
  if ← checkName then consumeIdentName
  else
    let t ← expect .ident context
    pure t.strVal

def expectName (context : String) : P (Option String) := do
  let t ← expect .ident context
  pure t.strVal

def expectString (context : String) : P (Option String) := do
  let t ← expect .stringLit context
  pure t.strVal

/-- `parse_qualified_ident`; a missing part is empty. -/
def parseQualifiedIdent : P (Option String) := do
  let name ← consumeIdentName
  repeating (fun name => do
    if ← accept .dot then
      let next ← consumeIdentName
      pure (.inl (some (name.getD "" ++ "." ++ next.getD "")))
    else pure (.inr name)) name

/-- Where `parser_synchronize` stops. -/
def syncPoint : TokenKind → Bool
  | .fnK | .structK | .enumK | .traitK | .interfaceK | .implK | .letK | .forK | .whileK | .loopK
  | .ifK | .matchK | .returnK | .modK | .useK | .pubK | .typeK | .constK | .agentK | .capabilityK
  | .guardK | .taintK | .budgetK | .toolK | .skillK | .supervisorK | .meshK | .routerK
  | .progressK => true
  | _ => false

def calm : P Unit := .act fun _ s => ((), { s with panicMode := false })

def afterSemicolon : P Bool := .act fun _ s => (s.previous.kind == .semicolon, s)

/-- `parser_synchronize`. -/
def synchronize : P Unit := do
  calm
  repeating (fun _ => do
    let t ← cur
    if t.kind = .eof || (← afterSemicolon) || syncPoint t.kind then pure (.inr ())
    else
      let _ ← advance
      pure (.inl ())) ()

def panicking : P Bool := .act fun _ s => (s.panicMode, s)

/-- `skip_semis`, and then `parser_synchronize` in a panic. -/
def recover : P Unit := do
  skipSemis
  if ← panicking then synchronize else pure ()

end Limceron.Parse
