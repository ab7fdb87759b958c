/-
# `Limceron.Parse.Token` — tokens

The tokens of `lcn.h`.  A token carries the text of a name or of a string, the
value of an integer, the digits of a float, or the parts of an interpolated
string; the locations are left out.  What the lexer reports on the way to a token
is kept with the token, and is written to the reporter when the parser takes it
in.
-/
import Mathlib.Algebra.Ring.Nat
namespace Limceron.Parse

/-! ## Kinds -/

/-- `TokenKind`; keywords end in `K`. -/
inductive TokenKind where
  | intLit | floatLit | stringLit | interpString | charLit | ident | letK | mutK | fnK | returnK
  | ifK | elseK | matchK | forK | whileK | loopK | breakK | continueK | structK | enumK | traitK
  | implK | interfaceK | modK | useK | pubK | privK | spawnK | awaitK | selectK | chanK | deferK
  | unsafeK | comptimeK | typeK | asK | inK | isK | trueK | falseK | noneK | constK | agentK
  | guardK | capabilityK | taintK | budgetK | toolK | skillK | promptK | supervisorK | meshK
  | memoryK | askK | tellK | ensureK | invariantK | guardsetK | requiresK | otherwiseK | showingK
  | timeoutK | choicesK | repeatK | timesK | waitK | untilK | eachK | keepK | whereK | secretK
  | aboutK | channelK | routerK | routeK | strategyK | progressK | allowK | denyK | atSign | plus
  | minus | star | slash | percent | power | amp | pipe | caret | tilde | shl | shr | eqEq | notEq
  | lt | gt | ltEq | gtEq | andAnd | pipePipe | bang | eq | plusEq | minusEq | starEq | slashEq
  | percentEq | ampEq | pipeEq | caretEq | shlEq | shrEq | question | questionDot | dotDot
  | dotDotEq | arrow | fatArrow | colonColon | pipeGt | lparen | rparen | lbracket | rbracket
  | lbrace | rbrace | comma | dot | colon | semicolon | hash | newline | eof | error
  deriving DecidableEq, Repr

/-- `token_kind_name`. -/
def tokenKindName : TokenKind → String
  | .intLit => "integer"
  | .floatLit => "float"
  | .stringLit => "string"
  | .interpString => "interpolated string"
  | .charLit => "char"
  | .ident => "identifier"
  | .letK => "let"
  | .mutK => "mut"
  | .fnK => "fn"
  | .returnK => "return"
  | .ifK => "if"
  | .elseK => "else"
  | .matchK => "match"
  | .forK => "for"
  | .whileK => "while"
  | .loopK => "loop"
  | .breakK => "break"
  | .continueK => "continue"
  | .structK => "struct"
  | .enumK => "enum"
  | .traitK => "trait"
  | .implK => "impl"
  | .interfaceK => "interface"
  | .modK => "mod"
  | .useK => "use"
  | .pubK => "pub"
  | .privK => "priv"
  | .spawnK => "spawn"
  | .awaitK => "await"
  | .selectK => "select"
  | .chanK => "chan"
  | .deferK => "defer"
  | .unsafeK => "unsafe"
  | .comptimeK => "comptime"
  | .typeK => "type"
  | .asK => "as"
  | .inK => "in"
  | .isK => "is"
  | .trueK => "true"
  | .falseK => "false"
  | .noneK => "none"
  | .constK => "const"
  | .agentK => "agent"
  | .guardK => "guard"
  | .capabilityK => "capability"
  | .taintK => "taint"
  | .budgetK => "budget"
  | .toolK => "tool"
  | .skillK => "skill"
  | .promptK => "prompt"
  | .supervisorK => "supervisor"
  | .meshK => "mesh"
  | .memoryK => "memory"
  | .askK => "ask"
  | .tellK => "tell"
  | .ensureK => "ensure"
  | .invariantK => "invariant"
  | .guardsetK => "guardset"
  | .requiresK => "requires"
  | .otherwiseK => "otherwise"
  | .showingK => "showing"
  | .timeoutK => "timeout"
  | .choicesK => "choices"
  | .repeatK => "repeat"
  | .timesK => "times"
  | .waitK => "wait"
  | .untilK => "until"
  | .eachK => "each"
  | .keepK => "keep"
  | .whereK => "where"
  | .secretK => "secret"
  | .aboutK => "about"
  | .channelK => "channel"
  | .routerK => "router"
  | .routeK => "route"
  | .strategyK => "strategy"
  | .progressK => "progress"
  | .allowK => "allow"
  | .denyK => "deny"
  | .atSign => "@"
  | .plus => "+"
  | .minus => "-"
  | .star => "*"
  | .slash => "/"
  | .percent => "%"
  | .power => "**"
  | .amp => "&"
  | .pipe => "|"
  | .caret => "^"
  | .tilde => "~"
  | .shl => "<<"
  | .shr => ">>"
  | .eqEq => "=="
  | .notEq => "!="
  | .lt => "<"
  | .gt => ">"
  | .ltEq => "<="
  | .gtEq => ">="
  | .andAnd => "&&"
  | .pipePipe => "||"
  | .bang => "!"
  | .eq => "="
  | .plusEq => "+="
  | .minusEq => "-="
  | .starEq => "*="
  | .slashEq => "/="
  | .percentEq => "%="
  | .ampEq => "&="
  | .pipeEq => "|="
  | .caretEq => "^="
  | .shlEq => "<<="
  | .shrEq => ">>="
  | .question => "?"
  | .questionDot => "?."
  | .dotDot => ".."
  | .dotDotEq => "..="
  | .arrow => "->"
  | .fatArrow => "=>"
  | .colonColon => "::"
  | .pipeGt => "|>"
  | .lparen => "("
  | .rparen => ")"
  | .lbracket => "["
  | .rbracket => "]"
  | .lbrace => "\x7b"
  | .rbrace => "\x7d"
  | .comma => ","
  | .dot => "."
  | .colon => ":"
  | .semicolon => ";"
  | .hash => "#"
  | .newline => "newline"
  | .eof => "end of file"
  | .error => "error"

/-- `token_ends_stmt`: after these, a newline is a semicolon. -/
def tokenEndsStmt : TokenKind → Bool
  | .ident | .intLit | .floatLit | .stringLit | .interpString | .charLit | .returnK | .breakK
  | .continueK | .trueK | .falseK | .noneK | .rparen | .rbracket | .rbrace | .question => true
  | _ => false

/-- The table of `keyword_lookup`. -/
def keywords : List (String × TokenKind) :=
  [ ("let", .letK), ("fn", .fnK), ("if", .ifK), ("else", .elseK), ("return", .returnK),
    ("for", .forK), ("in", .inK), ("mut", .mutK), ("struct", .structK), ("enum", .enumK),
    ("match", .matchK), ("while", .whileK), ("loop", .loopK), ("break", .breakK),
    ("continue", .continueK), ("trait", .traitK), ("impl", .implK), ("interface", .interfaceK),
    ("mod", .modK), ("use", .useK), ("pub", .pubK), ("priv", .privK), ("spawn", .spawnK),
    ("await", .awaitK), ("select", .selectK), ("chan", .chanK), ("defer", .deferK),
    ("unsafe", .unsafeK), ("comptime", .comptimeK), ("type", .typeK), ("as", .asK), ("is", .isK),
    ("true", .trueK), ("false", .falseK), ("none", .noneK), ("const", .constK), ("agent", .agentK),
    ("guard", .guardK), ("capability", .capabilityK), ("taint", .taintK), ("budget", .budgetK),
    ("tool", .toolK), ("skill", .skillK), ("prompt", .promptK), ("supervisor", .supervisorK),
    ("mesh", .meshK), ("memory", .memoryK), ("ask", .askK), ("tell", .tellK), ("ensure", .ensureK),
    ("invariant", .invariantK), ("guardset", .guardsetK), ("requires", .requiresK),
    ("otherwise", .otherwiseK), ("showing", .showingK), ("timeout", .timeoutK),
    ("choices", .choicesK), ("repeat", .repeatK), ("times", .timesK), ("wait", .waitK),
    ("until", .untilK), ("each", .eachK), ("keep", .keepK), ("where", .whereK),
    ("secret", .secretK), ("about", .aboutK), ("channel", .channelK), ("router", .routerK),
    ("route", .routeK), ("strategy", .strategyK), ("progress", .progressK), ("allow", .allowK),
    ("deny", .denyK) ]

def keywordLookup (s : String) : TokenKind := (keywords.lookup s).getD .ident

/-! ## Tokens -/

/-- `InterpString`: each expression with the literal before it, and the literal at
the end. -/
structure InterpString where
  parts : List (String × String)
  last : String
  nestedDetected : Bool
  deriving DecidableEq, Repr

inductive TokenValue where
  | none
  | str (s : String)
  | int (v : Int)
  | float (digits : String)
  | interp (is : InterpString)
  deriving DecidableEq, Repr

structure Token where
  kind : TokenKind
  value : TokenValue := .none
  diags : List String := []
  deriving DecidableEq, Repr

namespace Token

/-- `value.str_val`; it is NULL in a token that `parser_expect` made up. -/
def strVal (t : Token) : Option String :=
  match t.value with
  | .str s => some s
  | _ => none

def intVal (t : Token) : Int :=
  match t.value with
  | .int v => v
  | _ => 0

def floatVal (t : Token) : String :=
  match t.value with
  | .float digits => digits
  | _ => ""

def interpVal (t : Token) : Option InterpString :=
  match t.value with
  | .interp is => some is
  | _ => none

/-- What the lexer returns at the end of the text. -/
def eof : Token := { kind := .eof }

/-- At least the characters the token was read from, those of the expressions
inside a string among them. -/
def weight (t : Token) : Nat :=
  match t.value with
  | .interp is => 1 + (is.parts.map fun part => part.2.length + 1).sum
  | _ => 1

theorem weight_pos (t : Token) : 0 < t.weight := by
  unfold weight
  split
  · omega
  · exact Nat.one_pos

end Token

end Limceron.Parse
