/-
# `Limceron.Parse.ExprTrees` — expressions come back

An expression is written with a blank before each of its tokens, and in parentheses where it
does not bind as tightly as its place asks for:

| place | binds tighter than |
| :-- | :-- |
| left of an operator of precedence `p` | `p - 1`, and `p` if it is `**` |
| right of it | `p`, and `p - 1` if it is `**` |
| behind a sign, as in `- e` | `PREC_POWER` |
| before `.`, `(`, `[` and `?` | `PREC_UNARY` |
| alone, in parentheses, between commas | `PREC_NONE` |

`expr_comes_back` says that `parse_expr` reads what was written.  The loop of `parse_expr` is
followed from the leftmost operand on: behind a text that may stand there it has the
expression in its hand and goes on (`Leading`), whatever stands next.
-/
import Limceron.Parse.Words

namespace Limceron.Parse

open Readers Readers.Reader

/-! ## Expressions -/

/-- A name; two of them begin expressions of their own. -/
structure Var extends Word where
  free : String.ofList chars ≠ "task_group" ∧ String.ofList chars ≠ "try"

def Word.name (w : Word) : String := String.ofList w.chars

/-- What stands before an operand. -/
inductive Unary where
  | minus | bang | tilde | ref | refMut | deref
  deriving DecidableEq

/-- What stands between two operands. -/
inductive Operator where
  | pipe | or | and | bitOr | bitXor | bitAnd | eq | ne | lt | gt | le | ge | shl | shr
  | range | rangeTo | add | sub | mul | div | rem | pow
  deriving DecidableEq

inductive Ex where
  | var (v : Var)
  | int (n : Fin 9223372036854775808)
  | bool (b : Bool)
  | none
  | grouped (e : Ex)
  | tuple (es : List Ex)
  | array (es : List Ex)
  | unary (op : Unary) (e : Ex)
  | binary (op : Operator) (l r : Ex)
  | openRange (e : Ex) (incl : Bool)
  | field (e : Ex) (f : Word)
  | method (e : Ex) (f : Word) (args : List Ex)
  | index (e i : Ex)
  | call (f : Ex) (args : List Ex)
  | question (e : Ex)
  | closure (params : List Word) (body : Ex)
  | await (e : Ex)

/-! ## What is built -/

def Unary.node (e : Node) : Unary → Node
  | .minus => { kind := .unary, val := .op .minus, left := [e] }
  | .bang => { kind := .unary, val := .op .bang, left := [e] }
  | .tilde => { kind := .unary, val := .op .tilde, left := [e] }
  | .ref => { kind := .ref, left := [e] }
  | .refMut => { kind := .ref, isMut := true, left := [e] }
  | .deref => { kind := .deref, left := [e] }

def Operator.kind : Operator → TokenKind
  | .pipe => .pipeGt
  | .or => .pipePipe
  | .and => .andAnd
  | .bitOr => .pipe
  | .bitXor => .caret
  | .bitAnd => .amp
  | .eq => .eqEq
  | .ne => .notEq
  | .lt => .lt
  | .gt => .gt
  | .le => .ltEq
  | .ge => .gtEq
  | .shl => .shl
  | .shr => .shr
  | .range => .dotDot
  | .rangeTo => .dotDotEq
  | .add => .plus
  | .sub => .minus
  | .mul => .star
  | .div => .slash
  | .rem => .percent
  | .pow => .power

def Operator.node (l r : Node) : Operator → Node
  | .pipe => { kind := .pipe, left := [l], right := [r] }
  | .range => { kind := .range, left := [l], right := [r] }
  | .rangeTo => { kind := .range, isMut := true, left := [l], right := [r] }
  | op => { kind := .binary, val := .op op.kind, left := [l], right := [r] }

/-- A call of a method, or of the host. -/
def methodNode (left : Node) (field : String) (args : List Node) : Node :=
  match hostNamespace left with
  | some ns =>
      { kind := .hostCall, left := [left], name := some (ns ++ "." ++ field), params := args }
  | none => { kind := .methodCall, left := [left], name := some field, params := args }

def paramNode (w : Word) : Node := { kind := .param, name := some w.name }

namespace Ex

mutual

def node : Ex → Node
  | .var v => { kind := .ident, name := some v.name }
  | .int n => { kind := .intLit, val := .int n }
  | .bool b => { kind := .boolLit, val := .bool b }
  | .none => { kind := .noneLit }
  | .grouped e => e.node
  | .tuple es => { kind := .tuple, params := nodes es }
  | .array es => { kind := .array, params := nodes es }
  | .unary op e => op.node e.node
  | .binary op l r => op.node l.node r.node
  | .openRange e incl => { kind := .range, left := [e.node], isMut := incl }
  | .field e f => { kind := .fieldAccess, left := [e.node], name := some f.name }
  | .method e f args => methodNode e.node f.name (nodes args)
  | .index e i => { kind := .index, left := [e.node], right := [i.node] }
  | .call f args => callNode f.node (nodes args)
  | .question e => { kind := .tryE, left := [e.node] }
  | .closure params body =>
      { kind := .closure, params := params.map paramNode, left := [body.node] }
  | .await e => { kind := .awaitE, left := [e.node] }

def nodes : List Ex → List Node
  | [] => []
  | e :: es => e.node :: nodes es

end

end Ex

/-! ## What is written -/

def Operator.prec (op : Operator) : Nat := getPrecedence op.kind

/-- What the operand on the left binds tighter than. -/
def Operator.left (op : Operator) : Nat := if op = .pow then op.prec else op.prec - 1

/-- What the operand on the right binds tighter than. -/
def Operator.right (op : Operator) : Nat := if op = .pow then op.prec - 1 else op.prec

def Unary.write (rest : List Char) : Unary → List Char
  | .minus => ' ' :: '-' :: rest
  | .bang => ' ' :: '!' :: rest
  | .tilde => ' ' :: '~' :: rest
  | .ref => ' ' :: '&' :: rest
  | .refMut => ' ' :: '&' :: ' ' :: 'm' :: 'u' :: 't' :: rest
  | .deref => ' ' :: '*' :: rest

def Operator.write (rest : List Char) : Operator → List Char
  | .pipe => ' ' :: '|' :: '>' :: rest
  | .or => ' ' :: '|' :: '|' :: rest
  | .and => ' ' :: '&' :: '&' :: rest
  | .bitOr => ' ' :: '|' :: rest
  | .bitXor => ' ' :: '^' :: rest
  | .bitAnd => ' ' :: '&' :: rest
  | .eq => ' ' :: '=' :: '=' :: rest
  | .ne => ' ' :: '!' :: '=' :: rest
  | .lt => ' ' :: '<' :: rest
  | .gt => ' ' :: '>' :: rest
  | .le => ' ' :: '<' :: '=' :: rest
  | .ge => ' ' :: '>' :: '=' :: rest
  | .shl => ' ' :: '<' :: '<' :: rest
  | .shr => ' ' :: '>' :: '>' :: rest
  | .range => ' ' :: '.' :: '.' :: rest
  | .rangeTo => ' ' :: '.' :: '.' :: '=' :: rest
  | .add => ' ' :: '+' :: rest
  | .sub => ' ' :: '-' :: rest
  | .mul => ' ' :: '*' :: rest
  | .div => ' ' :: '/' :: rest
  | .rem => ' ' :: '%' :: rest
  | .pow => ' ' :: '*' :: '*' :: rest

def Word.write (w : Word) (rest : List Char) : List Char := ' ' :: (w.chars ++ rest)

/-- Texts with commas before them. -/
def commas : List (List Char → List Char) → List Char → List Char
  | [], rest => rest
  | w :: ws, rest => ' ' :: ',' :: w (commas ws rest)

/-- Texts with commas between them. -/
def joined : List (List Char → List Char) → List Char → List Char
  | [], rest => rest
  | w :: ws, rest => w (commas ws rest)

namespace Ex

/-- How tightly an expression binds. -/
def level : Ex → Nat
  | .binary op _ _ => op.prec
  | .unary _ _ => Precedence.unary
  | .openRange _ _ | .closure _ _ | .await _ => Precedence.assign
  | _ => Precedence.postfixOp

/-- An expression where it has to bind tighter than `p`, `write` being its text. -/
def inside (p : Nat) (e : Ex) (write : List Char → List Char) (rest : List Char) :
    List Char :=
  if p < e.level then write rest else ' ' :: '(' :: write (' ' :: ')' :: rest)

/-- What is called binds tighter than this; a field that is called would be a method. -/
def callLevel : Ex → Nat
  | .field _ _ => Precedence.postfixOp
  | _ => Precedence.unary

mutual

/-- The text of an expression, before `rest`. -/
def write : Ex → List Char → List Char
  | .var v, rest => v.write rest
  | .int n, rest => ' ' :: (Nat.toDigits 10 n ++ rest)
  | .bool true, rest => ' ' :: 't' :: 'r' :: 'u' :: 'e' :: rest
  | .bool false, rest => ' ' :: 'f' :: 'a' :: 'l' :: 's' :: 'e' :: rest
  | .none, rest => ' ' :: 'n' :: 'o' :: 'n' :: 'e' :: rest
  | .grouped e, rest => ' ' :: '(' :: e.write (' ' :: ')' :: rest)
  | .tuple [], rest => ' ' :: '(' :: ' ' :: ')' :: rest
  | .tuple (e :: es), rest =>
      ' ' :: '(' :: e.write (' ' :: ',' :: joined (writes es) (' ' :: ')' :: rest))
  | .array es, rest => ' ' :: '[' :: joined (writes es) (' ' :: ']' :: rest)
  | .unary op e, rest => op.write (e.inside Precedence.power e.write rest)
  | .binary op l r, rest =>
      l.inside op.left l.write (op.write (r.inside op.right r.write rest))
  | .openRange e false, rest =>
      e.inside (Operator.left .range) e.write (Operator.write rest .range)
  | .openRange e true, rest =>
      e.inside (Operator.left .rangeTo) e.write (Operator.write rest .rangeTo)
  | .field e f, rest => e.inside Precedence.unary e.write (' ' :: '.' :: f.write rest)
  | .method e f args, rest =>
      e.inside Precedence.unary e.write
        (' ' :: '.' :: f.write (' ' :: '(' :: joined (writes args) (' ' :: ')' :: rest)))
  | .index e i, rest => e.inside Precedence.unary e.write (' ' :: '[' :: i.write (' ' :: ']' :: rest))
  | .call f args, rest =>
      f.inside f.callLevel f.write (' ' :: '(' :: joined (writes args) (' ' :: ')' :: rest))
  | .question e, rest => e.inside Precedence.unary e.write (' ' :: '?' :: rest)
  | .closure params body, rest =>
      ' ' :: '|' :: joined (params.map Word.write) (' ' :: '|' :: body.write rest)
  | .await e, rest => ' ' :: 'a' :: 'w' :: 'a' :: 'i' :: 't' :: e.write rest

def writes : List Ex → List (List Char → List Char)
  | [] => []
  | e :: es => e.write :: writes es

end

def text (e : Ex) : List Char := e.write []

theorem induct {motive : Ex → Prop} (var : ∀ v, motive (.var v)) (int : ∀ n, motive (.int n))
    (bool : ∀ b, motive (.bool b)) (none : motive .none)
    (grouped : ∀ e, motive e → motive (.grouped e))
    (tuple : ∀ es, (∀ e ∈ es, motive e) → motive (.tuple es))
    (array : ∀ es, (∀ e ∈ es, motive e) → motive (.array es))
    (unary : ∀ op e, motive e → motive (.unary op e))
    (binary : ∀ op l r, motive l → motive r → motive (.binary op l r))
    (openRange : ∀ e incl, motive e → motive (.openRange e incl))
    (field : ∀ e f, motive e → motive (.field e f))
    (method : ∀ e f args, motive e → (∀ a ∈ args, motive a) → motive (.method e f args))
    (index : ∀ e i, motive e → motive i → motive (.index e i))
    (call : ∀ f args, motive f → (∀ a ∈ args, motive a) → motive (.call f args))
    (question : ∀ e, motive e → motive (.question e))
    (closure : ∀ params body, motive body → motive (.closure params body))
    (await : ∀ e, motive e → motive (.await e)) (e : Ex) : motive e :=
  @Ex.rec motive (fun es => ∀ e ∈ es, motive e) var int bool none grouped tuple array unary binary
    openRange field method index call question closure await
    (fun _ h => absurd h List.not_mem_nil)
    (fun _ _ he hes => List.forall_mem_cons.2 ⟨he, hes⟩) e

end Ex

/-! ## Tokens of an expression -/

/-- The text is over, or goes on with a blank. -/
def Spaced (rest : List Char) : Prop := rest = [] ∨ ∃ cs, rest = ' ' :: cs

theorem spaced_cons (rest : List Char) : Spaced (' ' :: rest) := .inr ⟨rest, rfl⟩

theorem Operator.spaced (op : Operator) (rest : List Char) : Spaced (op.write rest) := by
  cases op
  all_goals exact spaced_cons _

theorem Spaced.apart {rest : List Char} (h : Spaced rest) : Apart rest := by
  rcases h with rfl | ⟨cs, rfl⟩
  · nofun
  · exact apart_space cs

section Lexemes

variable {rest : List Char}

theorem Word.spaced (w : Word) (rest : List Char) : Spaced (w.write rest) := spaced_cons _

theorem Word.lexeme_write (w : Word) (h : Spaced rest) : Lexeme (w.write rest) w.token rest :=
  (w.lexeme h.apart).space

theorem int_lexeme (n : Fin 9223372036854775808) (h : Spaced rest) :
    Lexeme (' ' :: (Nat.toDigits 10 n ++ rest)) { kind := .intLit, value := .int (n : Nat) }
      rest := by
  refine (digits_lexeme n h.apart ?_).space
  rcases h with rfl | ⟨cs, rfl⟩
  all_goals nofun

theorem Operator.lexeme (op : Operator) (h : Spaced rest) :
    Lexeme (op.write rest) (sign op.kind) rest := by
  rcases h with rfl | ⟨cs, rfl⟩
  all_goals cases op
  all_goals exact ⟨rfl, rfl, by decide⟩

theorem bang_lexeme (h : Spaced rest) : Lexeme (' ' :: '!' :: rest) (sign .bang) rest := by
  rcases h with rfl | ⟨cs, rfl⟩
  all_goals exact ⟨rfl, rfl, by decide⟩

theorem tilde_lexeme (rest : List Char) : Lexeme (' ' :: '~' :: rest) (sign .tilde) rest :=
  ⟨rfl, rfl, by decide⟩

theorem period_lexeme (h : Spaced rest) : Lexeme (' ' :: '.' :: rest) (sign .dot) rest := by
  rcases h with rfl | ⟨cs, rfl⟩
  all_goals exact ⟨rfl, rfl, by decide⟩

theorem question_lexeme (h : Spaced rest) :
    Lexeme (' ' :: '?' :: rest) (sign .question) rest := by
  rcases h with rfl | ⟨cs, rfl⟩
  all_goals exact ⟨rfl, rfl, by decide⟩

theorem true_lexeme (h : Spaced rest) :
    Lexeme (' ' :: 't' :: 'r' :: 'u' :: 'e' :: rest) (keyword .trueK) rest :=
  (keyword_lexeme 't' ['r', 'u', 'e'] rfl rfl rfl (by decide) h.apart).space

theorem false_lexeme (h : Spaced rest) :
    Lexeme (' ' :: 'f' :: 'a' :: 'l' :: 's' :: 'e' :: rest) (keyword .falseK) rest :=
  (keyword_lexeme 'f' ['a', 'l', 's', 'e'] rfl rfl rfl (by decide) h.apart).space

theorem none_lexeme (h : Spaced rest) :
    Lexeme (' ' :: 'n' :: 'o' :: 'n' :: 'e' :: rest) (keyword .noneK) rest :=
  (keyword_lexeme 'n' ['o', 'n', 'e'] rfl rfl rfl (by decide) h.apart).space

theorem await_lexeme (h : Spaced rest) :
    Lexeme (' ' :: 'a' :: 'w' :: 'a' :: 'i' :: 't' :: rest) (keyword .awaitK) rest :=
  (keyword_lexeme 'a' ['w', 'a', 'i', 't'] rfl rfl rfl (by decide) h.apart).space

theorem mut_lexeme_write (h : Spaced rest) :
    Lexeme (' ' :: 'm' :: 'u' :: 't' :: rest) (keyword .mutK) rest :=
  (keyword_lexeme 'm' ['u', 't'] rfl rfl rfl (by decide) h.apart).space

end Lexemes

/-- What an expression begins with. -/
def openers : List TokenKind :=
  [.intLit, .trueK, .falseK, .noneK, .ident, .lparen, .lbracket, .minus, .bang, .tilde, .amp,
    .star, .pipe, .awaitK]

/-- The text begins like an expression. -/
structure Begins (cs : List Char) : Prop where
  lexeme : ∃ tok rest, Lexeme cs tok rest ∧ tok.kind ∈ openers
  spaced : Spaced cs

theorem Begins.head {cs : List Char} (h : Begins cs) : Head cs := by
  obtain ⟨⟨tok, rest, hlexeme, -⟩, -⟩ := h
  exact hlexeme.head

theorem Begins.kind {cs : List Char} (h : Begins cs) : kindOf cs ∈ openers := by
  obtain ⟨⟨tok, rest, hlexeme, hkind⟩, -⟩ := h
  rwa [hlexeme.kindOf]

theorem Begins.kind_ne {cs : List Char} (h : Begins cs) {k : TokenKind} (hk : k ∉ openers) :
    kindOf cs ≠ k := by
  rintro rfl
  exact hk h.kind

theorem Lexeme.begins {cs rest : List Char} {tok : Token} (h : Lexeme (' ' :: cs) tok rest)
    (hk : tok.kind ∈ openers) : Begins (' ' :: cs) :=
  ⟨⟨tok, rest, h, hk⟩, spaced_cons cs⟩

theorem Unary.begins (op : Unary) {cs : List Char} (h : Spaced cs) : Begins (op.write cs) := by
  cases op with
  | minus => exact (Operator.lexeme .sub h).begins (by decide)
  | bang => exact (bang_lexeme h).begins (by decide)
  | tilde => exact (tilde_lexeme cs).begins (by decide)
  | ref => exact (Operator.lexeme .bitAnd h).begins (by decide)
  | refMut => exact (Operator.lexeme .bitAnd (spaced_cons _)).begins (by decide)
  | deref => exact (Operator.lexeme .mul h).begins (by decide)

namespace Ex

theorem begins_inside (p : Nat) (e : Ex) {write : List Char → List Char}
    {rest : List Char} (h : ∀ rest, Spaced rest → Begins (write rest)) (hrest : Spaced rest) :
    Begins (e.inside p write rest) := by
  rw [inside]
  split
  · exact h rest hrest
  · exact (lparen_lexeme _).space.begins (by decide)

theorem begins (e : Ex) : ∀ rest, Spaced rest → Begins (e.write rest) := by
  induction e using Ex.induct with
  | var v => exact fun rest h => (v.lexeme_write h).begins (show .ident ∈ openers by decide)
  | int n => exact fun rest h => (int_lexeme n h).begins List.mem_cons_self
  | bool b =>
      intro rest h
      cases b with
      | false => exact (false_lexeme h).begins (by decide)
      | true => exact (true_lexeme h).begins (by decide)
  | none => exact fun rest h => (none_lexeme h).begins (by decide)
  | grouped e _ => exact fun rest _ => (lparen_lexeme _).space.begins (by decide)
  | tuple es _ =>
      intro rest _
      cases es with
      | nil => exact (lparen_lexeme _).space.begins (by decide)
      | cons e es => exact (lparen_lexeme _).space.begins (by decide)
  | array es _ => exact fun rest _ => (lbracket_lexeme _).space.begins (by decide)
  | unary op e ih => exact fun rest h => op.begins (e.begins_inside Precedence.power ih h).spaced
  | binary op l r ihl _ => exact fun rest _ => l.begins_inside op.left ihl (op.spaced _)
  | openRange e incl ih =>
      intro rest _
      cases incl with
      | false => exact e.begins_inside _ ih (Operator.spaced .range rest)
      | true => exact e.begins_inside _ ih (Operator.spaced .rangeTo rest)
  | field e f ih => exact fun rest _ => e.begins_inside Precedence.unary ih (spaced_cons _)
  | method e f args ih _ => exact fun rest _ => e.begins_inside Precedence.unary ih (spaced_cons _)
  | index e i ih _ => exact fun rest _ => e.begins_inside Precedence.unary ih (spaced_cons _)
  | call f args ih _ => exact fun rest _ => f.begins_inside f.callLevel ih (spaced_cons _)
  | question e ih => exact fun rest _ => e.begins_inside Precedence.unary ih (spaced_cons _)
  | closure params body _ =>
      intro rest _
      cases params with
      | nil => exact (Operator.lexeme .bitOr (spaced_cons _)).begins (by decide)
      | cons w ws => exact (Operator.lexeme .bitOr (spaced_cons _)).begins (by decide)
  | await e ih => exact fun rest h => (await_lexeme (ih rest h).spaced).begins (by decide)

end Ex

/-! ## What may stand behind an expression -/

/-- Nothing that binds tighter than `p`. -/
structure Behind (p : Nat) (rest : List Char) : Prop where
  spaced : Spaced rest
  head : Head rest
  prec : getPrecedence (kindOf rest) ≤ p
  brace : kindOf rest ≠ .lbrace

/-- The end of an expression that takes all it can. -/
structure Over (rest : List Char) : Prop extends Behind Precedence.none rest where
  ends : endsRange (kindOf rest) = true

theorem Behind.mono {p q : Nat} {rest : List Char} (h : Behind p rest) (hpq : p ≤ q) :
    Behind q rest :=
  ⟨h.spaced, h.head, h.prec.trans hpq, h.brace⟩

theorem Lexeme.behind {cs rest : List Char} {tok : Token} (h : Lexeme (' ' :: cs) tok rest)
    (hbrace : tok.kind ≠ .lbrace) : Behind (getPrecedence tok.kind) (' ' :: cs) :=
  ⟨spaced_cons cs, h.head, by rw [h.kindOf], by rwa [h.kindOf]⟩

theorem Lexeme.over {cs rest : List Char} {tok : Token} (h : Lexeme (' ' :: cs) tok rest)
    (hk : tok.kind ∈ [.rparen, .rbracket, .comma]) : Over (' ' :: cs) := by
  refine ⟨⟨spaced_cons cs, h.head, ?_, ?_⟩, ?_⟩
  all_goals
    rw [h.kindOf]
    simp only [List.mem_cons, List.not_mem_nil, or_false] at hk
    rcases hk with hk | hk | hk
    all_goals
      rw [hk]
      decide

section Closers

variable (rest : List Char)

theorem over_rparen : Over (' ' :: ')' :: rest) :=
  (rparen_lexeme rest).space.over (by decide)

theorem over_rbracket : Over (' ' :: ']' :: rest) :=
  (rbracket_lexeme rest).space.over (by decide)

theorem over_comma : Over (' ' :: ',' :: rest) := (comma_lexeme rest).space.over (by decide)

theorem over_nil : Over [] := by
  refine ⟨⟨.inl rfl, .inl rfl, ?_, ?_⟩, ?_⟩
  all_goals decide

end Closers

namespace Ex

/-- What stands behind an expression binds no tighter than this. -/
def edge : Ex → Nat
  | .binary op _ _ => op.right
  | .unary _ _ => Precedence.unary
  | .openRange _ _ | .closure _ _ | .await _ => Precedence.none
  | _ => Precedence.postfixOp

/-- Nothing behind the expression belongs to it. -/
structure Before (e : Ex) (rest : List Char) : Prop extends Behind e.edge rest where
  ends : e.level = Precedence.assign → endsRange (kindOf rest) = true
  call : e.callLevel = Precedence.postfixOp → kindOf rest ≠ .lparen

/-- The loop for `m` takes the operator of the expression. -/
def Takes (m : Nat) : Ex → Prop
  | .binary op _ _ => m < op.prec
  | .openRange _ _ => m < Precedence.range
  | _ => True

end Ex

theorem Operator.prec_pos (op : Operator) : 1 < op.prec := by
  cases op
  all_goals decide

theorem Operator.prec_le (op : Operator) : op.prec ≤ 14 := by
  cases op
  all_goals decide

theorem Operator.prec_lt {op : Operator} (h : op ≠ .pow) : op.prec < 14 := by
  cases op
  case pow => exact absurd rfl h
  all_goals decide

theorem Operator.left_bounds (op : Operator) : op.prec ≤ op.left + 1 ∧ op.left ≤ op.prec := by
  rw [Operator.left]
  split
  · omega
  · omega

theorem Operator.right_bounds (op : Operator) : op.prec ≤ op.right + 1 ∧ op.right ≤ op.prec := by
  rw [Operator.right]
  split
  · omega
  · omega

/-- An operand on the left of `op` that is written as it stands leaves `op` alone. -/
theorem Operator.prec_le_right {op inner : Operator} (h : op.left < inner.prec) :
    op.prec ≤ inner.right := by
  rw [Operator.left] at h
  rw [Operator.right]
  have hinner := inner.prec_le
  split at h
  · next heq =>
      subst heq
      have hpow : Operator.prec .pow = 14 := rfl
      omega
  · next hne =>
      have hop := Operator.prec_lt hne
      split
      · next heq =>
          subst heq
          have hpow : Operator.prec .pow = 14 := rfl
          omega
      · omega

/-! ## The loop of `parse_expr` -/

theorem Head.reads_cur {cs : List Char} (h : Head cs) : Reads cur cs (lexerNextRaw cs).1 cs := by
  rcases h with rfl | ⟨tok, rest, hlexeme⟩
  · intro ts s hts hs
    obtain rfl := hts.nil
    exact ⟨[], s, ends_act _, hts, hs⟩
  · rw [hlexeme.next]
    exact hlexeme.reads_cur

def exprStep (m : Precedence) (left : Node) : P (Node ⊕ Node) := do
  let t ← cur
  if t.kind = .eof || getPrecedence t.kind ≤ m then pure (.inr left)
  else
    let left ← parseOperator left t.kind
    pure (.inl left)

def exprLoop (m : Precedence) (left : Node) : P Node := repeating (exprStep m) left

section Loop

variable {m : Precedence} {cs rest : List Char} {tok : Token} {left e : Node}

theorem loop_stops (h : Behind m rest) (left : Node) : Reads (exprLoop m left) rest left rest := by
  refine reads_leave (h.head.reads_cur.bind ?_)
  have hstop : getPrecedence (lexerNextRaw rest).1.kind ≤ m := h.prec
  rw [decide_eq_true hstop, Bool.or_true]
  exact reads_pure _ rest

theorem Lexeme.loop (h : Lexeme cs tok rest) (hm : m < getPrecedence tok.kind) {after : List Char}
    (hop : Reads (parseOperator left tok.kind) cs e after) :
    Leads (exprLoop m left) cs (exprLoop m e) after := by
  refine leads_goOn (h.reads_cur.bind ?_)
  have hfalse : (decide (tok.kind = .eof) || decide (getPrecedence tok.kind ≤ m)) = false := by
    rw [Bool.or_eq_false_iff]
    exact ⟨decide_eq_false h.plain.1, decide_eq_false (Nat.not_le.2 hm)⟩
  rw [hfalse]
  exact hop.bind (reads_pure _ after)

/-- What is read by `parse_prefix` is in the hand of the loop. -/
theorem Reads.leading (h : Reads parsePrefix cs e rest) (m : Precedence) :
    Leads (parseExpr m) cs (exprLoop m e) rest :=
  ((leads_call .leading _).reads h).leads

theorem Leads.expr (h : Leads (parseExpr m) cs (exprLoop m e) rest) (hrest : Behind m rest) :
    Reads (.call (.expr m)) cs e rest :=
  (leads_call (.expr m) _).reads (h.reads (loop_stops hrest e))

end Loop

namespace Ex

/-- Where `e` is written, the loop comes to have it in its hand. -/
def Leading (e : Ex) : Prop := ∀ m rest, m ≤ 15 → e.Takes m → e.Before rest →
  Leads (parseExpr m) (e.write rest) (exprLoop m e.node) rest

section Places

variable {e : Ex} {rest : List Char}

theorem takes_none (e : Ex) : e.Takes Precedence.none := by
  cases e with
  | binary op l r => exact Nat.lt_of_succ_lt op.prec_pos
  | openRange e incl => exact (by decide : 0 < 11)
  | _ => trivial

theorem Before.of_over (h : Over rest) : e.Before rest := by
  refine ⟨h.toBehind.mono (Nat.zero_le _), fun _ => h.ends, ?_⟩
  intro _ hparen
  have hends := h.ends
  rw [hparen] at hends
  cases hends

theorem Leading.alone (h : e.Leading) (hrest : Over rest) :
    Reads (.call (.expr .none)) (e.write rest) e.node rest :=
  (h Precedence.none rest (Nat.zero_le 15) e.takes_none (.of_over hrest)).expr hrest.toBehind

theorem Leading.paren (h : e.Leading) (hrest : Head rest) :
    Reads parsePrefix (' ' :: '(' :: e.write (' ' :: ')' :: rest)) e.node rest := by
  have hopen := (lparen_lexeme (e.write (' ' :: ')' :: rest))).space
  have hclose := (rparen_lexeme rest).space
  have hbegins := e.begins (' ' :: ')' :: rest) (spaced_cons _)
  refine hopen.reads_cur.bind ((hopen.reads_advance hbegins.head).bind ?_)
  refine (leads_decline hbegins.head (hbegins.kind_ne (by decide)) _ _).reads ?_
  refine (h.alone (over_rparen rest)).bind ?_
  refine (leads_decline hclose.head (by rw [hclose.kindOf]; decide) _ _).reads ?_
  exact (hclose.reads_expect hrest rfl _).bind (reads_pure _ rest)

/-- An operand, in parentheses or not. -/
theorem Leading.inside (h : e.Leading) {p : Nat} {m : Precedence} (hm : m ≤ 15)
    (hp : p < e.level → e.Takes m ∧ e.Before rest) (hrest : Head rest) :
    Leads (parseExpr m) (e.inside p e.write rest) (exprLoop m e.node) rest := by
  unfold Ex.inside
  split
  · next hlt => exact h m rest hm (hp hlt).1 (hp hlt).2
  · exact (h.paren hrest).leading m

/-- An operation, an expression that takes all it can, or one that binds tightly. -/
theorem kinds (e : Ex) : (∃ op l r, e = .binary op l r) ∨ e.level = 1 ∨
    (15 ≤ e.level ∧ e.level ≤ 16 ∧ e.edge = e.level ∧ ∀ m, e.Takes m) := by
  cases e with
  | binary op l r => exact .inl ⟨op, l, r, rfl⟩
  | openRange e incl => exact .inr (.inl rfl)
  | closure params body => exact .inr (.inl rfl)
  | await e => exact .inr (.inl rfl)
  | unary op e => exact .inr (.inr ⟨Nat.le_refl 15, Nat.le_succ 15, rfl, fun _ => trivial⟩)
  | _ => exact .inr (.inr ⟨Nat.le_succ 15, Nat.le_refl 16, rfl, fun _ => trivial⟩)

/-- An operand on the left of `op`. -/
theorem Leading.left (h : e.Leading) (op : Operator) {m : Precedence} (hm : m < op.prec)
    (hrest : Spaced rest) :
    Leads (parseExpr m) (e.inside op.left e.write (op.write rest)) (exprLoop m e.node)
      (op.write rest) := by
  have hlexeme := op.lexeme hrest
  have hbounds := op.left_bounds
  have hpos := op.prec_pos
  have hle := op.prec_le
  have hkind : kindOf (op.write rest) = op.kind := hlexeme.kindOf
  have hplain : op.kind ≠ .lbrace ∧ op.kind ≠ .lparen := by cases op <;> decide
  have hbehind : Behind op.prec (op.write rest) := by
    refine ⟨op.spaced rest, hlexeme.head, ?_, ?_⟩
    · rw [hkind, Operator.prec]
    · rw [hkind]
      exact hplain.1
  have hparen : kindOf (op.write rest) ≠ .lparen := by
    rw [hkind]
    exact hplain.2
  refine h.inside (hm.le.trans (hle.trans (by decide))) (fun hlt => ?_) hlexeme.head
  rcases e.kinds with ⟨inner, l, r, rfl⟩ | hopen | ⟨hlevel, -, hedge, htakes⟩
  · have hinner := inner.prec_pos
    change op.left < inner.prec at hlt
    refine ⟨lt_of_lt_of_le hm (by omega), hbehind.mono (Operator.prec_le_right hlt), ?_, nofun⟩
    intro hassign
    change inner.prec = 1 at hassign
    omega
  · omega
  · refine ⟨htakes m, hbehind.mono (by omega), fun hassign => ?_, fun _ => hparen⟩
    change e.level = 1 at hassign
    omega

/-- An operand behind an operator or a sign, where the loop for `m` reads it. -/
theorem Leading.operand (h : e.Leading) {p : Nat} {m : Precedence} (hrest : Behind m rest)
    (hm : m ≤ 15) (hp : p < e.level → e.Takes m ∧ m ≤ e.edge ∧ e.level ≠ 1) :
    Reads (.call (.expr m)) (e.inside p e.write rest) e.node rest := by
  refine (h.inside hm (fun hlt => ?_) hrest.head).expr hrest
  obtain ⟨htakes, hedge, hassign⟩ := hp hlt
  refine ⟨htakes, hrest.mono hedge, fun heq => absurd heq hassign, ?_⟩
  intro _ hparen
  have hprec := hrest.prec
  rw [hparen] at hprec
  exact absurd (hprec.trans hm) (by decide)

/-- An operand on the right of `op`. -/
theorem Leading.right (h : e.Leading) (op : Operator) (hrest : Behind op.right rest) :
    Reads (.call (.expr op.right)) (e.inside op.right e.write rest) e.node rest := by
  have hbounds := op.right_bounds
  have hpos := op.prec_pos
  have hle := op.prec_le
  refine h.operand hrest (hbounds.2.trans (by omega)) fun hlt => ?_
  rcases e.kinds with ⟨inner, l, r, rfl⟩ | hopen | ⟨hlevel, -, hedge, htakes⟩
  · have hinner := inner.right_bounds
    have hprec := inner.prec_pos
    change op.right < inner.prec at hlt
    refine ⟨hlt, ?_, (Nat.ne_of_lt hprec).symm⟩
    change op.right ≤ inner.right
    omega
  · omega
  · refine ⟨htakes _, ?_, by omega⟩
    change op.right ≤ e.edge
    omega

/-- The operand of a sign. -/
theorem Leading.signed (h : e.Leading) (hrest : Behind Precedence.unary rest) :
    Reads (.call (.expr .unary)) (e.inside Precedence.power e.write rest) e.node rest := by
  refine h.operand hrest (Nat.le_refl 15) fun hlt => ?_
  change 14 < e.level at hlt
  rcases e.kinds with ⟨inner, l, r, rfl⟩ | hopen | ⟨hlevel, -, hedge, htakes⟩
  · exact absurd hlt (Nat.not_lt.2 inner.prec_le)
  · omega
  · refine ⟨htakes _, ?_, by omega⟩
    rw [hedge]
    exact hlevel

/-- An operand before `.`, `[` or `?`, or before `(` if it is not a field. -/
theorem Leading.before (h : e.Leading) {p : Nat} {m : Precedence} (hm : m ≤ 15) (hp : 15 ≤ p)
    (hrest : Behind Precedence.postfixOp rest)
    (hcall : kindOf rest = .lparen → e.callLevel ≤ p) :
    Leads (parseExpr m) (e.inside p e.write rest) (exprLoop m e.node) rest := by
  refine h.inside hm (fun hlt => ?_) hrest.head
  rcases e.kinds with ⟨inner, l, r, rfl⟩ | hopen | ⟨hlevel, hle, hedge, htakes⟩
  · have hinner := inner.prec_le
    change p < inner.prec at hlt
    omega
  · omega
  · have hsixteen : e.level = 16 := by omega
    refine ⟨htakes m, ?_, fun hassign => ?_, fun hfield hparen => ?_⟩
    · rw [hedge, hsixteen]
      exact hrest
    · rw [hsixteen] at hassign
      cases hassign
    · have hcallee := hcall hparen
      rw [hfield] at hcallee
      change 16 ≤ p at hcallee
      omega

end Places

end Ex

/-! ## Operators -/

section Operators

variable {cs rest : List Char} {l r e : Node}

theorem operator_infix (op : Operator) (l : Node) :
    parseOperator l op.kind = parseInfix l op.kind := by
  cases op
  all_goals rfl

theorem Operator.reads (op : Operator) (hcs : Begins cs)
    (h : Reads (.call (.expr op.right)) cs r rest) (l : Node) :
    Reads (parseInfix l op.kind) (op.write cs) (op.node l r) rest := by
  have hadvance := (op.lexeme hcs.spaced).reads_advance hcs.head
  have hends : endsRange (lexerNextRaw cs).1.kind = false := by
    have hkind := hcs.kind
    change (kindOf cs ∈ openers) at hkind
    revert hkind
    change kindOf cs ∈ openers → endsRange (kindOf cs) = false
    generalize kindOf cs = k
    revert k
    decide
  cases op
  case range =>
    refine hadvance.bind (hcs.head.reads_cur.bind ?_)
    rw [hends]
    exact h.bind (reads_pure _ rest)
  case rangeTo =>
    refine hadvance.bind (hcs.head.reads_cur.bind ?_)
    rw [hends]
    exact h.bind (reads_pure _ rest)
  all_goals exact hadvance.bind (h.bind (reads_pure _ rest))

theorem Unary.reads (op : Unary) (hcs : Begins cs) (h : Reads (.call (.expr .unary)) cs e rest) :
    Reads parsePrefix (op.write cs) (op.node e) rest := by
  cases op with
  | minus =>
      have hsign := Operator.lexeme .sub hcs.spaced
      refine hsign.reads_cur.bind ((hsign.reads_advance hcs.head).bind ?_)
      exact h.bind (reads_pure _ rest)
  | bang =>
      have hsign := bang_lexeme hcs.spaced
      refine hsign.reads_cur.bind ((hsign.reads_advance hcs.head).bind ?_)
      exact h.bind (reads_pure _ rest)
  | tilde =>
      have hsign := tilde_lexeme cs
      refine hsign.reads_cur.bind ((hsign.reads_advance hcs.head).bind ?_)
      exact h.bind (reads_pure _ rest)
  | ref =>
      have hsign := Operator.lexeme .bitAnd hcs.spaced
      refine hsign.reads_cur.bind ((hsign.reads_advance hcs.head).bind ?_)
      refine (reads_decline hcs.head (hcs.kind_ne (by decide))).bind ?_
      exact h.bind (reads_pure _ rest)
  | refMut =>
      have hmut := mut_lexeme_write hcs.spaced
      have hsign := Operator.lexeme .bitAnd (spaced_cons ('m' :: 'u' :: 't' :: cs))
      refine hsign.reads_cur.bind ((hsign.reads_advance hmut.head).bind ?_)
      refine (hmut.reads_accept hcs.head rfl).bind ?_
      exact h.bind (reads_pure _ rest)
  | deref =>
      have hsign := Operator.lexeme .mul hcs.spaced
      refine hsign.reads_cur.bind ((hsign.reads_advance hcs.head).bind ?_)
      exact h.bind (reads_pure _ rest)

end Operators

/-! ## Lists -/

section Lists

variable {α : Type} {item : P α} {close : TokenKind} {ok : List Char → Prop}

/-- An item of a list that ends with `close`, `ok` holding of what stands behind it. -/
def ReadsItem (item : P α) (close : TokenKind) (ok : List Char → Prop)
    (w : List Char → List Char) (a : α) : Prop :=
  ∀ rest, ok rest → Head (w rest) ∧ (kindOf (w rest) ≠ close ∧ kindOf (w rest) ≠ .eof) ∧
    Reads item (w rest) a rest

theorem ReadsItem.step {w : List Char → List Char} {a : α} (h : ReadsItem item close ok w a)
    {rest after : List Char} (hrest : ok rest) {items : List α} {out : List α ⊕ List α}
    (hnext : Reads (commaNext (items ++ [a])) rest out after) :
    Reads (commaStep close item items) (w rest) out after := by
  obtain ⟨hhead, ⟨hclose, heof⟩, hread⟩ := h rest hrest
  have hcheck := reads_check hhead close
  have hend := reads_check hhead .eof
  rw [beq_eq_false_iff_ne.2 hclose] at hcheck
  rw [beq_eq_false_iff_ne.2 heof] at hend
  exact hcheck.bind (hend.bind (hread.bind hnext))

theorem joined_head {ws : List (List Char → List Char)} {as : List α}
    (h : List.Forall₂ (ReadsItem item close ok) ws as)
    (hcomma : ∀ cs, ok (' ' :: ',' :: cs)) {rest : List Char} (hok : ok rest) (hrest : Head rest) :
    Head (joined ws rest) := by
  cases h with
  | nil => exact hrest
  | @cons w a ws as hw hws =>
      cases ws with
      | nil => exact (hw rest hok).1
      | cons w' ws => exact (hw _ (hcomma _)).1

/-- All items are read, up to where the list ends. -/
theorem joined_reads {ws : List (List Char → List Char)} {as : List α}
    (h : List.Forall₂ (ReadsItem item close ok) ws as)
    (hcomma : ∀ cs, ok (' ' :: ',' :: cs)) {rest : List Char} (hok : ok rest) (hrest : Head rest)
    (hkind : kindOf rest = close) (hne : close ≠ .comma) (items : List α) :
    Reads (repeating (commaStep close item) items) (joined ws rest) (items ++ as) rest := by
  induction h generalizing items with
  | nil =>
      have hcheck := reads_check hrest close
      rw [hkind, beq_self_eq_true] at hcheck
      rw [List.append_nil]
      exact reads_leave (hcheck.bind ((reads_check hrest .eof).bind (reads_pure _ rest)))
  | @cons w a ws as hw hws ih =>
      cases hws with
      | nil =>
          refine reads_leave (hw.step hok ?_)
          exact (leads_decline hrest (by rw [hkind]; exact hne) _ _).reads (reads_pure _ rest)
      | @cons w' a' ws as hw' hws =>
          have hmore := ih (items ++ [a])
          rw [List.append_assoc] at hmore
          have hhead := joined_head (.cons hw' hws) hcomma hok hrest
          have hsep := (comma_lexeme (joined (w' :: ws) rest)).space
          have hnext : Reads (commaNext (items ++ [a])) (' ' :: ',' :: joined (w' :: ws) rest)
              (.inl (items ++ [a])) (joined (w' :: ws) rest) :=
            (hsep.leads_accept hhead rfl _ _).reads (reads_pure _ _)
          exact (leads_goOn (hw.step (hcomma _) hnext)).reads hmore

theorem joined_spaced {ws : List (List Char → List Char)}
    (h : ∀ w ∈ ws, ∀ rest, Spaced rest → Spaced (w rest)) {rest : List Char} (hrest : Spaced rest) :
    Spaced (joined ws rest) := by
  cases ws with
  | nil => exact hrest
  | cons w ws =>
      refine h w List.mem_cons_self _ ?_
      cases ws with
      | nil => exact hrest
      | cons w' ws => exact spaced_cons _

end Lists

theorem Word.reads_name (w : Word) {rest : List Char} (hspaced : Spaced rest) (hrest : Head rest)
    (context : String) : Reads (expectName context) (w.write rest) (some w.name) rest :=
  ((w.lexeme_write hspaced).reads_expect hrest rfl context).bind (reads_pure _ rest)

namespace Ex

theorem Leading.item {e : Ex} (h : e.Leading) {close : TokenKind}
    (hclose : close ∈ [TokenKind.rparen, .rbracket]) :
    ReadsItem (.call (.expr .none)) close Over e.write e.node := by
  intro rest hrest
  have hbegins := e.begins rest hrest.spaced
  simp only [List.mem_cons, List.not_mem_nil, or_false] at hclose
  refine ⟨hbegins.head, ⟨hbegins.kind_ne ?_, hbegins.kind_ne (by decide)⟩, h.alone hrest⟩
  rcases hclose with rfl | rfl
  all_goals decide

/-- Expressions with commas between them, and what ends them. -/
theorem list_reads {es : List Ex} (hes : ∀ e ∈ es, e.Leading) {close : TokenKind}
    (hclose : close ∈ [TokenKind.rparen, .rbracket]) {cs : List Char}
    (hcs : Lexeme (' ' :: cs) (sign close) rest) :
    Head (joined (writes es) (' ' :: cs)) ∧
      Reads (exprList close) (joined (writes es) (' ' :: cs)) (nodes es) (' ' :: cs) := by
  have hitems : List.Forall₂ (ReadsItem (.call (.expr .none)) close Over) (writes es)
      (nodes es) := by
    induction es with
    | nil => exact .nil
    | cons e es ih =>
        exact .cons ((hes e List.mem_cons_self).item hclose)
          (ih fun e he => hes e (List.mem_cons_of_mem _ he))
  have hover : Over (' ' :: cs) := by
    refine hcs.over ?_
    simp only [List.mem_cons, List.not_mem_nil, or_false] at hclose ⊢
    exact hclose.elim .inl fun h => .inr (.inl h)
  have hne : close ≠ .comma := by
    rintro rfl
    cases hclose with
    | tail _ h => cases h with
      | tail _ h => cases h
  exact ⟨joined_head hitems over_comma hover hcs.head,
    joined_reads hitems over_comma hover hcs.head hcs.kindOf hne []⟩

/-! ## What stands behind an operand -/

section Tails

variable {e : Ex} {rest : List Char}

/-- An operand, and a token that belongs to it with what is read behind. -/
theorem Leading.tail (h : e.Leading) {p : Nat} {m : Precedence} {cs after : List Char}
    {tok : Token} {n : Node} (hm : m ≤ 15) (hp : 15 ≤ p) (htok : Lexeme (' ' :: cs) tok rest)
    (hkind : tok.kind ∈ [.dot, .lbracket, .question] ∨ (tok.kind = .lparen ∧ e.callLevel ≤ p))
    (hop : Reads (parseOperator e.node tok.kind) (' ' :: cs) n after) :
    Leads (parseExpr m) (e.inside p e.write (' ' :: cs)) (exprLoop m n) after := by
  have hcases : tok.kind = .dot ∨ tok.kind = .lbracket ∨ tok.kind = .question ∨
      tok.kind = .lparen := by
    simp only [List.mem_cons, List.not_mem_nil, or_false] at hkind
    tauto
  have hprec : getPrecedence tok.kind = 16 ∧ tok.kind ≠ .lbrace := by
    rcases hcases with heq | heq | heq | heq
    all_goals
      rw [heq]
      decide
  have hbehind := htok.behind hprec.2
  rw [hprec.1] at hbehind
  refine (h.before hm hp hbehind fun hparen => ?_).trans (htok.loop ?_ hop)
  · rw [htok.kindOf] at hparen
    rcases hkind with hmem | ⟨-, hle⟩
    · rw [hparen] at hmem
      exact absurd hmem (by decide)
    · exact hle
  · rw [hprec.1]
    exact Nat.lt_succ_of_le hm

theorem Leading.field (h : e.Leading) (f : Word) : (field e f).Leading := by
  intro m rest hm _ hrest
  have hname := f.lexeme_write hrest.spaced
  have hdot := period_lexeme (f.spaced rest)
  refine h.tail hm (Nat.le_refl 15) hdot (.inl List.mem_cons_self) ?_
  refine (hdot.reads_advance hname.head).bind ?_
  refine (f.reads_name hrest.spaced hrest.head _).bind ?_
  exact (leads_decline hrest.head (hrest.call rfl) _ _).reads (reads_pure _ rest)

theorem Leading.method (h : e.Leading) (f : Word) {args : List Ex}
    (hargs : ∀ a ∈ args, a.Leading) : (method e f args).Leading := by
  intro m rest hm _ hrest
  have hclose := (rparen_lexeme rest).space
  obtain ⟨hhead, hlist⟩ := list_reads hargs List.mem_cons_self hclose
  have hopen := (lparen_lexeme (joined (writes args) (' ' :: ')' :: rest))).space
  have hname := f.lexeme_write (spaced_cons ('(' :: joined (writes args) (' ' :: ')' :: rest)))
  have hdot := period_lexeme (f.spaced (' ' :: '(' :: joined (writes args) (' ' :: ')' :: rest)))
  refine h.tail hm (Nat.le_refl 15) hdot (.inl List.mem_cons_self) ?_
  refine (hdot.reads_advance hname.head).bind ?_
  refine (f.reads_name (spaced_cons _) hopen.head _).bind ?_
  refine (hopen.leads_accept hhead rfl _ _).reads ?_
  have hend := hclose.reads_expect hrest.head rfl "after method arguments"
  rw [node, methodNode]
  cases hostNamespace e.node with
  | none => exact hlist.bind (hend.bind (reads_pure _ rest))
  | some ns => exact (reads_pure _ _).bind (hlist.bind (hend.bind (reads_pure _ rest)))

theorem Leading.index (h : e.Leading) {i : Ex} (hi : i.Leading) : (index e i).Leading := by
  intro m rest hm _ hrest
  have hclose := (rbracket_lexeme rest).space
  have hbegins := i.begins (' ' :: ']' :: rest) (spaced_cons _)
  have hopen := (lbracket_lexeme (i.write (' ' :: ']' :: rest))).space
  refine h.tail hm (Nat.le_refl 15) hopen (.inl (by decide)) ?_
  refine (hopen.reads_advance hbegins.head).bind ((hi.alone (over_rbracket rest)).bind ?_)
  exact (hclose.reads_expect hrest.head rfl _).bind (reads_pure _ rest)

theorem Leading.call (h : e.Leading) {args : List Ex} (hargs : ∀ a ∈ args, a.Leading) :
    (call e args).Leading := by
  intro m rest hm _ hrest
  have hclose := (rparen_lexeme rest).space
  obtain ⟨hhead, hlist⟩ := list_reads hargs List.mem_cons_self hclose
  have hopen := (lparen_lexeme (joined (writes args) (' ' :: ')' :: rest))).space
  have hlevel : 15 ≤ e.callLevel := by
    cases e with
    | field e f => exact Nat.le_succ 15
    | _ => exact Nat.le_refl 15
  refine h.tail hm hlevel hopen (.inr ⟨rfl, Nat.le_refl _⟩) ?_
  refine (hopen.reads_advance hhead).bind (hlist.bind ?_)
  exact (hclose.reads_expect hrest.head rfl _).bind (reads_pure _ rest)

theorem Leading.question (h : e.Leading) : (question e).Leading := by
  intro m rest hm _ hrest
  have hsign := question_lexeme hrest.spaced
  refine h.tail hm (Nat.le_refl 15) hsign (.inl (by decide)) ?_
  exact (hsign.reads_advance hrest.head).bind (reads_pure _ rest)

end Tails

/-! ## What an expression begins with -/

section Heads

variable {e : Ex} {rest : List Char}

/-- An expression that `parse_prefix` reads. -/
theorem leading_of_prefix
    (h : ∀ rest, e.Before rest → Reads parsePrefix (e.write rest) e.node rest) : e.Leading :=
  fun m rest _ _ hrest => (h rest hrest).leading m

theorem var_leading (v : Var) : (var v).Leading := by
  refine leading_of_prefix fun rest hrest => ?_
  have hname := v.lexeme_write hrest.spaced
  have hbrace := reads_check hrest.head .lbrace
  rw [beq_eq_false_iff_ne.2 hrest.brace] at hbrace
  have hgroup : v.token.strVal ≠ some "task_group" := fun heq => v.free.1 (Option.some.inj heq)
  have htry : v.token.strVal ≠ some "try" := fun heq => v.free.2 (Option.some.inj heq)
  refine hname.reads_cur.bind (hname.reads_cur.bind ?_)
  refine (hname.reads_declineText (.inr hgroup)).bind ?_
  refine (hname.reads_declineText (.inr htry)).bind ?_
  refine (hname.reads_advance hrest.head).bind (hbrace.bind ?_)
  exact reads_pure _ rest

theorem int_leading (n : Fin 9223372036854775808) : (int n).Leading := by
  refine leading_of_prefix fun rest hrest => ?_
  have hint := int_lexeme n hrest.spaced
  exact hint.reads_cur.bind ((hint.reads_advance hrest.head).bind (reads_pure _ rest))

theorem bool_leading (b : Bool) : (bool b).Leading := by
  refine leading_of_prefix fun rest hrest => ?_
  cases b with
  | false =>
      have hlit := false_lexeme hrest.spaced
      exact hlit.reads_cur.bind ((hlit.reads_advance hrest.head).bind (reads_pure _ rest))
  | true =>
      have hlit := true_lexeme hrest.spaced
      exact hlit.reads_cur.bind ((hlit.reads_advance hrest.head).bind (reads_pure _ rest))

theorem none_leading : none.Leading := by
  refine leading_of_prefix fun rest hrest => ?_
  have hlit := none_lexeme hrest.spaced
  exact hlit.reads_cur.bind ((hlit.reads_advance hrest.head).bind (reads_pure _ rest))

theorem Leading.grouped (h : e.Leading) : (grouped e).Leading :=
  leading_of_prefix fun _ hrest => h.paren hrest.head

theorem array_leading {es : List Ex} (hes : ∀ e ∈ es, e.Leading) : (array es).Leading := by
  refine leading_of_prefix fun rest hrest => ?_
  have hclose := (rbracket_lexeme rest).space
  obtain ⟨hhead, hlist⟩ := list_reads hes (.tail _ (.head _)) hclose
  have hopen := (lbracket_lexeme (joined (writes es) (' ' :: ']' :: rest))).space
  refine hopen.reads_cur.bind ((hopen.reads_advance hhead).bind (hlist.bind ?_))
  exact (hclose.reads_expect hrest.head rfl _).bind (reads_pure _ rest)

theorem tuple_leading {es : List Ex} (hes : ∀ e ∈ es, e.Leading) : (tuple es).Leading := by
  refine leading_of_prefix fun rest hrest => ?_
  have hclose := (rparen_lexeme rest).space
  cases es with
  | nil =>
      have hopen := (lparen_lexeme (' ' :: ')' :: rest)).space
      refine hopen.reads_cur.bind ((hopen.reads_advance hclose.head).bind ?_)
      exact (hclose.leads_accept hrest.head rfl _ _).reads (reads_pure _ rest)
  | cons e es =>
      obtain ⟨hhead, hlist⟩ := list_reads (fun e he => hes e (List.mem_cons_of_mem _ he))
        List.mem_cons_self hclose
      have hsep := (comma_lexeme (joined (writes es) (' ' :: ')' :: rest))).space
      have hbegins := e.begins (' ' :: ',' :: joined (writes es) (' ' :: ')' :: rest))
        (spaced_cons _)
      have hopen := (lparen_lexeme
        (e.write (' ' :: ',' :: joined (writes es) (' ' :: ')' :: rest)))).space
      refine hopen.reads_cur.bind ((hopen.reads_advance hbegins.head).bind ?_)
      refine (leads_decline hbegins.head (hbegins.kind_ne (by decide)) _ _).reads ?_
      refine ((hes e List.mem_cons_self).alone (over_comma _)).bind ?_
      refine (hsep.leads_accept hhead rfl _ _).reads (hlist.bind ?_)
      exact (hclose.reads_expect hrest.head rfl _).bind (reads_pure _ rest)

theorem Leading.unary (h : e.Leading) (op : Unary) : (unary op e).Leading := by
  refine leading_of_prefix fun rest hrest => ?_
  have hbegins := e.begins_inside Precedence.power e.begins hrest.spaced
  exact op.reads hbegins (h.signed hrest.toBehind)

theorem Leading.await (h : e.Leading) : (await e).Leading := by
  refine leading_of_prefix fun rest hrest => ?_
  have hbegins := e.begins rest hrest.spaced
  have hawait := await_lexeme hbegins.spaced
  refine hawait.reads_cur.bind (hawait.reads_cur.bind ((hawait.reads_advance hbegins.head).bind ?_))
  exact (h.alone ⟨hrest.toBehind, hrest.ends rfl⟩).bind (reads_pure _ rest)

/-- What stands behind a parameter of a closure. -/
structure AfterParam (rest : List Char) : Prop where
  spaced : Spaced rest
  head : Head rest
  colon : kindOf rest ≠ .colon

theorem AfterParam.of_lexeme {cs : List Char} {tok : Token} (h : Lexeme (' ' :: cs) tok rest)
    (hk : tok.kind ≠ .colon) : AfterParam (' ' :: cs) :=
  ⟨spaced_cons cs, h.head, by rwa [h.kindOf]⟩

theorem param_reads (w : Word) :
    ReadsItem parseClosureParam .pipe AfterParam w.write (paramNode w) := by
  intro rest hrest
  have hname := w.lexeme_write hrest.spaced
  have hkind : kindOf (w.write rest) = .ident := hname.kindOf
  refine ⟨hname.head, ⟨?_, ?_⟩, ?_⟩
  · rw [hkind]
    decide
  · rw [hkind]
    decide
  · refine (w.reads_name hrest.spaced hrest.head _).bind (Reads.bind ?_ (reads_pure _ rest))
    exact (leads_decline hrest.head hrest.colon _ _).reads (reads_pure _ rest)

theorem params_items (ws : List Word) :
    List.Forall₂ (ReadsItem parseClosureParam .pipe AfterParam) (ws.map Word.write)
      (ws.map paramNode) := by
  induction ws with
  | nil => exact .nil
  | cons w ws ih => exact .cons (param_reads w) ih

theorem Leading.closure (h : e.Leading) (params : List Word) : (closure params e).Leading := by
  refine leading_of_prefix fun rest hrest => ?_
  have hbegins := e.begins rest hrest.spaced
  have hclose : Lexeme (' ' :: '|' :: e.write rest) (sign .pipe) (e.write rest) :=
    Operator.lexeme .bitOr hbegins.spaced
  have hafter : AfterParam (' ' :: '|' :: e.write rest) := .of_lexeme hclose (by decide)
  have hcomma : ∀ cs, AfterParam (' ' :: ',' :: cs) := fun cs =>
    .of_lexeme (comma_lexeme cs).space (by decide)
  have hitems := params_items params
  have hhead := joined_head hitems hcomma hafter hclose.head
  have hlist := joined_reads hitems hcomma hafter hclose.head hclose.kindOf (by decide) []
  have hspaced : ∀ w ∈ params.map Word.write, ∀ rest, Spaced rest → Spaced (w rest) := by
    intro w hw rest _
    obtain ⟨name, -, rfl⟩ := List.mem_map.1 hw
    exact name.spaced rest
  have hopen := Operator.lexeme .bitOr (joined_spaced hspaced hafter.spaced)
  have hbrace := reads_check hbegins.head .lbrace
  rw [beq_eq_false_iff_ne.2 (hbegins.kind_ne (by decide))] at hbrace
  refine hopen.reads_cur.bind (hopen.reads_cur.bind ((hopen.reads_advance hhead).bind ?_))
  refine hlist.bind ((hclose.reads_expect hbegins.head rfl _).bind ?_)
  refine Reads.bind (hbrace.bind ?_) (reads_pure _ rest)
  exact h.alone ⟨hrest.toBehind, hrest.ends rfl⟩

end Heads

/-! ## All expressions -/

theorem Leading.binary {op : Operator} {l r : Ex} (hl : l.Leading) (hr : r.Leading) :
    (binary op l r).Leading := by
  intro m rest _ htakes hrest
  have hbegins := r.begins_inside op.right r.begins hrest.spaced
  have hlexeme := op.lexeme hbegins.spaced
  have hop := op.reads hbegins (hr.right op hrest.toBehind) l.node
  rw [← operator_infix] at hop
  exact (hl.left op htakes hbegins.spaced).trans (hlexeme.loop htakes hop)

theorem Leading.openRange {e : Ex} (h : e.Leading) (incl : Bool) : (openRange e incl).Leading := by
  intro m rest _ htakes hrest
  have hends : endsRange (lexerNextRaw rest).1.kind = true := hrest.ends rfl
  cases incl with
  | false =>
      have hsign := Operator.lexeme .range hrest.spaced
      refine (h.left .range htakes hrest.spaced).trans (hsign.loop htakes ?_)
      refine (hsign.reads_advance hrest.head).bind (hrest.head.reads_cur.bind ?_)
      rw [hends]
      exact reads_pure _ rest
  | true =>
      have hsign := Operator.lexeme .rangeTo hrest.spaced
      refine (h.left .rangeTo htakes hrest.spaced).trans (hsign.loop htakes ?_)
      refine (hsign.reads_advance hrest.head).bind (hrest.head.reads_cur.bind ?_)
      rw [hends]
      exact reads_pure _ rest

theorem leading (e : Ex) : e.Leading := by
  induction e using Ex.induct with
  | var v => exact var_leading v
  | int n => exact int_leading n
  | bool b => exact bool_leading b
  | none => exact none_leading
  | grouped e ih => exact ih.grouped
  | tuple es ih => exact tuple_leading ih
  | array es ih => exact array_leading ih
  | unary op e ih => exact ih.unary op
  | binary op l r ihl ihr => exact ihl.binary ihr
  | openRange e incl ih => exact ih.openRange incl
  | field e f ih => exact ih.field f
  | method e f args ih ihargs => exact ih.method f ihargs
  | index e i ih ihi => exact ih.index ihi
  | call f args ih ihargs => exact ih.call ihargs
  | question e ih => exact ih.question
  | closure params body ih => exact ih.closure params
  | await e ih => exact ih.await

/-- Whatever expression is written is read, all of it, and nothing is reported. -/
theorem expr_comes_back (e : Ex) : ∃ s, Ends (do
    prime
    .call (.expr .none)) (lex e.text) .new e.node [] s ∧ Silent s := by
  obtain ⟨⟨tok, rest, hlexeme, -⟩, -⟩ := e.begins [] (.inl rfl)
  have hall : Reads (do
      prime
      .call (.expr .none)) e.text e.node [] :=
    hlexeme.reads_prime.bind (e.leading.alone over_nil)
  obtain ⟨us, s, hends, hus, hs⟩ := hall (lex e.text) .new (stream_lex _) ⟨rfl, rfl⟩
  rw [hus.nil] at hends
  exact ⟨s, hends, hs⟩

end Ex

end Limceron.Parse
