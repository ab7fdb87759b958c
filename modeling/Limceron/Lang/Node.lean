/-
# `Limceron.Lang.Node` — the untyped syntax tree

The passes of the type checker walk over `AstNode` by its fields, whatever the
kind, so here a node is what it is in the C code.  Its children mean, as the
parser builds them:

| kind | left | right | params |
| :-- | :-- | :-- | :-- |
| block | | | statements |
| let | | initialiser | |
| return, defer, expression statement | expression | | |
| assign | target | value | |
| if | condition | then | else |
| while | condition | body | |
| loop | body | | |
| for | pattern | body | iterator |
| match | subject | | arms |
| match arm | pattern | body | guard |
| call | callee | | arguments |
| method call | receiver | | arguments |
| host call | | | arguments |
| ask, tell, binary | first | second | |
| closure | body | | parameters |
| spawn, task group | block | | |
| try-catch | block | handler | |

A statement that begins with an expression is an expression statement, also when
the expression is an `if`, a `match` or a block.
-/
import Limceron.Lib.Walks

namespace Limceron

/-- The kinds the passes ask for. -/
inductive AstKind where
  | block | letS | ret | deferS | assign | exprStmt
  | ifS | whileS | loop | forS | matchS | matchArm
  | breakS | continueS
  | intLit | floatLit | stringLit | boolLit | noneLit | interpString
  | ident | binary | unary | call | methodCall | hostCall | fieldAccess | index
  | closure | array | tuple | map | mapEntry | range | pipe
  | cast | isExpr | refE | deref | tryE | tryCatch | tryOtherwise | resultOk | resultErr
  | spawn | awaitE | taskGroup | select | selectArm
  | ask | tell | ensure | each | keepWhere | repeatS | waitUntil
  | param | typeTainted | typeSecret
  | other
  deriving DecidableEq, Repr

/-- `left` and `right` are single nodes, `params` a list linked by `next`, and `val`
is the operator or the literal as it is written. -/
structure AstNode where
  kind : AstKind
  name : Option String := none
  typeExpr : Option AstNode := none
  left : Option AstNode := none
  right : Option AstNode := none
  params : List AstNode := []
  val : Option String := none

namespace AstNode

def children (n : AstNode) : List AstNode := n.left.toList ++ n.right.toList ++ n.params

theorem left_mem_children {n c : AstNode} (h : n.left = some c) : c ∈ n.children := by
  simp [children, h]

theorem right_mem_children {n c : AstNode} (h : n.right = some c) : c ∈ n.children := by
  simp [children, h]

theorem params_mem_children {n c : AstNode} (h : c ∈ n.params) : c ∈ n.children := by
  simp [children, h]

theorem sizeOf_children {n c : AstNode} (h : c ∈ n.children) : sizeOf c < sizeOf n := by
  obtain ⟨kind, name, type, left, right, params, val⟩ := n
  simp only [children, List.mem_append, Option.mem_toList] at h
  rcases h with (h | h) | h
  · cases h
    simp only [mk.sizeOf_spec, Option.some.sizeOf_spec]
    omega
  · cases h
    simp only [mk.sizeOf_spec, Option.some.sizeOf_spec]
    omega
  · have := List.sizeOf_lt_of_mem h
    simp only [mk.sizeOf_spec]
    omega

/-- To be a child is well founded. -/
theorem wf_children : WellFounded fun c n : AstNode => c ∈ n.children :=
  Subrelation.wf sizeOf_children (measure sizeOf).wf

/-- `m` stands somewhere in `n`. -/
def Within (m n : AstNode) : Prop := Walks.Reaches children n m

theorem Within.refl (n : AstNode) : Within n n := Walks.Reaches.refl children n

theorem Within.child {m n c : AstNode} (h : Within m c) (hc : c ∈ n.children) : Within m n :=
  Walks.Reaches.head hc h

theorem Within.trans {l m n : AstNode} (h : Within l m) (h' : Within m n) : Within l n :=
  Walks.Reaches.trans h' h

/-- The variable `x`. -/
def IsVar (n : AstNode) (x : String) : Prop := n.kind = .ident ∧ n.name = some x

/-- The name of the callee, if the callee is a name. -/
def callIdent (e : AstNode) : Option String :=
  match e.kind, e.left with
  | .call, some c => if c.kind = .ident then c.name else none
  | _, _ => none

/-- A variable with the property `P` occurs in `n`. -/
def Mentions (P : String → Prop) (n : AstNode) : Prop :=
  ∃ m x, Within m n ∧ m.IsVar x ∧ P x

end AstNode

end Limceron
