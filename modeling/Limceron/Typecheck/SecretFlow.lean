/-
# `Limceron.Typecheck.SecretFlow` — what the secret check sees

A secret is meant to stay out of four places, and the check looks for it in part
of each:

| a secret in | the check |
| :-- | :-- |
| an argument of an output sink | of a call that is all of a statement's expression |
| an operand of `ask` | never, since `ask` is not parsed as a call |
| the right side of a let | of a let that the walk gets to |
| the right side of an assignment, a returned expression | never |

Nor does it know the secrets that are declared in a nested block, and it goes
into no branch of an `if` or a `match`, which are expressions.
`confines_iff` says for which functions that does no harm.
-/
import Limceron.Typecheck.Secret
import Limceron.Typecheck.TaintFlow

namespace Limceron.Typecheck

open AstNode

/-! ## Secrets and where they show -/

/-- The variables declared secret. -/
inductive Secret (fn : SecretFn) : String → Prop
  | param {p : AstNode} {x : String} : p ∈ fn.params → secretParam p = some x → Secret fn x
  | letS {body s : AstNode} {x : String} : fn.body = some body → Within s body →
      secretLet s = some x → Secret fn x

/-- The children that are not inside of a hatch call. -/
def openNext (n : AstNode) : List AstNode := if isHatchCall n then [] else n.children

/-- A variable with the property `P` occurs in the expression, and not inside of a
hatch call. -/
def Shows (P : String → Prop) (e : AstNode) : Prop :=
  ∃ m x, Walks.Reaches openNext e m ∧ m.IsVar x ∧ P x

/-- The variable that a target belongs to. -/
def rootVar : AstNode → Option String
  | ⟨kind, name, _, left, _, _, _⟩ =>
      match kind, left with
      | .ident, _ => name
      | .fieldAccess, some t | .index, some t | .deref, some t => rootVar t
      | _, _ => none

/-- Not below a closure, whose returns are its own. -/
def ownNext (n : AstNode) : List AstNode := if n.kind = .closure then [] else n.children

/-- The expression of a return, or of the statement that a function with a result
ends in. -/
inductive Returned (fn : SecretFn) : AstNode → Prop
  | ret {body n e : AstNode} : fn.body = some body → Walks.Reaches ownNext body n →
      n.kind = .ret → n.left = some e → Returned fn e
  | last {body s e : AstNode} : fn.body = some body → fn.returnType.isSome →
      body.kind = .block → body.params.getLast? = some s → s.kind = .exprStmt →
      s.left = some e → e.kind ≠ .ifS → e.kind ≠ .matchS → Returned fn e

/-- The expressions in which no secret may show. -/
inductive Exposed (fn : SecretFn) : AstNode → Prop
  | sink {body n a : AstNode} {f : String} : fn.body = some body → Within n body →
      callIdent n = some f → isSecretOutputSink (some f) → a ∈ n.params → Exposed fn a
  | ask {body n a : AstNode} : fn.body = some body → Within n body → n.kind = .ask →
      a ∈ n.children → Exposed fn a
  | askCall {body n a : AstNode} : fn.body = some body → Within n body →
      callIdent n = some "ask" → a ∈ n.params → Exposed fn a
  | letS {body n e : AstNode} : fn.body = some body → Within n body → n.kind = .letS →
      typeIsSecret n.typeExpr = false → n.right = some e → Exposed fn e
  | assign {body n t e : AstNode} : fn.body = some body → Within n body → n.kind = .assign →
      n.left = some t → (∀ x, rootVar t = some x → ¬ Secret fn x) → n.right = some e →
      Exposed fn e
  | result {e : AstNode} : typeIsSecret fn.returnType = false → Returned fn e → Exposed fn e

/-- A secret shows where none may. -/
def Leak (fn : SecretFn) : Prop := ∃ e, Exposed fn e ∧ Shows (Secret fn) e

/-- No secret shows where none may. -/
def Confined (fn : SecretFn) : Prop := ∀ e, Exposed fn e → ¬ Shows (Secret fn) e

/-- The secret check accepts the function. -/
def Accepted (fn : SecretFn) : Prop := ∀ context, checkSecretInFn context fn = []

theorem confined_iff_not_leak (fn : SecretFn) : Confined fn ↔ ¬ Leak fn := by
  constructor
  · rintro h ⟨e, he, hshows⟩
    exact h e he hshows
  · intro h e he hshows
    exact h ⟨e, he, hshows⟩

/-! ## What the check sees -/

/-- The parts of an expression that `expr_uses_secret` goes into. -/
def checkedNext (n : AstNode) : List AstNode :=
  if isHatchCall n then n.left.toList ++ n.right.toList else n.children

/-- The check finds a collected secret in the expression. -/
def Found (fn : SecretFn) (e : AstNode) : Prop :=
  ∃ m x, Walks.Reaches checkedNext e m ∧ m.IsVar x ∧ x ∈ fn.allSecrets

/-- The arguments, if the expression calls a sink. -/
def sinkArgs (e : AstNode) : List AstNode :=
  if ∃ f ∈ callIdent e, isSecretOutputSink (some f) then e.params else []

/-- The arguments, if it calls a function `ask`. -/
def askArgs (e : AstNode) : List AstNode := if callIdent e = some "ask" then e.params else []

/-- The right side of a let, unless the target is secret or it is a hatch call. -/
def letValue (s : AstNode) : List AstNode :=
  if s.name.isSome ∧ typeIsSecret s.typeExpr = false then
    s.right.toList.filter fun e => !isHatchCall e
  else []

/-- The expressions of a statement that are searched. -/
def searched (s : AstNode) : List AstNode :=
  match s.kind with
  | .exprStmt | .deferS => s.left.toList.flatMap fun e => sinkArgs e ++ askArgs e
  | .letS => letValue s ++ s.right.toList.flatMap fun e => sinkArgs e ++ askArgs e
  | .assign => s.right.toList.flatMap sinkArgs
  | _ => []

/-- A statement that the walk gets to, along the same way as the one for tainted data,
has a collected secret in what is searched. -/
def SeenLeak (fn : SecretFn) : Prop :=
  ∃ body s e, fn.body = some body ∧ Walks.Reaches sinkNext body s ∧ e ∈ searched s ∧ Found fn e

/-! ## Expressions -/

section
variable {secrets : List String}

theorem childUsesSecret_iff {c : Option AstNode} :
    childUsesSecret secrets c ↔ ∃ e ∈ c.toList, exprUsesSecret secrets e := by
  cases c <;> simp [childUsesSecret]

theorem anyUsesSecret_iff {as : List AstNode} :
    anyUsesSecret secrets as ↔ ∃ a ∈ as, exprUsesSecret secrets a := by
  induction as with
  | nil => simp [anyUsesSecret]
  | cons a as ih => simp [anyUsesSecret, ih]

theorem exprUsesSecret_step (n : AstNode) :
    exprUsesSecret secrets n ↔ (∃ x, n.IsVar x ∧ x ∈ secrets) ∨
      ∃ c ∈ checkedNext n, exprUsesSecret secrets c := by
  obtain ⟨kind, name, type, left, right, params, val⟩ := n
  have hvar : (kind == .ident && name.any (· ∈ secrets)) = true ↔
      ∃ x, AstNode.IsVar ⟨kind, name, type, left, right, params, val⟩ x ∧ x ∈ secrets := by
    cases name <;> simp [AstNode.IsVar]
  rw [exprUsesSecret, checkedNext]
  cases isHatchCall ⟨kind, name, type, left, right, params, val⟩ with
  | true =>
      simp only [Bool.or_eq_true, Bool.not_true, Bool.false_and, Bool.false_eq_true, or_false, hvar,
        childUsesSecret_iff, if_true, List.mem_append, or_and_right, exists_or, or_assoc]
  | false =>
      simp only [Bool.or_eq_true, Bool.not_false, Bool.true_and, Bool.false_eq_true, if_false, hvar,
        childUsesSecret_iff, anyUsesSecret_iff, children, List.mem_append, or_and_right, exists_or,
        or_assoc]

theorem checkedNext_subset (n : AstNode) : ∀ c ∈ checkedNext n, c ∈ n.children := by
  intro c hc
  rw [checkedNext] at hc
  split at hc
  · exact List.mem_append_left _ hc
  · exact hc

theorem exprUsesSecret_iff (e : AstNode) :
    exprUsesSecret secrets e ↔
      ∃ m x, Walks.Reaches checkedNext e m ∧ m.IsVar x ∧ x ∈ secrets := by
  rw [Walks.search_iff wf_children checkedNext_subset exprUsesSecret_step]
  simp only [exists_and_left]

end

/-! ## The walk -/

section
variable {secrets : List String} {context : String}

theorem checkSecretSink_ne_nil {e : AstNode} :
    checkSecretSink secrets context e ≠ [] ↔ ∃ a ∈ sinkArgs e, exprUsesSecret secrets a := by
  rw [checkSecretSink, sinkArgs]
  cases hf : callIdent e with
  | none => simp
  | some f =>
      by_cases hsink : isSecretOutputSink (some f)
      · simp [hsink, anyUsesSecret_iff]
      · simp [hsink]

theorem checkSecretAsk_ne_nil {e : AstNode} :
    checkSecretAsk secrets context e ≠ [] ↔ ∃ a ∈ askArgs e, exprUsesSecret secrets a := by
  rw [checkSecretAsk, askArgs]
  by_cases hask : callIdent e = some "ask"
  · simp [hask, anyUsesSecret_iff]
  · simp [hask]

theorem checkSecretExpr_ne_nil {expr : Option AstNode} :
    checkSecretExpr secrets context expr ≠ [] ↔
      ∃ a ∈ expr.toList.flatMap fun e => sinkArgs e ++ askArgs e, exprUsesSecret secrets a := by
  cases expr with
  | none => simp [checkSecretExpr]
  | some e =>
      rw [checkSecretExpr, Walks.append_ne_nil, checkSecretSink_ne_nil, checkSecretAsk_ne_nil]
      simp only [Option.toList_some, List.flatMap_singleton, List.mem_append, or_and_right,
        exists_or]

theorem callIdent_of_isHatchCall {e : AstNode} (h : isHatchCall e) :
    callIdent e = some "secret_redact" ∨ callIdent e = some "secret_unwrap" := by
  rw [isHatchCall, Bool.or_eq_true, beq_iff_eq, beq_iff_eq] at h
  exact h

/-- A hatch is no sink. -/
theorem args_of_isHatchCall {e : AstNode} (h : isHatchCall e) : sinkArgs e ++ askArgs e = [] := by
  rcases callIdent_of_isHatchCall h with h | h <;> simp [sinkArgs, askArgs, h, isSecretOutputSink]

theorem checkSecretLet_ne_nil (name : Option String) (type left right : Option AstNode)
    (params : List AstNode) (val : Option String) :
    checkSecretLet secrets context name type right ≠ [] ↔
      ∃ a ∈ searched ⟨.letS, name, type, left, right, params, val⟩, exprUsesSecret secrets a := by
  rw [searched]
  simp only [List.mem_append, or_and_right, exists_or, letValue]
  cases right with
  | none => simp [checkSecretLet]
  | some e =>
      cases name with
      | none => simp [checkSecretLet, checkSecretExpr_ne_nil]
      | some x =>
          cases hhatch : isHatchCall e with
          | true =>
              have hargs := args_of_isHatchCall hhatch
              have hexpr : checkSecretExpr secrets context (some e) = [] := by
                by_contra h
                obtain ⟨a, ha, -⟩ := checkSecretExpr_ne_nil.mp h
                rw [Option.toList_some, List.flatMap_singleton, hargs] at ha
                cases ha
              simp [checkSecretLet, hhatch, hargs, hexpr]
          | false =>
              cases htype : typeIsSecret type <;> cases huses : exprUsesSecret secrets e <;>
                simp [checkSecretLet, hhatch, htype, huses, checkSecretExpr_ne_nil]

theorem checkSecretInChild_ne_nil {c : Option AstNode} :
    checkSecretInChild secrets context c ≠ [] ↔
      ∃ s ∈ c.toList, checkSecretInStmt secrets context s ≠ [] := by
  cases c <;> simp [checkSecretInChild]

theorem checkSecretInFirst_ne_nil {ss : List AstNode} :
    checkSecretInFirst secrets context ss ≠ [] ↔
      ∃ s ∈ ss.head?.toList, checkSecretInStmt secrets context s ≠ [] := by
  cases ss <;> simp [checkSecretInFirst]

theorem checkSecretInStmts_ne_nil {ss : List AstNode} :
    checkSecretInStmts secrets context ss ≠ [] ↔
      ∃ s ∈ ss, checkSecretInStmt secrets context s ≠ [] := by
  induction ss with
  | nil => simp [checkSecretInStmts]
  | cons s ss ih =>
      rw [checkSecretInStmts, Walks.append_ne_nil, ih]
      simp

theorem checkSecretInArm_ne_nil (a : AstNode) :
    checkSecretInArm secrets context a ≠ [] ↔
      ∃ s ∈ armBody a, checkSecretInStmt secrets context s ≠ [] := by
  obtain ⟨kind, name, type, left, right, params, val⟩ := a
  rw [checkSecretInArm, armBody]
  split
  · exact checkSecretInChild_ne_nil
  · simp

theorem checkSecretInArms_ne_nil {as : List AstNode} :
    checkSecretInArms secrets context as ≠ [] ↔
      ∃ s ∈ as.flatMap armBody, checkSecretInStmt secrets context s ≠ [] := by
  induction as with
  | nil => simp [checkSecretInArms]
  | cons a as ih =>
      rw [checkSecretInArms, Walks.append_ne_nil, ih, checkSecretInArm_ne_nil, List.flatMap_cons]
      simp only [List.mem_append, or_and_right, exists_or]

theorem checkSecretInStmt_step (s : AstNode) :
    checkSecretInStmt secrets context s ≠ [] ↔
      (∃ a ∈ searched s, exprUsesSecret secrets a) ∨
        ∃ c ∈ sinkNext s, checkSecretInStmt secrets context c ≠ [] := by
  obtain ⟨kind, name, type, left, right, params, val⟩ := s
  cases kind with
  | exprStmt | deferS =>
      rw [checkSecretInStmt, checkSecretExpr_ne_nil]
      simp only [searched, sinkNext, List.not_mem_nil, false_and, exists_false, or_false]
  | letS =>
      rw [checkSecretInStmt, checkSecretLet_ne_nil name type left right params val]
      simp only [sinkNext, List.not_mem_nil, false_and, exists_false, or_false]
  | assign =>
      rw [checkSecretInStmt]
      cases right with
      | none => simp [checkSecretAssign, searched, sinkNext]
      | some e => simp [checkSecretAssign, searched, sinkNext, checkSecretSink_ne_nil]
  | ifS =>
      rw [checkSecretInStmt, Walks.append_ne_nil, checkSecretInChild_ne_nil, checkSecretInFirst_ne_nil]
      simp only [searched, sinkNext, List.mem_append, or_and_right, exists_or, List.not_mem_nil,
        false_and, exists_false, false_or]
  | whileS | forS | loop =>
      rw [checkSecretInStmt, checkSecretInChild_ne_nil]
      simp only [searched, sinkNext, List.not_mem_nil, false_and, exists_false, false_or]
  | block =>
      rw [checkSecretInStmt, checkSecretInStmts_ne_nil]
      simp only [searched, sinkNext, List.not_mem_nil, false_and, exists_false, false_or]
  | matchS =>
      rw [checkSecretInStmt, checkSecretInArms_ne_nil]
      simp only [searched, sinkNext, List.not_mem_nil, false_and, exists_false, false_or]
  | _ => simp [checkSecretInStmt, searched, sinkNext]

theorem checkSecretInStmt_ne_nil (s : AstNode) :
    checkSecretInStmt secrets context s ≠ [] ↔
      ∃ t, Walks.Reaches sinkNext s t ∧ ∃ a ∈ searched t, exprUsesSecret secrets a :=
  Walks.search_iff (measure sizeOf).wf sizeOf_sinkNext checkSecretInStmt_step s

end

/-! ## The verdict -/

/-- The check of a function reports what it sees. -/
theorem checkSecretInFn_ne_nil (context : Option String) (fn : SecretFn) :
    checkSecretInFn context fn ≠ [] ↔ SeenLeak fn := by
  by_cases hempty : fn.allSecrets = []
  · rw [checkSecretInFn, if_pos hempty]
    refine ⟨fun h => absurd rfl h, ?_⟩
    rintro ⟨body, s, e, -, -, -, m, x, -, -, hx⟩
    rw [hempty] at hx
    cases hx
  · cases hbody : fn.body with
    | none => simp [checkSecretInFn, hbody, SeenLeak]
    | some body =>
        simp only [checkSecretInFn, if_neg hempty, hbody, checkSecretInStmt_ne_nil, SeenLeak,
          Option.some.injEq, Found, exprUsesSecret_iff]
        simp only [exists_and_left, exists_eq_left']

theorem accepted_iff (fn : SecretFn) : Accepted fn ↔ ¬ SeenLeak fn := by
  rw [Accepted]
  constructor
  · intro h hseen
    exact (checkSecretInFn_ne_nil none fn).mpr hseen (h none)
  · intro h context
    by_contra hne
    exact h ((checkSecretInFn_ne_nil context fn).mp hne)

/-- Acceptance confines the secrets exactly if a leak comes with one that is seen. -/
theorem confines_iff (fn : SecretFn) :
    (Accepted fn → Confined fn) ↔ (Leak fn → SeenLeak fn) := by
  rw [accepted_iff, confined_iff_not_leak]
  exact not_imp_not

end Limceron.Typecheck
