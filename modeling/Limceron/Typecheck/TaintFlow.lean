/-
# `Limceron.Typecheck.TaintFlow` — what the taint check sees

Tainted data is meant to stay out of sinks wherever the data is bound and
wherever the sink is called.  The check follows it on part of the syntax:

| | tainted data | the check |
| :-- | :-- | :-- |
| bound | by a let or an assignment anywhere | by a let of the outermost block |
| from | `ask`, `recv` anywhere on the right | a right side that is one, or a sum of one |
| used | in any call of the body | in a call that is all of a statement's expression |
| where | in any statement | in one that the walk goes into |

An `if` or a `match` is an expression statement, and no walk goes into the
expression of one, so nothing inside of a branch is ever looked at.
`taintSound_iff` says for which programs that does no harm.
-/
import Limceron.Typecheck.Taint
import Mathlib.Data.Nat.Count

namespace Limceron.Typecheck

open AstNode

/-! ## Tainted data -/

/-- The result of `ask` or `recv`. -/
def IsSource (n : AstNode) : Prop :=
  n.kind = .ask ∨ n.kind = .methodCall ∧ n.name = some "recv"

/-- The variable that a statement gives a value, by a let or an assignment. -/
def BindsVar (n : AstNode) (x : String) : Prop :=
  n.kind = .letS ∧ n.name = some x ∨ n.kind = .assign ∧ ∃ t, n.left = some t ∧ t.IsVar x

/-- The variables that hold tainted data. -/
inductive Tainted (fn : TaintFn) : String → Prop
  | param {p : AstNode} {x : String} : p ∈ fn.params → taintedParam p = some x → Tainted fn x
  | source {body n e m : AstNode} {x : String} : fn.body = some body → Within n body →
      BindsVar n x → n.right = some e → Within m e → IsSource m → Tainted fn x
  | flow {body n e m : AstNode} {x y : String} : fn.body = some body → Within n body →
      BindsVar n x → n.right = some e → Within m e → m.IsVar y → Tainted fn y → Tainted fn x

/-- A call of a dangerous sink. -/
def IsSinkCall (e : AstNode) : Prop := ∃ name, calleeName e = some name ∧ isDangerousSink name

/-- The arguments of a call; those of `ask` are `left` and `right`. -/
def callArgs (e : AstNode) : List AstNode :=
  if e.kind = .ask then e.left.toList ++ e.right.toList else e.params

/-- An argument of the call mentions a variable with the property `P`. -/
def Takes (P : String → Prop) (e : AstNode) : Prop := ∃ a ∈ callArgs e, a.Mentions P

/-- Somewhere in the body tainted data is passed to a sink or to an LLM. -/
def TaintedSink (fn : TaintFn) : Prop :=
  ∃ body, fn.body = some body ∧ ∃ e, Within e body ∧ (IsSinkCall e ∨ isLlmCall e) ∧
    Takes (Tainted fn) e

/-- The taint check of these declarations is sound. -/
def TaintSound (decls : List TaintDecl) : Prop :=
  ∀ cf ∈ decls.flatMap TaintDecl.fns, TaintedSink cf.2 → checkTaint decls ≠ []

/-! ## What the check sees -/

/-- Statement `k` of the block is a let whose right side is tainted as far as the
names of the parameters and of the statements before it go. -/
inductive TaintedLet (existing : List String) (stmts : List AstNode) : Nat → String → Prop
  | source {k : Nat} {s e : AstNode} {x : String} : stmts[k]? = some s → s.kind = .letS →
      s.name = some x → s.right = some e → isTaintSource e → TaintedLet existing stmts k x
  | param {k : Nat} {s e : AstNode} {x : String} : stmts[k]? = some s → s.kind = .letS →
      s.name = some x → s.right = some e → e.Mentions (· ∈ existing) →
      TaintedLet existing stmts k x
  | earlier {k j : Nat} {s e m : AstNode} {x y : String} : stmts[k]? = some s →
      s.kind = .letS → s.name = some x → s.right = some e → Within m e → m.IsVar y → j < k →
      TaintedLet existing stmts j y → TaintedLet existing stmts k x

open Classical in
/-- The lets before statement `k` that count. -/
noncomputable def taintedLetsBefore (existing : List String) (stmts : List AstNode) (k : Nat) :
    Nat :=
  Nat.count (fun j => ∃ y, TaintedLet existing stmts j y) k

/-- The first 256 tainted parameters and the first 256 tainted lets of the
outermost block. -/
def Collected (fn : TaintFn) (x : String) : Prop :=
  x ∈ collectTaintedParams fn.params ∨
    ∃ block k, fn.body = some block ∧ block.kind = .block ∧
      TaintedLet (collectTaintedParams fn.params) block.params k x ∧
      taintedLetsBefore (collectTaintedParams fn.params) block.params k < maxTaintedParams

/-- The body of a match arm. -/
def armBody (a : AstNode) : List AstNode :=
  if a.kind = .matchArm then a.right.toList else []

/-- The statements below a statement that the walk for sinks goes into. -/
def sinkNext (s : AstNode) : List AstNode :=
  match s.kind with
  | .ifS => s.right.toList ++ s.params.head?.toList
  | .whileS | .forS => s.right.toList
  | .loop => s.left.toList
  | .block => s.params
  | .matchS => s.params.flatMap armBody
  | _ => []

/-- The expression of a statement that it looks at. -/
def sinkExpr (s : AstNode) : Option AstNode :=
  match s.kind with
  | .exprStmt | .ret | .deferS => s.left
  | .letS | .assign => s.right
  | _ => none

/-- The same for the walk for LLM calls. -/
def promptNext (s : AstNode) : List AstNode :=
  match s.kind with
  | .ifS => s.right.toList ++ s.params.head?.toList
  | .block => s.params
  | _ => []

def promptExpr (s : AstNode) : Option AstNode :=
  match s.kind with
  | .exprStmt | .ret => s.left
  | .letS => s.right
  | _ => none

/-- A call of a sink or an LLM that is looked at takes a collected variable. -/
def SeenSink (fn : TaintFn) : Prop :=
  ∃ body, fn.body = some body ∧
    ((∃ s e, Walks.Reaches sinkNext body s ∧ sinkExpr s = some e ∧ IsSinkCall e ∧
        Takes (Collected fn) e) ∨
      ∃ s e, Walks.Reaches promptNext body s ∧ promptExpr s = some e ∧ isLlmCall e ∧
        Takes (Collected fn) e)

/-! ## Expressions -/

theorem childUsesTainted_iff {tainted : List String} {c : Option AstNode} :
    childUsesTainted tainted c ↔ ∃ e ∈ c.toList, exprUsesTainted tainted e := by
  cases c <;> simp [childUsesTainted]

theorem anyUsesTainted_iff {tainted : List String} {as : List AstNode} :
    anyUsesTainted tainted as ↔ ∃ a ∈ as, exprUsesTainted tainted a := by
  induction as with
  | nil => simp [anyUsesTainted]
  | cons a as ih => simp [anyUsesTainted, ih]

theorem exprUsesTainted_step {tainted : List String} (n : AstNode) :
    exprUsesTainted tainted n ↔ (∃ x, n.IsVar x ∧ x ∈ tainted) ∨
      ∃ c ∈ n.children, exprUsesTainted tainted c := by
  obtain ⟨kind, name, type, left, right, params, val⟩ := n
  have hvar : (kind == .ident && name.any (· ∈ tainted)) = true ↔
      ∃ x, AstNode.IsVar ⟨kind, name, type, left, right, params, val⟩ x ∧ x ∈ tainted := by
    cases name <;> simp [AstNode.IsVar]
  simp only [exprUsesTainted, Bool.or_eq_true, hvar, childUsesTainted_iff, anyUsesTainted_iff,
    children, List.mem_append, or_and_right, exists_or, or_assoc]

/-- `expr_uses_tainted` looks everywhere. -/
theorem exprUsesTainted_iff {tainted : List String} (e : AstNode) :
    exprUsesTainted tainted e ↔ e.Mentions (· ∈ tainted) := by
  rw [Walks.search_iff wf_children (fun _ _ h => h) exprUsesTainted_step]
  simp only [Mentions, Within, exists_and_left]

theorem takes_iff {tainted : List String} (e : AstNode) :
    Takes (· ∈ tainted) e ↔
      if e.kind = .ask then childUsesTainted tainted e.left ∨ childUsesTainted tainted e.right
      else anyUsesTainted tainted e.params := by
  rw [Takes, callArgs]
  split
  · simp only [List.mem_append, or_and_right, exists_or, childUsesTainted_iff, exprUsesTainted_iff]
  · simp only [anyUsesTainted_iff, exprUsesTainted_iff]

theorem kind_of_calleeName {e : AstNode} {name : Option String} (h : calleeName e = some name) :
    e.kind = .call := by
  by_contra hkind
  rw [calleeName, if_neg hkind] at h
  cases h

/-! ## The walk for sinks -/

section
variable {tainted : List String} {context : String}

theorem checkSinkCall_ne_nil {expr : Option AstNode} :
    checkSinkCall tainted context expr ≠ [] ↔
      ∃ e, expr = some e ∧ IsSinkCall e ∧ Takes (· ∈ tainted) e := by
  cases expr with
  | none => simp [checkSinkCall]
  | some e =>
      simp only [checkSinkCall, Option.some.injEq, exists_eq_left', IsSinkCall]
      cases hname : calleeName e with
      | none => simp
      | some name =>
          have hkind := kind_of_calleeName hname
          simp [takes_iff, hkind]

theorem checkTaintInChild_ne_nil {c : Option AstNode} :
    checkTaintInChild tainted context c ≠ [] ↔
      ∃ s ∈ c.toList, checkTaintInStmt tainted context s ≠ [] := by
  cases c <;> simp [checkTaintInChild]

theorem checkTaintInFirst_ne_nil {ss : List AstNode} :
    checkTaintInFirst tainted context ss ≠ [] ↔
      ∃ s ∈ ss.head?.toList, checkTaintInStmt tainted context s ≠ [] := by
  cases ss <;> simp [checkTaintInFirst]

theorem checkTaintInStmts_ne_nil {ss : List AstNode} :
    checkTaintInStmts tainted context ss ≠ [] ↔
      ∃ s ∈ ss, checkTaintInStmt tainted context s ≠ [] := by
  induction ss with
  | nil => simp [checkTaintInStmts]
  | cons s ss ih =>
      rw [checkTaintInStmts, ne_eq, List.append_eq_nil_iff, not_and_or, ← ne_eq, ← ne_eq, ih]
      simp

/-- The statement of an arm. -/
theorem checkTaintInArm_ne_nil (a : AstNode) :
    checkTaintInArm tainted context a ≠ [] ↔
      ∃ s ∈ armBody a, checkTaintInStmt tainted context s ≠ [] := by
  obtain ⟨kind, name, type, left, right, params, val⟩ := a
  rw [checkTaintInArm, armBody]
  split
  · exact checkTaintInChild_ne_nil
  · simp

theorem checkTaintInArms_ne_nil {as : List AstNode} :
    checkTaintInArms tainted context as ≠ [] ↔
      ∃ s ∈ as.flatMap armBody, checkTaintInStmt tainted context s ≠ [] := by
  induction as with
  | nil => simp [checkTaintInArms]
  | cons a as ih =>
      rw [checkTaintInArms, ne_eq, List.append_eq_nil_iff, not_and_or, ← ne_eq, ← ne_eq, ih,
        checkTaintInArm_ne_nil, List.flatMap_cons]
      simp only [List.mem_append, or_and_right, exists_or]

theorem checkTaintInStmt_step (s : AstNode) :
    checkTaintInStmt tainted context s ≠ [] ↔
      (∃ e, sinkExpr s = some e ∧ IsSinkCall e ∧ Takes (· ∈ tainted) e) ∨
        ∃ c ∈ sinkNext s, checkTaintInStmt tainted context c ≠ [] := by
  obtain ⟨kind, name, type, left, right, params, val⟩ := s
  cases kind with
  | exprStmt | ret | deferS | letS | assign =>
      rw [checkTaintInStmt, checkSinkCall_ne_nil]
      simp [sinkExpr, sinkNext]
  | ifS =>
      rw [checkTaintInStmt, ne_eq, List.append_eq_nil_iff, not_and_or, ← ne_eq, ← ne_eq,
        checkTaintInChild_ne_nil, checkTaintInFirst_ne_nil]
      simp only [sinkExpr, sinkNext, List.mem_append, or_and_right, exists_or, reduceCtorEq,
        false_and, exists_false, false_or]
  | whileS | forS | loop =>
      rw [checkTaintInStmt, checkTaintInChild_ne_nil]
      simp [sinkExpr, sinkNext]
  | block =>
      rw [checkTaintInStmt, checkTaintInStmts_ne_nil]
      simp [sinkExpr, sinkNext]
  | matchS =>
      rw [checkTaintInStmt, checkTaintInArms_ne_nil]
      simp [sinkExpr, sinkNext]
  | _ => simp [checkTaintInStmt, sinkExpr, sinkNext]

theorem sizeOf_sinkNext (s : AstNode) : ∀ c ∈ sinkNext s, sizeOf c < sizeOf s := by
  intro c hc
  cases hkind : s.kind <;> simp only [sinkNext, hkind, List.not_mem_nil] at hc
  case ifS =>
    rcases List.mem_append.mp hc with hc | hc
    · exact sizeOf_children (right_mem_children (Option.mem_toList.mp hc))
    · exact sizeOf_children (params_mem_children (List.mem_of_mem_head? (Option.mem_toList.mp hc)))
  case whileS | forS => exact sizeOf_children (right_mem_children (Option.mem_toList.mp hc))
  case loop => exact sizeOf_children (left_mem_children (Option.mem_toList.mp hc))
  case block => exact sizeOf_children (params_mem_children hc)
  case matchS =>
    obtain ⟨a, ha, hc⟩ := List.mem_flatMap.mp hc
    rw [armBody] at hc
    split at hc
    · exact Nat.lt_trans (sizeOf_children (right_mem_children (Option.mem_toList.mp hc)))
        (sizeOf_children (params_mem_children ha))
    · cases hc

theorem checkTaintInStmt_ne_nil (s : AstNode) :
    checkTaintInStmt tainted context s ≠ [] ↔
      ∃ t, Walks.Reaches sinkNext s t ∧
        ∃ e, sinkExpr t = some e ∧ IsSinkCall e ∧ Takes (· ∈ tainted) e :=
  Walks.search_iff (measure sizeOf).wf sizeOf_sinkNext checkTaintInStmt_step s

/-! ## The walk for LLM calls -/

theorem checkLlmCall_ne_nil {hint : String} {expr : Option AstNode} :
    checkLlmCall tainted context hint expr ≠ [] ↔
      ∃ e, expr = some e ∧ isLlmCall e ∧ Takes (· ∈ tainted) e := by
  cases expr with
  | none => simp [checkLlmCall]
  | some e =>
      simp only [checkLlmCall, Option.some.injEq, exists_eq_left', takes_iff]
      cases isLlmCall e with
      | false => simp
      | true =>
          by_cases hkind : e.kind = .ask
          · cases childUsesTainted tainted e.left <;> simp [hkind]
          · simp [hkind]

theorem checkPromptInChild_ne_nil {c : Option AstNode} :
    checkPromptInChild tainted context c ≠ [] ↔
      ∃ s ∈ c.toList, checkPromptInjection tainted context s ≠ [] := by
  cases c <;> simp [checkPromptInChild]

theorem checkPromptInFirst_ne_nil {ss : List AstNode} :
    checkPromptInFirst tainted context ss ≠ [] ↔
      ∃ s ∈ ss.head?.toList, checkPromptInjection tainted context s ≠ [] := by
  cases ss <;> simp [checkPromptInFirst]

theorem checkPromptInStmts_ne_nil {ss : List AstNode} :
    checkPromptInStmts tainted context ss ≠ [] ↔
      ∃ s ∈ ss, checkPromptInjection tainted context s ≠ [] := by
  induction ss with
  | nil => simp [checkPromptInStmts]
  | cons s ss ih =>
      rw [checkPromptInStmts, ne_eq, List.append_eq_nil_iff, not_and_or, ← ne_eq, ← ne_eq, ih]
      simp

theorem checkPromptInjection_step (s : AstNode) :
    checkPromptInjection tainted context s ≠ [] ↔
      (∃ e, promptExpr s = some e ∧ isLlmCall e ∧ Takes (· ∈ tainted) e) ∨
        ∃ c ∈ promptNext s, checkPromptInjection tainted context c ≠ [] := by
  obtain ⟨kind, name, type, left, right, params, val⟩ := s
  cases kind with
  | exprStmt | ret | letS =>
      rw [checkPromptInjection, checkLlmCall_ne_nil]
      simp [promptExpr, promptNext]
  | ifS =>
      rw [checkPromptInjection, ne_eq, List.append_eq_nil_iff, not_and_or, ← ne_eq, ← ne_eq,
        checkPromptInChild_ne_nil, checkPromptInFirst_ne_nil]
      simp only [promptExpr, promptNext, List.mem_append, or_and_right, exists_or, reduceCtorEq,
        false_and, exists_false, false_or]
  | block =>
      rw [checkPromptInjection, checkPromptInStmts_ne_nil]
      simp [promptExpr, promptNext]
  | _ => simp [checkPromptInjection, promptExpr, promptNext]

theorem promptNext_subset (s : AstNode) : ∀ c ∈ promptNext s, c ∈ sinkNext s := by
  intro c hc
  cases hkind : s.kind <;> simp only [promptNext, sinkNext, hkind, List.not_mem_nil] at hc ⊢
  case ifS => exact hc
  case block => exact hc

theorem checkPromptInjection_ne_nil (s : AstNode) :
    checkPromptInjection tainted context s ≠ [] ↔
      ∃ t, Walks.Reaches promptNext s t ∧
        ∃ e, promptExpr t = some e ∧ isLlmCall e ∧ Takes (· ∈ tainted) e :=
  Walks.search_iff (measure sizeOf).wf
    (fun s c hc => sizeOf_sinkNext s c (promptNext_subset s c hc)) checkPromptInjection_step s

end

/-! ## What is collected -/

section
variable {existing : List String}

theorem letIsTainted_iff {out : List String} {e : AstNode} :
    letIsTainted existing out e ↔
      isTaintSource e ∨ e.Mentions (· ∈ existing) ∨ e.Mentions (· ∈ out) := by
  have hchild : ∀ (tainted : List String) (c : Option AstNode),
      (∀ a, c = some a → a ∈ e.children) →
        childUsesTainted tainted c → exprUsesTainted tainted e := by
    intro tainted c hc h
    obtain ⟨a, ha, h⟩ := childUsesTainted_iff.mp h
    exact (exprUsesTainted_step e).mpr (.inr ⟨a, hc a (Option.mem_toList.mp ha), h⟩)
  have hleft : ∀ tainted, childUsesTainted tainted e.left → exprUsesTainted tainted e :=
    fun tainted => hchild tainted e.left fun a => left_mem_children
  have hright : ∀ tainted, childUsesTainted tainted e.right → exprUsesTainted tainted e :=
    fun tainted => hchild tainted e.right fun a => right_mem_children
  simp only [letIsTainted, Bool.or_eq_true, Bool.and_eq_true, ← exprUsesTainted_iff]
  constructor
  · rintro ((h | h) | ⟨-, ((h | h) | h) | h⟩)
    · exact .inl h
    · exact .inr h
    · exact .inr (.inl (hleft _ h))
    · exact .inr (.inl (hright _ h))
    · exact .inr (.inr (hleft _ h))
    · exact .inr (.inr (hright _ h))
  · rintro (h | h)
    · exact .inl (.inl h)
    · exact .inl (.inr h)

/-- The names that the lets before statement `k` bring in. -/
def CollectedBefore (existing : List String) (stmts : List AstNode) (k : Nat) (x : String) : Prop :=
  ∃ j < k, TaintedLet existing stmts j x ∧ taintedLetsBefore existing stmts j < maxTaintedParams

/-- One more let, as long as there is room for it. -/
theorem taintedLet_iff {stmts : List AstNode} {k : Nat} {s : AstNode} (hs : stmts[k]? = some s)
    {out : List String} (hout : ∀ x, x ∈ out ↔ ∃ j < k, TaintedLet existing stmts j x)
    (x : String) :
    TaintedLet existing stmts k x ↔
      s.kind = .letS ∧ s.name = some x ∧ ∃ e, s.right = some e ∧ letIsTainted existing out e := by
  constructor
  · intro h
    cases h with
    | @source _ s' e _ hs' hlet hname hright hsrc =>
        cases hs.symm.trans hs'
        exact ⟨hlet, hname, e, hright, letIsTainted_iff.mpr (.inl hsrc)⟩
    | @param _ s' e _ hs' hlet hname hright hm =>
        cases hs.symm.trans hs'
        exact ⟨hlet, hname, e, hright, letIsTainted_iff.mpr (.inr (.inl hm))⟩
    | @earlier _ j s' e m _ y hs' hlet hname hright hm hvar hj hy =>
        cases hs.symm.trans hs'
        refine ⟨hlet, hname, e, hright, letIsTainted_iff.mpr (.inr (.inr ?_))⟩
        exact ⟨m, y, hm, hvar, (hout y).mpr ⟨j, hj, hy⟩⟩
  · rintro ⟨hlet, hname, e, hright, htainted⟩
    rcases letIsTainted_iff.mp htainted with h | h | ⟨m, y, hm, hvar, hy⟩
    · exact .source hs hlet hname hright h
    · exact .param hs hlet hname hright h
    · obtain ⟨j, hj, hy⟩ := (hout y).mp hy
      exact .earlier hs hlet hname hright hm hvar hj hy

theorem collectStep_of_tainted {out : List String} {s e : AstNode} {x : String}
    (hroom : out.length < maxTaintedParams) (hlet : s.kind = .letS) (hname : s.name = some x)
    (hright : s.right = some e) (h : letIsTainted existing out e) :
    collectStep existing out s = out ++ [x] := by
  simp [collectStep, Nat.not_le.mpr hroom, hlet, hname, hright, h]

theorem collectStep_of_not {out : List String} {s : AstNode}
    (h : ∀ x e, s.kind = .letS → s.name = some x → s.right = some e →
      letIsTainted existing out e = false) : collectStep existing out s = out := by
  rw [collectStep]
  split
  · rfl
  · split
    · rename_i hlet
      split
      · rename_i x e hname hright
        rw [if_neg (by simp [h x e hlet hname hright])]
      · rfl
    · rfl

/-- After `k` statements the table holds what the lets before statement `k` bring
in, and is as long as there are such lets, or full. -/
structure CollectedSoFar (existing : List String) (stmts : List AstNode) (k : Nat)
    (out : List String) : Prop where
  mem : ∀ x, x ∈ out ↔ CollectedBefore existing stmts k x
  length : out.length = min maxTaintedParams (taintedLetsBefore existing stmts k)

theorem collectedBefore_succ {stmts : List AstNode} {k : Nat} {x : String} :
    CollectedBefore existing stmts (k + 1) x ↔ CollectedBefore existing stmts k x ∨
      (TaintedLet existing stmts k x ∧ taintedLetsBefore existing stmts k < maxTaintedParams) := by
  constructor
  · rintro ⟨j, hj, h⟩
    rcases Nat.lt_succ_iff_lt_or_eq.mp hj with hj | rfl
    · exact .inl ⟨j, hj, h⟩
    · exact .inr h
  · rintro (⟨j, hj, h⟩ | h)
    · exact ⟨j, Nat.lt_succ_of_lt hj, h⟩
    · exact ⟨k, Nat.lt_succ_self k, h⟩

/-- One statement. -/
theorem CollectedSoFar.step {stmts : List AstNode} {k : Nat} {s : AstNode}
    (hs : stmts[k]? = some s) {out : List String} (h : CollectedSoFar existing stmts k out) :
    CollectedSoFar existing stmts (k + 1) (collectStep existing out s) := by
  classical
  have hcount : taintedLetsBefore existing stmts (k + 1) = taintedLetsBefore existing stmts k +
      if ∃ y, TaintedLet existing stmts k y then 1 else 0 := by
    rw [taintedLetsBefore, taintedLetsBefore, Nat.count_succ]
  by_cases hroom : out.length < maxTaintedParams
  · have hlen := h.length
    have hlt : taintedLetsBefore existing stmts k < maxTaintedParams := by omega
    have hout : ∀ x, x ∈ out ↔ ∃ j < k, TaintedLet existing stmts j x := by
      intro x
      rw [h.mem]
      constructor
      · rintro ⟨j, hj, hx, -⟩
        exact ⟨j, hj, hx⟩
      · rintro ⟨j, hj, hx⟩
        exact ⟨j, hj, hx, Nat.lt_of_le_of_lt (Nat.count_monotone _ (Nat.le_of_lt hj)) hlt⟩
    by_cases htainted : ∃ y, TaintedLet existing stmts k y
    · obtain ⟨y, hy⟩ := htainted
      obtain ⟨hlet, hname, e, hright, he⟩ := (taintedLet_iff hs hout y).mp hy
      rw [collectStep_of_tainted hroom hlet hname hright he]
      refine ⟨fun x => ?_, ?_⟩
      · rw [collectedBefore_succ, List.mem_append, h.mem, List.mem_singleton]
        refine or_congr_right ⟨?_, ?_⟩
        · rintro rfl
          exact ⟨hy, hlt⟩
        · rintro ⟨hx, -⟩
          obtain ⟨-, hname', -⟩ := (taintedLet_iff hs hout x).mp hx
          exact Option.some.inj (hname'.symm.trans hname)
      · rw [List.length_append, List.length_singleton, hcount, if_pos ⟨y, hy⟩]
        omega
    · have hno : collectStep existing out s = out := by
        refine collectStep_of_not fun x e hlet hname hright => ?_
        by_contra he
        exact htainted ⟨x, (taintedLet_iff hs hout x).mpr
          ⟨hlet, hname, e, hright, Bool.of_not_eq_false he⟩⟩
      rw [hno]
      refine ⟨fun x => ?_, ?_⟩
      · rw [collectedBefore_succ, h.mem]
        exact ⟨.inl, fun hx => hx.resolve_right fun hk => htainted ⟨x, hk.1⟩⟩
      · rw [hcount, if_neg htainted, h.length, Nat.add_zero]
  · have hlen := h.length
    have hfull : ¬ taintedLetsBefore existing stmts k < maxTaintedParams := by omega
    have hno : collectStep existing out s = out := by
      rw [collectStep, if_pos (Nat.not_lt.mp hroom)]
    rw [hno]
    refine ⟨fun x => ?_, ?_⟩
    · rw [collectedBefore_succ, h.mem]
      exact ⟨.inl, fun hx => hx.resolve_right fun hk => hfull hk.2⟩
    · rw [hcount]
      omega

/-- The whole block. -/
theorem collectedSoFar_foldl (existing : List String) (stmts : List AstNode) (k : Nat)
    (hk : k ≤ stmts.length) :
    CollectedSoFar existing stmts k ((stmts.take k).foldl (collectStep existing) []) := by
  induction k with
  | zero =>
      refine ⟨fun x => ?_, ?_⟩
      · simp [CollectedBefore]
      · simp [taintedLetsBefore]
  | succ k ih =>
      have hs : stmts[k]? = some stmts[k] := List.getElem?_eq_getElem hk
      rw [List.take_succ_eq_append_getElem hk, List.foldl_append]
      exact (ih (Nat.le_of_lt hk)).step hs

theorem lt_length_of_taintedLet {stmts : List AstNode} {k : Nat} {x : String}
    (h : TaintedLet existing stmts k x) : k < stmts.length := by
  cases h with
  | source hs => exact (List.getElem?_eq_some_iff.mp hs).1
  | param hs => exact (List.getElem?_eq_some_iff.mp hs).1
  | earlier hs => exact (List.getElem?_eq_some_iff.mp hs).1

end

/-- The names that count as tainted are the collected ones. -/
theorem mem_allTainted (fn : TaintFn) (x : String) : x ∈ fn.allTainted ↔ Collected fn x := by
  rw [TaintFn.allTainted, List.mem_append, Collected]
  refine or_congr_right ?_
  cases hbody : fn.body with
  | none => simp [collectInferredTainted]
  | some block =>
      by_cases hkind : block.kind = .block
      · have hall := (collectedSoFar_foldl (collectTaintedParams fn.params) block.params
          block.params.length (Nat.le_refl _)).mem x
        rw [List.take_length] at hall
        simp only [collectInferredTainted, if_pos hkind, hall, CollectedBefore]
        constructor
        · rintro ⟨k, -, h⟩
          exact ⟨block, k, rfl, hkind, h⟩
        · rintro ⟨b, k, hb, -, h⟩
          cases hb
          exact ⟨k, lt_length_of_taintedLet h.1, h⟩
      · simp only [collectInferredTainted, if_neg hkind, List.not_mem_nil, false_iff]
        rintro ⟨b, k, hb, hb', -⟩
        cases hb
        exact hkind hb'

/-! ## The verdict -/

/-- The check of a function reports what it sees. -/
theorem checkTaintInFn_ne_nil (context : Option String) (fn : TaintFn) :
    checkTaintInFn context fn ≠ [] ↔ SeenSink fn := by
  have htakes : ∀ e, Takes (· ∈ fn.allTainted) e ↔ Takes (Collected fn) e := by
    intro e
    simp only [mem_allTainted]
  by_cases hempty : fn.allTainted = []
  · have hno : ∀ e, ¬ Takes (Collected fn) e := by
      rintro e ⟨a, -, m, x, -, -, hx⟩
      rw [← mem_allTainted, hempty] at hx
      cases hx
    rw [checkTaintInFn, if_pos hempty]
    refine ⟨fun h => absurd rfl h, ?_⟩
    rintro ⟨body, -, ⟨s, e, -, -, -, h⟩ | ⟨s, e, -, -, -, h⟩⟩
    · exact absurd h (hno e)
    · exact absurd h (hno e)
  · cases hbody : fn.body with
    | none => simp [checkTaintInFn, hbody, SeenSink]
    | some body =>
        simp only [checkTaintInFn, if_neg hempty, hbody, SeenSink, Option.some.injEq,
          exists_eq_left', ne_eq, List.append_eq_nil_iff, not_and_or]
        simp only [← ne_eq, checkTaintInStmt_ne_nil, checkPromptInjection_ne_nil, htakes,
          exists_and_left]

/-- `exec(q)` -/
def execCall : AstNode where
  kind := .call
  left := some { kind := .ident, name := some "exec" }
  params := [{ kind := .ident, name := some "q" }]

/-- `{ if true { exec(q) } }` -/
def branchBody : AstNode where
  kind := .block
  params :=
    [{ kind := .exprStmt
       left := some
        { kind := .ifS
          left := some { kind := .other }
          right := some
            { kind := .block, params := [{ kind := .exprStmt, left := some execCall }] } } }]

/-- `fn f(q: @user_input string) { if true { exec(q) } }` -/
def branchFn : TaintFn where
  name := some "f"
  params := [{ kind := .param, name := some "q", typeExpr := some { kind := .typeTainted } }]
  body := some branchBody

theorem taintedSink_branchFn : TaintedSink branchFn := by
  refine ⟨branchBody, rfl, execCall, ?_, .inl ⟨some "exec", rfl, by decide⟩, ?_⟩
  · refine AstNode.Within.child ?_ (params_mem_children (List.mem_singleton.mpr rfl))
    refine AstNode.Within.child ?_ (left_mem_children rfl)
    refine AstNode.Within.child ?_ (right_mem_children rfl)
    refine AstNode.Within.child ?_ (params_mem_children (List.mem_singleton.mpr rfl))
    exact (AstNode.Within.refl execCall).child (left_mem_children rfl)
  · refine ⟨_, List.mem_singleton.mpr rfl, _, "q", .refl _, ⟨rfl, rfl⟩, ?_⟩
    exact .param (List.mem_singleton.mpr rfl) rfl

end Limceron.Typecheck
