/-
# `Limceron.Typecheck.LoopScope` — `break` and `continue` outside of loops

`check_loop_scope_stmt` goes through a body and counts the loops it is in.  It looks at
a node as a statement, or at its children only, as an expression:

| at | goes on to statements | goes on to expressions |
| :-- | :-- | :-- |
| a block | all its statements | |
| `if` | the branches | the condition |
| `match` | the bodies of the arms | the subject |
| `while`, `for`, `loop` | the body, in one more loop | the condition, the iterator |
| `break`, `continue` | | |
| any other statement | | `left` and `right` |
| an expression | `left`, `right` and the first of `params` | |

A place is the way from the body to a node; it stands for the location of the node.
-/
import Limceron.Lang.Node
import Mathlib.Data.List.Nodup

namespace Limceron.Typecheck

open AstNode

/-! ## The walk -/

inductive Side where
  | left | right
  | param (i : Nat)
  deriving DecidableEq

/-- A `break` or a `continue` that is reported. -/
structure LoopReport where
  place : List Side
  kind : AstKind
  deriving DecidableEq

namespace LoopReport

def message (r : LoopReport) : String :=
  if r.kind = .breakS then "`break` used outside of a loop body"
  else "`continue` used outside of a loop body"

def hint (r : LoopReport) : String :=
  if r.kind = .breakS then
    "`break` is only valid inside a `while`, `for`, or `loop \x7b ... \x7d` block"
  else "`continue` is only valid inside a `while`, `for`, or `loop \x7b ... \x7d` block"

/-- The report, seen from the parent. -/
def under (s : Side) (r : LoopReport) : LoopReport := { r with place := s :: r.place }

end LoopReport

open LoopReport (under)

mutual

/-- `check_loop_scope_stmt`, for a node. -/
def checkLoopScopeStmt (depth : Nat) : AstNode → List LoopReport
  | ⟨kind, _, _, left, right, params, _⟩ =>
      match kind with
      | .whileS => checkLoopScopeExprAt depth .left left ++
          checkLoopScopeStmtAt (depth + 1) .right right
      | .forS => checkLoopScopeExprFirst depth params ++ checkLoopScopeStmtAt (depth + 1) .right right
      | .loop => checkLoopScopeStmtAt (depth + 1) .left left
      | .breakS | .continueS => if depth = 0 then [⟨[], kind⟩] else []
      | .block => checkLoopScopeBlock depth 0 params
      | .ifS => checkLoopScopeExprAt depth .left left ++ checkLoopScopeStmtAt depth .right right ++
          checkLoopScopeStmtFirst depth params
      | .matchS => checkLoopScopeExprAt depth .left left ++ checkLoopScopeArms depth 0 params
      | _ => checkLoopScopeExprAt depth .left left ++ checkLoopScopeExprAt depth .right right

/-- `check_loop_scope_expr`, for a node. -/
def checkLoopScopeExpr (depth : Nat) : AstNode → List LoopReport
  | ⟨_, _, _, left, right, params, _⟩ =>
      checkLoopScopeStmtAt depth .left left ++ checkLoopScopeStmtAt depth .right right ++
        checkLoopScopeStmtFirst depth params

/-- `check_loop_scope_stmt`, for a child that may be null. -/
def checkLoopScopeStmtAt (depth : Nat) (s : Side) : Option AstNode → List LoopReport
  | none => []
  | some c => (checkLoopScopeStmt depth c).map (under s)

/-- `check_loop_scope_expr`, for a child that may be null. -/
def checkLoopScopeExprAt (depth : Nat) (s : Side) : Option AstNode → List LoopReport
  | none => []
  | some c => (checkLoopScopeExpr depth c).map (under s)

/-- `check_loop_scope_stmt`, for a list: the first node. -/
def checkLoopScopeStmtFirst (depth : Nat) : List AstNode → List LoopReport
  | [] => []
  | c :: _ => (checkLoopScopeStmt depth c).map (under (.param 0))

/-- `check_loop_scope_expr`, for a list: the first node. -/
def checkLoopScopeExprFirst (depth : Nat) : List AstNode → List LoopReport
  | [] => []
  | c :: _ => (checkLoopScopeExpr depth c).map (under (.param 0))

/-- The statements of a block, from number `i` on. -/
def checkLoopScopeBlock (depth : Nat) (i : Nat) : List AstNode → List LoopReport
  | [] => []
  | c :: cs => (checkLoopScopeStmt depth c).map (under (.param i)) ++
      checkLoopScopeBlock depth (i + 1) cs

/-- The arms of a `match`. -/
def checkLoopScopeArm (depth : Nat) : AstNode → List LoopReport
  | ⟨kind, _, _, _, right, _, _⟩ =>
      if kind = .matchArm then checkLoopScopeStmtAt depth .right right else []

def checkLoopScopeArms (depth : Nat) (i : Nat) : List AstNode → List LoopReport
  | [] => []
  | c :: cs => (checkLoopScopeArm depth c).map (under (.param i)) ++
      checkLoopScopeArms depth (i + 1) cs

end

/-- The reports about a body, as `check_fn_body` and `check_tool_decl` ask for them. -/
def checkLoopScope (body : AstNode) : List LoopReport := checkLoopScopeStmt 0 body

/-! ## Places -/

/-- The child at a side. -/
def childAt (n : AstNode) : Side → Option AstNode
  | .left => n.left
  | .right => n.right
  | .param i => n.params[i]?

/-- Whether a child is in a loop of its function. -/
def inside (kind : AstKind) (s : Side) (looped : Bool) : Bool :=
  match kind, s with
  | .whileS, .right | .forS, .right | .loop, .left => true
  | .closure, .left => false
  | _, _ => looped

/-- At the place there is a `break` or a `continue`, and no loop of its function is
around it. -/
def Stray : Bool → AstNode → List Side → AstKind → Prop
  | looped, n, [], k => looped = false ∧ n.kind = k ∧ (k = .breakS ∨ k = .continueS)
  | looped, n, s :: p, k =>
      ∃ c, childAt n s = some c ∧ Stray (inside n.kind s looped) c p k

/-- How the walk looks at a node. -/
inductive LoopMode where
  | stmt | expr | arm
  deriving DecidableEq

/-- How it looks at a child, when it goes on there and does not enter a loop. -/
def goesOn : LoopMode → AstKind → Side → Option LoopMode
  | .stmt, .whileS, .left => some .expr
  | .stmt, .whileS, _ => none
  | .stmt, .forS, .param 0 => some .expr
  | .stmt, .forS, _ => none
  | .stmt, .loop, _ => none
  | .stmt, .breakS, _ | .stmt, .continueS, _ => none
  | .stmt, .block, .param _ => some .stmt
  | .stmt, .block, _ => none
  | .stmt, .ifS, .left => some .expr
  | .stmt, .ifS, .right | .stmt, .ifS, .param 0 => some .stmt
  | .stmt, .ifS, _ => none
  | .stmt, .matchS, .left => some .expr
  | .stmt, .matchS, .param _ => some .arm
  | .stmt, .matchS, _ => none
  | .stmt, _, .left | .stmt, _, .right => some .expr
  | .stmt, _, .param _ => none
  | .expr, _, .left | .expr, _, .right | .expr, _, .param 0 => some .stmt
  | .expr, _, _ => none
  | .arm, .matchArm, .right => some .stmt
  | .arm, _, _ => none

/-- The walk gets to a `break` or a `continue` at the place without entering a loop. -/
def Open : LoopMode → AstNode → List Side → AstKind → Prop
  | m, n, [], k => m = .stmt ∧ n.kind = k ∧ (k = .breakS ∨ k = .continueS)
  | m, n, s :: p, k =>
      ∃ c m', childAt n s = some c ∧ goesOn m n.kind s = some m' ∧ Open m' c p k

/-! ## What is reported -/

/-- The walk from a node. -/
def loopReports : LoopMode → Nat → AstNode → List LoopReport
  | .stmt => checkLoopScopeStmt
  | .expr => checkLoopScopeExpr
  | .arm => checkLoopScopeArm

section

variable {depth : Nat} {s t : Side} {p : List Side} {k : AstKind}

theorem mem_under {l : List LoopReport} :
    ⟨t :: p, k⟩ ∈ l.map (under s) ↔ t = s ∧ ⟨p, k⟩ ∈ l := by
  rw [List.mem_map]
  constructor
  · rintro ⟨⟨q, k'⟩, hr, heq⟩
    cases heq
    exact ⟨rfl, hr⟩
  · rintro ⟨rfl, h⟩
    exact ⟨⟨p, k⟩, h, rfl⟩

theorem mem_stmtAt {o : Option AstNode} : ⟨t :: p, k⟩ ∈ checkLoopScopeStmtAt depth s o ↔
    t = s ∧ ∃ c, o = some c ∧ ⟨p, k⟩ ∈ checkLoopScopeStmt depth c := by
  cases o with
  | none => simp [checkLoopScopeStmtAt]
  | some c => simp [checkLoopScopeStmtAt, mem_under]

theorem mem_exprAt {o : Option AstNode} : ⟨t :: p, k⟩ ∈ checkLoopScopeExprAt depth s o ↔
    t = s ∧ ∃ c, o = some c ∧ ⟨p, k⟩ ∈ checkLoopScopeExpr depth c := by
  cases o with
  | none => simp [checkLoopScopeExprAt]
  | some c => simp [checkLoopScopeExprAt, mem_under]

theorem mem_stmtFirst {l : List AstNode} : ⟨t :: p, k⟩ ∈ checkLoopScopeStmtFirst depth l ↔
    t = .param 0 ∧ ∃ c, l[0]? = some c ∧ ⟨p, k⟩ ∈ checkLoopScopeStmt depth c := by
  cases l with
  | nil => simp [checkLoopScopeStmtFirst]
  | cons c l => simp [checkLoopScopeStmtFirst, mem_under]

theorem mem_exprFirst {l : List AstNode} : ⟨t :: p, k⟩ ∈ checkLoopScopeExprFirst depth l ↔
    t = .param 0 ∧ ∃ c, l[0]? = some c ∧ ⟨p, k⟩ ∈ checkLoopScopeExpr depth c := by
  cases l with
  | nil => simp [checkLoopScopeExprFirst]
  | cons c l => simp [checkLoopScopeExprFirst, mem_under]

/-- All places of the reports begin with a side of `sides`. -/
def Headed (sides : Side → Prop) (l : List LoopReport) : Prop :=
  ∀ r ∈ l, ∃ s p, r.place = s :: p ∧ sides s

namespace Headed

variable {sides sides' : Side → Prop} {l l' : List LoopReport}

theorem under (l : List LoopReport) : Headed (· = s) (l.map (under s)) := by
  intro r hr
  obtain ⟨r', -, rfl⟩ := List.mem_map.mp hr
  exact ⟨s, r'.place, rfl, rfl⟩

theorem mono (h : Headed sides l) (hsub : ∀ s, sides s → sides' s) : Headed sides' l := by
  intro r hr
  obtain ⟨s, p, hp, hs⟩ := h r hr
  exact ⟨s, p, hp, hsub s hs⟩

theorem append (h : Headed sides l) (h' : Headed sides' l') :
    Headed (fun s => sides s ∨ sides' s) (l ++ l') := by
  intro r hr
  rcases List.mem_append.mp hr with hr | hr
  · exact h.mono (fun _ => .inl) r hr
  · exact h'.mono (fun _ => .inr) r hr

theorem not_nil (h : Headed sides l) : ⟨[], k⟩ ∉ l := by
  intro hmem
  obtain ⟨s, p, hp, -⟩ := h _ hmem
  cases hp

theorem nodup_append (h : Headed sides l) (h' : Headed sides' l') (hl : l.Nodup)
    (hl' : l'.Nodup) (hne : ∀ s, sides s → ¬ sides' s) : (l ++ l').Nodup := by
  refine List.nodup_append.mpr ⟨hl, hl', fun r hr r' hr' heq => ?_⟩
  subst heq
  obtain ⟨s, p, hp, hs⟩ := h r hr
  obtain ⟨s', p', hp', hs'⟩ := h' r hr'
  obtain ⟨rfl, -⟩ := List.cons.inj (hp.symm.trans hp')
  exact hne s hs hs'

end Headed

theorem head_stmtAt {o : Option AstNode} : Headed (· = s) (checkLoopScopeStmtAt depth s o) := by
  cases o with
  | none => exact fun r hr => nomatch hr
  | some c => exact .under _

theorem head_exprAt {o : Option AstNode} : Headed (· = s) (checkLoopScopeExprAt depth s o) := by
  cases o with
  | none => exact fun r hr => nomatch hr
  | some c => exact .under _

theorem head_stmtFirst {l : List AstNode} :
    Headed (· = .param 0) (checkLoopScopeStmtFirst depth l) := by
  cases l with
  | nil => exact fun r hr => nomatch hr
  | cons c l => exact .under _

theorem head_exprFirst {l : List AstNode} :
    Headed (· = .param 0) (checkLoopScopeExprFirst depth l) := by
  cases l with
  | nil => exact fun r hr => nomatch hr
  | cons c l => exact .under _

theorem head_block {l : List AstNode} {i : Nat} :
    Headed (fun s => ∃ j, i ≤ j ∧ s = .param j) (checkLoopScopeBlock depth i l) := by
  induction l generalizing i with
  | nil => exact fun r hr => nomatch hr
  | cons c l ih =>
      refine ((Headed.under _).append ih).mono ?_
      rintro s (rfl | ⟨j, hj, rfl⟩)
      · exact ⟨i, Nat.le_refl i, rfl⟩
      · exact ⟨j, Nat.le_of_succ_le hj, rfl⟩

theorem head_arms {l : List AstNode} {i : Nat} :
    Headed (fun s => ∃ j, i ≤ j ∧ s = .param j) (checkLoopScopeArms depth i l) := by
  induction l generalizing i with
  | nil => exact fun r hr => nomatch hr
  | cons c l ih =>
      refine ((Headed.under _).append ih).mono ?_
      rintro s (rfl | ⟨j, hj, rfl⟩)
      · exact ⟨i, Nat.le_refl i, rfl⟩
      · exact ⟨j, Nat.le_of_succ_le hj, rfl⟩

theorem mem_block {l : List AstNode} {i : Nat} :
    ⟨t :: p, k⟩ ∈ checkLoopScopeBlock depth i l ↔
      ∃ j c, t = .param (i + j) ∧ l[j]? = some c ∧ ⟨p, k⟩ ∈ checkLoopScopeStmt depth c := by
  induction l generalizing i with
  | nil => simp [checkLoopScopeBlock]
  | cons c l ih =>
      rw [checkLoopScopeBlock, List.mem_append, mem_under, ih]
      constructor
      · rintro (⟨rfl, h⟩ | ⟨j, c', rfl, hc, h⟩)
        · exact ⟨0, c, rfl, rfl, h⟩
        · exact ⟨j + 1, c', by rw [Nat.add_right_comm, Nat.add_assoc], hc, h⟩
      · rintro ⟨j, c', rfl, hc, h⟩
        cases j with
        | zero =>
            obtain rfl := Option.some.inj hc
            exact .inl ⟨rfl, h⟩
        | succ j => exact .inr ⟨j, c', by rw [Nat.add_right_comm, Nat.add_assoc], hc, h⟩

theorem mem_arms {l : List AstNode} {i : Nat} :
    ⟨t :: p, k⟩ ∈ checkLoopScopeArms depth i l ↔
      ∃ j c, t = .param (i + j) ∧ l[j]? = some c ∧ ⟨p, k⟩ ∈ checkLoopScopeArm depth c := by
  induction l generalizing i with
  | nil => simp [checkLoopScopeArms]
  | cons c l ih =>
      rw [checkLoopScopeArms, List.mem_append, mem_under, ih]
      constructor
      · rintro (⟨rfl, h⟩ | ⟨j, c', rfl, hc, h⟩)
        · exact ⟨0, c, rfl, rfl, h⟩
        · exact ⟨j + 1, c', by rw [Nat.add_right_comm, Nat.add_assoc], hc, h⟩
      · rintro ⟨j, c', rfl, hc, h⟩
        cases j with
        | zero =>
            obtain rfl := Option.some.inj hc
            exact .inl ⟨rfl, h⟩
        | succ j => exact .inr ⟨j, c', by rw [Nat.add_right_comm, Nat.add_assoc], hc, h⟩

/-- Whether a child is the body of a loop. -/
def isBody (kind : AstKind) (s : Side) : Bool :=
  match kind, s with
  | .whileS, .right | .forS, .right | .loop, .left => true
  | _, _ => false

theorem mem_stmt {n : AstNode} : ⟨t :: p, k⟩ ∈ checkLoopScopeStmt depth n ↔
    (∃ c m, childAt n t = some c ∧ goesOn .stmt n.kind t = some m ∧
      ⟨p, k⟩ ∈ loopReports m depth c) ∨
    ∃ c, childAt n t = some c ∧ isBody n.kind t = true ∧
      ⟨p, k⟩ ∈ checkLoopScopeStmt (depth + 1) c := by
  obtain ⟨kind, name, type, left, right, params, val⟩ := n
  cases kind
  all_goals
    rcases t with _ | _ | _ | i
    all_goals
      simp only [checkLoopScopeStmt, List.mem_append, mem_stmtAt, mem_exprAt, mem_stmtFirst,
        mem_exprFirst, mem_block, mem_arms, childAt, goesOn, isBody]
      try simp [loopReports]

theorem mem_expr {n : AstNode} : ⟨t :: p, k⟩ ∈ checkLoopScopeExpr depth n ↔
    ∃ c m, childAt n t = some c ∧ goesOn .expr n.kind t = some m ∧
      ⟨p, k⟩ ∈ loopReports m depth c := by
  obtain ⟨kind, name, type, left, right, params, val⟩ := n
  rcases t with _ | _ | _ | i
  all_goals
    simp only [checkLoopScopeExpr, List.mem_append, mem_stmtAt, mem_stmtFirst, childAt, goesOn]
    simp [loopReports]

theorem mem_arm {n : AstNode} : ⟨t :: p, k⟩ ∈ checkLoopScopeArm depth n ↔
    ∃ c m, childAt n t = some c ∧ goesOn .arm n.kind t = some m ∧
      ⟨p, k⟩ ∈ loopReports m depth c := by
  obtain ⟨kind, name, type, left, right, params, val⟩ := n
  rw [checkLoopScopeArm]
  split
  · rename_i hkind
    subst hkind
    rcases t with _ | _ | i
    all_goals
      simp only [mem_stmtAt, childAt, goesOn]
      simp [loopReports]
  · rename_i hkind
    simp [goesOn, hkind]

/-- One step of the walk, in all modes. -/
theorem mem_reports_cons {m : LoopMode} {n : AstNode} : ⟨t :: p, k⟩ ∈ loopReports m depth n ↔
    (∃ c m', childAt n t = some c ∧ goesOn m n.kind t = some m' ∧
      ⟨p, k⟩ ∈ loopReports m' depth c) ∨
    m = .stmt ∧ ∃ c, childAt n t = some c ∧ isBody n.kind t = true ∧
      ⟨p, k⟩ ∈ checkLoopScopeStmt (depth + 1) c := by
  cases m with
  | stmt => simpa [loopReports] using mem_stmt
  | expr => simpa [loopReports] using mem_expr
  | arm => simpa [loopReports] using mem_arm

theorem mem_reports_nil {m : LoopMode} {n : AstNode} : ⟨[], k⟩ ∈ loopReports m depth n ↔
    m = .stmt ∧ depth = 0 ∧ n.kind = k ∧ (k = .breakS ∨ k = .continueS) := by
  obtain ⟨kind, name, type, left, right, params, val⟩ := n
  cases m with
  | stmt =>
      rw [loopReports]
      unfold checkLoopScopeStmt
      split
      all_goals
        simp only [List.mem_append, head_stmtAt.not_nil, head_exprAt.not_nil,
          head_stmtFirst.not_nil, head_exprFirst.not_nil, head_block.not_nil, head_arms.not_nil,
          or_self, false_iff, true_and]
      case h_4 | h_5 =>
        by_cases hdepth : depth = 0
        · simp +contextual [hdepth, eq_comm]
        · simp [hdepth]
      -- the other kinds are none of the two
      all_goals
        rintro ⟨-, rfl, hkind | hkind⟩
        all_goals simp_all
  | expr =>
      rw [loopReports, checkLoopScopeExpr]
      simp [head_stmtAt.not_nil, head_stmtFirst.not_nil]
  | arm =>
      rw [loopReports, checkLoopScopeArm]
      split
      · simp [head_stmtAt.not_nil]
      · simp

/-- What is reported: what the walk gets to without entering a loop. -/
theorem mem_reports {m : LoopMode} {n : AstNode} : ⟨p, k⟩ ∈ loopReports m depth n ↔
    depth = 0 ∧ Open m n p k := by
  induction p generalizing m depth n with
  | nil =>
      rw [mem_reports_nil, Open]
      exact and_left_comm
  | cons t p ih =>
      rw [mem_reports_cons, Open]
      simp only [ih]
      constructor
      · rintro (⟨c, m', hc, hm, rfl, h⟩ | ⟨-, c, hc, -, h⟩)
        · exact ⟨rfl, c, m', hc, hm, h⟩
        · have hloop := (ih (m := .stmt)).mp h
          exact absurd hloop.1 (Nat.succ_ne_zero _)
      · rintro ⟨rfl, c, m', hc, hm, h⟩
        exact .inl ⟨c, m', hc, hm, rfl, h⟩

/-! ## Every place once -/

theorem nodup_under {l : List LoopReport} (h : l.Nodup) : (l.map (under s)).Nodup := by
  have hinjective : Function.Injective (under s) := by
    rintro ⟨q, k⟩ ⟨q', k'⟩ heq
    cases heq
    rfl
  exact h.map hinjective

theorem nodup_stmtAt {o : Option AstNode}
    (h : ∀ c, o = some c → (checkLoopScopeStmt depth c).Nodup) :
    (checkLoopScopeStmtAt depth s o).Nodup := by
  cases o with
  | none => exact List.nodup_nil
  | some c => exact nodup_under (h c rfl)

theorem nodup_exprAt {o : Option AstNode}
    (h : ∀ c, o = some c → (checkLoopScopeExpr depth c).Nodup) :
    (checkLoopScopeExprAt depth s o).Nodup := by
  cases o with
  | none => exact List.nodup_nil
  | some c => exact nodup_under (h c rfl)

theorem nodup_stmtFirst {l : List AstNode}
    (h : ∀ c ∈ l, (checkLoopScopeStmt depth c).Nodup) :
    (checkLoopScopeStmtFirst depth l).Nodup := by
  cases l with
  | nil => exact List.nodup_nil
  | cons c l => exact nodup_under (h c List.mem_cons_self)

theorem nodup_exprFirst {l : List AstNode}
    (h : ∀ c ∈ l, (checkLoopScopeExpr depth c).Nodup) :
    (checkLoopScopeExprFirst depth l).Nodup := by
  cases l with
  | nil => exact List.nodup_nil
  | cons c l => exact nodup_under (h c List.mem_cons_self)

theorem nodup_block {l : List AstNode} {i : Nat}
    (h : ∀ c ∈ l, (checkLoopScopeStmt depth c).Nodup) :
    (checkLoopScopeBlock depth i l).Nodup := by
  induction l generalizing i with
  | nil => exact List.nodup_nil
  | cons c l ih =>
      refine (Headed.under _).nodup_append head_block (nodup_under (h c List.mem_cons_self))
        (ih fun c' hc' => h c' (List.mem_cons_of_mem _ hc')) ?_
      rintro _ rfl ⟨j, hj, heq⟩
      obtain rfl := Side.param.inj heq
      exact Nat.not_succ_le_self _ hj

theorem nodup_arms {l : List AstNode} {i : Nat}
    (h : ∀ c ∈ l, (checkLoopScopeArm depth c).Nodup) :
    (checkLoopScopeArms depth i l).Nodup := by
  induction l generalizing i with
  | nil => exact List.nodup_nil
  | cons c l ih =>
      refine (Headed.under _).nodup_append head_arms (nodup_under (h c List.mem_cons_self))
        (ih fun c' hc' => h c' (List.mem_cons_of_mem _ hc')) ?_
      rintro _ rfl ⟨j, hj, heq⟩
      obtain rfl := Side.param.inj heq
      exact Nat.not_succ_le_self _ hj

theorem nodup_reports (m : LoopMode) (depth : Nat) (n : AstNode) :
    (loopReports m depth n).Nodup := by
  induction n using wf_children.induction generalizing m depth with
  | _ n ih =>
      obtain ⟨kind, name, type, left, right, params, val⟩ := n
      have hleft : ∀ c, left = some c → ∀ m d, (loopReports m d c).Nodup :=
        fun c hc => ih c (left_mem_children hc)
      have hright : ∀ c, right = some c → ∀ m d, (loopReports m d c).Nodup :=
        fun c hc => ih c (right_mem_children hc)
      have hparams : ∀ c ∈ params, ∀ m d, (loopReports m d c).Nodup :=
        fun c hc => ih c (params_mem_children hc)
      have hexprLeft : (checkLoopScopeExprAt depth .left left).Nodup :=
        nodup_exprAt fun c hc => hleft c hc .expr _
      have hstmtRight (d : Nat) : (checkLoopScopeStmtAt d .right right).Nodup :=
        nodup_stmtAt fun c hc => hright c hc .stmt _
      have hfirst : (checkLoopScopeStmtFirst depth params).Nodup :=
        nodup_stmtFirst fun c hc => hparams c hc .stmt _
      have hbranches : (checkLoopScopeStmtAt depth .right right ++
          checkLoopScopeStmtFirst depth params).Nodup :=
        head_stmtAt.nodup_append head_stmtFirst (hstmtRight _) hfirst (by rintro _ rfl ⟨⟩)
      cases m with
      | stmt =>
          rw [loopReports]
          unfold checkLoopScopeStmt
          split
          · exact head_exprAt.nodup_append head_stmtAt hexprLeft (hstmtRight _) (by rintro _ rfl ⟨⟩)
          · exact head_exprFirst.nodup_append head_stmtAt
              (nodup_exprFirst fun c hc => hparams c hc .expr _) (hstmtRight _) (by rintro _ rfl ⟨⟩)
          · exact nodup_stmtAt fun c hc => hleft c hc .stmt _
          · split <;> simp
          · split <;> simp
          · exact nodup_block fun c hc => hparams c hc .stmt _
          · rw [List.append_assoc]
            refine head_exprAt.nodup_append (head_stmtAt.append head_stmtFirst) hexprLeft
              hbranches ?_
            rintro _ rfl (h | h) <;> cases h
          · refine head_exprAt.nodup_append head_arms hexprLeft
              (nodup_arms fun c hc => hparams c hc .arm _) ?_
            rintro _ rfl ⟨j, -, h⟩
            cases h
          · exact head_exprAt.nodup_append head_exprAt hexprLeft
              (nodup_exprAt fun c hc => hright c hc .expr _) (by rintro _ rfl ⟨⟩)
      | expr =>
          rw [loopReports, checkLoopScopeExpr, List.append_assoc]
          refine head_stmtAt.nodup_append (head_stmtAt.append head_stmtFirst)
            (nodup_stmtAt fun c hc => hleft c hc .stmt _) hbranches ?_
          rintro _ rfl (h | h) <;> cases h
      | arm =>
          rw [loopReports, checkLoopScopeArm]
          split
          · exact hstmtRight _
          · exact List.nodup_nil

end

/-! ## Exactness -/

/-- The reports are the strays, each once. -/
def Exact (body : AstNode) : Prop :=
  (checkLoopScope body).Nodup ∧
    ∀ place kind, ⟨place, kind⟩ ∈ checkLoopScope body ↔ Stray false body place kind

/-- A stray at a place the walk does not get to, or gets to in a loop. -/
def Hidden (body : AstNode) : Prop :=
  ∃ place kind, Stray false body place kind ∧ ¬ Open .stmt body place kind

/-- A `break` or a `continue` in a loop, which the walk did not enter as one. -/
def Mistaken (body : AstNode) : Prop :=
  ∃ place kind, Open .stmt body place kind ∧ ¬ Stray false body place kind

theorem loop_scopes_exact_iff (body : AstNode) : Exact body ↔ ¬ Hidden body ∧ ¬ Mistaken body := by
  have hmem : ∀ place kind,
      ⟨place, kind⟩ ∈ checkLoopScope body ↔ Open .stmt body place kind := by
    intro place kind
    refine (mem_reports (m := .stmt)).trans ?_
    exact and_iff_right rfl
  constructor
  · rintro ⟨-, hexact⟩
    constructor
    · rintro ⟨place, kind, hstray, hopen⟩
      exact hopen ((hmem place kind).mp ((hexact place kind).mpr hstray))
    · rintro ⟨place, kind, hopen, hstray⟩
      exact hstray ((hexact place kind).mp ((hmem place kind).mpr hopen))
  · rintro ⟨hhidden, hmistaken⟩
    refine ⟨nodup_reports .stmt 0 body, fun place kind => ?_⟩
    rw [hmem]
    constructor
    · intro hopen
      by_contra hstray
      exact hmistaken ⟨place, kind, hopen, hstray⟩
    · intro hstray
      by_contra hopen
      exact hhidden ⟨place, kind, hstray, hopen⟩

/-- `if c { break }`. -/
def breakIf : AstNode where
  kind := .ifS
  left := some { kind := .ident }
  right := some { kind := .block, params := [{ kind := .breakS }] }

/-- `f(1, if c { break })`. -/
def breakCall : AstNode where
  kind := .call
  left := some { kind := .ident }
  params := [{ kind := .intLit }, breakIf]

/-- The walk looks at the first argument alone. -/
def breakBody : AstNode where
  kind := .block
  params := [{ kind := .exprStmt, left := some breakCall }]

theorem second_argument_missed : ¬ ∀ body, Exact body := by
  intro h
  have hstray : Stray false breakBody [.param 0, .left, .param 1, .right, .param 0] .breakS :=
    ⟨_, rfl, _, rfl, _, rfl, _, rfl, _, rfl, rfl, rfl, .inl rfl⟩
  have hmem := ((h breakBody).2 _ _).mpr hstray
  have hnone : checkLoopScope breakBody = [] := by decide
  rw [hnone] at hmem
  cases hmem

end Limceron.Typecheck
