/-
# `Limceron.Access.RuleOrder` — the order of the path rules

`acl_check_path` looks at the deny rules first, and then takes the first allow rule whose
pattern matches: its mode decides.  So the place of a deny rule does not matter, and that
of an allow rule does when another one that matches has a different mode.
-/
import Limceron.Access.Fence
import Limceron.Lib.RuleLists

namespace Limceron.Access

open Caps (CString)
open RuleLists

/-- The policy with these path rules. -/
def LcnAccessPolicy.withPaths (policy : LcnAccessPolicy) (rules : List PathRule) :
    LcnAccessPolicy :=
  { policy with paths := some rules }

namespace PathRule

def covers (path : CString) (r : PathRule) : Bool := aclGlobMatch r.pattern path

/-- Whether the rule is for writing, or for reading. -/
def hasMode (needWrite : Bool) (r : PathRule) : Bool := if needWrite then r.canWrite else r.canRead

/-- The rule, as far as one access is concerned. -/
def vote (needWrite : Bool) (path : CString) (r : PathRule) : Vote :=
  .of (r.covers path) r.allow (r.hasMode needWrite)

variable {needWrite : Bool} {path : CString} {r : PathRule}

theorem denies_vote : (r.vote needWrite path).denies = true ↔
    r.allow = false ∧ r.covers path = true := by
  rw [vote, Vote.of, Vote.denies, Bool.and_eq_true_iff, Bool.not_eq_true', and_comm]

theorem allows_vote : (r.vote needWrite path).allows = true ↔
    r.allow = true ∧ r.covers path = true := by
  rw [vote, Vote.of, Vote.allows, Bool.and_eq_true_iff, and_comm]

theorem grants_vote (h : r.allow = true) :
    (r.vote needWrite path).grants = r.hasMode needWrite := by
  show (r.allow && r.hasMode needWrite) = r.hasMode needWrite
  rw [h, Bool.true_and]

end PathRule

/-- The access passes both checks. -/
def Permits (policy : LcnAccessPolicy) (needWrite : Bool) (path : CString)
    (rules : List PathRule) : Prop :=
  aclCheckPath needWrite path (some (policy.withPaths rules)) = none ∧
    lcnCapabilityCheckPath path needWrite (some (policy.withPaths rules)) = true

variable {policy : LcnAccessPolicy} {needWrite : Bool} {path : CString} {rules : List PathRule}

theorem permits_iff : Permits policy needWrite path rules ↔
    grants (PathRule.vote needWrite path) (!policy.defaultDeny) rules = true := by
  have hacl : aclCheckPath needWrite path (some (policy.withPaths rules)) = none ↔
      grants (PathRule.vote needWrite path) (!policy.defaultDeny) rules = true := by
    rw [grants, show PathRule.vote needWrite path = fun r : PathRule =>
      .of (r.covers path) r.allow (r.hasMode needWrite) from rfl, passes_denyOverrides_map,
      aclCheckPath]
    simp only [LcnAccessPolicy.withPaths, PathRule.covers]
    cases rules.any fun r => !r.allow && aclGlobMatch r.pattern path with
    | true => simp
    | false =>
        cases rules.find? fun r => r.allow && aclGlobMatch r.pattern path with
        | none =>
            have hdefault : ∀ deny : Bool,
                (if deny then some "access_control: path not in allow list" else none) = none ↔
                  (!deny) = true := by
              decide
            exact hdefault policy.defaultDeny
        | some r =>
            cases needWrite <;> cases hw : r.canWrite <;> cases hr : r.canRead <;>
              simp [PathRule.hasMode, hw, hr]
  rw [Permits, checkPath_iff, and_self, hacl]

/-- The verdict of one check is that of the other, so `Permits` is each of them. -/
theorem permits_iff_acl : Permits policy needWrite path rules ↔
    aclCheckPath needWrite path (some (policy.withPaths rules)) = none := by
  rw [Permits, checkPath_iff, and_self]

/-- A deny rule that matches wins wherever it stands.  The order of the rules matters
exactly if no deny rule matches and two allow rules that match do not have the same mode.
A new allow rule takes an access away if it matches without the mode, in front of all
rules, or behind them when no other allow rule matches. -/
theorem path_rules_order (policy : LcnAccessPolicy) (needWrite : Bool) (path : CString)
    (rules : List PathRule) :
    ((∃ r ∈ rules, r.allow = false ∧ r.covers path = true) →
      ¬ Permits policy needWrite path rules) ∧
    ((∀ rules', rules'.Perm rules →
        (Permits policy needWrite path rules' ↔ Permits policy needWrite path rules)) ↔
      (∃ r ∈ rules, r.allow = false ∧ r.covers path = true) ∨
        ∀ r ∈ rules, ∀ r' ∈ rules, r.allow = true ∧ r.covers path = true →
          r'.allow = true ∧ r'.covers path = true → r.hasMode needWrite = r'.hasMode needWrite) ∧
    ∀ r : PathRule, r.allow = true → Permits policy needWrite path rules →
      (Permits policy needWrite path (r :: rules) ↔
        (r.covers path = true → r.hasMode needWrite = true)) ∧
      (Permits policy needWrite path (rules ++ [r]) ↔
        (r.covers path = true → r.hasMode needWrite = true ∨
          ∃ r' ∈ rules, r'.allow = true ∧ r'.covers path = true)) := by
  refine ⟨?_, ?_, fun r hallow h => ?_⟩
  · rintro ⟨r, hr, hdenies⟩ h
    rw [permits_iff, grants_of_denies ⟨r, hr, PathRule.denies_vote.mpr hdenies⟩] at h
    cases h
  · simp only [permits_iff, ← Bool.eq_iff_iff]
    rw [grants_perm_iff]
    simp only [PathRule.denies_vote, PathRule.allows_vote]
    refine or_congr_right ⟨fun h r hr r' hr' ha ha' => ?_, fun h r hr r' hr' ha ha' => ?_⟩
    · have heq := h r hr r' hr' ha ha'
      rwa [PathRule.grants_vote ha.1, PathRule.grants_vote ha'.1] at heq
    · rw [PathRule.grants_vote ha.1, PathRule.grants_vote ha'.1]
      exact h r hr r' hr' ha ha'
  · rw [permits_iff] at h
    have hvote : (r.vote needWrite path).allow = true := hallow
    constructor
    · rw [permits_iff, grants_cons_iff hvote h, PathRule.grants_vote hallow]
      rfl
    · rw [permits_iff, grants_concat_iff hvote h, PathRule.grants_vote hallow]
      simp only [PathRule.allows_vote]
      rfl

/-- `/a`, with one mode. -/
def oneMode (canRead : Bool) : PathRule where
  pattern := ['/', 'a']
  allow := true
  canRead := canRead
  canWrite := !canRead

def openPolicy : LcnAccessPolicy where
  endpoints := none
  binaries := none
  paths := none
  denyPrivate := false
  defaultDeny := false

/-- Two rules for `/a`, one for reading and one for writing. -/
theorem swap_refused : ¬ ∀ policy needWrite path rules rules',
    rules'.Perm rules →
      (Permits policy needWrite path rules' ↔ Permits policy needWrite path rules) := by
  intro h
  have hperm : [oneMode false, oneMode true].Perm [oneMode true, oneMode false] := .swap _ _ _
  have hiff := h openPolicy true ['/', 'a'] _ _ hperm
  rw [permits_iff_acl, permits_iff_acl] at hiff
  exact absurd hiff (by decide)

end Limceron.Access
