/-
# `RuleLists` — two ways to read a list of rules

A rule that applies to a request is an allow rule or a deny rule; an allow rule may
grant the request or not (when it allows something else of the same object).  Which
rule decides is a matter of convention:

| | |
| :-- | :-- |
| first applicable | the first rule that applies |
| deny overrides | a deny rule that applies, or else the first allow rule that does |

Where no rule applies a default decides.  `firstApplicable_eq_denyOverrides_iff`
says when the two conventions come to the same, and `passes_perm_iff` when the order of
the rules does not matter to the second.
-/
import Mathlib.Data.List.Find
import Mathlib.Data.List.Perm.Basic

namespace RuleLists

/-- A rule, as far as one request is concerned. -/
structure Vote where
  applies : Bool
  allow : Bool
  grants : Bool
  /-- a deny rule grants nothing -/
  allow_of_grants : grants = true → allow = true

namespace Vote

/-- The vote of a rule with a mode: what it allows it grants if the mode fits. -/
def of (applies allow mode : Bool) : Vote where
  applies := applies
  allow := allow
  grants := allow && mode
  allow_of_grants := fun h => (Bool.and_eq_true_iff.mp h).1

/-- A deny rule that applies. -/
def denies (v : Vote) : Bool := v.applies && !v.allow

/-- An allow rule that applies. -/
def allows (v : Vote) : Bool := v.applies && v.allow

end Vote

/-- Whether a request passes when this rule decides. -/
def passes (isOpen : Bool) : Option Vote → Bool
  | some v => v.grants
  | none => isOpen

def firstApplicable (vs : List Vote) : Option Vote := vs.find? (·.applies)

def denyOverrides (vs : List Vote) : Option Vote := (vs.find? (·.denies)).or (vs.find? (·.allows))

/-- The first rule that applies grants the request, and a deny rule applies too. -/
def Shadowed (vs : List Vote) : Prop :=
  (∃ v, firstApplicable vs = some v ∧ v.grants = true) ∧ ∃ w ∈ vs, w.denies = true

variable {vs : List Vote}

theorem denyOverrides_of_denies (h : ∃ w ∈ vs, w.denies = true) :
    ∃ w, denyOverrides vs = some w ∧ w.grants = false := by
  obtain ⟨w, hw⟩ := Option.isSome_iff_exists.mp (List.find?_isSome.mpr h)
  have hdenies : w.denies = true := List.find?_some hw
  refine ⟨w, ?_, ?_⟩
  · rw [denyOverrides, hw, Option.some_or]
  · rw [Vote.denies, Bool.and_eq_true_iff, Bool.not_eq_true'] at hdenies
    by_contra hgrants
    have hallow := w.allow_of_grants (Bool.of_not_eq_false hgrants)
    rw [hdenies.2] at hallow
    cases hallow

theorem not_denies_iff (v : Vote) (h : v.denies = false) : v.allows = v.applies := by
  rw [Vote.denies] at h
  rw [Vote.allows]
  cases hv : v.applies with
  | false => rfl
  | true =>
      rw [hv, Bool.true_and, Bool.not_eq_false'] at h
      rw [h]
      rfl

/-- Without a deny rule that applies the two conventions are the same. -/
theorem denyOverrides_of_not_denies (h : ¬ ∃ w ∈ vs, w.denies = true) :
    denyOverrides vs = firstApplicable vs := by
  have hnone : ∀ w ∈ vs, w.denies = false := fun w hw =>
    Bool.of_not_eq_true fun hd => h ⟨w, hw, hd⟩
  have hfind : vs.find? (·.denies) = none :=
    List.find?_eq_none.mpr fun w hw => by rw [hnone w hw]; exact Bool.false_ne_true
  rw [denyOverrides, hfind, Option.none_or, firstApplicable]
  exact List.find?_congr fun w hw => not_denies_iff w (hnone w hw)

/-- The two conventions come to the same, unless an allow rule hides a deny rule, or
nothing applies and the defaults are not the same. -/
theorem firstApplicable_eq_denyOverrides_iff (isOpen isOpen' : Bool) :
    passes isOpen (firstApplicable vs) = passes isOpen' (denyOverrides vs) ↔
      ¬ Shadowed vs ∧ (firstApplicable vs = none → isOpen = isOpen') := by
  by_cases hdenies : ∃ w ∈ vs, w.denies = true
  · obtain ⟨w, hw, hgrants⟩ := denyOverrides_of_denies hdenies
    have hsome : firstApplicable vs ≠ none := by
      obtain ⟨d, hd, hdeny⟩ := hdenies
      intro hnone
      exact List.find?_eq_none.mp hnone d hd (Bool.and_eq_true_iff.mp hdeny).1
    rw [hw, Shadowed]
    cases hv : firstApplicable vs with
    | none => exact absurd hv hsome
    | some v =>
        simp only [passes, hgrants, Option.some.injEq, reduceCtorEq, false_implies, and_true,
          exists_eq_left', not_and]
        exact ⟨fun h hv' => absurd h (by rw [hv']; exact Bool.noConfusion),
          fun h => Bool.of_not_eq_true fun hv' => h hv' hdenies⟩
  · rw [denyOverrides_of_not_denies hdenies, Shadowed]
    cases firstApplicable vs with
    | none =>
        simp only [passes, hdenies, and_false, not_false_eq_true, true_and, forall_const]
    | some v =>
        simp only [passes, hdenies, and_false, not_false_eq_true, reduceCtorEq, false_implies,
          and_true]

/-- Deny rules first, then the first allow rule, then the default. -/
theorem passes_denyOverrides (isOpen : Bool) :
    passes isOpen (denyOverrides vs) =
      (!vs.any (·.denies) && passes isOpen (vs.find? (·.allows))) := by
  by_cases hdenies : ∃ w ∈ vs, w.denies = true
  · obtain ⟨w, hw, hgrants⟩ := denyOverrides_of_denies hdenies
    rw [hw, passes, hgrants, List.any_eq_true.mpr hdenies]
    rfl
  · have hany : vs.any (·.denies) = false :=
      Bool.of_not_eq_true fun h => hdenies (List.any_eq_true.mp h)
    have hfind : vs.find? (·.denies) = none :=
      List.find?_eq_none.mpr fun w hw hd => hdenies ⟨w, hw, hd⟩
    rw [hany, denyOverrides, hfind, Option.none_or, Bool.not_false, Bool.true_and]

/-- The same for rules of any kind. -/
theorem passes_denyOverrides_map {ρ : Type} (rs : List ρ) (applies allow mode : ρ → Bool)
    (isOpen : Bool) :
    passes isOpen (denyOverrides (rs.map fun r => .of (applies r) (allow r) (mode r))) =
      (!(rs.any fun r => !allow r && applies r) &&
        ((rs.find? fun r => allow r && applies r).map mode).getD isOpen) := by
  have hdenies : Vote.denies ∘ (fun r => .of (applies r) (allow r) (mode r)) =
      fun r => !allow r && applies r := funext fun r => Bool.and_comm (applies r) (!allow r)
  have hallows : Vote.allows ∘ (fun r => .of (applies r) (allow r) (mode r)) =
      fun r => allow r && applies r := funext fun r => Bool.and_comm (applies r) (allow r)
  rw [passes_denyOverrides, List.any_map, List.find?_map, hdenies, hallows]
  congr 1
  cases hfind : rs.find? fun r => allow r && applies r with
  | none => rfl
  | some r =>
      have happlies := List.find?_some hfind
      simp only [Bool.and_eq_true] at happlies
      show (allow r && mode r) = mode r
      rw [happlies.1, Bool.true_and]

/-! ## The order of the rules -/

section Order

variable {ρ : Type*} (f : ρ → Vote) (isOpen : Bool)

/-- Whether a request passes a list of rules, deny rules first. -/
def grants (rs : List ρ) : Bool := passes isOpen (denyOverrides (rs.map f))

variable {f isOpen} {rs : List ρ}

theorem grants_of_denies (h : ∃ r ∈ rs, (f r).denies = true) : grants f isOpen rs = false := by
  obtain ⟨r, hr, hdenies⟩ := h
  have hany : (rs.map f).any (·.denies) = true :=
    List.any_eq_true.mpr ⟨f r, List.mem_map_of_mem hr, hdenies⟩
  rw [grants, passes_denyOverrides, hany]
  rfl

theorem grants_of_not_denies (h : ¬ ∃ r ∈ rs, (f r).denies = true) :
    grants f isOpen rs = passes isOpen ((rs.find? fun r => (f r).allows).map f) := by
  have hany : (rs.map f).any (·.denies) = false := by
    refine Bool.of_not_eq_true fun hany => ?_
    obtain ⟨v, hv, hdenies⟩ := List.any_eq_true.mp hany
    obtain ⟨r, hr, rfl⟩ := List.mem_map.mp hv
    exact h ⟨r, hr, hdenies⟩
  rw [grants, passes_denyOverrides, hany, List.find?_map]
  rfl

/-- A request passes the rules in any order as it passes them in this one, exactly if a
deny rule applies or the allow rules that apply grant alike. -/
theorem grants_perm_iff :
    (∀ rs', rs'.Perm rs → grants f isOpen rs' = grants f isOpen rs) ↔
      (∃ r ∈ rs, (f r).denies = true) ∨
        ∀ r ∈ rs, ∀ r' ∈ rs, (f r).allows = true → (f r').allows = true →
          (f r).grants = (f r').grants := by
  by_cases hdenies : ∃ r ∈ rs, (f r).denies = true
  · refine iff_of_true (fun rs' hperm => ?_) (.inl hdenies)
    obtain ⟨r, hr, hd⟩ := hdenies
    rw [grants_of_denies ⟨r, hr, hd⟩, grants_of_denies ⟨r, hperm.mem_iff.mpr hr, hd⟩]
  · have hfirst : ∀ rs', rs'.Perm rs →
        grants f isOpen rs' = passes isOpen ((rs'.find? fun r => (f r).allows).map f) := by
      intro rs' hperm
      refine grants_of_not_denies fun ⟨r, hr, hd⟩ => hdenies ⟨r, hperm.mem_iff.mp hr, hd⟩
    rw [or_iff_right hdenies]
    constructor
    · -- a rule that is moved to the front decides
      intro h
      have hfront : ∀ r ∈ rs, (f r).allows = true → grants f isOpen rs = (f r).grants := by
        intro r hr hallows
        obtain ⟨before, after, rfl⟩ := List.append_of_mem hr
        have hperm : (r :: (before ++ after)).Perm (before ++ r :: after) := List.perm_middle.symm
        rw [← h _ hperm, hfirst _ hperm, List.find?_cons_of_pos (p := fun r => (f r).allows) hallows]
        rfl
      intro r hr r' hr' hallows hallows'
      rw [← hfront r hr hallows, hfront r' hr' hallows']
    · intro h rs' hperm
      rw [hfirst rs' hperm, hfirst rs (List.Perm.refl rs)]
      cases hfind : rs.find? fun r => (f r).allows with
      | none =>
          have hnone : rs'.find? (fun r => (f r).allows) = none := by
            rw [List.find?_eq_none] at hfind ⊢
            exact fun r hr => hfind r (hperm.mem_iff.mp hr)
          rw [hnone]
      | some r =>
          have hr := List.mem_of_find?_eq_some hfind
          have hallows : (f r).allows = true :=
            List.find?_some (p := fun r => (f r).allows) hfind
          cases hfind' : rs'.find? fun r => (f r).allows with
          | none =>
              exact absurd hallows (List.find?_eq_none.mp hfind' r (hperm.mem_iff.mpr hr))
          | some r' =>
              have hr' := hperm.mem_iff.mp (List.mem_of_find?_eq_some hfind')
              exact h r' hr' r hr (List.find?_some (p := fun r => (f r).allows) hfind') hallows

/-- An allow rule in front of rules that a request passes. -/
theorem grants_cons_iff {r : ρ} (hallow : (f r).allow = true) (h : grants f isOpen rs = true) :
    grants f isOpen (r :: rs) = true ↔ ((f r).applies = true → (f r).grants = true) := by
  have hdenies : ¬ ∃ r ∈ rs, (f r).denies = true := by
    intro hdenies
    rw [grants_of_denies hdenies] at h
    cases h
  have hnone : ¬ ∃ r' ∈ r :: rs, (f r').denies = true := by
    rintro ⟨r', hr', hd⟩
    rcases List.mem_cons.mp hr' with rfl | hr'
    · rw [Vote.denies, hallow, Bool.not_true, Bool.and_false] at hd
      cases hd
    · exact hdenies ⟨r', hr', hd⟩
  have hallows : (f r).allows = (f r).applies := by rw [Vote.allows, hallow, Bool.and_true]
  rw [grants_of_not_denies hnone]
  by_cases happlies : (f r).applies = true
  · rw [List.find?_cons_of_pos (p := fun r => (f r).allows) (hallows.trans happlies)]
    exact ⟨fun hg _ => hg, fun hg => hg happlies⟩
  · rw [List.find?_cons_of_neg (p := fun r => (f r).allows) (by rwa [hallows]), ← grants_of_not_denies hdenies]
    exact iff_of_true h fun ha => absurd ha happlies

/-- An allow rule behind them. -/
theorem grants_concat_iff {r : ρ} (hallow : (f r).allow = true)
    (h : grants f isOpen rs = true) :
    grants f isOpen (rs ++ [r]) = true ↔
      ((f r).applies = true → (f r).grants = true ∨ ∃ r' ∈ rs, (f r').allows = true) := by
  have hdenies : ¬ ∃ r ∈ rs, (f r).denies = true := by
    intro hdenies
    rw [grants_of_denies hdenies] at h
    cases h
  have hnone : ¬ ∃ r' ∈ rs ++ [r], (f r').denies = true := by
    rintro ⟨r', hr', hd⟩
    rcases List.mem_append.mp hr' with hr' | hr'
    · exact hdenies ⟨r', hr', hd⟩
    · obtain rfl := List.mem_singleton.mp hr'
      rw [Vote.denies, hallow, Bool.not_true, Bool.and_false] at hd
      cases hd
  have hallows : (f r).allows = (f r).applies := by rw [Vote.allows, hallow, Bool.and_true]
  have hbefore : grants f isOpen rs = _ := grants_of_not_denies hdenies
  rw [grants_of_not_denies hnone, List.find?_append]
  cases hfind : rs.find? fun r => (f r).allows with
  | some r' =>
      rw [hfind] at hbefore
      have hallows' : (f r').allows = true :=
        List.find?_some (p := fun r => (f r).allows) hfind
      rw [Option.some_or, ← hbefore]
      exact iff_of_true h fun _ => .inr ⟨r', List.mem_of_find?_eq_some hfind, hallows'⟩
  | none =>
      rw [hfind, h] at hbefore
      rw [Option.none_or]
      have hno : ¬ ∃ r' ∈ rs, (f r').allows = true := fun ⟨r', hr', ha⟩ =>
        List.find?_eq_none.mp hfind r' hr' ha
      by_cases happlies : (f r).applies = true
      · rw [List.find?_cons_of_pos (p := fun r => (f r).allows) (hallows.trans happlies)]
        exact ⟨fun hg _ => .inl hg, fun hg => (hg happlies).resolve_right hno⟩
      · rw [List.find?_cons_of_neg (p := fun r => (f r).allows) (by rwa [hallows])]
        exact iff_of_true hbefore.symm fun ha => absurd ha happlies

end Order

end RuleLists
