/-
# `Limceron.Runtime.Delegation` — capabilities that are delegated and revoked

`runtime/delegation.c` hands a part of the capabilities of an agent, or of a
delegation, to another; they are the bits of a `uint64_t`.  The holder is asked
for a mask, and a delegation that has a timeout loses everything when a query
finds it over.  `malloc` succeeds here, and the clock is an argument.

A `World` has the handles that `lcn_delegate_new` has returned, each with the
grant that the calls make of it (`Grant`): what it was made from, and what was
revoked.

| | |
| :-- | :-- |
| `LcnDelegation.has` | the query |
| `NoEscalation` | a mask that is held is one that was granted, all of it; nothing comes back |
| `Undivided` | a query finds all of its mask, or nothing |
| `noEscalation_iff` | the second is the condition for the first |
-/
import Mathlib
import Limceron.Lib.Grants
import Limceron.Lib.Systems

namespace Limceron.Runtime

open Systems

/-! ## The source -/

/-- `LcnCapability`. -/
abbrev LcnCapability := BitVec 64

/-- `LcnDelegation`. -/
structure LcnDelegation where
  caps : LcnCapability
  original : LcnCapability
  revokeAfterMs : ℤ
  createdAtMs : ℤ

/-- `lcn_delegate_new`, at a time. -/
def lcnDelegateNew (parentCaps requested : LcnCapability) (revokeAfterMs now : ℤ) :
    LcnDelegation where
  caps := requested &&& parentCaps
  original := requested &&& parentCaps
  revokeAfterMs := revokeAfterMs
  createdAtMs := now

namespace LcnDelegation

/-- `lcn_delegate_revoke`. -/
def revoke (d : LcnDelegation) (cap : LcnCapability) : LcnDelegation :=
  { d with caps := d.caps &&& ~~~cap }

/-- `lcn_delegate_revoke_all`. -/
def revokeAll (d : LcnDelegation) : LcnDelegation := { d with caps := 0 }

/-- `lcn_delegate_check_timeout`. -/
def checkTimeout (now : ℤ) (d : LcnDelegation) : Bool × LcnDelegation :=
  if d.revokeAfterMs ≤ 0 then (false, d)
  else if now - d.createdAtMs ≥ d.revokeAfterMs then (true, { d with caps := 0 })
  else (false, d)

/-- `lcn_delegate_has`. -/
def has (now : ℤ) (d : LcnDelegation) (cap : LcnCapability) : Bool × LcnDelegation :=
  match d.checkTimeout now with
  | (true, d) => (false, d)
  | (false, d) => (d.caps &&& cap != 0, d)

end LcnDelegation

/-! ## Masks -/

/-- The capabilities of a mask. -/
def bits (m : LcnCapability) : Set ℕ := {i | m.getLsbD i = true}

theorem bits_and (m n : LcnCapability) : bits (m &&& n) = bits m ∩ bits n := by
  ext i
  simp [bits]

theorem bits_zero : bits 0 = ∅ := by
  ext i
  simp [bits]

/-- What is left of a mask without another. -/
theorem bits_and_not (m n : LcnCapability) : bits (m &&& ~~~n) = bits m \ bits n := by
  ext i
  show (m &&& ~~~n).getLsbD i = true ↔ m.getLsbD i = true ∧ ¬ n.getLsbD i = true
  rw [BitVec.getLsbD_and, BitVec.getLsbD_not]
  cases hm : m.getLsbD i with
  | false => simp
  | true => simp [BitVec.lt_of_getLsbD hm]

theorem bits_eq_empty {m : LcnCapability} (h : bits m = ∅) : m = 0 := by
  refine BitVec.eq_of_getLsbD_eq fun i hi => ?_
  have hnot : i ∉ bits m := by simp [h]
  simpa [bits] using hnot

/-- A mask whose bits all are in another is what they have in common. -/
theorem and_eq_of_subset {m n : LcnCapability} (h : bits n ⊆ bits m) : m &&& n = n := by
  refine BitVec.eq_of_getLsbD_eq fun i _ => ?_
  rw [BitVec.getLsbD_and]
  cases hn : n.getLsbD i with
  | false => rw [Bool.and_false]
  | true => rw [show m.getLsbD i = true from h hn, Bool.and_self]

/-- A mask of one bit is held or not. -/
theorem and_twoPow (m : LcnCapability) (i : ℕ) :
    m &&& BitVec.twoPow 64 i = 0 ∨ m &&& BitVec.twoPow 64 i = BitVec.twoPow 64 i := by
  rw [BitVec.and_twoPow]
  split
  · exact .inr rfl
  · exact .inl rfl

/-! ## Handles -/

namespace LcnDelegation

variable {d : LcnDelegation} {now : ℤ} {cap : LcnCapability}

/-- A check clears a delegation whose time is over, and leaves any other as it is. -/
theorem checkTimeout_cases (now : ℤ) (d : LcnDelegation) :
    (0 < d.revokeAfterMs ∧ d.revokeAfterMs ≤ now - d.createdAtMs) ∧
        d.checkTimeout now = (true, { d with caps := 0 }) ∨
      (0 < d.revokeAfterMs → now - d.createdAtMs < d.revokeAfterMs) ∧
        d.checkTimeout now = (false, d) := by
  unfold checkTimeout
  split
  · exact .inr ⟨by omega, rfl⟩
  · split
    · exact .inl ⟨by omega, rfl⟩
    · exact .inr ⟨by omega, rfl⟩

theorem checkTimeout_caps (now : ℤ) (d : LcnDelegation) :
    (d.checkTimeout now).2.caps = d.caps ∨ (d.checkTimeout now).2.caps = 0 := by
  rcases checkTimeout_cases now d with ⟨-, h⟩ | ⟨-, h⟩ <;> rw [h]
  · exact .inr rfl
  · exact .inl rfl

theorem has_handle (now : ℤ) (d : LcnDelegation) (cap : LcnCapability) :
    (d.has now cap).2 = (d.checkTimeout now).2 := by
  unfold has
  rcases checkTimeout_cases now d with ⟨-, h⟩ | ⟨-, h⟩ <;> rw [h]

/-- A query is answered with `true` if it is in time and has a bit in common with what is held. -/
theorem has_iff : (d.has now cap).1 = true ↔
    (0 < d.revokeAfterMs → now - d.createdAtMs < d.revokeAfterMs) ∧ d.caps &&& cap ≠ 0 := by
  unfold has
  rcases checkTimeout_cases now d with ⟨⟨hpos, hle⟩, h⟩ | ⟨hin, h⟩ <;> rw [h]
  · refine iff_of_false Bool.false_ne_true ?_
    rintro ⟨hin, -⟩
    exact not_lt.2 hle (hin hpos)
  · refine bne_iff_ne.trans ⟨fun hne => ⟨hin, hne⟩, fun hne => hne.2⟩

end LcnDelegation

/-! ## Worlds -/

/-- A handle, and the grant that the calls have made of it. It holds what the grant does, or
nothing, when its time has been found over. -/
structure Handle where
  delegation : LcnDelegation
  grant : Grant ℕ
  agrees : bits delegation.caps = grant.held ∨ delegation.caps = 0

namespace Handle

/-- `lcn_delegate_new`, by an owner or by the holder of a handle. -/
def new (parent : Option ℕ) (parentCaps requested : LcnCapability) (revokeAfterMs now : ℤ) :
    Handle where
  delegation := lcnDelegateNew parentCaps requested revokeAfterMs now
  grant := ⟨parent, bits parentCaps, bits requested, ∅⟩
  agrees := .inl (by
    rw [Grant.held, Set.sdiff_empty]
    exact bits_and requested parentCaps)

def revoke (cap : LcnCapability) (h : Handle) : Handle where
  delegation := h.delegation.revoke cap
  grant := h.grant.withdraw (bits cap)
  agrees := by
    rcases h.agrees with hheld | hzero
    · left
      rw [Grant.withdraw_held, ← hheld]
      exact bits_and_not h.delegation.caps cap
    · right
      rw [LcnDelegation.revoke, hzero]
      exact BitVec.zero_and

def revokeAll (h : Handle) : Handle where
  delegation := h.delegation.revokeAll
  grant := h.grant.withdraw Set.univ
  agrees := .inr rfl

def checkTimeout (now : ℤ) (h : Handle) : Handle where
  delegation := (h.delegation.checkTimeout now).2
  grant := h.grant
  agrees := by
    rcases LcnDelegation.checkTimeout_caps now h.delegation with hcaps | hcaps
    · rw [hcaps]
      exact h.agrees
    · exact .inr hcaps

/-- The handle after `lcn_delegate_has`. -/
def afterHas (now : ℤ) (cap : LcnCapability) (h : Handle) : Handle where
  delegation := (h.delegation.has now cap).2
  grant := h.grant
  agrees := by
    rw [LcnDelegation.has_handle]
    exact (h.checkTimeout now).agrees

theorem held_subset (h : Handle) : bits h.delegation.caps ⊆ h.grant.held := by
  rcases h.agrees with hheld | hzero
  · exact hheld.le
  · rw [hzero, bits_zero]
    exact Set.empty_subset _

theorem checkTimeout_subset (now : ℤ) (h : Handle) :
    bits (h.checkTimeout now).delegation.caps ⊆ bits h.delegation.caps := by
  rcases LcnDelegation.checkTimeout_caps now h.delegation with hcaps | hcaps
  · exact (congrArg bits hcaps).le
  · refine (congrArg bits hcaps).le.trans ?_
    rw [bits_zero]
    exact Set.empty_subset _

theorem afterHas_subset (now : ℤ) (cap : LcnCapability) (h : Handle) :
    bits (h.afterHas now cap).delegation.caps ⊆ bits h.delegation.caps := by
  have hsame : (h.afterHas now cap).delegation = (h.checkTimeout now).delegation :=
    LcnDelegation.has_handle now h.delegation cap
  rw [hsame]
  exact h.checkTimeout_subset now

end Handle

/-- A call, on a handle by its number. -/
inductive DelegateCall where
  | new (parentCaps requested : LcnCapability) (revokeAfterMs : ℤ)
  | newFrom (parent : ℕ) (requested : LcnCapability) (revokeAfterMs : ℤ)
  | revoke (d : ℕ) (cap : LcnCapability)
  | revokeAll (d : ℕ)
  | checkTimeout (d : ℕ)
  | has (d : ℕ) (cap : LcnCapability)

/-- The handles in the order of their numbers. -/
abbrev World := List Handle

namespace World

/-- What has been granted. -/
def grants (w : World) : List (Grant ℕ) := w.map Handle.grant

/-- A call at a time. -/
def step (w : World) : ℤ × DelegateCall → World
  | (now, .new parentCaps requested ms) => w ++ [.new none parentCaps requested ms now]
  | (now, .newFrom parent requested ms) =>
    match w[parent]? with
    | none => w
    | some p => w ++ [.new (some parent) p.delegation.caps requested ms now]
  | (_, .revoke d cap) => w.modify d (·.revoke cap)
  | (_, .revokeAll d) => w.modify d Handle.revokeAll
  | (now, .checkTimeout d) => w.modify d (·.checkTimeout now)
  | (now, .has d cap) => w.modify d (·.afterHas now cap)

/-- The call is a query that returns `true`. -/
def Answers (w : World) (e : ℤ × DelegateCall) (d : ℕ) (cap : LcnCapability) : Prop :=
  e.2 = .has d cap ∧ ∃ h, w[d]? = some h ∧ (h.delegation.has e.1 cap).1 = true

/-- A query is answered with `true` only for what all above have granted and nobody revoked. -/
def Honest (w : World) (e : ℤ × DelegateCall) : Prop :=
  ∀ d cap, cap ≠ 0 → w.Answers e d cap →
    (∀ a g, Grant.Above w.grants d a → w.grants[a]? = some g → bits cap ⊆ g.given) ∧
      ∀ g, w.grants[d]? = some g → Disjoint (bits cap) g.withdrawn

/-- No handle has a capability that it did not have before. -/
def Shrinks (w w' : World) : Prop :=
  ∀ (d : ℕ) (h : Handle), w[d]? = some h →
    ∃ h' : Handle, w'[d]? = some h' ∧ bits h'.delegation.caps ⊆ bits h.delegation.caps

/-- What is promised of a sequence of calls. -/
structure NoEscalation (calls : List (ℤ × DelegateCall)) : Prop where
  honest : EachMeets step Honest [] calls
  shrinks : ∀ before after, before ++ after <+: calls →
    Shrinks (before.foldl step []) ((before ++ after).foldl step [])

/-- A query that is in time finds the whole mask held, or nothing of it. -/
def Undivided (w : World) (e : ℤ × DelegateCall) : Prop :=
  ∀ d cap h, e.2 = .has d cap → w[d]? = some h →
    (0 < h.delegation.revokeAfterMs →
        e.1 - h.delegation.createdAtMs < h.delegation.revokeAfterMs) →
      h.delegation.caps &&& cap = 0 ∨ h.delegation.caps &&& cap = cap

/-! ## Calls as steps of grants -/

variable {w : World}

theorem grants_getElem? (w : World) (i : ℕ) : w.grants[i]? = w[i]?.map Handle.grant :=
  List.getElem?_map

theorem grants_modify (w : World) (d : ℕ) {f : Handle → Handle} {k : Grant ℕ → Grant ℕ}
    (hf : ∀ h, (f h).grant = k h.grant) : grants (w.modify d f) = w.grants.modify d k := by
  refine List.ext_getElem? fun i => ?_
  rw [grants_getElem?, List.getElem?_modify, List.getElem?_modify, grants_getElem?]
  cases w[i]? with
  | none => rfl
  | some h =>
      show some _ = some _
      split
      · rw [hf]
      · rfl

theorem grants_step (w : World) (e : ℤ × DelegateCall) : Grant.Step w.grants (w.step e).grants := by
  obtain ⟨now, c⟩ := e
  cases c with
  | new parentCaps requested ms =>
      have happ : (w.step (now, .new parentCaps requested ms)).grants =
          w.grants ++ [⟨none, bits parentCaps, bits requested, ∅⟩] := List.map_append
      rw [happ]
      exact .owner _ _
  | newFrom parent requested ms =>
      cases hp : w[parent]? with
      | none =>
          rw [step, hp]
          exact .refl
      | some p =>
          have happ : (w.step (now, .newFrom parent requested ms)).grants =
              w.grants ++ [⟨some parent, bits p.delegation.caps, bits requested, ∅⟩] := by
            rw [step, hp]
            exact List.map_append
          rw [happ]
          exact .child (by rw [grants_getElem?, hp]; rfl) p.held_subset _
  | revoke d cap =>
      rw [step, grants_modify w d (k := (·.withdraw (bits cap))) fun _ => rfl]
      exact .withdraw d _
  | revokeAll d =>
      rw [step, grants_modify w d (k := (·.withdraw Set.univ)) fun _ => rfl]
      exact .withdraw d _
  | checkTimeout d =>
      rw [step, grants_modify w d (f := (·.checkTimeout now)) (k := id) fun _ => rfl,
        List.modify_id]
      exact .refl
  | has d cap =>
      rw [step, grants_modify w d (f := (·.afterHas now cap)) (k := id) fun _ => rfl,
        List.modify_id]
      exact .refl

theorem formed_step (h : Grant.Formed w.grants) (e : ℤ × DelegateCall) :
    Grant.Formed (w.step e).grants :=
  h.step (w.grants_step e)

/-! ## What handles lose -/

theorem Shrinks.refl (w : World) : w.Shrinks w :=
  fun _ h hd => ⟨h, hd, subset_rfl⟩

theorem Shrinks.trans {w₁ w₂ w₃ : World} (h : w₁.Shrinks w₂) (h' : w₂.Shrinks w₃) :
    w₁.Shrinks w₃ := by
  intro d x hd
  obtain ⟨y, hy, hsub⟩ := h d x hd
  obtain ⟨z, hz, hsub'⟩ := h' d y hy
  exact ⟨z, hz, hsub'.trans hsub⟩

theorem shrinks_append (w : World) (h : Handle) : w.Shrinks (w ++ [h]) := by
  intro d x hd
  have hlt : d < w.length := (List.getElem?_eq_some_iff.1 hd).1
  exact ⟨x, by rw [List.getElem?_append_left hlt, hd], subset_rfl⟩

theorem shrinks_modify (w : World) (d : ℕ) {f : Handle → Handle}
    (hf : ∀ h, bits (f h).delegation.caps ⊆ bits h.delegation.caps) :
    w.Shrinks (w.modify d f) := by
  intro i x hi
  by_cases hd : d = i
  · refine ⟨f x, ?_, hf x⟩
    rw [hd, List.getElem?_modify_eq, hi]
    rfl
  · refine ⟨x, ?_, subset_rfl⟩
    rw [List.getElem?_modify_ne _ _ hd, hi]

theorem shrinks_step (w : World) (e : ℤ × DelegateCall) : w.Shrinks (w.step e) := by
  obtain ⟨now, c⟩ := e
  cases c with
  | new => exact w.shrinks_append _
  | newFrom parent =>
      rw [step]
      split
      · exact .refl w
      · exact w.shrinks_append _
  | revoke d cap =>
      refine w.shrinks_modify d fun h => ?_
      have hbits : bits (h.revoke cap).delegation.caps = bits h.delegation.caps \ bits cap :=
        bits_and_not h.delegation.caps cap
      rw [hbits]
      exact Set.sdiff_subset
  | revokeAll d =>
      refine w.shrinks_modify d fun h => ?_
      have hbits : bits h.revokeAll.delegation.caps = ∅ := bits_zero
      rw [hbits]
      exact Set.empty_subset _
  | checkTimeout d => exact w.shrinks_modify d (Handle.checkTimeout_subset now)
  | has d cap => exact w.shrinks_modify d (Handle.afterHas_subset now cap)

theorem shrinks_run (w : World) (calls : List (ℤ × DelegateCall)) :
    w.Shrinks (calls.foldl step w) := by
  induction calls generalizing w with
  | nil => exact .refl w
  | cons e calls ih => exact (w.shrinks_step e).trans (ih _)

/-! ## Queries -/

/-- What a query finds undivided, and only that, it answers as it should. -/
theorem honest_iff (hw : Grant.Formed w.grants) (e : ℤ × DelegateCall) :
    w.Honest e ↔ w.Undivided e := by
  constructor
  · intro h d cap x he hd hin
    by_cases hzero : x.delegation.caps &&& cap = 0
    · exact .inl hzero
    · right
      have hcap : cap ≠ 0 := by
        rintro rfl
        exact hzero BitVec.and_zero
      have hg : w.grants[d]? = some x.grant := by
        rw [grants_getElem?, hd]
        rfl
      obtain ⟨hgiven, hwithdrawn⟩ :=
        h d cap hcap ⟨he, x, hd, LcnDelegation.has_iff.2 ⟨hin, hzero⟩⟩
      have hheld : bits cap ⊆ x.grant.held := fun i hi =>
        ⟨hgiven d x.grant .refl hg hi, Set.disjoint_left.1 (hwithdrawn _ hg) hi⟩
      rcases x.agrees with hcaps | hcaps
      · rw [← hcaps] at hheld
        exact and_eq_of_subset hheld
      · rw [hcaps] at hzero
        exact absurd BitVec.zero_and hzero
  · rintro h d cap - ⟨he, x, hd, htrue⟩
    obtain ⟨hin, hne⟩ := LcnDelegation.has_iff.1 htrue
    have hcap : x.delegation.caps &&& cap = cap := (h d cap x he hd hin).resolve_left hne
    have hsub : bits cap ⊆ x.grant.held := by
      refine Set.Subset.trans ?_ x.held_subset
      rw [← hcap, bits_and]
      exact Set.inter_subset_left
    have hg : w.grants[d]? = some x.grant := by
      rw [grants_getElem?, hd]
      rfl
    refine ⟨fun a g ha hga => hsub.trans (hw.held_subset ha hg hga), fun g hg' => ?_⟩
    cases hg.symm.trans hg'
    exact Set.disjoint_left.2 fun i hi => (hsub hi).2

/-! ## Sequences of calls -/

theorem eachHonest_iff (calls : List (ℤ × DelegateCall)) :
    EachMeets step Honest [] calls ↔ EachMeets step Undivided [] calls :=
  eachMeets_congr (I := fun w : World => Grant.Formed w.grants) (fun _ e hw => formed_step hw e)
    (fun _ e hw => honest_iff hw e) Grant.formed_nil

/-- Whatever the calls, nothing comes back. -/
theorem NoEscalation.of_honest {calls : List (ℤ × DelegateCall)}
    (h : EachMeets step Honest [] calls) : NoEscalation calls := by
  refine ⟨h, ?_⟩
  rintro before after -
  rw [List.foldl_append]
  exact shrinks_run _ after

/-- Nothing escalates while only single capabilities are asked for. -/
theorem noEscalation_of_single {calls : List (ℤ × DelegateCall)}
    (h : ∀ now d cap, (now, DelegateCall.has d cap) ∈ calls → ∃ i, cap = BitVec.twoPow 64 i) :
    NoEscalation calls := by
  refine .of_honest ((eachHonest_iff calls).2 ?_)
  rintro before ⟨now, c⟩ hb d cap x rfl - -
  have hmem : (now, DelegateCall.has d cap) ∈ calls :=
    hb.subset (List.mem_append_right _ (List.mem_singleton_self _))
  obtain ⟨i, rfl⟩ := h now d cap hmem
  exact and_twoPow _ i

/-- No sequence of calls escalates, if and only if each query that is in time finds the whole of
its mask held, or nothing of it. -/
theorem noEscalation_iff (calls : List (ℤ × DelegateCall)) :
    NoEscalation calls ↔ EachMeets step Undivided [] calls := by
  constructor
  · intro h
    exact (eachHonest_iff calls).1 h.honest
  · intro h
    exact .of_honest ((eachHonest_iff calls).2 h)

/-- A delegation of one capability is asked for two, and answers `true`. -/
theorem half_held : ¬ ∀ calls, NoEscalation calls := by
  intro h
  have hhonest := (h [(0, .new 1 1 0), (0, .has 0 3)]).honest [(0, .new 1 1 0)] (0, .has 0 3)
    (List.prefix_refl _)
  obtain ⟨hgiven, -⟩ := hhonest 0 3 (by decide) ⟨rfl, _, rfl, by decide⟩
  have hbit : 1 ∈ bits 3 := by
    show (3 : LcnCapability).getLsbD 1 = true
    decide
  have hmem : (1 : LcnCapability).getLsbD 1 = true := (hgiven 0 _ .refl rfl hbit).1
  revert hmem
  decide

end World

end Limceron.Runtime
