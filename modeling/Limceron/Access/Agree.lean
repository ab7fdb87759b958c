/-
# `Limceron.Access.Agree` — the compiler and the runtime on one literal

Of a block and a literal each side has a `Reading`:

| | compiler | runtime |
| :-- | :-- | :-- |
| refused outright | a private address | a private address, or no URL |
| rules | the first 64 of the kind | all of the kind |
| apply by | `glob_match`, `extract_binary_name`, `parse_url_simple` | `acl_glob_match`, … |
| decides | the first that applies | a deny rule, else the first allow rule |
| default | if there is one, and a rule of the kind | always |

`sidesAgree_iff` says what these differences come to.  Where the readings are the
same (`Capability.Plain` says for what kind of block and literal they are) two
remain: a deny rule behind an allow rule that applies, and a literal that no rule
is about.
-/
import Limceron.Lib.RuleLists
import Limceron.Access.Check

namespace Limceron.Access

open Caps (CString)
open RuleLists

/-! ## The calls -/

inductive AccessCall where
  | fetch | exec | readFile | writeFile
  deriving DecidableEq

namespace AccessCall

/-- The check of the compiler. -/
def check : AccessCall → List ConcretePolicy → List String → List Arg → Checked
  | fetch => checkFetchCall
  | exec => checkExecCall
  | readFile => checkFileCall false
  | writeFile => checkFileCall true

/-- The check of the runtime. -/
def checked : AccessCall → CString → Option LcnAccessPolicy → Option String
  | fetch => lcnFetchChecked
  | exec => lcnExecChecked
  | readFile => aclCheckPath false
  | writeFile => aclCheckPath true

end AccessCall

variable (cap : Capability) (fallback : Bool) (call : AccessCall) (s : CString)

/-- The compiler reports an error for the literal `s` in an agent that uses the block. -/
def Reported : Prop :=
  (call.check (buildAccessPolicies [cap]) [cap.name] [.literal s]).errors ≠ []

/-- The runtime refuses `s` under the same rules. -/
def Refused : Prop := call.checked s (some (cap.lcnPolicy fallback)) ≠ none

/-! ## Readings -/

/-- How one side reads the rules for one literal: whether it refuses before it looks at
any, what they say, and what it does when none applies. -/
structure Reading where
  guard : Bool
  votes : List Vote
  isOpen : Bool

/-- The block denies by default. -/
def Capability.deniesByDefault : Bool := cap.default?.any fun i => !i.isMut

def Capability.checkerReading : AccessCall → Reading
  | .fetch =>
      let u := parseUrlSimple s
      { guard := cap.denyPrivate && isPrivateIp u.host
        votes := (cap.endpoints.take maxEndpointRules).map fun r =>
          .of (r.matchesUrl u) r.allow true
        isOpen := !(cap.deniesByDefault && (!cap.endpoints.isEmpty || cap.denyPrivate)) }
  | .exec =>
      { guard := false
        votes := (cap.binaries.take maxBinaryRules).map fun r =>
          .of (r.matchesBinary (extractBinaryName s)) r.allow true
        isOpen := !(cap.deniesByDefault && !cap.binaries.isEmpty) }
  | .readFile =>
      { guard := false
        votes := (cap.paths.take maxPathRules).map fun r =>
          .of (globMatch r.pattern s) r.allow r.canRead
        isOpen := !(cap.deniesByDefault && !cap.paths.isEmpty) }
  | .writeFile =>
      { guard := false
        votes := (cap.paths.take maxPathRules).map fun r =>
          .of (globMatch r.pattern s) r.allow r.canWrite
        isOpen := !(cap.deniesByDefault && !cap.paths.isEmpty) }

/-- An endpoint rule of the runtime, which asks for the path in allow rules only. -/
def EndpointRule.aclVote (r : EndpointRule) (u : Url) : Vote :=
  .of (r.aclHost u && (!r.allow || r.pathGlob.all fun g => aclGlobMatch g u.path)) r.allow true

def Capability.runtimeReading : AccessCall → Reading
  | .fetch =>
      match aclParseUrl s with
      | none => ⟨true, [], false⟩
      | some u =>
          { guard := cap.denyPrivate && aclIsPrivateIp u.host
            votes := cap.endpoints.map fun r => r.aclVote u
            isOpen := !(cap.lcnPolicy fallback).defaultDeny }
  | .exec =>
      { guard := false
        votes := cap.binaries.map fun r => .of (r.aclBinary (aclBinary s)) r.allow true
        isOpen := !(cap.lcnPolicy fallback).defaultDeny }
  | .readFile =>
      { guard := false
        votes := cap.paths.map fun r => .of (aclGlobMatch r.pattern s) r.allow r.canRead
        isOpen := !(cap.lcnPolicy fallback).defaultDeny }
  | .writeFile =>
      { guard := false
        votes := cap.paths.map fun r => .of (aclGlobMatch r.pattern s) r.allow r.canWrite
        isOpen := !(cap.lcnPolicy fallback).defaultDeny }

/-- What the checker makes of its reading. -/
def Reading.passesFirst (d : Reading) : Bool :=
  !d.guard && passes d.isOpen (firstApplicable d.votes)

/-- What the runtime makes of its reading. -/
def Reading.passesDenyFirst (d : Reading) : Bool :=
  !d.guard && passes d.isOpen (denyOverrides d.votes)

/-! ## The checker -/

variable {cap fallback call s}

/-- In a program with one block, used by the agent, its policy is the one checked. -/
theorem checkCall_one {check : ConcretePolicy → CString → List Typecheck.Diagnostic}
    (h : cap.hasRules = false → check cap.concrete s = []) :
    (checkCall (buildAccessPolicies [cap]) [cap.name] [.literal s] check).errors =
      check cap.concrete s := by
  cases hrules : cap.hasRules with
  | false =>
      rw [h hrules, checkCall, buildAccessPolicies, List.filter_cons_of_neg (by simp [hrules])]
      rfl
  | true =>
      have hfind : findPolicy (buildAccessPolicies [cap]) cap.name = some cap.concrete := by
        rw [buildAccessPolicies, List.filter_cons_of_pos hrules]
        exact List.find?_cons_of_pos (beq_self_eq_true cap.name)
      rw [checkCall, List.flatMap_singleton, hfind]
      rfl

theorem ofKind_of_not_hasRules (h : cap.hasRules = false) {k : CapItemKind} (hk : k ≠ .item) :
    cap.ofKind k = [] := by
  rw [Capability.hasRules, List.any_eq_false] at h
  refine List.filter_eq_nil_iff.mpr fun i hi => ?_
  have hitem : i.kind = .item := by simpa using h i hi
  simp [hitem, Ne.symm hk]

theorem take_isEmpty {α : Type} (l : List α) (n : Nat) :
    (l.take (n + 1)).isEmpty = l.isEmpty := by
  cases l <;> rfl

/-- The loop over the rules is the convention of the first rule that applies. -/
theorem firstRule_errors_iff {ρ : Type} {pol : ConcretePolicy} {rs : List ρ}
    {applies allow mode : ρ → Bool} {found : ρ → List Typecheck.Diagnostic}
    {missed : Typecheck.Diagnostic} (hfound : ∀ r, found r ≠ [] ↔ (allow r && mode r) = false) :
    pol.firstRule rs applies found missed ≠ [] ↔
      passes (!(pol.hasDefault && pol.defaultDeny))
        (firstApplicable (rs.map fun r => .of (applies r) (allow r) (mode r))) = false := by
  have hvotes : firstApplicable (rs.map fun r => .of (applies r) (allow r) (mode r)) =
      (rs.find? applies).map fun r => .of (applies r) (allow r) (mode r) := by
    rw [firstApplicable, List.find?_map]
    rfl
  rw [hvotes, ConcretePolicy.firstRule]
  cases rs.find? applies with
  | none => cases hdefault : pol.hasDefault && pol.defaultDeny <;> simp [passes]
  | some r => exact hfound r

theorem deniesByDefault_eq :
    (cap.concrete.hasDefault && cap.concrete.defaultDeny) = cap.deniesByDefault := by
  rw [Capability.concrete, Capability.deniesByDefault]
  cases cap.default? <;> rfl

theorem denied_iff (allow : Bool) (d : Typecheck.Diagnostic) :
    (if allow then [] else [d]) ≠ [] ↔ (allow && true) = false := by
  cases allow <;> simp

theorem checkExec_iff :
    checkExec cap.concrete s ≠ [] ↔ (cap.checkerReading s .exec).passesFirst = false := by
  have hempty : cap.concrete.binaries.isEmpty = cap.binaries.isEmpty :=
    take_isEmpty cap.binaries 63
  rw [checkExec, hempty, Reading.passesFirst, Capability.checkerReading, Bool.not_false,
    Bool.true_and]
  cases h : cap.binaries.isEmpty with
  | true => simp [List.isEmpty_iff.mp h, firstApplicable, passes]
  | false =>
      rw [if_neg Bool.false_ne_true, Bool.not_false, Bool.and_true, ← deniesByDefault_eq]
      exact firstRule_errors_iff fun r : BinaryRule => denied_iff r.allow _

theorem checkFetch_iff :
    checkFetch cap.concrete s ≠ [] ↔ (cap.checkerReading s .fetch).passesFirst = false := by
  have hempty : cap.concrete.endpoints.isEmpty = cap.endpoints.isEmpty :=
    take_isEmpty cap.endpoints 63
  rw [checkFetch, hempty, Reading.passesFirst, Capability.checkerReading]
  simp only [show cap.concrete.denyPrivate = cap.denyPrivate from rfl]
  cases hskip : cap.endpoints.isEmpty && !cap.denyPrivate with
  | true =>
      obtain ⟨hnil, hprivate⟩ := Bool.and_eq_true_iff.mp hskip
      rw [Bool.not_eq_true'] at hprivate
      simp [hprivate, List.isEmpty_iff.mp hnil, firstApplicable, passes]
  | false =>
      cases hguard : cap.denyPrivate && isPrivateIp (parseUrlSimple s).host with
      | true => simp
      | false =>
          have hopen : (!cap.endpoints.isEmpty || cap.denyPrivate) = true := by
            rw [← Bool.not_eq_false', Bool.not_or, Bool.not_not]
            exact hskip
          rw [if_neg Bool.false_ne_true, if_neg Bool.false_ne_true, Bool.not_false, Bool.true_and,
            hopen, Bool.and_true, ← deniesByDefault_eq]
          exact firstRule_errors_iff fun r : EndpointRule => denied_iff r.allow _

theorem checkFile_iff (isWrite : Bool) :
    checkFile isWrite cap.concrete s ≠ [] ↔
      (cap.checkerReading s (if isWrite then .writeFile else .readFile)).passesFirst = false := by
  have hempty : cap.concrete.paths.isEmpty = cap.paths.isEmpty := take_isEmpty cap.paths 63
  have hfound : ∀ r : PathRule, ∀ d d₁ d₂ : Typecheck.Diagnostic,
      (if !r.allow then [d]
        else (if !isWrite && !r.canRead then [d₁] else []) ++
          (if isWrite && !r.canWrite then [d₂] else [])) ≠ [] ↔
        (r.allow && (if isWrite then r.canWrite else r.canRead)) = false := by
    intro r d d₁ d₂
    cases isWrite <;> cases r.allow <;> cases r.canRead <;> cases r.canWrite <;> simp
  have hreading : (cap.checkerReading s (if isWrite then .writeFile else .readFile)) =
      { guard := false
        votes := (cap.paths.take maxPathRules).map fun r =>
          .of (globMatch r.pattern s) r.allow (if isWrite then r.canWrite else r.canRead)
        isOpen := !(cap.deniesByDefault && !cap.paths.isEmpty) } := by
    cases isWrite <;> rfl
  rw [checkFile, hempty, hreading, Reading.passesFirst, Bool.not_false, Bool.true_and]
  cases h : cap.paths.isEmpty with
  | true => simp [List.isEmpty_iff.mp h, firstApplicable, passes]
  | false =>
      rw [if_neg Bool.false_ne_true, Bool.not_false, Bool.and_true, ← deniesByDefault_eq]
      exact firstRule_errors_iff fun r : PathRule => hfound r _ _ _

/-! ## The runtime -/

theorem map_true_getD {ρ : Type} (rs : List ρ) (p : ρ → Bool) (d : Bool) :
    ((rs.find? p).map fun _ => true).getD d = (rs.any p || d) := by
  cases h : rs.find? p with
  | none =>
      rw [List.any_eq_false.mpr (List.find?_eq_none.mp h)]
      rfl
  | some r =>
      rw [List.any_eq_true.mpr ⟨r, List.mem_of_find?_eq_some h, List.find?_some h⟩]
      rfl

/-- The two loops of a check with no modes. -/
theorem loops_iff {ρ : Type} (rs : List ρ) (applies allow : ρ → Bool) (deny : Bool)
    (e e' : String) :
    (if rs.any fun r => !allow r && applies r then some e
      else if !(rs.any fun r => allow r && applies r) && deny then some e' else none) ≠ none ↔
      passes (!deny) (denyOverrides (rs.map fun r => .of (applies r) (allow r) true)) = false := by
  rw [passes_denyOverrides_map rs applies allow fun _ => true, map_true_getD]
  cases rs.any fun r => !allow r && applies r with
  | true => simp
  | false => cases rs.any fun r => allow r && applies r <;> cases deny <;> simp

theorem lcnExecChecked_iff :
    lcnExecChecked s (some (cap.lcnPolicy fallback)) ≠ none ↔
      (cap.runtimeReading fallback s .exec).passesDenyFirst = false := by
  rw [Reading.passesDenyFirst, Capability.runtimeReading, Bool.not_false, Bool.true_and]
  exact loops_iff cap.binaries _ BinaryRule.allow _ _ _

theorem lcnFetchChecked_iff :
    lcnFetchChecked s (some (cap.lcnPolicy fallback)) ≠ none ↔
      (cap.runtimeReading fallback s .fetch).passesDenyFirst = false := by
  rw [Reading.passesDenyFirst, Capability.runtimeReading, lcnFetchChecked]
  cases aclParseUrl s with
  | none => simp
  | some u =>
      simp only [show (cap.lcnPolicy fallback).denyPrivate = cap.denyPrivate from rfl]
      cases cap.denyPrivate && aclIsPrivateIp u.host with
      | true => simp
      | false =>
          rw [if_neg Bool.false_ne_true, Bool.not_false, Bool.true_and]
          refine Iff.trans ?_ (loops_iff cap.endpoints _ EndpointRule.allow _
            "access_control: endpoint explicitly denied"
            "access_control: endpoint not in allow list")
          have hdeny : (fun r : EndpointRule => !r.allow && r.aclHost u) = fun r =>
              !r.allow && (r.aclHost u &&
                (!r.allow || r.pathGlob.all fun g => aclGlobMatch g u.path)) := by
            funext r
            cases r.allow <;> simp
          have hallow : (fun r : EndpointRule =>
                r.allow && r.aclHost u && r.pathGlob.all fun g => aclGlobMatch g u.path) = fun r =>
              r.allow && (r.aclHost u &&
                (!r.allow || r.pathGlob.all fun g => aclGlobMatch g u.path)) := by
            funext r
            cases r.allow <;> simp
          rw [← hdeny, ← hallow]
          exact Iff.rfl

theorem aclCheckPath_iff (needWrite : Bool) :
    aclCheckPath needWrite s (some (cap.lcnPolicy fallback)) ≠ none ↔
      (cap.runtimeReading fallback s
        (if needWrite then .writeFile else .readFile)).passesDenyFirst = false := by
  have hreading : (cap.runtimeReading fallback s (if needWrite then .writeFile else .readFile)) =
      { guard := false
        votes := cap.paths.map fun r =>
          .of (aclGlobMatch r.pattern s) r.allow (if needWrite then r.canWrite else r.canRead)
        isOpen := !(cap.lcnPolicy fallback).defaultDeny } := by
    cases needWrite <;> rfl
  rw [hreading, Reading.passesDenyFirst, Bool.not_false, Bool.true_and,
    passes_denyOverrides_map cap.paths, aclCheckPath]
  simp only [show (cap.lcnPolicy fallback).paths = some cap.paths from rfl]
  cases cap.paths.any fun r => !r.allow && aclGlobMatch r.pattern s with
  | true => simp
  | false =>
      cases cap.paths.find? fun r => r.allow && aclGlobMatch r.pattern s with
      | none => cases (cap.lcnPolicy fallback).defaultDeny <;> simp
      | some r =>
          cases needWrite <;> cases hw : r.canWrite <;> cases hr : r.canRead <;> simp [hw, hr]

/-! ## Agreement -/

theorem reported_iff :
    Reported cap call s ↔ (cap.checkerReading s call).passesFirst = false := by
  have hnil : ∀ {k : CapItemKind}, k ≠ .item → cap.hasRules = false → cap.ofKind k = [] :=
    fun hk h => ofKind_of_not_hasRules h hk
  cases call with
  | fetch =>
      refine Iff.trans (Eq.to_iff (congrArg (· ≠ []) (checkCall_one fun h => ?_))) checkFetch_iff
      have hends : cap.concrete.endpoints = [] := by
        rw [Capability.concrete, Capability.endpoints, hnil (by decide) h]
        rfl
      have hprivate : cap.concrete.denyPrivate = false := by
        rw [Capability.concrete, Capability.denyPrivate, hnil (by decide) h]
        rfl
      rw [checkFetch, hends, hprivate]
      rfl
  | exec =>
      refine Iff.trans (Eq.to_iff (congrArg (· ≠ []) (checkCall_one fun h => ?_))) checkExec_iff
      have hbins : cap.concrete.binaries = [] := by
        rw [Capability.concrete, Capability.binaries, hnil (by decide) h]
        rfl
      rw [checkExec, hbins]
      rfl
  | readFile =>
      refine Iff.trans (Eq.to_iff (congrArg (· ≠ []) (checkCall_one fun h => ?_)))
        (checkFile_iff false)
      have hpaths : cap.concrete.paths = [] := by
        rw [Capability.concrete, Capability.paths, hnil (by decide) h]
        rfl
      rw [checkFile, hpaths]
      rfl
  | writeFile =>
      refine Iff.trans (Eq.to_iff (congrArg (· ≠ []) (checkCall_one fun h => ?_)))
        (checkFile_iff true)
      have hpaths : cap.concrete.paths = [] := by
        rw [Capability.concrete, Capability.paths, hnil (by decide) h]
        rfl
      rw [checkFile, hpaths]
      rfl

theorem refused_iff :
    Refused cap fallback call s ↔ (cap.runtimeReading fallback s call).passesDenyFirst = false := by
  cases call with
  | fetch => exact lcnFetchChecked_iff
  | exec => exact lcnExecChecked_iff
  | readFile => exact aclCheckPath_iff false
  | writeFile => exact aclCheckPath_iff true

/-- Both sides read the rules alike. -/
def Reading.Alike (d e : Reading) : Prop := d.guard = e.guard ∧ d.votes = e.votes

/-- Why the checker lets a literal pass. -/
inductive Reading.Admits (d : Reading) : Prop
  | granted {v : Vote} : d.guard = false → firstApplicable d.votes = some v → v.grants = true →
      Admits d
  | unmatched : d.guard = false → (∀ v ∈ d.votes, v.applies = false) → d.isOpen = true → Admits d

/-- Why the runtime refuses it. -/
inductive Reading.Bars (e : Reading) : Prop
  | guard : e.guard = true → Bars e
  | denied {w : Vote} : w ∈ e.votes → w.denies = true → Bars e
  | mode {v : Vote} : e.votes.find? (·.allows) = some v → v.grants = false → Bars e
  | unmatched : (∀ v ∈ e.votes, v.applies = false) → e.isOpen = false → Bars e

/-- When the two sides come to the same. -/
structure Reading.Aligned (d e : Reading) : Prop where
  /-- read alike, no deny rule is hidden behind an allow rule, and nothing is left to
  defaults that differ -/
  alike : d.Alike e → d.guard = true ∨
    (¬ Shadowed d.votes ∧ ((∀ v ∈ d.votes, v.applies = false) → d.isOpen = e.isOpen))
  /-- read differently, the rules happen to decide alike -/
  apart : ¬ d.Alike e → (d.Admits ↔ ¬ e.Bars)

theorem firstApplicable_eq_none_iff {vs : List Vote} :
    firstApplicable vs = none ↔ ∀ v ∈ vs, v.applies = false := by
  rw [firstApplicable, List.find?_eq_none]
  exact forall₂_congr fun v _ => iff_of_eq (Bool.not_eq_true _)

theorem admits_iff (d : Reading) : d.Admits ↔ d.passesFirst = true := by
  rw [Reading.passesFirst, Bool.and_eq_true_iff, Bool.not_eq_true']
  constructor
  · rintro (⟨hguard, hv, hgrants⟩ | ⟨hguard, hnone, hopen⟩)
    · exact ⟨hguard, by rw [hv]; exact hgrants⟩
    · exact ⟨hguard, by rw [firstApplicable_eq_none_iff.mpr hnone]; exact hopen⟩
  · rintro ⟨hguard, hpasses⟩
    cases hv : firstApplicable d.votes with
    | none =>
        rw [hv] at hpasses
        exact .unmatched hguard (firstApplicable_eq_none_iff.mp hv) hpasses
    | some v =>
        rw [hv] at hpasses
        exact .granted hguard hv hpasses

theorem bars_iff (e : Reading) : e.Bars ↔ e.passesDenyFirst = false := by
  rw [Reading.passesDenyFirst, passes_denyOverrides]
  constructor
  · rintro (hguard | ⟨hw, hdenies⟩ | ⟨hv, hgrants⟩ | ⟨hnone, hopen⟩)
    · rw [hguard]
      rfl
    · rw [List.any_eq_true.mpr ⟨_, hw, hdenies⟩]
      simp
    · rw [hv, passes, hgrants]
      simp
    · have hfind : e.votes.find? (·.allows) = none :=
        List.find?_eq_none.mpr fun v hv => by simp [Vote.allows, hnone v hv]
      rw [hfind, passes, hopen]
      simp
  · intro h
    cases hguard : e.guard with
    | true => exact .guard hguard
    | false =>
        by_cases hdenies : ∃ w ∈ e.votes, w.denies = true
        · obtain ⟨w, hw, hd⟩ := hdenies
          exact .denied hw hd
        · have hany : e.votes.any (·.denies) = false :=
            Bool.of_not_eq_true fun h => hdenies (List.any_eq_true.mp h)
          rw [hguard, hany, Bool.not_false, Bool.true_and, Bool.true_and] at h
          cases hv : e.votes.find? (·.allows) with
          | some v =>
              rw [hv] at h
              exact .mode hv h
          | none =>
              rw [hv] at h
              refine .unmatched (fun v hmem => ?_) h
              rw [← not_denies_iff v (Bool.of_not_eq_true fun hd => hdenies ⟨v, hmem, hd⟩)]
              exact Bool.of_not_eq_true (List.find?_eq_none.mp hv v hmem)

variable (cap fallback call s)

/-- The two sides agree on the literal. -/
def SidesAgree : Prop := Reported cap call s ↔ Refused cap fallback call s

/-- What is asked of an endpoint rule. -/
structure EndpointRule.Plain (r : EndpointRule) : Prop where
  host : '*' ∉ r.host ∧ '?' ∉ r.host
  glob : ∀ g ∈ r.pathGlob, '?' ∉ g
  deny : r.allow = false → r.pathGlob = none

variable {cap fallback s}

/-- Not more rules than the checker keeps, no `?`, and the same word, or URL, for both. -/
def Capability.Plain (cap : Capability) (s : CString) : AccessCall → Prop
  | .fetch =>
      cap.endpoints.length ≤ maxEndpointRules ∧ (∀ r ∈ cap.endpoints, r.Plain) ∧
        aclParseUrl s = some (parseUrlSimple s) ∧ (parseUrlSimple s).path ≠ [] ∧
        aclIsPrivateIp (parseUrlSimple s).host = isPrivateIp (parseUrlSimple s).host
  | .exec => cap.binaries.length ≤ maxBinaryRules ∧ extractBinaryName s = aclBinary s
  | .readFile | .writeFile =>
      cap.paths.length ≤ maxPathRules ∧ ∀ r ∈ cap.paths, '?' ∉ r.pattern

theorem matchesBinary_eq (r : BinaryRule) (b : CString) : r.matchesBinary b = r.aclBinary b := by
  have hbase : r.path == basename b → basename r.path == basename b := by
    intro h
    rw [eq_of_beq h, basename_basename]
    exact beq_self_eq_true _
  rw [BinaryRule.matchesBinary, BinaryRule.aclBinary]
  cases h : r.path == basename b with
  | false => rw [Bool.or_false, Bool.or_comm]
  | true => rw [hbase h, Bool.or_true, Bool.true_or]

theorem matchesUrl_eq {r : EndpointRule} (hr : r.Plain) {u : Url} (hhost : u.host ≠ [])
    (hpath : u.path ≠ []) :
    r.matchesUrl u =
      (r.aclHost u && (!r.allow || r.pathGlob.all fun g => aclGlobMatch g u.path)) := by
  have hglob : globMatch r.host u.host = (r.host == u.host) := glob_literal hr.host.1 hr.host.2 _
  have hall : (r.pathGlob.all fun g => globMatch g u.path) =
      r.pathGlob.all fun g => aclGlobMatch g u.path := by
    cases hg : r.pathGlob with
    | none => rfl
    | some g => exact glob_query (hr.glob g hg) u.path
  rw [EndpointRule.matchesUrl, EndpointRule.aclHost, hglob, hall, Bool.or_self,
    List.isEmpty_eq_false_iff.mpr hhost, List.isEmpty_eq_false_iff.mpr hpath, Bool.not_false,
    Bool.true_and, Bool.false_or]
  cases hallow : r.allow with
  | true => rfl
  | false =>
      rw [hr.deny hallow]
      rfl

theorem host_ne_nil {u : Url} (h : aclParseUrl s = some u) : u.host ≠ [] := by
  simp only [aclParseUrl, Option.bind_eq_bind, Option.bind_eq_some_iff] at h
  obtain ⟨⟨p, port⟩, -, h⟩ := h
  split at h
  · cases h
  · rename_i hlen
    cases h
    exact fun hnil => hlen (.inr hnil)

/-- What is plain both sides read alike. -/
theorem Capability.Plain.alike (h : cap.Plain s call) :
    (cap.checkerReading s call).Alike (cap.runtimeReading fallback s call) := by
  cases call with
  | fetch =>
      obtain ⟨hlen, hrules, hparse, hpath, hprivate⟩ := h
      rw [Capability.runtimeReading, hparse]
      refine ⟨congrArg (cap.denyPrivate && ·) hprivate.symm, ?_⟩
      show (cap.endpoints.take maxEndpointRules).map _ = cap.endpoints.map _
      rw [List.take_of_length_le hlen]
      refine List.map_congr_left fun r hr => ?_
      rw [EndpointRule.aclVote, matchesUrl_eq (hrules r hr) (host_ne_nil hparse) hpath]
  | exec =>
      obtain ⟨hlen, hword⟩ := h
      refine ⟨rfl, ?_⟩
      show (cap.binaries.take maxBinaryRules).map _ = cap.binaries.map _
      rw [List.take_of_length_le hlen]
      refine List.map_congr_left fun r _ => ?_
      rw [matchesBinary_eq, hword]
  | readFile =>
      obtain ⟨hlen, hpatterns⟩ := h
      refine ⟨rfl, ?_⟩
      show (cap.paths.take maxPathRules).map _ = cap.paths.map _
      rw [List.take_of_length_le hlen]
      refine List.map_congr_left fun r hr => ?_
      rw [globMatch, glob_query (hpatterns r hr)]
      rfl
  | writeFile =>
      obtain ⟨hlen, hpatterns⟩ := h
      refine ⟨rfl, ?_⟩
      show (cap.paths.take maxPathRules).map _ = cap.paths.map _
      rw [List.take_of_length_le hlen]
      refine List.map_congr_left fun r hr => ?_
      rw [globMatch, glob_query (hpatterns r hr)]
      rfl

/-! ## A deny rule behind an allow rule -/

def pathRule (isMut : Bool) (pattern : String) : CapItem where
  kind := .pathRule
  name := pattern.toList
  isMut := isMut

/-- `allow path "/data/**"`, `deny path "/data/keys/**"`, `default: deny` -/
def keysBlock : Capability where
  name := "filesystem"
  params :=
    [pathRule true "/data/**", pathRule false "/data/keys/**",
      { kind := .default, name := [], isMut := false }]

end Limceron.Access
