/-
# `Limceron.Access.Fence` — the second layer of access control

`capability_fence.c` decides once more what `access_control.c` has decided, over the
same tables, with functions of its own.  They are the same functions, but for the
endpoints: the fence has no path, so it cannot try a `path_glob`, and takes a rule
with one as if it were without (`layersAgree_iff`).
-/
import Limceron.Access.Check

namespace Limceron.Access

open Caps (CString)

/-! ## The fence -/

/-- `cf_is_private_ip`. -/
def cfIsPrivateIp (host : CString) : Bool := privateQuad true host

/-- `cf_glob_match`. -/
def cfGlobMatch (pattern s : CString) : Bool := glob false pattern s

/-- `cf_basename`. -/
def cfBasename (path : CString) : CString := basename path

/-- `cf_parse_url`: a host that fits `hostSz` bytes, and a port. -/
def cfParseUrl (hostSz : Nat) (url : CString) : Option (CString × Int) := do
  let (p, port) ← dropScheme none url
  let seg := p.takeWhile (· != '/')
  let host := seg.takeWhile (· != ':')
  if hostSz ≤ host.length ∨ host = [] then none
  else some (host, if ':' ∈ seg then atoi (behind ':' p) else port)

/-- The rule is for the endpoint. -/
def EndpointRule.cfHost (r : EndpointRule) (host : CString) (port : Int) : Bool :=
  r.host == host && (r.port == 0 || r.port == port)

/-- `lcn_capability_check_endpoint`. -/
def lcnCapabilityCheckEndpoint (url : CString) : Option LcnAccessPolicy → Bool
  | none => true
  | some policy =>
      match cfParseUrl 256 url with
      | none => false
      | some (host, port) =>
          let endpoints := policy.endpoints.getD []
          if policy.denyPrivate && cfIsPrivateIp host then false
          else if endpoints.any fun r => !r.allow && r.cfHost host port then false
          else
            let found := endpoints.any fun r => r.allow && r.cfHost host port
            !(!found && policy.defaultDeny)

/-- The rule is for the binary. -/
def BinaryRule.cfBinary (r : BinaryRule) (bin : CString) : Bool :=
  cfBasename r.path == cfBasename bin || r.path == bin

/-- `lcn_capability_check_binary`. -/
def lcnCapabilityCheckBinary (binary : CString) : Option LcnAccessPolicy → Bool
  | none => true
  | some policy =>
      let bin := (binary.takeWhile fun c => !isSpace c).take 255
      let binaries := policy.binaries.getD []
      if binaries.any fun r => !r.allow && r.cfBinary bin then false
      else
        let found := binaries.any fun r => r.allow && r.cfBinary bin
        !(!found && policy.defaultDeny)

/-- `lcn_capability_check_path`. -/
def lcnCapabilityCheckPath (path : CString) (isWrite : Bool) : Option LcnAccessPolicy → Bool
  | none => true
  | some policy =>
      match policy.paths with
      | none => true
      | some paths =>
          if paths.any fun r => !r.allow && cfGlobMatch r.pattern path then false
          else
            match paths.find? fun r => r.allow && cfGlobMatch r.pattern path with
            | some r =>
                if isWrite && !r.canWrite then false
                else if !isWrite && !r.canRead then false
                else true
            | none => !policy.defaultDeny

/-! ## The two layers -/

section

variable (policy : LcnAccessPolicy)

theorem cfParseUrl_eq (url : CString) :
    cfParseUrl 256 url = (aclParseUrl url).map fun u => (u.host, u.port) := by
  unfold cfParseUrl aclParseUrl
  cases dropScheme none url with
  | none => rfl
  | some r =>
      simp only [Option.bind_eq_bind, Option.bind_some]
      split
      · rfl
      · rfl

/-- A verdict, and the text of an error. -/
theorem verdict_iff (denied missed : Bool) (e e' : String) :
    (if denied then false else !missed) = true ↔
      (if denied then some e else if missed then some e' else none) = none := by
  cases denied with
  | true => simp
  | false =>
      cases missed with
      | true => simp
      | false => simp

theorem checkBinary_iff (command : CString) :
    lcnCapabilityCheckBinary command (some policy) = true ↔
      lcnExecChecked command (some policy) = none :=
  verdict_iff _ _ _ _

theorem checkPath_iff (path : CString) (isWrite : Bool) :
    lcnCapabilityCheckPath path isWrite (some policy) = true ↔
      aclCheckPath isWrite path (some policy) = none := by
  unfold lcnCapabilityCheckPath aclCheckPath
  simp only [show cfGlobMatch = aclGlobMatch from rfl]
  cases policy.paths with
  | none => simp
  | some paths =>
      simp only
      cases paths.any fun r => !r.allow && aclGlobMatch r.pattern path with
      | true => simp
      | false =>
          cases paths.find? fun r => r.allow && aclGlobMatch r.pattern path with
          | none => exact verdict_iff false policy.defaultDeny "" _
          | some r =>
              rw [if_neg Bool.false_ne_true, if_neg Bool.false_ne_true]
              simp only
              split
              · simp
              · split
                · simp
                · simp

/-- Some rule allows the endpoint, and another denies it or the range is forbidden. -/
def LcnAccessPolicy.Refuses (u : Url) : Prop :=
  (policy.denyPrivate && aclIsPrivateIp u.host) = true ∨
    ∃ r ∈ policy.endpoints.getD [], r.allow = false ∧ r.aclHost u = true

/-- Where an allow rule is for the endpoint, so is one whose `path_glob`, if it has one,
matches the path; or else the URL is refused, or nothing is by default. -/
def PathSettled (url : CString) : Prop :=
  ∀ u, aclParseUrl url = some u → policy.defaultDeny = true → ¬ policy.Refuses u →
    (∃ r ∈ policy.endpoints.getD [], r.allow = true ∧ r.aclHost u = true) →
      ∃ r ∈ policy.endpoints.getD [], r.allow = true ∧ r.aclHost u = true ∧
        (r.pathGlob.all fun g => aclGlobMatch g u.path) = true

/-- The verdicts on an endpoint, of what the loops have found. -/
theorem endpoint_verdicts {ranged denied found read deny : Bool} {e e' e'' : String}
    (h : read = true → found = true) :
    ((if ranged then false else if denied then false else !(!found && deny)) = true ↔
        (if ranged then some e else if denied then some e'
          else if !read && deny then some e'' else none) = none) ↔
      (deny = true → ¬ (ranged = true ∨ denied = true) → found = true → read = true) := by
  cases ranged with
  | true => simp
  | false =>
      cases denied with
      | true => simp
      | false =>
          cases deny with
          | false => simp
          | true =>
              cases read with
              | true => simp [h]
              | false => simp

theorem checkEndpoint_iff (url : CString) :
    (lcnCapabilityCheckEndpoint url (some policy) = true ↔
      lcnFetchChecked url (some policy) = none) ↔ PathSettled policy url := by
  unfold lcnCapabilityCheckEndpoint lcnFetchChecked PathSettled
  rw [cfParseUrl_eq]
  cases aclParseUrl url with
  | none => simp
  | some u =>
      have hrefuses : policy.Refuses u ↔ (policy.denyPrivate && aclIsPrivateIp u.host) = true ∨
          ((policy.endpoints.getD []).any fun r => !r.allow && r.aclHost u) = true := by
        simp [LcnAccessPolicy.Refuses]
      have hfound : (∃ r ∈ policy.endpoints.getD [], r.allow = true ∧ r.aclHost u = true) ↔
          ((policy.endpoints.getD []).any fun r => r.allow && r.aclHost u) = true := by
        simp
      have hread : (∃ r ∈ policy.endpoints.getD [], r.allow = true ∧ r.aclHost u = true ∧
            (r.pathGlob.all fun g => aclGlobMatch g u.path) = true) ↔
          ((policy.endpoints.getD []).any fun r => r.allow && r.aclHost u &&
            r.pathGlob.all fun g => aclGlobMatch g u.path) = true := by
        simp [and_assoc]
      have hweaker : ((policy.endpoints.getD []).any fun r => r.allow && r.aclHost u &&
            r.pathGlob.all fun g => aclGlobMatch g u.path) = true →
          ((policy.endpoints.getD []).any fun r => r.allow && r.aclHost u) = true := by
        rw [← hfound, ← hread]
        rintro ⟨r, hr, hallow, hhost, -⟩
        exact ⟨r, hr, hallow, hhost⟩
      have hcf : ∀ r : EndpointRule, r.cfHost u.host u.port = r.aclHost u := fun _ => rfl
      have hip : cfIsPrivateIp = aclIsPrivateIp := rfl
      simp only [Option.map_some, Option.some.injEq, forall_eq', hrefuses, hcf, hip, hfound, hread]
      exact endpoint_verdicts hweaker

/-- The two layers accept the same. -/
def LayersAgree (url command path : CString) (isWrite : Bool) : Prop :=
  (lcnCapabilityCheckEndpoint url (some policy) = true ↔
      lcnFetchChecked url (some policy) = none) ∧
    (lcnCapabilityCheckBinary command (some policy) = true ↔
      lcnExecChecked command (some policy) = none) ∧
    (lcnCapabilityCheckPath path isWrite (some policy) = true ↔
      aclCheckPath isWrite path (some policy) = none)

theorem layersAgree_iff (url command path : CString) (isWrite : Bool) :
    LayersAgree policy url command path isWrite ↔ PathSettled policy url :=
  ⟨fun h => (checkEndpoint_iff policy url).1 h.1, fun h =>
    ⟨(checkEndpoint_iff policy url).2 h, checkBinary_iff policy command,
      checkPath_iff policy path isWrite⟩⟩

end

/-- One path of one host. -/
def onePath : LcnAccessPolicy where
  endpoints := some [
    { host := "api".toList, port := 0, allow := true, pathGlob := some "/v1/*".toList }]
  binaries := none
  paths := none
  denyPrivate := false
  defaultDeny := true

/-- The fence lets another path of the host pass. -/
theorem path_unfenced : ¬ LayersAgree onePath "http://api/admin".toList [] [] false := by
  intro h
  have hfence : lcnCapabilityCheckEndpoint "http://api/admin".toList (some onePath) = true := by
    decide +kernel
  have hrefused : lcnFetchChecked "http://api/admin".toList (some onePath) ≠ none := by
    decide +kernel
  exact hrefused (h.1.1 hfence)

end Limceron.Access
