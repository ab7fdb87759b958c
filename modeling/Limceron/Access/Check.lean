/-
# `Limceron.Access.Check` — the access checks, at compile time and at run time

| | compile time | run time |
| :-- | :-- | :-- |
| a host in a private range | `is_private_ip` | `acl_is_private_ip` |
| a pattern | `glob_match` | `acl_glob_match` |
| a URL | `parse_url_simple` | `acl_parse_url` |
| the binary of a command | `extract_binary_name` | the loop of `lcn_exec_checked` |
| which rule decides | the first that matches | a deny rule, else the first allow rule |

The functions are given one after the other, each for both sides.  What goes on when
a check is passed (the request, the command, the file) is not part of it: a check of
the runtime is `none`, or the text of its error.
-/
import Limceron.Access.Policy
import Limceron.Typecheck.Verdict

namespace Limceron.Access

open Caps (CString)
open Typecheck (Diagnostic)

/-! ## Private ranges -/

/-- An address in a private range; `zero` adds `0.0.0.0/8`. -/
def privateQuad (zero : Bool) (host : CString) : Bool :=
  match scanQuad host with
  | none => false
  | some (a, b, _, _) =>
      a == 10 || (a == 172 && 16 ≤ b && b ≤ 31) || (a == 192 && b == 168) || a == 127 ||
        (a == 169 && b == 254) || (zero && a == 0)

/-- `is_private_ip`. -/
def isPrivateIp (host : CString) : Bool := privateQuad false host

/-- `acl_is_private_ip`. -/
def aclIsPrivateIp (host : CString) : Bool := privateQuad true host

/-! ## Patterns -/

/-- What is left of the text when `*` has taken some of it: up to the next `/`. -/
def starTails : CString → List CString
  | [] => [[]]
  | c :: s => if c = '/' then [c :: s] else (c :: s) :: starTails s

/-- `pattern` matches; `query` says whether `?` stands for a character. -/
def glob (query : Bool) : CString → CString → Bool
  | [], s => s.isEmpty
  | p :: ps, [] => (p :: ps).all (· == '*')
  | p :: ps, c :: s =>
      if p = '*' then
        match ps with
        | [] => (starTails (c :: s)).any (glob query [])
        | q :: qs =>
            if q = '*' then
              match qs with
              | [] => true
              | r :: rs =>
                  if r = '/' then rs.isEmpty || (c :: s).tails.any (glob query rs)
                  else (c :: s).tails.any (glob query (r :: rs))
            else (starTails (c :: s)).any (glob query (q :: qs))
      else if query && p == '?' then c != '/' && glob query ps s
      else p == c && glob query ps s

/-- `glob_match`. -/
def globMatch (pattern s : CString) : Bool := glob true pattern s

/-- `acl_glob_match`. -/
def aclGlobMatch (pattern s : CString) : Bool := glob false pattern s

/-- A pattern without `?` matches alike for both. -/
theorem glob_query : ∀ {p : CString}, '?' ∉ p → ∀ s, glob true p s = glob false p s
  | [], _, _ => rfl
  | _ :: _, _, [] => rfl
  | p :: ps, h, c :: s => by
      have hp : p ≠ '?' := fun hp => h (hp ▸ List.mem_cons_self)
      have hps : '?' ∉ ps := fun hps => h (List.mem_cons_of_mem p hps)
      have ih := glob_query hps
      have hquery : (p == '?') = false := beq_false_of_ne hp
      unfold glob
      rw [hquery, Bool.and_false, Bool.and_false, if_neg Bool.false_ne_true,
        if_neg Bool.false_ne_true, ih s]
      split
      · split
        · rw [funext ih]
        · rename_i q qs
          split
          · split
            · rfl
            · rename_i r rs
              have hrs : '?' ∉ r :: rs := fun hrs => hps (List.mem_cons_of_mem q hrs)
              rw [funext (glob_query hrs),
                funext (glob_query fun hmem => hrs (List.mem_cons_of_mem r hmem))]
          · rw [funext ih]
      · rfl

/-- Without any wildcard it matches itself alone. -/
theorem glob_literal {query : Bool} : ∀ {p : CString}, '*' ∉ p → '?' ∉ p → ∀ s,
    glob query p s = (p == s)
  | [], _, _, s => by cases s <;> rfl
  | p :: ps, hstar, _, [] => by
      have hp : p ≠ '*' := fun hp => hstar (hp ▸ List.mem_cons_self)
      rw [glob, List.all_cons, beq_false_of_ne hp]
      rfl
  | p :: ps, hstar, hquery, c :: s => by
      have hp : p ≠ '*' := fun hp => hstar (hp ▸ List.mem_cons_self)
      have hq : p ≠ '?' := fun hp => hquery (hp ▸ List.mem_cons_self)
      have ih : glob query ps s = (ps == s) :=
        glob_literal (fun h => hstar (List.mem_cons_of_mem p h))
          (fun h => hquery (List.mem_cons_of_mem p h)) s
      unfold glob
      rw [if_neg hp, beq_false_of_ne hq, Bool.and_false, if_neg Bool.false_ne_true, ih]
      rfl

/-! ## URLs -/

structure Url where
  host : CString
  port : Int
  path : CString

/-- Without the scheme, and the port that goes with it. -/
def dropScheme (noScheme : Option Int) (url : CString) : Option (CString × Int) :=
  if "https://".toList.isPrefixOf url then some (url.drop 8, 443)
  else if "http://".toList.isPrefixOf url then some (url.drop 7, 80)
  else noScheme.map fun port => (url, port)

/-- The text behind the first `c`. -/
def behind (c : Char) (s : CString) : CString := (s.dropWhile (· != c)).tail

/-- `parse_url_simple`. -/
def parseUrlSimple (url : CString) : Url :=
  let (p, port) := (dropScheme (some 443) url).getD (url, 443)
  let seg := p.takeWhile fun c => c != '/' && c != '?'
  { host := (seg.takeWhile (· != ':')).take 255
    port := if ':' ∈ seg then portOr443 (atoi (behind ':' p)) else port
    path := (p.dropWhile fun c => c != '/' && c != '?').take 1023 }

/-- `acl_parse_url`. -/
def aclParseUrl (url : CString) : Option Url := do
  let (p, port) ← dropScheme none url
  let seg := p.takeWhile (· != '/')
  let host := seg.takeWhile (· != ':')
  if 256 ≤ host.length ∨ host = [] then none
  else
    some
      { host := host
        port := if ':' ∈ seg then atoi (behind ':' p) else port
        path := if '/' ∈ p then (p.dropWhile (· != '/')).take 1023 else ['/'] }

/-! ## Commands -/

/-- `extract_binary_name`, into a buffer of 512. -/
def extractBinaryName (cmd : CString) : CString :=
  (((cmd.dropWhile fun c => c == ' ' || c == '\t').takeWhile
    fun c => c != ' ' && c != '\t')).take 511

/-- The first word of a command, into a buffer of 256. -/
def aclBinary (command : CString) : CString := (command.takeWhile fun c => !isSpace c).take 255

/-! ## At compile time -/

/-- The first argument of a call. -/
inductive Arg where
  | literal (s : CString)
  | dynamic

/-- What a check leaves: the errors, and whether the call is flagged. -/
structure Checked where
  errors : List Diagnostic
  isUnsafe : Bool

/-- One check for each policy of the agent; a dynamic argument is flagged. -/
def checkCall (apr : List ConcretePolicy) (policies : List String) (args : List Arg)
    (check : ConcretePolicy → CString → List Diagnostic) : Checked :=
  match args with
  | [] => ⟨[], false⟩
  | .dynamic :: _ => ⟨[], true⟩
  | .literal s :: _ =>
      ⟨policies.flatMap fun name =>
        match findPolicy apr name with
        | none => []
        | some pol => if pol.isConcrete then check pol s else [], false⟩

def denied (message hint : String) : Diagnostic where
  message := message
  hint := some hint
  isWarning := false

/-- The loop over the rules: the first one that matches decides, and the default if there
is none. -/
def ConcretePolicy.firstRule {ρ : Type} (pol : ConcretePolicy) (rules : List ρ)
    (applies : ρ → Bool) (found : ρ → List Diagnostic) (missed : Diagnostic) : List Diagnostic :=
  match rules.find? applies with
  | some r => found r
  | none => if pol.hasDefault && pol.defaultDeny then [missed] else []

/-- A rule of the checker matches the endpoint. -/
def EndpointRule.matchesUrl (r : EndpointRule) (u : Url) : Bool :=
  !u.host.isEmpty && (r.host == u.host || globMatch r.host u.host) &&
    (r.port == 0 || r.port == u.port) &&
    (u.path.isEmpty || r.pathGlob.all fun g => globMatch g u.path)

/-- `check_fetch_call`, for one policy. -/
def checkFetch (pol : ConcretePolicy) (url : CString) : List Diagnostic :=
  let u := parseUrlSimple url
  let host := String.ofList u.host
  let group := pol.groupName
  if pol.endpoints.isEmpty && !pol.denyPrivate then []
  else if pol.denyPrivate && isPrivateIp u.host then
    [denied (s!"access denied: fetch to private IP range '{host}' is blocked by " ++
        "'deny private_ranges'")
      "remove the fetch or adjust the capability's network policy"]
  else
    pol.firstRule pol.endpoints (fun r => r.matchesUrl u)
      (fun r =>
        if r.allow then []
        else
          [denied s!"access denied: endpoint '{host}:{u.port}' denied by capability '{group}'"
            "this endpoint is explicitly denied by the capability policy"])
      (denied (s!"access denied: endpoint '{host}:{u.port}' not in allow list for " ++
          s!"capability '{group}' (default: deny)")
        "add an allow rule for this endpoint or change the default policy")

/-- `check_fetch_call`. -/
def checkFetchCall (apr : List ConcretePolicy) (policies : List String) (args : List Arg) :
    Checked :=
  checkCall apr policies args checkFetch

/-- A rule of the checker matches the binary. -/
def BinaryRule.matchesBinary (r : BinaryRule) (binary : CString) : Bool :=
  r.path == binary || basename r.path == basename binary || r.path == basename binary

/-- `check_exec_call`, for one policy. -/
def checkExec (pol : ConcretePolicy) (cmd : CString) : List Diagnostic :=
  let binary := extractBinaryName cmd
  let text := String.ofList binary
  let group := pol.groupName
  if pol.binaries.isEmpty then []
  else
    pol.firstRule pol.binaries (fun r => r.matchesBinary binary)
      (fun r =>
        if r.allow then []
        else
          [denied s!"access denied: binary '{text}' explicitly denied by capability '{group}'"
            "this binary is explicitly denied by the capability policy"])
      (denied (s!"access denied: binary '{text}' not in allow list for capability " ++
          s!"'{group}' (default: deny)")
        "add an allow rule for this binary or change the default policy")

/-- `check_exec_call`. -/
def checkExecCall (apr : List ConcretePolicy) (policies : List String) (args : List Arg) :
    Checked :=
  checkCall apr policies args checkExec

/-- `check_file_call`, for one policy. -/
def checkFile (isWrite : Bool) (pol : ConcretePolicy) (filePath : CString) : List Diagnostic :=
  let opName := if isWrite then "write_file" else "read_file"
  let text := String.ofList filePath
  let group := pol.groupName
  if pol.paths.isEmpty then []
  else
    pol.firstRule pol.paths (fun r => globMatch r.pattern filePath)
      (fun r =>
        if !r.allow then
          [denied s!"access denied: {opName}('{text}') denied by capability '{group}'"
            "this path is explicitly denied by the capability policy"]
        else
          (if !isWrite && !r.canRead then
            [denied s!"access denied: read_file('{text}') not permitted (no read mode) in '{group}'"
              "this path does not allow read access"]
          else []) ++
          (if isWrite && !r.canWrite then
            [denied
              s!"access denied: write_file('{text}') not permitted (no write mode) in '{group}'"
              "this path does not allow write access"]
          else []))
      (denied (s!"access denied: {opName}('{text}') not in allow list for capability " ++
          s!"'{group}' (default: deny)")
        "add an allow rule for this path or change the default policy")

/-- `check_file_call`. -/
def checkFileCall (isWrite : Bool) (apr : List ConcretePolicy) (policies : List String)
    (args : List Arg) : Checked :=
  checkCall apr policies args (checkFile isWrite)

/-! ## At run time -/

def EndpointRule.aclHost (r : EndpointRule) (u : Url) : Bool :=
  r.host == u.host && (r.port == 0 || r.port == u.port)

/-- The check of `lcn_fetch_checked`. -/
def lcnFetchChecked (url : CString) : Option LcnAccessPolicy → Option String
  | none => none
  | some policy =>
      match aclParseUrl url with
      | none => some "access_control: invalid URL"
      | some u =>
          let endpoints := policy.endpoints.getD []
          if policy.denyPrivate && aclIsPrivateIp u.host then
            some "access_control: private IP range denied"
          else if endpoints.any fun r => !r.allow && r.aclHost u then
            some "access_control: endpoint explicitly denied"
          else
            let found := endpoints.any fun r =>
              r.allow && r.aclHost u && r.pathGlob.all fun g => aclGlobMatch g u.path
            if !found && policy.defaultDeny then
              some "access_control: endpoint not in allow list"
            else none

def BinaryRule.aclBinary (r : BinaryRule) (bin : CString) : Bool :=
  basename r.path == basename bin || r.path == bin

/-- The check of `lcn_exec_checked`. -/
def lcnExecChecked (command : CString) : Option LcnAccessPolicy → Option String
  | none => none
  | some policy =>
      let bin := aclBinary command
      let binaries := policy.binaries.getD []
      if binaries.any fun r => !r.allow && r.aclBinary bin then
        some "access_control: binary explicitly denied"
      else
        let found := binaries.any fun r => r.allow && r.aclBinary bin
        if !found && policy.defaultDeny then some "access_control: binary not in allow list"
        else none

/-- `acl_check_path`. -/
def aclCheckPath (needWrite : Bool) (fpath : CString) : Option LcnAccessPolicy → Option String
  | none => none
  | some policy =>
      match policy.paths with
      | none => none
      | some paths =>
          if paths.any fun r => !r.allow && aclGlobMatch r.pattern fpath then
            some "access_control: path explicitly denied"
          else
            match paths.find? fun r => r.allow && aclGlobMatch r.pattern fpath with
            | some r =>
                if needWrite && !r.canWrite then some "access_control: path write not permitted"
                else if !needWrite && !r.canRead then
                  some "access_control: path read not permitted"
                else none
            | none =>
                if policy.defaultDeny then some "access_control: path not in allow list" else none

end Limceron.Access
