/-
# `Limceron.Access.Policy` — access rules and their two tables

The rules of a `capability` block end up in two places:

| | made of | limits |
| :-- | :-- | :-- |
| `ConcretePolicy` | the block, by `build_access_policies` | 32 policies, 64 rules of a kind |
| `LcnAccessPolicy` | the tables of the runtime | none |

The first can be without a default, the second cannot: what it has for a block
without one is left open here (`fallback`).  The methods of an endpoint rule are
kept by the first alone and read by neither, and are left out.
-/
import Limceron.Caps.Registry

namespace Limceron.Access

open Caps (CString)

/-! ## Characters and numbers -/

/-- `isspace`. -/
def isSpace (c : Char) : Bool := c == ' ' || ('\t' ≤ c && c ≤ '\r')

def isDigit (c : Char) : Bool := '0' ≤ c && c ≤ '9'

/-- The number that the digits at the start make. -/
def digits (s : CString) : Nat :=
  (s.takeWhile isDigit).foldl (fun n c => 10 * n + (c.toNat - '0'.toNat)) 0

/-- The sign in front, and what is behind it. -/
def sign : CString → Bool × CString
  | '-' :: s => (true, s)
  | '+' :: s => (false, s)
  | s => (false, s)

/-- `strtol` in base ten, with the saturation it has for 64 bits. -/
def strtol (s : CString) : Int :=
  let (neg, s) := sign (s.dropWhile isSpace)
  if neg then max (-9223372036854775808) (-(digits s : Int))
  else min 9223372036854775807 (digits s)

/-- `atoi`: the low 32 bits of it. -/
def atoi (s : CString) : Int := (strtol s).bmod 4294967296

/-- `%u` of `sscanf`: a number, the low 32 bits of what `strtoul` makes of it, and what
is behind it. -/
def scanUnsigned (s : CString) : Option (Nat × CString) :=
  let (neg, s) := sign (s.dropWhile isSpace)
  if s.takeWhile isDigit = [] then none
  else
    let n := min (digits s) 18446744073709551615
    let n := if neg && digits s ≤ 18446744073709551615 then 18446744073709551616 - n else n
    some (n % 4294967296, s.dropWhile isDigit)

/-- The text behind a literal character. -/
def scanLiteral (c : Char) : CString → Option CString
  | [] => none
  | d :: s => if d = c then some s else none

/-- `sscanf(s, "%u.%u.%u.%u", &a, &b, &c, &d) == 4`. -/
def scanQuad (s : CString) : Option (Nat × Nat × Nat × Nat) := do
  let (a, s) ← scanUnsigned s
  let (b, s) ← scanUnsigned (← scanLiteral '.' s)
  let (c, s) ← scanUnsigned (← scanLiteral '.' s)
  let (d, _) ← scanUnsigned (← scanLiteral '.' s)
  return (a, b, c, d)

/-- `strrchr`: what is before the last `c`, and behind it. -/
def splitLast (c : Char) : CString → Option (CString × CString)
  | [] => none
  | d :: s =>
      match splitLast c s with
      | some (before, behind) => some (d :: before, behind)
      | none => if d = c then some ([], s) else none

theorem splitLast_eq_none_iff {c : Char} {s : CString} : splitLast c s = none ↔ c ∉ s := by
  induction s with
  | nil => simp [splitLast]
  | cons d s ih =>
      rw [splitLast, List.mem_cons, not_or, ← ih]
      cases splitLast c s with
      | some r => simp
      | none => simp [eq_comm]

theorem not_mem_of_splitLast {c : Char} {s before behind : CString}
    (h : splitLast c s = some (before, behind)) : c ∉ behind := by
  induction s generalizing before with
  | nil => cases h
  | cons d s ih =>
      rw [splitLast] at h
      cases hs : splitLast c s with
      | some r =>
          rw [hs] at h
          cases h
          exact ih hs
      | none =>
          simp only [hs] at h
          split at h
          · cases h
            exact splitLast_eq_none_iff.mp hs
          · cases h

/-- `basename_of`, `acl_basename`. -/
def basename (path : CString) : CString :=
  match splitLast '/' path with
  | some (_, behind) => behind
  | none => path

theorem basename_basename (path : CString) : basename (basename path) = basename path := by
  have hnone : splitLast '/' (basename path) = none := by
    rw [basename]
    cases h : splitLast '/' path with
    | none => exact h
    | some r => exact splitLast_eq_none_iff.mpr (not_mem_of_splitLast h)
  rw [basename.eq_def (basename path), hnone]

/-! ## Capability blocks -/

inductive CapItemKind where
  | endpointRule | binaryRule | pathRule | denyRange | default | item
  deriving DecidableEq

/-- The value of a field of a rule. -/
inductive RuleValue where
  | array (names : List CString)
  | string (s : CString)
  | other

structure RuleField where
  name : String
  value : RuleValue

/-- A member of a `capability` block; `isMut` is set for allow and `default: allow`. -/
structure CapItem where
  kind : CapItemKind
  name : CString
  isMut : Bool
  params : List RuleField := []

structure Capability where
  name : String
  params : List CapItem

/-! ## The tables of the checker -/

structure EndpointRule where
  host : CString
  port : Int
  allow : Bool
  pathGlob : Option CString

structure BinaryRule where
  path : CString
  allow : Bool

structure PathRule where
  pattern : CString
  allow : Bool
  canRead : Bool
  canWrite : Bool

structure ConcretePolicy where
  groupName : String
  endpoints : List EndpointRule
  binaries : List BinaryRule
  paths : List PathRule
  denyPrivate : Bool
  defaultDeny : Bool
  hasDefault : Bool
  isConcrete : Bool

def maxEndpointRules : Nat := 64
def maxBinaryRules : Nat := 64
def maxPathRules : Nat := 64
def maxPolicies : Nat := 32

/-- A port, or the default for it. -/
def portOr443 (n : Int) : Int := if n ≤ 0 then 443 else n

/-- `parse_host_port`. -/
def parseHostPort (spec : CString) : CString × Int :=
  match splitLast ':' spec with
  | some (host, port) =>
      if host = [] then (spec.take 255, 443) else (host.take 255, portOr443 (atoi port))
  | none => (spec.take 255, 443)

namespace CapItem

/-- The last `path` that is a string. -/
def pathGlob (i : CapItem) : Option CString :=
  i.params.foldl (fun g f =>
    match f.value with
    | .string s => if f.name = "path" then some s else g
    | _ => g) none

/-- The last `mode` that is an array: whether it has the entry; both modes without one. -/
def mode (i : CapItem) (m : String) : Bool :=
  i.params.foldl (fun b f =>
    match f.value with
    | .array names => if f.name = "mode" then names.any (· == m.toList) else b
    | _ => b) true

def endpoint (i : CapItem) : EndpointRule where
  host := (parseHostPort i.name).1
  port := (parseHostPort i.name).2
  allow := i.isMut
  pathGlob := i.pathGlob

def binary (i : CapItem) : BinaryRule where
  path := i.name
  allow := i.isMut

def path (i : CapItem) : PathRule where
  pattern := i.name
  allow := i.isMut
  canRead := i.mode "read"
  canWrite := i.mode "write"

end CapItem

namespace Capability

variable (cap : Capability)

def ofKind (k : CapItemKind) : List CapItem := cap.params.filter fun i => decide (i.kind = k)

def endpoints : List EndpointRule := (cap.ofKind .endpointRule).map CapItem.endpoint

def binaries : List BinaryRule := (cap.ofKind .binaryRule).map CapItem.binary

def paths : List PathRule := (cap.ofKind .pathRule).map CapItem.path

def denyPrivate : Bool := !(cap.ofKind .denyRange).isEmpty

/-- The last default is the one that counts. -/
def default? : Option CapItem := (cap.ofKind .default).getLast?

/-- Some member is a rule. -/
def hasRules : Bool := cap.params.any fun i => i.kind != .item

/-- The policy of one block. -/
def concrete : ConcretePolicy where
  groupName := cap.name
  endpoints := cap.endpoints.take maxEndpointRules
  binaries := cap.binaries.take maxBinaryRules
  paths := cap.paths.take maxPathRules
  denyPrivate := cap.denyPrivate
  defaultDeny := cap.default?.any fun i => !i.isMut
  hasDefault := cap.default?.isSome
  isConcrete := true

end Capability

/-- `build_access_policies`. -/
def buildAccessPolicies (caps : List Capability) : List ConcretePolicy :=
  ((caps.filter Capability.hasRules).take maxPolicies).map Capability.concrete

/-- `find_policy`. -/
def findPolicy (apr : List ConcretePolicy) (name : String) : Option ConcretePolicy :=
  apr.find? fun p => p.groupName == name

/-! ## The tables of the runtime -/

/-- A table is a pointer to an array that ends in a sentinel, or null. -/
structure LcnAccessPolicy where
  endpoints : Option (List EndpointRule)
  binaries : Option (List BinaryRule)
  paths : Option (List PathRule)
  denyPrivate : Bool
  defaultDeny : Bool

/-- The policy with the rules of the block; `fallback` is for a block that has no
default. -/
def Capability.lcnPolicy (cap : Capability) (fallback : Bool) : LcnAccessPolicy where
  endpoints := some cap.endpoints
  binaries := some cap.binaries
  paths := some cap.paths
  denyPrivate := cap.denyPrivate
  defaultDeny := match cap.default? with
    | some i => !i.isMut
    | none => fallback

end Limceron.Access
