/-
# `Limceron.Typecheck.Match` — the arms of a match

What a match does, and what the checker makes of its arms.  The checker goes
through the arms once and keeps a few flags for all of them:

| pattern | noted |
| :-- | :-- |
| `_`, a name without `::` | a catch-all, if there is no guard |
| a path to `Ok` or `Err` | that one was seen |
| a path from `host_error` | the variant, if there is no guard |
| a literal | `true`, `false`, some integer, some string |

From the flags it guesses what is matched, and asks for both variants of a
`Result`, all variants of `host-error`, both booleans, or a catch-all.
-/
import Mathlib

namespace Limceron.Typecheck

/-! ## Values and patterns -/

/-- The types that are matched. -/
inductive Kind where
  | bool | int | str | hostError
  | result (ok err : Kind)
  deriving DecidableEq, Repr

inductive Value where
  | bool (b : Bool)
  | int (i : Int)
  | str (s : String)
  | hostError (variant : String)
  | ok (v : Value)
  | err (v : Value)
  deriving DecidableEq, Repr

/-- A literal pattern; the parser gives each its tag. -/
inductive PatLiteral where
  | int (i : Int)
  | str (s : String)
  | bool (b : Bool)
  | none
  deriving DecidableEq, Repr

/-- `ident` also stands for a path without payload. -/
inductive Pattern where
  | wildcard
  | ident (name : String)
  | literal (l : PatLiteral)
  | enum (name : String) (payload : List Pattern)

structure Arm where
  pattern : Pattern
  guarded : Bool := false

/-- The variants of `host-error` in `vdag.errors.wit`. -/
def hostErrorVariants : List String :=
  ["not-found", "permission-denied", "quota-exceeded", "cost-budget-exceeded", "dml-rejected",
    "sandbox-violation", "json-field-missing", "json-type-mismatch", "entropy-budget-exceeded",
    "limceron-budget-exceeded", "network-not-allowed", "invalid-arg"]

/-- `v` is a value of the type. -/
def Kind.Has : Kind → Value → Prop
  | .bool, .bool _ => True
  | .int, .int i => -2 ^ 63 ≤ i ∧ i < 2 ^ 63
  | .str, .str _ => True
  | .hostError, .hostError variant => variant ∈ hostErrorVariants
  | .result ok _, .ok v => ok.Has v
  | .result _ err, .err v => err.Has v
  | _, _ => False

/-! ## Paths -/

/-- The name contains `::`. -/
def hasColons : List Char → Bool
  | ':' :: ':' :: _ => true
  | _ :: rest => hasColons rest
  | [] => false

/-- What stands before and behind the last separator, `::` or a dot. -/
def scanPath (seen : List Char) (best : List Char × List Char) :
    List Char → List Char × List Char
  | ':' :: ':' :: rest => scanPath (seen ++ [':', ':']) (seen, rest) rest
  | c :: rest =>
      if c = '.' then scanPath (seen ++ [c]) (seen, rest) rest
      else scanPath (seen ++ [c]) best rest
  | [] => best

def pathHead (name : String) : List Char := (scanPath [] ([], name.toList) name.toList).1

def pathTail (name : String) : List Char := (scanPath [] ([], name.toList) name.toList).2

def isHostErrorPath (name : String) : Bool :=
  pathHead name = "host_error".toList || pathHead name = "host-error".toList

/-- `_` and `-` are the same in the name of a variant. -/
def kebab (name : List Char) : List Char := name.map fun c => if c = '_' then '-' else c

namespace Pattern

/-- A name that is not a path is a binding and matches everything. -/
def binds : Pattern → Bool
  | .wildcard => true
  | .ident name => !hasColons name.toList
  | _ => false

/-- The path of a variant, and the pattern for what it carries. -/
def variant : Pattern → Option (String × Pattern)
  | .ident name => if hasColons name.toList then some (name, .wildcard) else none
  | .enum name payload => some (name, payload.headD .wildcard)
  | _ => none

/-- A path that ends in `tail`. -/
def endsIn (p : Pattern) (tail : String) : Bool :=
  p.variant.any fun v => pathTail v.1 = tail.toList

/-- The variant of `host-error` that is named. -/
def hostVariant (p : Pattern) : Option (List Char) :=
  p.variant.bind fun v => if isHostErrorPath v.1 then some (pathTail v.1) else none

/-- A literal of that kind. -/
def isLiteral (p : Pattern) (q : PatLiteral → Bool) : Bool :=
  match p with
  | .literal l => q l
  | _ => false

end Pattern

/-! ## Matching -/

/-- The value fits the pattern. -/
def Value.fits : Value → Pattern → Bool
  | .bool b, p => p.binds || p.isLiteral fun l => l = .bool b
  | .int i, p => p.binds || p.isLiteral fun l => l = .int i
  | .str s, p => p.binds || p.isLiteral fun l => l = .str s
  | .hostError variant, p =>
      p.binds || p.hostVariant.any fun name => kebab name = kebab variant.toList
  | .ok v, p => p.binds || p.variant.any fun w => pathTail w.1 = "Ok".toList && v.fits w.2
  | .err v, p => p.binds || p.variant.any fun w => pathTail w.1 = "Err".toList && v.fits w.2

/-- The arm that is taken, if the guards have these outcomes; `i` is the number of
the first one. -/
def takenFrom (guards : Nat → Bool) (v : Value) (i : Nat) : List Arm → Option Nat
  | [] => none
  | a :: as =>
      if v.fits a.pattern && (!a.guarded || guards i) then some i
      else takenFrom guards v (i + 1) as

def taken (arms : List Arm) (guards : Nat → Bool) (v : Value) : Option Nat :=
  takenFrom guards v 0 arms

/-! ## The check -/

/-- `LCN_WIT_MAX_VARIANTS`, `LCN_WIT_MAX_NAME`. -/
def maxVariants : Nat := 64

def maxName : Nat := 64

/-- What the checker keeps; `dead` are the numbers of the arms reported. -/
structure Seen where
  arms : Nat := 0
  dead : List Nat := []
  ok : Bool := false
  err : Bool := false
  catchall : Bool := false
  true_ : Bool := false
  false_ : Bool := false
  int : Bool := false
  str : Bool := false
  hostErr : Bool := false
  hostVariants : List (List Char) := []
  deriving DecidableEq

/-- A path. -/
def Seen.path (s : Seen) (name : String) (guarded : Bool) : Seen :=
  let tail := pathTail name
  let s := { s with ok := s.ok || tail = "Ok".toList, err := s.err || tail = "Err".toList }
  if isHostErrorPath name then
    if !guarded && s.hostVariants.length < maxVariants then
      { s with hostErr := true, hostVariants := s.hostVariants ++ [tail.take (maxName - 1)] }
    else { s with hostErr := true }
  else s

def Seen.literal (s : Seen) : PatLiteral → Seen
  | .bool true => { s with true_ := true }
  | .bool false => { s with false_ := true }
  | .int _ => { s with int := true }
  | .str _ => { s with str := true }
  | .none => s

/-- One arm. -/
def Seen.arm (s : Seen) (a : Arm) : Seen :=
  let n := s.arms + 1
  let s := { s with arms := n, dead := if s.catchall then s.dead ++ [n] else s.dead }
  match a.pattern with
  | .wildcard => { s with catchall := s.catchall || !a.guarded }
  | .ident name =>
      if hasColons name.toList then s.path name a.guarded
      else { s with catchall := s.catchall || !a.guarded }
  | .enum name _ => s.path name a.guarded
  | .literal l => s.literal l

def seenOf (arms : List Arm) : Seen := arms.foldl Seen.arm {}

/-- The variants that no arm names. -/
def Seen.missing (s : Seen) : List String :=
  hostErrorVariants.filter fun v => !s.hostVariants.any fun name => kebab name = kebab v.toList

inductive MatchError where
  | result (ok err : Bool)
  | hostError (missing : List String)
  | bool (t f : Bool)
  | literal (str : Bool)
  | unreachable (arm : Nat)
  deriving DecidableEq, Repr

namespace MatchError

def message : MatchError → String
  | .result ok err =>
      "ERR_MATCH_INEXHAUSTIVE: match over Result requires both Ok(_) and Err(_) arms (saw " ++
        (if ok then "Ok " else "") ++ (if err then "Err " else "") ++ ")"
  | .hostError missing =>
      s!"ERR_MATCH_INEXHAUSTIVE: match over host-error is missing {missing.length} variant(s): " ++
        ", ".intercalate missing
  | .bool t f =>
      "ERR_MATCH_INEXHAUSTIVE: match over bool requires both true and false arms (saw " ++
        (if t then "true " else "") ++ (if f then "false " else "") ++ ")"
  | .literal str =>
      "ERR_MATCH_INEXHAUSTIVE: literal match over " ++ (if str then "string" else "int") ++
        " must end with a wildcard arm"
  | .unreachable arm =>
      s!"ERR_MATCH_UNREACHABLE_ARM: arm #{arm} follows an unguarded catch-all and can never run"

def hint : MatchError → String
  | .result _ _ => "add the missing arm or a `_` catch-all"
  | .hostError _ => "add the missing variant(s) or a `_` catch-all"
  | .bool _ _ => "add the missing bool arm or a `_` catch-all"
  | .literal _ => "add a `_` catch-all arm"
  | .unreachable _ => "remove the dead arm"

end MatchError

/-- The error about values without an arm.  `loaded` says that `vdag.errors.wit` has
been found. -/
def Seen.inexhaustive (s : Seen) (loaded : Bool) : Option MatchError :=
  let resultish := s.ok || s.err
  let boolish := s.true_ || s.false_
  if resultish && !s.catchall && (!s.ok || !s.err) then some (.result s.ok s.err)
  else if s.hostErr && !s.catchall then
    if loaded && s.missing ≠ [] then some (.hostError s.missing) else none
  else if boolish && !s.catchall && (!s.true_ || !s.false_) then some (.bool s.true_ s.false_)
  else if !s.catchall && !resultish && !s.hostErr && !boolish && (s.int || s.str) then
    some (.literal s.str)
  else none

/-- What `check_expr` reports of a match. -/
def checkMatch (loaded : Bool) (arms : List Arm) : List MatchError :=
  (seenOf arms).dead.map .unreachable ++ ((seenOf arms).inexhaustive loaded).toList

end Limceron.Typecheck
