/-
# `Limceron.Access.Confine` — paths below a directory

The pattern `D/**` matches all that begins with `D/`, whatever the path means.  A
path goes through `..`, and so `D/../x` matches and is not below `D`: what counts is
where the walk behind `D/` ends (`confined_iff`).
-/
import Limceron.Access.Check
import Limceron.Lib.DotPaths

namespace Limceron.Access

open Caps (CString)
open DotPaths

/-! ## What a path means -/

def moveOf (name : CString) : Move CString :=
  if name = [] ∨ name = ['.'] then .stay else if name = ['.', '.'] then .up else .into name

/-- The components of a path. -/
def moves (path : CString) : List (Move CString) := (path.splitOn '/').map moveOf

/-- The directory a path leads to from the root, by its components alone. -/
def resolved (path : CString) : List CString := walk [] (moves path)

theorem moves_append (p q : CString) : moves (p ++ '/' :: q) = moves p ++ moves q := by
  rw [moves, List.splitOn_append_cons_self, List.map_append]
  rfl

theorem resolved_append (p q : CString) :
    resolved (p ++ '/' :: q) = walk (resolved p) (moves q) := by
  rw [resolved, moves_append, walk_append]
  rfl

/-! ## What the pattern matches -/

theorem glob_stars (s : CString) : aclGlobMatch "**".toList s = true := by
  cases s with
  | nil => rfl
  | cons c s => rfl

/-- A character that is no star matches itself. -/
theorem glob_cons {p : Char} (hp : p ≠ '*') (ps : CString) (c : Char) (s : CString) :
    aclGlobMatch (p :: ps) (c :: s) = true ↔ p = c ∧ aclGlobMatch ps s = true := by
  rw [aclGlobMatch, aclGlobMatch, glob.eq_def]
  simp only [if_neg hp, Bool.false_and, Bool.false_eq_true, if_false, Bool.and_eq_true, beq_iff_eq]

theorem glob_cons_nil {p : Char} (hp : p ≠ '*') (ps : CString) :
    aclGlobMatch (p :: ps) [] = false := by
  rw [aclGlobMatch, glob, List.all_cons, beq_false_of_ne hp, Bool.false_and]

/-- `D/**` matches what begins with `D/`. -/
theorem glob_below {d : CString} (hd : '*' ∉ d) (s : CString) :
    aclGlobMatch (d ++ "/**".toList) s = true ↔ ∃ rest, s = d ++ '/' :: rest := by
  induction d generalizing s with
  | nil =>
      have hpattern : [] ++ "/**".toList = '/' :: "**".toList := rfl
      rw [hpattern]
      cases s with
      | nil => simp [glob_cons_nil (show '/' ≠ '*' by decide)]
      | cons c s =>
          rw [glob_cons (by decide), and_iff_left (glob_stars s)]
          simp [eq_comm]
  | cons p d ih =>
      have hp : p ≠ '*' := fun hp => hd (hp ▸ List.mem_cons_self)
      have ih := ih fun h => hd (List.mem_cons_of_mem p h)
      cases s with
      | nil => simp [glob_cons_nil hp]
      | cons c s =>
          rw [List.cons_append, glob_cons hp, ih]
          simp [eq_comm]

/-! ## Policies for one directory -/

/-- An absolute directory, spelled out. -/
structure LiteralDir (d : CString) : Prop where
  absolute : d.head? = some '/'
  noStar : '*' ∉ d
  noDots : ∀ name ∈ d.splitOn '/', name ≠ ['.'] ∧ name ≠ ['.', '.']

/-- Nothing is allowed by default, and all that a rule allows is what `D/**` matches. -/
structure OnlyBelow (policy : LcnAccessPolicy) (d : CString) : Prop where
  defaultDeny : policy.defaultDeny = true
  rules : ∃ paths, policy.paths = some paths ∧
    ∀ r ∈ paths, r.allow = true → r.pattern = d ++ "/**".toList

/-- What such a policy accepts begins with `D/`. -/
theorem OnlyBelow.accepted {policy : LcnAccessPolicy} {d p : CString} {needWrite : Bool}
    (hd : LiteralDir d) (hpolicy : OnlyBelow policy d)
    (h : aclCheckPath needWrite p (some policy) = none) : ∃ rest, p = d ++ '/' :: rest := by
  obtain ⟨paths, hpaths, hrules⟩ := hpolicy.rules
  rw [aclCheckPath] at h
  simp only [hpaths] at h
  split at h
  · cases h
  · split at h
    · next r hr =>
        have happlies := List.find?_some hr
        rw [Bool.and_eq_true] at happlies
        rw [← glob_below hd.noStar, ← hrules r (List.mem_of_find?_eq_some hr) happlies.1]
        exact happlies.2
    · rw [hpolicy.defaultDeny] at h
      cases h

/-- Behind `D/` the path goes up some levels, if at all, and then down along names that
begin with the last ones of `D`, as many as it went up. -/
def ComesBack (d rest : CString) : Prop :=
  (resolved d).drop ((resolved d).length - (net (moves rest)).1) <+: (net (moves rest)).2

/-- A path that is accepted leads below `D` exactly if it comes back there. -/
theorem confined_iff {policy : LcnAccessPolicy} {d p : CString} {needWrite : Bool}
    (hd : LiteralDir d) (hpolicy : OnlyBelow policy d)
    (h : aclCheckPath needWrite p (some policy) = none) :
    resolved d <+: resolved p ↔ ComesBack d (p.drop (d.length + 1)) := by
  obtain ⟨rest, rfl⟩ := hpolicy.accepted hd h
  have hrest : (d ++ '/' :: rest).drop (d.length + 1) = rest := by
    rw [← List.drop_drop, List.drop_left, List.drop_succ_cons, List.drop_zero]
  rw [hrest, resolved_append, prefix_walk_iff]
  rfl

/-- Reading below `/data` alone. -/
def belowData : LcnAccessPolicy where
  endpoints := none
  binaries := none
  paths := some [
    { pattern := "/data/**".toList, allow := true, canRead := true, canWrite := false }]
  denyPrivate := false
  defaultDeny := true

theorem belowData_onlyBelow : OnlyBelow belowData "/data".toList where
  defaultDeny := rfl
  rules := ⟨_, rfl, by decide⟩

theorem data_literal : LiteralDir "/data".toList where
  absolute := rfl
  noStar := by decide
  noDots := by decide +kernel

/-- A path below `/data` that stays there. -/
theorem confined_inside :
    resolved "/data".toList <+: resolved "/data/a/../b".toList ↔
      ComesBack "/data".toList ("/data/a/../b".toList.drop 6) :=
  confined_iff data_literal belowData_onlyBelow
    (show aclCheckPath false "/data/a/../b".toList (some belowData) = none by decide +kernel)

/-- `/data/../etc/passwd` is accepted, and is not below `/data`. -/
theorem dotdot_escapes :
    aclCheckPath false "/data/../etc/passwd".toList (some belowData) = none ∧
      ¬ resolved "/data".toList <+: resolved "/data/../etc/passwd".toList := by
  exact ⟨by decide +kernel, by decide +kernel⟩

end Limceron.Access
