/-
# `Limceron.Package.Semver` — the order of versions, and the constraints on them

`src/package.c`.  A version is read as three numbers of 32 bits, compared one after the
other by their difference.  The order that is meant (`semverKey`) has the strings that are
no version below all others.  The comparison agrees with it where

| | |
| :-- | :-- |
| one of the two is a version | two others are each below the other |
| the difference that decides is one of 32 bits | else its sign is wrong |

and the constraints are the intervals they are meant to be where no number after the first
one is negative (`semver_meets_iff`).
-/
import Limceron.Access.Policy
import Mathlib

namespace Limceron.Package

open Access
open Caps (CString)

/-! ## Versions -/

structure LcnSemver where
  major : Int32
  minor : Int32
  patch : Int32
  deriving DecidableEq

/-- `%d` of `sscanf`: a number, and what is behind it. -/
def scanInt (s : CString) : Option (Int32 × CString) :=
  let behind := (sign (s.dropWhile isSpace)).2
  if behind.takeWhile isDigit = [] then none
  else some (.ofInt (strtol s), behind.dropWhile isDigit)

/-- `.%d`. -/
def scanField (s : CString) : Option (Int32 × CString) := (scanLiteral '.' s).bind scanInt

/-- `sscanf(str, "%d.%d.%d", …)`: what is not read stays zero. -/
def scanVersion (s : CString) : Option LcnSemver :=
  match scanInt s with
  | none => none
  | some (major, s) =>
      match scanField s with
      | none => some ⟨major, 0, 0⟩
      | some (minor, s) =>
          match scanField s with
          | none => some ⟨major, minor, 0⟩
          | some (patch, _) => some ⟨major, minor, patch⟩

/-- `semver_parse`. -/
def semverParse (str : CString) : Option LcnSemver :=
  match str with
  | [] => scanVersion []
  | c :: s => if c = 'v' ∨ c = 'V' then scanVersion s else scanVersion (c :: s)

/-- `semver_compare` of two versions; the subtraction wraps around. -/
def compareFields (a b : LcnSemver) : Int32 :=
  if a.major ≠ b.major then a.major - b.major
  else if a.minor ≠ b.minor then a.minor - b.minor
  else a.patch - b.patch

def semverCompare (a b : CString) : Int32 :=
  match semverParse a with
  | none => -1
  | some sa =>
      match semverParse b with
      | none => 1
      | some sb => compareFields sa sb

/-! ## Constraints -/

/-- `^`. -/
def caretSatisfied (ver con : LcnSemver) : Bool :=
  if ver.major < con.major then false
  else if con.major < ver.major then false
  else if ver.minor < con.minor then false
  else if ver.minor = con.minor ∧ ver.patch < con.patch then false
  else true

/-- `~`. -/
def tildeSatisfied (ver con : LcnSemver) : Bool :=
  if ver.major ≠ con.major then false
  else if ver.minor ≠ con.minor then false
  else con.patch ≤ ver.patch

/-- `semver_satisfies` of a string that is a version. -/
def satisfiesParsed (ver : LcnSemver) (version : CString) (constraint : CString) : Bool :=
  match constraint with
  | '^' :: c => ((semverParse c).map (caretSatisfied ver)).getD false
  | '~' :: c => ((semverParse c).map (tildeSatisfied ver)).getD false
  | '>' :: '=' :: c => 0 ≤ semverCompare version c
  | '<' :: '=' :: c => semverCompare version c ≤ 0
  | '>' :: c => 0 < semverCompare version c
  | '<' :: c => semverCompare version c < 0
  | c => semverCompare version c = 0

def semverSatisfies (version constraint : CString) : Bool :=
  if constraint = ['*'] then true
  else
    match semverParse version with
    | none => false
    | some ver => satisfiesParsed ver version constraint

/-! ## What is meant -/

/-- The order by the three numbers. -/
abbrev Triple := ℤ ×ₗ ℤ ×ₗ ℤ

def triple (x y z : ℤ) : Triple := toLex (x, toLex (y, z))

def LcnSemver.key (v : LcnSemver) : Triple := triple v.major.toInt v.minor.toInt v.patch.toInt

/-- The order of strings: what is no version is below all versions. -/
def semverKey (s : CString) : WithBot Triple := (semverParse s).elim ⊥ fun v => (v.key : WithBot _)

inductive Op where
  | ge | gt | le | lt | caret | tilde | bare
  deriving DecidableEq

def Op.text : Op → CString
  | .ge => ">=".toList
  | .gt => ">".toList
  | .le => "<=".toList
  | .lt => "<".toList
  | .caret => "^".toList
  | .tilde => "~".toList
  | .bare => []

/-- The interval of a constraint. -/
def Op.Interval (ver con : LcnSemver) : Op → Prop
  | .ge => con.key ≤ ver.key
  | .gt => con.key < ver.key
  | .le => ver.key ≤ con.key
  | .lt => ver.key < con.key
  | .caret => con.key ≤ ver.key ∧ ver.key < triple (con.major.toInt + 1) 0 0
  | .tilde => con.key ≤ ver.key ∧ ver.key < triple con.major.toInt (con.minor.toInt + 1) 0
  | .bare => ver.key = con.key

/-- What is promised of a set of strings. -/
structure SemverMeets (S : Set CString) : Prop where
  antisymm : ∀ a ∈ S, ∀ b ∈ S, semverCompare a b < 0 ↔ 0 < semverCompare b a
  trans : ∀ a ∈ S, ∀ b ∈ S, ∀ c ∈ S,
    semverCompare a b ≤ 0 → semverCompare b c ≤ 0 → semverCompare a c ≤ 0
  zero : ∀ a ∈ S, ∀ b ∈ S, semverCompare a b = 0 ↔ semverParse a = semverParse b
  below : ∀ a ∈ S, ∀ b ∈ S, semverCompare a b < 0 ↔ semverKey a < semverKey b
  interval : ∀ v ∈ S, ∀ c ∈ S, ∀ ver con, semverParse v = some ver → semverParse c = some con →
    ∀ op : Op, semverSatisfies v (op.text ++ c) = true ↔ op.Interval ver con
  complement : ∀ v ∈ S, ∀ c ∈ S, (semverParse v).isSome → (semverParse c).isSome →
    (semverSatisfies v (Op.ge.text ++ c) = true ↔ ¬ semverSatisfies v (Op.lt.text ++ c) = true)
  implied : ∀ v ∈ S, ∀ c ∈ S, (semverParse v).isSome → (semverParse c).isSome →
    (semverSatisfies v (Op.tilde.text ++ c) = true → semverSatisfies v (Op.caret.text ++ c) = true) ∧
      (semverSatisfies v (Op.caret.text ++ c) = true → semverSatisfies v (Op.ge.text ++ c) = true)

/-! ## When it is kept -/

/-- The difference that decides. -/
def gap (a b : LcnSemver) : ℤ :=
  if a.major ≠ b.major then a.major.toInt - b.major.toInt
  else if a.minor ≠ b.minor then a.minor.toInt - b.minor.toInt
  else a.patch.toInt - b.patch.toInt

/-- One of the two is a version, and if both are, the difference that decides is one of 32
bits. -/
def Comparable (a b : CString) : Prop :=
  (semverParse a ≠ none ∨ semverParse b ≠ none) ∧
    ∀ sa ∈ semverParse a, ∀ sb ∈ semverParse b, -2 ^ 31 ≤ gap sa sb ∧ gap sa sb < 2 ^ 31

/-- The first version is not one that has a negative number just below the bound of a
constraint on the second. -/
def Clear (ver con : LcnSemver) : Prop :=
  ¬ (ver.major.toInt = con.major.toInt + 1 ∧
      (ver.minor < 0 ∨ ver.minor = 0 ∧ ver.patch < 0)) ∧
    ¬ (ver.major = con.major ∧ ver.minor.toInt = con.minor.toInt + 1 ∧ ver.patch < 0)

/-! ## Machine integers -/

theorem eq_iff_toInt {x y : Int32} : x = y ↔ x.toInt = y.toInt := Int32.toInt_inj.symm

theorem triple_lt {x y z x' y' z' : ℤ} :
    triple x y z < triple x' y' z' ↔ x < x' ∨ x = x' ∧ (y < y' ∨ y = y' ∧ z < z') := by
  simp [triple, Prod.Lex.toLex_lt_toLex]

theorem triple_le {x y z x' y' z' : ℤ} :
    triple x y z ≤ triple x' y' z' ↔ x < x' ∨ x = x' ∧ (y < y' ∨ y = y' ∧ z ≤ z') := by
  simp [triple, Prod.Lex.toLex_le_toLex]

theorem triple_inj {x y z x' y' z' : ℤ} :
    triple x y z = triple x' y' z' ↔ x = x' ∧ y = y' ∧ z = z' := by
  simp [triple]

theorem key_inj {a b : LcnSemver} : a.key = b.key ↔ a = b := by
  rw [LcnSemver.key, LcnSemver.key, triple_inj, ← eq_iff_toInt, ← eq_iff_toInt, ← eq_iff_toInt]
  cases a
  cases b
  simp

theorem bmod_eq (d : ℤ) : d.bmod (2 ^ 32) =
    if d % 4294967296 < 2147483648 then d % 4294967296 else d % 4294967296 - 4294967296 := rfl

/-- The sign of a difference of 32 bits. -/
theorem sub_sign (x y : Int32) :
    (x - y = 0 ↔ x = y) ∧
      ((x - y < 0 ↔ x < y) ↔ -2 ^ 31 ≤ x.toInt - y.toInt ∧ x.toInt - y.toInt < 2 ^ 31) := by
  have hx := x.toInt_lt
  have hx' := x.le_toInt
  have hy := y.toInt_lt
  have hy' := y.le_toInt
  rw [Int32.lt_iff_toInt_lt, Int32.lt_iff_toInt_lt, eq_iff_toInt, eq_iff_toInt, Int32.toInt_sub,
    bmod_eq, Int32.toInt_zero]
  generalize x.toInt = x at *
  generalize y.toInt = y at *
  split
  · constructor
    · omega
    · omega
  · constructor
    · omega
    · omega

/-- The comparison is that of the keys, where the deciding difference has 32 bits. -/
theorem compareFields_sign (a b : LcnSemver) :
    (compareFields a b = 0 ↔ a = b) ∧
      ((compareFields a b < 0 ↔ a.key < b.key) ↔ -2 ^ 31 ≤ gap a b ∧ gap a b < 2 ^ 31) := by
  obtain ⟨x, y, z⟩ := a
  obtain ⟨x', y', z'⟩ := b
  simp only [compareFields, gap, LcnSemver.key, triple_lt, LcnSemver.mk.injEq,
    ← Int32.lt_iff_toInt_lt, ← eq_iff_toInt]
  by_cases hx : x = x'
  · subst hx
    by_cases hy : y = y'
    · subst hy
      simpa using sub_sign z z'
    · simpa [hy] using sub_sign y y'
  · simpa [hx] using sub_sign x x'

theorem int32_trichotomy (x : Int32) : (0 < x ↔ ¬ x < 0 ∧ x ≠ 0) ∧ (x ≤ 0 ↔ ¬ 0 < x) ∧
    (0 ≤ x ↔ ¬ x < 0) := by
  rw [Int32.lt_iff_toInt_lt, Int32.lt_iff_toInt_lt, Int32.le_iff_toInt_le, Int32.le_iff_toInt_le,
    Ne, eq_iff_toInt, Int32.toInt_zero]
  omega

/-! ## Constraints are split from their versions -/

/-- A text that starts with another character is no version. -/
theorem semverParse_none {c : Char} (hspace : isSpace c = false) (hdigit : isDigit c = false)
    (hsign : c ≠ '-' ∧ c ≠ '+') (hletter : c ≠ 'v' ∧ c ≠ 'V') (s : CString) :
    semverParse (c :: s) = none := by
  have hdrop : (c :: s).dropWhile isSpace = c :: s := by simp [hspace]
  have hno : sign (c :: s) = (false, c :: s) := by
    unfold sign
    split
    · next heq => exact absurd (List.cons.inj heq).1 hsign.1
    · next heq => exact absurd (List.cons.inj heq).1 hsign.2
    · rfl
  have hscan : scanInt (c :: s) = none := by
    rw [scanInt, hdrop, hno]
    simp [hdigit]
  rw [semverParse, if_neg (by simp [hletter]), scanVersion, hscan]

theorem satisfiesParsed_bare (ver : LcnSemver) (v : CString) {c : CString}
    (h : semverParse c ≠ none) : satisfiesParsed ver v c = decide (semverCompare v c = 0) := by
  unfold satisfiesParsed
  split
  · exact absurd (semverParse_none (by decide) (by decide) (by decide) (by decide) _) h
  · exact absurd (semverParse_none (by decide) (by decide) (by decide) (by decide) _) h
  · exact absurd (semverParse_none (by decide) (by decide) (by decide) (by decide) _) h
  · exact absurd (semverParse_none (by decide) (by decide) (by decide) (by decide) _) h
  · exact absurd (semverParse_none (by decide) (by decide) (by decide) (by decide) _) h
  · exact absurd (semverParse_none (by decide) (by decide) (by decide) (by decide) _) h
  · rfl

/-- What a constraint asks of two versions. -/
def Op.asks (ver con : LcnSemver) : Op → Prop
  | .ge => 0 ≤ compareFields ver con
  | .gt => 0 < compareFields ver con
  | .le => compareFields ver con ≤ 0
  | .lt => compareFields ver con < 0
  | .caret => caretSatisfied ver con = true
  | .tilde => tildeSatisfied ver con = true
  | .bare => compareFields ver con = 0

theorem semverSatisfies_iff {v c : CString} {ver con : LcnSemver} (hv : semverParse v = some ver)
    (hc : semverParse c = some con) (op : Op) :
    semverSatisfies v (op.text ++ c) = true ↔ op.asks ver con := by
  have hcompare : semverCompare v c = compareFields ver con := by
    rw [semverCompare, hv]
    dsimp only
    rw [hc]
  have hequals (s : CString) : c ≠ '=' :: s := by
    rintro rfl
    rw [semverParse_none (by decide) (by decide) (by decide) (by decide)] at hc
    cases hc
  have hstar : op.text ++ c ≠ ['*'] := by
    cases op with
    | bare =>
        rintro rfl
        rw [semverParse_none (by decide) (by decide) (by decide) (by decide)] at hc
        cases hc
    | _ => exact fun heq => absurd (List.cons.inj heq).1 (by decide)
  rw [semverSatisfies, if_neg hstar, hv]
  dsimp only
  cases op with
  | ge => simp [Op.text, satisfiesParsed, Op.asks, hcompare]
  | gt =>
      change satisfiesParsed ver v ('>' :: c) = true ↔ 0 < compareFields ver con
      rw [← hcompare, satisfiesParsed.eq_def]
      split
      all_goals simp_all
  | le => simp [Op.text, satisfiesParsed, Op.asks, hcompare]
  | lt =>
      change satisfiesParsed ver v ('<' :: c) = true ↔ compareFields ver con < 0
      rw [← hcompare, satisfiesParsed.eq_def]
      split
      all_goals simp_all
  | caret => simp [Op.text, satisfiesParsed, Op.asks, hc]
  | tilde => simp [Op.text, satisfiesParsed, Op.asks, hc]
  | bare =>
      rw [Op.text, List.nil_append, satisfiesParsed_bare ver v (by simp [hc]), hcompare]
      simp [Op.asks]

/-! ## Intervals -/

theorem caretSatisfied_iff (ver con : LcnSemver) :
    caretSatisfied ver con = true ↔ ver.major.toInt = con.major.toInt ∧
      (con.minor.toInt < ver.minor.toInt ∨
        ver.minor.toInt = con.minor.toInt ∧ con.patch.toInt ≤ ver.patch.toInt) := by
  simp only [caretSatisfied, Int32.lt_iff_toInt_lt, eq_iff_toInt]
  split_ifs <;> simp <;> omega

theorem tildeSatisfied_iff (ver con : LcnSemver) :
    tildeSatisfied ver con = true ↔ ver.major.toInt = con.major.toInt ∧
      ver.minor.toInt = con.minor.toInt ∧ con.patch.toInt ≤ ver.patch.toInt := by
  simp only [tildeSatisfied, Int32.le_iff_toInt_le, ne_eq, eq_iff_toInt]
  split_ifs <;> simp <;> omega

theorem caret_interval (ver con : LcnSemver) :
    (Op.caret.asks ver con ↔ Op.caret.Interval ver con) ↔
      ¬ (ver.major.toInt = con.major.toInt + 1 ∧
        (ver.minor < 0 ∨ ver.minor = 0 ∧ ver.patch < 0)) := by
  simp only [Op.asks, caretSatisfied_iff, Op.Interval, LcnSemver.key, triple_lt, triple_le,
    Int32.lt_iff_toInt_lt, eq_iff_toInt, Int32.toInt_zero]
  omega

theorem tilde_interval (ver con : LcnSemver) :
    (Op.tilde.asks ver con ↔ Op.tilde.Interval ver con) ↔
      ¬ (ver.major = con.major ∧ ver.minor.toInt = con.minor.toInt + 1 ∧ ver.patch < 0) := by
  simp only [Op.asks, tildeSatisfied_iff, Op.Interval, LcnSemver.key, triple_lt, triple_le,
    Int32.lt_iff_toInt_lt, eq_iff_toInt, Int32.toInt_zero]
  omega

/-- The other constraints go with the comparison. -/
theorem order_interval {ver con : LcnSemver} (h : -2 ^ 31 ≤ gap ver con ∧ gap ver con < 2 ^ 31)
    {op : Op} (hop : op ≠ .caret ∧ op ≠ .tilde) : op.asks ver con ↔ op.Interval ver con := by
  obtain ⟨hzero, hsign⟩ := compareFields_sign ver con
  have hneg := hsign.2 h
  rw [← key_inj] at hzero
  obtain ⟨hpos, hle, hge⟩ := int32_trichotomy (compareFields ver con)
  have hgt : con.key < ver.key ↔ ¬ ver.key < con.key ∧ ver.key ≠ con.key := by
    rw [not_lt, lt_iff_le_and_ne, ne_comm]
  cases op with
  | ge => rw [Op.asks, Op.Interval, hge, hneg, not_lt]
  | gt => rw [Op.asks, Op.Interval, hpos, hneg, Ne, hzero, hgt]
  | le => rw [Op.asks, Op.Interval, hle, hpos, hneg, Ne, hzero, ← hgt, not_lt]
  | lt => rw [Op.asks, Op.Interval, hneg]
  | caret => exact absurd rfl hop.1
  | tilde => exact absurd rfl hop.2
  | bare => rw [Op.asks, Op.Interval, hzero]

/-! ## The comparison of strings -/

theorem semverCompare_cases (a b : CString) :
    (semverParse a = none ∧ semverCompare a b = -1) ∨
      (∃ sa, semverParse a = some sa ∧ semverParse b = none ∧ semverCompare a b = 1) ∨
      ∃ sa sb, semverParse a = some sa ∧ semverParse b = some sb ∧
        semverCompare a b = compareFields sa sb := by
  unfold semverCompare
  rcases ha : semverParse a with _ | sa
  · exact .inl ⟨rfl, rfl⟩
  · right
    rcases hb : semverParse b with _ | sb
    · exact .inl ⟨sa, rfl, rfl, rfl⟩
    · exact .inr ⟨sa, sb, rfl, rfl, rfl⟩

/-- The comparison is the order of the keys. -/
theorem semverCompare_key {a b : CString} (h : Comparable a b) :
    (semverCompare a b < 0 ↔ semverKey a < semverKey b) ∧
      (semverCompare a b = 0 ↔ semverKey a = semverKey b) := by
  obtain ⟨hsome, hrange⟩ := h
  unfold semverKey
  rcases semverCompare_cases a b with ⟨ha, heq⟩ | ⟨sa, ha, hb, heq⟩ | ⟨sa, sb, ha, hb, heq⟩
  · obtain ⟨sb, hb⟩ := Option.ne_none_iff_exists'.1 (hsome.resolve_left (not_not.2 ha))
    rw [heq, ha, hb]
    simp [WithBot.bot_lt_coe]
  · rw [heq, ha, hb]
    simp
  · obtain ⟨hzero, hsign⟩ := compareFields_sign sa sb
    rw [heq, ha, hb]
    simp [hzero, hsign.2 (hrange sa ha sb hb), key_inj]

theorem semverCompare_pos {a b : CString} (h : Comparable a b) :
    (0 < semverCompare a b ↔ semverKey b < semverKey a) ∧
      (semverCompare a b ≤ 0 ↔ semverKey a ≤ semverKey b) := by
  obtain ⟨hneg, hzero⟩ := semverCompare_key h
  obtain ⟨hpos, hle, -⟩ := int32_trichotomy (semverCompare a b)
  have hgt : semverKey b < semverKey a ↔
      ¬ semverKey a < semverKey b ∧ semverKey a ≠ semverKey b := by
    rw [not_lt, lt_iff_le_and_ne, ne_comm]
  constructor
  · rw [hpos, hneg, Ne, hzero, hgt]
  · rw [hle, hpos, hneg, Ne, hzero, ← hgt, not_lt]

theorem semverKey_inj {a b : CString} :
    semverKey a = semverKey b ↔ semverParse a = semverParse b := by
  unfold semverKey
  rcases semverParse a with _ | sa
  · rcases semverParse b with _ | sb <;> simp
  · rcases semverParse b with _ | sb <;> simp [key_inj]

/-- Each two of the strings, in this order, can be compared, and are clear of the bounds. -/
def Sound (S : Set CString) : Prop :=
  ∀ a ∈ S, ∀ b ∈ S, Comparable a b ∧
    ∀ ver ∈ semverParse a, ∀ con ∈ semverParse b, Clear ver con

theorem SemverMeets.sound {S : Set CString} (h : SemverMeets S) : Sound S := by
  intro a ha b hb
  refine ⟨⟨?_, ?_⟩, ?_⟩
  · by_contra hnone
    push Not at hnone
    have hzero := (h.zero a ha b hb).2 (hnone.1.trans hnone.2.symm)
    rw [semverCompare, hnone.1] at hzero
    change (-1 : Int32) = 0 at hzero
    exact absurd hzero (by decide)
  · intro sa hsa sb hsb
    rcases semverCompare_cases a b with ⟨hna, -⟩ | ⟨-, -, hnb, -⟩ | ⟨x, y, hx, hy, heq⟩
    · rw [hna] at hsa
      cases hsa
    · rw [hnb] at hsb
      cases hsb
    · obtain rfl := Option.some.inj (hx.symm.trans hsa)
      obtain rfl := Option.some.inj (hy.symm.trans hsb)
      have hbelow := h.below a ha b hb
      rw [heq, semverKey, semverKey, hx, hy] at hbelow
      exact (compareFields_sign x y).2.1 (hbelow.trans WithBot.coe_lt_coe)
  · intro ver hver con hcon
    have hinterval (op : Op) : op.asks ver con ↔ op.Interval ver con :=
      (semverSatisfies_iff hver hcon op).symm.trans
        (h.interval a ha b hb ver con hver hcon op)
    exact ⟨(caret_interval ver con).1 (hinterval .caret),
      (tilde_interval ver con).1 (hinterval .tilde)⟩

theorem Sound.meets {S : Set CString} (h : Sound S) : SemverMeets S := by
  have hinterval : ∀ v ∈ S, ∀ c ∈ S, ∀ ver con, semverParse v = some ver →
      semverParse c = some con →
        ∀ op : Op, semverSatisfies v (op.text ++ c) = true ↔ op.Interval ver con := by
    intro v hv c hc ver con hver hcon op
    obtain ⟨⟨-, hrange⟩, hclear⟩ := h v hv c hc
    rw [semverSatisfies_iff hver hcon op]
    by_cases hcaret : op = .caret
    · subst hcaret
      exact (caret_interval ver con).2 (hclear ver hver con hcon).1
    by_cases htilde : op = .tilde
    · subst htilde
      exact (tilde_interval ver con).2 (hclear ver hver con hcon).2
    · exact order_interval (hrange ver hver con hcon) ⟨hcaret, htilde⟩
  refine ⟨?_, ?_, ?_, ?_, hinterval, ?_, ?_⟩
  · intro a ha b hb
    rw [(semverCompare_key (h a ha b hb).1).1, (semverCompare_pos (h b hb a ha).1).1]
  · intro a ha b hb c hc hab hbc
    rw [(semverCompare_pos (h a ha b hb).1).2] at hab
    rw [(semverCompare_pos (h b hb c hc).1).2] at hbc
    rw [(semverCompare_pos (h a ha c hc).1).2]
    exact hab.trans hbc
  · intro a ha b hb
    rw [(semverCompare_key (h a ha b hb).1).2, semverKey_inj]
  · intro a ha b hb
    exact (semverCompare_key (h a ha b hb).1).1
  · intro v hv c hc hver hcon
    obtain ⟨ver, hver⟩ := Option.isSome_iff_exists.1 hver
    obtain ⟨con, hcon⟩ := Option.isSome_iff_exists.1 hcon
    rw [hinterval v hv c hc ver con hver hcon, hinterval v hv c hc ver con hver hcon]
    exact not_lt.symm
  · intro v hv c hc hver hcon
    obtain ⟨ver, hver⟩ := Option.isSome_iff_exists.1 hver
    obtain ⟨con, hcon⟩ := Option.isSome_iff_exists.1 hcon
    rw [hinterval v hv c hc ver con hver hcon, hinterval v hv c hc ver con hver hcon,
      hinterval v hv c hc ver con hver hcon]
    refine ⟨fun htilde => ⟨htilde.1, htilde.2.trans ?_⟩, fun hcaret => hcaret.1⟩
    rw [triple_lt]
    omega

/-- A set of strings is ordered, and its constraints are intervals, if and only if it is
sound. -/
theorem semver_meets_iff (S : Set CString) : SemverMeets S ↔ Sound S :=
  ⟨SemverMeets.sound, Sound.meets⟩

/-- A string that is no version is below itself. -/
theorem not_semverMeets : ¬ SemverMeets Set.univ := by
  intro h
  have hlatest := (h.zero "latest".toList trivial "latest".toList trivial).2 rfl
  exact absurd hlatest (by decide)

end Limceron.Package
