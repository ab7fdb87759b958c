/-
# `Limceron.Lib.Binary64` — rounding to the numbers of the binary64 format

A finite binary64 number is `m * 2 ^ e` for an integer `m` of at most 53 binary digits
and an exponent `e` from `-1074` on, below `2 ^ 1024`.  A rational number is rounded to
the nearest multiple of its last place, ties to the even multiple:

| rounding      | the last place                              |
|---------------|---------------------------------------------|
| `unbounded q` | 52 places behind the leading digit of `q`   |
| `bounded q`   | the same, but never below `2 ^ (-1074)`     |

`ofRat` is the second, and an infinity where the result reaches `2 ^ 1024`.  A number of
the format is left as it is (`ofRat_of_representable`), and what is nearer to one than half
the distance to the next is rounded to it (`bounded_of_near`).  `Underflows` is the
exception flag of that name: the result is tiny and not exact.

The sign of a zero is not kept.
-/
import Mathlib.Algebra.Order.Field.Power
import Mathlib.Data.Int.Log
import Mathlib.Data.Rat.Floor
import Mathlib.Tactic.Linarith
import Mathlib.Tactic.NormNum
import Mathlib.Tactic.Positivity
import Mathlib.Tactic.GCongr
import Mathlib.Tactic.FieldSimp
import Mathlib.Tactic.Ring

namespace Binary64

/-! ## The nearest integer -/

/-- The nearest integer; of two, the even one. -/
def nearest (q : ℚ) : ℤ :=
  if q - ⌊q⌋ < 1 / 2 then ⌊q⌋
  else if 1 / 2 < q - ⌊q⌋ then ⌊q⌋ + 1
  else if ⌊q⌋ % 2 = 0 then ⌊q⌋ else ⌊q⌋ + 1

theorem nearest_intCast (n : ℤ) : nearest n = n := by
  have hfloor : ⌊(n : ℚ)⌋ = n := Int.floor_intCast n
  have hhalf : (n : ℚ) - (⌊(n : ℚ)⌋ : ℚ) < 1 / 2 := by
    rw [hfloor, sub_self]
    norm_num
  rw [nearest, if_pos hhalf, hfloor]

theorem floor_le_nearest (q : ℚ) : ⌊q⌋ ≤ nearest q := by
  unfold nearest
  split_ifs <;> omega

theorem nearest_le_floor_add_one (q : ℚ) : nearest q ≤ ⌊q⌋ + 1 := by
  unfold nearest
  split_ifs <;> omega

/-- Rounding does not pass an integer. -/
theorem nearest_le {q : ℚ} {n : ℤ} (h : q ≤ n) : nearest q ≤ n := by
  rcases lt_or_eq_of_le h with hlt | rfl
  · have hfloor : ⌊q⌋ < n := Int.floor_lt.2 hlt
    have := nearest_le_floor_add_one q
    omega
  · rw [nearest_intCast]

theorem le_nearest {q : ℚ} {n : ℤ} (h : (n : ℚ) ≤ q) : n ≤ nearest q :=
  (Int.le_floor.2 h).trans (floor_le_nearest q)

theorem abs_nearest_le {q : ℚ} {n : ℤ} (h : |q| ≤ n) : |nearest q| ≤ n := by
  obtain ⟨hlower, hupper⟩ := abs_le.1 h
  refine abs_le.2 ⟨le_nearest ?_, nearest_le hupper⟩
  push_cast
  exact hlower

theorem abs_nearest_sub_le (q : ℚ) : |nearest q - q| ≤ 1 / 2 := by
  have hlower := Int.floor_le q
  have hupper := Int.lt_floor_add_one q
  unfold nearest
  split_ifs with hlow hhigh
  · rw [abs_le]
    constructor
    · linarith
    · linarith
  · push_cast
    rw [abs_le]
    constructor
    · linarith
    · linarith
  · rw [abs_le]
    constructor
    · linarith
    · linarith
  · push_cast
    rw [abs_le]
    constructor
    · linarith
    · linarith

/-! ## The nearest multiple of a power of two -/

theorem two_zpow_pos (e : ℤ) : (0 : ℚ) < 2 ^ e := zpow_pos two_pos e

theorem zpow_lt_pow {e : ℤ} {n : ℕ} (h : e < n) : (2 : ℚ) ^ e < 2 ^ n := by
  rw [← zpow_natCast]
  exact zpow_lt_zpow_right₀ one_lt_two h

def nearestMultiple (e : ℤ) (q : ℚ) : ℚ := nearest (q / 2 ^ e) * 2 ^ e

theorem nearestMultiple_of_multiple {e : ℤ} {q : ℚ} {m : ℤ} (h : q = m * 2 ^ e) :
    nearestMultiple e q = q := by
  rw [nearestMultiple, h, mul_div_assoc, div_self (two_zpow_pos e).ne', mul_one,
    nearest_intCast]

/-- A multiple of a power of two is a multiple of the smaller powers. -/
theorem multiple_of_le {d e : ℤ} (h : d ≤ e) (m : ℤ) :
    ∃ k : ℤ, (m : ℚ) * 2 ^ e = k * 2 ^ d := by
  obtain ⟨j, hj⟩ := Int.le.dest h
  refine ⟨m * 2 ^ j, ?_⟩
  push_cast
  rw [← hj, zpow_add₀ two_ne_zero, zpow_natCast]
  ring

/-! ## The format -/

structure Representable (q : ℚ) : Prop where
  digits : ∃ m e : ℤ, |m| ≤ 2 ^ 53 ∧ -1074 ≤ e ∧ q = m * 2 ^ e
  range : |q| < 2 ^ 1024

/-- A number of the format, or an infinity. -/
inductive Double where
  | finite (q : ℚ) (h : Representable q)
  | infinite (negative : Bool)
  deriving DecidableEq

def Double.isInfinite : Double → Bool
  | .finite _ _ => false
  | .infinite _ => true

theorem representable_intCast {n : ℤ} (h : |n| ≤ 2 ^ 53) : Representable n where
  digits := ⟨n, 0, h, by norm_num, by simp⟩
  range := by
    have hcast : |(n : ℚ)| ≤ 2 ^ 53 := by exact_mod_cast h
    exact hcast.trans_lt (pow_lt_pow_right₀ one_lt_two (by norm_num))

/-- The exponent of the 53rd binary digit. -/
def lastPlace (q : ℚ) : ℤ := Int.log 2 |q| - 52

def unbounded (q : ℚ) : ℚ := nearestMultiple (lastPlace q) q

def bounded (q : ℚ) : ℚ := nearestMultiple (max (lastPlace q) (-1074)) q

def Underflows (q : ℚ) : Prop := |unbounded q| < 2 ^ (-1022 : ℤ) ∧ bounded q ≠ q

instance (q : ℚ) : Decidable (Underflows q) := inferInstanceAs (Decidable (_ ∧ _))

/-- A number has at most 53 digits before its last place. -/
theorem abs_nearest_place {q : ℚ} {e : ℤ} (h : lastPlace q ≤ e) :
    |nearest (q / 2 ^ e)| ≤ 2 ^ 53 := by
  have hpos := two_zpow_pos e
  have hlog : |q| < 2 ^ (Int.log 2 |q| + 1) := by
    exact_mod_cast Int.lt_zpow_succ_log_self (by norm_num) |q|
  have hplaces : Int.log 2 |q| + 1 ≤ 53 + e := by
    have hlast : lastPlace q = Int.log 2 |q| - 52 := rfl
    omega
  have hsize : |q / 2 ^ e| ≤ ((2 ^ 53 : ℤ) : ℚ) := by
    rw [abs_div, abs_of_pos hpos, div_le_iff₀ hpos]
    calc |q| ≤ 2 ^ (Int.log 2 |q| + 1) := hlog.le
      _ ≤ 2 ^ ((53 : ℤ) + e) := zpow_le_zpow_right₀ one_le_two hplaces
      _ = ((2 ^ 53 : ℤ) : ℚ) * 2 ^ e := by
          rw [zpow_add₀ two_ne_zero]
          norm_num
  exact abs_nearest_le hsize

theorem abs_nearest_bounded (q : ℚ) :
    |nearest (q / 2 ^ max (lastPlace q) (-1074))| ≤ 2 ^ 53 :=
  abs_nearest_place (le_max_left _ _)

theorem bounded_digits (q : ℚ) :
    ∃ m e : ℤ, |m| ≤ 2 ^ 53 ∧ -1074 ≤ e ∧ bounded q = m * 2 ^ e :=
  ⟨_, _, abs_nearest_bounded q, le_max_right _ _, rfl⟩

/-- The double nearest to a rational number. -/
def ofRat (q : ℚ) : Double :=
  if h : |bounded q| < 2 ^ 1024 then .finite (bounded q) ⟨bounded_digits q, h⟩
  else .infinite (q < 0)

/-! ## Numbers of the format are kept -/

theorem lastPlace_le {q : ℚ} {m e : ℤ} (hm : |m| < 2 ^ 53) (h : q = m * 2 ^ e) (hq : q ≠ 0) :
    lastPlace q ≤ e := by
  have hsize : |q| < 2 ^ (e + 53) := by
    have hdigits : |(m : ℚ)| < 2 ^ 53 := by exact_mod_cast hm
    calc |q| = |(m : ℚ)| * 2 ^ e := by rw [h, abs_mul, abs_of_pos (two_zpow_pos e)]
      _ < 2 ^ 53 * 2 ^ e := mul_lt_mul_of_pos_right hdigits (two_zpow_pos e)
      _ = 2 ^ (e + 53) := by
          rw [zpow_add₀ two_ne_zero, mul_comm]
          norm_num
  have hlog : (2 : ℚ) ^ Int.log 2 |q| ≤ |q| := by
    exact_mod_cast Int.zpow_log_le_self (by norm_num) (abs_pos.2 hq)
  have hlt : Int.log 2 |q| < e + 53 :=
    (zpow_lt_zpow_iff_right₀ one_lt_two).1 (hlog.trans_lt hsize)
  have hlast : lastPlace q = Int.log 2 |q| - 52 := rfl
  omega

/-- The 53 digits may be taken not to be a power of two. -/
theorem Representable.normal {q : ℚ} (h : Representable q) :
    ∃ m e : ℤ, |m| < 2 ^ 53 ∧ -1074 ≤ e ∧ q = m * 2 ^ e := by
  obtain ⟨m, e, hm, he, hq⟩ := h.digits
  rcases lt_or_eq_of_le hm with hlt | heq
  · exact ⟨m, e, hlt, he, hq⟩
  · obtain ⟨k, hk⟩ : (2 : ℤ) ∣ m := by
      rcases abs_eq (by norm_num : (0 : ℤ) ≤ 2 ^ 53) |>.1 heq with rfl | rfl
      · exact ⟨2 ^ 52, by norm_num⟩
      · exact ⟨-2 ^ 52, by norm_num⟩
    subst hk
    refine ⟨k, e + 1, ?_, by omega, ?_⟩
    · rw [abs_mul] at heq
      norm_num at heq ⊢
      omega
    · rw [hq, zpow_add_one₀ two_ne_zero]
      push_cast
      ring

theorem bounded_of_representable {q : ℚ} (h : Representable q) : bounded q = q := by
  obtain ⟨m, e, hm, he, hq⟩ := h.normal
  by_cases hzero : q = 0
  · exact nearestMultiple_of_multiple (m := 0) (by simp [hzero])
  · have hplace : max (lastPlace q) (-1074) ≤ e := max_le (lastPlace_le hm hq hzero) he
    obtain ⟨k, hk⟩ := multiple_of_le hplace m
    exact nearestMultiple_of_multiple (hq.trans hk)

theorem ofRat_of_representable {q : ℚ} (h : Representable q) : ofRat q = .finite q h := by
  have hbounded := bounded_of_representable h
  have hrange : |bounded q| < 2 ^ 1024 := by
    rw [hbounded]
    exact h.range
  rw [ofRat, dif_pos hrange]
  simp only [hbounded]

/-- An overflow is no underflow. -/
theorem not_underflows_of_infinite {q : ℚ} {negative : Bool} (h : ofRat q = .infinite negative) :
    ¬ Underflows q := by
  have hbig : ¬ |bounded q| < 2 ^ 1024 := by
    intro hsmall
    rw [ofRat, dif_pos hsmall] at h
    cases h
  rintro ⟨hsmall, -⟩
  refine hbig ?_
  rcases le_total (-1074) (lastPlace q) with hplace | hplace
  · have hsame : bounded q = unbounded q := by rw [bounded, max_eq_left hplace, unbounded]
    rw [hsame]
    exact hsmall.trans (zpow_lt_pow (by norm_num))
  · have hdigits : |(nearest (q / 2 ^ (-1074 : ℤ)) : ℚ)| ≤ 2 ^ 53 := by
      have := abs_nearest_bounded q
      rw [max_eq_right hplace] at this
      exact_mod_cast this
    calc |bounded q| = |(nearest (q / 2 ^ (-1074 : ℤ)) : ℚ)| * 2 ^ (-1074 : ℤ) := by
          rw [bounded, max_eq_right hplace, nearestMultiple, abs_mul,
            abs_of_pos (two_zpow_pos (-1074))]
      _ ≤ 2 ^ 53 * 2 ^ (-1074 : ℤ) := mul_le_mul_of_nonneg_right hdigits (two_zpow_pos _).le
      _ = 2 ^ ((53 : ℤ) + -1074) := by
          rw [zpow_add₀ two_ne_zero]
          norm_cast
      _ < 2 ^ 1024 := zpow_lt_pow (by norm_num)

theorem not_underflows {q : ℚ} (h : Representable q) : ¬ Underflows q :=
  fun hflag => hflag.2 (bounded_of_representable h)

/-! ## What is not tiny -/

/-- Rounding does not pass a power of two. -/
theorem zpow_le_unbounded {q : ℚ} {e : ℤ} (h : (2 : ℚ) ^ e ≤ |q|) : 2 ^ e ≤ |unbounded q| := by
  have hpos : 0 < |q| := (two_zpow_pos e).trans_le h
  have hlog : e ≤ Int.log 2 |q| := by
    have hmono := Int.log_mono_right (b := 2) (two_zpow_pos e) h
    rwa [show ((2 : ℚ) ^ e) = ((2 : ℕ) : ℚ) ^ e by norm_num, Int.log_zpow (by norm_num)] at hmono
  have hplace := two_zpow_pos (lastPlace q)
  have hdigits : (2 : ℚ) ^ (Int.log 2 |q|) = (2 ^ 52 : ℤ) * 2 ^ lastPlace q := by
    rw [show Int.log 2 |q| = 52 + lastPlace q by unfold lastPlace; omega, zpow_add₀ two_ne_zero]
    norm_num
  have hsize : (((2 ^ 52 : ℤ)) : ℚ) ≤ |q / 2 ^ lastPlace q| := by
    rw [abs_div, abs_of_pos hplace, le_div_iff₀ hplace, ← hdigits]
    exact_mod_cast Int.zpow_log_le_self (by norm_num) hpos
  have hnearest : (2 ^ 52 : ℤ) ≤ |nearest (q / 2 ^ lastPlace q)| := by
    rcases le_abs.1 hsize with hpositive | hnegative
    · exact (le_nearest hpositive).trans (le_abs_self _)
    · refine le_abs.2 (.inr ?_)
      have hupper : q / 2 ^ lastPlace q ≤ ((-2 ^ 52 : ℤ) : ℚ) := by
        push_cast at hnegative ⊢
        linarith
      have := nearest_le hupper
      omega
  calc (2 : ℚ) ^ e ≤ 2 ^ (Int.log 2 |q|) := zpow_le_zpow_right₀ one_le_two hlog
    _ = (2 ^ 52 : ℤ) * 2 ^ lastPlace q := hdigits
    _ ≤ |(nearest (q / 2 ^ lastPlace q) : ℚ)| * 2 ^ lastPlace q :=
        mul_le_mul_of_nonneg_right (by exact_mod_cast hnearest) hplace.le
    _ = |unbounded q| := by rw [unbounded, nearestMultiple, abs_mul, abs_of_pos hplace]

/-- Only what is tiny underflows. -/
theorem not_underflows_of_le {q : ℚ} (h : (2 : ℚ) ^ (-1022 : ℤ) ≤ |q|) : ¬ Underflows q :=
  fun hflag => (zpow_le_unbounded h).not_gt hflag.1

/-! ## What is near -/

theorem nearest_of_near {q : ℚ} {n : ℤ} (h : |q - n| < 1 / 2) : nearest q = n := by
  obtain ⟨hlower, hupper⟩ := abs_lt.1 h
  rcases lt_or_ge q n with hlt | hge
  · have hfloor : ⌊q⌋ = n - 1 := by
      rw [Int.floor_eq_iff]
      push_cast
      constructor
      · linarith
      · linarith
    have hhigh : 1 / 2 < q - (n - 1 : ℤ) := by
      push_cast
      linarith
    rw [nearest, hfloor, if_neg hhigh.not_gt, if_pos hhigh]
    omega
  · have hfloor : ⌊q⌋ = n := by
      rw [Int.floor_eq_iff]
      constructor
      · exact hge
      · linarith
    have hlow : q - (n : ℤ) < 1 / 2 := by linarith
    rw [nearest, hfloor, if_pos hlow]

theorem nearestMultiple_of_near {e : ℤ} {q v : ℚ} {m : ℤ} (hq : q = m * 2 ^ e)
    (h : |v - q| < 2 ^ e / 2) : nearestMultiple e v = q := by
  have hpos := two_zpow_pos e
  have hnear : |v / 2 ^ e - m| < 1 / 2 := by
    have hscale : v / 2 ^ e - m = (v - q) / 2 ^ e := by
      rw [hq]
      field_simp
    rw [hscale, abs_div, abs_of_pos hpos, div_lt_iff₀ hpos]
    linarith
  rw [nearestMultiple, nearest_of_near hnear, hq]

/-- The place that a number of the format ends at. -/
theorem Representable.place {q : ℚ} (h : Representable q) (hq : q ≠ 0) :
    ∃ m p : ℤ, q = m * 2 ^ p ∧ |m| < 2 ^ 53 ∧ -1074 ≤ p ∧ (p = -1074 ∨ 2 ^ 52 ≤ |m|) := by
  obtain ⟨k, e, hk, he, hqk⟩ := h.normal
  have hle : max (lastPlace q) (-1074) ≤ e := max_le (lastPlace_le hk hqk hq) he
  obtain ⟨m, hm⟩ := multiple_of_le hle k
  have hqm : q = m * 2 ^ max (lastPlace q) (-1074) := hqk.trans hm
  have hpos := two_zpow_pos (max (lastPlace q) (-1074))
  have habs : |q| = |m| * 2 ^ max (lastPlace q) (-1074) := by
    conv_lhs => rw [hqm]
    rw [abs_mul, abs_of_pos hpos, Int.cast_abs]
  have hlast : lastPlace q = Int.log 2 |q| - 52 := rfl
  refine ⟨m, max (lastPlace q) (-1074), hqm, ?_, le_max_right _ _, ?_⟩
  · have hlog : |q| < 2 ^ (Int.log 2 |q| + 1) := by
      exact_mod_cast Int.lt_zpow_succ_log_self (by norm_num) |q|
    have hupper : (|m| : ℚ) * 2 ^ max (lastPlace q) (-1074) <
        2 ^ 53 * 2 ^ max (lastPlace q) (-1074) := by
      calc (|m| : ℚ) * 2 ^ max (lastPlace q) (-1074) = |q| := by rw [habs, Int.cast_abs]
        _ < 2 ^ (Int.log 2 |q| + 1) := hlog
        _ ≤ 2 ^ ((53 : ℤ) + max (lastPlace q) (-1074)) :=
            zpow_le_zpow_right₀ one_le_two (by
              have := le_max_left (lastPlace q) (-1074)
              omega)
        _ = 2 ^ 53 * 2 ^ max (lastPlace q) (-1074) := by
            rw [zpow_add₀ two_ne_zero]
            norm_cast
    exact_mod_cast lt_of_mul_lt_mul_right hupper hpos.le
  · rcases le_total (lastPlace q) (-1074) with hlow | hhigh
    · exact .inl (max_eq_right hlow)
    · right
      have hlog : (2 : ℚ) ^ Int.log 2 |q| ≤ |q| := by
        exact_mod_cast Int.zpow_log_le_self (by norm_num) (abs_pos.2 hq)
      have hlower : (2 : ℚ) ^ 52 * 2 ^ max (lastPlace q) (-1074) ≤
          (|m| : ℚ) * 2 ^ max (lastPlace q) (-1074) := by
        calc (2 : ℚ) ^ 52 * 2 ^ max (lastPlace q) (-1074) = 2 ^ Int.log 2 |q| := by
              rw [max_eq_left hhigh, ← zpow_natCast, ← zpow_add₀ two_ne_zero]
              congr 1
              push_cast
              omega
          _ ≤ |q| := hlog
          _ = (|m| : ℚ) * 2 ^ max (lastPlace q) (-1074) := by rw [habs, Int.cast_abs]
      exact_mod_cast le_of_mul_le_mul_right hlower hpos

theorem two_zpow_add (p : ℤ) (n : ℕ) : (2 : ℚ) ^ (p + n) = 2 ^ n * 2 ^ p := by
  rw [zpow_add₀ two_ne_zero, zpow_natCast, mul_comm]

theorem le_lastPlace {v : ℚ} {p : ℤ} (h : 2 ^ 52 * 2 ^ p ≤ |v|) : p ≤ lastPlace v := by
  have hpos : 0 < |v| := (mul_pos (by norm_num) (two_zpow_pos p)).trans_le h
  rw [← two_zpow_add p 52] at h
  have hlog : p + 52 ≤ Int.log 2 |v| :=
    (Int.zpow_le_iff_le_log (by norm_num) hpos).1 (by exact_mod_cast h)
  unfold lastPlace
  omega

theorem lastPlace_lt {v : ℚ} (hv : v ≠ 0) {p : ℤ} (h : |v| < 2 ^ 52 * 2 ^ p) :
    lastPlace v < p := by
  rw [← two_zpow_add p 52] at h
  have hlog : Int.log 2 |v| < p + 52 :=
    (Int.lt_zpow_iff_log_lt (by norm_num) (abs_pos.2 hv)).1 (by exact_mod_cast h)
  unfold lastPlace
  omega

section Near

variable {q v : ℚ} {m p : ℤ}

theorem abs_digits (hqm : q = m * 2 ^ p) : |q| = |(m : ℚ)| * 2 ^ p := by
  rw [hqm, abs_mul, abs_of_pos (two_zpow_pos p)]

theorem ne_zero_of_near (hq : q ≠ 0) (hnear : |v - q| < |q| / 2 ^ 54) : v ≠ 0 := by
  rintro rfl
  rw [zero_sub, abs_neg, lt_div_iff₀ (by norm_num)] at hnear
  have := abs_pos.2 hq
  linarith

/-- It has no place above the last of the number. -/
theorem lastPlace_le_of_near (hqm : q = m * 2 ^ p) (hm : |m| < 2 ^ 53) (hq : q ≠ 0)
    (hnear : |v - q| < |q| / 2 ^ 54) : lastPlace v ≤ p := by
  have hpos := two_zpow_pos p
  have hdigits : |(m : ℚ)| + 1 ≤ 2 ^ 53 := by
    have : |m| + 1 ≤ 2 ^ 53 := hm
    exact_mod_cast this
  have hupper := mul_le_mul_of_nonneg_right hdigits hpos.le
  obtain ⟨-, habove⟩ := abs_lt.1 (lt_of_le_of_lt (abs_abs_sub_abs_le_abs_sub v q) hnear)
  rw [abs_digits hqm] at habove
  have hlt : lastPlace v < p + 1 := by
    refine lastPlace_lt (ne_zero_of_near hq hnear) ?_
    rw [zpow_add_one₀ two_ne_zero]
    linarith
  omega

theorem near_digits (hqm : q = m * 2 ^ p) (hm : |m| < 2 ^ 53)
    (hnear : |v - q| < |q| / 2 ^ 54) : |v - q| < 2 ^ p / 2 := by
  have hdigits : |(m : ℚ)| ≤ 2 ^ 53 := by exact_mod_cast hm.le
  have hupper := mul_le_mul_of_nonneg_right hdigits (two_zpow_pos p).le
  rw [abs_digits hqm] at hnear
  linarith

/-- A number of 53 digits. -/
theorem unbounded_of_near (hqm : q = m * 2 ^ p) (hm : |m| < 2 ^ 53) (hnormal : 2 ^ 52 ≤ |m|)
    (hq : q ≠ 0) (hnear : |v - q| < |q| / 2 ^ 54) : p - 1 ≤ lastPlace v ∧ unbounded v = q := by
  have hpos := two_zpow_pos p
  rcases eq_or_lt_of_le (lastPlace_le_of_near hqm hm hq hnear) with heq | hlt
  · refine ⟨by omega, ?_⟩
    rw [unbounded, heq]
    exact nearestMultiple_of_near hqm (near_digits hqm hm hnear)
  · -- below a power of two the numbers are nearer to each other
    have hlow : |v| < 2 ^ 52 * 2 ^ p := by
      by_contra hhigh
      have := le_lastPlace (not_lt.1 hhigh)
      omega
    obtain ⟨hbelow, -⟩ := abs_lt.1 (lt_of_le_of_lt (abs_abs_sub_abs_le_abs_sub v q) hnear)
    have hclose := near_digits hqm hm hnear
    have hupper : |(m : ℚ)| * 2 ^ p < (2 ^ 52 + 1) * 2 ^ p := by
      have hfar := (abs_lt.1 (lt_of_le_of_lt (abs_abs_sub_abs_le_abs_sub v q) hclose)).1
      rw [abs_digits hqm] at hfar
      linarith
    have heq : |m| = 2 ^ 52 := by
      have hdigits : |(m : ℚ)| < 2 ^ 52 + 1 := lt_of_mul_lt_mul_right hupper hpos.le
      have : |m| < 2 ^ 52 + 1 := by exact_mod_cast hdigits
      omega
    have hpower : |(m : ℚ)| = 2 ^ 52 := by exact_mod_cast heq
    rw [abs_digits hqm, hpower] at hnear hbelow
    have hdouble : (2 : ℚ) ^ (p - 1) * 2 = 2 ^ p := by
      rw [← zpow_add_one₀ two_ne_zero, sub_add_cancel]
    have hprev : p - 1 ≤ lastPlace v := le_lastPlace (by linarith)
    refine ⟨hprev, ?_⟩
    rw [unbounded, show lastPlace v = p - 1 by omega]
    refine nearestMultiple_of_near (m := 2 * m) ?_ (by linarith)
    rw [hqm, ← hdouble]
    push_cast
    ring

/-- What is nearer than half the distance to the next numbers is rounded to the number. -/
theorem bounded_of_near (h : Representable q) (hq : q ≠ 0) (hnear : |v - q| < |q| / 2 ^ 54) :
    bounded v = q := by
  obtain ⟨m, p, hqm, hm, hp, hnormal⟩ := h.place hq
  have hle := lastPlace_le_of_near hqm hm hq hnear
  by_cases hplace : p = -1074
  · rw [bounded, max_eq_right (hle.trans hplace.le), ← hplace]
    exact nearestMultiple_of_near hqm (near_digits hqm hm hnear)
  · obtain ⟨hprev, hunbounded⟩ :=
      unbounded_of_near hqm hm (hnormal.resolve_left hplace) hq hnear
    rw [bounded, max_eq_left (by omega)]
    exact hunbounded

theorem not_underflows_of_near (h : Representable q) (hlarge : (2 : ℚ) ^ (-1022 : ℤ) ≤ |q|)
    (hnear : |v - q| < |q| / 2 ^ 54) : ¬ Underflows v := by
  have hq : q ≠ 0 := abs_pos.1 ((two_zpow_pos _).trans_le hlarge)
  obtain ⟨m, p, hqm, hm, hp, hnormal⟩ := h.place hq
  have hdigits : 2 ^ 52 ≤ |m| := by
    rcases hnormal with rfl | hm'
    · have hlimit : (2 : ℚ) ^ (-1022 : ℤ) = 2 ^ 52 * 2 ^ (-1074 : ℤ) := by
        rw [← two_zpow_add]
        norm_num
      rw [abs_digits hqm, hlimit] at hlarge
      exact_mod_cast le_of_mul_le_mul_right hlarge (two_zpow_pos _)
    · exact hm'
  obtain ⟨-, hunbounded⟩ := unbounded_of_near hqm hm hdigits hq hnear
  rintro ⟨hsmall, -⟩
  rw [hunbounded] at hsmall
  exact hlarge.not_gt hsmall

/-- What is near to a number below `2 ^ (-1022)` is tiny. -/
theorem unbounded_lt_of_near (h : Representable q) (hq : q ≠ 0)
    (hsmall : |q| < 2 ^ (-1022 : ℤ)) (hnear : |v - q| < |q| / 2 ^ 54) :
    |unbounded v| < 2 ^ (-1022 : ℤ) := by
  obtain ⟨m, p, hqm, -, hp, hnormal⟩ := h.place hq
  have hpos := two_zpow_pos (-1075)
  have hlimit : (2 : ℚ) ^ (-1022 : ℤ) = 2 ^ 53 * 2 ^ (-1075 : ℤ) := by
    rw [← two_zpow_add]
    norm_num
  have hlast : (2 : ℚ) ^ (-1074 : ℤ) = 2 * 2 ^ (-1075 : ℤ) := by
    simpa using two_zpow_add (-1075) 1
  have habs := abs_digits hqm
  obtain rfl : p = -1074 := by
    refine hnormal.resolve_right fun hm => ?_
    have hm' : (2 : ℚ) ^ 52 ≤ |(m : ℚ)| := by exact_mod_cast hm
    have hplace : (2 : ℚ) ^ (-1074 : ℤ) ≤ 2 ^ p := zpow_le_zpow_right₀ one_le_two hp
    have hle : (2 : ℚ) ^ 52 * 2 ^ (-1074 : ℤ) ≤ |q| := by
      rw [habs]
      exact mul_le_mul hm' hplace (two_zpow_pos _).le (abs_nonneg _)
    rw [hlimit] at hsmall
    rw [hlast] at hle
    linarith
  have hm : |(m : ℚ)| + 1 ≤ 2 ^ 52 := by
    have hlt : |(m : ℚ)| < 2 ^ 52 := by
      rw [habs, hlimit, hlast] at hsmall
      have : |(m : ℚ)| * 2 ^ (-1075 : ℤ) < 2 ^ 52 * 2 ^ (-1075 : ℤ) := by linarith
      exact lt_of_mul_lt_mul_right this hpos.le
    have hint : |m| + 1 ≤ 2 ^ 52 := by exact_mod_cast hlt
    exact_mod_cast hint
  have hv := ne_zero_of_near hq hnear
  obtain ⟨-, habove⟩ := abs_lt.1 (lt_of_le_of_lt (abs_abs_sub_abs_le_abs_sub v q) hnear)
  have hscaled := mul_le_mul_of_nonneg_right hm hpos.le
  rw [habs, hlast] at habove
  have hcast : ((2 ^ 53 - 1 : ℤ) : ℚ) = 2 ^ 53 - 1 := by norm_num
  have hupper : |v| ≤ ((2 ^ 53 - 1 : ℤ) : ℚ) * 2 ^ (-1075 : ℤ) := by
    rw [hcast]
    linarith only [habove, hscaled, hpos]
  have hplace : lastPlace v < -1074 := by
    refine lastPlace_lt hv ?_
    rw [hlast]
    rw [hcast] at hupper
    linarith only [hupper, hpos]
  rw [unbounded, nearestMultiple, abs_mul, abs_of_pos (two_zpow_pos _), hlimit]
  rcases eq_or_lt_of_le (Int.le_sub_one_of_lt hplace) with heq | hlt
  · have hplace' : lastPlace v = -1075 := heq
    have hdigits : |nearest (v / 2 ^ (-1075 : ℤ))| ≤ 2 ^ 53 - 1 := by
      refine abs_nearest_le ?_
      rw [abs_div, abs_of_pos hpos, div_le_iff₀ hpos]
      exact hupper
    have hdigits' : |(nearest (v / 2 ^ (-1075 : ℤ)) : ℚ)| < 2 ^ 53 := by
      have : |nearest (v / 2 ^ (-1075 : ℤ))| < 2 ^ 53 := by omega
      exact_mod_cast this
    rw [hplace']
    exact mul_lt_mul_of_pos_right hdigits' hpos
  · have hdigits : |(nearest (v / 2 ^ lastPlace v) : ℚ)| ≤ 2 ^ 53 := by
      exact_mod_cast abs_nearest_place (le_refl (lastPlace v))
    calc |(nearest (v / 2 ^ lastPlace v) : ℚ)| * 2 ^ lastPlace v
        ≤ 2 ^ 53 * 2 ^ lastPlace v := mul_le_mul_of_nonneg_right hdigits (two_zpow_pos _).le
      _ < 2 ^ 53 * 2 ^ (-1075 : ℤ) :=
          mul_lt_mul_of_pos_left (zpow_lt_zpow_right₀ one_lt_two (by omega)) (by norm_num)

/-- What is near to such a number, and not the number, underflows. -/
theorem underflows_of_near (h : Representable q) (hq : q ≠ 0)
    (hsmall : |q| < 2 ^ (-1022 : ℤ)) (hnear : |v - q| < |q| / 2 ^ 54) (hne : v ≠ q) :
    Underflows v := by
  refine ⟨unbounded_lt_of_near h hq hsmall hnear, ?_⟩
  rw [bounded_of_near h hq hnear]
  exact hne.symm

end Near

end Binary64
