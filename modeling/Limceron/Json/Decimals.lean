/-
# `Limceron.Json.Decimals` — seventeen digits are read back

`%.17g` writes a number as its seventeen first digits, rounded, and their place:
`m * 10 ^ (x - 16)` (`significant`).  The text is a number of the grammar in each of
its three forms, and what `strtod` makes of it is exactly that decimal
(`written_formatG17`), before it is rounded to a double.

The digits are enough: they are rounded to the number (`bounded_seventeen`).  A number below
the least normal one is refused all the same, since no decimal of so few digits is exactly
that number (`seventeen_ne`).

| place | form |
| :-- | :-- |
| `-4 ≤ x < 0` | `0.00ddd` |
| `0 ≤ x < 17` | `ddd.ddd` |
| else | `d.ddde±xx` |
-/
import Limceron.Json.RoundTrip

namespace Limceron.Json

open Binary64

/-! ## Lists of digits -/

def DigitChars (cs : List Char) : Prop := ∀ c ∈ cs, c.isDigit = true

/-- The number that digits stand for. -/
def numeral (cs : List Char) : ℕ := Nat.ofDigitChars 10 cs 0

theorem DigitChars.append {cs ds : List Char} (hcs : DigitChars cs) (hds : DigitChars ds) :
    DigitChars (cs ++ ds) := List.forall_mem_append.2 ⟨hcs, hds⟩

theorem digitChars_toDigits (k : ℕ) : DigitChars (Nat.toDigits 10 k) :=
  fun _ hc => isDigit_of_mem hc

theorem digitChars_zeros (k : ℕ) : DigitChars (List.replicate k '0') := by
  intro c hc
  rw [List.eq_of_mem_replicate hc]
  rfl

theorem DigitChars.bytes {cs : List Char} (h : DigitChars cs) :
    Digits (cs.map Char.toUInt8) := by
  intro d hd
  obtain ⟨c, hc, rfl⟩ := List.mem_map.1 hd
  obtain ⟨heq, hlower, hupper⟩ := toUInt8_toNat (h c hc)
  simp only [isDigit, Bool.and_eq_true, decide_eq_true_eq, UInt8.le_iff_toNat_le, heq]
  exact ⟨hlower, hupper⟩

theorem DigitChars.value {cs : List Char} (h : DigitChars cs) :
    digitsValue (cs.map Char.toUInt8) = numeral cs := digitsValue_append cs h 0

theorem numeral_append (cs ds : List Char) :
    numeral (cs ++ ds) = numeral cs * 10 ^ ds.length + numeral ds := by
  rw [numeral, Nat.ofDigitChars_append, Nat.ofDigitChars_eq_ofDigitChars_zero]
  rw [numeral, numeral]
  ring

theorem numeral_zeros (k : ℕ) : numeral (List.replicate k '0') = 0 := by
  rw [numeral, Nat.ofDigitChars_replicate_zero, Nat.mul_zero]

theorem numeral_toDigits (k : ℕ) : numeral (Nat.toDigits 10 k) = k :=
  Nat.ofDigitChars_ten_toDigits

/-! ## Fractions without the zeros at their end -/

theorem trimZeros_append (ds : List Char) :
    ∃ k, ds = trimZeros ds ++ List.replicate k '0' := by
  refine ⟨(ds.reverse.takeWhile (· = '0')).length, ?_⟩
  have hzero : ∀ c ∈ ds.reverse.takeWhile (· = '0'), c = '0' := by
    intro c hc
    simpa using List.mem_takeWhile_imp hc
  have hzeros : ds.reverse.takeWhile (· = '0') =
      List.replicate (ds.reverse.takeWhile (· = '0')).length '0' :=
    List.eq_replicate_iff.2 ⟨rfl, hzero⟩
  calc ds = (ds.reverse.takeWhile (· = '0') ++ ds.reverse.dropWhile (· = '0')).reverse := by
        rw [List.takeWhile_append_dropWhile, List.reverse_reverse]
    _ = trimZeros ds ++ (ds.reverse.takeWhile (· = '0')).reverse := by
        rw [List.reverse_append, trimZeros]
    _ = trimZeros ds ++ List.replicate (ds.reverse.takeWhile (· = '0')).length '0' := by
        rw [hzeros, List.reverse_replicate, List.length_replicate]

theorem DigitChars.trimZeros {ds : List Char} (h : DigitChars ds) : DigitChars (trimZeros ds) := by
  obtain ⟨k, hk⟩ := trimZeros_append ds
  intro c hc
  refine h c ?_
  rw [hk]
  exact List.mem_append_left _ hc

/-- The zeros do not count. -/
theorem numeral_trimZeros (cs ds : List Char) :
    (numeral (cs ++ trimZeros ds) : ℚ) * 10 ^ (-((trimZeros ds).length : ℤ)) =
      numeral (cs ++ ds) * 10 ^ (-(ds.length : ℤ)) := by
  obtain ⟨k, hk⟩ := trimZeros_append ds
  have hlength : ds.length = (trimZeros ds).length + k := by
    conv_lhs => rw [hk]
    rw [List.length_append, List.length_replicate]
  have hnumeral : numeral (cs ++ ds) = numeral (cs ++ trimZeros ds) * 10 ^ k := by
    conv_lhs => rw [hk]
    rw [← List.append_assoc, numeral_append _ (List.replicate k '0'), numeral_zeros,
      List.length_replicate, Nat.add_zero]
  rw [hnumeral, hlength]
  push_cast
  rw [neg_add, zpow_add₀ (by norm_num), zpow_neg 10 (k : ℤ), zpow_natCast]
  field_simp

theorem fractionText_fractionPart {ds : List Char} (h : DigitChars ds) :
    FractionText ((fractionPart ds).map Char.toUInt8) := by
  unfold fractionPart
  split
  · exact .absent
  · next hne =>
      rw [List.map_cons]
      exact .digits (fun hnil => hne (List.map_eq_nil_iff.1 hnil)) h.trimZeros.bytes

theorem strtodFraction_fractionPart {ds : List Char} (h : DigitChars ds) {rest : List UInt8}
    (hstops : Stops rest) (hpoint : ∀ c ∈ rest.head?, c ≠ 0x2E) :
    strtodFraction ((fractionPart ds).map Char.toUInt8 ++ rest) =
      ((trimZeros ds).map Char.toUInt8, rest) := by
  unfold fractionPart
  split
  · next hnil =>
      rw [hnil]
      cases rest with
      | nil => rfl
      | cons c rest => simp [strtodFraction, hpoint c rfl]
  · rw [List.map_cons, List.cons_append]
    simp [strtodFraction, takeWhile_digits h.trimZeros.bytes hstops,
      dropWhile_digits h.trimZeros.bytes hstops, show '.'.toUInt8 = 0x2E from rfl]

/-! ## Exponents -/

/-- The digits of an exponent. -/
def exponentDigits (x : ℤ) : List Char :=
  if (Nat.toDigits 10 x.natAbs).length < 2 then '0' :: Nat.toDigits 10 x.natAbs
  else Nat.toDigits 10 x.natAbs

theorem exponentDigits_spec (x : ℤ) :
    DigitChars (exponentDigits x) ∧ exponentDigits x ≠ [] ∧
      numeral (exponentDigits x) = x.natAbs := by
  unfold exponentDigits
  split
  · refine ⟨List.forall_mem_cons.2 ⟨rfl, digitChars_toDigits _⟩, List.cons_ne_nil _ _, ?_⟩
    have hsplit := numeral_append ['0'] (Nat.toDigits 10 x.natAbs)
    have hzero : numeral ['0'] = 0 := rfl
    rw [numeral_toDigits, hzero, Nat.zero_mul, Nat.zero_add] at hsplit
    exact hsplit
  · exact ⟨digitChars_toDigits _, Nat.toDigits_ne_nil, numeral_toDigits _⟩

theorem exponentPart_bytes (x : ℤ) :
    (exponentPart x).map Char.toUInt8 =
      0x65 :: [if x < 0 then 0x2D else 0x2B] ++ (exponentDigits x).map Char.toUInt8 := by
  unfold exponentPart exponentDigits
  by_cases hx : x < 0
  · simp only [if_pos hx]
    rfl
  · simp only [if_neg hx]
    rfl

theorem signText_exponent (x : ℤ) : SignText [if x < 0 then 0x2D else 0x2B] := by
  split
  · exact .minus
  · exact .plus

theorem exponentText_exponentPart (x : ℤ) :
    ExponentText ((exponentPart x).map Char.toUInt8) := by
  obtain ⟨hdigits, hne, -⟩ := exponentDigits_spec x
  rw [exponentPart_bytes]
  exact .digits (.inl rfl) (signText_exponent x) (fun hnil => hne (List.map_eq_nil_iff.1 hnil))
    hdigits.bytes

theorem strtodExponent_exponentPart (x : ℤ) :
    strtodExponent ((exponentPart x).map Char.toUInt8) = (x, []) := by
  obtain ⟨hdigits, hne, hvalue⟩ := exponentDigits_spec x
  have hne' : (exponentDigits x).map Char.toUInt8 ≠ [] :=
    fun hnil => hne (List.map_eq_nil_iff.1 hnil)
  have hscan := (signText_exponent x).scan hne' hdigits.bytes []
  have htake := takeWhile_digits hdigits.bytes stops_nil
  have hdrop := dropWhile_digits hdigits.bytes stops_nil
  rw [List.append_nil] at hscan htake hdrop
  rw [exponentPart_bytes, List.cons_append]
  simp only [strtodExponent, hscan, htake, hdrop, hdigits.value, hvalue]
  rw [if_pos ⟨by simp, hne'⟩]
  by_cases hx : x < 0
  · rw [if_pos hx, if_pos rfl]
    simp only [Prod.mk.injEq, and_true]
    omega
  · rw [if_neg hx, if_neg (by decide)]
    simp only [Prod.mk.injEq, and_true]
    omega

/-! ## A number of three parts -/

theorem scanDecimal_parts {minus : List UInt8} (hminus : MinusText minus) {int ds : List Char}
    (hint : DigitChars int) (hne : int ≠ []) (hds : DigitChars ds) {exponent : List UInt8} {e : ℤ}
    (hexponent : ExponentText exponent) (he : strtodExponent exponent = (e, [])) :
    scanDecimal (minus ++ int.map Char.toUInt8 ++ (fractionPart ds).map Char.toUInt8 ++ exponent) =
      ⟨minus = [0x2D], int.map Char.toUInt8, (trimZeros ds).map Char.toUInt8, e, []⟩ := by
  obtain ⟨hstops, hpoint⟩ := hexponent.stops (closes_space space_nil)
  rw [List.append_nil] at hstops hpoint
  have hne' : int.map Char.toUInt8 ≠ [] := fun hnil => hne (List.map_eq_nil_iff.1 hnil)
  have hscan := (SignText.of_minus hminus).scan hne' hint.bytes
    ((fractionPart ds).map Char.toUInt8 ++ exponent)
  have hbehind := (fractionText_fractionPart hds).stops hstops
  have hfraction := strtodFraction_fractionPart hds hstops hpoint
  rw [List.append_assoc, List.append_assoc]
  simp only [scanDecimal, hscan, takeWhile_digits hint.bytes hbehind,
    dropWhile_digits hint.bytes hbehind, hfraction, he]

/-- A text of three parts, and the number that it stands for. -/
inductive Written : List UInt8 → ℚ → Prop
  | mk {minus : List UInt8} {int ds : List Char} {exponent : List UInt8} {e : ℤ} :
      MinusText minus → IntegerText (int.map Char.toUInt8) → DigitChars int → DigitChars ds →
      ExponentText exponent → strtodExponent exponent = (e, []) →
      Written
        (minus ++ int.map Char.toUInt8 ++ (fractionPart ds).map Char.toUInt8 ++ exponent)
        ((if minus = [0x2D] then -1 else 1) *
          (numeral (int ++ ds) * 10 ^ (e - (ds.length : ℤ))))

theorem Written.numberText {text : List UInt8} {q : ℚ} (h : Written text q) :
    NumberText text := by
  cases h with
  | mk hminus hint _ hds hexponent _ =>
      exact .mk hminus hint (fractionText_fractionPart hds) hexponent

theorem Written.value {text : List UInt8} {q : ℚ} (h : Written text q) :
    (scanDecimal text).value = q := by
  cases h with
  | @mk minus int ds exponent e hminus hint hdigits hds hexponent he =>
      have hne : int ≠ [] := fun hnil => hint.isDigits.1 (by rw [hnil]; rfl)
      have hnumeral := numeral_trimZeros int ds
      have hscale : (numeral (int ++ trimZeros ds) : ℚ) * 10 ^ (e - ((trimZeros ds).length : ℤ)) =
          numeral (int ++ ds) * 10 ^ (e - (ds.length : ℤ)) := by
        rw [sub_eq_add_neg, sub_eq_add_neg, zpow_add₀ (by norm_num), zpow_add₀ (by norm_num),
          mul_left_comm, hnumeral, mul_left_comm]
      rw [scanDecimal_parts hminus hdigits hne hds hexponent he, Decimal.value]
      simp only [← List.map_append, (hdigits.append hds.trimZeros).value, List.length_map, hscale,
        decide_eq_true_eq]
      split
      · rw [neg_one_mul]
      · rw [one_mul]

/-! ## Seventeen digits -/

theorem significant_spec {q : ℚ} (hq : q ≠ 0) :
    10 ^ 16 ≤ (significant q).1 ∧ (significant q).1 < 10 ^ 17 := by
  have hpos : 0 < |q| := abs_pos.2 hq
  have hten : (0 : ℚ) < 10 ^ (Int.log 10 |q| - 16) := zpow_pos (by norm_num) _
  have hlower : ((10 ^ 16 : ℤ) : ℚ) ≤ |q| / 10 ^ (Int.log 10 |q| - 16) := by
    rw [le_div_iff₀ hten]
    calc ((10 ^ 16 : ℤ) : ℚ) * 10 ^ (Int.log 10 |q| - 16)
        = 10 ^ ((16 : ℤ) + (Int.log 10 |q| - 16)) := by
          rw [zpow_add₀ (by norm_num)]
          norm_num
      _ = ((10 : ℕ) : ℚ) ^ Int.log 10 |q| := by
          rw [add_sub_cancel]
          norm_num
      _ ≤ |q| := Int.zpow_log_le_self (by norm_num) hpos
  have hupper : |q| / 10 ^ (Int.log 10 |q| - 16) ≤ ((10 ^ 17 : ℤ) : ℚ) := by
    rw [div_le_iff₀ hten]
    calc |q| ≤ ((10 : ℕ) : ℚ) ^ (Int.log 10 |q| + 1) :=
          (Int.lt_zpow_succ_log_self (by norm_num) _).le
      _ = 10 ^ ((17 : ℤ) + (Int.log 10 |q| - 16)) := by
          congr 1
          ring
      _ = ((10 ^ 17 : ℤ) : ℚ) * 10 ^ (Int.log 10 |q| - 16) := by
          rw [zpow_add₀ (by norm_num)]
          norm_num
  have hge := le_nearest hlower
  have hle := nearest_le hupper
  unfold significant
  dsimp only
  split
  · norm_num
  · next hne => exact ⟨hge, lt_of_le_of_ne hle hne⟩

theorem length_toDigits {m : ℕ} (hlower : 10 ^ 16 ≤ m) (hupper : m < 10 ^ 17) :
    (Nat.toDigits 10 m).length = 17 := by
  have hle := (Nat.length_toDigits_le_iff (k := 17) (by decide) (by decide)).2 hupper
  have hgt := (Nat.length_toDigits_le_iff (n := m) (k := 16) (b := 10) (by decide) (by decide)).not.2
    (by omega)
  omega

/-- The digits at the front are an integer. -/
theorem integerText_take {m : ℕ} (hm : 0 < m) (k : ℕ) :
    IntegerText (((Nat.toDigits 10 m).take (k + 1)).map Char.toUInt8) := by
  obtain ⟨c, ds, hds, hlower, hupper⟩ := digitBytes_head hm
  have hdigits := digitBytes_digits m
  rw [List.map_take, ← digitBytes, hds, List.take_succ_cons]
  rw [hds] at hdigits
  exact .digits hlower hupper fun d hd => hdigits d (List.mem_cons_of_mem _ (List.mem_of_mem_take hd))

/-- The digits with their point, in the form that goes with the place of the first. -/
def placed (ds : List Char) (x : ℤ) : List Char :=
  if x < -4 ∨ 17 ≤ x then ds.take 1 ++ fractionPart (ds.drop 1) ++ exponentPart x
  else if 0 ≤ x then ds.take (x.toNat + 1) ++ fractionPart (ds.drop (x.toNat + 1))
  else '0' :: fractionPart (List.replicate (-x - 1).toNat '0' ++ ds)

theorem formatG17_eq {q : ℚ} (hq : q ≠ 0) :
    formatG17 q = (if q < 0 then [0x2D] else []) ++
      (placed (Nat.toDigits 10 (significant q).1.natAbs) (significant q).2).map Char.toUInt8 := by
  rw [formatG17, if_neg hq]
  rfl

theorem written_placed {minus : List UInt8} (hminus : MinusText minus) {k : ℕ}
    (hlower : 10 ^ 16 ≤ k) (hupper : k < 10 ^ 17) (x : ℤ) :
    Written (minus ++ (placed (Nat.toDigits 10 k) x).map Char.toUInt8)
      ((if minus = [0x2D] then -1 else 1) * (k * 10 ^ (x - 16))) := by
  have hk : 0 < k := by omega
  have hlength : (Nat.toDigits 10 k).length = 17 := length_toDigits hlower hupper
  have hdigits := digitChars_toDigits k
  have htake (j : ℕ) : DigitChars ((Nat.toDigits 10 k).take j) :=
    fun c hc => hdigits c (List.mem_of_mem_take hc)
  have hdrop (j : ℕ) : DigitChars ((Nat.toDigits 10 k).drop j) :=
    fun c hc => hdigits c (List.mem_of_mem_drop hc)
  have hzero : numeral ['0'] = 0 := rfl
  by_cases hscientific : x < -4 ∨ 17 ≤ x
  · rw [placed, if_pos hscientific]
    have hfirst : IntegerText (((Nat.toDigits 10 k).take 1).map Char.toUInt8) :=
      integerText_take hk 0
    have hwritten := Written.mk hminus hfirst (htake 1) (hdrop 1)
      (exponentText_exponentPart x) (strtodExponent_exponentPart x)
    have hplace : x - ((17 - 1 : ℕ) : ℤ) = x - 16 := by omega
    simp only [List.take_append_drop, numeral_toDigits, List.length_drop, hlength, hplace]
      at hwritten
    simpa only [List.map_append, List.append_assoc] using hwritten
  rw [placed, if_neg hscientific]
  by_cases hpositive : 0 ≤ x
  · rw [if_pos hpositive]
    obtain ⟨j, rfl⟩ := Int.eq_ofNat_of_zero_le hpositive
    have hwritten := Written.mk hminus (integerText_take hk j) (htake (j + 1)) (hdrop (j + 1))
      .absent (e := 0) rfl
    have hplace : (0 : ℤ) - ((17 - (j + 1) : ℕ) : ℤ) = (j : ℤ) - 16 := by omega
    simp only [List.take_append_drop, numeral_toDigits, List.length_drop, hlength, hplace]
      at hwritten
    simpa only [List.map_append, List.append_assoc, List.append_nil, Int.toNat_natCast]
      using hwritten
  · rw [if_neg hpositive]
    have hzeros := (digitChars_zeros (-x - 1).toNat).append hdigits
    have hint : IntegerText (['0'].map Char.toUInt8) := .zero
    have hchars : DigitChars ['0'] := List.forall_mem_singleton.2 rfl
    have hwritten := Written.mk hminus hint hchars hzeros .absent (e := 0) rfl
    have hnumeral : numeral (['0'] ++ (List.replicate (-x - 1).toNat '0' ++ Nat.toDigits 10 k)) =
        k := by
      rw [numeral_append, numeral_append, numeral_zeros, numeral_toDigits, hzero]
      ring
    have hplace : (0 : ℤ) - (((-x - 1).toNat + 17 : ℕ) : ℤ) = x - 16 := by omega
    simp only [hnumeral, List.length_append, List.length_replicate, hlength, hplace] at hwritten
    simpa only [List.map_append, List.append_assoc, List.append_nil, List.map_cons, List.map_nil,
      List.cons_append, List.nil_append] using hwritten

/-- What the seventeen digits stand for. -/
def seventeen (q : ℚ) : ℚ :=
  (if q < 0 then -1 else 1) * ((significant q).1 * 10 ^ ((significant q).2 - 16))

theorem written_formatG17 {q : ℚ} (hq : q ≠ 0) : Written (formatG17 q) (seventeen q) := by
  obtain ⟨hlower, hupper⟩ := significant_spec hq
  obtain ⟨k, hk⟩ := Int.eq_ofNat_of_zero_le (show 0 ≤ (significant q).1 by omega)
  have hsign : MinusText (if q < 0 then [0x2D] else []) := by
    split
    · exact .minus
    · exact .absent
  have hminus : ((if q < 0 then [0x2D] else []) = ([0x2D] : List UInt8)) = (q < 0) := by
    split <;> simp [*]
  have hwritten := written_placed hsign (k := k) (by omega) (by omega) (significant q).2
  simp only [hminus] at hwritten
  rw [formatG17_eq hq, seventeen, hk, Int.natAbs_natCast]
  exact hwritten

/-! ## Seventeen digits are enough -/

theorem significant_value (q : ℚ) :
    ((significant q).1 : ℚ) * 10 ^ ((significant q).2 - 16) =
      nearest (|q| / 10 ^ (Int.log 10 |q| - 16)) * 10 ^ (Int.log 10 |q| - 16) := by
  unfold significant
  dsimp only
  split
  · next hcarry =>
      rw [hcarry, show Int.log 10 |q| + 1 - 16 = Int.log 10 |q| - 16 + 1 by ring,
        zpow_add_one₀ (by norm_num)]
      push_cast
      ring
  · rfl

/-- They are nearer than half the distance to the next number of the format. -/
theorem seventeen_near {q : ℚ} (hq : q ≠ 0) : |seventeen q - q| < |q| / 2 ^ 54 := by
  have hpos : 0 < |q| := abs_pos.2 hq
  have hten : (0 : ℚ) < 10 ^ (Int.log 10 |q| - 16) := zpow_pos (by norm_num) _
  have hlog : (10 : ℚ) ^ 16 * 10 ^ (Int.log 10 |q| - 16) ≤ |q| := by
    calc (10 : ℚ) ^ 16 * 10 ^ (Int.log 10 |q| - 16) = ((10 : ℕ) : ℚ) ^ Int.log 10 |q| := by
          rw [← zpow_natCast, ← zpow_add₀ (by norm_num)]
          norm_num
      _ ≤ |q| := Int.zpow_log_le_self (by norm_num) hpos
  have hround := abs_nearest_sub_le (|q| / 10 ^ (Int.log 10 |q| - 16))
  rw [seventeen, significant_value]
  generalize (10 : ℚ) ^ (Int.log 10 |q| - 16) = unit at hten hlog hround
  have herror : abs ((nearest (|q| / unit) : ℚ) * unit - |q|) ≤ unit / 2 := by
    have hscale : (nearest (|q| / unit) : ℚ) * unit - |q| =
        (nearest (|q| / unit) - |q| / unit) * unit := by
      field_simp
    rw [hscale, abs_mul, abs_of_pos hten]
    have := mul_le_mul_of_nonneg_right hround hten.le
    linarith
  have hsign : |(if q < 0 then (-1 : ℚ) else 1) * (nearest (|q| / unit) * unit) - q| =
      abs ((nearest (|q| / unit) : ℚ) * unit - |q|) := by
    split
    · next hneg =>
        rw [abs_of_neg hneg, ← abs_neg]
        congr 1
        ring
    · next hnonneg => rw [abs_of_nonneg (not_lt.1 hnonneg), one_mul]
  rw [hsign]
  refine herror.trans_lt ?_
  rw [lt_div_iff₀ (by norm_num)]
  linarith

/-- `strtod` inverts `%.17g`. -/
theorem bounded_seventeen {q : ℚ} (h : Representable q) (hq : q ≠ 0) :
    bounded (seventeen q) = q :=
  bounded_of_near h hq (seventeen_near hq)

/-- No decimal of seventeen digits is a number below the least normal one. -/
theorem seventeen_ne {q : ℚ} (h : Representable q) (hq : q ≠ 0)
    (hsmall : |q| < 2 ^ (-1022 : ℤ)) : seventeen q ≠ q := by
  intro heq
  obtain ⟨hlower, hupper⟩ := significant_spec hq
  obtain ⟨k, e, -, he, hqk⟩ := h.digits
  obtain ⟨j, hj⟩ := multiple_of_le he k
  obtain ⟨d, hd⟩ : ∃ d : ℕ, (-1074 : ℤ) = -d := ⟨1074, rfl⟩
  have hqj : q = j * 2 ^ (-d : ℤ) := by rw [hqk, hj, hd]
  obtain ⟨m, hm⟩ := Int.eq_ofNat_of_zero_le (show 0 ≤ (significant q).1 by omega)
  have hsign : |(if q < 0 then (-1 : ℚ) else 1)| = 1 := by
    split <;> simp
  have habs : |q| = m * 10 ^ ((significant q).2 - 16) := by
    have hten : (0 : ℚ) < 10 ^ ((significant q).2 - 16) := zpow_pos (by norm_num) _
    conv_lhs => rw [← heq]
    rw [seventeen, hm, abs_mul, hsign, one_mul, abs_mul, abs_of_pos hten, Int.cast_natCast,
      Nat.abs_cast]
  have hplace : (significant q).2 < -9 := by
    have hpower : (10 : ℚ) ^ (significant q).2 ≤ |q| := by
      calc (10 : ℚ) ^ (significant q).2 = 10 ^ 16 * 10 ^ ((significant q).2 - 16) := by
            rw [← zpow_natCast, ← zpow_add₀ (by norm_num)]
            congr 1
            ring
        _ ≤ m * 10 ^ ((significant q).2 - 16) := by
            refine mul_le_mul_of_nonneg_right ?_ (zpow_pos (by norm_num) _).le
            rw [hm] at hlower
            exact_mod_cast hlower
        _ = |q| := habs.symm
    have htiny : (2 : ℚ) ^ (-1022 : ℤ) < 10 ^ (-9 : ℤ) :=
      (zpow_lt_zpow_right₀ one_lt_two (by norm_num : (-1022 : ℤ) < -30)).trans (by norm_num)
    exact (zpow_lt_zpow_iff_right₀ (by norm_num)).1 (hpower.trans_lt (hsmall.trans htiny))
  obtain ⟨n, hn⟩ : ∃ n : ℕ, (significant q).2 - 16 = -n :=
    ⟨(16 - (significant q).2).toNat, by omega⟩
  have hint : j.natAbs * 10 ^ n = m * 2 ^ d := by
    have hrat : (j.natAbs : ℚ) * 10 ^ n = m * 2 ^ d := by
      have hj' : |q| = j.natAbs * 2 ^ (-d : ℤ) := by
        conv_lhs => rw [hqj]
        rw [abs_mul, abs_of_pos (two_zpow_pos _), Nat.cast_natAbs, Int.cast_abs]
      rw [habs, hn, zpow_neg, zpow_neg, zpow_natCast, zpow_natCast] at hj'
      field_simp at hj'
      linarith
    exact_mod_cast hrat
  have hdvd : 5 ^ n ∣ m := by
    have hprod : 5 ^ n ∣ m * 2 ^ d := by
      rw [← hint, show 10 = 5 * 2 by rfl, mul_pow]
      exact Dvd.dvd.mul_left (Dvd.intro _ rfl) _
    exact (Nat.Coprime.pow n d (by decide)).dvd_of_dvd_mul_right hprod
  rw [hm] at hlower hupper
  have hle : 5 ^ n ≤ m := Nat.le_of_dvd (by omega) hdvd
  have hlarge : 5 ^ 25 ≤ 5 ^ n := Nat.pow_le_pow_right (by decide) (by omega)
  omega

/-! ## What is written of a number is read back -/

/-- Zero, or finite and not below the least normal number. -/
def Normal : Double → Prop
  | .finite q _ => q = 0 ∨ 2 ^ (-1022 : ℤ) ≤ |q|
  | .infinite _ => False

/-- Integers that are written as such, and the others. -/
theorem stringifyNumber_cases (q : ℚ) (h : Representable q) :
    (∃ n : ℤ, q = n ∧ stringifyNumber (.finite q h) = formatInt n) ∨
      q ≠ 0 ∧ stringifyNumber (.finite q h) = formatG17 q := by
  rw [stringifyNumber]
  split
  · next hint => exact .inl ⟨q.num, hint.1, rfl⟩
  · next hlarge =>
      refine .inr ⟨?_, rfl⟩
      rintro rfl
      exact hlarge (by norm_num)

theorem numberText_stringifyNumber {d : Double} (h : d.isInfinite = false) :
    NumberText (stringifyNumber d) := by
  cases d with
  | infinite negative => cases h
  | finite q hq =>
      rcases stringifyNumber_cases q hq with ⟨n, -, htext⟩ | ⟨hne, htext⟩
      · rw [htext]
        exact numberText_formatInt n
      · rw [htext]
        exact (written_formatG17 hne).numberText

/-- A finite number is read back if it is normal, and refused else. -/
theorem numberOf_stringifyNumber {q : ℚ} (h : Representable q) :
    (Normal (.finite q h) → numberOf (stringifyNumber (.finite q h)) = some (.finite q h)) ∧
      (¬ Normal (.finite q h) → numberOf (stringifyNumber (.finite q h)) = none) := by
  rcases stringifyNumber_cases q h with ⟨n, rfl, htext⟩ | ⟨hne, htext⟩
  · rw [htext, numberOf_formatInt h]
    refine ⟨fun _ => rfl, fun hsmall => absurd ?_ hsmall⟩
    by_cases hzero : n = 0
    · exact .inl (by rw [hzero, Int.cast_zero])
    · right
      have hone : (1 : ℚ) ≤ |(n : ℚ)| := by exact_mod_cast Int.one_le_abs hzero
      exact le_trans (zpow_le_one_of_nonpos₀ one_le_two (by norm_num)) hone
  · have hwritten := written_formatG17 hne
    rw [htext, numberOf_eq hwritten.numberText, hwritten.value]
    constructor
    · intro hnormal
      rw [if_neg (not_underflows_of_near h (hnormal.resolve_left hne) (seventeen_near hne)), ofRat]
      simp only [bounded_seventeen h hne, h.range, dif_pos]
    · intro hsmall
      have hlt : |q| < 2 ^ (-1022 : ℤ) := not_le.1 fun hge => hsmall (.inr hge)
      rw [if_pos (underflows_of_near h hne hlt (seventeen_near hne) (seventeen_ne h hne hlt))]


theorem accepted_stringifyNumber {q : ℚ} {h : Representable q} (hq : q = 0 ∨ 1 ≤ |q|) :
    (lcnJsonParse (stringifyNumber (.finite q h))).isSome := by
  have hnormal : Normal (.finite q h) :=
    hq.imp_right fun hone => (zpow_le_one_of_nonpos₀ one_le_two (by norm_num)).trans hone
  have htext := numberText_stringifyNumber (d := .finite q h) rfl
  rw [accepts_number htext, ← numberOf_isSome htext, (numberOf_stringifyNumber h).1 hnormal]
  rfl

/-- The double nearest to a 64-bit number. -/
theorem accepted_ofRat {n : ℕ} (hn : n < 2 ^ 64) :
    (lcnJsonParse (stringifyNumber (ofRat n))).isSome := by
  rcases Nat.eq_zero_or_pos n with rfl | hpos
  · have hzero : Representable ((0 : ℕ) : ℚ) := by
      exact_mod_cast representable_intCast (n := 0) (by norm_num)
    rw [ofRat_of_representable hzero]
    exact accepted_stringifyNumber (.inl Nat.cast_zero)
  · have hone : (1 : ℚ) ≤ |(n : ℚ)| := by
      rw [Nat.abs_cast]
      exact_mod_cast hpos
    have hlog : (0 : ℤ) ≤ Int.log 2 |(n : ℚ)| := by
      have hmono := Int.log_mono_right (b := 2) one_pos hone
      rwa [Int.log_one_right] at hmono
    have hlog' : Int.log 2 |(n : ℚ)| < 64 := by
      refine (Int.lt_zpow_iff_log_lt (by norm_num) (zero_lt_one.trans_le hone)).1 ?_
      rw [Nat.abs_cast]
      exact_mod_cast hn
    have hplace : max (lastPlace n) (-1074) = lastPlace n := max_eq_left (by
      unfold lastPlace
      omega)
    have hlarge : 1 ≤ |bounded n| := by
      rw [bounded, hplace]
      exact_mod_cast zpow_le_unbounded (q := n) (e := 0) (by simpa using hone)
    have hdigits : |(nearest ((n : ℚ) / 2 ^ lastPlace n) : ℚ)| ≤ 2 ^ 53 := by
      have hle := abs_nearest_bounded (n : ℚ)
      rw [hplace] at hle
      exact_mod_cast hle
    have hsmall : |bounded n| < 2 ^ 1024 := by
      rw [bounded, hplace, nearestMultiple, abs_mul, abs_of_pos (two_zpow_pos _)]
      calc _ ≤ (2 : ℚ) ^ 53 * 2 ^ lastPlace n :=
            mul_le_mul_of_nonneg_right hdigits (two_zpow_pos _).le
        _ = 2 ^ ((53 : ℤ) + lastPlace n) := by
            rw [zpow_add₀ two_ne_zero]
            norm_cast
        _ < 2 ^ 1024 := zpow_lt_pow (by
            unfold lastPlace
            omega)
    rw [ofRat, dif_pos hsmall]
    exact accepted_stringifyNumber (.inr hlarge)

end Limceron.Json
