/-
# `Limceron.Parse.Numbers` — what an integer literal is worth

The scanner goes over the digits of a literal and the underscores between them, and
`strtoll` makes a number of them, each by a rule of its own:

| literal | scanned | converted |
| :-- | :-- | :-- |
| `0x…`, `0o…`, `0b…` | digits and underscores | up to the first underscore |
| decimal | digits and underscores | the first 127 of them, without the underscores |

What is too large becomes the largest number, and no digits at all are zero; neither
is reported.
-/
import Limceron.Parse.Lexer
import Mathlib.Data.List.TakeWhile
import Mathlib.Tactic.Linarith
import Mathlib.Tactic.Ring

namespace Limceron.Parse

/-! ## The digits of a literal -/

def isOctal (c : Char) : Bool := '0' ≤ c && c ≤ '7'

def isBinary (c : Char) : Bool := c == '0' || c == '1'

/-- The base of a literal, and what the scanner takes behind the prefix. -/
def literalOf : List Char → Nat × List Char
  | '0' :: 'x' :: cs => (16, cs.takeWhile fun c => isHex c || c == '_')
  | '0' :: 'X' :: cs => (16, cs.takeWhile fun c => isHex c || c == '_')
  | '0' :: 'o' :: cs => (8, cs.takeWhile fun c => isOctal c || c == '_')
  | '0' :: 'O' :: cs => (8, cs.takeWhile fun c => isOctal c || c == '_')
  | '0' :: 'b' :: cs => (2, cs.takeWhile fun c => isBinary c || c == '_')
  | '0' :: 'B' :: cs => (2, cs.takeWhile fun c => isBinary c || c == '_')
  | cs => (10, cs.takeWhile isDigitOr)

def withoutUnderscores (cs : List Char) : List Char := cs.filter (· != '_')

/-- The number that digits denote. -/
def numeral (base : Nat) (ds : List Char) : Nat := ds.foldl (fun v c => v * base + digitValue c) 0

/-- The digits of the literal, and their value. -/
def literalDigits (cs : List Char) : List Char := withoutUnderscores (literalOf cs).2

def literalValue (cs : List Char) : Nat := numeral (literalOf cs).1 (literalDigits cs)

/-- The part of the literal that is converted. -/
def converted (literal : Nat × List Char) : List Char :=
  if literal.1 = 10 then literal.2.take 127 else literal.2.takeWhile (· != '_')

/-- The part that is not. -/
def unread (literal : Nat × List Char) : List Char :=
  if literal.1 = 10 then literal.2.drop 127 else literal.2.dropWhile (· != '_')

theorem converted_append_unread (literal : Nat × List Char) :
    converted literal ++ unread literal = literal.2 := by
  unfold converted unread
  split
  · exact List.take_append_drop _ _
  · exact List.takeWhile_append_dropWhile

theorem foldl_numeral (base : Nat) (ds : List Char) (v : Nat) :
    ds.foldl (fun v c => v * base + digitValue c) v = v * base ^ ds.length + numeral base ds := by
  induction ds generalizing v with
  | nil => simp [numeral]
  | cons d ds ih =>
      have hcons : numeral base (d :: ds) =
          (0 * base + digitValue d) * base ^ ds.length + numeral base ds := ih _
      rw [List.foldl_cons, ih, hcons, List.length_cons, pow_succ]
      ring

theorem numeral_append (base : Nat) (ds es : List Char) :
    numeral base (ds ++ es) = numeral base ds * base ^ es.length + numeral base es := by
  rw [numeral, List.foldl_append, foldl_numeral]
  rfl

/-- Digits that are left out make the number smaller, unless it is zero. -/
theorem numeral_append_eq_iff {base : Nat} (hbase : 2 ≤ base) (ds es : List Char) :
    numeral base ds = numeral base (ds ++ es) ↔ es = [] ∨ numeral base (ds ++ es) = 0 := by
  rw [numeral_append]
  constructor
  · intro h
    by_cases hes : es = []
    · exact .inl hes
    · have hlen : es.length ≠ 0 := fun hlen => hes (List.eq_nil_of_length_eq_zero hlen)
      have hpow : 2 ≤ base ^ es.length := hbase.trans (Nat.le_self_pow hlen base)
      have hmul : numeral base ds * 2 ≤ numeral base ds * base ^ es.length :=
        Nat.mul_le_mul_left _ hpow
      exact .inr (by omega)
  · rintro (rfl | h)
    · simp [numeral]
    · have hmul : numeral base ds * 1 ≤ numeral base ds * base ^ es.length :=
        Nat.mul_le_mul_left _ (Nat.pow_pos (by omega))
      omega

/-! ## What `strtoll` reads -/

/-- A range of characters, by their codes. -/
theorem inRange_eq (a b c : Char) :
    (decide (a ≤ c) && decide (c ≤ b)) = decide (a.toNat ≤ c.toNat ∧ c.toNat ≤ b.toNat) := by
  rw [Bool.decide_and]
  rfl

theorem beq_eq_toNat (a b : Char) : (a == b) = decide (a.toNat = b.toNat) := by
  rw [Bool.eq_iff_iff, beq_iff_eq, decide_eq_true_eq, Char.toNat_inj]

/-- What a character is worth, by its code. -/
theorem digitValue_eq (c : Char) :
    digitValue c =
      if 48 ≤ c.toNat ∧ c.toNat ≤ 57 then c.toNat - 48
      else if 97 ≤ c.toNat ∧ c.toNat ≤ 122 then c.toNat - 97 + 10
      else if 65 ≤ c.toNat ∧ c.toNat ≤ 90 then c.toNat - 65 + 10
      else 36 := by
  simp only [digitValue, isDigit, inRange_eq, decide_eq_true_eq, Char.reduceToNat]

theorem isHex_eq (c : Char) : isHex c = decide (digitValue c < 16) := by
  simp only [isHex, isDigit, inRange_eq, digitValue_eq, Char.reduceToNat, ← Bool.decide_or]
  rw [decide_eq_decide]
  split_ifs <;> omega

theorem isOctal_eq (c : Char) : isOctal c = decide (digitValue c < 8) := by
  simp only [isOctal, inRange_eq, digitValue_eq, Char.reduceToNat]
  rw [decide_eq_decide]
  split_ifs <;> omega

theorem isBinary_eq (c : Char) : isBinary c = decide (digitValue c < 2) := by
  simp only [isBinary, beq_eq_toNat, digitValue_eq, Char.reduceToNat, ← Bool.decide_or]
  rw [decide_eq_decide]
  split_ifs <;> omega

theorem isDigit_eq (c : Char) : isDigit c = decide (digitValue c < 10) := by
  simp only [isDigit, inRange_eq, digitValue_eq, Char.reduceToNat]
  rw [decide_eq_decide]
  split_ifs <;> omega

/-- Neither a blank nor a sign. -/
def startsNumeral (c : Char) : Bool := digitValue c < 36 || c == '_'

theorem strtoll_eq {base : Nat} (hbase : base ≠ 16) {cs : List Char}
    (hhead : ∀ c ∈ cs.head?, startsNumeral c = true) :
    strtoll base cs = clampInt64 (digitsValue base cs) := by
  have hdrop : (cs.dropWhile fun c => c == ' ' || ('\t' ≤ c && c ≤ '\r')) = cs := by
    cases cs with
    | nil => rfl
    | cons c cs =>
        refine List.dropWhile_cons_of_neg fun hblank => ?_
        have hstart := hhead c rfl
        simp only [startsNumeral, beq_eq_toNat, digitValue_eq, inRange_eq, Char.reduceToNat,
          Bool.or_eq_true, decide_eq_true_eq] at hblank hstart
        split_ifs at hstart <;> omega
  unfold strtoll
  simp only [hdrop]
  split
  · next ds => exact absurd (hhead '-' rfl) (by decide)
  · next ds => exact absurd (hhead '+' rfl) (by decide)
  · split
    · exact absurd rfl hbase
    · exact absurd rfl hbase
    · rfl

theorem strtoll_hex {x : Char} (hx : x = 'x' ∨ x = 'X') (cs : List Char) :
    strtoll 16 ('0' :: x :: cs) = clampInt64 (digitsValue 16 cs) := by
  rcases hx with rfl | rfl
  · rfl
  · rfl

/-- The digits at the beginning. -/
theorem digitsValue_eq (base : Nat) (cs : List Char) :
    digitsValue base cs = numeral base (cs.takeWhile fun c => digitValue c < base) := rfl

/-- Up to the first underscore, the digits are those of the literal. -/
theorem takeWhile_digits {base : Nat} (hbase : base ≤ 36) {p : Char → Bool}
    (hp : ∀ c, p c = decide (digitValue c < base)) (cs : List Char) :
    (cs.takeWhile fun c => digitValue c < base) =
      (cs.takeWhile fun c => p c || c == '_').takeWhile (· != '_') := by
  rw [List.takeWhile_takeWhile]
  congr 1
  funext c
  rw [Bool.eq_iff_iff, decide_eq_true_eq, decide_eq_true_eq, Bool.or_eq_true, hp,
    decide_eq_true_eq, bne_iff_ne, beq_iff_eq]
  constructor
  · intro h
    refine ⟨fun hc => ?_, .inl h⟩
    rw [hc] at h
    have h36 : digitValue '_' = 36 := by decide
    omega
  · rintro ⟨hne, h | h⟩
    · exact h
    · exact absurd h hne

theorem withoutUnderscores_takeWhile (cs : List Char) :
    withoutUnderscores (cs.takeWhile (· != '_')) = cs.takeWhile (· != '_') :=
  List.filter_eq_self.2 fun _ hc => List.mem_takeWhile_imp (p := (· != '_')) hc

/-! ## The two ways of a literal -/

/-- A literal with a prefix: the scanner takes the digits of the base, and `strtoll`
is given the text at the prefix or behind it. -/
structure IsRadix (cs : List Char) (base : Nat) (p : Char → Bool) (text body : List Char) :
    Prop where
  lexed : lexNumber cs = lexNumber.lexRadix base p text body
  literal : literalOf cs = (base, body.takeWhile fun c => p c || c == '_')
  base_ne : base ≠ 10
  two_le : 2 ≤ base
  base_le : base ≤ 36
  digit : ∀ c, p c = decide (digitValue c < base)
  read : (∀ c ∈ body.head?, startsNumeral c = true) →
    strtoll base text = clampInt64 (digitsValue base body)

theorem isRadix_hex {x : Char} (hx : x = 'x' ∨ x = 'X') (cs : List Char) :
    IsRadix ('0' :: x :: cs) 16 isHex ('0' :: x :: cs) cs where
  lexed := by rcases hx with rfl | rfl <;> rfl
  literal := by rcases hx with rfl | rfl <;> rfl
  base_ne := by decide
  two_le := by decide
  base_le := by decide
  digit := isHex_eq
  read := fun _ => strtoll_hex hx cs

theorem isRadix_octal {x : Char} (hx : x = 'o' ∨ x = 'O') (cs : List Char) :
    IsRadix ('0' :: x :: cs) 8 isOctal cs cs where
  lexed := by rcases hx with rfl | rfl <;> rfl
  literal := by rcases hx with rfl | rfl <;> rfl
  base_ne := by decide
  two_le := by decide
  base_le := by decide
  digit := isOctal_eq
  read := strtoll_eq (by decide)

theorem isRadix_binary {x : Char} (hx : x = 'b' ∨ x = 'B') (cs : List Char) :
    IsRadix ('0' :: x :: cs) 2 isBinary cs cs where
  lexed := by rcases hx with rfl | rfl <;> rfl
  literal := by rcases hx with rfl | rfl <;> rfl
  base_ne := by decide
  two_le := by decide
  base_le := by decide
  digit := isBinary_eq
  read := strtoll_eq (by decide)

theorem isRadix_or_decimal (cs : List Char) :
    (∃ base p text body, IsRadix cs base p text body) ∨
      lexNumber cs = lexDecimal cs ∧ literalOf cs = (10, cs.takeWhile isDigitOr) := by
  unfold lexNumber
  split
  · next cs => exact .inl ⟨_, _, _, _, isRadix_hex (.inl rfl) cs⟩
  · next cs => exact .inl ⟨_, _, _, _, isRadix_hex (.inr rfl) cs⟩
  · next cs => exact .inl ⟨_, _, _, _, isRadix_octal (.inl rfl) cs⟩
  · next cs => exact .inl ⟨_, _, _, _, isRadix_octal (.inr rfl) cs⟩
  · next cs => exact .inl ⟨_, _, _, _, isRadix_binary (.inl rfl) cs⟩
  · next cs => exact .inl ⟨_, _, _, _, isRadix_binary (.inr rfl) cs⟩
  · next h₁ h₂ h₃ h₄ h₅ h₆ =>
      refine .inr ⟨rfl, ?_⟩
      unfold literalOf
      split
      · next cs => exact absurd rfl (h₁ cs)
      · next cs => exact absurd rfl (h₂ cs)
      · next cs => exact absurd rfl (h₃ cs)
      · next cs => exact absurd rfl (h₄ cs)
      · next cs => exact absurd rfl (h₅ cs)
      · next cs => exact absurd rfl (h₆ cs)
      · rfl

/-- What is converted of an integer literal. -/
def convertedValue (cs : List Char) : Nat :=
  numeral (literalOf cs).1 (withoutUnderscores (converted (literalOf cs)))

theorem withoutUnderscores_append (cs ds : List Char) :
    withoutUnderscores (cs ++ ds) = withoutUnderscores cs ++ withoutUnderscores ds :=
  List.filter_append ..

theorem literalDigits_eq (cs : List Char) :
    literalDigits cs = withoutUnderscores (converted (literalOf cs)) ++
      withoutUnderscores (unread (literalOf cs)) := by
  rw [← withoutUnderscores_append, converted_append_unread, literalDigits]

/-- With a prefix, a literal that has digits is converted up to the first underscore. -/
theorem IsRadix.value {cs : List Char} {base : Nat} {p : Char → Bool} {text body : List Char}
    (h : IsRadix cs base p text body) (hdigits : literalDigits cs ≠ []) :
    (lexNumber cs).1.value = .int (clampInt64 (convertedValue cs)) := by
  have hconverted : convertedValue cs = digitsValue base body := by
    rw [convertedValue, h.literal, converted, if_neg h.base_ne, withoutUnderscores_takeWhile,
      digitsValue_eq, takeWhile_digits h.base_le h.digit]
  have hhead : ∀ c ∈ body.head?, startsNumeral c = true := by
    intro c hc
    rw [literalDigits, h.literal] at hdigits
    obtain ⟨cs', rfl⟩ : ∃ cs', body = c :: cs' := List.head?_eq_some_iff.1 hc
    by_contra hstart
    have hnot : ¬ (p c || c == '_') = true := by
      rw [startsNumeral, Bool.or_eq_true, decide_eq_true_eq, not_or] at hstart
      rw [h.digit, Bool.or_eq_true, decide_eq_true_eq, not_or]
      exact ⟨fun hlt => hstart.1 (hlt.trans_le h.base_le), hstart.2⟩
    have hnone : (c :: cs').takeWhile (fun c => p c || c == '_') = [] :=
      List.takeWhile_cons_of_neg (p := fun c => p c || c == '_') hnot
    rw [hnone] at hdigits
    exact hdigits rfl
  rw [h.lexed, hconverted, ← h.read hhead]
  rfl

/-- Of a decimal literal, the first 127 characters are converted. -/
theorem strtoll_decimal {ds : List Char} (h : ∀ c ∈ ds, isDigitOr c = true) :
    strtoll 10 (withoutUnderscores ds) = clampInt64 (numeral 10 (withoutUnderscores ds)) := by
  have hdigit : ∀ c ∈ withoutUnderscores ds, digitValue c < 10 := by
    intro c hc
    obtain ⟨hc, hne⟩ := List.mem_filter.1 hc
    have hor := h c hc
    rw [isDigitOr, isDigit_eq, Bool.or_eq_true, decide_eq_true_eq, beq_iff_eq] at hor
    exact hor.resolve_right (bne_iff_ne.1 hne)
  rw [strtoll_eq (by decide), digitsValue_eq, List.takeWhile_eq_self_iff.2]
  · exact fun c hc => decide_eq_true (hdigit c hc)
  · intro c hc
    have hlt := hdigit c (List.mem_of_mem_head? hc)
    rw [startsNumeral, Bool.or_eq_true, decide_eq_true_eq]
    exact .inl (by omega)

theorem lexDecimal_value {cs : List Char} (hliteral : literalOf cs = (10, cs.takeWhile isDigitOr))
    (hint : (lexDecimal cs).1.kind = .intLit) :
    (lexDecimal cs).1.value = .int (clampInt64 (convertedValue cs)) := by
  have hconverted : convertedValue cs =
      numeral 10 (withoutUnderscores ((cs.takeWhile isDigitOr).take 127)) := by
    rw [convertedValue, hliteral]
    rfl
  have hdigits : ∀ c ∈ (cs.takeWhile isDigitOr).take 127, isDigitOr c := fun c hc =>
    List.mem_takeWhile_imp (List.mem_of_mem_take hc)
  have hread := strtoll_decimal hdigits
  rw [hconverted, ← hread]
  rcases hfraction : scanFraction (cs.dropWhile isDigitOr) with ⟨fraction, cs₁⟩
  rcases hexponent : scanExponent cs₁ with ⟨exponent, cs₂⟩
  unfold lexDecimal at hint ⊢
  simp only [scan, hfraction, hexponent] at hint ⊢
  cases fraction with
  | cons c fraction => cases hint
  | nil =>
      cases exponent with
      | cons c exponent => cases hint
      | nil =>
          rw [List.append_nil, List.append_nil]
          rfl

/-- A number is never reported. -/
theorem lexNumber_diags (cs : List Char) : (lexNumber cs).1.diags = [] := by
  rcases isRadix_or_decimal cs with ⟨base, p, text, body, h⟩ | ⟨h, -⟩
  · rw [h.lexed]
    rfl
  · rw [h]
    unfold lexDecimal
    simp only
    split
    · rfl
    · rfl

theorem two_le_base (cs : List Char) : 2 ≤ (literalOf cs).1 := by
  rcases isRadix_or_decimal cs with ⟨base, p, text, body, h⟩ | ⟨-, h⟩
  · rw [h.literal]
    exact h.two_le
  · rw [h]
    exact show 2 ≤ 10 by decide

/-- `strtoll` keeps what fits. -/
theorem clampInt64_of_lt {n : Nat} (h : n < 9223372036854775808) : clampInt64 n = n := by
  rw [clampInt64]
  omega

/-! ## Where integer literals come from -/

theorem keywordLookup_ne_intLit (s : String) : keywordLookup s ≠ .intLit := by
  have hall : ∀ entry ∈ keywords, entry.2 ≠ .intLit := by decide
  rw [keywordLookup]
  generalize keywords = entries at hall
  induction entries with
  | nil => exact TokenKind.noConfusion
  | cons entry entries ih =>
      rw [List.lookup_cons]
      split
      · exact hall _ List.mem_cons_self
      · exact ih fun entry hentry => hall _ (List.mem_cons_of_mem _ hentry)

theorem stringToken_kind_ne (parts : List (String × String)) (nested : Bool) (buf : List Char)
    (diags : List String) : (stringToken parts nested buf diags).kind ≠ .intLit := by
  unfold stringToken
  split
  · exact TokenKind.noConfusion
  · exact TokenKind.noConfusion

theorem lexString_kind_ne (parts : List (String × String)) (nested : Bool) (mode : StringMode)
    (cs : List Char) : (lexString parts nested mode cs).1.kind ≠ .intLit := by
  fun_induction lexString parts nested mode cs
  all_goals first
    | assumption
    | exact stringToken_kind_ne _ _ _ _
    | exact TokenKind.noConfusion

theorem lexOp_kind_ne (c : Char) (cs : List Char) : (lexOp c cs).1.kind ≠ .intLit := by
  unfold lexOp
  split
  all_goals exact TokenKind.noConfusion

/-- An integer literal is made where a number is lexed. -/
theorem lexRaw_of_intLit {cs : List Char} (h : (lexRaw cs).1.kind = .intLit) :
    lexRaw cs = lexNumber cs := by
  unfold lexRaw at h ⊢
  split at h
  · cases h
  · cases h
  · exact absurd h (lexString_kind_ne _ _ _ _)
  · next cs =>
      unfold lexRawString at h
      split at h
      split at h
      · cases h
      · cases h
  · next cs =>
      unfold lexCharLit at h
      split at h
      split at h
      · cases h
      · cases h
  · next c cs h₁ h₂ h₃ h₄ =>
      split at h
      · exact absurd h (keywordLookup_ne_intLit _)
      · next halpha =>
          split at h
          · next hdigit => rw [if_neg halpha, if_pos hdigit]
          · exact absurd h (lexOp_kind_ne _ _)

/-! ## Literals that denote their value -/

/-- A literal without a report has the value of its digits, and one without digits, or
with too large a value, is reported. -/
def LiteralRight (cs : List Char) : Prop :=
  (lexRaw cs).1.kind = .intLit →
    ((lexRaw cs).1.diags = [] → (lexRaw cs).1.value = .int (literalValue cs)) ∧
      (literalDigits cs = [] ∨ 9223372036854775808 ≤ literalValue cs → (lexRaw cs).1.diags ≠ [])

/-- A literal is right exactly if it has digits, their value fits, and it has no digits
behind what is converted, or all of them are zero. -/
theorem literalRight_iff (cs : List Char) :
    LiteralRight cs ↔
      ((lexRaw cs).1.kind = .intLit →
        literalDigits cs ≠ [] ∧ literalValue cs < 9223372036854775808 ∧
          (withoutUnderscores (unread (literalOf cs)) = [] ∨ literalValue cs = 0)) := by
  unfold LiteralRight
  refine imp_congr_right fun hint => ?_
  have hnumber := lexRaw_of_intLit hint
  rw [hnumber] at hint ⊢
  have hvalue : literalDigits cs ≠ [] →
      (lexNumber cs).1.value = .int (clampInt64 (convertedValue cs)) := by
    intro hdigits
    rcases isRadix_or_decimal cs with ⟨base, p, text, body, h⟩ | ⟨h, hliteral⟩
    · exact h.value hdigits
    · rw [h] at hint ⊢
      exact lexDecimal_value hliteral hint
  have hsame : convertedValue cs = literalValue cs ↔
      withoutUnderscores (unread (literalOf cs)) = [] ∨ literalValue cs = 0 := by
    rw [literalValue, literalDigits_eq]
    exact numeral_append_eq_iff (two_le_base cs) _ _
  have hle : convertedValue cs ≤ literalValue cs := by
    rw [literalValue, literalDigits_eq, numeral_append]
    exact Nat.le_add_right_of_le (Nat.le_mul_of_pos_right _
      (Nat.pow_pos (Nat.zero_lt_of_lt (two_le_base cs))))
  rw [lexNumber_diags, ← hsame]
  constructor
  · rintro ⟨hint64, hreported⟩
    have hdigits : literalDigits cs ≠ [] := fun h => hreported (.inl h) rfl
    have hfits : literalValue cs < 9223372036854775808 := by
      by_contra h
      exact hreported (.inr (Nat.le_of_not_lt h)) rfl
    refine ⟨hdigits, hfits, ?_⟩
    have heq := (hvalue hdigits).symm.trans (hint64 rfl)
    rw [clampInt64_of_lt (hle.trans_lt hfits), TokenValue.int.injEq] at heq
    exact Int.ofNat.inj heq
  · rintro ⟨hdigits, hfits, heq⟩
    refine ⟨fun _ => ?_, fun h => ?_⟩
    · rw [hvalue hdigits, heq, clampInt64_of_lt hfits]
    · rcases h with h | h
      · exact absurd h hdigits
      · exact absurd hfits (Nat.not_lt.2 h)

/-- `0x1_0` is 1, and not 16. -/
theorem underscore_ends_value : ¬ LiteralRight "0x1_0".toList := by
  intro h
  have hvalue := (h rfl).1 rfl
  exact absurd hvalue (by decide)

end Limceron.Parse
