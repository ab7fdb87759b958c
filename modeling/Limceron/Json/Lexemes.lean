/-
# `Limceron.Json.Lexemes` — strings and numbers are read as the grammar derives them

Each reader has two lemmas.  `_sound`: what it read is derived, and is the text before
the rest it returned.  `.read`, `.scan`: a derived text is read, whatever stands behind
it.  Only a number has to know what stands behind it (`Closes`).
-/
import Limceron.Json.Reader
import Mathlib.Data.List.TakeWhile
import Mathlib.Tactic.IntervalCases

namespace Limceron.Json

/-! ## White space and single bytes -/

theorem space_nil : Space [] := by
  intro c hc
  cases hc

theorem skipWhitespace_append {w : List UInt8} (hw : Space w) (s : List UInt8) :
    skipWhitespace (w ++ s) = skipWhitespace s :=
  List.dropWhile_append_of_pos hw

theorem skipWhitespace_cons {c : UInt8} (hc : isSpace c = false) (s : List UInt8) :
    skipWhitespace (c :: s) = c :: s := by
  rw [skipWhitespace, List.dropWhile_cons_of_neg (by simp [hc])]

theorem skipWhitespace_split (s : List UInt8) :
    ∃ w, Space w ∧ s = w ++ skipWhitespace s :=
  ⟨s.takeWhile isSpace, fun _ hc => List.mem_takeWhile_imp hc,
    (List.takeWhile_append_dropWhile).symm⟩

theorem skipWhitespace_space {w : List UInt8} (hw : Space w) : skipWhitespace w = [] := by
  rw [← List.append_nil w, skipWhitespace_append hw]
  rfl

theorem space_of_skipWhitespace {s : List UInt8} (h : skipWhitespace s = []) : Space s := by
  obtain ⟨w, hw, hs⟩ := skipWhitespace_split s
  rw [h, List.append_nil] at hs
  rw [hs]
  exact hw

theorem consume_sound {c : UInt8} {s rest : List UInt8} (h : consume c s = some rest) :
    ∃ w, Space w ∧ s = w ++ c :: rest := by
  obtain ⟨w, hw, hs⟩ := skipWhitespace_split s
  refine ⟨w, hw, ?_⟩
  unfold consume at h
  cases hskip : skipWhitespace s with
  | nil => simp [hskip] at h
  | cons d t =>
      rw [hskip] at h hs
      obtain ⟨rfl, rfl⟩ : d = c ∧ t = rest := by simpa using h
      exact hs

theorem consume_append {c : UInt8} {w : List UInt8} (hw : Space w) (hc : isSpace c = false)
    (rest : List UInt8) : consume c (w ++ c :: rest) = some rest := by
  simp [consume, skipWhitespace_append hw, skipWhitespace_cons hc]

theorem consume_ne {c d : UInt8} {w : List UInt8} (hw : Space w) (hd : isSpace d = false)
    (hne : d ≠ c) (rest : List UInt8) : consume c (w ++ d :: rest) = none := by
  simp [consume, skipWhitespace_append hw, skipWhitespace_cons hd, hne]

theorem matchLiteral_sound {lit s rest : List UInt8} (h : matchLiteral lit s = some rest) :
    s = lit ++ rest := by
  unfold matchLiteral at h
  split at h
  · next hprefix =>
      obtain ⟨t, ht⟩ := List.isPrefixOf_iff_prefix.1 hprefix
      obtain rfl : s.drop lit.length = rest := by simpa using h
      rw [← ht, List.drop_left]
  · cases h

theorem matchLiteral_append (lit rest : List UInt8) :
    matchLiteral lit (lit ++ rest) = some rest := by
  simp [matchLiteral]

/-! ## Strings -/

theorem shortEscape_sound {e b : UInt8} (h : shortEscape e = some b) : ShortEscape e b := by
  unfold shortEscape at h
  split_ifs at h with h₁ h₂ h₃ h₄ h₅ h₆ h₇ h₈ <;> obtain rfl := Option.some.inj h
  · exact h₁ ▸ .quote
  · exact h₂ ▸ .backslash
  · exact h₃ ▸ .slash
  · exact h₄ ▸ .backspace
  · exact h₅ ▸ .formFeed
  · exact h₆ ▸ .lineFeed
  · exact h₇ ▸ .carriageReturn
  · exact h₈ ▸ .tab

theorem ShortEscape.read {e b : UInt8} (h : ShortEscape e b) : shortEscape e = some b := by
  cases h <;> rfl

theorem ShortEscape.ne_u {e b : UInt8} (h : ShortEscape e b) : e ≠ 0x75 := by
  cases h <;> decide

theorem byte_eq {c : UInt8} {k : ℕ} (h : k ≤ c.toNat) : c = .ofNat (k + (c.toNat - k)) := by
  rw [Nat.add_sub_cancel' h, UInt8.ofNat_toNat]

theorem hexDigit_sound {c : UInt8} {n : ℕ} (h : hexDigit c = some n) : HexDigit c n := by
  unfold hexDigit at h
  simp only [UInt8.le_iff_toNat_le] at h
  split_ifs at h with h₁ h₂ h₃ <;> obtain rfl := Option.some.inj h
  · have hlower : 0x30 ≤ c.toNat := h₁.1
    have hupper : c.toNat ≤ 0x39 := h₁.2
    rw [byte_eq hlower]
    simpa [Nat.add_sub_cancel' hlower] using HexDigit.digit (n := c.toNat - 0x30) (by omega)
  · have hlower : 0x61 ≤ c.toNat := h₂.1
    have hupper : c.toNat ≤ 0x66 := h₂.2
    rw [byte_eq hlower]
    simpa [Nat.add_sub_cancel' hlower] using HexDigit.lower (n := c.toNat - 0x61) (by omega)
  · have hlower : 0x41 ≤ c.toNat := h₃.1
    have hupper : c.toNat ≤ 0x46 := h₃.2
    rw [byte_eq hlower]
    simpa [Nat.add_sub_cancel' hlower] using HexDigit.upper (n := c.toNat - 0x41) (by omega)

theorem HexDigit.read {c : UInt8} {n : ℕ} (h : HexDigit c n) : hexDigit c = some n := by
  cases h with
  | digit hn => interval_cases n <;> rfl
  | @upper k hk => interval_cases k <;> rfl
  | @lower k hk => interval_cases k <;> rfl

theorem codeUnit_sound {s rest : List UInt8} {cp : ℕ} (h : codeUnit s = some (cp, rest)) :
    ∃ u, CodeUnit cp u ∧ s = u ++ rest := by
  unfold codeUnit at h
  split at h
  · next a b c d t =>
      obtain ⟨v, hv, hcp⟩ := Option.map_eq_some_iff.1 h
      obtain ⟨rfl, rfl⟩ := Prod.mk.inj hcp
      simp only [hex4, Option.bind_eq_bind, Option.bind_eq_some_iff, Option.some.injEq] at hv
      obtain ⟨x, hx, y, hy, z, hz, w, hw, rfl⟩ := hv
      exact ⟨[a, b, c, d], .mk (hexDigit_sound hx) (hexDigit_sound hy) (hexDigit_sound hz)
        (hexDigit_sound hw), rfl⟩
  · cases h

theorem CodeUnit.read {cp : ℕ} {u : List UInt8} (h : CodeUnit cp u) (rest : List UInt8) :
    codeUnit (u ++ rest) = some (cp, rest) := by
  cases h with
  | mk ha hb hc hd => simp [codeUnit, hex4, ha.read, hb.read, hc.read, hd.read]

theorem lowUnit_sound {s rest : List UInt8} {lo : ℕ} (h : lowUnit s = some (lo, rest)) :
    ∃ u, CodeUnit lo u ∧ s = 0x5C :: 0x75 :: u ++ rest := by
  unfold lowUnit at h
  split at h
  · split at h
    · next hxy =>
        obtain ⟨rfl, rfl⟩ := hxy
        obtain ⟨u, hu, rfl⟩ := codeUnit_sound h
        exact ⟨u, hu, rfl⟩
    · cases h
  · cases h

theorem CodeUnit.readLow {lo : ℕ} {u : List UInt8} (h : CodeUnit lo u) (rest : List UInt8) :
    lowUnit (0x5C :: 0x75 :: (u ++ rest)) = some (lo, rest) := by
  simp [lowUnit, h.read]

theorem readUnicode_sound {s rest : List UInt8} {p : Piece} (h : readUnicode s = some (p, rest)) :
    ∃ u, PieceText p (0x5C :: 0x75 :: u) ∧ s = u ++ rest := by
  simp only [readUnicode, Option.bind_eq_bind, Option.bind_eq_some_iff, Prod.exists] at h
  obtain ⟨cp, s', hcp, h⟩ := h
  obtain ⟨u, hu, rfl⟩ := codeUnit_sound hcp
  split at h
  · next hhigh =>
      simp only [Option.bind_eq_some_iff, Prod.exists] at h
      obtain ⟨lo, s'', hlo, h⟩ := h
      obtain ⟨v, hv, rfl⟩ := lowUnit_sound hlo
      split at h
      · next hlow =>
          obtain ⟨rfl, rfl⟩ := Prod.mk.inj (Option.some.inj h)
          exact ⟨u ++ 0x5C :: 0x75 :: v, .pair hu hhigh hv hlow, by simp⟩
      · cases h
  · next hhigh =>
      obtain ⟨rfl, rfl⟩ := Prod.mk.inj (Option.some.inj h)
      exact ⟨u, .code hu hhigh, rfl⟩

theorem readPiece_sound {c : UInt8} {s rest : List UInt8} {p : Piece} (hc : c ≠ 0x22)
    (h : readPiece c s = some (p, rest)) : ∃ u, PieceText p u ∧ c :: s = u ++ rest := by
  unfold readPiece at h
  split at h
  · next hbackslash =>
      subst hbackslash
      cases s with
      | nil => cases h
      | cons esc s =>
          dsimp only at h
          split at h
          · next hu =>
              subst hu
              obtain ⟨u, hp, rfl⟩ := readUnicode_sound h
              exact ⟨_, hp, rfl⟩
          · obtain ⟨b, hb, hp⟩ := Option.map_eq_some_iff.1 h
            obtain ⟨rfl, rfl⟩ := Prod.mk.inj hp
            exact ⟨_, .short (shortEscape_sound hb), rfl⟩
  · next hbackslash =>
      split at h
      · cases h
      · next hcontrol =>
          obtain ⟨rfl, rfl⟩ := Prod.mk.inj (Option.some.inj h)
          exact ⟨[c], .raw (UInt8.not_lt.1 hcontrol) hc hbackslash, rfl⟩

/-- A piece starts with a byte that is no quote, and is read from there. -/
theorem PieceText.read {p : Piece} {u : List UInt8} (h : PieceText p u) :
    ∃ c v, u = c :: v ∧ c ≠ 0x22 ∧ ∀ rest, readPiece c (v ++ rest) = some (p, rest) := by
  cases h with
  | @raw b hcontrol hquote hbackslash =>
      refine ⟨b, [], rfl, hquote, fun rest => ?_⟩
      simp [readPiece, hbackslash, UInt8.not_lt.2 hcontrol]
  | @short e b hshort =>
      refine ⟨0x5C, [e], rfl, by decide, fun rest => ?_⟩
      simp [readPiece, hshort.ne_u, hshort.read]
  | @code cp u hu hhigh =>
      refine ⟨0x5C, 0x75 :: u, rfl, by decide, fun rest => ?_⟩
      simp [readPiece, readUnicode, hu.read, hhigh]
  | @pair hi lo u v hu hhigh hv hlow =>
      refine ⟨0x5C, 0x75 :: (u ++ 0x5C :: 0x75 :: v), rfl, by decide, fun rest => ?_⟩
      simp [readPiece, readUnicode, hu.read, hhigh, hv.readLow, hlow]

theorem readPieces_sound {n : ℕ} {s rest : List UInt8} {ps : List Piece}
    (h : readPieces n s = some (ps, rest)) : ∃ u, Chars ps u ∧ s = u ++ 0x22 :: rest := by
  induction n generalizing s ps with
  | zero => cases h
  | succ n ih =>
      cases s with
      | nil => cases h
      | cons c s =>
          rw [readPieces] at h
          split at h
          · next hc =>
              obtain ⟨rfl, rfl⟩ := Prod.mk.inj (Option.some.inj h)
              exact ⟨[], .nil, by rw [hc, List.nil_append]⟩
          · next hc =>
              obtain ⟨⟨p, s'⟩, hp, h⟩ := Option.bind_eq_some_iff.1 h
              obtain ⟨⟨qs, s''⟩, hqs, h⟩ := Option.map_eq_some_iff.1 h
              obtain ⟨rfl, rfl⟩ := Prod.mk.inj h
              obtain ⟨u, hu, hsplit⟩ := readPiece_sound hc hp
              obtain ⟨v, hv, rfl⟩ := ih hqs
              exact ⟨u ++ v, .cons hu hv, by rw [hsplit, List.append_assoc]⟩

theorem Chars.read {ps : List Piece} {u : List UInt8} (h : Chars ps u) {n : ℕ}
    (hn : u.length < n) (rest : List UInt8) :
    readPieces n (u ++ 0x22 :: rest) = some (ps, rest) := by
  induction h generalizing n with
  | nil =>
      obtain ⟨n, rfl⟩ := Nat.exists_eq_succ_of_ne_zero (Nat.ne_of_gt hn)
      simp [readPieces]
  | @cons p ps u v hp _ ih =>
      obtain ⟨c, u', rfl, hc, hread⟩ := hp.read
      obtain ⟨n, rfl⟩ := Nat.exists_eq_succ_of_ne_zero (Nat.ne_zero_of_lt hn)
      have hlength : v.length < n := by
        simp only [List.cons_append, List.length_cons, List.length_append] at hn
        omega
      rw [List.append_assoc, List.cons_append, readPieces, if_neg hc, hread, Option.bind_some]
      dsimp only
      rw [ih hlength, Option.map_some]

theorem readString_sound {s rest : List UInt8} {ps : List Piece}
    (h : readString s = some (ps, rest)) :
    ∃ u, Chars ps u ∧ s = 0x22 :: u ++ 0x22 :: rest := by
  cases s with
  | nil => cases h
  | cons c s =>
      unfold readString at h
      dsimp only at h
      split at h
      · next hc =>
          obtain ⟨u, hu, rfl⟩ := readPieces_sound h
          exact ⟨u, hu, by rw [hc]; rfl⟩
      · cases h

theorem Chars.readString {ps : List Piece} {u : List UInt8} (h : Chars ps u)
    (rest : List UInt8) : readString (0x22 :: (u ++ 0x22 :: rest)) = some (ps, rest) := by
  have hlength : u.length < (u ++ 0x22 :: rest).length + 1 := by
    simp only [List.length_append, List.length_cons]
    omega
  simpa [Json.readString] using h.read hlength rest

/-! ## Numbers -/

/-- What may stand behind a value. -/
def Closes (s : List UInt8) : Prop :=
  ∀ c ∈ s.head?, isSpace c = true ∨ c = 0x2C ∨ c = 0x5D ∨ c = 0x7D

/-- No digit comes next. -/
def Stops (s : List UInt8) : Prop := ∀ c ∈ s.head?, isDigit c = false

theorem stops_nil : Stops [] := by
  intro c hc
  cases hc

theorem stops_cons {c : UInt8} (h : isDigit c = false) (s : List UInt8) : Stops (c :: s) := by
  rintro d ⟨⟩
  exact h

theorem Closes.ne {c : UInt8} {s : List UInt8} (h : Closes (c :: s)) :
    isDigit c = false ∧ c ≠ 0x2E ∧ c ≠ 0x65 ∧ c ≠ 0x45 := by
  rcases h c rfl with hspace | rfl | rfl | rfl
  · simp only [isSpace, Bool.or_eq_true, decide_eq_true_eq] at hspace
    rcases hspace with ((rfl | rfl) | rfl) | rfl <;> decide
  · decide
  · decide
  · decide

theorem Closes.stops {s : List UInt8} (h : Closes s) : Stops s := by
  cases s with
  | nil => exact stops_nil
  | cons c s => exact stops_cons h.ne.1 s

theorem takeWhile_digits {ds s : List UInt8} (hds : Digits ds) (hs : Stops s) :
    (ds ++ s).takeWhile isDigit = ds := by
  rw [List.takeWhile_append_of_pos hds]
  cases s with
  | nil => simp
  | cons c s => rw [List.takeWhile_cons_of_neg (by simp [hs c rfl]), List.append_nil]

theorem dropWhile_digits {ds s : List UInt8} (hds : Digits ds) (hs : Stops s) :
    (ds ++ s).dropWhile isDigit = s := by
  rw [List.dropWhile_append_of_pos hds]
  cases s with
  | nil => rfl
  | cons c s => rw [List.dropWhile_cons_of_neg (by simp [hs c rfl])]

theorem digits_takeWhile (s : List UInt8) : Digits (s.takeWhile isDigit) :=
  fun _ hc => List.mem_takeWhile_imp hc

theorem scanMinus_sound (s : List UInt8) :
    MinusText (scanMinus s).1 ∧ s = (scanMinus s).1 ++ (scanMinus s).2 := by
  cases s with
  | nil => exact ⟨.absent, rfl⟩
  | cons c s =>
      unfold scanMinus
      dsimp only
      split
      · next hc => exact ⟨hc ▸ .minus, rfl⟩
      · exact ⟨.absent, rfl⟩

theorem scanSign_sound (s : List UInt8) :
    SignText (scanSign s).1 ∧ s = (scanSign s).1 ++ (scanSign s).2 := by
  cases s with
  | nil => exact ⟨.absent, rfl⟩
  | cons c s =>
      unfold scanSign
      dsimp only
      split
      · next hc =>
          rcases hc with rfl | rfl
          · exact ⟨.plus, rfl⟩
          · exact ⟨.minus, rfl⟩
      · exact ⟨.absent, rfl⟩

theorem scanInteger_sound {s rest text : List UInt8} (h : scanInteger s = some (text, rest)) :
    IntegerText text ∧ s = text ++ rest := by
  cases s with
  | nil => cases h
  | cons c s =>
      unfold scanInteger at h
      dsimp only at h
      split_ifs at h with hzero hdigit
      · obtain ⟨rfl, rfl⟩ := Prod.mk.inj (Option.some.inj h)
        exact ⟨hzero ▸ .zero, rfl⟩
      · obtain ⟨rfl, rfl⟩ := Prod.mk.inj (Option.some.inj h)
        exact ⟨.digits hdigit.1 hdigit.2 (digits_takeWhile s), by simp⟩

theorem scanFraction_sound {s rest text : List UInt8} (h : scanFraction s = some (text, rest)) :
    FractionText text ∧ s = text ++ rest := by
  cases s with
  | nil =>
      obtain ⟨rfl, rfl⟩ := Prod.mk.inj (Option.some.inj h)
      exact ⟨.absent, rfl⟩
  | cons c s =>
      unfold scanFraction at h
      dsimp only at h
      split_ifs at h with hpoint hnone
      · obtain ⟨rfl, rfl⟩ := Prod.mk.inj (Option.some.inj h)
        exact ⟨hpoint ▸ .digits hnone (digits_takeWhile s), by simp⟩
      · obtain ⟨rfl, rfl⟩ := Prod.mk.inj (Option.some.inj h)
        exact ⟨.absent, rfl⟩

theorem scanExponent_sound {s rest text : List UInt8} (h : scanExponent s = some (text, rest)) :
    ExponentText text ∧ s = text ++ rest := by
  cases s with
  | nil =>
      obtain ⟨rfl, rfl⟩ := Prod.mk.inj (Option.some.inj h)
      exact ⟨.absent, rfl⟩
  | cons c s =>
      obtain ⟨hsign, hsplit⟩ := scanSign_sound s
      unfold scanExponent at h
      dsimp only at h
      split_ifs at h with he hnone
      · obtain ⟨rfl, rfl⟩ := Prod.mk.inj (Option.some.inj h)
        refine ⟨.digits he hsign hnone (digits_takeWhile _), ?_⟩
        rw [List.append_assoc, List.takeWhile_append_dropWhile, List.cons_append, ← hsplit]
      · obtain ⟨rfl, rfl⟩ := Prod.mk.inj (Option.some.inj h)
        exact ⟨.absent, rfl⟩

theorem scanNumber_sound {s rest text : List UInt8} (h : scanNumber s = some (text, rest)) :
    NumberText text ∧ s = text ++ rest := by
  obtain ⟨hminus, hsplit⟩ := scanMinus_sound s
  simp only [scanNumber, Option.bind_eq_bind, Option.bind_eq_some_iff, Prod.exists] at h
  obtain ⟨int, s₁, hint, fraction, s₂, hfraction, exponent, s₃, hexponent, h⟩ := h
  obtain ⟨rfl, rfl⟩ := Prod.mk.inj (Option.some.inj h)
  obtain ⟨hint, hsplit₁⟩ := scanInteger_sound hint
  obtain ⟨hfraction, hsplit₂⟩ := scanFraction_sound hfraction
  obtain ⟨hexponent, hsplit₃⟩ := scanExponent_sound hexponent
  refine ⟨.mk hminus hint hfraction hexponent, ?_⟩
  rw [hsplit₁, hsplit₂, hsplit₃] at hsplit
  simpa using hsplit

theorem isDigit_of_le {c : UInt8} (hlower : 0x31 ≤ c) (hupper : c ≤ 0x39) : isDigit c = true := by
  have hzero : (0x30 : UInt8) ≤ c := UInt8.le_trans (by decide) hlower
  simp [isDigit, hzero, hupper]

/-- A number starts with a sign or a digit. -/
theorem IntegerText.head {text : List UInt8} (h : IntegerText text) :
    ∃ c ds, text = c :: ds ∧ isDigit c = true := by
  cases h with
  | zero => exact ⟨_, _, rfl, by decide⟩
  | digits hlower hupper _ => exact ⟨_, _, rfl, isDigit_of_le hlower hupper⟩

theorem MinusText.scan {minus int : List UInt8} (h : MinusText minus) (hint : IntegerText int)
    (rest : List UInt8) : scanMinus (minus ++ (int ++ rest)) = (minus, int ++ rest) := by
  cases h with
  | minus => simp [scanMinus]
  | absent =>
      obtain ⟨c, ds, rfl, hc⟩ := hint.head
      have hne : c ≠ 0x2D := by
        rintro rfl
        cases hc
      simp [scanMinus, hne]

theorem IntegerText.scan {text : List UInt8} (h : IntegerText text) {rest : List UInt8}
    (hrest : Stops rest) : scanInteger (text ++ rest) = some (text, rest) := by
  cases h with
  | zero => simp [scanInteger]
  | @digits c ds hlower hupper hds =>
      have hne : c ≠ 0x30 := by
        rintro rfl
        exact absurd hlower (by decide)
      simp [scanInteger, hne, hlower, hupper, takeWhile_digits hds hrest,
        dropWhile_digits hds hrest]

theorem FractionText.scan {text : List UInt8} (h : FractionText text) {rest : List UInt8}
    (hrest : Stops rest) (hpoint : ∀ c ∈ rest.head?, c ≠ 0x2E) :
    scanFraction (text ++ rest) = some (text, rest) := by
  cases h with
  | digits hne hds =>
      simp [scanFraction, hne, takeWhile_digits hds hrest, dropWhile_digits hds hrest]
  | absent =>
      cases rest with
      | nil => rfl
      | cons c rest => simp [scanFraction, hpoint c rfl]

theorem SignText.scan {sign ds : List UInt8} (h : SignText sign) (hne : ds ≠ [])
    (hds : Digits ds) (rest : List UInt8) :
    scanSign (sign ++ (ds ++ rest)) = (sign, ds ++ rest) := by
  cases h with
  | plus => simp [scanSign]
  | minus => simp [scanSign]
  | absent =>
      obtain ⟨d, ds, rfl⟩ := List.exists_cons_of_ne_nil hne
      have hdigit := hds d List.mem_cons_self
      have hsign : ¬ (d = 0x2B ∨ d = 0x2D) := by
        rintro (rfl | rfl) <;> cases hdigit
      simp [scanSign, hsign]

theorem ExponentText.scan {text : List UInt8} (h : ExponentText text) {rest : List UInt8}
    (hrest : Closes rest) : scanExponent (text ++ rest) = some (text, rest) := by
  cases h with
  | @digits e sign ds he hsign hne hds =>
      have hscan := hsign.scan hne hds rest
      simp [scanExponent, he, hscan, hne, takeWhile_digits hds hrest.stops,
        dropWhile_digits hds hrest.stops]
  | absent =>
      cases rest with
      | nil => rfl
      | cons c rest => simp [scanExponent, hrest.ne.2.2.1, hrest.ne.2.2.2]

/-- Neither digits nor a fraction go on at an exponent. -/
theorem ExponentText.stops {text : List UInt8} (h : ExponentText text) {rest : List UInt8}
    (hrest : Closes rest) :
    Stops (text ++ rest) ∧ ∀ c ∈ (text ++ rest).head?, c ≠ 0x2E := by
  cases h with
  | digits he hsign hne hds =>
      rcases he with rfl | rfl
      · exact ⟨stops_cons (by decide) _, by simp⟩
      · exact ⟨stops_cons (by decide) _, by simp⟩
  | absent =>
      cases rest with
      | nil => exact ⟨stops_nil, by simp⟩
      | cons c rest => exact ⟨stops_cons hrest.ne.1 _, by simp [hrest.ne.2.1]⟩

theorem FractionText.stops {text : List UInt8} (h : FractionText text) {rest : List UInt8}
    (hrest : Stops rest) : Stops (text ++ rest) := by
  cases h with
  | digits _ _ => exact stops_cons (by decide) _
  | absent => exact hrest

theorem NumberText.scan {text : List UInt8} (h : NumberText text) {rest : List UInt8}
    (hrest : Closes rest) : scanNumber (text ++ rest) = some (text, rest) := by
  cases h with
  | @mk minus int fraction exponent hminus hint hfraction hexponent =>
      obtain ⟨hstops, hpoint⟩ := hexponent.stops hrest
      have hscan := hminus.scan hint (fraction ++ (exponent ++ rest))
      simp [scanNumber, hscan, hint.scan (hfraction.stops hstops), hfraction.scan hstops hpoint,
        hexponent.scan hrest]

theorem NumberText.head {text : List UInt8} (h : NumberText text) :
    ∃ c s, text = c :: s ∧ (c = 0x2D ∨ isDigit c = true) := by
  cases h with
  | mk hminus hint _ _ =>
      cases hminus with
      | minus => exact ⟨_, _, rfl, .inl rfl⟩
      | absent =>
          obtain ⟨c, ds, rfl, hc⟩ := hint.head
          exact ⟨_, _, rfl, .inr hc⟩

end Limceron.Json
