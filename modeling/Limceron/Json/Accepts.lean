/-
# `Limceron.Json.Accepts` — the parser against RFC 8259

The parser accepts the texts of the grammar whose numbers it can convert
(`accepts_iff`).  That is not RFC 8259 in two places:

| text                                       | RFC  | parser  |
|--------------------------------------------|------|---------|
| a second surrogate alone, as `"\udc00"`    | no   | accepts |
| a number that underflows, as `1e-400`      | yes  | rejects |

`MeetsGrammar` is the agreement of the two on a text; it fails where one of the two
stands in the text, and not the other (`meetsGrammar_iff`).
-/
import Limceron.Json.Derives

namespace Limceron.Json

open Binary64

/-! ## Numbers -/

def Tree.Underflows (t : Tree) : Prop :=
  ∃ text ∈ t.numbers, Binary64.Underflows (scanDecimal text).value

theorem SignText.of_minus {minus : List UInt8} (h : MinusText minus) : SignText minus := by
  cases h with
  | absent => exact .absent
  | minus => exact .minus

theorem IntegerText.isDigits {text : List UInt8} (h : IntegerText text) :
    text ≠ [] ∧ Digits text := by
  cases h with
  | zero => exact ⟨List.cons_ne_nil _ _, by simp [Digits, isDigit]⟩
  | digits hlower hupper hds =>
      refine ⟨List.cons_ne_nil _ _, fun d hd => ?_⟩
      rcases List.mem_cons.1 hd with rfl | hd
      · exact isDigit_of_le hlower hupper
      · exact hds d hd

theorem FractionText.strtod {text : List UInt8} (h : FractionText text) {rest : List UInt8}
    (hrest : Stops rest) (hpoint : ∀ c ∈ rest.head?, c ≠ 0x2E) :
    (strtodFraction (text ++ rest)).2 = rest := by
  cases h with
  | digits hne hds => simp [strtodFraction, dropWhile_digits hds hrest]
  | absent =>
      cases rest with
      | nil => rfl
      | cons c rest => simp [strtodFraction, hpoint c rfl]

theorem ExponentText.strtod {text : List UInt8} (h : ExponentText text) :
    (strtodExponent text).2 = [] := by
  cases h with
  | absent => rfl
  | @digits e sign ds he hsign hne hds =>
      have hscan := hsign.scan hne hds []
      have htake := takeWhile_digits hds stops_nil
      have hdrop := dropWhile_digits hds stops_nil
      rw [List.append_nil] at hscan htake hdrop
      simp [strtodExponent, hscan, he, hne, htake, hdrop]

/-- `strtod` converts the whole text of a number. -/
theorem NumberText.scanDecimal {text : List UInt8} (h : NumberText text) :
    (scanDecimal text).int ≠ [] ∧ (scanDecimal text).rest = [] := by
  cases h with
  | @mk minus int fraction exponent hminus hint hfraction hexponent =>
      obtain ⟨hne, hds⟩ := hint.isDigits
      have hclose : Closes [] := closes_space space_nil
      obtain ⟨hstops, hpoint⟩ := hexponent.stops hclose
      rw [List.append_nil] at hstops hpoint
      have hscan := (SignText.of_minus hminus).scan hne hds (fraction ++ exponent)
      have hbehind := hfraction.stops hstops
      have hrest := hfraction.strtod hstops hpoint
      have hend := hexponent.strtod
      constructor
      · simp [Json.scanDecimal, hscan, takeWhile_digits hds hbehind, hne]
      · simp [Json.scanDecimal, hscan, dropWhile_digits hds hbehind, hrest, hend]

/-- A number is refused, where it underflows. -/
theorem numberOf_eq {text : List UInt8} (h : NumberText text) :
    numberOf text = if Binary64.Underflows (Json.scanDecimal text).value then none
      else some (ofRat (Json.scanDecimal text).value) := by
  obtain ⟨hint, hrest⟩ := h.scanDecimal
  have hne : ¬ ((Json.scanDecimal text).int ++ (Json.scanDecimal text).fraction = []) := by
    simp [hint]
  simp only [numberOf, strtod, if_neg hne, hrest]
  generalize (Json.scanDecimal text).value = q
  cases hq : ofRat q with
  | finite x hx => by_cases hflag : Binary64.Underflows q <;> simp [Double.isInfinite, hflag]
  | infinite negative =>
      have hflag : ¬ Binary64.Underflows q := not_underflows_of_infinite hq
      simp [Double.isInfinite, hflag]

theorem numberOf_isSome {text : List UInt8} (h : NumberText text) :
    (numberOf text).isSome ↔ ¬ Binary64.Underflows (Json.scanDecimal text).value := by
  rw [numberOf_eq h]
  split <;> simp [*]

/-! ## The parts of a derived tree -/

mutual

theorem ValueText.parts {t : Tree} {u : List UInt8} (h : ValueText t u) :
    (∀ text ∈ t.numbers, NumberText text) ∧ ∀ ps ∈ t.strings, ∃ k, Chars ps k := by
  match h with
  | .null | .yes | .no | .emptyArray _ | .emptyObject _ =>
      simp [Tree.numbers, Tree.strings, itemNumbers, itemStrings, memberNumbers, memberStrings]
  | .number hnumber => simpa [Tree.numbers, Tree.strings] using hnumber
  | .string hchars => simpa [Tree.numbers, Tree.strings] using ⟨_, hchars⟩
  | .array hitems => exact hitems.parts
  | .object hmembers => exact hmembers.parts

theorem ItemsText.parts {ts : List Tree} {u : List UInt8} (h : ItemsText ts u) :
    (∀ text ∈ itemNumbers ts, NumberText text) ∧ ∀ ps ∈ itemStrings ts, ∃ k, Chars ps k := by
  match h with
  | .one _ hu _ =>
      obtain ⟨hnumbers, hstrings⟩ := hu.parts
      simp only [itemNumbers, itemStrings, List.append_nil]
      exact ⟨hnumbers, hstrings⟩
  | .more _ hu _ hts =>
      obtain ⟨hnumbers, hstrings⟩ := hu.parts
      obtain ⟨hnumbers', hstrings'⟩ := hts.parts
      simp only [itemNumbers, itemStrings, List.forall_mem_append]
      exact ⟨⟨hnumbers, hnumbers'⟩, hstrings, hstrings'⟩

theorem MemberText.parts {m : List Piece × Tree} {u : List UInt8} (h : MemberText m u) :
    (∀ text ∈ m.2.numbers, NumberText text) ∧
      ∀ ps ∈ m.1 :: m.2.strings, ∃ k, Chars ps k := by
  match h with
  | .mk _ hk _ _ hu _ =>
      obtain ⟨hnumbers, hstrings⟩ := hu.parts
      exact ⟨hnumbers, List.forall_mem_cons.2 ⟨⟨_, hk⟩, hstrings⟩⟩

theorem MembersText.parts {ms : List (List Piece × Tree)} {u : List UInt8}
    (h : MembersText ms u) :
    (∀ text ∈ memberNumbers ms, NumberText text) ∧
      ∀ ps ∈ memberStrings ms, ∃ k, Chars ps k := by
  match h with
  | .one hm =>
      obtain ⟨hnumbers, hstrings⟩ := hm.parts
      simp only [memberNumbers, memberStrings, List.append_nil]
      exact ⟨hnumbers, hstrings⟩
  | .more hm hms =>
      obtain ⟨hnumbers, hstrings⟩ := hm.parts
      obtain ⟨hnumbers', hstrings'⟩ := hms.parts
      simp only [memberNumbers, memberStrings, List.forall_mem_append]
      exact ⟨⟨hnumbers, hnumbers'⟩, hstrings, hstrings'⟩

end

mutual

/-- A tree has a value, if its numbers have one. -/
theorem Tree.eval_isSome (t : Tree) :
    t.eval.isSome ↔ ∀ text ∈ t.numbers, (numberOf text).isSome := by
  match t with
  | .null | .boolean _ | .string _ => simp [Tree.eval, Tree.numbers]
  | .number text => simp [Tree.eval, Tree.numbers]
  | .array ts => simpa [Tree.eval, Tree.numbers] using evalItems_isSome ts
  | .object ms => simpa [Tree.eval, Tree.numbers] using evalMembers_isSome ms []

theorem evalItems_isSome (ts : List Tree) :
    (evalItems ts).isSome ↔ ∀ text ∈ itemNumbers ts, (numberOf text).isSome := by
  match ts with
  | [] => simp [evalItems, itemNumbers]
  | t :: ts =>
      rw [itemNumbers, List.forall_mem_append, ← Tree.eval_isSome t, ← evalItems_isSome ts,
        evalItems]
      cases t.eval <;> simp

theorem evalMembers_isSome (ms : List (List Piece × Tree))
    (members : List (List UInt8 × LcnJsonValue)) :
    (evalMembers members ms).isSome ↔ ∀ text ∈ memberNumbers ms, (numberOf text).isSome := by
  match ms with
  | [] => simp [evalMembers, memberNumbers]
  | (key, t) :: ms =>
      rw [memberNumbers, List.forall_mem_append, ← Tree.eval_isSome t, evalMembers]
      cases t.eval with
      | none => simp
      | some v =>
          rw [Option.bind_some, evalMembers_isSome ms]
          simp

end

theorem JsonText.parts {t : Tree} {s : List UInt8} (h : JsonText t s) :
    (∀ text ∈ t.numbers, NumberText text) ∧ ∀ ps ∈ t.strings, ∃ k, Chars ps k := by
  cases h with
  | mk _ hu _ => exact hu.parts

theorem JsonText.eval_isSome {t : Tree} {s : List UInt8} (h : JsonText t s) :
    t.eval.isSome ↔ ¬ t.Underflows := by
  rw [Tree.eval_isSome, Tree.Underflows]
  push Not
  exact forall₂_congr fun text htext => numberOf_isSome (h.parts.1 text htext)

/-- The texts the parser accepts. -/
theorem accepts_iff {s : List UInt8} :
    (lcnJsonParse s).isSome ↔ ∃ t, JsonText t s ∧ ¬ t.Underflows := by
  simp only [Option.isSome_iff_exists, lcnJsonParse_iff]
  constructor
  · rintro ⟨v, t, ht, hv⟩
    exact ⟨t, ht, ht.eval_isSome.1 (by simp [hv])⟩
  · rintro ⟨t, ht, hflag⟩
    obtain ⟨v, hv⟩ := Option.isSome_iff_exists.1 (ht.eval_isSome.2 hflag)
    exact ⟨v, t, ht, hv⟩

/-- A number alone is accepted, unless it underflows. -/
theorem accepts_number {u : List UInt8} (h : NumberText u) :
    (lcnJsonParse u).isSome ↔ ¬ Binary64.Underflows (scanDecimal u).value := by
  have htext := JsonText.mk space_nil (.number h) space_nil
  rw [List.nil_append, List.append_nil] at htext
  have hflag : (Tree.number u).Underflows ↔ Binary64.Underflows (scanDecimal u).value := by
    simp [Tree.Underflows, Tree.numbers]
  rw [accepts_iff, ← hflag]
  exact ⟨fun ⟨t, ht, hnone⟩ => ht.unique htext ▸ hnone, fun hnone => ⟨_, htext, hnone⟩⟩

/-! ## UTF-8 -/

theorem continuation_eq (x : ℕ) : 0x80 ||| x &&& 0x3F = x % 64 + 0x80 := by
  have hlow : x % 64 < 2 ^ 7 := by omega
  have hmask : x &&& 0x3F = x % 64 := Nat.and_two_pow_sub_one_eq_mod x 6
  rw [hmask, ← Nat.two_pow_add_eq_or_of_lt hlow 1]
  omega

/-- On a Unicode scalar value it is UTF-8. -/
theorem encodeUtf8_eq (c : Char) : encodeUtf8 c.toNat = String.utf8EncodeChar c := by
  have hbound : c.toNat < 0x110000 := by
    have := c.valid
    simp only [UInt32.isValidChar, Nat.isValidChar] at this
    simp only [Char.toNat]
    omega
  unfold encodeUtf8 String.utf8EncodeChar
  rw [show c.val.toNat = c.toNat from rfl]
  generalize c.toNat = v at hbound
  dsimp only
  simp only [continuation_eq, Nat.shiftRight_eq_div_pow, Nat.reducePow]
  split_ifs with h₁ h₂ h₃ h₄
  · rfl
  · have hlow : v / 64 < 2 ^ 6 := by omega
    rw [← Nat.two_pow_add_eq_or_of_lt hlow 3, Nat.mod_eq_of_lt (by omega : v / 64 < 32)]
    congr 2
    omega
  · have hlow : v / 4096 < 2 ^ 5 := by omega
    rw [← Nat.two_pow_add_eq_or_of_lt hlow 7, Nat.mod_eq_of_lt (by omega : v / 4096 < 16)]
    congr 2
    omega
  · have hlow : v / 262144 < 2 ^ 4 := by omega
    rw [← Nat.two_pow_add_eq_or_of_lt hlow 15, Nat.mod_eq_of_lt (by omega : v / 262144 < 8)]
    congr 2
    omega
  · omega

theorem encodeUtf8_wellFormed {cp : ℕ} (h : cp.isValidChar) :
    ∃ c : Char, encodeUtf8 cp = String.utf8EncodeChar c := by
  refine ⟨Char.ofNat cp, ?_⟩
  have hpoint : (Char.ofNat cp).toNat = cp := by
    rw [Char.ofNat, dif_pos h]
    rfl
  rw [← encodeUtf8_eq, hpoint]

def Piece.IsEscape : Piece → Prop
  | .raw _ => False
  | _ => True

/-- Every escape stands for one character, in UTF-8. -/
def Tree.DecodesWell (t : Tree) : Prop :=
  ∀ ps ∈ t.strings, ∀ p ∈ ps, p.IsEscape → ∃ c : Char, p.decode = String.utf8EncodeChar c

theorem HexDigit.lt {c : UInt8} {n : ℕ} (h : HexDigit c n) : n < 16 := by
  cases h <;> omega

theorem CodeUnit.lt {cp : ℕ} {u : List UInt8} (h : CodeUnit cp u) : cp < 0x10000 := by
  cases h with
  | mk ha hb hc hd =>
      have := ha.lt
      have := hb.lt
      have := hc.lt
      have := hd.lt
      omega

theorem pairPoint_valid {hi lo : ℕ} (hhigh : isHigh hi) (hlow : isLow lo) :
    (pairPoint hi lo).isValidChar := by
  obtain ⟨h₁, h₂⟩ := hhigh
  obtain ⟨h₃, h₄⟩ := hlow
  unfold Nat.isValidChar pairPoint
  rw [Nat.shiftLeft_eq]
  omega

theorem PieceText.wellFormed {p : Piece} {u : List UInt8} (h : PieceText p u)
    (hescape : p.IsEscape) (hlone : ¬ p.LoneLow) :
    ∃ c : Char, p.decode = String.utf8EncodeChar c := by
  cases h with
  | raw _ _ _ => cases hescape
  | short hshort =>
      cases hshort with
      | quote => exact ⟨'"', rfl⟩
      | backslash => exact ⟨'\\', rfl⟩
      | slash => exact ⟨'/', rfl⟩
      | backspace => exact ⟨'\x08', rfl⟩
      | formFeed => exact ⟨'\x0C', rfl⟩
      | lineFeed => exact ⟨'\n', rfl⟩
      | carriageReturn => exact ⟨'\r', rfl⟩
      | tab => exact ⟨'\t', rfl⟩
  | @code cp u hu hhigh =>
      have hlow : ¬ isLow cp := hlone
      have hbound := hu.lt
      refine encodeUtf8_wellFormed ?_
      unfold isHigh at hhigh
      unfold isLow at hlow
      unfold Nat.isValidChar
      omega
  | pair _ hhigh _ hlow => exact encodeUtf8_wellFormed (pairPoint_valid hhigh hlow)

theorem Chars.piece {ps : List Piece} {u : List UInt8} (h : Chars ps u) {p : Piece}
    (hp : p ∈ ps) : ∃ v, PieceText p v := by
  induction h with
  | nil => cases hp
  | cons hpiece _ ih =>
      rcases List.mem_cons.1 hp with rfl | hp
      · exact ⟨_, hpiece⟩
      · exact ih hp

theorem JsonText.decodesWell {t : Tree} {s : List UInt8} (h : JsonText t s)
    (hlone : ¬ t.LoneLow) : t.DecodesWell := by
  intro ps hps p hp hescape
  obtain ⟨k, hk⟩ := h.parts.2 ps hps
  obtain ⟨v, hv⟩ := hk.piece hp
  exact hv.wellFormed hescape fun hlow => hlone ⟨ps, hps, p, hp, hlow⟩

/-! ## The agreement -/

/-- The parser accepts the text, if and only if it is one of RFC 8259, and decodes its
escapes to UTF-8 then. -/
def MeetsGrammar (s : List UInt8) : Prop :=
  ((lcnJsonParse s).isSome ↔ Rfc s) ∧
    ∀ v, lcnJsonParse s = some v → ∃ t, JsonText t s ∧ t.eval = some v ∧ t.DecodesWell

theorem meetsGrammar_iff (s : List UInt8) :
    MeetsGrammar s ↔ ∀ t, JsonText t s → (t.LoneLow ↔ t.Underflows) := by
  constructor
  · rintro ⟨hagree, -⟩ t ht
    rw [accepts_iff] at hagree
    constructor
    · intro hlone
      by_contra hflag
      obtain ⟨t', ht', hlone'⟩ := hagree.1 ⟨t, ht, hflag⟩
      exact hlone' (ht'.unique ht ▸ hlone)
    · intro hflag
      by_contra hlone
      obtain ⟨t', ht', hflag'⟩ := hagree.2 ⟨t, ht, hlone⟩
      exact hflag' (ht'.unique ht ▸ hflag)
  · intro h
    constructor
    · rw [accepts_iff]
      exact exists_congr fun t => and_congr_right fun ht => not_congr (h t ht).symm
    · intro v hv
      obtain ⟨t, ht, heval⟩ := lcnJsonParse_iff.1 hv
      have hflag : ¬ t.Underflows := ht.eval_isSome.1 (by simp [heval])
      exact ⟨t, ht, heval, ht.decodesWell fun hlone => hflag ((h t ht).1 hlone)⟩

/-- `"\udc00"` is accepted. -/
theorem lone_low_accepted : ¬ MeetsGrammar (ascii "\"\\udc00\"") := by
  rintro ⟨hagree, -⟩
  have haccepts : (lcnJsonParse (ascii "\"\\udc00\"")).isSome := by decide +kernel
  obtain ⟨t, ht, hlone⟩ := hagree.1 haccepts
  have hread : readText (ascii "\"\\udc00\"") = some (.string [.code 0xDC00]) := rfl
  obtain rfl := ht.unique (readText_iff.1 hread)
  exact hlone ⟨_, List.mem_cons_self, _, List.mem_cons_self, show isLow 0xDC00 by decide⟩

end Limceron.Json
