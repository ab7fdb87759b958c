/-
# `Limceron.Json.RoundTrip` — what is written is read back

The text of a value is derived by the grammar, as the tree `treeOf`; the value of that
tree is the value (`parse_stringify`).

`Plain` is where it holds: the numbers are integers of at most `10 ^ 15`, and the keys of
an object are C strings, no two of them the same.  A string may hold any bytes.
-/
import Limceron.Json.Accepts

namespace Limceron.Json

open Binary64

/-! ## Plain values -/

mutual

def Plain : LcnJsonValue → Prop
  | .null => True
  | .boolean _ => True
  | .number d => ∃ n : ℤ, |n| ≤ 10 ^ 15 ∧ ∃ h, d = .finite n h
  | .string _ => True
  | .array items => PlainItems items
  | .object members => (members.map Prod.fst).Nodup ∧ PlainMembers members

def PlainItems : List LcnJsonValue → Prop
  | [] => True
  | v :: items => Plain v ∧ PlainItems items

def PlainMembers : List (List UInt8 × LcnJsonValue) → Prop
  | [] => True
  | (key, v) :: members => 0 ∉ key ∧ Plain v ∧ PlainMembers members

end

/-! ## Values of a shape -/

mutual

/-- The numbers are as `P` says, and the keys of an object C strings, no two of them the same. -/
def Shaped (P : Double → Prop) : LcnJsonValue → Prop
  | .null => True
  | .boolean _ => True
  | .number d => P d
  | .string _ => True
  | .array items => ShapedItems P items
  | .object members => (members.map Prod.fst).Nodup ∧ ShapedMembers P members

def ShapedItems (P : Double → Prop) : List LcnJsonValue → Prop
  | [] => True
  | v :: items => Shaped P v ∧ ShapedItems P items

def ShapedMembers (P : Double → Prop) : List (List UInt8 × LcnJsonValue) → Prop
  | [] => True
  | (key, v) :: members => 0 ∉ key ∧ Shaped P v ∧ ShapedMembers P members

end

/-- An integer of at most `10 ^ 15`. -/
def SmallInt (d : Double) : Prop := ∃ n : ℤ, |n| ≤ 10 ^ 15 ∧ ∃ h, d = .finite n h

mutual

theorem Plain.shaped {v : LcnJsonValue} (h : Plain v) : Shaped SmallInt v := by
  match v with
  | .null | .boolean _ | .string _ => trivial
  | .number d => exact h
  | .array items => exact PlainItems.shaped h
  | .object members => exact ⟨h.1, PlainMembers.shaped h.2⟩

theorem PlainItems.shaped {items : List LcnJsonValue} (h : PlainItems items) :
    ShapedItems SmallInt items := by
  match items with
  | [] => trivial
  | v :: items => exact ⟨Plain.shaped h.1, PlainItems.shaped h.2⟩

theorem PlainMembers.shaped {members : List (List UInt8 × LcnJsonValue)}
    (h : PlainMembers members) : ShapedMembers SmallInt members := by
  match members with
  | [] => trivial
  | (key, v) :: members => exact ⟨h.1, Plain.shaped h.2.1, PlainMembers.shaped h.2.2⟩

end

/-! ## The tree of what is written -/

def pieceOf (c : UInt8) : Piece :=
  if c = 0x22 ∨ c = 0x5C ∨ c = 0x08 ∨ c = 0x0C ∨ c = 0x0A ∨ c = 0x0D ∨ c = 0x09 then .short c
  else if c < 0x20 then .code c.toNat
  else .raw c

mutual

def treeOf : LcnJsonValue → Tree
  | .null => .null
  | .boolean b => .boolean b
  | .number d => .number (stringifyNumber d)
  | .string str => .string (str.map pieceOf)
  | .array items => .array (itemTrees items)
  | .object members => .object (memberTrees members)

def itemTrees : List LcnJsonValue → List Tree
  | [] => []
  | v :: items => treeOf v :: itemTrees items

def memberTrees : List (List UInt8 × LcnJsonValue) → List (List Piece × Tree)
  | [] => []
  | (key, v) :: members => ((cstr key).map pieceOf, treeOf v) :: memberTrees members

end

/-! ## Strings -/

theorem hex4_control {n : ℕ} (h : n < 32) :
    hex4 0x30 0x30 (hexChar (.ofNat n / 16)) (hexChar (.ofNat n % 16)) = some n := by
  interval_cases n <;> rfl

theorem codeUnit_control {c : UInt8} (h : c < 0x20) :
    CodeUnit c.toNat [0x30, 0x30, hexChar (c / 16), hexChar (c % 16)] := by
  have hlt : c.toNat < 32 := UInt8.lt_iff_toNat_lt.1 h
  have hhex := hex4_control hlt
  rw [UInt8.ofNat_toNat] at hhex
  have hread : codeUnit [0x30, 0x30, hexChar (c / 16), hexChar (c % 16)] = some (c.toNat, []) := by
    rw [codeUnit, hhex]
    rfl
  obtain ⟨u, hu, hsplit⟩ := codeUnit_sound hread
  rw [hsplit, List.append_nil]
  exact hu

theorem pieceText_stringifyByte (c : UInt8) : PieceText (pieceOf c) (stringifyByte c) := by
  unfold pieceOf stringifyByte
  by_cases hshort :
      c = 0x22 ∨ c = 0x5C ∨ c = 0x08 ∨ c = 0x0C ∨ c = 0x0A ∨ c = 0x0D ∨ c = 0x09
  · rw [if_pos hshort]
    rcases hshort with rfl | rfl | rfl | rfl | rfl | rfl | rfl
    · exact .short .quote
    · exact .short .backslash
    · exact .short .backspace
    · exact .short .formFeed
    · exact .short .lineFeed
    · exact .short .carriageReturn
    · exact .short .tab
  · rw [if_neg hshort]
    push Not at hshort
    obtain ⟨hquote, hbackslash, hb, hf, hn, hr, ht⟩ := hshort
    rw [if_neg hquote, if_neg hbackslash, if_neg hb, if_neg hf, if_neg hn, if_neg hr, if_neg ht]
    split
    · next hcontrol =>
        refine .code (codeUnit_control hcontrol) fun hhigh => ?_
        have hlt : c.toNat < 32 := UInt8.lt_iff_toNat_lt.1 hcontrol
        have := hhigh.1
        omega
    · next hcontrol => exact .raw (UInt8.not_lt.1 hcontrol) hquote hbackslash

theorem decode_pieceOf (c : UInt8) : (pieceOf c).decode = [c] := by
  unfold pieceOf
  split_ifs with hshort hcontrol
  · rfl
  · have hlt : c.toNat < 32 := UInt8.lt_iff_toNat_lt.1 hcontrol
    rw [Piece.decode, encodeUtf8, if_pos (by omega), UInt8.ofNat_toNat]
  · rfl

theorem chars_flatMap (s : List UInt8) : Chars (s.map pieceOf) (s.flatMap stringifyByte) := by
  induction s with
  | nil => exact .nil
  | cons c s ih => exact .cons (pieceText_stringifyByte c) ih

theorem decode_map_pieceOf (s : List UInt8) : decode (s.map pieceOf) = s := by
  induction s with
  | nil => rfl
  | cons c s ih =>
      rw [List.map_cons, decode, List.flatMap_cons, decode_pieceOf, ← decode, ih]
      rfl

theorem cstr_eq {s : List UInt8} (h : 0 ∉ s) : cstr s = s := by
  rw [cstr, List.takeWhile_eq_self_iff]
  intro c hc
  exact decide_eq_true fun hzero => h (hzero ▸ hc)

/-! ## Numbers -/

/-- The digits of a number. -/
def digitBytes (k : ℕ) : List UInt8 := (Nat.toDigits 10 k).map Char.toUInt8

theorem toUInt8_toNat {c : Char} (h : c.isDigit = true) :
    c.toUInt8.toNat = c.toNat ∧ 0x30 ≤ c.toNat ∧ c.toNat ≤ 0x39 := by
  simp only [Char.isDigit, Bool.and_eq_true, decide_eq_true_eq, ge_iff_le,
    UInt32.le_iff_toNat_le] at h
  obtain ⟨hlower, hupper⟩ := h
  have hlower' : 0x30 ≤ c.toNat := hlower
  have hupper' : c.toNat ≤ 0x39 := hupper
  refine ⟨?_, hlower', hupper'⟩
  have hmod : c.toUInt8.toNat = c.toNat % 256 := UInt32.toNat_toUInt8 c.val
  omega

theorem isDigit_of_mem {k : ℕ} {c : Char} (hc : c ∈ Nat.toDigits 10 k) : c.isDigit = true :=
  Nat.isDigit_of_mem_toDigits (by decide) (by decide) hc

theorem digitBytes_digits (k : ℕ) : Digits (digitBytes k) := by
  intro d hd
  obtain ⟨c, hc, rfl⟩ := List.mem_map.1 hd
  obtain ⟨heq, hlower, hupper⟩ := toUInt8_toNat (isDigit_of_mem hc)
  simp only [isDigit, Bool.and_eq_true, decide_eq_true_eq, UInt8.le_iff_toNat_le, heq]
  exact ⟨hlower, hupper⟩

theorem digitsValue_append (cs : List Char) (h : ∀ c ∈ cs, c.isDigit = true) (n : ℕ) :
    (cs.map Char.toUInt8).foldl (fun n d => 10 * n + (d.toNat - 0x30)) n =
      Nat.ofDigitChars 10 cs n := by
  induction cs generalizing n with
  | nil => simp
  | cons c cs ih =>
      obtain ⟨heq, -, -⟩ := toUInt8_toNat (h c List.mem_cons_self)
      rw [List.map_cons, List.foldl_cons, ih fun d hd => h d (List.mem_cons_of_mem _ hd),
        Nat.ofDigitChars_cons, heq]
      rfl

theorem digitsValue_digitBytes (k : ℕ) : digitsValue (digitBytes k) = k := by
  rw [digitsValue, digitBytes, digitsValue_append _ (fun c hc => isDigit_of_mem hc),
    Nat.ofDigitChars_ten_toDigits]

/-- No zero stands at the front. -/
theorem digitBytes_head {k : ℕ} (hk : 0 < k) :
    ∃ c ds, digitBytes k = c :: ds ∧ 0x31 ≤ c ∧ c ≤ 0x39 := by
  induction k using Nat.strongRecOn with
  | ind k ih =>
      by_cases hlt : k < 10
      · rw [digitBytes, Nat.toDigits_of_lt_base hlt]
        refine ⟨_, [], rfl, ?_⟩
        interval_cases k <;> decide
      · obtain ⟨c, ds, hds, hc⟩ := ih (k / 10) (by omega) (by omega)
        refine ⟨c, ds ++ [(Nat.digitChar (k % 10)).toUInt8], ?_, hc⟩
        rw [digitBytes, Nat.toDigits_of_base_le (by decide) (by omega), List.map_append,
          ← digitBytes, hds]
        rfl

theorem integerText_digitBytes (k : ℕ) : IntegerText (digitBytes k) := by
  rcases Nat.eq_zero_or_pos k with rfl | hk
  · exact .zero
  · obtain ⟨c, ds, hds, hlower, hupper⟩ := digitBytes_head hk
    have hdigits := digitBytes_digits k
    rw [hds] at hdigits ⊢
    exact .digits hlower hupper fun d hd => hdigits d (List.mem_cons_of_mem _ hd)

theorem minusText_sign (n : ℤ) : MinusText (if n < 0 then [0x2D] else []) := by
  split
  · exact .minus
  · exact .absent

theorem numberText_formatInt (n : ℤ) : NumberText (formatInt n) := by
  have h := NumberText.mk (minusText_sign n) (integerText_digitBytes n.natAbs) .absent .absent
  rw [List.append_nil, List.append_nil] at h
  exact h

theorem value_formatInt (n : ℤ) : (scanDecimal (formatInt n)).value = n := by
  have hint := integerText_digitBytes n.natAbs
  obtain ⟨hne, hds⟩ := hint.isDigits
  have hscan := (SignText.of_minus (minusText_sign n)).scan hne hds []
  have htake := takeWhile_digits hds stops_nil
  have hdrop := dropWhile_digits hds stops_nil
  rw [List.append_nil] at hscan htake hdrop
  have hdecimal : scanDecimal (formatInt n) =
      ⟨decide (n < 0), digitBytes n.natAbs, [], 0, []⟩ := by
    unfold scanDecimal formatInt
    rw [← digitBytes, hscan]
    simp only [htake, hdrop]
    by_cases hneg : n < 0 <;> simp [hneg, strtodFraction, strtodExponent]
  rw [hdecimal, Decimal.value]
  simp only [List.append_nil, digitsValue_digitBytes]
  by_cases hneg : n < 0
  · simp [hneg, abs_of_neg]
  · simp [hneg, abs_of_nonneg (not_lt.1 hneg)]

theorem numberOf_formatInt {n : ℤ} (h : Representable n) :
    numberOf (formatInt n) = some (.finite n h) := by
  obtain ⟨hint, hrest⟩ := (numberText_formatInt n).scanDecimal
  have hne : ¬ ((scanDecimal (formatInt n)).int ++ (scanDecimal (formatInt n)).fraction = []) := by
    simp [hint]
  simp only [numberOf, strtod, if_neg hne, hrest, value_formatInt, ofRat_of_representable h]
  simp [Double.isInfinite, not_underflows h]

theorem accepted_formatInt (n : ℤ) : (lcnJsonParse (formatInt n)).isSome := by
  rw [accepts_number (numberText_formatInt n), value_formatInt]
  by_cases hzero : n = 0
  · subst hzero
    exact not_underflows (representable_intCast (by norm_num))
  · refine not_underflows_of_le ?_
    have hone : (1 : ℚ) ≤ |(n : ℚ)| := by exact_mod_cast Int.one_le_abs hzero
    exact le_trans (zpow_le_one_of_nonpos₀ one_le_two (by norm_num)) hone

theorem stringifyNumber_int {n : ℤ} (hn : |n| ≤ 10 ^ 15) (h : Representable n) :
    stringifyNumber (.finite n h) = formatInt n := by
  obtain ⟨hlower, hupper⟩ := abs_le.1 hn
  have hlower' : (-10 ^ 15 : ℚ) ≤ n := by exact_mod_cast hlower
  have hupper' : (n : ℚ) ≤ 10 ^ 15 := by exact_mod_cast hupper
  rw [stringifyNumber, Rat.num_intCast, if_pos ⟨rfl, hlower', hupper'⟩]

/-! ## Values -/

section Shaped

variable {P : Double → Prop}

theorem memberText_stringify (key : List UInt8) {v : LcnJsonValue}
    (h : ValueText (treeOf v) (stringifyValue v)) :
    MemberText ((cstr key).map pieceOf, treeOf v)
      (stringifyString (cstr key) ++ 0x3A :: stringifyValue v) := by
  have hmember := MemberText.mk space_nil (chars_flatMap (cstr key)) space_nil space_nil h space_nil
  have htext : [] ++ 0x22 :: (cstr key).flatMap stringifyByte ++ 0x22 :: [] ++
      0x3A :: ([] ++ stringifyValue v ++ []) =
        stringifyString (cstr key) ++ 0x3A :: stringifyValue v := by
    simp [stringifyString]
  rw [htext] at hmember
  exact hmember

mutual

/-- What is written is derived by the grammar. -/
theorem valueText_stringify (hP : ∀ d, P d → NumberText (stringifyNumber d)) {v : LcnJsonValue}
    (h : Shaped P v) :
    ValueText (treeOf v) (stringifyValue v) := by
  match v with
  | .null => exact .null
  | .boolean true => exact .yes
  | .boolean false => exact .no
  | .number d => exact .number (hP d h)
  | .string str => exact .string (chars_flatMap str)
  | .array [] => exact .emptyArray space_nil
  | .array (v :: items) => exact .array (itemsText_stringify hP (List.cons_ne_nil v items) h)
  | .object [] => exact .emptyObject space_nil
  | .object (m :: members) =>
      exact .object (membersText_stringify hP (List.cons_ne_nil m members) h.2)

theorem itemsText_stringify (hP : ∀ d, P d → NumberText (stringifyNumber d))
    {items : List LcnJsonValue} (hne : items ≠ []) (h : ShapedItems P items) :
    ItemsText (itemTrees items) (stringifyItems items) := by
  match items with
  | [] => exact absurd rfl hne
  | [v] =>
      have hone := ItemsText.one space_nil (valueText_stringify hP h.1) space_nil
      rw [List.nil_append, List.append_nil] at hone
      exact hone
  | v :: w :: items =>
      have hmore := ItemsText.more space_nil (valueText_stringify hP h.1) space_nil
        (itemsText_stringify hP (List.cons_ne_nil w items) h.2)
      rw [List.nil_append, List.append_nil] at hmore
      exact hmore

theorem membersText_stringify (hP : ∀ d, P d → NumberText (stringifyNumber d))
    {members : List (List UInt8 × LcnJsonValue)} (hne : members ≠ [])
    (h : ShapedMembers P members) : MembersText (memberTrees members) (stringifyMembers members) := by
  match members with
  | [] => exact absurd rfl hne
  | [(key, v)] => exact .one (memberText_stringify key (valueText_stringify hP h.2.1))
  | (key, v) :: m :: members =>
      have hmore := MembersText.more (memberText_stringify key (valueText_stringify hP h.2.1))
        (membersText_stringify hP (List.cons_ne_nil m members) h.2.2)
      rw [List.append_assoc, List.cons_append] at hmore
      rw [memberTrees, stringifyMembers, List.append_assoc, List.cons_append]
      exact hmore

end

/-- A new key comes last. -/
theorem setMember_new {key : List UInt8} {members : List (List UInt8 × LcnJsonValue)}
    (h : key ∉ members.map Prod.fst) (v : LcnJsonValue) :
    setMember members key v = members ++ [(key, v)] := by
  induction members with
  | nil => rfl
  | cons m members ih =>
      obtain ⟨k, w⟩ := m
      simp only [List.map_cons, List.mem_cons, not_or] at h
      rw [setMember, if_neg (Ne.symm h.1), ih h.2]
      rfl

mutual

/-- The value of the tree is the value. -/
theorem eval_treeOf (hP : ∀ d, P d → numberOf (stringifyNumber d) = some d) {v : LcnJsonValue}
    (h : Shaped P v) : (treeOf v).eval = some v := by
  match v with
  | .null => rfl
  | .boolean b => rfl
  | .number d =>
      rw [treeOf, Tree.eval, hP d h]
      rfl
  | .string str => rw [treeOf, Tree.eval, decode_map_pieceOf]
  | .array items =>
      rw [treeOf, Tree.eval, evalItems_itemTrees hP h]
      rfl
  | .object members =>
      have hmembers := evalMembers_memberTrees hP [] h.2 (by simpa using h.1)
      rw [treeOf, Tree.eval, hmembers]
      rfl

theorem evalItems_itemTrees (hP : ∀ d, P d → numberOf (stringifyNumber d) = some d)
    {items : List LcnJsonValue} (h : ShapedItems P items) :
    evalItems (itemTrees items) = some items := by
  match items with
  | [] => rfl
  | v :: items =>
      rw [itemTrees, evalItems, eval_treeOf hP h.1, Option.bind_some, evalItems_itemTrees hP h.2]
      rfl

theorem evalMembers_memberTrees (hP : ∀ d, P d → numberOf (stringifyNumber d) = some d)
    {members : List (List UInt8 × LcnJsonValue)}
    (before : List (List UInt8 × LcnJsonValue)) (h : ShapedMembers P members)
    (hkeys : ((before ++ members).map Prod.fst).Nodup) :
    evalMembers before (memberTrees members) = some (before ++ members) := by
  match members with
  | [] => rw [memberTrees, evalMembers, List.append_nil]
  | (key, v) :: members =>
      have hnew : key ∉ before.map Prod.fst := by
        rw [List.map_append, List.map_cons] at hkeys
        exact fun hmem => List.disjoint_of_nodup_append hkeys hmem List.mem_cons_self
      have hkey : cstr (decode ((cstr key).map pieceOf)) = key := by
        rw [decode_map_pieceOf, cstr_eq h.1, cstr_eq h.1]
      rw [memberTrees, evalMembers, eval_treeOf hP h.2.1, Option.bind_some, hkey,
        setMember_new hnew]
      have hrest : ((before ++ [(key, v)] ++ members).map Prod.fst).Nodup := by
        rw [List.append_assoc]
        exact hkeys
      rw [evalMembers_memberTrees hP _ h.2.2 hrest, List.append_assoc]
      rfl

end

/-! ## No NUL is written -/

theorem stringifyByte_ne_zero (c : UInt8) : 0 ∉ stringifyByte c := by
  have hall : ∀ n < 256, 0 ∉ stringifyByte (.ofNat n) := by decide +kernel
  have h := hall c.toNat c.toNat_lt
  rwa [UInt8.ofNat_toNat] at h

theorem stringifyString_ne_zero (s : List UInt8) : 0 ∉ stringifyString s := by
  simp [stringifyString, stringifyByte_ne_zero]

/-- A byte that no number has. -/
def Foreign (c : UInt8) : Prop :=
  isDigit c = false ∧ c ≠ 0x2B ∧ c ≠ 0x2D ∧ c ≠ 0x2E ∧ c ≠ 0x45 ∧ c ≠ 0x65

instance (c : UInt8) : Decidable (Foreign c) := inferInstanceAs (Decidable (_ ∧ _))

theorem Foreign.digits {c : UInt8} (hc : Foreign c) {ds : List UInt8} (h : Digits ds) :
    c ∉ ds := fun hmem => Bool.false_ne_true (hc.1.symm.trans (h c hmem))

theorem Foreign.sign {c : UInt8} (hc : Foreign c) {u : List UInt8} (h : SignText u) : c ∉ u := by
  obtain ⟨-, hplus, hminus, -⟩ := hc
  cases h with
  | absent => simp
  | plus => simpa using hplus
  | minus => simpa using hminus

theorem Foreign.fraction {c : UInt8} (hc : Foreign c) {u : List UInt8} (h : FractionText u) :
    c ∉ u := by
  cases h with
  | absent => simp
  | digits _ hds => simp [hc.digits hds, hc.2.2.2.1]

theorem Foreign.exponent {c : UInt8} (hc : Foreign c) {u : List UInt8} (h : ExponentText u) :
    c ∉ u := by
  obtain ⟨-, -, -, -, hupper, hlower⟩ := id hc
  cases h with
  | absent => simp
  | digits he hsign _ hds =>
      rcases he with rfl | rfl <;> simp [hc.sign hsign, hc.digits hds, hupper, hlower]

theorem Foreign.number {c : UInt8} (hc : Foreign c) {u : List UInt8} (h : NumberText u) :
    c ∉ u := by
  cases h with
  | mk hminus hint hfraction hexponent =>
      simp [hc.sign (SignText.of_minus hminus), hc.digits hint.isDigits.2, hc.fraction hfraction,
        hc.exponent hexponent]

theorem NumberText.ne_zero {u : List UInt8} (h : NumberText u) : 0 ∉ u :=
  (show Foreign 0 by decide).number h

mutual

theorem stringifyValue_ne_zero (hP : ∀ d, P d → 0 ∉ stringifyNumber d) {v : LcnJsonValue}
    (h : Shaped P v) : 0 ∉ stringifyValue v := by
  match v with
  | .null => exact (by decide : 0 ∉ ascii "null")
  | .boolean true => exact (by decide : 0 ∉ ascii "true")
  | .boolean false => exact (by decide : 0 ∉ ascii "false")
  | .number d => exact hP d h
  | .string str => exact stringifyString_ne_zero str
  | .array items => simp [stringifyValue, stringifyItems_ne_zero hP h]
  | .object members => simp [stringifyValue, stringifyMembers_ne_zero hP h.2]

theorem stringifyItems_ne_zero (hP : ∀ d, P d → 0 ∉ stringifyNumber d)
    {items : List LcnJsonValue} (h : ShapedItems P items) : 0 ∉ stringifyItems items := by
  match items with
  | [] => simp [stringifyItems]
  | [v] => exact stringifyValue_ne_zero hP h.1
  | v :: w :: items =>
      simp [stringifyItems, stringifyValue_ne_zero hP h.1, stringifyItems_ne_zero hP h.2]

theorem stringifyMembers_ne_zero (hP : ∀ d, P d → 0 ∉ stringifyNumber d)
    {members : List (List UInt8 × LcnJsonValue)} (h : ShapedMembers P members) :
    0 ∉ stringifyMembers members := by
  match members with
  | [] => simp [stringifyMembers]
  | [(key, v)] =>
      simp [stringifyMembers, stringifyString_ne_zero, stringifyValue_ne_zero hP h.2.1]
  | (key, v) :: m :: members =>
      simp [stringifyMembers, stringifyString_ne_zero, stringifyValue_ne_zero hP h.2.1,
        stringifyMembers_ne_zero hP h.2.2]

end

/-! ## The round trip -/

/-- What is written of the value is a text of the tree. -/
theorem jsonText_stringify (hP : ∀ d, P d → NumberText (stringifyNumber d)) {v : LcnJsonValue}
    (h : Shaped P v) : JsonText (treeOf v) (cstr (lcnJsonStringify v)) := by
  rw [lcnJsonStringify, cstr_eq (stringifyValue_ne_zero (fun d hd => (hP d hd).ne_zero) h)]
  have htext := JsonText.mk space_nil (valueText_stringify hP h) space_nil
  rw [List.nil_append, List.append_nil] at htext
  exact htext

theorem reparse_of_shaped (htext : ∀ d, P d → NumberText (stringifyNumber d))
    (hvalue : ∀ d, P d → numberOf (stringifyNumber d) = some d) {v : LcnJsonValue}
    (h : Shaped P v) : lcnJsonParse (cstr (lcnJsonStringify v)) = some v :=
  lcnJsonParse_iff.2 ⟨treeOf v, jsonText_stringify htext h, eval_treeOf hvalue h⟩

end Shaped

theorem SmallInt.numberText {d : Double} (h : SmallInt d) : NumberText (stringifyNumber d) := by
  obtain ⟨n, hn, hrep, rfl⟩ := h
  rw [stringifyNumber_int hn hrep]
  exact numberText_formatInt n

theorem SmallInt.numberOf {d : Double} (h : SmallInt d) :
    numberOf (stringifyNumber d) = some d := by
  obtain ⟨n, hn, hrep, rfl⟩ := h
  rw [stringifyNumber_int hn hrep]
  exact numberOf_formatInt hrep

theorem reparse_of_plain {v : LcnJsonValue} (h : Plain v) :
    lcnJsonParse (cstr (lcnJsonStringify v)) = some v :=
  reparse_of_shaped (fun _ hd => hd.numberText) (fun _ hd => hd.numberOf) h.shaped

/-- The text of a value, taken as a C string, is parsed as the value. -/
theorem parse_stringify {v : LcnJsonValue} (h : Plain v) :
    lcnJsonParse (cstr (lcnJsonStringify v)) = some v :=
  reparse_of_plain h

/-- `{"a\n": [null, "\u0000\"", -7], "": true}` -/
def sample : LcnJsonValue :=
  .object [([0x61, 0x0A], .array [.null, .string [0x00, 0x22],
    .number (.finite (-7 : ℤ) (representable_intCast (by decide)))]), ([], .boolean true)]

theorem sample_plain : Plain sample := by
  refine ⟨by decide, by decide, ⟨trivial, trivial, ?_, trivial⟩, by decide, trivial, trivial⟩
  exact ⟨-7, by decide, representable_intCast (by decide), rfl⟩

theorem parse_stringify_sample :
    lcnJsonParse (cstr (lcnJsonStringify sample)) = some sample :=
  parse_stringify sample_plain

end Limceron.Json
