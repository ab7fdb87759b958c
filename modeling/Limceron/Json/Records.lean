/-
# `Limceron.Json.Records` — objects that are written by a template

A record is an object whose keys are fixed and whose values are spliced into its text
as they are: a string between quotes (`quoted`), or a text that is a value of its own
(`verbatim`).  `IsRecord` is what such a text is for: one line, which the parser reads
as an object of exactly the fields, with the strings that were given.

It is that, if and only if no string has a quote, a backslash or a control character,
and no spliced text a line feed (`isRecord_iff`).  What the strings themselves make of
the text around them does not matter: no two of them work together to a record of the
same fields (`quoted_fits`).
-/
import Limceron.Json.Lines

namespace Limceron.Json

open Binary64

/-! ## Templates -/

inductive Slot where
  /-- `"%s"` -/
  | quoted (str : List UInt8)
  /-- `%s`, of a text that is JSON -/
  | verbatim (text : List UInt8)

structure Field where
  key : List UInt8
  slot : Slot

def Slot.text : Slot → List UInt8
  | .quoted str => 0x22 :: str ++ [0x22]
  | .verbatim text => text

def Field.text (f : Field) : List UInt8 := 0x22 :: f.key ++ 0x22 :: 0x3A :: f.slot.text

def fieldsText : List Field → List UInt8
  | [] => []
  | [f] => f.text
  | f :: g :: fields => f.text ++ 0x2C :: fieldsText (g :: fields)

def recordText (fields : List Field) : List UInt8 := 0x7B :: fieldsText fields ++ [0x7D]

/-! ## Records -/

/-- A byte that stands for itself between quotes. -/
def Literal (c : UInt8) : Prop := 0x20 ≤ c ∧ c ≠ 0x22 ∧ c ≠ 0x5C

instance (c : UInt8) : Decidable (Literal c) := inferInstanceAs (Decidable (_ ∧ _))

/-- Every byte stands for itself. -/
def Literals (s : List UInt8) : Prop := ∀ c ∈ s, Literal c

instance (s : List UInt8) : Decidable (Literals s) := inferInstanceAs (Decidable (∀ c ∈ s, _))

/-- The tree of a slot. -/
def Slot.Says : Slot → Tree → Prop
  | .quoted str, t => ∃ ps, t = .string ps ∧ decode ps = str
  | .verbatim text, t => JsonText t text

def Field.Says (f : Field) (m : List Piece × Tree) : Prop := decode m.1 = f.key ∧ f.slot.Says m.2

/-- The value of a slot. -/
def Slot.Holds : Slot → LcnJsonValue → Prop
  | .quoted str, v => v = .string str
  | .verbatim text, v => lcnJsonParse text = some v

def Field.Holds (f : Field) (m : List UInt8 × LcnJsonValue) : Prop :=
  m.1 = f.key ∧ f.slot.Holds m.2

/-- One line, and an object of the fields: in its text, where a key may come twice, and in
what the parser makes of it. -/
structure IsRecord (fields : List Field) (text : List UInt8) : Prop where
  line : 0x0A ∉ text
  written : ∃ ms, JsonText (.object ms) text ∧ List.Forall₂ Field.Says fields ms
  parsed : ∃ members, lcnJsonParse text = some (.object members) ∧
    List.Forall₂ Field.Holds fields members

/-- A slot that leaves the record as it is. -/
def Slot.Clean : Slot → Prop
  | .quoted str => Literals str
  | .verbatim text => 0x0A ∉ text

/-- A slot that leaves the text around it as it is: the record may take several lines. -/
def Slot.Unbroken : Slot → Prop
  | .quoted str => Literals str
  | .verbatim _ => True

theorem Slot.Clean.unbroken {s : Slot} (h : s.Clean) : s.Unbroken := by
  cases s with
  | quoted str => exact h
  | verbatim text => trivial

/-- The parser accepts what is spliced in as it is. -/
def Slot.Accepted : Slot → Prop
  | .quoted _ => True
  | .verbatim text => (lcnJsonParse text).isSome

/-- A template: its keys are plain and differ, and the texts spliced in are JSON. -/
structure Template (fields : List Field) : Prop where
  some_field : fields ≠ []
  keys : (fields.map Field.key).Nodup
  plain : ∀ f ∈ fields, Literals f.key
  accepted : ∀ f ∈ fields, f.slot.Accepted

/-- A template is known from its keys, and from what is spliced into it. -/
theorem Template.of_keys {fields : List Field} (keys : List (List UInt8))
    (hfields : fields.map Field.key = keys)
    (hkeys : keys ≠ [] ∧ keys.Nodup ∧ ∀ key ∈ keys, Literals key)
    (haccepted : ∀ f ∈ fields, f.slot.Accepted) : Template fields := by
  subst hfields
  obtain ⟨hne, hnodup, hplain⟩ := hkeys
  exact ⟨fun hnil => hne (by rw [hnil]; rfl), hnodup, List.forall_mem_map.1 hplain, haccepted⟩

/-! ## Strings of literal bytes -/

theorem chars_literals {s : List UInt8} (h : Literals s) : Chars (s.map .raw) s := by
  induction s with
  | nil => exact .nil
  | cons c s ih =>
      obtain ⟨⟨hcontrol, hquote, hbackslash⟩, hs⟩ := List.forall_mem_cons.1 h
      exact .cons (.raw hcontrol hquote hbackslash) (ih hs)

theorem decode_raw (s : List UInt8) : decode (s.map .raw) = s := by
  induction s with
  | nil => rfl
  | cons c s ih => exact congrArg (c :: ·) ih

theorem Literals.cstr {s : List UInt8} (h : Literals s) : cstr s = s := by
  refine cstr_eq fun hzero => ?_
  exact absurd (h 0 hzero).1 (by decide)

theorem Literals.no_lineFeed {s : List UInt8} (h : Literals s) : 0x0A ∉ s :=
  fun hmem => absurd (h 0x0A hmem).1 (by decide)

theorem CodeUnit.length {cp : ℕ} {u : List UInt8} (h : CodeUnit cp u) : u.length = 4 := by
  cases h
  rfl

theorem encodeUtf8_length (cp : ℕ) : (encodeUtf8 cp).length ≤ 4 := by
  unfold encodeUtf8
  split_ifs <;> simp

/-- A piece is no shorter than what it stands for, and longer, if it is an escape. -/
theorem PieceText.length {p : Piece} {u : List UInt8} (h : PieceText p u) :
    p.decode.length ≤ u.length ∧ (p.decode.length = u.length → ∃ b, p = .raw b) := by
  cases h with
  | @raw b => exact ⟨le_rfl, fun _ => ⟨b, rfl⟩⟩
  | short => exact ⟨by simp [Piece.decode], by simp [Piece.decode]⟩
  | @code cp u hu =>
      have hbytes := encodeUtf8_length cp
      simp only [Piece.decode, List.length_cons, hu.length]
      omega
  | @pair hi lo u v hu _ hv =>
      have hbytes := encodeUtf8_length (pairPoint hi lo)
      simp only [Piece.decode, List.length_cons, List.length_append, hu.length, hv.length]
      omega

theorem Chars.length {ps : List Piece} {u : List UInt8} (h : Chars ps u) :
    (decode ps).length ≤ u.length ∧ ((decode ps).length = u.length → Literals u) := by
  induction h with
  | nil => exact ⟨le_rfl, fun _ c hc => by cases hc⟩
  | @cons p ps u v hp _ ih =>
      obtain ⟨hle, hraw⟩ := hp.length
      have hsplit : decode (p :: ps) = p.decode ++ decode ps := rfl
      rw [hsplit, List.length_append, List.length_append]
      refine ⟨by omega, fun heq => ?_⟩
      obtain ⟨b, rfl⟩ := hraw (by omega)
      cases hp with
      | raw hcontrol hquote hbackslash =>
          exact List.forall_mem_cons.2 ⟨⟨hcontrol, hquote, hbackslash⟩, ih.2 (by omega)⟩

/-! ## Where a string ends -/

theorem HexDigit.ne {c : UInt8} {n : ℕ} (h : HexDigit c n) : c ≠ 0x22 ∧ c ≠ 0x5C := by
  cases h with
  | digit hn => interval_cases n <;> decide
  | @upper k hk => interval_cases k <;> decide
  | @lower k hk => interval_cases k <;> decide

theorem CodeUnit.quote {cp : ℕ} {u : List UInt8} (h : CodeUnit cp u) : 0x22 ∉ u := by
  cases h with
  | mk ha hb hc hd =>
      simp [ha.ne.1.symm, hb.ne.1.symm, hc.ne.1.symm, hd.ne.1.symm]

/-- A quote in a piece is the second byte of an escape. -/
theorem PieceText.quote {p : Piece} {u x y : List UInt8} (h : PieceText p u)
    (hsplit : u = x ++ 0x22 :: y) : x = [0x5C] ∧ y = [] ∧ p = .short 0x22 := by
  cases h with
  | @raw b _ hquote =>
      have hmem : (0x22 : UInt8) ∈ [b] := hsplit ▸ by simp
      exact absurd (List.mem_singleton.1 hmem).symm hquote
  | @short e b he =>
      rcases x with _ | ⟨c, _ | ⟨d, x⟩⟩
      · simp at hsplit
      · simp only [List.cons_append, List.nil_append, List.cons.injEq] at hsplit
        obtain ⟨rfl, rfl, rfl⟩ := hsplit
        cases he
        exact ⟨rfl, rfl, rfl⟩
      · simp at hsplit
  | @code cp u hu =>
      have hmem : (0x22 : UInt8) ∈ 0x5C :: 0x75 :: u := hsplit ▸ by simp
      simp [hu.quote] at hmem
  | @pair hi lo u v hu _ hv =>
      have hmem : (0x22 : UInt8) ∈ 0x5C :: 0x75 :: u ++ 0x5C :: 0x75 :: v := hsplit ▸ by simp
      simp [hu.quote, hv.quote] at hmem

/-- A quote between quotes is escaped. -/
theorem Chars.quote {ps : List Piece} {x y : List UInt8} (h : Chars ps (x ++ 0x22 :: y)) :
    ∃ z qs rs, x = z ++ [0x5C] ∧ ps = qs ++ .short 0x22 :: rs ∧ Chars rs y := by
  generalize hu : x ++ 0x22 :: y = u at h
  induction h generalizing x with
  | nil => simp at hu
  | @cons p ps u v hp hps ih =>
      rcases List.append_eq_append_iff.1 hu with ⟨w, rfl, hw⟩ | ⟨w, rfl, hw⟩
      · rcases w with _ | ⟨d, w⟩
        · obtain ⟨z, qs, rs, hx, rfl, hrs⟩ := ih (x := []) hw
          simp at hx
        · obtain ⟨rfl, rfl⟩ := List.cons.inj hw
          obtain ⟨rfl, rfl, rfl⟩ := hp.quote rfl
          exact ⟨[], [], ps, rfl, rfl, hps⟩
      · obtain ⟨z, qs, rs, rfl, rfl, hrs⟩ := ih hw.symm
        exact ⟨u ++ z, p :: qs, rs, by simp, rfl, hrs⟩

/-- What may stand behind the closing quote of a slot: the next key, or no string any more. -/
def Follows (tail : List UInt8) : Prop := (∃ s, tail = 0x2C :: 0x22 :: s) ∨ 0x22 ∉ tail

theorem Chars.comma {ps : List Piece} (h : Chars ps [0x2C]) : ps = [.raw 0x2C] := by
  have hread : Json.readString [0x22, 0x2C, 0x22] = some ([.raw 0x2C], []) := rfl
  obtain ⟨hps, -⟩ := Prod.mk.inj (Option.some.inj ((h.readString []).symm.trans hread))
  exact hps

/-- If a slot is read as its string, then it is read where it stands, byte by byte: its end
is not moved by a backslash before the quote. -/
theorem quoted_fits {str tail u rest : List UInt8} {ps : List Piece} (h : Chars ps u)
    (hsplit : u ++ 0x22 :: rest = str ++ 0x22 :: tail) (hdecode : decode ps = str)
    (htail : Follows tail) : Literals str ∧ rest = tail := by
  obtain ⟨hle, hliterals⟩ := h.length
  rw [hdecode] at hle hliterals
  rcases List.append_eq_append_iff.1 hsplit with ⟨w, rfl, hw⟩ | ⟨w, rfl, hw⟩
  · -- The string ends too early: it decodes to fewer bytes.
    obtain rfl : w = [] := by
      rw [List.length_append] at hle
      exact List.length_eq_zero_iff.1 (by omega)
    rw [List.append_nil] at hliterals ⊢
    exact ⟨hliterals rfl, (List.cons.inj hw).2⟩
  · rcases w with _ | ⟨d, w⟩
    · rw [List.append_nil] at hliterals
      exact ⟨hliterals rfl, (List.cons.inj hw).2.symm⟩
    · -- It ends too late: its quote is escaped, and the next one cannot be.
      exfalso
      obtain ⟨rfl, rfl⟩ := List.cons.inj hw
      obtain ⟨z, qs, rs, hz, rfl, hrs⟩ := h.quote
      rcases htail with ⟨s, hs⟩ | hnone
      · rcases w with _ | ⟨a, _ | ⟨b, w⟩⟩
        · cases hs
        · obtain ⟨rfl, -⟩ := List.cons.inj hs
          have hlast : str.getLast? = some 0x2C := by
            rw [← hdecode, decode, List.flatMap_append, List.flatMap_cons, ← decode, ← decode,
              hrs.comma]
            simp [decode, Piece.decode]
          simp [hz] at hlast
        · obtain ⟨rfl, hmore⟩ := List.cons.inj hs
          obtain ⟨rfl, -⟩ := List.cons.inj hmore
          obtain ⟨y, -, -, hy, -⟩ := hrs.quote (x := [0x2C])
          rcases y with _ | ⟨_, y⟩
          · cases hy
          · simp at hy
      · exact hnone (by simp)

/-! ## A record is read as its fields -/

theorem fieldsText_cons (f : Field) (fields : List Field) :
    fieldsText (f :: fields) =
      f.text ++ if fields = [] then [] else 0x2C :: fieldsText fields := by
  cases fields with
  | nil => exact (List.append_nil _).symm
  | cons g fields => rfl

/-- What is read of a slot has a value. -/
theorem Slot.Says.eval {s : Slot} {t : Tree} (h : s.Says t) (haccepted : s.Accepted) :
    ∃ v, t.eval = some v ∧ s.Holds v := by
  cases s with
  | quoted str =>
      obtain ⟨ps, rfl, rfl⟩ := h
      exact ⟨_, rfl, rfl⟩
  | verbatim text =>
      obtain ⟨v, hv⟩ := Option.isSome_iff_exists.1 haccepted
      obtain ⟨t', ht', heval⟩ := lcnJsonParse_iff.1 hv
      exact ⟨v, ht'.unique h ▸ heval, hv⟩

/-- The members are entered one after the other. -/
theorem evalMembers_fields {fields : List Field} {ms : List (List Piece × Tree)}
    (before : List (List UInt8 × LcnJsonValue)) (h : List.Forall₂ Field.Says fields ms)
    (hplain : ∀ f ∈ fields, Literals f.key) (haccepted : ∀ f ∈ fields, f.slot.Accepted)
    (hkeys : (before.map Prod.fst ++ fields.map Field.key).Nodup) :
    ∃ members, evalMembers before ms = some (before ++ members) ∧
      List.Forall₂ Field.Holds fields members := by
  induction h generalizing before with
  | nil => exact ⟨[], by rw [evalMembers, List.append_nil], .nil⟩
  | @cons f m fields ms hf _ ih =>
      obtain ⟨key, t⟩ := m
      obtain ⟨hkey, hspelled⟩ := hf
      obtain ⟨v, heval, hv⟩ := hspelled.eval (haccepted f List.mem_cons_self)
      have hcstr : cstr (decode key) = f.key := by
        rw [show decode key = f.key from hkey, (hplain f List.mem_cons_self).cstr]
      have hnew : f.key ∉ before.map Prod.fst := fun hmem =>
        List.disjoint_of_nodup_append hkeys hmem List.mem_cons_self
      obtain ⟨members, hmembers, hholds⟩ := ih (before ++ [(f.key, v)])
        (fun g hg => hplain g (List.mem_cons_of_mem f hg))
        (fun g hg => haccepted g (List.mem_cons_of_mem f hg))
        (by simpa using hkeys)
      refine ⟨(f.key, v) :: members, ?_, .cons ⟨rfl, hv⟩ hholds⟩
      rw [evalMembers, heval, Option.bind_some, hcstr, setMember_new hnew, hmembers]
      simp

theorem Template.parsed {fields : List Field} (h : Template fields) {text : List UInt8}
    {ms : List (List Piece × Tree)} (htext : JsonText (.object ms) text)
    (hspelled : List.Forall₂ Field.Says fields ms) :
    ∃ members, lcnJsonParse text = some (.object members) ∧
      List.Forall₂ Field.Holds fields members := by
  obtain ⟨members, hmembers, hholds⟩ :=
    evalMembers_fields [] hspelled h.plain h.accepted (by simpa using h.keys)
  refine ⟨members, lcnJsonParse_iff.2 ⟨_, htext, ?_⟩, hholds⟩
  rw [Tree.eval, hmembers]
  rfl

theorem Slot.exists_tree {s : Slot} (hclean : s.Unbroken) (haccepted : s.Accepted) :
    ∃ t, JsonText t s.text ∧ s.Says t := by
  cases s with
  | quoted str =>
      have htext := JsonText.mk space_nil (.string (chars_literals hclean)) space_nil
      rw [List.nil_append, List.append_nil] at htext
      exact ⟨_, htext, _, rfl, decode_raw str⟩
  | verbatim text =>
      obtain ⟨v, hv⟩ := Option.isSome_iff_exists.1 haccepted
      obtain ⟨t, ht, -⟩ := lcnJsonParse_iff.1 hv
      exact ⟨t, ht, ht⟩

theorem JsonText.member {key : List Piece} {t : Tree} {k text : List UInt8}
    (ht : JsonText t text) (hk : Chars key k) :
    MemberText (key, t) (0x22 :: k ++ 0x22 :: 0x3A :: text) := by
  cases ht with
  | mk hw₁ hu hw₂ =>
      have hmember := MemberText.mk space_nil hk space_nil hw₁ hu hw₂
      simpa using hmember

theorem Field.exists_member {f : Field} (hplain : Literals f.key) (hclean : f.slot.Unbroken)
    (haccepted : f.slot.Accepted) : ∃ m, MemberText m f.text ∧ f.Says m := by
  obtain ⟨t, ht, hspelled⟩ := Slot.exists_tree hclean haccepted
  exact ⟨(f.key.map .raw, t), ht.member (chars_literals hplain), decode_raw f.key, hspelled⟩

theorem fields_membersText {fields : List Field} (hne : fields ≠ [])
    (hplain : ∀ f ∈ fields, Literals f.key) (haccepted : ∀ f ∈ fields, f.slot.Accepted)
    (hclean : ∀ f ∈ fields, f.slot.Unbroken) :
    ∃ ms, MembersText ms (fieldsText fields) ∧ List.Forall₂ Field.Says fields ms := by
  induction fields with
  | nil => exact absurd rfl hne
  | cons f fields ih =>
      simp only [List.forall_mem_cons] at hplain haccepted hclean
      obtain ⟨m, hm, hspelled⟩ := Field.exists_member hplain.1 hclean.1 haccepted.1
      rw [fieldsText_cons]
      split
      · next hnil =>
          subst hnil
          rw [List.append_nil]
          exact ⟨[m], .one hm, .cons hspelled .nil⟩
      · next hmore =>
          obtain ⟨ms, hms, hrest⟩ := ih hmore hplain.2 haccepted.2 hclean.2
          exact ⟨m :: ms, .more hm hms, .cons hspelled hrest⟩

theorem Template.written {fields : List Field} (h : Template fields)
    (hclean : ∀ f ∈ fields, f.slot.Unbroken) :
    ∃ ms, JsonText (.object ms) (recordText fields) ∧ List.Forall₂ Field.Says fields ms := by
  obtain ⟨ms, hms, hspelled⟩ := fields_membersText h.some_field h.plain h.accepted hclean
  have htext := JsonText.mk space_nil (.object hms) space_nil
  rw [List.nil_append, List.append_nil] at htext
  exact ⟨ms, htext, hspelled⟩

theorem recordText_line {fields : List Field} (hplain : ∀ f ∈ fields, Literals f.key)
    (hclean : ∀ f ∈ fields, f.slot.Clean) : 0x0A ∉ recordText fields := by
  have hfields : 0x0A ∉ fieldsText fields := by
    induction fields with
    | nil => exact List.not_mem_nil
    | cons f fields ih =>
        simp only [List.forall_mem_cons] at hplain hclean
        have hkey := hplain.1.no_lineFeed
        have hslot : 0x0A ∉ f.slot.text := by
          rcases hf : f.slot with str | text
          · have hstr : Literals str := by simpa [hf, Slot.Clean] using hclean.1
            simp [Slot.text, hstr.no_lineFeed]
          · simpa [hf, Slot.Clean, Slot.text] using hclean.1
        rw [fieldsText_cons]
        split
        · simp [Field.text, hkey, hslot]
        · simp [Field.text, hkey, hslot, ih hplain.2 hclean.2]
  simp [recordText, hfields]

/-! ## Only clean slots are read as their fields -/

theorem readValue_quote {n : ℕ} {s rest : List UInt8} {t : Tree}
    (h : readValue n (0x22 :: s) = some (t, rest)) :
    ∃ ps u, t = .string ps ∧ Chars ps u ∧ s = u ++ 0x22 :: rest := by
  cases n with
  | zero => cases h
  | succ n =>
      have hstring : readFrom (readValue n) 0x22 (0x22 :: s) = some (t, rest) := by
        rw [← h]
        exact (readValue_cons space_nil (c := 0x22) (by decide) s).symm
      rw [readFrom, if_pos rfl] at hstring
      obtain ⟨⟨ps, s'⟩, hps, heq⟩ := Option.map_eq_some_iff.1 hstring
      obtain ⟨rfl, rfl⟩ := Prod.mk.inj heq
      obtain ⟨u, hu, hsplit⟩ := readString_sound hps
      exact ⟨ps, u, rfl, hu, (List.cons.inj hsplit).2⟩

/-- Reading a slot as what it says: the text behind it is left. -/
theorem Slot.Says.read {s : Slot} {t : Tree} (h : s.Says t) {n : ℕ} (hn : s.text.length ≤ n)
    {tail rest : List UInt8} (hread : readValue n (s.text ++ tail) = some (t, rest))
    (hfollows : Follows tail) (hcloses : Closes tail) (hline : 0x0A ∉ s.text) :
    s.Clean ∧ ∃ w, Space w ∧ rest = w ++ tail := by
  cases s with
  | quoted str =>
      obtain ⟨ps, rfl, hdecode⟩ := h
      rw [Slot.text, List.append_assoc, List.cons_append, List.singleton_append] at hread
      obtain ⟨qs, u, hqs, hu, hsplit⟩ := readValue_quote hread
      obtain rfl := Tree.string.inj hqs
      obtain ⟨hclean, rfl⟩ := quoted_fits hu hsplit.symm hdecode hfollows
      exact ⟨hclean, [], space_nil, rfl⟩
  | verbatim text =>
      refine ⟨hline, ?_⟩
      have hjson : JsonText t text := h
      cases hjson with
      | @mk w₁ u w₂ hw₁ hu hw₂ =>
          have hlength : u.length ≤ n := by
            simp only [Slot.text, List.length_append] at hn
            omega
          have hclosed : Closes (w₂ ++ tail) := by
            cases w₂ with
            | nil => exact hcloses
            | cons c w₂ => exact fun d hd => .inl (Option.some.inj hd ▸ hw₂ c List.mem_cons_self)
          have hvalue := hu.reads hlength w₁ (w₂ ++ tail) hw₁ hclosed
          rw [Slot.text, List.append_assoc, hvalue] at hread
          exact ⟨w₂, hw₂, (Prod.mk.inj (Option.some.inj hread)).2.symm⟩

/-- Reading one field. -/
theorem Field.Says.read {f : Field} {m : List Piece × Tree} (h : f.Says m) {n : ℕ}
    (hn : f.text.length ≤ n) (hplain : Literals f.key) {tail rest : List UInt8}
    (hread : readMember (readValue n) (f.text ++ tail) = some (m, rest))
    (hfollows : Follows tail) (hcloses : Closes tail) (hline : 0x0A ∉ f.text) :
    f.slot.Clean ∧ ∃ w, Space w ∧ rest = w ++ tail := by
  have hkey := (chars_literals hplain).readString (0x3A :: (f.slot.text ++ tail))
  have hcolon : consume 0x3A (0x3A :: (f.slot.text ++ tail)) = some (f.slot.text ++ tail) :=
    consume_append space_nil (by decide) _
  have htext : f.text ++ tail =
      0x22 :: (f.key ++ 0x22 :: 0x3A :: (f.slot.text ++ tail)) := by
    simp [Field.text]
  rw [htext, readMember, skipWhitespace_cons (by decide), hkey, Option.bind_some] at hread
  dsimp only at hread
  rw [hcolon, Option.bind_some] at hread
  obtain ⟨⟨t, s⟩, ht, hpair⟩ := Option.map_eq_some_iff.1 hread
  obtain ⟨rfl, rfl⟩ := Prod.mk.inj hpair
  have hlength : f.slot.text.length ≤ n := by
    simp only [Field.text, List.cons_append, List.length_cons, List.length_append] at hn
    omega
  have hslot : 0x0A ∉ f.slot.text := fun hmem => hline (by simp [Field.text, hmem])
  exact h.2.read hlength ht hfollows hcloses hslot

theorem readMembers_head {read : List UInt8 → Option (Tree × List UInt8)} {k : ℕ}
    {s rest : List UInt8} {ms : List (List Piece × Tree)}
    (h : readMembers read k s = some (ms, rest)) :
    ∃ j m s' ms', readMember read s = some (m, s') ∧ ms = m :: ms' ∧
      ∀ more, consume 0x2C s' = some more → readMembers read j more = some (ms', rest) := by
  cases k with
  | zero => cases h
  | succ k =>
      rw [readMembers] at h
      obtain ⟨⟨m, s'⟩, hm, h⟩ := Option.bind_eq_some_iff.1 h
      dsimp only at h
      split at h
      · next more hmore =>
          obtain ⟨⟨ms', s''⟩, hms, hpair⟩ := Option.map_eq_some_iff.1 h
          obtain ⟨rfl, rfl⟩ := Prod.mk.inj hpair
          refine ⟨k, m, s', ms', hm, rfl, fun more' hmore' => ?_⟩
          obtain rfl := Option.some.inj (hmore.symm.trans hmore')
          exact hms
      · next hnone =>
          obtain ⟨s'', -, hpair⟩ := Option.map_eq_some_iff.1 h
          obtain ⟨rfl, -⟩ := Prod.mk.inj hpair
          refine ⟨k, m, s', [], hm, rfl, fun more hmore => ?_⟩
          rw [hnone] at hmore
          cases hmore

theorem fieldsText_quote {fields : List Field} (h : fields ≠ []) :
    ∃ s, fieldsText fields = 0x22 :: s := by
  cases fields with
  | nil => exact absurd rfl h
  | cons f fields =>
      rw [fieldsText_cons]
      exact ⟨_, rfl⟩

/-- If the fields are read as what they say, they are clean. -/
theorem fields_clean {fields : List Field} {n k : ℕ} {ms : List (List Piece × Tree)}
    {rest : List UInt8}
    (hread : readMembers (readValue n) k (fieldsText fields ++ [0x7D]) = some (ms, rest))
    (hspelled : List.Forall₂ Field.Says fields ms) (hn : (fieldsText fields).length ≤ n)
    (hplain : ∀ f ∈ fields, Literals f.key) (hline : 0x0A ∉ fieldsText fields) :
    ∀ f ∈ fields, f.slot.Clean := by
  induction fields generalizing k ms with
  | nil => exact fun f hf => by cases hf
  | cons f fields ih =>
      obtain ⟨j, m, s', ms', hm, rfl, hmore⟩ := readMembers_head hread
      cases hspelled with
      | cons hf hfields =>
          rw [List.forall_mem_cons] at hplain ⊢
          rw [fieldsText_cons] at hm hn hline
          simp only [List.mem_append, not_or] at hline
          have hfirst : f.text.length ≤ n := by
            rw [List.length_append] at hn
            omega
          rw [List.append_assoc] at hm
          by_cases hnil : fields = []
          · subst hnil
            have hends : Follows [0x7D] := .inr (by decide)
            have hclosed : Closes [0x7D] := closes_bracket space_nil (.inr (.inr rfl)) []
            exact ⟨(hf.read hfirst hplain.1 hm hends hclosed hline.1).1,
              fun g hg => by cases hg⟩
          · rw [if_neg hnil] at hm hn hline
            obtain ⟨s, hs⟩ := fieldsText_quote hnil
            have hends : Follows (0x2C :: fieldsText fields ++ [0x7D]) :=
              .inl ⟨s ++ [0x7D], by rw [hs]; rfl⟩
            have hclosed : Closes (0x2C :: fieldsText fields ++ [0x7D]) :=
              closes_bracket space_nil (.inl rfl) _
            obtain ⟨hclean, w, hw, rfl⟩ := hf.read hfirst hplain.1 hm hends hclosed hline.1
            have hcomma : consume 0x2C (w ++ (0x2C :: fieldsText fields ++ [0x7D])) =
                some (fieldsText fields ++ [0x7D]) := consume_append hw (by decide) _
            have hlength : (fieldsText fields).length ≤ n := by
              simp only [List.length_append, List.length_cons] at hn
              omega
            refine ⟨hclean, ih (hmore _ hcomma) hfields hlength hplain.2 fun hmem => ?_⟩
            exact hline.2 (List.mem_cons_of_mem _ hmem)

/-- A record is one line with exactly its fields, if and only if they are clean. -/
theorem Template.isRecord_iff {fields : List Field} (h : Template fields) :
    IsRecord fields (recordText fields) ↔ ∀ f ∈ fields, f.slot.Clean := by
  constructor
  · rintro ⟨hline, ⟨ms, hms, hspelled⟩, -⟩
    have hread := hms.readText
    obtain ⟨⟨t, s⟩, ht, hend⟩ := Option.bind_eq_some_iff.1 hread
    dsimp only at hend
    split at hend
    · obtain rfl := Option.some.inj hend
      have hopen : consume 0x7B (recordText fields) = some (fieldsText fields ++ [0x7D]) :=
        consume_append space_nil (by decide) _
      have hobject : readObject (readValue (recordText fields).length) (recordText fields) =
          some (.object ms, s) := by
        rw [← ht]
        exact (readValue_cons space_nil (c := 0x7B) (by decide) _).symm
      obtain ⟨s₀, hs₀⟩ := fieldsText_quote h.some_field
      have hpeek : peek (fieldsText fields ++ [0x7D]) ≠ 0x7D := by
        rw [hs₀]
        exact (by decide : (0x22 : UInt8) ≠ 0x7D)
      rw [readObject, hopen, Option.bind_some, if_neg hpeek] at hobject
      obtain ⟨⟨ms', s'⟩, hmembers, hpair⟩ := Option.map_eq_some_iff.1 hobject
      obtain ⟨hsame, -⟩ := Prod.mk.inj hpair
      obtain rfl := Tree.object.inj hsame
      refine fields_clean hmembers hspelled ?_ h.plain fun hmem => hline (by simp [recordText, hmem])
      simp only [recordText, List.cons_append, List.length_cons, List.length_append]
      omega
    · cases hend
  · intro hclean
    obtain ⟨ms, htext, hspelled⟩ := h.written fun f hf => (hclean f hf).unbroken
    exact ⟨recordText_line h.plain hclean, ⟨ms, htext, hspelled⟩, h.parsed htext hspelled⟩

theorem IsRecord.no_nul {fields : List Field} {text : List UInt8} (h : IsRecord fields text) :
    0 ∉ text := by
  obtain ⟨ms, ⟨hw₁, hu, hw₂⟩, -⟩ := h.written
  exact notMem_append (notMem_append hw₁.no_nul hu.no_nul) hw₂.no_nul

/-! ## The text of an object as a record -/

theorem stringifyString_literals {s : List UInt8} (h : Literals s) :
    stringifyString (cstr s) = 0x22 :: s ++ [0x22] := by
  rw [h.cstr, stringifyString]
  congr 2
  induction s with
  | nil => rfl
  | cons c s ih =>
      obtain ⟨⟨hcontrol, hquote, hbackslash⟩, hs⟩ := List.forall_mem_cons.1 h
      have hbyte : stringifyByte c = [c] := by
        have hne (d : UInt8) (hd : d < 0x20) : c ≠ d := by
          rintro rfl
          exact absurd hcontrol (UInt8.not_le.2 hd)
        unfold stringifyByte
        rw [if_neg hquote, if_neg hbackslash, if_neg (hne _ (by decide)), if_neg (hne _ (by decide)),
          if_neg (hne _ (by decide)), if_neg (hne _ (by decide)), if_neg (hne _ (by decide)),
          if_neg (UInt8.not_lt.2 hcontrol)]
      rw [List.flatMap_cons, hbyte, ih hs]
      rfl

/-- The field of a member. -/
def memberField (m : List UInt8 × LcnJsonValue) : Field := ⟨m.1, .verbatim (stringifyValue m.2)⟩

theorem stringifyMembers_eq {members : List (List UInt8 × LcnJsonValue)}
    (h : ∀ m ∈ members, Literals m.1) :
    stringifyMembers members = fieldsText (members.map memberField) := by
  induction members with
  | nil => rfl
  | cons m members ih =>
      obtain ⟨key, v⟩ := m
      obtain ⟨hkey, hmembers⟩ := List.forall_mem_cons.1 h
      have hfirst : stringifyString (cstr key) ++ 0x3A :: stringifyValue v =
          (memberField (key, v)).text := by
        rw [stringifyString_literals hkey]
        simp [memberField, Field.text, Slot.text]
      cases members with
      | nil => rw [stringifyMembers, hfirst, List.map_singleton, fieldsText]
      | cons m members =>
          rw [stringifyMembers, List.append_assoc, List.cons_append, ← List.cons_append,
            ← List.append_assoc, hfirst, ih hmembers]
          rfl

theorem stringifyObject_eq {members : List (List UInt8 × LcnJsonValue)}
    (h : ∀ m ∈ members, Literals m.1) :
    stringifyValue (.object members) = recordText (members.map memberField) := by
  rw [stringifyValue, stringifyMembers_eq h, recordText]

/-! ## An object that starts with a string -/

/-- What stands behind the first value of an object, with its other members. -/
inductive Behind : List (List Piece × Tree) → List UInt8 → Prop
  | last {w w' : List UInt8} : Space w → Space w' → Behind [] (w ++ 0x7D :: w')
  | more {ms : List (List Piece × Tree)} {w v w' : List UInt8} : Space w → MembersText ms v →
      Space w' → Behind ms (w ++ 0x2C :: (v ++ 0x7D :: w'))

theorem Behind.membersText {m : List Piece × Tree} {ms : List (List Piece × Tree)}
    {u rest : List UInt8} (h : Behind ms rest)
    (hm : ∀ w, Space w → MemberText m (u ++ w)) :
    ∃ v w', MembersText (m :: ms) v ∧ Space w' ∧ u ++ rest = v ++ 0x7D :: w' := by
  cases h with
  | @last w w' hw hw' => exact ⟨u ++ w, w', .one (hm w hw), hw', by simp⟩
  | @more _ w v w' hw hv hw' =>
      exact ⟨u ++ w ++ 0x2C :: v, w', .more (hm w hw) hv, hw', by simp⟩

/-- The members of an object whose first value starts with a quote. -/
theorem jsonText_first {key s : List UInt8} (hkey : Literals key) {m : List Piece × Tree}
    {ms : List (List Piece × Tree)} :
    JsonText (.object (m :: ms)) (0x7B :: 0x22 :: (key ++ 0x22 :: 0x3A :: 0x22 :: s)) ↔
      ∃ ps u rest, m = (key.map .raw, .string ps) ∧ Chars ps u ∧ s = u ++ 0x22 :: rest ∧
        Behind ms rest := by
  constructor
  · intro h
    obtain ⟨⟨t, s₁⟩, ht, hend⟩ := Option.bind_eq_some_iff.1 h.readText
    dsimp only at hend
    split at hend
    · next hspace =>
        obtain rfl := Option.some.inj hend
        generalize hinner : 0x22 :: (key ++ 0x22 :: 0x3A :: 0x22 :: s) = inner at ht
        have hopen : consume 0x7B (0x7B :: inner) = some inner :=
          consume_append space_nil (by decide) _
        have hobject : readObject (readValue (0x7B :: inner).length) (0x7B :: inner) =
            some (.object (m :: ms), s₁) := by
          rw [← ht]
          exact (readValue_cons space_nil (c := 0x7B) (by decide) _).symm
        have hpeek : peek inner ≠ 0x7D := by
          rw [← hinner]
          exact (by decide : (0x22 : UInt8) ≠ 0x7D)
        rw [readObject, hopen, Option.bind_some, if_neg hpeek] at hobject
        obtain ⟨⟨ms', s₂⟩, hmembers, hpair⟩ := Option.map_eq_some_iff.1 hobject
        obtain ⟨hsame, rfl⟩ := Prod.mk.inj hpair
        obtain rfl := Tree.object.inj hsame
        rw [readMembers] at hmembers
        obtain ⟨⟨m', s₃⟩, hm, hmembers⟩ := Option.bind_eq_some_iff.1 hmembers
        have hstring := (chars_literals hkey).readString (0x3A :: 0x22 :: s)
        have hcolon : consume 0x3A (0x3A :: 0x22 :: s) = some (0x22 :: s) :=
          consume_append space_nil (by decide) _
        rw [← hinner, readMember, skipWhitespace_cons (by decide), hstring, Option.bind_some] at hm
        dsimp only at hm
        rw [hcolon, Option.bind_some] at hm
        obtain ⟨⟨t, s₄⟩, hvalue, hpair⟩ := Option.map_eq_some_iff.1 hm
        obtain ⟨rfl, rfl⟩ := Prod.mk.inj hpair
        obtain ⟨ps, u, rfl, hu, hsplit⟩ := readValue_quote hvalue
        dsimp only at hmembers
        cases hcomma : consume 0x2C s₄ with
        | some s₅ =>
            rw [hcomma] at hmembers
            obtain ⟨⟨ms', s₆⟩, hms, hpair⟩ := Option.map_eq_some_iff.1 hmembers
            obtain ⟨hlist, rfl⟩ := Prod.mk.inj hpair
            obtain ⟨rfl, rfl⟩ := List.cons.inj hlist
            obtain ⟨v, hv, rfl⟩ := readMembers_sound (readValue_sound _) hms
            obtain ⟨w, hw, rfl⟩ := consume_sound hcomma
            exact ⟨ps, u, _, rfl, hu, hsplit, .more hw hv (space_of_skipWhitespace hspace)⟩
        | none =>
            rw [hcomma] at hmembers
            obtain ⟨s₆, hclose, hpair⟩ := Option.map_eq_some_iff.1 hmembers
            obtain ⟨hlist, rfl⟩ := Prod.mk.inj hpair
            obtain ⟨rfl, rfl⟩ := List.cons.inj hlist
            obtain ⟨w, hw, rfl⟩ := consume_sound hclose
            exact ⟨ps, u, _, rfl, hu, hsplit, .last hw (space_of_skipWhitespace hspace)⟩
    · cases hend
  · rintro ⟨ps, u, rest, rfl, hu, rfl, hrest⟩
    have hmember : ∀ w, Space w → MemberText (key.map .raw, .string ps)
        (0x22 :: (key ++ 0x22 :: 0x3A :: 0x22 :: (u ++ [0x22])) ++ w) := by
      intro w hw
      have h := MemberText.mk space_nil (chars_literals hkey) space_nil space_nil (.string hu) hw
      simpa using h
    obtain ⟨v, w', hv, hw', hsplit⟩ := hrest.membersText hmember
    have htext := JsonText.mk space_nil (.object hv) hw'
    have heq : 0x7B :: 0x22 :: (key ++ 0x22 :: 0x3A :: 0x22 :: (u ++ 0x22 :: rest)) =
        [] ++ (0x7B :: v ++ [0x7D]) ++ w' := by
      simpa using hsplit
    rw [heq]
    exact htext

/-! ## Lines -/

/-- A record and a line feed. -/
def IsLine (fields : List Field) (out : List UInt8) : Prop :=
  ∃ body, out = body ++ [0x0A] ∧ IsRecord fields body

theorem Template.isLine_iff {fields : List Field} (h : Template fields) {out : List UInt8}
    (hout : out = recordText fields ++ [0x0A]) :
    IsLine fields out ↔ ∀ f ∈ fields, f.slot.Clean := by
  subst hout
  rw [← h.isRecord_iff]
  constructor
  · rintro ⟨body, hbody, hrecord⟩
    rwa [List.append_cancel_right hbody]
  · exact fun hrecord => ⟨_, rfl, hrecord⟩

end Limceron.Json
