/-
# `Limceron.Access.Inet` — numeric hosts, and the ones the filter reads

The resolver reads one to four parts with dots between them, each in decimal, octal
or hexadecimal (`Numeric`).  `acl_is_private_ip` reads four parts in decimal:

| host | address | read as |
| :-- | :-- | :-- |
| `127.0.0.1` | 127.0.0.1 | 127.0.0.1 |
| `127.1` | 127.0.0.1 | nothing |
| `0x7f.0.0.1` | 127.0.0.1 | nothing |
| `0177.0.0.1` | 127.0.0.1 | 177.0.0.1 |

So some private addresses pass, in a spelling of theirs (`contained_iff`).
-/
import Limceron.Access.Fetch
import Mathlib.Tactic.Linarith

namespace Limceron.Access

open Caps (CString)

/-! ## Numeric hosts -/

/-- The value of a digit, also a hexadecimal one. -/
def digitValue (c : Char) : Nat :=
  if isDigit c then c.toNat - '0'.toNat
  else if 'a' ≤ c && c ≤ 'f' then c.toNat - 'a'.toNat + 10
  else c.toNat - 'A'.toNat + 10

def isOctal (c : Char) : Bool := '0' ≤ c && c ≤ '7'

def isHex (c : Char) : Bool := isDigit c || ('a' ≤ c && c ≤ 'f') || ('A' ≤ c && c ≤ 'F')

/-- The number the digits make in a base. -/
def numeral (base : Nat) (ds : CString) : Nat := ds.foldl (fun n c => base * n + digitValue c) 0

/-- A part of a numeric host, and its value. -/
inductive Part : CString → Nat → Prop
  | decimal {c : Char} {ds : CString} (hc : c ≠ '0') (h : ∀ d ∈ c :: ds, isDigit d = true) :
      Part (c :: ds) (numeral 10 (c :: ds))
  | octal {ds : CString} (h : ∀ d ∈ ds, isOctal d = true) : Part ('0' :: ds) (numeral 8 ds)
  | hex {x : Char} {ds : CString} (hx : x = 'x' ∨ x = 'X') (hne : ds ≠ [])
      (h : ∀ d ∈ ds, isHex d = true) : Part ('0' :: x :: ds) (numeral 16 ds)

/-- A numeric host, and its address: the last part fills what the others leave. -/
inductive Numeric : CString → Nat → Prop
  | one {p : CString} {a : Nat} (hp : Part p a) (ha : a < 4294967296) : Numeric p a
  | two {p q : CString} {a b : Nat} (hp : Part p a) (hq : Part q b) (ha : a < 256)
      (hb : b < 16777216) : Numeric (p ++ '.' :: q) (a * 16777216 + b)
  | three {p q r : CString} {a b c : Nat} (hp : Part p a) (hq : Part q b) (hr : Part r c)
      (ha : a < 256) (hb : b < 256) (hc : c < 65536) :
      Numeric (p ++ '.' :: (q ++ '.' :: r)) (a * 16777216 + b * 65536 + c)
  | four {p q r s : CString} {a b c d : Nat} (hp : Part p a) (hq : Part q b) (hr : Part r c)
      (hs : Part s d) (ha : a < 256) (hb : b < 256) (hc : c < 256) (hd : d < 256) :
      Numeric (p ++ '.' :: (q ++ '.' :: (r ++ '.' :: s)))
        (a * 16777216 + b * 65536 + c * 256 + d)

/-- The addresses that `private_ranges` is about. -/
def IsPrivate (addr : Nat) : Prop :=
  addr / 16777216 = 0 ∨ addr / 16777216 = 10 ∨ addr / 16777216 = 127 ∨
    addr / 65536 = 169 * 256 + 254 ∨ addr / 1048576 = 172 * 16 + 1 ∨
    addr / 65536 = 192 * 256 + 168

/-! ## Parts, as `%u` reads them -/

theorem Part.head {p : CString} {a : Nat} (h : Part p a) :
    ∃ c ds, p = c :: ds ∧ isDigit c = true := by
  cases h with
  | decimal hc h => exact ⟨_, _, rfl, h _ List.mem_cons_self⟩
  | octal h => exact ⟨_, _, rfl, rfl⟩
  | hex hx hne h => exact ⟨_, _, rfl, rfl⟩

theorem isDigit_iff {c : Char} : isDigit c = true ↔ 48 ≤ c.toNat ∧ c.toNat ≤ 57 := by
  simp only [isDigit, Bool.and_eq_true, decide_eq_true_eq]
  exact Iff.rfl

theorem isOctal_iff {c : Char} : isOctal c = true ↔ 48 ≤ c.toNat ∧ c.toNat ≤ 55 := by
  simp only [isOctal, Bool.and_eq_true, decide_eq_true_eq]
  exact Iff.rfl

theorem isDigit_of_isOctal {c : Char} (h : isOctal c = true) : isDigit c = true := by
  rw [isOctal_iff] at h
  rw [isDigit_iff]
  omega

theorem isSpace_of_isDigit {c : Char} (h : isDigit c = true) : isSpace c = false := by
  rw [isDigit_iff] at h
  have hblank : c ≠ ' ' := by
    rintro rfl
    exact absurd h.1 (by decide)
  have hle : ¬ c ≤ '\r' := fun hle => by
    have : c.toNat ≤ 13 := hle
    omega
  simp [isSpace, hblank, hle]

/-- A digit stands for itself: neither a blank nor a sign. -/
theorem sign_of_isDigit {c : Char} (hc : isDigit c = true) (s : CString) :
    sign ((c :: s).dropWhile isSpace) = (false, c :: s) := by
  rw [List.dropWhile_cons_of_neg (by rw [isSpace_of_isDigit hc]; exact Bool.false_ne_true)]
  unfold sign
  split
  · next h =>
      cases h
      exact absurd hc (by decide)
  · next h =>
      cases h
      exact absurd hc (by decide)
  · rfl

theorem takeWhile_digits {p s : CString} (hp : ∀ c ∈ p, isDigit c = true)
    (hs : ∀ c ∈ s.head?, isDigit c = false) : (p ++ s).takeWhile isDigit = p := by
  rw [List.takeWhile_append_of_pos hp]
  cases s with
  | nil => simp
  | cons c s =>
      have hc := hs c rfl
      simp [hc]

theorem dropWhile_digits {p s : CString} (hp : ∀ c ∈ p, isDigit c = true)
    (hs : ∀ c ∈ s.head?, isDigit c = false) : (p ++ s).dropWhile isDigit = s := by
  rw [List.dropWhile_append_of_pos hp]
  cases s with
  | nil => rfl
  | cons c s =>
      have hc := hs c rfl
      simp [hc]

/-- What `%u` makes of a number. -/
def low32 (n : Nat) : Nat := min n 18446744073709551615 % 4294967296

theorem low32_of_lt {n : Nat} (h : n < 4294967296) : low32 n = n := by
  rw [low32, Nat.min_eq_left (by omega), Nat.mod_eq_of_lt h]

/-- `%u` at digits: it reads as far as they go. -/
theorem scanUnsigned_digits {p s : CString} (hne : p ≠ []) (hp : ∀ c ∈ p, isDigit c = true)
    (hs : ∀ c ∈ s.head?, isDigit c = false) :
    scanUnsigned (p ++ s) = some (low32 (numeral 10 p), s) := by
  obtain ⟨c, ds, rfl⟩ := List.exists_cons_of_ne_nil hne
  have htake := takeWhile_digits hp hs
  have hdrop := dropWhile_digits hp hs
  have hvalue : digits (c :: ds ++ s) = numeral 10 (c :: ds) := by
    rw [digits, htake, numeral]
    refine List.foldl_ext _ _ 0 fun n d hd => ?_
    rw [digitValue, if_pos (hp d hd)]
  rw [scanUnsigned, List.cons_append, sign_of_isDigit (hp c List.mem_cons_self)]
  rw [List.cons_append] at htake hdrop hvalue
  simp only [htake, hdrop, hvalue, if_neg hne, Bool.false_and, low32]
  rfl

/-- A part that is read as a decimal number. -/
structure Decimal (p : CString) : Prop where
  ne_nil : p ≠ []
  digits : ∀ c ∈ p, isDigit c = true

/-- `%u.` -/
def readPart (s : CString) : Option (Nat × CString) :=
  (scanUnsigned s).bind fun r => (scanLiteral '.' r.2).map fun t => (r.1, t)

theorem readPart_decimal {p : CString} (hp : Decimal p) (s : CString) :
    readPart (p ++ '.' :: s) = some (low32 (numeral 10 p), s) := by
  have hdot : ∀ c ∈ ('.' :: s).head?, isDigit c = false := by
    rintro c ⟨⟩
    rfl
  rw [readPart, scanUnsigned_digits hp.ne_nil hp.digits hdot]
  rfl

/-- A part is decimal, or the number stops at its second character. -/
theorem Part.decimal_or {p : CString} {a : Nat} (h : Part p a) :
    Decimal p ∨ ∃ x ds, p = '0' :: x :: ds ∧ (x = 'x' ∨ x = 'X') := by
  cases h with
  | decimal hc h => exact .inl ⟨List.cons_ne_nil _ _, h⟩
  | octal h =>
      refine .inl ⟨List.cons_ne_nil _ _, fun c hc => ?_⟩
      rcases List.mem_cons.1 hc with rfl | hc
      · rfl
      · exact isDigit_of_isOctal (h c hc)
  | hex hx hne h => exact .inr ⟨_, _, rfl, hx⟩

theorem readPart_hex {x : Char} (hx : x = 'x' ∨ x = 'X') (s : CString) :
    readPart ('0' :: x :: s) = none := by
  have hhead : ∀ c ∈ (x :: s).head?, isDigit c = false := by
    rintro c ⟨⟩
    rcases hx with rfl | rfl
    · rfl
    · rfl
  have hscan := scanUnsigned_digits (p := ['0']) (List.cons_ne_nil _ _) (by simp [isDigit]) hhead
  rw [readPart, ← List.singleton_append, hscan, Option.bind_some, scanLiteral]
  rcases hx with rfl | rfl
  · rfl
  · rfl

/-- Behind the last part there is no dot. -/
theorem Part.readPart_eq_none {p : CString} {a : Nat} (h : Part p a) : readPart p = none := by
  rcases h.decimal_or with hp | ⟨x, ds, rfl, hx⟩
  · have hscan := scanUnsigned_digits (s := []) hp.ne_nil hp.digits (by simp)
    rw [List.append_nil] at hscan
    rw [readPart, hscan]
    rfl
  · exact readPart_hex hx ds

theorem Part.scanUnsigned_isSome {p : CString} {a : Nat} (h : Part p a) :
    ∃ r, scanUnsigned p = some r := by
  rcases h.decimal_or with hp | ⟨x, ds, rfl, hx⟩
  · have hscan := scanUnsigned_digits (s := []) hp.ne_nil hp.digits (by simp)
    rw [List.append_nil] at hscan
    exact ⟨_, hscan⟩
  · have hhead : ∀ c ∈ (x :: ds).head?, isDigit c = false := by
      rintro c ⟨⟩
      rcases hx with rfl | rfl
      · rfl
      · rfl
    exact ⟨_, scanUnsigned_digits (p := ['0']) (List.cons_ne_nil _ _) (by simp [isDigit]) hhead⟩

/-- The decimal reading of a part does not overflow, if the part is an octet. -/
theorem numeral_le_sq (ds : CString) : numeral 10 ds ≤ numeral 8 ds ^ 2 := by
  have hfold : ∀ m n, m ≤ n ^ 2 →
      ds.foldl (fun n c => 10 * n + digitValue c) m ≤
        (ds.foldl (fun n c => 8 * n + digitValue c) n) ^ 2 := by
    induction ds with
    | nil => exact fun m n h => h
    | cons c ds ih =>
        intro m n h
        refine ih _ _ ?_
        have hd : digitValue c ≤ digitValue c ^ 2 := Nat.le_self_pow (by decide) _
        have hprod : 0 ≤ n * digitValue c := Nat.zero_le _
        calc 10 * m + digitValue c ≤ 10 * n ^ 2 + digitValue c ^ 2 := by omega
          _ ≤ (8 * n + digitValue c) ^ 2 := by nlinarith
  exact hfold 0 0 (Nat.zero_le _)

theorem Part.numeral_lt {p : CString} {a : Nat} (h : Part p a) (hp : Decimal p) (ha : a < 256) :
    numeral 10 p < 4294967296 := by
  cases h with
  | decimal hc h => omega
  | octal h =>
      rename_i ds
      have hle := numeral_le_sq ds
      have hzero : numeral 10 ('0' :: ds) = numeral 10 ds := rfl
      have hsq : numeral 8 ds ^ 2 ≤ 255 ^ 2 := Nat.pow_le_pow_left (by omega) 2
      rw [hzero]
      omega
  | hex hx hne h =>
      have := hp.digits _ (List.mem_cons_of_mem _ List.mem_cons_self)
      rcases hx with rfl | rfl
      · cases this
      · cases this

/-! ## The filter -/

theorem scanQuad_eq (s : CString) :
    scanQuad s = (readPart s).bind fun a => (readPart a.2).bind fun b =>
      (readPart b.2).bind fun c => (scanUnsigned c.2).map fun d => (a.1, b.1, c.1, d.1) := by
  unfold scanQuad readPart
  cases scanUnsigned s with
  | none => rfl
  | some a =>
    cases ha : scanLiteral '.' a.2 with
    | none => simp [ha]
    | some s =>
      cases hb : scanUnsigned s with
      | none => simp [ha, hb]
      | some b =>
        cases hc : scanLiteral '.' b.2 with
        | none => simp [ha, hb, hc]
        | some s =>
          cases hd : scanUnsigned s with
          | none => simp [ha, hb, hc, hd]
          | some c =>
            cases he : scanLiteral '.' c.2 with
            | none => simp [ha, hb, hc, hd, he]
            | some s =>
              cases hf : scanUnsigned s with
              | none => simp [ha, hb, hc, hd, he, hf]
              | some d => simp [ha, hb, hc, hd, he, hf]

/-- The first two numbers of a quad, in one of the ranges. -/
def privatePrefix (a b : Nat) : Bool :=
  a == 10 || (a == 172 && 16 ≤ b && b ≤ 31) || (a == 192 && b == 168) || a == 127 ||
    (a == 169 && b == 254) || (true && a == 0)

/-- Four parts, the first three of them with decimal digits alone, and the first two,
read as decimal numbers, in one of the ranges. -/
def Seen (host : CString) : Prop :=
  ∃ p q r s, host = p ++ '.' :: (q ++ '.' :: (r ++ '.' :: s)) ∧ Decimal p ∧ Decimal q ∧
    Decimal r ∧ (∃ d, Part s d) ∧ privatePrefix (numeral 10 p) (numeral 10 q) = true

theorem scanQuad_four {p q r s : CString} {d : Nat} (hp : Decimal p) (hq : Decimal q)
    (hr : Decimal r) (hs : Part s d) :
    ∃ n, scanQuad (p ++ '.' :: (q ++ '.' :: (r ++ '.' :: s))) =
      some (low32 (numeral 10 p), low32 (numeral 10 q), low32 (numeral 10 r), n) := by
  obtain ⟨x, hx⟩ := hs.scanUnsigned_isSome
  refine ⟨x.1, ?_⟩
  rw [scanQuad_eq, readPart_decimal hp, Option.bind_some, readPart_decimal hq, Option.bind_some,
    readPart_decimal hr, Option.bind_some, hx]
  rfl

theorem aclIsPrivateIp_of_quad {host : CString} {a b c d : Nat}
    (h : scanQuad host = some (a, b, c, d)) : aclIsPrivateIp host = privatePrefix a b := by
  rw [aclIsPrivateIp, privateQuad, h]
  rfl

theorem aclIsPrivateIp_of_none {host : CString} (h : scanQuad host = none) :
    aclIsPrivateIp host = false := by
  rw [aclIsPrivateIp, privateQuad, h]

/-- The ranges are about small numbers. -/
theorem privatePrefix_low32 {a b : Nat} (h : privatePrefix a b = true) :
    privatePrefix (low32 a) (low32 b) = true := by
  simp only [privatePrefix, Bool.or_eq_true, Bool.and_eq_true, beq_iff_eq, decide_eq_true_eq,
    true_and] at h ⊢
  rcases h with ((((rfl | ⟨⟨rfl, hlo⟩, hhi⟩) | ⟨rfl, rfl⟩) | rfl) | ⟨rfl, rfl⟩) | rfl
  · exact .inl (.inl (.inl (.inl (.inl rfl))))
  · rw [low32_of_lt (n := b) (by omega)]
    exact .inl (.inl (.inl (.inl (.inr ⟨⟨rfl, hlo⟩, hhi⟩))))
  · exact .inl (.inl (.inl (.inr ⟨rfl, rfl⟩)))
  · exact .inl (.inl (.inr rfl))
  · exact .inl (.inr ⟨rfl, rfl⟩)
  · exact .inr rfl

/-- A part that `%u.` reads is decimal. -/
theorem Part.decimal_of_readPart {p t : CString} {a : Nat} {r : Nat × CString} (hp : Part p a)
    (h : readPart (p ++ '.' :: t) = some r) : Decimal p ∧ r = (low32 (numeral 10 p), t) := by
  rcases hp.decimal_or with hdec | ⟨x, ds, rfl, hx⟩
  · rw [readPart_decimal hdec] at h
    cases h
    exact ⟨hdec, rfl⟩
  · rw [List.cons_append, List.cons_append, readPart_hex hx] at h
    cases h

/-- The filter reads three parts with dots behind them. -/
theorem readParts_of_private {host : CString} (h : aclIsPrivateIp host = true) :
    ∃ a b c, readPart host = some a ∧ readPart a.2 = some b ∧ readPart b.2 = some c := by
  cases hquad : scanQuad host with
  | none =>
      rw [aclIsPrivateIp_of_none hquad] at h
      cases h
  | some q =>
      rw [scanQuad_eq] at hquad
      obtain ⟨a, ha, hquad⟩ := Option.bind_eq_some_iff.1 hquad
      obtain ⟨b, hb, hquad⟩ := Option.bind_eq_some_iff.1 hquad
      obtain ⟨c, hc, -⟩ := Option.bind_eq_some_iff.1 hquad
      exact ⟨a, b, c, ha, hb, hc⟩

/-- What the filter sees of a numeric host. -/
theorem seen_iff {host : CString} {addr : Nat} (h : Numeric host addr) :
    Seen host ↔ aclIsPrivateIp host = true := by
  constructor
  · rintro ⟨p, q, r, s, rfl, hp, hq, hr, ⟨d, hs⟩, hprefix⟩
    obtain ⟨n, hn⟩ := scanQuad_four hp hq hr hs
    rw [aclIsPrivateIp_of_quad hn]
    exact privatePrefix_low32 hprefix
  · intro hpriv
    obtain ⟨a, b, c, ha, hb, hc⟩ := readParts_of_private hpriv
    cases h with
    | one hp _ =>
        rw [hp.readPart_eq_none] at ha
        cases ha
    | two hp hq _ _ =>
        obtain ⟨-, rfl⟩ := hp.decimal_of_readPart ha
        rw [hq.readPart_eq_none] at hb
        cases hb
    | three hp hq hr _ _ _ =>
        obtain ⟨-, rfl⟩ := hp.decimal_of_readPart ha
        obtain ⟨-, rfl⟩ := hq.decimal_of_readPart hb
        rw [hr.readPart_eq_none] at hc
        cases hc
    | four hp hq hr hs hlta hltb hltc hltd =>
        obtain ⟨hp', rfl⟩ := hp.decimal_of_readPart ha
        obtain ⟨hq', rfl⟩ := hq.decimal_of_readPart hb
        obtain ⟨hr', rfl⟩ := hr.decimal_of_readPart hc
        obtain ⟨n, hn⟩ := scanQuad_four hp' hq' hr' hs
        rw [aclIsPrivateIp_of_quad hn, low32_of_lt (hp.numeral_lt hp' hlta),
          low32_of_lt (hq.numeral_lt hq' hltb)] at hpriv
        exact ⟨_, _, _, _, rfl, hp', hq', hr', ⟨_, hs⟩, hpriv⟩

/-- Of an address in four decimal numbers, none is missed. -/
theorem seen_of_decimal {p q r s : CString} {d : Nat} (hp : Decimal p) (hq : Decimal q)
    (hr : Decimal r) (hs : Part s d) (hltq : numeral 10 q < 256) (hltr : numeral 10 r < 256)
    (hltd : d < 256)
    (h : IsPrivate (numeral 10 p * 16777216 + numeral 10 q * 65536 + numeral 10 r * 256 + d)) :
    Seen (p ++ '.' :: (q ++ '.' :: (r ++ '.' :: s))) := by
  refine ⟨p, q, r, s, rfl, hp, hq, hr, ⟨d, hs⟩, ?_⟩
  simp only [privatePrefix, Bool.or_eq_true, Bool.and_eq_true, beq_iff_eq, decide_eq_true_eq,
    true_and]
  generalize numeral 10 p = a at h ⊢
  generalize numeral 10 q = b at h hltq ⊢
  generalize numeral 10 r = c at h hltr
  have h24 : (a * 16777216 + b * 65536 + c * 256 + d) / 16777216 = a := by omega
  have h20 : (a * 16777216 + b * 65536 + c * 256 + d) / 1048576 = a * 16 + b / 16 := by omega
  have h16 : (a * 16777216 + b * 65536 + c * 256 + d) / 65536 = a * 256 + b := by omega
  rw [IsPrivate, h24, h20, h16] at h
  rcases h with h | h | h | h | h | h
  · exact .inr h
  · exact .inl (.inl (.inl (.inl (.inl h))))
  · exact .inl (.inl (.inr h))
  · exact .inl (.inr (by omega))
  · exact .inl (.inl (.inl (.inl (.inr (by omega)))))
  · exact .inl (.inl (.inl (.inr (by omega))))

/-! ## What the fetch lets through -/

/-- Whatever policy forbids private ranges, no URL with a numeric host in them is
fetched. -/
def Contained (url : CString) : Prop :=
  ∀ policy : LcnAccessPolicy, policy.denyPrivate = true → lcnFetchChecked url (some policy) = none →
    ∀ u, aclParseUrl url = some u → ∀ addr, Numeric u.host addr → ¬ IsPrivate addr

/-- All that is fetched from a policy that forbids private ranges has passed the filter. -/
theorem not_private_of_fetched {url : CString} {policy : LcnAccessPolicy} {u : Url}
    (hdeny : policy.denyPrivate = true) (h : lcnFetchChecked url (some policy) = none)
    (hu : aclParseUrl url = some u) : aclIsPrivateIp u.host = false := by
  rw [lcnFetchChecked, hu] at h
  simp only [hdeny, Bool.true_and] at h
  split at h
  · cases h
  · next hpriv => exact Bool.eq_false_iff.2 hpriv

/-- A policy that forbids private ranges, and nothing else. -/
def onlyRanges : LcnAccessPolicy where
  endpoints := none
  binaries := none
  paths := none
  denyPrivate := true
  defaultDeny := false

theorem fetched_of_not_private {url : CString} {u : Url} (hu : aclParseUrl url = some u)
    (h : aclIsPrivateIp u.host = false) : lcnFetchChecked url (some onlyRanges) = none := by
  rw [lcnFetchChecked, hu]
  simp [onlyRanges, h]

/-- No private address is reached exactly if every spelling of one that stands as the
host is seen by the filter. -/
theorem contained_iff (url : CString) :
    Contained url ↔
      ∀ u, aclParseUrl url = some u → ∀ addr, Numeric u.host addr → IsPrivate addr →
        Seen u.host := by
  constructor
  · intro h u hu addr hnum hpriv
    by_contra hseen
    rw [seen_iff hnum, Bool.not_eq_true] at hseen
    exact h onlyRanges rfl (fetched_of_not_private hu hseen) u hu addr hnum hpriv
  · intro h policy hdeny hnone u hu addr hnum hpriv
    have hseen := (seen_iff hnum).1 (h u hu addr hnum hpriv)
    rw [not_private_of_fetched hdeny hnone hu] at hseen
    cases hseen

/-- 127.1 is 127.0.0.1. -/
theorem short_form_passes : ¬ Contained "http://127.1/".toList := by
  intro h
  have hnum : Numeric "127.1".toList (127 * 16777216 + 1) :=
    .two (p := ['1', '2', '7']) (q := ['1']) (.decimal (by decide) (by simp [isDigit]))
      (.decimal (by decide) (by simp [isDigit])) (by decide) (by decide)
  exact h onlyRanges rfl rfl ⟨"127.1".toList, 80, "/".toList⟩ rfl _ hnum
    (.inr (.inr (.inl (by decide))))

end Limceron.Access
