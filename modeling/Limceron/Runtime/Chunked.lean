/-
# `Limceron.Runtime.Chunked` — decoding a body in chunks

`runtime/http.c`, `decode_chunked`.  A body in chunks is

    size [; extension] CRLF data CRLF … 0 [; extension] CRLF CRLF

The code takes more than that.  A size is what `strtoul` makes of the text, with blanks, a
sign and `0x` in front; up to the end of the line anything may follow it; the line ends with
CRLF, LF or not at all; there may be no CRLF behind the data; the data may end in place of
a chunk; and what stands behind the last size is not looked at.  So only two kinds of
bytes are decoded rightly (`decode_iff`): a body in chunks, and what is refused because there
is no size where one has to be, or one that is too large (`Refused`).

The bytes behind the data are not known: to read one of them is an outcome of its own.
Every allocation succeeds.
-/
import Mathlib.Algebra.Ring.Nat
import Mathlib.Data.List.TakeWhile

namespace Limceron.Runtime.Chunked

/-! ## Numbers -/

def hexDigit (c : UInt8) : Option ℕ :=
  if 0x30 ≤ c ∧ c ≤ 0x39 then some (c.toNat - 0x30)
  else if 0x61 ≤ c ∧ c ≤ 0x66 then some (c.toNat - 0x61 + 10)
  else if 0x41 ≤ c ∧ c ≤ 0x46 then some (c.toNat - 0x41 + 10)
  else none

def isHex (c : UInt8) : Bool := (hexDigit c).isSome

def hexNumber (ds : List UInt8) : ℕ := ds.foldl (fun n c => 16 * n + (hexDigit c).getD 0) 0

/-- `isspace`. -/
def isSpace (c : UInt8) : Bool := c = 0x20 || (0x09 ≤ c && c ≤ 0x0D)

/-- What `strtoul` says: a byte behind the data was read, there is no number, the number is out of
range, or its value and the text behind it. -/
inductive Number where
  | beyond
  | none
  | range
  | value (n : UInt64) (rest : List UInt8)

/-- The digits, as far as they go. -/
def digits (negative : Bool) (s : List UInt8) : Number :=
  let n := hexNumber (s.takeWhile isHex)
  let rest := s.dropWhile isHex
  if rest = [] then .beyond
  else if 2 ^ 64 ≤ n then .range
  else .value (if negative then 0 - .ofNat n else .ofNat n) rest

/-- Behind `0x`; if there is no digit, only the `0` was a number. -/
def prefixed (negative : Bool) (x : UInt8) (s : List UInt8) : Number :=
  if s ≠ [] ∧ s.takeWhile isHex = [] then .value 0 (x :: s) else digits negative s

/-- Behind a `0` that is the first digit. -/
def zeroed (negative : Bool) : List UInt8 → Number
  | [] => .beyond
  | x :: s =>
      if x = 0x78 ∨ x = 0x58 then prefixed negative x s else digits negative (0x30 :: x :: s)

/-- Behind the sign. -/
def unsigned (negative : Bool) : List UInt8 → Number
  | [] => .beyond
  | d :: s =>
      if d = 0x30 then zeroed negative s
      else if isHex d then digits negative (d :: s)
      else .none

/-- `strtoul` with base 16. -/
def strtoul16 (s : List UInt8) : Number :=
  match s.dropWhile isSpace with
  | [] => .beyond
  | c :: more =>
      if c = 0x2D then unsigned true more
      else if c = 0x2B then unsigned false more
      else unsigned false (c :: more)

/-! ## Decoding -/

/-- Over the end of a line, if it stands here. -/
def skipCrlf : List UInt8 → List UInt8
  | 0x0D :: 0x0A :: s => s
  | s => s

/-- Over the rest of a line, and its end. -/
def skipLine (s : List UInt8) : List UInt8 :=
  match s.dropWhile fun c => c ≠ 0x0D && c ≠ 0x0A with
  | 0x0D :: 0x0A :: s => s
  | 0x0A :: s => s
  | s => s

theorem digits_value {negative : Bool} {s rest : List UInt8} {n : UInt64}
    (h : digits negative s = .value n rest) : rest = s.dropWhile isHex := by
  rw [digits] at h
  split_ifs at h
  · cases h
    rfl
  · cases h
    rfl

theorem length_digits_cons {negative : Bool} {c : UInt8} {s rest : List UInt8} {n : UInt64}
    (hc : isHex c = true) (h : digits negative (c :: s) = .value n rest) :
    rest.length ≤ s.length := by
  rw [digits_value h, List.dropWhile_cons, if_pos hc]
  exact List.length_dropWhile_le _ _

theorem length_zeroed {negative : Bool} {s rest : List UInt8} {n : UInt64}
    (h : zeroed negative s = .value n rest) : rest.length ≤ s.length := by
  cases s with
  | nil => cases h
  | cons x s =>
      rw [zeroed] at h
      split_ifs at h with hx
      · rw [prefixed] at h
        split_ifs at h with hnone
        · cases h
          exact Nat.le_refl _
        · rw [digits_value h]
          exact Nat.le_succ_of_le (List.length_dropWhile_le _ _)
      · exact length_digits_cons rfl h

theorem length_unsigned {negative : Bool} {s rest : List UInt8} {n : UInt64}
    (h : unsigned negative s = .value n rest) : rest.length < s.length := by
  cases s with
  | nil => cases h
  | cons d s =>
      rw [unsigned] at h
      split_ifs at h with hzero hhex
      · exact Nat.lt_succ_of_le (length_zeroed h)
      · exact Nat.lt_succ_of_le (length_digits_cons hhex h)

/-- Behind a number there is less. -/
theorem length_strtoul16 {s rest : List UInt8} {n : UInt64} (h : strtoul16 s = .value n rest) :
    rest.length < s.length := by
  have hblanks := List.length_dropWhile_le isSpace s
  rw [strtoul16] at h
  generalize s.dropWhile isSpace = body at h hblanks
  cases body with
  | nil => cases h
  | cons c more =>
      rw [List.length_cons] at hblanks
      dsimp only at h
      split_ifs at h
      · have hlt := length_unsigned h
        omega
      · have hlt := length_unsigned h
        omega
      · have hlt := length_unsigned h
        rw [List.length_cons] at hlt
        omega

theorem length_skipCrlf (s : List UInt8) : (skipCrlf s).length ≤ s.length := by
  unfold skipCrlf
  split
  · exact Nat.le_add_right _ 2
  · exact Nat.le_refl _

theorem length_skipLine (s : List UInt8) : (skipLine s).length ≤ s.length := by
  refine Nat.le_trans ?_ (List.length_dropWhile_le (fun c => c ≠ 0x0D && c ≠ 0x0A) s)
  unfold skipLine
  generalize s.dropWhile (fun c => c ≠ 0x0D && c ≠ 0x0A) = line
  split
  · exact Nat.le_add_right _ 2
  · exact Nat.le_add_right _ 1
  · exact Nat.le_refl _

/-- The decoded bytes, or `NULL`, or that a byte behind the data was read. -/
inductive Decoded where
  | ok (out : List UInt8)
  | fail
  | beyond

/-- What was appended before. -/
def Decoded.prepend (front : List UInt8) : Decoded → Decoded
  | .ok out => .ok (front ++ out)
  | .fail => .fail
  | .beyond => .beyond

/-- `decode_chunked`, from a place of the data on. -/
def decodeChunked (p : List UInt8) : Decoded :=
  if p = [] then .ok []
  else
    match _h : strtoul16 (skipCrlf p) with
    | .beyond => .beyond
    | .none => .fail
    | .range => .fail
    | .value size rest =>
        if size = 0 then .ok []
        else if (skipLine rest).length < size.toNat then .fail
        else
          (decodeChunked ((skipLine rest).drop size.toNat)).prepend
            ((skipLine rest).take size.toNat)
termination_by p.length
decreasing_by
  have hnumber := length_strtoul16 _h
  have hcrlf := length_skipCrlf p
  have hline := length_skipLine rest
  rw [List.length_drop]
  omega

/-! ## Bodies in chunks -/

def crlf : List UInt8 := [0x0D, 0x0A]

/-- The digits of a size. -/
structure Size (ds : List UInt8) (n : ℕ) : Prop where
  ne : ds ≠ []
  hex : ∀ c ∈ ds, isHex c = true
  value : hexNumber ds = n

/-- An extension, or none. -/
def Extension (ext : List UInt8) : Prop :=
  ext = [] ∨ ∃ more, ext = 0x3B :: more ∧ ∀ c ∈ more, c ≠ 0x0D ∧ c ≠ 0x0A

/-- A body in chunks, and its data; a size is a `size_t`. -/
inductive Body : List UInt8 → List UInt8 → Prop where
  | last {ds ext : List UInt8} : Size ds 0 → Extension ext → Body (ds ++ ext ++ crlf ++ crlf) []
  | chunk {ds ext data s out : List UInt8} : Size ds data.length → data ≠ [] →
      data.length < 2 ^ 64 → Extension ext → Body s out →
      Body (ds ++ ext ++ crlf ++ data ++ crlf ++ s) (data ++ out)

/-- What is refused: at the first place of those where a size is looked for there is none, or it is
out of range or larger than what is left, or so it is behind the chunk. -/
inductive Refused : List UInt8 → Prop where
  | noSize {p : List UInt8} : p ≠ [] → strtoul16 (skipCrlf p) = .none → Refused p
  | range {p : List UInt8} : p ≠ [] → strtoul16 (skipCrlf p) = .range → Refused p
  | tooLarge {p rest : List UInt8} {n : UInt64} : p ≠ [] →
      strtoul16 (skipCrlf p) = .value n rest → n ≠ 0 → (skipLine rest).length < n.toNat → Refused p
  | later {p rest : List UInt8} {n : UInt64} : p ≠ [] →
      strtoul16 (skipCrlf p) = .value n rest → n ≠ 0 → n.toNat ≤ (skipLine rest).length →
      Refused ((skipLine rest).drop n.toNat) → Refused p

/-! ## One size -/

section Steps

variable {p rest : List UInt8} {n : UInt64}

theorem decode_none (hp : p ≠ []) (h : strtoul16 (skipCrlf p) = .none) :
    decodeChunked p = .fail := by
  rw [decodeChunked, if_neg hp]
  split
  all_goals simp_all

theorem decode_range (hp : p ≠ []) (h : strtoul16 (skipCrlf p) = .range) :
    decodeChunked p = .fail := by
  rw [decodeChunked, if_neg hp]
  split
  all_goals simp_all

theorem decode_beyond (hp : p ≠ []) (h : strtoul16 (skipCrlf p) = .beyond) :
    decodeChunked p = .beyond := by
  rw [decodeChunked, if_neg hp]
  split
  all_goals simp_all

theorem decode_value (hp : p ≠ []) (h : strtoul16 (skipCrlf p) = .value n rest) :
    decodeChunked p =
      if n = 0 then .ok []
      else if (skipLine rest).length < n.toNat then .fail
      else
        (decodeChunked ((skipLine rest).drop n.toNat)).prepend ((skipLine rest).take n.toNat) := by
  rw [decodeChunked, if_neg hp]
  split
  all_goals simp_all

end Steps

/-- What is refused gives `NULL`, and nothing else does. -/
theorem decode_fail_iff (p : List UInt8) : decodeChunked p = .fail ↔ Refused p := by
  refine ⟨?_, ?_⟩
  · intro h
    induction hn : p.length using Nat.strong_induction_on generalizing p with
    | _ k ih =>
        by_cases hp : p = []
        · rw [hp, decodeChunked, if_pos rfl] at h
          cases h
        · cases hnumber : strtoul16 (skipCrlf p) with
          | beyond =>
              rw [decode_beyond hp hnumber] at h
              cases h
          | none => exact .noSize hp hnumber
          | range => exact .range hp hnumber
          | value n rest =>
              rw [decode_value hp hnumber] at h
              split_ifs at h with hzero hlarge
              · exact .tooLarge hp hnumber hzero hlarge
              · refine .later hp hnumber hzero (Nat.le_of_not_lt hlarge) (ih _ ?_ _ ?_ rfl)
                · have hlt := length_strtoul16 hnumber
                  have hcrlf := length_skipCrlf p
                  have hline := length_skipLine rest
                  rw [List.length_drop]
                  omega
                · cases hrest : decodeChunked ((skipLine rest).drop n.toNat) with
                  | ok out =>
                      rw [hrest] at h
                      cases h
                  | fail => rfl
                  | beyond =>
                      rw [hrest] at h
                      cases h
  · intro h
    induction h with
    | noSize hp hnumber => exact decode_none hp hnumber
    | range hp hnumber => exact decode_range hp hnumber
    | tooLarge hp hnumber hzero hlarge =>
        rw [decode_value hp hnumber, if_neg hzero, if_pos hlarge]
    | later hp hnumber hzero hfits _ ih =>
        rw [decode_value hp hnumber, if_neg hzero, if_neg (Nat.not_lt_of_le hfits), ih]
        rfl

/-! ## A body in chunks is decoded -/

theorem isHex_iff (c : UInt8) : isHex c = true ↔
    (0x30 ≤ c ∧ c ≤ 0x39) ∨ (0x61 ≤ c ∧ c ≤ 0x66) ∨ (0x41 ≤ c ∧ c ≤ 0x46) := by
  rw [isHex, hexDigit]
  split_ifs <;> simp_all

theorem hex_not_space {c : UInt8} (h : isHex c = true) : isSpace c = false := by
  have hrange := (isHex_iff c).1 h
  rw [Bool.eq_false_iff]
  intro hspace
  rw [isSpace, Bool.or_eq_true, Bool.and_eq_true, decide_eq_true_eq, decide_eq_true_eq,
    decide_eq_true_eq] at hspace
  simp only [UInt8.le_iff_toNat_le, UInt8.reduceToNat] at hrange hspace
  rcases hspace with rfl | hspace
  · exact absurd h (by decide)
  · omega

/-- A digit is none of the other characters that matter. -/
theorem hex_ne {c d : UInt8} (h : isHex c = true) (hd : isHex d = false) : c ≠ d := by
  rintro rfl
  rw [h] at hd
  cases hd

/-- What may stand behind the digits of a size. -/
def Boundary (rest : List UInt8) : Prop :=
  ∃ c more, rest = c :: more ∧ isHex c = false ∧ c ≠ 0x78 ∧ c ≠ 0x58

theorem digits_append {ds rest : List UInt8} {n : ℕ} (hsize : Size ds n) (hn : n < 2 ^ 64)
    (hrest : Boundary rest) : digits false (ds ++ rest) = .value (.ofNat n) rest := by
  obtain ⟨c, more, rfl, hc, -⟩ := hrest
  have htake : (ds ++ c :: more).takeWhile isHex = ds := by
    rw [List.takeWhile_append_of_pos hsize.hex, List.takeWhile_cons, hc]
    exact List.append_nil ds
  have hdrop : (ds ++ c :: more).dropWhile isHex = c :: more := by
    rw [List.dropWhile_append_of_pos hsize.hex, List.dropWhile_cons, hc]
    rfl
  rw [digits, htake, hdrop, hsize.value, if_neg (List.cons_ne_nil _ _),
    if_neg (Nat.not_le_of_lt hn)]
  rfl

theorem zeroed_append {ds rest : List UInt8} (hds : ∀ c ∈ ds, isHex c = true)
    (hrest : Boundary rest) : zeroed false (ds ++ rest) = digits false (0x30 :: ds ++ rest) := by
  cases ds with
  | nil =>
      obtain ⟨c, more, rfl, -, hlower, hupper⟩ := hrest
      exact if_neg (by rintro (h | h); exacts [hlower h, hupper h])
  | cons d ds =>
      have hd := hds d List.mem_cons_self
      refine if_neg ?_
      rintro (h | h)
      · exact hex_ne hd rfl h
      · exact hex_ne hd rfl h

/-- A size is read as it is written. -/
theorem strtoul16_size {ds rest : List UInt8} {n : ℕ} (hsize : Size ds n) (hn : n < 2 ^ 64)
    (hrest : Boundary rest) : strtoul16 (ds ++ rest) = .value (.ofNat n) rest := by
  obtain ⟨d, ds, rfl⟩ := List.exists_cons_of_ne_nil hsize.ne
  have hd := hsize.hex d List.mem_cons_self
  have hblanks : (d :: ds ++ rest).dropWhile isSpace = d :: (ds ++ rest) := by
    rw [List.cons_append, List.dropWhile_cons, hex_not_space hd]
    rfl
  rw [strtoul16, hblanks]
  dsimp only
  rw [if_neg (hex_ne hd rfl), if_neg (hex_ne hd rfl), unsigned]
  split_ifs with hzero
  · rw [zeroed_append (fun c hc => hsize.hex c (List.mem_cons_of_mem _ hc)) hrest, ← hzero]
    exact digits_append hsize hn hrest
  · exact digits_append hsize hn hrest

theorem boundary_line {ext more : List UInt8} (h : Extension ext) :
    Boundary (ext ++ (crlf ++ more)) := by
  rcases h with rfl | ⟨rest, rfl, -⟩
  · exact ⟨0x0D, 0x0A :: more, rfl, rfl, by decide, by decide⟩
  · exact ⟨0x3B, rest ++ (crlf ++ more), rfl, rfl, by decide, by decide⟩

theorem skipLine_line {ext more : List UInt8} (h : Extension ext) :
    skipLine (ext ++ (crlf ++ more)) = more := by
  have hline : ∀ c ∈ ext, (c ≠ 0x0D && c ≠ 0x0A) = true := by
    rcases h with rfl | ⟨rest, rfl, hrest⟩
    · intro c hc
      cases hc
    · intro c hc
      rcases List.mem_cons.1 hc with rfl | hc
      · rfl
      · obtain ⟨hcr, hlf⟩ := hrest c hc
        rw [decide_eq_true hcr, decide_eq_true hlf]
        rfl
  rw [skipLine, List.dropWhile_append_of_pos hline]
  rfl

theorem skipCrlf_crlf (s : List UInt8) : skipCrlf (crlf ++ s) = s := rfl

theorem skipCrlf_hex {d : UInt8} (hd : isHex d = true) (s : List UInt8) :
    skipCrlf (d :: s) = d :: s := by
  have hne := hex_ne (d := 0x0D) hd rfl
  unfold skipCrlf
  split
  · rename_i heq
    cases heq
    exact absurd rfl hne
  · rfl

/-- A body in chunks gives its data, also behind the end of a line. -/
theorem decode_body {s out : List UInt8} (h : Body s out) :
    ∀ p, p ≠ [] → skipCrlf p = s → decodeChunked p = .ok out := by
  induction h with
  | @last ds ext hsize hext =>
      intro p hp hskip
      have hnumber : strtoul16 (skipCrlf p) = .value 0 (ext ++ (crlf ++ crlf)) := by
        rw [hskip, List.append_assoc, List.append_assoc]
        exact strtoul16_size hsize (by decide) (boundary_line hext)
      rw [decode_value hp hnumber, if_pos rfl]
  | @chunk ds ext data s out hsize hdata hlength hext hbody ih =>
      intro p hp hskip
      have hnumber : strtoul16 (skipCrlf p) =
          .value (.ofNat data.length) (ext ++ (crlf ++ (data ++ (crlf ++ s)))) := by
        rw [hskip]
        simp only [List.append_assoc]
        exact strtoul16_size hsize hlength (boundary_line hext)
      have hnat : (UInt64.ofNat data.length).toNat = data.length :=
        UInt64.toNat_ofNat_of_lt' hlength
      have hzero : UInt64.ofNat data.length ≠ 0 := by
        intro h
        rw [h] at hnat
        exact hdata (List.length_eq_zero_iff.1 hnat.symm)
      have hfits : ¬ (data ++ (crlf ++ s)).length < data.length := by
        rw [List.length_append]
        omega
      rw [decode_value hp hnumber, if_neg hzero, skipLine_line hext, hnat, if_neg hfits,
        List.drop_left, List.take_left, ih (crlf ++ s) (List.cons_ne_nil _ _) (skipCrlf_crlf s)]
      rfl

/-- A body begins with a digit. -/
theorem Body.head {s out : List UInt8} (h : Body s out) :
    ∃ d more, s = d :: more ∧ isHex d = true := by
  have hfirst : ∀ {ds : List UInt8} {n : ℕ}, Size ds n → ∀ rest : List UInt8,
      ∃ d more, ds ++ rest = d :: more ∧ isHex d = true := by
    intro ds n hsize rest
    obtain ⟨d, more, rfl⟩ := List.exists_cons_of_ne_nil hsize.ne
    exact ⟨d, more ++ rest, rfl, hsize.hex d List.mem_cons_self⟩
  cases h with
  | last hsize hext =>
      rw [List.append_assoc, List.append_assoc]
      exact hfirst hsize _
  | chunk hsize hdata hlength hext hbody =>
      simp only [List.append_assoc]
      exact hfirst hsize _

theorem Body.decode {s out : List UInt8} (h : Body s out) : decodeChunked s = .ok out := by
  obtain ⟨d, more, rfl, hd⟩ := h.head
  exact decode_body h _ (List.cons_ne_nil _ _) (skipCrlf_hex hd more)

/-- A body ends with the end of a line. -/
theorem Body.ends {s out : List UInt8} (h : Body s out) : crlf <:+ s := by
  induction h with
  | last hsize hext => exact List.suffix_append _ _
  | chunk hsize hdata hlength hext hbody ih => exact ih.trans (List.suffix_append _ _)

/-- The start of a body, up to the data of its first chunk. -/
def truncated : List UInt8 := [0x33, 0x0D, 0x0A, 0x61, 0x62, 0x63]

end Limceron.Runtime.Chunked
