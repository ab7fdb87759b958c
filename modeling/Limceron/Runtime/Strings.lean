/-
# `Limceron.Runtime.Strings` — splitting a string, and replacing in it

`runtime/string_utils.c`.  A string is the list of its bytes.  Both functions look for the
pattern with `strstr`, each time behind the last occurrence; the one that replaces goes
through the string once more, byte by byte, and writes.

| | counts in | goes wrong |
| :-- | :-- | :-- |
| `lcn_str_split` | the size of its buffer, an `int` | from 2^30 occurrences on |
| `lcn_str_replace` | an `int`, and the sizes in `size_t` | where a size passes 2^64 |

An overflow of an `int` leaves nothing that could be said of the result: it is `none`.
Every allocation succeeds.
-/
import Limceron.Lib.Cuts
import Mathlib.Algebra.Ring.Nat

namespace Limceron.Runtime.Strings

open Cuts

/-- `INT_MAX`. -/
def intMax : ℕ := 2 ^ 31 - 1

/-! ## Splitting -/

/-- The buffer is grown, if there is no room for a part and the last one. -/
def growCap (cap count : ℕ) : Option ℕ :=
  if cap - 1 ≤ count then
    if cap * 2 ≤ intMax then some (cap * 2) else none
  else some cap

/-- The same for the last one. -/
def lastCap (cap count : ℕ) : Option ℕ :=
  if cap ≤ count then
    if cap + 1 ≤ intMax then some (cap + 1) else none
  else some cap

/-- The loop of `lcn_str_split`, and the last part. -/
def splitLoop (delim : List UInt8) (hd : delim ≠ []) (cap count : ℕ) (p : List UInt8) :
    Option (List (List UInt8)) :=
  match _h : find delim p with
  | none => (lastCap cap count).map fun _ => [p]
  | some (seg, found) =>
      (growCap cap count).bind fun cap =>
        (splitLoop delim hd cap (count + 1) (found.drop delim.length)).map (seg :: ·)
termination_by p.length
decreasing_by exact (first_of_find _h).length_lt hd

/-- `lcn_str_split`. -/
def lcnStrSplit (src delim : List UInt8) : Option (List (List UInt8)) :=
  if hd : delim = [] then some [src] else splitLoop delim hd 8 0 src

/-! ## Replacing -/

/-- The loop that counts. -/
def countLoop (old : List UInt8) (hd : old ≠ []) (count : ℕ) (p : List UInt8) : Option ℕ :=
  match _h : find old p with
  | none => some count
  | some (_, found) =>
      if count + 1 ≤ intMax then countLoop old hd (count + 1) (found.drop old.length) else none
termination_by p.length
decreasing_by exact (first_of_find _h).length_lt hd

/-- The loop that writes. -/
def replaceLoop (old : List UInt8) (hd : old ≠ []) (new : List UInt8) :
    List UInt8 → List UInt8
  | [] => []
  | c :: p =>
      if old <+: c :: p then new ++ replaceLoop old hd new ((c :: p).drop old.length)
      else c :: replaceLoop old hd new p
termination_by p => p.length
decreasing_by
  · have hpos := List.length_pos_of_ne_nil hd
    rw [List.length_drop, List.length_cons]
    omega
  · exact Nat.lt_succ_self _

/-- How many bytes are asked for, and which are written, the NUL included. -/
structure Result where
  allocated : UInt64
  written : List UInt8

/-- `lcn_str_replace`. -/
def lcnStrReplace (src old new : List UInt8) : Option Result :=
  if hd : old = [] then some ⟨.ofNat src.length + 1, src ++ [0]⟩
  else
    (countLoop old hd 0 src).map fun count =>
      let resultLen : UInt64 :=
        .ofNat src.length + .ofNat count * (.ofNat new.length - .ofNat old.length)
      { allocated := resultLen + 1
        written := replaceLoop old hd new src ++ [0] }

/-! ## The loops -/

section Loops

variable {d : List UInt8} (hd : d ≠ [])

theorem splitLoop_last {s : List UInt8} (h : find d s = none) (cap count : ℕ) :
    splitLoop d hd cap count s = (lastCap cap count).map fun _ => [s] := by
  rw [splitLoop]
  split
  · rfl
  · rename_i hsome
    rw [h] at hsome
    cases hsome

theorem splitLoop_more {s before found : List UInt8} (h : find d s = some (before, found))
    (cap count : ℕ) : splitLoop d hd cap count s = (growCap cap count).bind fun cap =>
      (splitLoop d hd cap (count + 1) (found.drop d.length)).map (before :: ·) := by
  rw [splitLoop]
  split
  · rename_i hnone
    rw [h] at hnone
    cases hnone
  · rename_i hsome
    rw [h] at hsome
    cases hsome
    rfl

/-- The buffer has room for one part more; its size is a power of two. -/
structure Room (cap count : ℕ) : Prop where
  room : count < cap
  power : ∃ j ≤ 30, cap = 2 ^ j

theorem Room.grow {cap count : ℕ} (h : Room cap count) :
    (∃ cap', growCap cap count = some cap' ∧ Room cap' (count + 1)) ∨
      growCap cap count = none ∧ count + 1 = 2 ^ 30 := by
  obtain ⟨hroom, j, hj, rfl⟩ := h
  rw [growCap]
  by_cases hfull : 2 ^ j - 1 ≤ count
  · rw [if_pos hfull]
    rcases Nat.lt_or_eq_of_le hj with hlt | rfl
    · have hle : 2 ^ (j + 1) ≤ 2 ^ 30 := Nat.pow_le_pow_right Nat.two_pos hlt
      rw [Nat.pow_succ] at hle
      rw [if_pos (by rw [intMax]; omega)]
      exact Or.inl ⟨2 ^ j * 2, rfl, by omega, j + 1, hlt, (Nat.pow_succ ..).symm⟩
    · rw [if_neg (by rw [intMax]; omega)]
      exact Or.inr ⟨rfl, by omega⟩
  · rw [if_neg hfull]
    exact Or.inl ⟨2 ^ j, rfl, by omega, j, hj, rfl⟩

theorem Room.count_lt {cap count : ℕ} (h : Room cap count) : count < 2 ^ 30 := by
  obtain ⟨hroom, j, hj, rfl⟩ := h
  exact Nat.lt_of_lt_of_le hroom (Nat.pow_le_pow_right Nat.two_pos hj)

theorem splitLoop_eq (s : List UInt8) {cap count : ℕ} (hroom : Room cap count) :
    splitLoop d hd cap count s =
      if count + occurrences d s < 2 ^ 30 then some (cuts d s) else none := by
  induction s using Cuts.induction hd generalizing cap count with
  | last s h =>
      have hlast : ¬ cap ≤ count := Nat.not_le_of_lt hroom.room
      rw [splitLoop_last hd h, occurrences_last h, Nat.add_zero, cuts_last h,
        if_pos hroom.count_lt, lastCap, if_neg hlast]
      rfl
  | more s before found h ih =>
      rw [splitLoop_more hd h, occurrences_more hd h, cuts_more hd h]
      rcases hroom.grow with ⟨cap', hcap, hroom'⟩ | ⟨hnone, hcount⟩
      · rw [hcap, Option.bind_some, ih hroom', Nat.add_right_comm, Nat.add_assoc]
        split_ifs
        · rfl
        · rfl
      · rw [hnone, if_neg (by omega)]
        rfl

theorem countLoop_last {s : List UInt8} (h : find d s = none) (count : ℕ) :
    countLoop d hd count s = some count := by
  rw [countLoop]
  split
  · rfl
  · rename_i hsome
    rw [h] at hsome
    cases hsome

theorem countLoop_more {s before found : List UInt8} (h : find d s = some (before, found))
    (count : ℕ) : countLoop d hd count s =
      if count + 1 ≤ intMax then countLoop d hd (count + 1) (found.drop d.length) else none := by
  rw [countLoop]
  split
  · rename_i hnone
    rw [h] at hnone
    cases hnone
  · rename_i hsome
    rw [h] at hsome
    cases hsome
    rfl

theorem countLoop_eq (s : List UInt8) {count : ℕ} (h : count + occurrences d s ≤ intMax) :
    countLoop d hd count s = some (count + occurrences d s) := by
  induction s using Cuts.induction hd generalizing count with
  | last s hnone => rw [countLoop_last hd hnone, occurrences_last hnone, Nat.add_zero]
  | more s before found hsome ih =>
      rw [occurrences_more hd hsome] at h ⊢
      rw [countLoop_more hd hsome, if_pos (by omega), ih (by omega)]
      exact congrArg some (by omega)

/-- Where the pattern does not begin, the bytes are copied. -/
theorem replaceLoop_append (new : List UInt8) (before rest : List UInt8)
    (h : ∀ i < before.length, ¬ d <+: (before ++ rest).drop i) :
    replaceLoop d hd new (before ++ rest) = before ++ replaceLoop d hd new rest := by
  induction before with
  | nil => rfl
  | cons c before ih =>
      have hfirst : ¬ d <+: c :: (before ++ rest) := h 0 (Nat.succ_pos _)
      rw [List.cons_append, replaceLoop, if_neg hfirst, ih]
      · rfl
      · intro i hi
        exact h (i + 1) (Nat.succ_lt_succ hi)

theorem replaceLoop_here (new : List UInt8) {found : List UInt8} (h : d <+: found) :
    replaceLoop d hd new found = new ++ replaceLoop d hd new (found.drop d.length) := by
  cases found with
  | nil => exact absurd (List.prefix_nil.1 h) hd
  | cons c p => rw [replaceLoop, if_pos h]

/-- The loop that writes finds the same occurrences. -/
theorem replaceLoop_eq (new s : List UInt8) :
    replaceLoop d hd new s = new.intercalate (cuts d s) := by
  induction s using Cuts.induction hd with
  | last s h =>
      have hcopy := replaceLoop_append hd new s [] fun i _ hprefix => find_eq_none_iff.1 h (by
        rw [List.append_nil] at hprefix
        exact hprefix.isInfix.trans (List.drop_suffix i s).isInfix)
      rw [List.append_nil, replaceLoop, List.append_nil] at hcopy
      rw [hcopy, cuts_last h, List.intercalate_singleton]
  | more s before found h ih =>
      obtain ⟨hsplit, hhere, hbefore⟩ := first_of_find h
      rw [hsplit] at hbefore
      rw [cuts_more hd h, List.intercalate_cons_of_ne_nil (cuts_ne_nil _ _), ← ih, hsplit,
        replaceLoop_append hd new before found hbefore, replaceLoop_here hd new hhere,
        List.append_assoc]

end Loops

/-! ## What is returned -/

theorem split_eq {d : List UInt8} (hd : d ≠ []) (s : List UInt8) :
    lcnStrSplit s d = if occurrences d s < 2 ^ 30 then some (cuts d s) else none := by
  have hroom : Room 8 0 := ⟨by omega, 3, by omega, rfl⟩
  rw [lcnStrSplit, dif_neg hd, splitLoop_eq hd s hroom, Nat.zero_add]

/-- The size that is asked for is the one that is written, up to the size of a `size_t`. -/
theorem replace_eq {d : List UInt8} (hd : d ≠ []) {s : List UInt8} (new : List UInt8)
    (h : occurrences d s ≤ intMax) :
    lcnStrReplace s d new =
      some ⟨.ofNat ((new.intercalate (cuts d s)).length + 1), new.intercalate (cuts d s) ++ [0]⟩ := by
  have hsize := congrArg UInt64.ofNat (length_intercalate_cuts hd new s)
  rw [UInt64.ofNat_add, UInt64.ofNat_add, UInt64.ofNat_mul, UInt64.ofNat_mul] at hsize
  have hwrap : UInt64.ofNat s.length +
      .ofNat (occurrences d s) * (.ofNat new.length - .ofNat d.length) =
        .ofNat (new.intercalate (cuts d s)).length := by
    grind
  rw [lcnStrReplace, dif_neg hd, countLoop_eq hd s (by omega), Nat.zero_add, Option.map_some,
    hwrap, replaceLoop_eq, UInt64.ofNat_add]
  rfl

theorem toNat_ofNat_iff (n : ℕ) : (UInt64.ofNat n).toNat = n ↔ n < 2 ^ 64 := by
  rw [UInt64.toNat_ofNat']
  exact Nat.mod_eq_iff_lt (by omega)

/-- The parts are the string cut at the pattern, and replacing puts the new string between them
in a buffer of the right size; that is so if there are fewer than `2 ^ 30` occurrences and the
result has fewer than `2 ^ 64` bytes. -/
theorem split_replace_iff (s new : List UInt8) {d : List UInt8} (hd : d ≠ []) :
    (∃ parts result, lcnStrSplit s d = some parts ∧ lcnStrReplace s d new = some result ∧
      d.intercalate parts = s ∧ (∀ part ∈ parts, ¬ d <:+: part) ∧
      result.written = new.intercalate parts ++ [0] ∧
      result.allocated.toNat = result.written.length) ↔
    occurrences d s < 2 ^ 30 ∧
      s.length + occurrences d s * new.length + 1 < 2 ^ 64 + occurrences d s * d.length := by
  have hlength := length_intercalate_cuts hd new s
  rw [split_eq hd]
  refine ⟨?_, ?_⟩
  · rintro ⟨parts, result, hsplit, hreplace, -, -, -, hsize⟩
    split_ifs at hsplit with hcount
    have hmax : occurrences d s ≤ intMax := by
      rw [intMax]
      omega
    rw [replace_eq hd new hmax] at hreplace
    cases hreplace
    rw [List.length_append, List.length_singleton, toNat_ofNat_iff] at hsize
    exact ⟨hcount, by omega⟩
  · rintro ⟨hcount, hbytes⟩
    have hmax : occurrences d s ≤ intMax := by
      rw [intMax]
      omega
    refine ⟨_, _, if_pos hcount, replace_eq hd new hmax, intercalate_cuts hd s,
      fun part => not_infix_of_mem_cuts hd, rfl, ?_⟩
    rw [List.length_append, List.length_singleton, toNat_ofNat_iff]
    omega

/-- Between the letters of "a,b". -/
theorem split_replace_letters : ∃ parts result,
    lcnStrSplit [0x61, 0x2C, 0x62] [0x2C] = some parts ∧
    lcnStrReplace [0x61, 0x2C, 0x62] [0x2C] [] = some result ∧
    [0x2C].intercalate parts = [0x61, 0x2C, 0x62] ∧ (∀ part ∈ parts, ¬ [0x2C] <:+: part) ∧
    result.written = [].intercalate parts ++ [0] ∧
    result.allocated.toNat = result.written.length := by
  have hle := occurrences_le (List.cons_ne_nil (0x2C : UInt8) []) [0x61, 0x2C, 0x62]
  rw [List.length_cons, List.length_cons, List.length_singleton] at hle
  refine (split_replace_iff [0x61, 0x2C, 0x62] [] (List.cons_ne_nil 0x2C [])).2 ⟨?_, ?_⟩
  · omega
  · simp only [List.length_cons, List.length_nil]
    omega

/-- The size of the buffer for the parts is no `int` any more. -/
theorem split_overflows : lcnStrSplit (List.replicate (2 ^ 30) 0x2C) [0x2C] = none := by
  rw [split_eq (List.cons_ne_nil _ _), occurrences_replicate]
  exact if_neg (Nat.lt_irrefl _)

end Limceron.Runtime.Strings
