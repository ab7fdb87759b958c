/-
# `Limceron.Lib.Sha2` — SHA-256 as FIPS 180-4 states it

| | |
| :-- | :-- |
| §4.1.2 | the functions on words |
| §4.2.2, §5.3.3 | the constants: fractional parts of the roots of the primes |
| §5.1.1 | the padding |
| §6.2.2 | the schedule, and the compression of one block |

Nothing is tabulated: the constants are computed from the primes.
-/
import Limceron.Lib.Blocks
import Mathlib.Data.Nat.NthRoot.Defs
import Mathlib.Data.List.GetD

namespace Sha2

open Blocks

abbrev Word := BitVec 32

abbrev Byte := BitVec 8

/-! ## Words -/

def rotr (n : Nat) (x : Word) : Word := x.rotateRight n

def ch (x y z : Word) : Word := (x &&& y) ^^^ (~~~x &&& z)

def maj (x y z : Word) : Word := (x &&& y) ^^^ (x &&& z) ^^^ (y &&& z)

def bigSigma0 (x : Word) : Word := rotr 2 x ^^^ rotr 13 x ^^^ rotr 22 x

def bigSigma1 (x : Word) : Word := rotr 6 x ^^^ rotr 11 x ^^^ rotr 25 x

def sigma0 (x : Word) : Word := rotr 7 x ^^^ rotr 18 x ^^^ (x >>> 3)

def sigma1 (x : Word) : Word := rotr 17 x ^^^ rotr 19 x ^^^ (x >>> 10)

/-! ## Constants -/

def isPrime (p : Nat) : Bool := 1 < p && (List.range p).all fun d => d < 2 || p % d != 0

/-- The first 64 primes. -/
def primes : List Nat := (List.range 312).filter isPrime

/-- The first 32 bits of the fractional part of the `k`-th root of `p`. -/
def rootBits (k p : Nat) : Word := BitVec.ofNat 32 (Nat.nthRoot k (p * 2 ^ (32 * k)))

/-- The constant of round `t`: from the cube root of the prime. -/
def roundConstant (t : Nat) : Word := rootBits 3 (primes.getD t 0)

/-! ## Chaining values -/

/-- Eight words: a chaining value, and the working variables of the rounds. -/
structure Chain where
  a : Word
  b : Word
  c : Word
  d : Word
  e : Word
  f : Word
  g : Word
  h : Word
  deriving DecidableEq, Repr

namespace Chain

def words (v : Chain) : List Word := [v.a, v.b, v.c, v.d, v.e, v.f, v.g, v.h]

def add (v w : Chain) : Chain :=
  ⟨v.a + w.a, v.b + w.b, v.c + w.c, v.d + w.d, v.e + w.e, v.f + w.f, v.g + w.g, v.h + w.h⟩

end Chain

/-- The first chaining value: from the square roots of the first eight primes. -/
def initial : Chain :=
  ⟨rootBits 2 2, rootBits 2 3, rootBits 2 5, rootBits 2 7,
   rootBits 2 11, rootBits 2 13, rootBits 2 17, rootBits 2 19⟩

/-! ## One block -/

/-- The big-endian word at byte `i` of a block. -/
def wordAt (block : List Byte) (i : Nat) : Word :=
  block.getD i 0 ++ block.getD (i + 1) 0 ++ block.getD (i + 2) 0 ++ block.getD (i + 3) 0

/-- `W_t`. -/
def schedule (block : List Byte) (t : Nat) : Word :=
  if t < 16 then wordAt block (4 * t)
  else sigma1 (schedule block (t - 2)) + schedule block (t - 7) +
    sigma0 (schedule block (t - 15)) + schedule block (t - 16)

def round (v : Chain) (k w : Word) : Chain :=
  let t1 := v.h + bigSigma1 v.e + ch v.e v.f v.g + k + w
  let t2 := bigSigma0 v.a + maj v.a v.b v.c
  ⟨t1 + t2, v.a, v.b, v.c, v.d + t1, v.e, v.f, v.g⟩

/-- The working variables after `t` rounds. -/
def rounds (v : Chain) (block : List Byte) : Nat → Chain
  | 0 => v
  | t + 1 => round (rounds v block t) (roundConstant t) (schedule block t)

def compress (v : Chain) (block : List Byte) : Chain := v.add (rounds v block 64)

/-! ## Messages -/

/-- The eight bytes of a number below `2 ^ 64`, the highest first. -/
def be64 (n : BitVec 64) : List Byte :=
  (List.range 8).map fun i => (n >>> (56 - 8 * i)).setWidth 8

/-- The zeros that leave room for the length. -/
def zeros (n : Nat) : Nat := (119 - n % 64) % 64

/-- The message with the bit 1 and the zeros after it. -/
def front (m : List Byte) : List Byte := m ++ 0x80#8 :: List.replicate (zeros m.length) 0

def pad (m : List Byte) : List Byte := front m ++ be64 (BitVec.ofNat 64 (8 * m.length))

/-- The bytes of a word, the highest first. -/
def wordBytes (w : Word) : List Byte :=
  [(w >>> 24).setWidth 8, (w >>> 16).setWidth 8, (w >>> 8).setWidth 8, w.setWidth 8]

def Chain.bytes (v : Chain) : List Byte := v.words.flatMap wordBytes

def sha256 (m : List Byte) : List Byte := (chain compress 64 initial (pad m)).bytes

/-! ## What the definitions say -/

theorem schedule_lt {block : List Byte} {t : Nat} (h : t < 16) :
    schedule block t = wordAt block (4 * t) := by
  rw [schedule, if_pos h]

theorem schedule_ge {block : List Byte} {t : Nat} (h : 16 ≤ t) :
    schedule block t = sigma1 (schedule block (t - 2)) + schedule block (t - 7) +
      sigma0 (schedule block (t - 15)) + schedule block (t - 16) := by
  rw [schedule, if_neg (by omega)]

theorem length_be64 (n : BitVec 64) : (be64 n).length = 8 := rfl

theorem length_front (m : List Byte) : (front m).length % 64 = 56 := by
  rw [front, List.length_append, List.length_cons, List.length_replicate, zeros]
  omega

/-- The bytes of a word determine it. -/
theorem wordBytes_inj {x y : Word} (h : wordBytes x = wordBytes y) : x = y := by
  have hx := x.isLt
  have hy := y.isLt
  simp only [wordBytes, List.cons.injEq, and_true] at h
  rw [← BitVec.toNat_inj] at *
  simp only [← BitVec.toNat_inj, BitVec.toNat_setWidth, BitVec.toNat_ushiftRight,
    Nat.shiftRight_eq_div_pow] at h
  omega

theorem flatMap_wordBytes_inj {xs ys : List Word} (hl : xs.length = ys.length)
    (h : xs.flatMap wordBytes = ys.flatMap wordBytes) : xs = ys := by
  induction xs generalizing ys with
  | nil => exact (List.length_eq_zero_iff.1 hl.symm).symm
  | cons x xs ih =>
    cases ys with
    | nil => cases hl
    | cons y ys =>
      rw [List.flatMap_cons, List.flatMap_cons] at h
      obtain ⟨hx, hxs⟩ := List.append_inj h rfl
      rw [wordBytes_inj hx, ih (Nat.succ.inj hl) hxs]

/-- Two chaining values with the same bytes are the same. -/
theorem Chain.bytes_inj {v w : Chain} : v.bytes = w.bytes ↔ v = w := by
  constructor
  · intro h
    have hw : v.words = w.words := flatMap_wordBytes_inj rfl h
    cases v
    cases w
    simpa [Chain.words] using hw
  · intro h
    rw [h]

end Sha2
