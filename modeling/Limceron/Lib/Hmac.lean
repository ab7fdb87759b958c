/-
# `Limceron.Lib.Hmac` — HMAC as RFC 2104 states it

Over any hash function and the length `B` of its blocks:

    H(K ⊕ opad, H(K ⊕ ipad, text))

where a key that is longer than a block is hashed first, and zeros fill the block.
-/
import Mathlib.Data.List.Basic
import Mathlib.Data.Nat.Notation

namespace Hmac

variable (H : List (BitVec 8) → List (BitVec 8)) (B : ℕ)

/-- A key, hashed if it is longer than a block. -/
def shortKey (key : List (BitVec 8)) : List (BitVec 8) := if B < key.length then H key else key

/-- The key that fills a block. -/
def blockKey (key : List (BitVec 8)) : List (BitVec 8) :=
  shortKey H B key ++ List.replicate (B - (shortKey H B key).length) 0

/-- The block that is put in front of a text. -/
def padded (pad : BitVec 8) (key : List (BitVec 8)) : List (BitVec 8) := (blockKey H B key).map (· ^^^ pad)

def hmac (key text : List (BitVec 8)) : List (BitVec 8) :=
  H (padded H B 0x5c key ++ H (padded H B 0x36 key ++ text))

variable {H B}

/-- A key that fits into a block. -/
theorem padded_eq {key : List (BitVec 8)} (h : key.length ≤ B) (pad : BitVec 8) :
    padded H B pad key = key.map (· ^^^ pad) ++ List.replicate (B - key.length) pad := by
  have hshort : shortKey H B key = key := if_neg (Nat.not_lt.2 h)
  have hzero : (0 : BitVec 8) ^^^ pad = pad := BitVec.zero_xor
  rw [padded, blockKey, hshort, List.map_append, List.map_replicate, hzero]

end Hmac
