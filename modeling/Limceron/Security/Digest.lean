/-
# `Limceron.Security.Digest` — what `security_hash_buffer` computes

`sha256_transform` is the compression of FIPS 180-4 (`sha256Transform_eq`), the
tables are the roots of the primes (`sha256K_eq`), and the buffer is the rest
after the last full block (`Buffered.update`).  What is left is the length.
-/
import Limceron.Security.Sha256
import Mathlib.Data.List.Range

namespace Limceron.Security

open Sha2 Blocks

/-! ## The compression -/

theorem sha256K_eq : ∀ t < 64, sha256K.getD t 0 = roundConstant t := by
  decide +kernel

theorem initial_eq : initial =
    ⟨0x6a09e667, 0xbb67ae85, 0x3c6ef372, 0xa54ff53a, 0x510e527f, 0x9b05688c, 0x1f83d9ab,
      0x5be0cd19⟩ := by
  decide +kernel

theorem rotr32_eq {n : Nat} (h : n < 32) (x : Word) : rotr32 x n = rotr n x := by
  rw [rotr32, rotr, BitVec.rotateRight_def, Nat.mod_eq_of_lt h]

theorem loadBytes (a b c d : Byte) :
    a.setWidth 32 <<< 24 ||| b.setWidth 32 <<< 16 ||| c.setWidth 32 <<< 8 ||| d.setWidth 32 =
      a ++ b ++ c ++ d := by
  ext i hi
  simp
  grind

theorem loadWord_eq (block : Vector Byte 64) (i : Nat) :
    loadWord block i = wordAt block.toList (4 * i) := by
  rw [loadWord, loadBytes, wordAt, Nat.mul_comm i 4]

theorem getD_schedule (block : List Byte) {n i : Nat} (h : i < n) :
    ((List.range n).map (schedule block)).getD i 0 = schedule block i := by
  rw [List.getD_eq_getElem _ _ (by simpa using h), List.getElem_map, List.getElem_range]

/-- The words so far are the schedule so far. -/
theorem extendWords_eq (block : List Byte) (k : Nat) :
    (List.range' 16 k).foldl extendWords ((List.range 16).map (schedule block)) =
      (List.range (16 + k)).map (schedule block) := by
  induction k with
  | zero => rfl
  | succ k ih =>
    rw [List.range'_concat, List.foldl_append, ih, ← Nat.add_assoc, List.range_succ,
      List.map_append]
    simp only [Nat.one_mul, List.foldl_cons, List.foldl_nil, extendWords, List.map_cons,
      List.map_nil]
    rw [getD_schedule block (show 16 + k - 15 < 16 + k by omega),
      getD_schedule block (show 16 + k - 2 < 16 + k by omega),
      getD_schedule block (show 16 + k - 16 < 16 + k by omega),
      getD_schedule block (show 16 + k - 7 < 16 + k by omega), schedule_ge (t := 16 + k) (by omega),
      rotr32_eq (by omega), rotr32_eq (by omega), rotr32_eq (by omega), rotr32_eq (by omega)]
    simp only [sigma0, sigma1]
    ac_rfl

theorem sha256Round_eq (block : List Byte) (v : Chain) {t : Nat} (h : t < 64) :
    sha256Round ((List.range 64).map (schedule block)) v t =
      round v (roundConstant t) (schedule block t) := by
  rw [sha256Round, sha256K_eq t h, getD_schedule block h]
  simp only [rotr32_eq (show 6 < 32 by omega), rotr32_eq (show 11 < 32 by omega),
    rotr32_eq (show 25 < 32 by omega), rotr32_eq (show 2 < 32 by omega),
    rotr32_eq (show 13 < 32 by omega), rotr32_eq (show 22 < 32 by omega)]
  rfl

theorem sha256Rounds_eq (block : List Byte) (v : Chain) {n : Nat} (h : n ≤ 64) :
    (List.range n).foldl (sha256Round ((List.range 64).map (schedule block))) v =
      rounds v block n := by
  induction n with
  | zero => rfl
  | succ n ih =>
    rw [List.range_succ (n := n), List.foldl_append, ih (by omega), List.foldl_cons, List.foldl_nil,
      sha256Round_eq block _ (by omega), rounds]

theorem sha256Transform_eq (v : Chain) (block : Vector Byte 64) :
    sha256Transform v block = compress v block.toList := by
  have hload : (List.range 16).map (loadWord block) =
      (List.range 16).map (schedule block.toList) := by
    refine List.map_congr_left ?_
    intro i hi
    rw [loadWord_eq, schedule_lt (List.mem_range.1 hi)]
  rw [sha256Transform, hload, extendWords_eq, sha256Rounds_eq _ _ (Nat.le_refl 64), compress]

/-! ## The buffer -/

/-- The state is that after the full blocks of `xs`, and the buffer has the rest. -/
structure Buffered (ctx : Sha256Ctx) (xs : List Byte) : Prop where
  state : ctx.state = chain compress 64 initial xs
  buffer : ctx.buffer.toList.take ctx.buflen = rest 64 xs

theorem buffered_init (buffer : Vector Byte 64) : Buffered (sha256Init buffer) [] :=
  ⟨initial_eq.symm, rfl⟩

theorem Buffered.buflen {ctx : Sha256Ctx} {xs : List Byte} (h : Buffered ctx xs) :
    ctx.buflen.val = xs.length % 64 := by
  have hlen := congrArg List.length h.buffer
  rw [rest_length, List.length_take, Vector.length_toList] at hlen
  have := ctx.buflen.isLt
  omega

theorem take_set_succ {l : List Byte} {i : Nat} (b : Byte) (h : i < l.length) :
    (l.set i b).take (i + 1) = l.take i ++ [b] := by
  rw [List.take_succ_eq_append_getElem (by simpa using h), List.getElem_set_self,
    List.take_set_of_le (Nat.le_refl i)]

theorem Buffered.putByte {ctx : Sha256Ctx} {xs : List Byte} (b : Byte) (h : Buffered ctx xs) :
    Buffered (putByte ctx b) (xs ++ [b]) := by
  have hset : (ctx.buffer.set ctx.buflen b).toList.take (ctx.buflen + 1) =
      rest 64 xs ++ [b] := by
    rw [Vector.toList_set, take_set_succ b (by simp), h.buffer]
  have hmod := h.buflen
  rw [Security.putByte]
  split
  next hfull =>
    have hpush := push_full compress b (show xs.length % 64 + 1 = 64 by omega) initial
    rw [hfull] at hset
    constructor
    · rw [hpush.1, ← h.state, ← hset, sha256Transform_eq, List.take_of_length_le (by simp)]
    · rw [hpush.2]
      rfl
  next hfull =>
    have hpush := push_short compress b (show xs.length % 64 + 1 < 64 by omega) initial
    constructor
    · rw [hpush.1, ← h.state]
    · rw [hpush.2, ← hset]

theorem Buffered.update {ctx : Sha256Ctx} {xs : List Byte} (data : List Byte)
    (h : Buffered ctx xs) : Buffered (sha256Update ctx data) (xs ++ data) := by
  suffices ∀ (data : List Byte) (ctx : Sha256Ctx) (xs : List Byte), Buffered ctx xs →
      Buffered (data.foldl Security.putByte ctx) (xs ++ data) from this data _ xs ⟨h.state, h.buffer⟩
  intro data
  induction data with
  | nil =>
    intro ctx xs h
    rwa [List.append_nil]
  | cons b data ih =>
    intro ctx xs h
    rw [List.append_cons]
    exact ih _ _ (h.putByte b)

theorem bitcount_update (ctx : Sha256Ctx) (data : List Byte) :
    (sha256Update ctx data).bitcount = ctx.bitcount + BitVec.ofNat 64 (8 * data.length) := by
  suffices ∀ (data : List Byte) (ctx : Sha256Ctx),
      (data.foldl Security.putByte ctx).bitcount = ctx.bitcount by
    rw [sha256Update, this, Nat.mul_comm, BitVec.ofNat_mul]
    rfl
  intro data
  induction data with
  | nil =>
    intro ctx
    rfl
  | cons b data ih =>
    intro ctx
    rw [List.foldl_cons, ih, putByte]
    split <;> rfl

/-- The context after the bytes `xs`, and with their number. -/
structure Fed (ctx : Sha256Ctx) (xs : List Byte) : Prop extends Buffered ctx xs where
  bitcount : ctx.bitcount = BitVec.ofNat 64 (8 * xs.length)

theorem Fed.update {ctx : Sha256Ctx} {xs : List Byte} (data : List Byte) (h : Fed ctx xs) :
    Fed (sha256Update ctx data) (xs ++ data) := by
  refine ⟨h.toBuffered.update data, ?_⟩
  rw [bitcount_update, h.bitcount, ← BitVec.ofNat_add, List.length_append, Nat.mul_add]

/-! ## The padding -/

/-- The loop ends when the length fits, after as many zeros as are missing. -/
theorem padZeros_eq {n : Nat} : ∀ (fuel : Nat) {ctx : Sha256Ctx} {xs : List Byte},
    Fed ctx xs → (xs.length + n) % 64 = 56 → n < 64 → n < fuel →
      ∃ ctx', padZeros fuel ctx = some ctx' ∧ Fed ctx' (xs ++ List.replicate n 0) := by
  induction n with
  | zero =>
    intro fuel ctx xs h hmod _ hfuel
    obtain ⟨fuel, rfl⟩ := Nat.exists_eq_add_one_of_ne_zero (Nat.ne_of_gt hfuel)
    refine ⟨ctx, ?_, by simpa using h⟩
    rw [padZeros, if_pos (by rw [h.buflen]; exact hmod)]
  | succ n ih =>
    intro fuel ctx xs h hmod hlt hfuel
    obtain ⟨fuel, rfl⟩ := Nat.exists_eq_add_one_of_ne_zero (show fuel ≠ 0 by omega)
    have hne : ctx.buflen.val ≠ 56 := by
      rw [h.buflen]
      omega
    have hlen : (xs ++ [(0 : Byte)]).length = xs.length + 1 := by simp
    obtain ⟨ctx', heq, hfed⟩ := ih fuel (h.update [0x00]) (by rw [hlen]; omega) (by omega)
      (by omega)
    refine ⟨ctx', ?_, ?_⟩
    · rw [padZeros, if_neg hne, heq]
    · rwa [List.append_assoc] at hfed

/-- The length bytes, each with the count as it is by then. -/
theorem appendLength_eq {ctx : Sha256Ctx} {xs : List Byte} (h : Fed ctx xs) (k : Nat) :
    Fed ((List.range k).foldl appendLength ctx) (xs ++ (List.range k).map fun i =>
      (BitVec.ofNat 64 (8 * (xs.length + i)) >>> (56 - i * 8)).setWidth 8) := by
  induction k with
  | zero => simpa using h
  | succ k ih =>
    rw [List.range_succ, List.foldl_append, List.map_append, ← List.append_assoc]
    have hlen : ∀ {ys : List Byte}, ys.length = k → (xs ++ ys).length = xs.length + k := by
      intro ys hys
      rw [List.length_append, hys]
    have hnext := ih.update
      [(((List.range k).foldl appendLength ctx).bitcount >>> (56 - k * 8)).setWidth 8]
    rw [ih.bitcount, hlen (by simp)] at hnext
    simpa [appendLength, ih.bitcount] using hnext

/-! ## The digest -/

/-- What was put in is hashed with `writtenLength` at its end; the loops end. -/
theorem Fed.final {ctx : Sha256Ctx} {m : List Byte} (h : Fed ctx m) :
    sha256Final ctx = some (chain compress 64 initial (front m ++ writtenLength m)).bytes := by
  have hdata := h.update [0x80]
  have hzeros : zeros m.length < 64 := Nat.mod_lt _ (by omega)
  obtain ⟨ctx, heq, hpad⟩ := padZeros_eq 64 hdata (n := zeros m.length)
    (by simpa [front, Nat.add_assoc, Nat.add_comm 1] using length_front m) hzeros hzeros
  have hfront : m ++ [(0x80 : Byte)] ++ List.replicate (zeros m.length) 0 = front m := by
    simp [front]
  rw [hfront] at hpad
  have hlast := appendLength_eq hpad 8
  simp only [sha256Final, heq, Option.bind_eq_bind, Option.bind_some, Option.pure_def]
  rw [hlast.state, writtenLength]

theorem fed_init (buffer : Vector Byte 64) : Fed (sha256Init buffer) [] :=
  ⟨buffered_init buffer, rfl⟩

theorem securityHashBuffer_eq (buffer : Vector Byte 64) (m : List Byte) :
    securityHashBuffer buffer m =
      some (chain compress 64 initial (front m ++ writtenLength m)).bytes :=
  ((fed_init buffer).update m).final

theorem sha256_eq (m : List Byte) :
    sha256 m = (chain compress 64 initial
      (front m ++ be64 (BitVec.ofNat 64 (8 * m.length)))).bytes := rfl

/-- Eight bytes after the front fill its last block. -/
theorem chain_front (m : List Byte) {length : List Byte} (h : length.length = 8) :
    chain compress 64 initial (front m ++ length) =
      compress (chain compress 64 initial (front m)) (lastBlock m length) := by
  refine chain_last compress (by omega) ?_ initial
  rw [length_front, h]

theorem length_writtenLength (m : List Byte) : (writtenLength m).length = 8 := rfl

/-- The digest is the right one when the last blocks collide. -/
theorem digest_iff (buffer : Vector Byte 64) (m : List Byte) :
    securityHashBuffer buffer m = some (sha256 m) ↔ LengthCollision m := by
  rw [securityHashBuffer_eq, sha256_eq, Option.some_inj, Chain.bytes_inj,
    chain_front m (length_writtenLength m), chain_front m (length_be64 _), LengthCollision]

theorem length_front_eq (m : List Byte) : (front m).length = m.length + 1 + zeros m.length := by
  simp [front, Nat.add_assoc, Nat.add_comm 1]

/-- The two lowest bytes show it: the count is past the padding when they are written. -/
theorem writtenLength_ne (m : List Byte) :
    writtenLength m ≠ be64 (BitVec.ofNat 64 (8 * m.length)) := by
  intro h
  have h6 := congrArg (fun l => (l.getD 6 0).toNat) h
  have h7 := congrArg (fun l => (l.getD 7 0).toNat) h
  have hmod := length_front m
  have hlen := length_front_eq m
  have hz : zeros m.length < 64 := Nat.mod_lt _ (by omega)
  simp [writtenLength, be64, List.range_succ, Nat.shiftRight_eq_div_pow] at h6 h7
  omega

/-! ## When the digest is the right one -/

/-- The digest of the code is that of FIPS 180-4 at a collision of the compression
function, and nowhere else: the two last blocks always differ. -/
theorem hash_right_iff (buffer : Vector Byte 64) (m : List Byte) :
    (securityHashBuffer buffer m = some (sha256 m) ↔ LengthCollision m) ∧
      lastBlock m (writtenLength m) ≠
        lastBlock m (be64 (BitVec.ofNat 64 (8 * m.length))) := by
  refine ⟨digest_iff buffer m, ?_⟩
  intro h
  exact writtenLength_ne m (List.append_cancel_left h)

/-- The empty message: the length 0 is written as 504. -/
theorem hash_empty_wrong :
    ¬ ∀ (buffer : Vector Byte 64) (m : List Byte),
      securityHashBuffer buffer m = some (sha256 m) := by
  intro h
  have hright := (digest_iff (Vector.replicate 64 0) []).1 (h _ [])
  have hcode := sha256Transform_eq initial ⟨(lastBlock [] (writtenLength [])).toArray, rfl⟩
  have hspec := sha256Transform_eq initial ⟨(lastBlock [] (be64 0)).toArray, rfl⟩
  refine absurd (hcode.trans (Eq.trans hright hspec.symm)) ?_
  rw [initial_eq]
  decide +kernel

end Limceron.Security
