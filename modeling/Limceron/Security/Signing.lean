/-
# `Limceron.Security.Signing` — the signature of an object file

`security.c`.  The hash of the content is put into the header, and the signature is the HMAC
of that hash, with a second hash behind it.  So the signature binds the content and the hash:

| field of the header | |
| :-- | :-- |
| `magic`, `version` | have to be right |
| `content_hash`, `signature` | have to be those of a signed file |
| `flags`, `section_count`, offsets, sizes | may be anything (`verify_fields`) |

What a hash function promises is assumed of the files at hand: no two of them have the same
hash, and there is no MAC of a hash that has not been signed.
-/
import Limceron.Lib.Hmac
import Limceron.Security.Digest
import Mathlib.Data.Set.Defs

namespace Limceron.Security

open Sha2 Blocks Hmac

/-! ## The source -/

structure LceronObjHeader where
  magic : BitVec 32
  version : BitVec 32
  flags : BitVec 32
  sectionCount : BitVec 32
  codeOffset : BitVec 64
  codeSize : BitVec 64
  dataOffset : BitVec 64
  dataSize : BitVec 64
  symtabOffset : BitVec 64
  symtabSize : BitVec 64
  relocOffset : BitVec 64
  relocSize : BitVec 64
  debugOffset : BitVec 64
  debugSize : BitVec 64
  contentHash : List Byte
  signature : List Byte
  deriving DecidableEq

def lcnMagic : BitVec 32 := 0x4C494D43

def lceronObjVersion : BitVec 32 := 1

/-- `HASH_SIZE`. -/
def hashSize : ℕ := 32

abbrev Key := Vector Byte hashSize

/-- The loop over the key, at `i`. -/
def xorKey (key : Key) (pad : List Byte) (i : ℕ) : List Byte :=
  pad.set i (pad.getD i 0 ^^^ key.toList.getD i 0)

/-- `memset`, and then the loop: `ipad` and `opad`. -/
def keyPad (pad : Byte) (key : Key) : List Byte :=
  (List.range hashSize).foldl (xorKey key) (List.replicate 64 pad)

/-- A context that is set up, fed with two parts, and finished. -/
def hashParts (buffer : Vector Byte 64) (first second : List Byte) : Option (List Byte) :=
  sha256Final (sha256Update (sha256Update (sha256Init buffer) first) second)

/-- The signature of a hash, as both functions compute it; `buffers` is what the contexts have
before they are set up. -/
def computeSignature (buffers : ℕ → Vector Byte 64) (key : Key) (contentHash : List Byte) :
    Option (List Byte) := do
  let innerHash ← hashParts (buffers 0) (keyPad 0x36 key) contentHash
  let mac ← hashParts (buffers 1) (keyPad 0x5c key) innerHash
  let second ← hashParts (buffers 2) mac contentHash
  return mac ++ second

def securitySignLceron (buffers : ℕ → Vector Byte 64) (header : LceronObjHeader)
    (data : List Byte) (privateKey : Key) : Option LceronObjHeader := do
  let contentHash ← securityHashBuffer (buffers 3) data
  let signature ← computeSignature buffers privateKey contentHash
  return { header with contentHash := contentHash, signature := signature }

def securityVerifyLceron (buffers : ℕ → Vector Byte 64) (header : LceronObjHeader)
    (data : List Byte) (publicKey : Key) : Option Bool :=
  if header.magic ≠ lcnMagic then some false
  else if header.version ≠ lceronObjVersion then some false
  else do
    let computedHash ← securityHashBuffer (buffers 3) data
    if computedHash ≠ header.contentHash then return false
    let expectedSig ← computeSignature buffers publicKey header.contentHash
    return expectedSig = header.signature

/-! ## What is computed -/

/-- What `security_hash_buffer` computes. -/
def digest (m : List Byte) : List Byte :=
  (chain compress 64 initial (front m ++ writtenLength m)).bytes

/-- The MAC of a hash, and a second hash. -/
def signatureOf (key : Key) (contentHash : List Byte) : List Byte :=
  hmac digest 64 key.toList contentHash ++
    digest (hmac digest 64 key.toList contentHash ++ contentHash)

theorem hashParts_eq (buffer : Vector Byte 64) (first second : List Byte) :
    hashParts buffer first second = some (digest (first ++ second)) :=
  (((fed_init buffer).update first).update second).final

theorem xorKey_append (key : Key) (pad : Byte) {done : List Byte} {k : ℕ}
    (hdone : done.length = k) (hk : k < hashSize) (rest : List Byte) :
    xorKey key (done ++ pad :: rest) k = done ++ (key.toList.getD k 0 ^^^ pad) :: rest := by
  subst hdone
  rw [xorKey, List.getD_append_right _ _ _ _ (Nat.le_refl _), Nat.sub_self, List.getD_cons_zero,
    List.set_append_right _ _ (Nat.le_refl _), Nat.sub_self, List.set_cons_zero, BitVec.xor_comm]

/-- After `k` turns of the loop. -/
theorem foldl_xorKey (pad : Byte) (key : Key) {k : ℕ} (h : k ≤ hashSize) :
    (List.range k).foldl (xorKey key) (List.replicate 64 pad) =
      (key.toList.take k).map (· ^^^ pad) ++ List.replicate (64 - k) pad := by
  induction k with
  | zero => rfl
  | succ k ih =>
    have hk : k < key.toList.length := by
      rw [Vector.length_toList]
      exact h
    have hlength : ((key.toList.take k).map (· ^^^ pad)).length = k := by
      rw [List.length_map, List.length_take, Nat.min_eq_left (Nat.le_of_lt hk)]
    have hrest : List.replicate (64 - k) pad = pad :: List.replicate (64 - (k + 1)) pad := by
      rw [← List.replicate_succ]
      congr 1
      have hsize : hashSize = 32 := rfl
      omega
    rw [List.range_succ, List.foldl_append, ih (Nat.le_of_succ_le h), List.foldl_cons,
      List.foldl_nil, hrest, xorKey_append key pad hlength h, List.take_succ_eq_append_getElem hk,
      List.map_append, List.append_assoc, List.getD_eq_getElem _ _ hk]
    rfl

theorem keyPad_eq (pad : Byte) (key : Key) : keyPad pad key = padded digest 64 pad key.toList := by
  have hlength : key.toList.length = hashSize := Vector.length_toList
  have hle : key.toList.length ≤ 64 := by
    rw [hlength]
    decide
  rw [keyPad, foldl_xorKey pad key (Nat.le_refl _), padded_eq hle, hlength,
    List.take_of_length_le (Nat.le_of_eq hlength)]

theorem computeSignature_eq (buffers : ℕ → Vector Byte 64) (key : Key) (contentHash : List Byte) :
    computeSignature buffers key contentHash = some (signatureOf key contentHash) := by
  simp only [computeSignature, hashParts_eq, keyPad_eq, Option.bind_eq_bind, Option.bind_some,
    Option.pure_def]
  rfl

/-- A header with the hash of the content, and its signature. -/
def signed (header : LceronObjHeader) (data : List Byte) (key : Key) : LceronObjHeader :=
  { header with contentHash := digest data, signature := signatureOf key (digest data) }

theorem sign_eq (buffers : ℕ → Vector Byte 64) (header : LceronObjHeader) (data : List Byte)
    (key : Key) : securitySignLceron buffers header data key = some (signed header data key) := by
  simp only [securitySignLceron, securityHashBuffer_eq, computeSignature_eq, Option.bind_eq_bind,
    Option.bind_some, Option.pure_def]
  rfl

/-- What is accepted: the constants, the hash of the content, and its signature. -/
structure Accepted (header : LceronObjHeader) (data : List Byte) (key : Key) : Prop where
  magic : header.magic = lcnMagic
  version : header.version = lceronObjVersion
  hash : header.contentHash = digest data
  signature : header.signature = signatureOf key header.contentHash

theorem verify_iff (buffers : ℕ → Vector Byte 64) (header : LceronObjHeader) (data : List Byte)
    (key : Key) : securityVerifyLceron buffers header data key = some true ↔
      Accepted header data key := by
  have hhash : securityHashBuffer (buffers 3) data = some (digest data) :=
    securityHashBuffer_eq (buffers 3) data
  rw [securityVerifyLceron, hhash, computeSignature_eq]
  simp only [Option.bind_eq_bind, Option.bind_some, Option.pure_def, ne_eq, ite_not]
  constructor
  · intro h
    split at h
    · next hmagic =>
      split at h
      · next hversion =>
        split at h
        · next hdigest => exact ⟨hmagic, hversion, hdigest.symm,
            (of_decide_eq_true (Option.some.inj h)).symm⟩
        · cases h
      · cases h
    · cases h
  · intro h
    rw [if_pos h.magic, if_pos h.version, if_pos h.hash.symm]
    exact congrArg some (decide_eq_true h.signature.symm)

/-! ## What the signature binds -/

/-- The four fields that are looked at. -/
structure SameSeal (header header' : LceronObjHeader) : Prop where
  magic : header'.magic = header.magic
  version : header'.version = header.version
  hash : header'.contentHash = header.contentHash
  signature : header'.signature = header.signature

/-- All the other fields may be anything. -/
theorem verify_fields (buffers : ℕ → Vector Byte 64) {header header' : LceronObjHeader}
    (h : SameSeal header header') (data : List Byte) (key : Key) :
    securityVerifyLceron buffers header' data key =
      securityVerifyLceron buffers header data key := by
  rw [securityVerifyLceron, securityVerifyLceron, h.magic, h.version, h.hash, h.signature]

/-- A header that was right before is accepted when it is signed. -/
theorem verify_sign (buffers : ℕ → Vector Byte 64) {header : LceronObjHeader}
    (hmagic : header.magic = lcnMagic) (hversion : header.version = lceronObjVersion)
    (data : List Byte) (key : Key) :
    securityVerifyLceron buffers (signed header data key) data key = some true :=
  (verify_iff buffers _ data key).2 ⟨hmagic, hversion, rfl, rfl⟩

theorem length_digest (m : List Byte) : (digest m).length = hashSize := rfl

/-- The first half of a signature is the MAC. -/
theorem take_signatureOf (key : Key) (contentHash : List Byte) :
    (signatureOf key contentHash).take hashSize = hmac digest 64 key.toList contentHash :=
  List.take_left' (length_digest _)

/-- Headers and contents. -/
abbrev Files := Set (LceronObjHeader × List Byte)

/-- Files that were signed with this key. -/
def Signed (buffers : ℕ → Vector Byte 64) (key : Key) (files : Files) : Prop :=
  ∀ p ∈ files, ∃ header, securitySignLceron buffers header p.2 key = some p.1

/-- What the hash and the MAC promise of the files that were signed and those that are
presented: no collision, and no MAC of a hash that was not signed. -/
structure Unbroken (key : Key) (files presented : Files) : Prop where
  noCollision : ∀ p ∈ files, ∀ q ∈ presented, digest q.2 = digest p.2 → q.2 = p.2
  noForgery : ∀ q ∈ presented,
    q.1.signature.take hashSize = hmac digest 64 key.toList q.1.contentHash →
      ∃ p ∈ files, p.1.contentHash = q.1.contentHash

/-- An accepted file has the content of a signed one, its hash and its signature. -/
theorem sealed_of_accepted {buffers : ℕ → Vector Byte 64} {key : Key} {files presented : Files}
    (hsigned : Signed buffers key files) (h : Unbroken key files presented)
    {q : LceronObjHeader × List Byte} (hq : q ∈ presented) (haccepted : Accepted q.1 q.2 key) :
    ∃ p ∈ files, q.2 = p.2 ∧ q.1.contentHash = p.1.contentHash ∧ q.1.signature = p.1.signature := by
  have hmac := take_signatureOf key q.1.contentHash
  rw [← haccepted.signature] at hmac
  obtain ⟨p, hp, hhash⟩ := h.noForgery q hq hmac
  obtain ⟨header, hheader⟩ := hsigned p hp
  rw [sign_eq, Option.some.injEq] at hheader
  have hdigest : p.1.contentHash = digest p.2 := by rw [← hheader, signed]
  have hsignature : p.1.signature = signatureOf key p.1.contentHash := by rw [← hheader, signed]
  refine ⟨p, hp, h.noCollision p hp q hq ?_, hhash.symm, ?_⟩
  · rw [← haccepted.hash, ← hhash, hdigest]
  · rw [haccepted.signature, hsignature, hhash]

/-- The signature binds the content and the hash: what is accepted was signed, but for the fields
that are not looked at; and it is an HMAC. -/
theorem signature_binds (buffers : ℕ → Vector Byte 64) (key : Key) (files presented : Files)
    (hsigned : Signed buffers key files) (h : Unbroken key files presented) :
    (∀ header data, header.magic = lcnMagic → header.version = lceronObjVersion →
      ∃ header', securitySignLceron buffers header data key = some header' ∧
        securityVerifyLceron buffers header' data key = some true) ∧
      (∀ q ∈ presented, securityVerifyLceron buffers q.1 q.2 key = some true →
        q.1.magic = lcnMagic ∧ q.1.version = lceronObjVersion ∧
          ∃ p ∈ files, q.2 = p.2 ∧ q.1.contentHash = p.1.contentHash ∧
            q.1.signature = p.1.signature) ∧
      ∀ contentHash, computeSignature buffers key contentHash =
        some (hmac digest 64 key.toList contentHash ++
          digest (hmac digest 64 key.toList contentHash ++ contentHash)) := by
  refine ⟨fun header data hmagic hversion => ?_, fun q hq hverify => ?_, computeSignature_eq _ _⟩
  · exact ⟨_, sign_eq buffers header data key, verify_sign buffers hmagic hversion data key⟩
  · have haccepted := (verify_iff buffers q.1 q.2 key).1 hverify
    exact ⟨haccepted.magic, haccepted.version, sealed_of_accepted hsigned h hq haccepted⟩

/-- A header of which nothing but the constants is set. -/
def blankHeader (magic : BitVec 32) : LceronObjHeader :=
  ⟨magic, lceronObjVersion, 0, 0, 0, 0, 0, 0, 0, 0, 0, 0, 0, 0, [], []⟩

def zeroBuffers : ℕ → Vector Byte 64 := fun _ => Vector.replicate 64 0

def zeroKey : Key := Vector.replicate hashSize 0

/-- An empty content, signed. -/
def blankSigned : LceronObjHeader := signed (blankHeader lcnMagic) [] zeroKey

theorem signed_blank : Signed zeroBuffers zeroKey {(blankSigned, [])} := by
  intro p hp
  rw [Set.mem_singleton_iff.1 hp]
  exact ⟨blankHeader lcnMagic, sign_eq _ _ _ _⟩

/-- Other flags break neither the hash nor the MAC. -/
theorem unbroken_blank (flags : BitVec 32) :
    Unbroken zeroKey {(blankSigned, [])} {({ blankSigned with flags := flags }, [])} where
  noCollision p hp q hq _ := by
    rw [Set.mem_singleton_iff.1 hp, Set.mem_singleton_iff.1 hq]
  noForgery q hq _ := by
    rw [Set.mem_singleton_iff.1 hq]
    exact ⟨_, rfl, rfl⟩

theorem verify_blank (flags : BitVec 32) :
    securityVerifyLceron zeroBuffers { blankSigned with flags := flags } [] zeroKey = some true :=
  (verify_fields zeroBuffers ⟨rfl, rfl, rfl, rfl⟩ [] zeroKey).trans
    (verify_sign zeroBuffers (rfl : (blankHeader lcnMagic).magic = lcnMagic) rfl [] zeroKey)

theorem signature_binds_blank : ∃ p ∈ ({(blankSigned, [])} : Files),
    [] = p.2 ∧ blankSigned.contentHash = p.1.contentHash ∧ blankSigned.signature = p.1.signature :=
  ((signature_binds zeroBuffers zeroKey _ _ signed_blank (unbroken_blank 1)).2.1 _ rfl
    (verify_blank 1)).2.2

/-- With other flags a signed file is accepted still, and with another magic number it is not
accepted when it has been signed. -/
theorem not_binds_header :
    (¬ ∀ (buffers : ℕ → Vector Byte 64) (key : Key) (files presented : Files),
      Signed buffers key files → Unbroken key files presented →
        ∀ q ∈ presented, securityVerifyLceron buffers q.1 q.2 key = some true → q ∈ files) ∧
      ¬ ∀ (buffers : ℕ → Vector Byte 64) (header header' : LceronObjHeader) (data : List Byte)
        (key : Key), securitySignLceron buffers header data key = some header' →
          securityVerifyLceron buffers header' data key = some true := by
  constructor
  · intro h
    have hmem := h zeroBuffers zeroKey _ _ signed_blank (unbroken_blank 1) _ rfl (verify_blank 1)
    have hflags := congrArg (fun p => p.1.flags) (Set.mem_singleton_iff.1 hmem)
    exact absurd hflags (by decide)
  · intro h
    have hverify := h zeroBuffers (blankHeader 0) _ [] zeroKey (sign_eq _ _ _ _)
    exact absurd ((verify_iff _ _ _ _).1 hverify).magic (by decide)

end Limceron.Security
