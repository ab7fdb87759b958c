/-
# `Limceron.Wasm.Layout` — the static memory of an emitted module

Three areas share one page of linear memory, each laid out by its own formula:

| area | from | limit in the code |
| :-- | --: | :-- |
| interned strings: length, bytes, padding to 8 | 1024 | 512 entries |
| host-call scratch, 1088 bytes a name | 8192 | 64 names |
| heap | behind both, rounded up to 16 | none |

No area looks at the size of the others, and none at the size of the page.
`layoutSound_iff` says for which modules this goes well.
-/
import Limceron.IR.Syntax
import Limceron.Lib.Regions
import Mathlib

namespace Limceron.Wasm

/-! ## Constants -/

def dataBase : Nat := 1024
def maxStrings : Nat := 512
def hostScratchBase : Nat := 8192
def hostScratchStride : Nat := 1088
def hostOutbufMax : Nat := 1024
def maxHostCalls : Nat := 64
/-- One 64 KiB page. -/
def memorySize : Nat := 65536

/-- `(n + (a - 1)) & ~(a - 1)`, for the powers of two it is used with. -/
def alignUp (n a : Nat) : Nat := (n + (a - 1)) / a * a

/-! ## The tables -/

abbrev Bytes := List UInt8

/-- The bytes of a C string, up to the terminator. -/
def utf8 (s : String) : Bytes := (s.toList.flatMap String.utf8EncodeChar).takeWhile (· != 0)

structure WasmString where
  value : Bytes
  offset : Nat
  length : Nat
  deriving DecidableEq, Repr

structure HostCallSite where
  qualified : String
  ns : String
  fn : String
  scratchOff : Nat
  deriving DecidableEq, Repr

/-- The part of `EmitCtx` that the layout reads and writes. -/
structure EmitCtx where
  strings : List WasmString := []
  dataOffset : Nat := dataBase
  hostCalls : List HostCallSite := []
  deriving DecidableEq, Repr

/-- `intern_string`: the offset of the bytes. -/
def internString (ctx : EmitCtx) (s : Bytes) : EmitCtx × Nat :=
  match ctx.strings.find? (fun t => t.length == s.length && t.value == s) with
  | some t => (ctx, t.offset)
  | none =>
      if maxStrings ≤ ctx.strings.length then (ctx, dataBase)
      else
        let prefixOff := ctx.dataOffset
        let bytesOff := prefixOff + 4
        let nextOff := bytesOff + s.length
        ({ ctx with
            strings := ctx.strings ++ [{ value := s, offset := bytesOff, length := s.length }]
            dataOffset := alignUp nextOff 8 }, bytesOff)

/-- `host_call_register`: the index of the site, or `-1`. -/
def hostCallRegister (ctx : EmitCtx) (qualified : String) : EmitCtx × Int :=
  match ctx.hostCalls.findIdx? (fun s => s.qualified == qualified) with
  | some i => (ctx, i)
  | none =>
      if maxHostCalls ≤ ctx.hostCalls.length then (ctx, -1)
      else if '.' ∉ qualified.toList then (ctx, -1)
      else
        let idx := ctx.hostCalls.length
        let site : HostCallSite :=
          { qualified
            ns := String.ofList (qualified.toList.takeWhile (· != '.'))
            fn := String.ofList ((qualified.toList.dropWhile (· != '.')).tail)
            scratchOff := hostScratchBase + idx * hostScratchStride }
        ({ ctx with hostCalls := ctx.hostCalls ++ [site] }, idx)

/-! ## The pre-passes -/

/-- The string constants of a module in textual order. -/
def constStrings (m : IrModule) : List Bytes :=
  (m.functions.flatMap (·.insts)).filterMap (fun inst =>
    if inst.op = .constString then some (utf8 (inst.immStr.getD "")) else none)

/-- The names of its host calls in textual order. -/
def hostCallNames (m : IrModule) : List String :=
  (m.functions.flatMap (·.insts)).filterMap (fun inst =>
    if inst.op = .hostCall then inst.fnName else none)

def preinternStrings (m : IrModule) (ctx : EmitCtx) : EmitCtx :=
  (constStrings m).foldl (fun ctx s => (internString ctx s).1) ctx

def preregisterHostCalls (m : IrModule) (ctx : EmitCtx) : EmitCtx :=
  (hostCallNames m).foldl (fun ctx q => (hostCallRegister ctx q).1) ctx

/-- The tables as `lcn_emit_wasm` has them when it emits the module. -/
def emitCtx (m : IrModule) : EmitCtx := preregisterHostCalls m (preinternStrings m {})

/-! ## What is emitted -/

/-- `emit_data_u32_le`. -/
def u32le (v : Nat) : Bytes :=
  [UInt8.ofNat v, UInt8.ofNat (v / 2 ^ 8), UInt8.ofNat (v / 2 ^ 16), UInt8.ofNat (v / 2 ^ 24)]

/-- The loop of `emit_data_segment` from `cursor` on. -/
def dataBytes : Nat → List WasmString → Bytes
  | _, [] => []
  | cursor, s :: rest =>
      let prefixOff := s.offset - 4
      List.replicate (prefixOff - cursor) 0 ++ u32le s.length ++ s.value ++
        dataBytes (s.offset + s.length) rest

/-- `emit_data_segment`: the bytes from `dataBase` on. -/
def dataSegment (ctx : EmitCtx) : Bytes :=
  dataBytes dataBase (ctx.strings.insertionSort (fun s t => s.offset ≤ t.offset))

/-- Linear memory before the first call. -/
def initialMemory (ctx : EmitCtx) (a : Nat) : UInt8 :=
  if a < dataBase then 0 else (dataSegment ctx).getD (a - dataBase) 0

/-- The pointer pushed for a string constant. -/
def stringPointer (ctx : EmitCtx) (s : Bytes) : Nat := (internString ctx s).2

/-- The initial value of `$bump_ptr`. -/
def bumpInit (ctx : EmitCtx) : Nat :=
  let bump := if 0 < ctx.dataOffset then ctx.dataOffset else dataBase
  let scratchEnd := hostScratchBase + ctx.hostCalls.length * hostScratchStride
  alignUp (if 0 < ctx.hostCalls.length ∧ bump < scratchEnd then scratchEnd else bump) 16

/-! ## What the layout should be -/

/-- A string with its length prefix. -/
def WasmString.region (s : WasmString) : Region := ⟨s.offset - 4, s.offset + s.length⟩

/-- The out-buffer, the confidence and the status of a host call. -/
def HostCallSite.region (s : HostCallSite) : Region :=
  ⟨s.scratchOff, s.scratchOff + hostOutbufMax + 8 + 8⟩

def regions (ctx : EmitCtx) : List Region :=
  ctx.strings.map WasmString.region ++ ctx.hostCalls.map HostCallSite.region

/-- At `p` stand the bytes of `s`, and its length in the four bytes before. -/
def StringAt (mem : Nat → UInt8) (p : Nat) (s : Bytes) : Prop :=
  4 ≤ p ∧
  (mem (p - 4)).toNat + (mem (p - 3)).toNat * 2 ^ 8 + (mem (p - 2)).toNat * 2 ^ 16 +
    (mem (p - 1)).toNat * 2 ^ 24 = s.length ∧
  ∀ k (h : k < s.length), mem (p + k) = s[k]

/-- The layout of a module is sound. -/
structure LayoutSound (m : IrModule) : Prop where
  disjoint : (regions (emitCtx m)).Pairwise Region.Disjoint
  heap : ∀ r ∈ regions (emitCtx m), r.stop ≤ bumpInit (emitCtx m)
  inMemory : ∀ r ∈ regions (emitCtx m), r.stop ≤ memorySize
  heapInMemory : bumpInit (emitCtx m) < memorySize
  pointers : ∀ s ∈ constStrings m,
    StringAt (initialMemory (emitCtx m)) (stringPointer (emitCtx m) s) s

/-! ## Distinct entries -/

section
variable {α : Type*} [DecidableEq α]

/-- The entries of a list, each where it first occurs. -/
def distinct (xs : List α) : List α :=
  xs.foldl (fun D x => if x ∈ D then D else D ++ [x]) []

theorem distinct_append (xs : List α) (x : α) :
    distinct (xs ++ [x]) = if x ∈ distinct xs then distinct xs else distinct xs ++ [x] := by
  rw [distinct, List.foldl_append]
  rfl

theorem mem_distinct {xs : List α} {x : α} : x ∈ distinct xs ↔ x ∈ xs := by
  induction xs using List.reverseRecOn with
  | nil => simp [distinct]
  | append_singleton xs y ih =>
      rw [distinct_append]
      split
      · rename_i hy
        rw [ih, List.mem_append, List.mem_singleton]
        refine ⟨.inl, ?_⟩
        rintro (h | rfl)
        · exact h
        · exact ih.mp hy
      · simp [ih]

theorem nodup_distinct (xs : List α) : (distinct xs).Nodup := by
  induction xs using List.reverseRecOn with
  | nil => simp [distinct]
  | append_singleton xs y ih =>
      rw [distinct_append]
      split
      · exact ih
      · rename_i hy
        exact List.nodup_append.mpr ⟨ih, List.nodup_singleton y, by
          rintro a ha b hb rfl
          exact hy (List.mem_singleton.mp hb ▸ ha)⟩

/-- A table of at most `n` entries that takes in new ones while there is room. -/
theorem take_distinct_append (n : Nat) (xs : List α) (x : α) :
    (distinct (xs ++ [x])).take n =
      if x ∈ (distinct xs).take n ∨ n ≤ ((distinct xs).take n).length then (distinct xs).take n
      else (distinct xs).take n ++ [x] := by
  rw [distinct_append]
  by_cases hfull : n ≤ (distinct xs).length
  · have hlen : ((distinct xs).take n).length = n := by simp [hfull]
    have hroom : x ∈ (distinct xs).take n ∨ n ≤ ((distinct xs).take n).length :=
      .inr (Nat.le_of_eq hlen.symm)
    rw [if_pos hroom]
    split
    · rfl
    · rw [List.take_append_of_le_length hfull]
  · have htake : (distinct xs).take n = distinct xs := List.take_of_length_le (by omega)
    rw [htake]
    by_cases hx : x ∈ distinct xs
    · simp [hx, htake]
    · have hnot : ¬ (x ∈ distinct xs ∨ n ≤ (distinct xs).length) := by simp [hx, hfull]
      rw [if_neg hx, if_neg hnot, List.take_of_length_le (by simp; omega)]

end

/-! ## Where the strings are placed -/

/-- The entries of the string table for these strings, the first at `off`. -/
def place : Nat → List Bytes → List WasmString
  | _, [] => []
  | off, s :: ss =>
      { value := s, offset := off + 4, length := s.length } ::
        place (alignUp (off + 4 + s.length) 8) ss

/-- Where the next one goes. -/
def placeEnd : Nat → List Bytes → Nat
  | off, [] => off
  | off, s :: ss => placeEnd (alignUp (off + 4 + s.length) 8) ss

/-- Length prefix, bytes and padding of all these strings. -/
def stringBytes : List Bytes → Nat
  | [] => 0
  | s :: ss => alignUp (4 + s.length) 8 + stringBytes ss

theorem placeEnd_eq (ss : List Bytes) : ∀ off, 8 ∣ off → placeEnd off ss = off + stringBytes ss := by
  induction ss with
  | nil => exact fun _ _ => rfl
  | cons s ss ih =>
      intro off hoff
      have hnext : alignUp (off + 4 + s.length) 8 = off + alignUp (4 + s.length) 8 := by
        unfold alignUp; omega
      rw [placeEnd, ih _ (by unfold alignUp; omega), hnext, stringBytes, Nat.add_assoc]

theorem place_append (ss : List Bytes) (s : Bytes) : ∀ off, place off (ss ++ [s]) =
    place off ss ++ [{ value := s, offset := placeEnd off ss + 4, length := s.length }] := by
  induction ss with
  | nil => exact fun _ => rfl
  | cons t ss ih =>
      intro off
      simp only [List.cons_append, place, placeEnd, ih]

theorem placeEnd_append (ss : List Bytes) (s : Bytes) : ∀ off,
    placeEnd off (ss ++ [s]) = alignUp (placeEnd off ss + 4 + s.length) 8 := by
  induction ss with
  | nil => exact fun _ => rfl
  | cons t ss ih =>
      intro off
      simp only [List.cons_append, placeEnd, ih]

theorem length_place (ss : List Bytes) : ∀ off, (place off ss).length = ss.length := by
  induction ss with
  | nil => exact fun _ => rfl
  | cons s ss ih => exact fun off => by simp [place, ih]

theorem mem_place {ss : List Bytes} {t : WasmString} : ∀ {off}, t ∈ place off ss →
    t.value ∈ ss ∧ t.length = t.value.length ∧ off + 4 ≤ t.offset := by
  induction ss with
  | nil => intro off h; simp [place] at h
  | cons s ss ih =>
      intro off h
      rcases List.mem_cons.mp h with rfl | h
      · exact ⟨List.mem_cons_self, rfl, Nat.le_refl _⟩
      · obtain ⟨hv, hl, ho⟩ := ih h
        refine ⟨List.mem_cons_of_mem _ hv, hl, ?_⟩
        unfold alignUp at ho
        omega

theorem exists_mem_place {ss : List Bytes} {s : Bytes} (h : s ∈ ss) :
    ∀ off, ∃ t ∈ place off ss, t.value = s := by
  induction ss with
  | nil => simp at h
  | cons r ss ih =>
      intro off
      rcases List.mem_cons.mp h with rfl | h
      · exact ⟨_, List.mem_cons_self, rfl⟩
      · obtain ⟨t, ht, hv⟩ := ih h (alignUp (off + 4 + r.length) 8)
        exact ⟨t, List.mem_cons_of_mem _ ht, hv⟩

/-- The strings lie one after the other. -/
theorem sequential_place (ss : List Bytes) : ∀ off,
    Region.Sequential off ((place off ss).map WasmString.region) (placeEnd off ss) := by
  induction ss with
  | nil => exact fun off => Nat.le_refl off
  | cons s ss ih =>
      intro off
      refine ⟨by simp [WasmString.region], by simp [WasmString.region]; omega, ?_⟩
      refine (ih (alignUp (off + 4 + s.length) 8)).mono ?_ (Nat.le_refl _)
      simp only [WasmString.region, alignUp]
      omega

/-- They leave out no address that is a multiple of 8. -/
theorem place_covers (ss : List Bytes) {x : Nat} (hx : 8 ∣ x) : ∀ off, off ≤ x →
    x < placeEnd off ss → ∃ t ∈ place off ss, t.region.start ≤ x ∧ x < t.region.stop := by
  induction ss with
  | nil => intro off h h'; simp only [placeEnd] at h'; omega
  | cons s ss ih =>
      intro off hoff hend
      by_cases hin : x < off + 4 + s.length
      · exact ⟨_, List.mem_cons_self, by simpa [WasmString.region] using hoff,
          by simpa [WasmString.region] using hin⟩
      · obtain ⟨t, ht, h⟩ := ih (alignUp (off + 4 + s.length) 8)
          (by unfold alignUp; omega) hend
        exact ⟨t, List.mem_cons_of_mem _ ht, h⟩

/-! ## The string table -/

/-- The strings that get an entry, and those that come too late. -/
def interned (m : IrModule) : List Bytes := (distinct (constStrings m)).take maxStrings
def leftOut (m : IrModule) : List Bytes := (distinct (constStrings m)).drop maxStrings

theorem find_place (off : Nat) {ss : List Bytes} {s : Bytes} :
    (s ∈ ss → ∃ t, (place off ss).find? (fun t => t.length == s.length && t.value == s) = some t ∧
      t ∈ place off ss ∧ t.value = s) ∧
    (s ∉ ss → (place off ss).find? (fun t => t.length == s.length && t.value == s) = none) := by
  constructor
  · intro hs
    obtain ⟨t, ht, hv⟩ := exists_mem_place hs off
    cases hf : (place off ss).find? (fun t => t.length == s.length && t.value == s) with
    | none =>
        have := List.find?_eq_none.mp hf t ht
        simp [(mem_place ht).2.1, hv] at this
    | some t' =>
        have := List.find?_some hf
        simp only [Bool.and_eq_true, beq_iff_eq] at this
        exact ⟨t', rfl, List.mem_of_find?_eq_some hf, this.2⟩
  · intro hs
    refine List.find?_eq_none.mpr fun t ht => ?_
    simp only [Bool.and_eq_true, beq_iff_eq, not_and]
    rintro - rfl
    exact hs (mem_place ht).1

/-- The table after some strings: what fits of the distinct ones, in sequence. -/
theorem preintern_eq (xs : List Bytes) :
    xs.foldl (fun ctx s => (internString ctx s).1) {} =
      { strings := place dataBase ((distinct xs).take maxStrings)
        dataOffset := placeEnd dataBase ((distinct xs).take maxStrings) } := by
  induction xs using List.reverseRecOn with
  | nil => rfl
  | append_singleton xs x ih =>
      rw [List.foldl_append, List.foldl_cons, List.foldl_nil, ih, take_distinct_append]
      unfold internString
      by_cases hx : x ∈ (distinct xs).take maxStrings
      · obtain ⟨t, hf, -⟩ := (find_place dataBase).1 hx
        simp only [hf, hx, true_or, if_true]
      · simp only [(find_place dataBase).2 hx, hx, false_or, length_place]
        split
        · rfl
        · simp only [place_append, placeEnd_append]

/-! ## The table of host calls -/

/-- The table entries for these names, the first at index `k`. -/
def placeSites : Nat → List String → List HostCallSite
  | _, [] => []
  | k, q :: qs =>
      { qualified := q
        ns := String.ofList (q.toList.takeWhile (· != '.'))
        fn := String.ofList ((q.toList.dropWhile (· != '.')).tail)
        scratchOff := hostScratchBase + k * hostScratchStride } :: placeSites (k + 1) qs

theorem placeSites_append (qs : List String) (q : String) : ∀ k,
    placeSites k (qs ++ [q]) = placeSites k qs ++ placeSites (k + qs.length) [q] := by
  induction qs with
  | nil => exact fun _ => rfl
  | cons r qs ih =>
      intro k
      simp only [List.cons_append, placeSites, ih, List.length_cons, Nat.add_assoc,
        Nat.add_comm 1]

theorem map_qualified_placeSites (qs : List String) : ∀ k,
    (placeSites k qs).map (·.qualified) = qs := by
  induction qs with
  | nil => exact fun _ => rfl
  | cons q qs ih => exact fun k => by simp [placeSites, ih]

theorem length_placeSites (qs : List String) (k : Nat) :
    (placeSites k qs).length = qs.length := by
  rw [← List.length_map (f := (·.qualified)), map_qualified_placeSites]

/-- The scratch areas lie one after the other. -/
theorem sequential_placeSites (qs : List String) : ∀ k,
    Region.Sequential (hostScratchBase + k * hostScratchStride)
      ((placeSites k qs).map HostCallSite.region)
      (hostScratchBase + (k + qs.length) * hostScratchStride) := by
  induction qs with
  | nil => exact fun k => Nat.le_refl _
  | cons q qs ih =>
      intro k
      have hlen : k + (q :: qs).length = k + 1 + qs.length := by simp; omega
      refine ⟨Nat.le_refl _, ?_, ?_⟩
      · simp only [HostCallSite.region]; omega
      · rw [hlen]
        refine (ih (k + 1)).mono ?_ (Nat.le_refl _)
        simp only [HostCallSite.region, hostOutbufMax, hostScratchStride]
        omega

/-- The distinct names with a dot, which alone are registered. -/
def dotted (qs : List String) : List String := distinct (qs.filter (fun q => '.' ∈ q.toList))

def hostSites (m : IrModule) : List String := dotted (hostCallNames m)

theorem preregister_eq (ctx : EmitCtx) (hctx : ctx.hostCalls = []) (qs : List String) :
    qs.foldl (fun ctx q => (hostCallRegister ctx q).1) ctx =
      { ctx with hostCalls := placeSites 0 ((dotted qs).take maxHostCalls) } := by
  induction qs using List.reverseRecOn with
  | nil =>
      cases ctx
      subst hctx
      rfl
  | append_singleton qs q ih =>
      rw [List.foldl_append, List.foldl_cons, List.foldl_nil, ih]
      generalize hN : (dotted qs).take maxHostCalls = N
      have hfind : (placeSites 0 N).findIdx? (fun s => s.qualified == q) = none ↔ q ∉ N := by
        rw [List.findIdx?_eq_none_iff]
        constructor
        · intro h hq
          rw [← map_qualified_placeSites N 0] at hq
          obtain ⟨s, hs, rfl⟩ := List.mem_map.mp hq
          simpa using h s hs
        · intro h s hs
          have : s.qualified ∈ N := by
            rw [← map_qualified_placeSites N 0]
            exact List.mem_map_of_mem hs
          simp only [beq_eq_false_iff_ne]
          rintro rfl
          exact h this
      have hdot : ∀ r ∈ N, '.' ∈ r.toList := by
        intro r hr
        have := mem_distinct.mp (List.mem_of_mem_take (hN ▸ hr))
        simpa using (List.mem_filter.mp this).2
      by_cases hq : '.' ∈ q.toList
      · have hone : [q].filter (fun q => decide ('.' ∈ q.toList)) = [q] := by simp [hq]
        rw [dotted, List.filter_append, hone, take_distinct_append, ← dotted, hN]
        unfold hostCallRegister
        by_cases hmem : q ∈ N
        · simp only [hmem, true_or, if_true]
          cases hf : (placeSites 0 N).findIdx? (fun s => s.qualified == q) with
          | none => exact absurd hmem (hfind.mp hf)
          | some i => rfl
        · simp only [hfind.mpr hmem, hmem, false_or, length_placeSites]
          split
          · rfl
          · simp [placeSites_append, placeSites]
      · have hone : [q].filter (fun q => decide ('.' ∈ q.toList)) = [] := by simp [hq]
        have hmem : q ∉ N := fun h => hq (hdot q h)
        rw [dotted, List.filter_append, hone, List.append_nil, ← dotted, hN]
        unfold hostCallRegister
        simp only [hfind.mpr hmem]
        split
        · rfl
        · simp

/-- The tables of a module. -/
theorem emitCtx_eq (m : IrModule) : emitCtx m =
    { strings := place dataBase (interned m)
      dataOffset := placeEnd dataBase (interned m)
      hostCalls := placeSites 0 ((hostSites m).take maxHostCalls) } := by
  unfold emitCtx preregisterHostCalls preinternStrings
  rw [preintern_eq, preregister_eq _ rfl]
  rfl

/-! ## The emitted bytes -/

theorem alignUp_le {n a : Nat} (ha : 0 < a) : n ≤ alignUp n a := by
  have h := Nat.div_add_mod (n + (a - 1)) a
  have hlt := Nat.mod_lt (n + (a - 1)) ha
  unfold alignUp
  rw [Nat.mul_comm]
  omega

theorem u32le_length (v : Nat) : (u32le v).length = 4 := rfl

/-- In offset order already. -/
theorem pairwise_place (ss : List Bytes) : ∀ off,
    (place off ss).Pairwise (fun s t => s.offset ≤ t.offset) := by
  induction ss with
  | nil => exact fun _ => .nil
  | cons s ss ih =>
      intro off
      refine .cons (fun t ht => ?_) (ih _)
      have := (mem_place ht).2.2
      unfold alignUp at this
      simp only
      omega

theorem dataSegment_place (ss : List Bytes) (off : Nat) (hs : List HostCallSite) :
    dataSegment { strings := place dataBase ss, dataOffset := off, hostCalls := hs } =
      dataBytes dataBase (place dataBase ss) := by
  rw [dataSegment, (pairwise_place ss dataBase).insertionSort_eq]

/-- The entry `t` stands in the segment where its offset says. -/
theorem dataBytes_place {ss : List Bytes} {t : WasmString} : ∀ {off cursor},
    t ∈ place off ss → cursor ≤ off → ∃ pre post,
      dataBytes cursor (place off ss) = pre ++ (u32le t.length ++ t.value ++ post) ∧
      cursor + pre.length + 4 = t.offset := by
  induction ss with
  | nil => intro off cursor h; simp [place] at h
  | cons s ss ih =>
      intro off cursor ht hc
      rcases List.mem_cons.mp ht with rfl | ht
      · refine ⟨List.replicate (off - cursor) 0,
          dataBytes (off + 4 + s.length) (place (alignUp (off + 4 + s.length) 8) ss), ?_, ?_⟩
        · simp [place, dataBytes]
        · simp; omega
      · obtain ⟨pre, post, heq, hlen⟩ := ih ht
          (alignUp_le (by decide) : off + 4 + s.length ≤ _)
        refine ⟨List.replicate (off - cursor) 0 ++ u32le s.length ++ s ++ pre, post, ?_, ?_⟩
        · simp [place, dataBytes, heq]
        · simp [u32le_length]; omega

/-- An entry of the table is what its offset points to. -/
theorem stringAt_place {ss : List Bytes} {t : WasmString} (ht : t ∈ place dataBase ss)
    (hlen : t.value.length < 2 ^ 32) (off : Nat) (hs : List HostCallSite) :
    StringAt (initialMemory { strings := place dataBase ss, dataOffset := off, hostCalls := hs })
      t.offset t.value := by
  obtain ⟨pre, post, heq, hoff⟩ := dataBytes_place ht (Nat.le_refl _)
  have hl := (mem_place ht).2.1
  have hmem : ∀ j, initialMemory
      { strings := place dataBase ss, dataOffset := off, hostCalls := hs } (dataBase + pre.length + j) =
        (u32le t.length ++ t.value ++ post).getD j 0 := by
    intro j
    rw [initialMemory, if_neg (by omega), dataSegment_place, heq]
    rw [show dataBase + pre.length + j - dataBase = pre.length + j by omega]
    simp [List.getElem?_append_right]
  refine ⟨by omega, ?_, ?_⟩
  · have h0 := hmem 0
    have h1 := hmem 1
    have h2 := hmem 2
    have h3 := hmem 3
    rw [show dataBase + pre.length + 0 = t.offset - 4 by omega] at h0
    rw [show dataBase + pre.length + 1 = t.offset - 3 by omega] at h1
    rw [show dataBase + pre.length + 2 = t.offset - 2 by omega] at h2
    rw [show dataBase + pre.length + 3 = t.offset - 1 by omega] at h3
    rw [h0, h1, h2, h3]
    simp only [u32le, List.cons_append, List.getD_cons_zero, List.getD_cons_succ,
      UInt8.toNat_ofNat', hl]
    omega
  · intro k hk
    have := hmem (4 + k)
    rw [show dataBase + pre.length + (4 + k) = t.offset + k by omega] at this
    rw [this, List.append_assoc, List.getD_append_right _ _ _ _ (by rw [u32le_length]; omega)]
    simp [u32le_length, List.getElem?_append_left, hk]

/-! ## The verdict -/

/-- The strings fit below the scratch area, if there is one, the names fit below
the end of the page, and what comes too late for the table is empty. -/
structure LayoutFits (m : IrModule) : Prop where
  late : ∀ s ∈ leftOut m, s = []
  page : stringBytes (interned m) ≤ 64496
  scratch : 0 < (hostSites m).length → stringBytes (interned m) ≤ 7168
  names : (hostSites m).length ≤ 52

theorem dataEnd_eq (m : IrModule) :
    placeEnd dataBase (interned m) = dataBase + stringBytes (interned m) :=
  placeEnd_eq _ _ (by decide)

/-- The heap starts behind both areas. -/
theorem bumpInit_eq (m : IrModule) : bumpInit (emitCtx m) =
    alignUp (max (dataBase + stringBytes (interned m))
      (if 0 < (hostSites m).length then
        hostScratchBase + min maxHostCalls (hostSites m).length * hostScratchStride else 0)) 16 := by
  have hlen : (placeSites 0 ((hostSites m).take maxHostCalls)).length =
      min maxHostCalls (hostSites m).length := by simp [length_placeSites]
  rw [emitCtx_eq, bumpInit]
  simp only [dataEnd_eq, hlen]
  have hpos : 0 < dataBase + stringBytes (interned m) := Nat.add_pos_left (by decide) _
  have hmin : 0 < min maxHostCalls (hostSites m).length ↔ 0 < (hostSites m).length := by
    simp [maxHostCalls]
  simp only [if_pos hpos, hmin]
  by_cases h : 0 < (hostSites m).length
  · simp only [h, true_and, if_true]
    split
    · rw [Nat.max_eq_right (by omega)]
    · rw [Nat.max_eq_left (by omega)]
  · simp [h]

/-- The heap starts inside the page if strings and names are few enough. -/
theorem bumpInit_lt_iff (m : IrModule) : bumpInit (emitCtx m) < memorySize ↔
    stringBytes (interned m) ≤ 64496 ∧ (hostSites m).length ≤ 52 := by
  rw [bumpInit_eq]
  simp only [alignUp, dataBase, hostScratchBase, hostScratchStride, maxHostCalls, memorySize]
  split <;> omega

theorem regions_eq (m : IrModule) : regions (emitCtx m) =
    (place dataBase (interned m)).map WasmString.region ++
      (placeSites 0 ((hostSites m).take maxHostCalls)).map HostCallSite.region := by
  rw [emitCtx_eq]
  rfl

/-- Every area ends before the heap. -/
theorem region_le_bumpInit (m : IrModule) : ∀ r ∈ regions (emitCtx m),
    r.stop ≤ bumpInit (emitCtx m) := by
  intro r hr
  rw [bumpInit_eq]
  refine Nat.le_trans ?_ (alignUp_le (by decide))
  rw [regions_eq, List.mem_append] at hr
  rcases hr with hr | hr
  · have := ((sequential_place (interned m) dataBase).mem hr).2.2
    rw [dataEnd_eq] at this
    exact Nat.le_trans this (Nat.le_max_left _ _)
  · have hle := ((sequential_placeSites ((hostSites m).take maxHostCalls) 0).mem hr).2.2
    have hpos : 0 < (hostSites m).length := by
      refine Nat.pos_of_ne_zero fun h => ?_
      simp [List.length_eq_zero_iff.mp h, placeSites] at hr
    rw [if_pos hpos]
    refine Nat.le_trans ?_ (Nat.le_max_right _ _)
    simpa using hle

/-- A pointer to an interned string. -/
theorem stringPointer_interned {m : IrModule} {s : Bytes} (hs : s ∈ interned m) :
    ∃ t ∈ place dataBase (interned m), t.value = s ∧ stringPointer (emitCtx m) s = t.offset := by
  obtain ⟨t, hf, ht, hv⟩ := (find_place dataBase).1 hs
  refine ⟨t, ht, hv, ?_⟩
  rw [emitCtx_eq, stringPointer, internString]
  simp only [hf]

/-- The pointer to a string that came too late. -/
theorem stringPointer_leftOut {m : IrModule} {s : Bytes} (hs : s ∈ leftOut m) :
    stringPointer (emitCtx m) s = dataBase := by
  have hno : s ∉ interned m := fun h =>
    (List.disjoint_take_drop (nodup_distinct (constStrings m)) (Nat.le_refl maxStrings)) h hs
  have hfull : maxStrings ≤ (interned m).length := by
    have := List.length_pos_of_mem hs
    simp only [leftOut, List.length_drop] at this
    simp only [interned, List.length_take]
    omega
  rw [emitCtx_eq, stringPointer, internString]
  simp only [(find_place dataBase).2 hno, length_place, if_pos hfull]

/-- Below the strings the memory is zero. -/
theorem stringAt_dataBase (ctx : EmitCtx) (s : Bytes) :
    StringAt (initialMemory ctx) dataBase s ↔ s = [] := by
  have hzero : ∀ a < dataBase, initialMemory ctx a = 0 := fun a ha => if_pos ha
  constructor
  · rintro ⟨-, hlen, -⟩
    rw [hzero _ (by decide), hzero _ (by decide), hzero _ (by decide), hzero _ (by decide)] at hlen
    exact List.length_eq_zero_iff.mp hlen.symm
  · rintro rfl
    refine ⟨by decide, ?_, fun k hk => absurd hk (Nat.not_lt_zero k)⟩
    rw [hzero _ (by decide), hzero _ (by decide), hzero _ (by decide), hzero _ (by decide)]
    rfl

theorem mem_constStrings {m : IrModule} {s : Bytes} :
    s ∈ constStrings m ↔ s ∈ interned m ∨ s ∈ leftOut m := by
  rw [← mem_distinct, interned, leftOut, ← List.mem_append, List.take_append_drop]

theorem length_le_stringBytes {ss : List Bytes} {s : Bytes} (h : s ∈ ss) :
    s.length ≤ stringBytes ss := by
  induction ss with
  | nil => simp at h
  | cons t ss ih =>
      have hle := alignUp_le (n := 4 + t.length) (a := 8) (by decide)
      rcases List.mem_cons.mp h with rfl | h
      · simp only [stringBytes]; omega
      · have := ih h
        simp only [stringBytes]; omega

theorem layoutFits_of_sound {m : IrModule} (h : LayoutSound m) : LayoutFits m := by
  obtain ⟨hpage, hnames⟩ := (bumpInit_lt_iff m).mp h.heapInMemory
  refine ⟨fun s hs => ?_, hpage, fun hsites => ?_, hnames⟩
  · have := h.pointers s (mem_constStrings.mpr (.inr hs))
    rw [stringPointer_leftOut hs] at this
    exact (stringAt_dataBase _ s).mp this
  · -- otherwise some string covers the first byte of the scratch area
    by_contra hbig
    obtain ⟨t, ht, hlo, hhi⟩ := place_covers (interned m) (x := hostScratchBase)
      (by decide) dataBase (by decide)
      (by rw [dataEnd_eq]; simp only [hostScratchBase, dataBase]; omega)
    obtain ⟨q, qs, hq⟩ : ∃ q qs, (hostSites m).take maxHostCalls = q :: qs := by
      cases hq : hostSites m with
      | nil => simp [hq] at hsites
      | cons q qs => exact ⟨q, _, List.take_succ_cons⟩
    have hdisj := h.disjoint
    rw [regions_eq, List.pairwise_append, hq] at hdisj
    have := hdisj.2.2 t.region (List.mem_map_of_mem ht) _ List.mem_cons_self
    simp only [Region.Disjoint, HostCallSite.region, hostOutbufMax] at this
    omega

theorem layoutSound_of_fits {m : IrModule} (h : LayoutFits m) : LayoutSound m := by
  have hheap := (bumpInit_lt_iff m).mpr ⟨h.page, h.names⟩
  refine ⟨?_, region_le_bumpInit m, fun r hr => ?_, hheap, fun s hs => ?_⟩
  · rw [regions_eq]
    have hstr := sequential_place (interned m) dataBase
    have hsit := sequential_placeSites ((hostSites m).take maxHostCalls) 0
    by_cases hsites : 0 < (hostSites m).length
    · refine (hstr.append (hsit.mono ?_ (Nat.le_refl _))).pairwise
      have := h.scratch hsites
      rw [dataEnd_eq]
      simp only [dataBase, hostScratchBase]
      omega
    · have : hostSites m = [] := List.length_eq_zero_iff.mp (by omega)
      simpa [this, placeSites] using hstr.pairwise
  · exact Nat.le_trans (region_le_bumpInit m r hr) (Nat.le_of_lt hheap)
  · rcases mem_constStrings.mp hs with hin | hout
    · obtain ⟨t, ht, rfl, hp⟩ := stringPointer_interned hin
      have hshort := length_le_stringBytes hin
      have hpage := h.page
      rw [hp, emitCtx_eq]
      exact stringAt_place ht (by omega) _ _
    · rw [stringPointer_leftOut hout]
      exact (stringAt_dataBase _ s).mpr (h.late s hout)

/-- The layout of a module is sound exactly when its strings and names fit. -/
theorem layoutSound_iff (m : IrModule) : LayoutSound m ↔ LayoutFits m :=
  ⟨layoutFits_of_sound, layoutSound_of_fits⟩

/-! ## A long string and a host call -/

/-- `fn f() -> int { log.info("aaa…") }` with `n` letters. -/
def longStringModule (n : Nat) : IrModule where
  functions := [
    { name := "lcn_f", returnType := .i64, nextValue := 2
      blocks := [
        { label := some "entry"
          insts := [
            { id := 0, op := .constString, type := .string
              immStr := some (String.ofList (List.replicate n 'a')) },
            { id := 1, op := .hostCall, type := .i64, fnName := some "log.info", callArgs := [0] },
            { id := -1, op := .ret, type := .void, operands := [1] }] }] }]

theorem utf8_replicate (n : Nat) :
    utf8 (String.ofList (List.replicate n 'a')) = List.replicate n 97 := by
  have hchar : String.utf8EncodeChar 'a' = [97] := by decide
  rw [utf8, String.toList_ofList]
  induction n with
  | zero => rfl
  | succ n ih => simpa [List.replicate_succ, hchar] using ih

theorem stringBytes_longString (n : Nat) :
    stringBytes (interned (longStringModule n)) = alignUp (4 + n) 8 := by
  have : constStrings (longStringModule n) = [List.replicate n 97] := by
    simp [constStrings, longStringModule, IrFunction.insts, utf8_replicate]
  rw [interned, this]
  simp [distinct, maxStrings, stringBytes]

theorem hostSites_longString (n : Nat) : hostSites (longStringModule n) = ["log.info"] := rfl

/-- A string of 8000 bytes runs into the scratch area of the host call. -/
theorem layout_longString : ¬ LayoutSound (longStringModule 8000) := by
  intro h
  have := (layoutFits_of_sound h).scratch (by rw [hostSites_longString]; decide)
  rw [stringBytes_longString] at this
  exact absurd this (by decide)

end Limceron.Wasm
