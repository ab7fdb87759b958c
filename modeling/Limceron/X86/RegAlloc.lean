/-
# `Limceron.X86.RegAlloc` — the linear scan of the x86-64 back end

`ir_x86_compute_live_ranges` gives every value the textual range from its
definition to its last mention, and `ir_linear_scan_alloc` hands out thirteen
registers in the order of the starts:

| at an interval | the scan |
| :-- | :-- |
| register held by an interval that has ended before | freed |
| some register free | the first of them |
| none free | a new spill slot |

The scan is right about the ranges it is given (`linearScan_separates`): two that
overlap get different places.  The ranges are those of the text, so a value that
a loop carries over its back edge, and an argument of a host call, can be live
outside its range.  `regalloc_sound` says what is needed of a function.
-/
import Limceron.IR.Liveness
import Mathlib.Data.List.Sort

namespace Limceron.X86

inductive X86Reg where
  | rax | rcx | rdx | rsi | rdi
  | r8 | r9 | r10 | r11
  | rbx | r12 | r13 | r14 | r15
  | none
  | spill
  deriving DecidableEq, Repr

/-- `RegAlloc`; `last` is the field `end`. -/
structure RegAlloc where
  valueId : Int
  reg : X86Reg := .none
  spillOffset : Int := 0
  start : Nat
  last : Nat
  deriving DecidableEq, Repr

/-! ## Live ranges -/

/-- First pass: parameters, then results, each with its defining index. -/
def definitions (fn : IrFunction) : List RegAlloc :=
  fn.params.map (fun p => { valueId := p.valueId, start := 0, last := 0 }) ++
    (fn.insts.zipIdx.filter (fun i => decide (0 ≤ i.1.id))).map
      (fun i => { valueId := i.1.id, start := i.2, last := i.2 })

/-- Extend the first range of value `vid` to index `k`. -/
def extend (vid : Int) (k : Nat) : List RegAlloc → List RegAlloc
  | [] => []
  | a :: as =>
      if a.valueId = vid then { a with last := if a.last < k then k else a.last } :: as
      else a :: extend vid k as

/-- Second pass at one instruction. -/
def extendAll (allocs : List RegAlloc) (i : IrInst × Nat) : List RegAlloc :=
  i.1.mentions.foldl (fun as vid => if vid < 0 then as else extend vid i.2 as) allocs

def irX86ComputeLiveRanges (fn : IrFunction) : List RegAlloc :=
  fn.insts.zipIdx.foldl extendAll (definitions fn)

/-! ## The scan -/

/-- Insertion sort; the sorted part of the array is kept latest first, as the
inner loop walks it. -/
def regallocSortByStart (allocs : List RegAlloc) : List RegAlloc :=
  (allocs.foldl
    (fun sorted tmp => sorted.orderedInsert (fun a b => b.start ≤ a.start) tmp) []).reverse

def allocOrder : List X86Reg :=
  [.rcx, .rdx, .rsi, .rdi, .r8, .r9, .r10, .r11, .rbx, .r12, .r13, .r14, .r15]

structure ScanState where
  regFreeAt : X86Reg → Int := fun _ => -1
  nextSpillOffset : Int := -8

/-- Free the registers whose range has ended before `start`. -/
def expire (regFreeAt : X86Reg → Int) (start : Nat) (r : X86Reg) : Int :=
  if r ∈ allocOrder ∧ 0 ≤ regFreeAt r ∧ regFreeAt r < start then -1 else regFreeAt r

/-- One round of the loop. -/
def scanOne (st : ScanState) (a : RegAlloc) : ScanState × RegAlloc :=
  let regFreeAt := expire st.regFreeAt a.start
  match allocOrder.find? (fun r => decide (regFreeAt r < 0)) with
  | some r =>
      ({ st with regFreeAt := Function.update regFreeAt r a.last }, { a with reg := r })
  | none =>
      ({ regFreeAt := regFreeAt, nextSpillOffset := st.nextSpillOffset - 8 },
        { a with reg := .spill, spillOffset := st.nextSpillOffset })

def scanFrom (st : ScanState) : List RegAlloc → List RegAlloc
  | [] => []
  | a :: as => (scanOne st a).2 :: scanFrom (scanOne st a).1 as

def irLinearScanAlloc (allocs : List RegAlloc) : List RegAlloc :=
  scanFrom {} (regallocSortByStart allocs)

/-- The allocation as `ir_emit_x86_function` computes it. -/
def allocate (fn : IrFunction) : List RegAlloc :=
  irLinearScanAlloc (irX86ComputeLiveRanges fn)

/-! ## What the allocation should satisfy -/

/-- The same register or the same spill slot. -/
def RegAlloc.SamePlace (a b : RegAlloc) : Prop :=
  a.reg = b.reg ∧ (a.reg = .spill → a.spillOffset = b.spillOffset)

instance (a b : RegAlloc) : Decidable (a.SamePlace b) := inferInstanceAs (Decidable (_ ∧ _))

/-- Values that are live at the same point have different places. -/
def RegAllocSound (fn : IrFunction) : Prop :=
  ∀ a ∈ allocate fn, ∀ b ∈ allocate fn, a.valueId ≠ b.valueId →
    ∀ p, fn.LiveAt a.valueId p → fn.LiveAt b.valueId p → ¬ a.SamePlace b

/-- Values that are live at the same point have textual ranges that meet. -/
def RangesMeet (fn : IrFunction) : Prop :=
  ∀ v ∈ fn.valueIds, ∀ w ∈ fn.valueIds, v ≠ w → ∀ p, fn.LiveAt v p → fn.LiveAt w p →
    ∃ k, fn.TextRange v k ∧ fn.TextRange w k

/-! ## The scan separates overlapping ranges -/

/-- The earlier range has ended before the later one starts, or they have
different places. -/
def RegAlloc.Apart (a b : RegAlloc) : Prop := a.last < b.start ∨ ¬ a.SamePlace b

/-- What the scan knows of the ranges it has placed when the next one starts at
`s` or later. -/
structure ScanInv (done : List RegAlloc) (st : ScanState) (s : Nat) : Prop where
  held : ∀ a ∈ done, a.reg ≠ .spill → (a.last : Int) ≤ st.regFreeAt a.reg ∨ a.last < s
  slots : ∀ a ∈ done, a.reg = .spill → st.nextSpillOffset < a.spillOffset

theorem expire_held {freeAt : X86Reg → Int} {r : X86Reg} {last s s' : Nat} (hs : s ≤ s')
    (h : (last : Int) ≤ freeAt r ∨ last < s) : (last : Int) ≤ expire freeAt s' r ∨ last < s' := by
  unfold expire
  split
  · rename_i hexp
    exact .inr (by omega)
  · exact h.imp_right (fun h => by omega)

/-- The scan leaves a range as it is and chooses its place. -/
def RegAlloc.range (a : RegAlloc) : Int × Nat × Nat := (a.valueId, a.start, a.last)

theorem scanOne_range (st : ScanState) (a : RegAlloc) : (scanOne st a).2.range = a.range := by
  unfold scanOne
  dsimp only
  split <;> rfl

theorem allocOrder_ne_spill {r : X86Reg} (h : r ∈ allocOrder) : r ≠ .spill := by
  rintro rfl
  exact absurd h (by decide)

/-- One round keeps the invariant, and the new range is apart from all before. -/
theorem ScanInv.step {done : List RegAlloc} {st : ScanState} {s : Nat} {a : RegAlloc}
    (h : ScanInv done st s) (hs : s ≤ a.start) :
    ScanInv (done ++ [(scanOne st a).2]) (scanOne st a).1 a.start ∧
      ∀ b ∈ done, b.Apart (scanOne st a).2 := by
  unfold scanOne
  dsimp only
  split
  · rename_i r hfind
    have hfree : expire st.regFreeAt a.start r < 0 := by simpa using List.find?_some hfind
    have hr : r ≠ .spill := allocOrder_ne_spill (List.mem_of_find?_eq_some hfind)
    have hended : ∀ b ∈ done, b.reg = r → b.last < a.start := by
      intro b hb hbr
      rcases expire_held hs (h.held b hb (hbr ▸ hr)) with hle | hlt
      · rw [hbr] at hle
        omega
      · exact hlt
    refine ⟨⟨?_, ?_⟩, ?_⟩
    · intro b hb hreg
      rcases List.mem_append.mp hb with hb | hb
      · by_cases hbr : b.reg = r
        · exact .inr (hended b hb hbr)
        · show (b.last : Int) ≤
            Function.update (expire st.regFreeAt a.start) r (a.last : Int) b.reg ∨ _
          rw [Function.update_of_ne hbr]
          exact expire_held hs (h.held b hb hreg)
      · rw [List.mem_singleton.mp hb]
        show (a.last : Int) ≤ Function.update (expire st.regFreeAt a.start) r (a.last : Int) r ∨ _
        rw [Function.update_self]
        exact .inl (Int.le_refl _)
    · intro b hb hreg
      rcases List.mem_append.mp hb with hb | hb
      · exact h.slots b hb hreg
      · rw [List.mem_singleton.mp hb] at hreg
        exact absurd hreg hr
    · intro b hb
      by_cases hbr : b.reg = r
      · exact .inl (hended b hb hbr)
      · exact .inr (fun hsame => hbr hsame.1)
  · refine ⟨⟨?_, ?_⟩, ?_⟩
    · intro b hb hreg
      rcases List.mem_append.mp hb with hb | hb
      · exact expire_held hs (h.held b hb hreg)
      · rw [List.mem_singleton.mp hb] at hreg
        exact absurd rfl hreg
    · intro b hb hreg
      show st.nextSpillOffset - 8 < b.spillOffset
      rcases List.mem_append.mp hb with hb | hb
      · have := h.slots b hb hreg
        omega
      · rw [List.mem_singleton.mp hb]
        show st.nextSpillOffset - 8 < st.nextSpillOffset
        omega
    · intro b hb
      refine .inr (fun hsame => ?_)
      have hslot := h.slots b hb hsame.1
      have heq : b.spillOffset = st.nextSpillOffset := hsame.2 hsame.1
      omega

theorem scanFrom_apart {done as : List RegAlloc} {st : ScanState} {s : Nat}
    (h : ScanInv done st s) (hdone : done.Pairwise RegAlloc.Apart)
    (hsorted : as.Pairwise (fun a b => a.start ≤ b.start)) (hs : ∀ a ∈ as, s ≤ a.start) :
    (done ++ scanFrom st as).Pairwise RegAlloc.Apart := by
  induction as generalizing done st s with
  | nil =>
      rw [scanFrom, List.append_nil]
      exact hdone
  | cons a as ih =>
      obtain ⟨hle, hsorted⟩ := List.pairwise_cons.mp hsorted
      obtain ⟨hinv, hapart⟩ := h.step (hs a List.mem_cons_self)
      have hdone' : (done ++ [(scanOne st a).2]).Pairwise RegAlloc.Apart :=
        List.pairwise_append.mpr ⟨hdone, List.pairwise_singleton _ _, by simpa using hapart⟩
      rw [scanFrom, List.append_cons]
      exact ih hinv hdone' hsorted hle

theorem scanFrom_range (st : ScanState) (as : List RegAlloc) :
    (scanFrom st as).map RegAlloc.range = as.map RegAlloc.range := by
  induction as generalizing st with
  | nil => rfl
  | cons a as ih =>
      show (scanOne st a).2.range :: _ = a.range :: _
      rw [scanOne_range, ih]

/-! ## Sorting -/

theorem regallocSortByStart_eq (allocs : List RegAlloc) :
    regallocSortByStart allocs =
      (allocs.reverse.insertionSort (fun a b => b.start ≤ a.start)).reverse := by
  show (allocs.foldl _ []).reverse = (allocs.reverse.foldr _ []).reverse
  rw [List.foldr_reverse]

theorem mem_regallocSortByStart {allocs : List RegAlloc} {a : RegAlloc} :
    a ∈ regallocSortByStart allocs ↔ a ∈ allocs := by
  rw [regallocSortByStart_eq, List.mem_reverse, List.mem_insertionSort, List.mem_reverse]

theorem regallocSortByStart_sorted (allocs : List RegAlloc) :
    (regallocSortByStart allocs).Pairwise (fun a b => a.start ≤ b.start) := by
  have htotal : Std.Total (fun a b : RegAlloc => b.start ≤ a.start) :=
    ⟨fun a b => Nat.le_total _ _⟩
  have htrans : IsTrans RegAlloc (fun a b => b.start ≤ a.start) :=
    ⟨fun _ _ _ h h' => Nat.le_trans h' h⟩
  rw [regallocSortByStart_eq, List.pairwise_reverse]
  exact List.pairwise_insertionSort _ _

/-- Two ranges that have an index in common. -/
def RegAlloc.Overlap (a b : RegAlloc) : Prop :=
  ∃ k, (a.start ≤ k ∧ k ≤ a.last) ∧ b.start ≤ k ∧ k ≤ b.last

theorem RegAlloc.Overlap.symm {a b : RegAlloc} (h : a.Overlap b) : b.Overlap a := by
  obtain ⟨k, ha, hb⟩ := h
  exact ⟨k, hb, ha⟩

theorem RegAlloc.SamePlace.symm {a b : RegAlloc} (h : a.SamePlace b) : b.SamePlace a :=
  ⟨h.1.symm, fun hb => (h.2 (h.1.trans hb)).symm⟩

/-- The scan gives different places to different ranges that overlap. -/
theorem linearScan_separates {allocs : List RegAlloc} {a b : RegAlloc}
    (ha : a ∈ irLinearScanAlloc allocs) (hb : b ∈ irLinearScanAlloc allocs) (hne : a ≠ b)
    (hover : a.Overlap b) : ¬ a.SamePlace b := by
  have hinv : ScanInv [] {} 0 := ⟨by simp, by simp⟩
  have hpair : (irLinearScanAlloc allocs).Pairwise RegAlloc.Apart :=
    scanFrom_apart hinv .nil (regallocSortByStart_sorted allocs) (fun _ _ => Nat.zero_le _)
  have hsym : Std.Symm (fun a b : RegAlloc => a.Overlap b → ¬ a.SamePlace b) :=
    ⟨fun _ _ h hov hsame => h hov.symm hsame.symm⟩
  have hsep : (irLinearScanAlloc allocs).Pairwise (fun a b => a.Overlap b → ¬ a.SamePlace b) := by
    refine hpair.imp (fun {a b} hap hov => ?_)
    obtain ⟨k, ⟨_, hk⟩, hk', _⟩ := hov
    exact hap.resolve_left (by omega)
  exact hsep.forall ha hb hne hover

/-! ## The ranges are the textual ones -/

/-- The mentions of values with their indices, in the order of the second pass. -/
def mentionPairs (fn : IrFunction) : List (Int × Nat) :=
  fn.insts.zipIdx.flatMap (fun i => (i.1.mentions.filter (0 ≤ ·)).map (fun vid => (vid, i.2)))

theorem mem_mentionPairs {fn : IrFunction} {v : Int} {k : Nat} :
    (v, k) ∈ mentionPairs fn ↔ fn.MentionedAtIdx v k := by
  simp only [mentionPairs, List.mem_flatMap, List.mem_map, List.mem_filter, decide_eq_true_eq,
    Prod.mk.injEq, Prod.exists, List.mem_zipIdx_iff_getElem?, IrFunction.MentionedAtIdx]
  constructor
  · rintro ⟨i, k', hi, w, ⟨hw, h0⟩, rfl, rfl⟩
    exact ⟨i, hi, hw, h0⟩
  · rintro ⟨i, hi, hv, h0⟩
    exact ⟨i, k, hi, v, ⟨hv, h0⟩, rfl, rfl⟩

theorem computeLiveRanges_eq (fn : IrFunction) :
    irX86ComputeLiveRanges fn =
      (mentionPairs fn).foldl (fun as m => extend m.1 m.2 as) (definitions fn) := by
  rw [mentionPairs, List.foldl_flatMap]
  show fn.insts.zipIdx.foldl extendAll _ = _
  congr 1
  funext as i
  rw [List.foldl_map, List.foldl_filter]
  show i.1.mentions.foldl _ as = _
  congr 1
  funext as vid
  by_cases h : vid < 0
  · simp [h]
  · simp [h, Int.not_lt.mp h]

/-- What one mention does to one range. -/
def RegAlloc.mention (a : RegAlloc) (m : Int × Nat) : RegAlloc :=
  if a.valueId = m.1 then { a with last := if a.last < m.2 then m.2 else a.last } else a

theorem RegAlloc.mention_valueId (a : RegAlloc) (m : Int × Nat) :
    (a.mention m).valueId = a.valueId := by
  unfold RegAlloc.mention
  split <;> rfl

theorem extend_eq_map {as : List RegAlloc} (h : (as.map (·.valueId)).Nodup) (m : Int × Nat) :
    extend m.1 m.2 as = as.map (fun a => a.mention m) := by
  induction as with
  | nil => rfl
  | cons a as ih =>
      obtain ⟨hnot, h⟩ := List.nodup_cons.mp h
      unfold extend
      split
      · rename_i ha
        have hrest : as.map (fun b => b.mention m) = as := by
          refine (List.map_congr_left (g := id) (fun b hb => ?_)).trans (List.map_id as)
          refine if_neg (fun hbv => hnot ?_)
          exact List.mem_map.mpr ⟨b, hb, hbv.trans ha.symm⟩
        rw [List.map_cons, hrest, RegAlloc.mention, if_pos ha]
      · rename_i ha
        rw [List.map_cons, ← ih h, RegAlloc.mention, if_neg ha]

theorem foldl_extend_eq_map (ms : List (Int × Nat)) {as : List RegAlloc}
    (h : (as.map (·.valueId)).Nodup) :
    ms.foldl (fun as m => extend m.1 m.2 as) as =
      as.map (fun a => ms.foldl RegAlloc.mention a) := by
  induction ms generalizing as with
  | nil => exact (List.map_id as).symm
  | cons m ms ih =>
      have hids : (as.map (fun a => a.mention m)).map (·.valueId) = as.map (·.valueId) := by
        rw [List.map_map]
        exact List.map_congr_left (fun a _ => a.mention_valueId m)
      rw [List.foldl_cons, extend_eq_map h, ih (hids ▸ h), List.map_map]
      rfl

theorem RegAlloc.le_mention_last (a : RegAlloc) (m : Int × Nat) (k : Nat) :
    k ≤ (a.mention m).last ↔ k ≤ a.last ∨ (a.valueId = m.1 ∧ k ≤ m.2) := by
  unfold RegAlloc.mention
  split
  · rename_i ha
    show k ≤ (if a.last < m.2 then m.2 else a.last) ↔ _
    split <;> omega
  · rename_i ha
    simp [ha]

theorem foldl_mention (ms : List (Int × Nat)) (a : RegAlloc) :
    (ms.foldl RegAlloc.mention a).valueId = a.valueId ∧
      (ms.foldl RegAlloc.mention a).start = a.start ∧
      ∀ k, k ≤ (ms.foldl RegAlloc.mention a).last ↔
        k ≤ a.last ∨ ∃ j, (a.valueId, j) ∈ ms ∧ k ≤ j := by
  induction ms generalizing a with
  | nil => simp
  | cons m ms ih =>
      obtain ⟨hid, hstart, hlast⟩ := ih (a.mention m)
      rw [List.foldl_cons]
      refine ⟨hid.trans (a.mention_valueId m), hstart.trans ?_, fun k => ?_⟩
      · unfold RegAlloc.mention
        split <;> rfl
      · rw [hlast k, a.mention_valueId, a.le_mention_last, or_assoc]
        apply or_congr_right
        constructor
        · rintro (⟨ha, hk⟩ | ⟨j, hj, hk⟩)
          · exact ⟨m.2, by rw [ha]; exact List.mem_cons_self, hk⟩
          · exact ⟨j, List.mem_cons_of_mem m hj, hk⟩
        · rintro ⟨j, hj, hk⟩
          rcases List.mem_cons.mp hj with rfl | hj
          · exact .inl ⟨rfl, hk⟩
          · exact .inr ⟨j, hj, hk⟩

theorem definitions_valueIds (fn : IrFunction) :
    (definitions fn).map (·.valueId) = fn.valueIds := by
  unfold definitions IrFunction.valueIds
  rw [List.map_append, List.map_map, List.map_map]
  congr 1
  conv_rhs => rw [← List.zipIdx_map_fst 0 fn.insts, List.map_map, List.filter_map]
  rfl

theorem mem_definitions {fn : IrFunction} {d : RegAlloc} (hd : d ∈ definitions fn) :
    fn.DefinedAtIdx d.valueId d.start ∧ d.last = d.start := by
  rcases List.mem_append.mp hd with hd | hd
  · obtain ⟨p, hp, rfl⟩ := List.mem_map.mp hd
    exact ⟨.inl ⟨List.mem_map_of_mem hp, rfl⟩, rfl⟩
  · obtain ⟨i, hi, rfl⟩ := List.mem_map.mp hd
    obtain ⟨hi, h0⟩ := List.mem_filter.mp hi
    exact ⟨.inr ⟨i.1, List.mem_zipIdx_iff_getElem?.mp hi, rfl, by simpa using h0⟩, rfl⟩

theorem exists_definition {fn : IrFunction} {v : Int} {s : Nat} (h : fn.DefinedAtIdx v s) :
    ∃ d ∈ definitions fn, d.valueId = v ∧ d.start = s := by
  rcases h with ⟨hv, rfl⟩ | ⟨i, hi, rfl, h0⟩
  · obtain ⟨p, hp, rfl⟩ := List.mem_map.mp hv
    exact ⟨_, List.mem_append_left _ (List.mem_map_of_mem hp), rfl, rfl⟩
  · have hmem : (i, s) ∈ fn.insts.zipIdx := List.mem_zipIdx_iff_getElem?.mpr hi
    refine ⟨_, List.mem_append_right _ (List.mem_map_of_mem (List.mem_filter.mpr ⟨hmem, ?_⟩)),
      rfl, rfl⟩
    simpa using h0

/-- A computed range is a definition extended by all mentions. -/
theorem exists_definition_of_mem (fn : SsaFunction) {a : RegAlloc}
    (ha : a ∈ irX86ComputeLiveRanges fn.toIrFunction) :
    ∃ d ∈ definitions fn.toIrFunction,
      (mentionPairs fn.toIrFunction).foldl RegAlloc.mention d = a := by
  rw [computeLiveRanges_eq,
    foldl_extend_eq_map _ (definitions_valueIds fn.toIrFunction ▸ fn.nodup)] at ha
  exact List.mem_map.mp ha

/-- The range computed for a value is its textual range. -/
theorem range_iff_textRange (fn : SsaFunction) {a : RegAlloc}
    (ha : a ∈ irX86ComputeLiveRanges fn.toIrFunction) (k : Nat) :
    (a.start ≤ k ∧ k ≤ a.last) ↔ fn.TextRange a.valueId k := by
  have hnodup : ((definitions fn.toIrFunction).map (·.valueId)).Nodup :=
    definitions_valueIds fn.toIrFunction ▸ fn.nodup
  obtain ⟨d, hd, rfl⟩ := exists_definition_of_mem fn ha
  obtain ⟨hid, hstart, hlast⟩ := foldl_mention (mentionPairs fn.toIrFunction) d
  obtain ⟨hdef, hdl⟩ := mem_definitions hd
  rw [hid, hstart, hlast, hdl]
  simp only [mem_mentionPairs]
  constructor
  · rintro ⟨hs, hk | hk⟩
    · exact ⟨d.start, hdef, hs, .inl (Nat.le_antisymm hk hs)⟩
    · exact ⟨d.start, hdef, hs, .inr hk⟩
  · rintro ⟨s, hs, hsk, hk⟩
    obtain ⟨d', hd', hid', rfl⟩ := exists_definition hs
    have heq : d' = d := List.inj_on_of_nodup_map hnodup hd' hd hid'
    rw [heq] at hsk hk
    refine ⟨hsk, ?_⟩
    rcases hk with rfl | hk
    · exact .inl (Nat.le_refl _)
    · exact .inr hk

/-! ## The theorem -/

/-- Every place handed out is for one of the computed ranges. -/
theorem exists_range_of_mem_allocate {fn : IrFunction} {a : RegAlloc} (ha : a ∈ allocate fn) :
    ∃ r ∈ irX86ComputeLiveRanges fn, r.range = a.range := by
  have hmem : a.range ∈ (allocate fn).map RegAlloc.range := List.mem_map_of_mem ha
  rw [allocate, irLinearScanAlloc, scanFrom_range] at hmem
  obtain ⟨r, hr, heq⟩ := List.mem_map.mp hmem
  exact ⟨r, mem_regallocSortByStart.mp hr, heq⟩

theorem allocate_range_iff (fn : SsaFunction) {a : RegAlloc} (ha : a ∈ allocate fn.toIrFunction)
    (k : Nat) : (a.start ≤ k ∧ k ≤ a.last) ↔ fn.TextRange a.valueId k := by
  obtain ⟨r, hr, heq⟩ := exists_range_of_mem_allocate ha
  have hiff := range_iff_textRange fn hr k
  have hid : r.valueId = a.valueId := congrArg (·.1) heq
  have hstart : r.start = a.start := congrArg (·.2.1) heq
  have hlast : r.last = a.last := congrArg (·.2.2) heq
  rwa [hid, hstart, hlast] at hiff

theorem mem_valueIds_of_mem_allocate (fn : SsaFunction) {a : RegAlloc}
    (ha : a ∈ allocate fn.toIrFunction) : a.valueId ∈ fn.valueIds := by
  obtain ⟨r, hr, heq⟩ := exists_range_of_mem_allocate ha
  obtain ⟨d, hd, rfl⟩ := exists_definition_of_mem fn hr
  have hid : d.valueId = a.valueId := (foldl_mention _ d).1.symm.trans (congrArg (·.1) heq)
  rw [← hid, ← definitions_valueIds]
  exact List.mem_map_of_mem hd

/-- Where the textual ranges of values that are live together meet, the
allocation keeps these values apart. -/
theorem regalloc_sound (fn : SsaFunction) (h : RangesMeet fn.toIrFunction) :
    RegAllocSound fn.toIrFunction := by
  intro a ha b hb hne p hva hvb
  obtain ⟨k, hak, hbk⟩ := h a.valueId (mem_valueIds_of_mem_allocate fn ha) b.valueId
    (mem_valueIds_of_mem_allocate fn hb) hne p hva hvb
  have hover : a.Overlap b :=
    ⟨k, (allocate_range_iff fn ha k).mpr hak, (allocate_range_iff fn hb k).mpr hbk⟩
  exact linearScan_separates ha hb (fun hab => hne (hab ▸ rfl)) hover

/-- `fn add(a: int, b: int) -> int { a + b }` -/
def addFunction : SsaFunction where
  name := "lcn_add"
  returnType := .i64
  params := [⟨"a", .i64, 0⟩, ⟨"b", .i64, 1⟩]
  nextValue := 3
  blocks :=
    [{ label := some "entry", insts :=
      [{ id := 2, op := .add, type := .i64, operands := [0, 1] },
       { id := -1, op := .ret, type := .void, operands := [2] }] }]
  nodup := by decide

theorem regalloc_sound_add : RegAllocSound addFunction.toIrFunction := by
  -- All three ranges contain the first index.
  have hids : addFunction.valueIds = [0, 1, 2] := by decide
  have hrange : ∀ v ∈ addFunction.valueIds, addFunction.TextRange v 0 := by
    intro v hv
    have hcases : v = 0 ∨ v = 1 ∨ v = 2 := by simpa [hids] using hv
    refine ⟨0, ?_, Nat.le_refl 0, .inl rfl⟩
    rcases hcases with rfl | rfl | rfl
    · exact .inl ⟨by decide, rfl⟩
    · exact .inl ⟨by decide, rfl⟩
    · exact .inr ⟨_, rfl, rfl, by decide⟩
  exact regalloc_sound addFunction
    (fun v hv w hw _ _ _ _ => ⟨0, hrange v hv, hrange w hw⟩)

/-! ## A value carried around a loop -/

/-- `fn f(n: int) -> int { for i in 0..n { } 0 }` -/
def countFunction : IrFunction where
  name := "lcn_f"
  returnType := .i64
  params := [⟨"n", .i64, 0⟩]
  nextValue := 9
  blocks :=
    [{ label := some "entry", insts :=
      [{ id := 1, op := .constInt, type := .i64, immInt := 0 },
       { id := 2, op := .alloca, type := .ptr },
       { id := -1, op := .store, type := .void, operands := [1, 2] },
       { id := -1, op := .jmp, type := .void, targetBb := 1 }] },
     { label := some "for.cond", insts :=
      [{ id := 3, op := .load, type := .i64, operands := [2] },
       { id := 4, op := .cmpLt, type := .bool, operands := [3, 0] },
       { id := -1, op := .br, type := .void, operands := [4], targetBb := 2, falseBb := 4 }] },
     { label := some "for.body", insts :=
      [{ id := -1, op := .jmp, type := .void, targetBb := 3 }] },
     { label := some "for.inc", insts :=
      [{ id := 5, op := .load, type := .i64, operands := [2] },
       { id := 6, op := .constInt, type := .i64, immInt := 1 },
       { id := 7, op := .add, type := .i64, operands := [5, 6] },
       { id := -1, op := .store, type := .void, operands := [7, 2] },
       { id := -1, op := .jmp, type := .void, targetBb := 1 }] },
     { label := some "for.exit", insts :=
      [{ id := 8, op := .constInt, type := .i64, immInt := 0 },
       { id := -1, op := .ret, type := .void, operands := [8] }] }]

/-- In `for.inc` the loop bound is live, for the next test, and so is the counter. -/
theorem countFunction_live :
    countFunction.LiveAt 0 ⟨3, 1⟩ ∧ countFunction.LiveAt 5 ⟨3, 1⟩ := by
  constructor
  · have hcmp : countFunction.LiveAt 0 ⟨1, 1⟩ := .of_reads rfl (by decide)
    have hcond : countFunction.LiveAt 0 ⟨1, 0⟩ := .of_next rfl rfl (by decide) hcmp
    have hjmp : countFunction.LiveAt 0 ⟨3, 4⟩ := .of_jmp rfl rfl (by decide) hcond
    have hstore : countFunction.LiveAt 0 ⟨3, 3⟩ := .of_next rfl rfl (by decide) hjmp
    have hadd : countFunction.LiveAt 0 ⟨3, 2⟩ := .of_next rfl rfl (by decide) hstore
    exact .of_next rfl rfl (by decide) hadd
  · have hadd : countFunction.LiveAt 5 ⟨3, 2⟩ := .of_reads rfl (by decide)
    exact .of_next rfl rfl (by decide) hadd

/-- The loop bound loses its register in the body: its last mention is in the test. -/
theorem regalloc_loop : ¬ RegAllocSound countFunction := by
  intro h
  have hbound : ({ valueId := 0, reg := .rcx, start := 0, last := 5 } : RegAlloc) ∈
      allocate countFunction := by decide
  have hcounter : ({ valueId := 5, reg := .rcx, start := 8, last := 10 } : RegAlloc) ∈
      allocate countFunction := by decide
  exact h _ hbound _ hcounter (by decide) ⟨3, 1⟩ countFunction_live.1 countFunction_live.2
    (by decide)

end Limceron.X86
