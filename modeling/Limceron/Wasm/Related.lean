/-
# `Limceron.Wasm.Related` — a state of the IR and the state that stands for it

`Related` is the invariant of a run of the emitted code next to the run of the
IR.  An instruction inside a block keeps it if it assigns its own id alike on
both sides (`Related.step`); the copies of an edge keep it if they do what they
would do all at once (`Related.edge`).

An address is known by a table from allocas to the places of their slots, so
what is in memory is said apart from what is in the locals (`SlotsHold`).
-/
import Limceron.Wasm.IntBool

namespace Limceron.Wasm

/-- Where the slots of an activation are. -/
abbrev SlotTable := Int → Option Nat

/-! ## Slots in memory -/

/-- The slots taken since the bump pointer was `base` hold what the IR has in
them, and memory is untouched above the bump pointer. -/
structure SlotsHold (vars : Int → IrType) (base : Nat) (tbl : SlotTable) (slots : Int → Val)
    (s : Store) : Prop where
  base_le : base ≤ s.bump.toNat
  inside : s.bump.toNat ≤ memorySize
  zero : ∀ x, s.bump.toNat ≤ x → s.mem x = 0
  held : ∀ d a, tbl d = some a → base ≤ a ∧ a + 8 ≤ s.bump.toNat ∧
    ∃ w, Cell (vars d) (slots d) w ∧ s.mem.read a 8 = w
  apart : ∀ d d' a a', tbl d = some a → tbl d' = some a' → d ≠ d' → a + 8 ≤ a' ∨ a' + 8 ≤ a

namespace SlotsHold

variable {vars : Int → IrType} {base : Nat} {tbl : SlotTable} {slots : Int → Val} {s s' : Store}

/-- Events do not matter. -/
theorem of_same (h : SlotsHold vars base tbl slots s) (hb : s'.bump = s.bump)
    (hm : s'.mem = s.mem) : SlotsHold vars base tbl slots s' where
  base_le := by rw [hb]; exact h.base_le
  inside := by rw [hb]; exact h.inside
  zero := by rw [hb, hm]; exact h.zero
  held := by rw [hb, hm]; exact h.held
  apart := h.apart

theorem read_zero {mem : Memory} {a n : Nat} (h : ∀ x, a ≤ x → mem x = 0) : mem.read a n = 0 := by
  refine BitVec.eq_of_getLsbD_eq fun i hi => ?_
  rw [Memory.read_getLsbD, h _ (by omega)]
  simp

/-- A fresh slot, holding zero. -/
theorem alloca (h : SlotsHold vars base tbl slots s) (d : Int)
    (hfit : s.bump.toNat + 8 ≤ memorySize) (hb : s'.bump = s.bump + 8#32) (hm : s'.mem = s.mem) :
    SlotsHold vars base (Function.update tbl d (some s.bump.toNat))
      (Function.update slots d (.word 0)) s' := by
  have hbump : s'.bump.toNat = s.bump.toNat + 8 := by
    have hpage : memorySize = 65536 := rfl
    rw [hb, BitVec.toNat_add, BitVec.toNat_ofNat]
    omega
  have hle := h.base_le
  refine ⟨by omega, by omega, ?_, ?_, ?_⟩
  · intro x hx
    rw [hm]
    exact h.zero x (by omega)
  · intro e a ha
    by_cases he : e = d
    · subst he
      rw [Function.update_self, Option.some.injEq] at ha
      subst ha
      refine ⟨hle, by omega, 0, ⟨?_, fun _ => .inl rfl⟩, ?_⟩
      · rw [Function.update_self]
      · rw [hm]
        exact read_zero h.zero
    · rw [Function.update_of_ne he] at ha
      obtain ⟨hlo, hhi, w, hw, hr⟩ := h.held e a ha
      refine ⟨hlo, by omega, w, ?_, by rw [hm]; exact hr⟩
      rw [Function.update_of_ne he]
      exact hw
  · intro e e' a a' ha ha' hne
    have hbelow : ∀ e a, e ≠ d → Function.update tbl d (some s.bump.toNat) e = some a →
        a + 8 ≤ s.bump.toNat := by
      intro e a he ha
      rw [Function.update_of_ne he] at ha
      exact (h.held e a ha).2.1
    by_cases he : e = d
    · subst he
      rw [Function.update_self, Option.some.injEq] at ha
      have := hbelow e' a' hne.symm ha'
      omega
    · by_cases he' : e' = d
      · subst he'
        rw [Function.update_self, Option.some.injEq] at ha'
        have := hbelow e a he ha
        omega
      · rw [Function.update_of_ne he] at ha
        rw [Function.update_of_ne he'] at ha'
        exact h.apart e e' a a' ha ha' hne

/-- A store to one slot, of the width of its variable. -/
theorem store (h : SlotsHold vars base tbl slots s) {d : Int} {a : Nat} (hd : tbl d = some a)
    {v : Val} {w : BitVec 64} (hw : Cell (vars d) v w) {n : Nat}
    (hn : n = 8 ∨ n = 4 ∧ vars d = .bool) (hb : s'.bump = s.bump)
    (hm : s'.mem = s.mem.write a w n) :
    SlotsHold vars base tbl (Function.update slots d v) s' := by
  obtain ⟨hlo, hhi, w₀, hw₀, hr₀⟩ := h.held d a hd
  have hn8 : n ≤ 8 := by omega
  refine ⟨by rw [hb]; exact h.base_le, by rw [hb]; exact h.inside, ?_, ?_, h.apart⟩
  · intro x hx
    rw [hb] at hx
    rw [hm, Memory.write_other _ _ _ _ _ (by omega)]
    exact h.zero x hx
  · intro e a' ha'
    by_cases he : e = d
    · subst he
      obtain rfl : a' = a := Option.some.inj (ha'.symm.trans hd)
      refine ⟨hlo, by rw [hb]; exact hhi, w, by rw [Function.update_self]; exact hw, ?_⟩
      rw [hm]
      rcases hn with rfl | ⟨rfl, hbool⟩
      · exact Memory.read_write_self _ _ _
      · exact Memory.read_write_narrow (Memory.narrow_bool (hw.word hbool))
          (Memory.narrow_bool (hw₀.word hbool)) hr₀
    · obtain ⟨hlo', hhi', w', hw', hr'⟩ := h.held e a' ha'
      have hapart := h.apart e d a' a ha' hd he
      refine ⟨hlo', by rw [hb]; exact hhi', w', ?_, ?_⟩
      · rw [Function.update_of_ne he]
        exact hw'
      · rw [hm, Memory.read_write_other (by omega)]
        exact hr'

end SlotsHold

/-! ## What a run does to the store -/

namespace RunEvent

/-- The instance logged the same. -/
def Matches : RunEvent → StoreEvent → Prop
  | .visit b phis, .visit bb locals =>
      (bb.toNat : Int) = b ∧ ∀ pv ∈ phis, pv.2 = .word (locals pv.1)
  | .slot, .slot _ => True
  | _, _ => False

end RunEvent

def StoreEvent.isLogged : StoreEvent → Bool
  | .visit _ _ | .slot _ => true
  | _ => false

/-- From `s` to `s'`, a run with log `l` has taken its slots, has left what is
below `base` and has logged its visits. -/
structure Ended (base : Nat) (s : Store) (l : List RunEvent) (s' : Store) : Prop where
  bump : s'.bump.toNat = s.bump.toNat + 8 * slotCount l
  kept : ∀ x < base, s'.mem x = s.mem x
  zero : ∀ x, s'.bump.toNat ≤ x → s'.mem x = 0
  events : ∃ es, s'.events = s.events ++ es ∧
    List.Forall₂ RunEvent.Matches l (es.filter StoreEvent.isLogged)

namespace Ended

variable {base base' : Nat} {s s' s'' : Store} {l l' : List RunEvent}

theorem refl (base : Nat) (hz : ∀ x, s.bump.toNat ≤ x → s.mem x = 0) : Ended base s [] s where
  bump := rfl
  kept _ _ := rfl
  zero := hz
  events := ⟨[], (List.append_nil _).symm, .nil⟩

theorem trans (h : Ended base s l s') (h' : Ended base s' l' s'') :
    Ended base s (l ++ l') s'' where
  bump := by
    rw [h'.bump, h.bump, slotCount_append]
    omega
  kept x hx := (h'.kept x hx).trans (h.kept x hx)
  zero := h'.zero
  events := by
    obtain ⟨es, hes, hl⟩ := h.events
    obtain ⟨es', hes', hl'⟩ := h'.events
    refine ⟨es ++ es', by rw [hes', hes, List.append_assoc], ?_⟩
    rw [List.filter_append]
    exact List.rel_append hl hl'

theorem mono (h : Ended base s l s') (hle : base' ≤ base) : Ended base' s l s' :=
  { h with kept := fun x hx => h.kept x (Nat.lt_of_lt_of_le hx hle) }

/-- A call leaves the slots of its caller. -/
theorem slotsHold {vars : Int → IrType} {tbl : SlotTable} {slots : Int → Val}
    (h : Ended s.bump.toNat s l s') (hs : SlotsHold vars base tbl slots s)
    (hfit : s.bump.toNat + 8 * slotCount l ≤ memorySize) : SlotsHold vars base tbl slots s' where
  base_le := by
    have := hs.base_le
    have := h.bump
    omega
  inside := by
    rw [h.bump]
    exact hfit
  zero := h.zero
  held d a ha := by
    obtain ⟨hlo, hhi, w, hw, hr⟩ := hs.held d a ha
    refine ⟨hlo, by have := h.bump; omega, w, hw, ?_⟩
    rw [← hr]
    exact Memory.read_congr fun x _ hx => h.kept x (by omega)
  apart := hs.apart

end Ended

/-! ## The relation -/

/-- The result of an instruction is in its local; that of an alloca is the
address of its slot. -/
def Holds (tbl : SlotTable) (j : IrInst) (fr : Frame) (st : St) : Prop :=
  if j.op = .alloca then
    fr.env j.id = .addr j.id ∧ ∃ a, tbl j.id = some a ∧ st.locals j.id = BitVec.ofNat 64 a
  else j.type ≠ .void → Cell j.type (fr.env j.id) (st.locals j.id)

/-- At `p`, in a block entered from `prev` with environment `entry`. -/
structure Related (fn : IrFunction) (vars : Int → IrType) (base : Nat) (tbl : SlotTable)
    (p : Point) (entry : Int → Val) (prev : Int) (fr : Frame) (st : St) : Prop where
  reach : fn.Reaches p
  stack : st.stack = []
  params : ∀ pa ∈ fn.params, Cell pa.type (fr.env pa.valueId) (st.locals pa.valueId)
  insts : ∀ q j, fn.instAt q = some j → 0 ≤ j.id → Holds tbl j fr st ∨ fn.Avoids q p
  phis : ∀ k i, fn.instAt ⟨p.bb, k⟩ = some i → p.idx ≤ k → i.op = .phi →
    Cell i.type (phiValue entry prev i.phiArgs) (st.locals i.id)
  slots : SlotsHold vars base tbl fr.slots st.store

section
variable {m : IrModule} {fn : IrFunction} {vars : Int → IrType} {base : Nat} {tbl tbl' : SlotTable}
  {p : Point} {entry : Int → Val} {prev : Int} {fr fr' : Frame} {st st' : St}

theorem Holds.congr {j : IrInst} (h : Holds tbl j fr st) (henv : fr'.env j.id = fr.env j.id)
    (hloc : st'.locals j.id = st.locals j.id) (htbl : tbl' j.id = tbl j.id) :
    Holds tbl' j fr' st' := by
  rw [Holds, henv, hloc, htbl]
  exact h

variable (hfn : fn.IntBool m vars)
include hfn

theorem IntBool.type_nonneg {v : Int} {τ : IrType} (h : fn.HasType v τ) : 0 ≤ v := by
  rcases h with ⟨pa, hpa, rfl, -⟩ | ⟨q, j, -, hid, rfl, -⟩
  · exact (hfn.params pa hpa).2
  · exact hid

/-- A typed value where it is defined. -/
theorem Related.value (h : Related fn vars base tbl p entry prev fr st) {v : Int} {τ : IrType}
    (hd : fn.DefinedAt v p) (ht : fn.HasType v τ) (hτ : τ.scalar = true) :
    Cell τ (fr.env v) (st.locals v) := by
  rcases ht with ⟨pa, hpa, rfl, rfl⟩ | ⟨q, j, hq, hid, rfl, hop, rfl⟩
  · exact h.params pa hpa
  · have hnot : ¬ fn.Avoids q p := by
      rcases hd with hparam | ⟨q', j', hq', hid', hj', hdom⟩
      · exact absurd hparam (hfn.ssa.params q j hq hid)
      · rwa [← hfn.ssa.unique q' q j' j hq' hq hid' hj']
    have hholds := (h.insts q j hq hid).resolve_right hnot
    rw [Holds, if_neg hop] at hholds
    refine hholds ?_
    rintro hvoid
    rw [hvoid] at hτ
    cases hτ

/-- The slot of an alloca that a load or store names. -/
theorem Related.slot (h : Related fn vars base tbl p entry prev fr st) {q : Point} {j : IrInst}
    (hd : fn.DefinedAt j.id p) (hq : fn.instAt q = some j) (hop : j.op = .alloca) :
    fr.env j.id = .addr j.id ∧ ∃ a, tbl j.id = some a ∧ st.locals j.id = BitVec.ofNat 64 a := by
  have hid : 0 ≤ j.id := by simpa [hop, IrOpcode.hasResult] using hfn.ssa.result q j hq
  have hnot : ¬ fn.Avoids q p := by
    rcases hd with hparam | ⟨q', j', hq', hid', hj', hdom⟩
    · exact absurd hparam (hfn.ssa.params q j hq hid)
    · rwa [← hfn.ssa.unique q' q j' j hq' hq hid' hj']
  have hholds := (h.insts q j hq hid).resolve_right hnot
  rwa [Holds, if_pos hop] at hholds

/-- An instruction inside a block assigns its own id and no other. -/
theorem Related.step (h : Related fn vars base tbl p entry prev fr st) {i : IrInst}
    (hi : fn.instAt p = some i) (hnt : i.isTerminator = false)
    (henv : ∀ x, x ≠ i.id → fr'.env x = fr.env x)
    (hloc : ∀ x, x ≠ i.id → st'.locals x = st.locals x)
    (htbl : ∀ x, x ≠ i.id → tbl' x = tbl x) (hown : 0 ≤ i.id → Holds tbl' i fr' st')
    (hstack : st'.stack = []) (hslots : SlotsHold vars base tbl' fr'.slots st'.store) :
    Related fn vars base tbl' p.next entry prev fr' st' where
  reach := .step h.reach id ⟨i, hi, .inr (.inr ⟨hnt, rfl⟩)⟩
  stack := hstack
  params := by
    intro pa hpa
    have hne : pa.valueId ≠ i.id := by
      intro heq
      exact hfn.ssa.params p i hi (heq ▸ (hfn.params pa hpa).2) ⟨pa, hpa, heq⟩
    rw [henv _ hne, hloc _ hne]
    exact h.params pa hpa
  insts := by
    intro q j hq hid
    refine Paths.Avoid.invariant ⟨i, hi, .inr (.inr ⟨hnt, rfl⟩)⟩ ?_ ?_ (h.insts q j hq hid)
    · rintro rfl
      obtain rfl : i = j := Option.some.inj (hi.symm.trans hq)
      exact hown hid
    · intro hpq hold
      have hne : j.id ≠ i.id := fun heq => hpq (hfn.ssa.unique q p j i hq hi hid heq).symm
      exact hold.congr (henv _ hne) (hloc _ hne) (htbl _ hne)
  phis := by
    intro k j hj hk hop
    have hid : 0 ≤ j.id := by simpa [hop, IrOpcode.hasResult] using hfn.ssa.result _ j hj
    have hne : j.id ≠ i.id := by
      intro heq
      have hpt := hfn.ssa.unique _ p j i hj hi hid heq
      have : k = p.idx := congrArg Point.idx hpt
      have : p.idx + 1 ≤ k := hk
      omega
    rw [hloc _ hne]
    exact h.phis k j hj (Nat.le_of_succ_le hk) hop
  slots := hslots

end

/-! ## Edges -/

/-- The copies for an edge from `src` to a block: phi and source. -/
def phiMoves (src : Int) (is : List IrInst) : List (Int × Int) :=
  is.filterMap fun i => if i.op = .phi then (phiSource src i).map (i.id, ·) else none

theorem mem_phiMoves {src : Int} {is : List IrInst} {mv : Int × Int} :
    mv ∈ phiMoves src is ↔ ∃ i ∈ is, i.op = .phi ∧ i.id = mv.1 ∧ phiSource src i = some mv.2 := by
  rw [phiMoves, List.mem_filterMap]
  constructor
  · rintro ⟨i, hi, h⟩
    split at h
    · obtain ⟨v, hv, rfl⟩ := Option.map_eq_some_iff.mp h
      exact ⟨i, hi, ‹_›, rfl, hv⟩
    · cases h
  · rintro ⟨i, hi, hop, hid, hv⟩
    refine ⟨i, hi, ?_⟩
    rw [if_pos hop, hv, Option.map_some, hid]

section
variable {m : IrModule} {fn : IrFunction} {vars : Int → IrType} {base : Nat} {tbl : SlotTable}
  {p : Point} {entry : Int → Val} {prev : Int} {fr : Frame} {st st' : St} {t : Int}
  {is : List IrInst}

theorem instAt_of_blockInsts (his : fn.blockInsts t = some is) (k : Nat) :
    fn.instAt ⟨t, k⟩ = is[k]? := by
  rw [IrFunction.instAt, his, Option.bind_some]

variable (hfn : fn.IntBool m vars)
include hfn

/-- The pair of a phi for an edge into its block. -/
theorem IntBool.phiSource {q : Point} {i : IrInst} (hi : fn.instAt q = some i) (hop : i.op = .phi)
    (hs : fn.Succ p (.start q.bb)) :
    ∃ v, Wasm.phiSource p.bb i = some v ∧ fn.DefinedAt v p ∧ fn.HasType v i.type ∧
      i.type.scalar = true ∧ ∀ env, phiValue env p.bb i.phiArgs = env v := by
  obtain ⟨v₀, hv₀⟩ := hfn.phiPairs q i p hi hop hs
  have htyped := hfn.typed q i hi
  rw [IrFunction.Typed, hop] at htyped
  obtain ⟨a, ha⟩ : ∃ a, i.phiArgs.find? (fun a => a.2 == p.bb) = some a :=
    Option.isSome_iff_exists.mp (List.find?_isSome.mpr ⟨_, hv₀, by simp⟩)
  have hmem := List.mem_of_find?_eq_some ha
  have hblock : a.2 = p.bb := by simpa using List.find?_some ha
  have hnn := IntBool.type_nonneg hfn (htyped.2 a hmem)
  refine ⟨a.1, ?_, ?_, htyped.2 a hmem, htyped.1, fun env => ?_⟩
  · rw [Wasm.phiSource, ha]
    exact if_neg (Int.not_lt.mpr hnn)
  · exact hfn.ssa.phis q i a.1 a.2 p hi hop hmem hblock.symm hs
  · rw [phiValue, ha]

/-- No two phis of a block have the same id. -/
theorem IntBool.phiMoves_nodup (his : fn.blockInsts t = some is) (src : Int) :
    ((phiMoves src is).map Prod.fst).Nodup := by
  rw [phiMoves, List.Nodup, List.pairwise_map, List.pairwise_filterMap, List.pairwise_iff_getElem]
  intro k k' hk hk' hlt mv hmv mv' hmv'
  split at hmv
  case isFalse => cases hmv
  split at hmv'
  case isFalse => cases hmv'
  obtain ⟨v, -, rfl⟩ := Option.map_eq_some_iff.mp hmv
  obtain ⟨v', -, rfl⟩ := Option.map_eq_some_iff.mp hmv'
  intro heq
  have hi : fn.instAt ⟨t, k⟩ = some is[k] := by
    rw [instAt_of_blockInsts his, List.getElem?_eq_getElem hk]
  have hi' : fn.instAt ⟨t, k'⟩ = some is[k'] := by
    rw [instAt_of_blockInsts his, List.getElem?_eq_getElem hk']
  have hid : 0 ≤ is[k].id := by
    simpa [‹is[k].op = .phi›, IrOpcode.hasResult] using hfn.ssa.result _ _ hi
  have := congrArg Point.idx (hfn.ssa.unique _ _ _ _ hi hi' hid heq)
  simp only at this
  omega

/-- The copies at the end of a block, where they do what they would do at once. -/
theorem Related.edge (h : Related fn vars base tbl p entry prev fr st) {i : IrInst}
    (hi : fn.instAt p = some i) (hterm : i.isTerminator = true) (hs : fn.Succ p (.start t))
    (his : fn.blockInsts t = some is) (hk : Copies.Kept (phiMoves p.bb is) fr.env)
    (hloc : st'.locals = Copies.inOrder (phiMoves p.bb is) st.locals) (hstack : st'.stack = [])
    (hstore : st'.store = st.store) :
    Related fn vars base tbl (.start t) fr.env p.bb fr st' := by
  have hsource : ∀ mv ∈ phiMoves p.bb is, fr.env mv.2 = .word (st.locals mv.2) := by
    intro mv hmv
    obtain ⟨j, hj, hop, -, hsrc⟩ := mem_phiMoves.mp hmv
    obtain ⟨k, hk, rfl⟩ := List.mem_iff_getElem.mp hj
    have hjt : fn.instAt ⟨t, k⟩ = some is[k] := by
      rw [instAt_of_blockInsts his, List.getElem?_eq_getElem hk]
    obtain ⟨v, hv, hd, ht, hsc, -⟩ := IntBool.phiSource hfn hjt hop hs
    rw [hsrc] at hv
    obtain rfl := Option.some.inj hv
    exact (h.value hfn hd ht hsc).val
  have hkept : Copies.Kept (phiMoves p.bb is) st.locals := by
    refine List.Pairwise.imp_of_mem ?_ hk
    intro mv mv' hmv hmv' hold heq
    have hword := hold heq
    rw [hsource mv hmv, ← heq, hsource mv' hmv'] at hword
    rw [Val.word.inj hword, heq]
  have hatOnce := (Copies.atOnce_iff (IntBool.phiMoves_nodup hfn his p.bb)).mpr hkept
  have hid : ∀ q j, fn.instAt q = some j → j.op = .phi → 0 ≤ j.id := by
    intro q j hj hop
    simpa [hop, IrOpcode.hasResult] using hfn.ssa.result q j hj
  have hother : ∀ x, (∀ k j, fn.instAt ⟨t, k⟩ = some j → j.op = .phi → j.id ≠ x) →
      st'.locals x = st.locals x := by
    intro x hx
    rw [hloc]
    refine Copies.inOrder_other _ ?_
    intro mv hmv
    obtain ⟨j, hj, hop, hid, -⟩ := mem_phiMoves.mp hmv
    obtain ⟨k, hk, rfl⟩ := List.mem_iff_getElem.mp hj
    rw [← hid]
    exact hx k _ (by rw [instAt_of_blockInsts his, List.getElem?_eq_getElem hk]) hop
  have hreach : fn.Reaches (.start t) := .step h.reach id hs
  refine ⟨hreach, hstack, ?_, ?_, ?_, by rw [hstore]; exact h.slots⟩
  · intro pa hpa
    rw [hother pa.valueId]
    · exact h.params pa hpa
    · intro k j hj hop heq
      exact hfn.ssa.params _ j hj (hid _ j hj hop) ⟨pa, hpa, heq.symm⟩
  · intro q j hq hjid
    by_cases hphi : q.bb = t ∧ j.op = .phi
    · obtain ⟨rfl, -⟩ := hphi
      exact .inr (IrFunction.avoids_of_reaches hreach (Nat.zero_le q.idx))
    · refine Paths.Avoid.invariant hs ?_ ?_ (h.insts q j hq hjid)
      · rintro rfl
        obtain rfl : i = j := Option.some.inj (hi.symm.trans hq)
        have hres := hfn.ssa.result p i hi
        have hno : i.op.hasResult = false := by
          simp only [IrInst.isTerminator, Bool.or_eq_true, beq_iff_eq] at hterm
          rcases hterm with (hop | hop) | hop <;> rw [hop] <;> rfl
        rw [hno, if_neg Bool.false_ne_true] at hres
        omega
      · intro _ hold
        refine hold.congr rfl (hother j.id ?_) rfl
        intro k j' hj' hop heq
        have hpt := hfn.ssa.unique _ q j' j hj' hq (hid _ j' hj' hop) heq
        subst hpt
        obtain rfl : j' = j := Option.some.inj (hj'.symm.trans hq)
        exact hphi ⟨rfl, hop⟩
  · intro k j hj _ hop
    obtain ⟨v, hv, hd, ht, hsc, hval⟩ := IntBool.phiSource hfn hj hop hs
    have hjis : j ∈ is := by
      rw [show fn.instAt ⟨(Point.start t).bb, k⟩ = is[k]? from instAt_of_blockInsts his k] at hj
      exact List.mem_of_getElem? hj
    rw [hval, hloc, hatOnce (j.id, v) (mem_phiMoves.mpr ⟨j, hjis, hop, rfl, hv⟩)]
    exact h.value hfn hd ht hsc

end

end Limceron.Wasm
