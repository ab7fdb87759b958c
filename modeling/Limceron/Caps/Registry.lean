/-
# `Limceron.Caps.Registry` — capabilities, their masks and their `CAP_` names

`codegen_generate` prints one `#define CAP_GROUP_NAME (1ULL << bit)` for each
capability it meets:

| pass | the capabilities |
| :-- | :-- |
| 1 | the items of the `capability` blocks, in order |
| 1b | the dotted entries of the agents' `capabilities` lists not found in the table |

The table `caps` holds 256 entries, the bit comes from a counter, and the name is
the group and the item in upper case, cut to a buffer.  `codegen_eq_emitted`
says what the passes leave behind; up to 64 capabilities the list of them is
`Program.declared`, which reads the program only.
-/
import Limceron.Lib.Flags

namespace Limceron.Caps

/-- A NUL-terminated string of the compiler. -/
abbrev CString := List Char

/-! ## Declarations -/

/-- A member of a `capability` block. -/
inductive CapMember where
  | item (name : CString)
  /-- an `allow`, `deny` or `default` rule -/
  | rule (name : Option CString)
  deriving DecidableEq

structure CapGroup where
  name : CString
  params : List CapMember
  deriving DecidableEq

/-- The value of a field: `[a.b, c.d]` or anything else. -/
inductive FieldValue where
  | array (elems : List CString)
  | other
  deriving DecidableEq

structure Field where
  name : CString
  value : FieldValue
  deriving DecidableEq

structure Agent where
  name : CString
  fields : List Field
  deriving DecidableEq

structure Tool where
  name : CString
  fields : List Field
  deriving DecidableEq

/-- The declarations the capability fences read.  `register_declarations` rejects
a second tool of the same name, and so does the C compiler for those of skills. -/
structure Program where
  capabilities : List CapGroup
  agents : List Agent
  tools : List Tool
  skillTools : List Tool
  distinct : ((tools ++ skillTools).map (·.name)).Nodup

def capabilitiesField : CString := "capabilities".toList

def requiresField : CString := "requires".toList

def Field.elems (f : Field) : List CString :=
  match f.value with
  | .array elems => elems
  | .other => []

def Field.isArray (f : Field) : Bool :=
  match f.value with
  | .array _ => true
  | .other => false

/-- All the entries listed under `name`. -/
def allEntries (name : CString) (fields : List Field) : List CString :=
  (fields.filter (fun f => decide (f.name = name))).flatMap Field.elems

/-! ## Names -/

/-- `c - 32` on a lower-case letter. -/
def upper (c : Char) : Char :=
  if 'a' ≤ c ∧ c ≤ 'z' then Char.ofNat (c.toNat - 32) else c

/-- `cg_cap_define`: the group stops at offset 240 of the buffer, the name at 254. -/
def cgCapDefine (group name : CString) : CString :=
  let start := "CAP_".toList ++ (group.take 236).map upper ++ ['_']
  start ++ (name.take (254 - start.length)).map upper

/-- `strchr(q, '.')`: what stands before and after the first dot. -/
def splitDot (q : CString) : Option (CString × CString) :=
  if '.' ∈ q then some (q.takeWhile (· ≠ '.'), (q.dropWhile (· ≠ '.')).tail) else none

/-- `group_buf[128]`. -/
def groupBuf (group : CString) : CString := group.take 127

/-- `make_qualified`. -/
def makeQualified (group name : CString) : CString := group ++ '.' :: name

/-! ## The passes -/

structure CapEntry where
  group : CString
  name : CString
  bit : Nat
  deriving DecidableEq

/-- A capability and the group its table entry is made of. -/
structure Capability where
  group : CString
  name : CString
  kept : CString
  deriving DecidableEq

def Capability.define (c : Capability) : CString := cgCapDefine c.kept c.name

/-- A printed `#define`. -/
structure CapLine where
  cap : Capability
  bit : Nat
  deriving DecidableEq

def CapLine.flag (l : CapLine) : Flags.Flag CString := ⟨l.cap.define, l.bit⟩

structure CodeGen where
  caps : List CapEntry := []
  nextCapBit : Nat := 0
  defines : List CapLine := []
  deriving DecidableEq

def cgMaxCaps : Nat := 256

def cgRegisterCap (g : CodeGen) (group name : CString) : CodeGen :=
  if cgMaxCaps ≤ g.caps.length then g
  else { g with caps := g.caps ++ [⟨group, name, g.nextCapBit⟩], nextCapBit := g.nextCapBit + 1 }

def CodeGen.emit (g : CodeGen) (c : Capability) (bit : Nat) : CodeGen :=
  { g with defines := g.defines ++ [⟨c, bit⟩] }

/-- `cg_capability` at one member; rules are not bit flags. -/
def cgCapabilityItem (group : CString) (g : CodeGen) : CapMember → CodeGen
  | .rule _ => g
  | .item name =>
      let g := cgRegisterCap g group name
      g.emit ⟨group, name, group⟩ (g.caps.length - 1)

def cgCapability (g : CodeGen) (cap : CapGroup) : CodeGen :=
  cap.params.foldl (cgCapabilityItem cap.name) g

def CodeGen.hasCap (g : CodeGen) (group name : CString) : Bool :=
  g.caps.any fun e => decide (e.group = group ∧ e.name = name)

/-- Pass 1b at one entry of a list. -/
def autoRegister (g : CodeGen) (q : CString) : CodeGen :=
  match splitDot q with
  | none => g
  | some (group, name) =>
      if g.hasCap group name then g
      else
        let g := cgRegisterCap g (groupBuf group) name
        g.emit ⟨group, name, groupBuf group⟩ (g.nextCapBit - 1)

def autoRegisterField (g : CodeGen) (f : Field) : CodeGen :=
  if f.name = capabilitiesField then f.elems.foldl autoRegister g else g

def autoRegisterAgent (g : CodeGen) (a : Agent) : CodeGen :=
  a.fields.foldl autoRegisterField g

/-- Passes 1 and 1b of `codegen_generate`. -/
def Program.codegen (P : Program) : CodeGen :=
  P.agents.foldl autoRegisterAgent (P.capabilities.foldl cgCapability {})

/-- `cg_lookup_cap`. -/
def cgLookupCap (g : CodeGen) (q : CString) : Option CString :=
  (splitDot q).map fun (group, name) =>
    if g.hasCap group name then cgCapDefine group name else cgCapDefine (groupBuf group) name

/-- The macros of the emitted text. -/
def CodeGen.table (g : CodeGen) : List (Flags.Flag CString) := g.defines.map CapLine.flag

/-! ## What a program declares -/

def CapMember.item? : CapMember → Option CString
  | .item name => some name
  | .rule _ => none

def Program.blockCaps (P : Program) : List Capability :=
  P.capabilities.flatMap fun G =>
    (G.params.filterMap CapMember.item?).map fun n => ⟨G.name, n, G.name⟩

/-- The dotted entries of the agents' lists. -/
def Program.agentEntries (P : Program) : List (CString × CString) :=
  (P.agents.flatMap fun A => allEntries capabilitiesField A.fields).filterMap splitDot

/-- Some capability of the list is kept as `group.name`. -/
def keeps (ds : List Capability) (group name : CString) : Bool :=
  ds.any fun c => decide (c.kept = group ∧ c.name = name)

/-- An entry that is not there yet declares its capability. -/
def addInline (ds : List Capability) (q : CString × CString) : List Capability :=
  if keeps ds q.1 q.2 then ds else ds ++ [⟨q.1, q.2, groupBuf q.1⟩]

/-- The capabilities of a program: those of its blocks, then those its agents
name inline. -/
def Program.declared (P : Program) : List Capability :=
  P.agentEntries.foldl addInline P.blockCaps

/-- The `CAP_` name of a capability reference. -/
def Program.capName (P : Program) (q : CString) : Option CString :=
  (splitDot q).map fun (group, name) =>
    if keeps P.declared group name then cgCapDefine group name
    else cgCapDefine (groupBuf group) name

/-! ## What the passes leave behind -/

/-- The state after the capabilities `ds`: a table cut at 256 entries, whose
counter then stays. -/
def stateOf (ds : List Capability) : CodeGen where
  caps := (ds.take cgMaxCaps).zipIdx.map fun c => ⟨c.1.kept, c.1.name, c.2⟩
  nextCapBit := min ds.length cgMaxCaps
  defines := ds.zipIdx.map fun c => ⟨c.1, min c.2 (cgMaxCaps - 1)⟩

/-- `addInline` with the table in place of the whole list. -/
def addEntry (ds : List Capability) (q : CString × CString) : List Capability :=
  if keeps (ds.take cgMaxCaps) q.1 q.2 then ds else ds ++ [⟨q.1, q.2, groupBuf q.1⟩]

/-- The capabilities in the order of their `#define` lines. -/
def Program.emitted (P : Program) : List Capability :=
  P.agentEntries.foldl addEntry P.blockCaps

theorem stateOf_caps_length (ds : List Capability) :
    (stateOf ds).caps.length = min ds.length cgMaxCaps := by
  simp [stateOf, Nat.min_comm]

theorem stateOf_nil : stateOf [] = {} := rfl

theorem stateOf_hasCap (ds : List Capability) (group name : CString) :
    (stateOf ds).hasCap group name = keeps (ds.take cgMaxCaps) group name := by
  rw [CodeGen.hasCap, keeps, stateOf, List.any_map]
  conv_rhs => rw [← List.zipIdx_map_fst 0 (ds.take cgMaxCaps), List.any_map]
  rfl

/-- Registering a capability and printing its line. -/
theorem stateOf_snoc (ds : List Capability) (c : Capability) :
    (cgRegisterCap (stateOf ds) c.kept c.name).emit c (min ds.length (cgMaxCaps - 1)) =
      stateOf (ds ++ [c]) := by
  have hlen := stateOf_caps_length ds
  have hdefines : (stateOf ds).defines ++ [⟨c, min ds.length (cgMaxCaps - 1)⟩] =
      (stateOf (ds ++ [c])).defines := by
    simp [stateOf, List.zipIdx_append]
  rw [cgRegisterCap]
  split
  case isTrue hfull =>
    have hle : cgMaxCaps ≤ ds.length := by omega
    have htake : (ds ++ [c]).take cgMaxCaps = ds.take cgMaxCaps :=
      List.take_append_of_le_length hle
    rw [CodeGen.emit, hdefines]
    simp only [stateOf, htake, List.length_append, List.length_singleton, CodeGen.mk.injEq,
      true_and, and_true]
    omega
  case isFalse hroom =>
    have hlt : ds.length < cgMaxCaps := by omega
    have htake : ds.take cgMaxCaps = ds := List.take_of_length_le (by omega)
    have htake' : (ds ++ [c]).take cgMaxCaps = ds ++ [c] :=
      List.take_of_length_le (by simp; omega)
    rw [CodeGen.emit]
    simp only [hdefines]
    simp only [stateOf, htake, htake', List.zipIdx_append, List.map_append, List.zipIdx_singleton,
      List.map_cons, List.map_nil, List.length_append, List.length_singleton, CodeGen.mk.injEq,
      and_true, Nat.zero_add]
    rw [Nat.min_eq_left (by omega), Nat.min_eq_left (by omega)]
    exact ⟨rfl, rfl⟩

/-- After a registration there is an entry, and the counter is their number. -/
theorem register_count (ds : List Capability) (c : Capability) :
    (cgRegisterCap (stateOf ds) c.kept c.name).caps.length - 1 = min ds.length (cgMaxCaps - 1) ∧
      (cgRegisterCap (stateOf ds) c.kept c.name).nextCapBit - 1 =
        min ds.length (cgMaxCaps - 1) := by
  have hlen := stateOf_caps_length ds
  have hnext : (stateOf ds).nextCapBit = min ds.length cgMaxCaps := rfl
  have hpos : cgMaxCaps = 256 := rfl
  rw [cgRegisterCap]
  split
  case isTrue hfull => omega
  case isFalse hroom =>
    simp only [List.length_append, List.length_singleton]
    omega

theorem cgCapability_stateOf (G : CapGroup) (ds : List Capability) :
    cgCapability (stateOf ds) G =
      stateOf (ds ++ (G.params.filterMap CapMember.item?).map fun n => ⟨G.name, n, G.name⟩) := by
  rw [cgCapability]
  induction G.params generalizing ds with
  | nil => simp
  | cons m ms ih =>
      cases m with
      | rule name => simpa [cgCapabilityItem, List.filterMap_cons, CapMember.item?] using ih ds
      | item name =>
          have hc := register_count ds ⟨G.name, name, G.name⟩
          have hs := stateOf_snoc ds ⟨G.name, name, G.name⟩
          simp only at hc hs
          rw [List.foldl_cons, cgCapabilityItem]
          simp only [hc.1, hs, ih, List.filterMap_cons, CapMember.item?, List.map_cons,
            List.append_assoc, List.singleton_append]

theorem blocks_stateOf (Gs : List CapGroup) (ds : List Capability) :
    Gs.foldl cgCapability (stateOf ds) = stateOf (ds ++ Gs.flatMap fun G =>
      (G.params.filterMap CapMember.item?).map fun n => ⟨G.name, n, G.name⟩) := by
  induction Gs generalizing ds with
  | nil => simp
  | cons G Gs ih => rw [List.foldl_cons, cgCapability_stateOf, ih]; simp

theorem autoRegister_stateOf (q : CString) (ds : List Capability) :
    autoRegister (stateOf ds) q = stateOf ((splitDot q).toList.foldl addEntry ds) := by
  rw [autoRegister]
  cases splitDot q with
  | none => rfl
  | some s =>
      obtain ⟨group, name⟩ := s
      have hc := register_count ds ⟨group, name, groupBuf group⟩
      have hs := stateOf_snoc ds ⟨group, name, groupBuf group⟩
      simp only at hc hs
      simp only [stateOf_hasCap, hc.2, hs, Option.toList_some, List.foldl_cons, List.foldl_nil,
        addEntry]
      split <;> rfl

theorem entries_stateOf (qs : List CString) (ds : List Capability) :
    qs.foldl autoRegister (stateOf ds) = stateOf ((qs.filterMap splitDot).foldl addEntry ds) := by
  induction qs generalizing ds with
  | nil => rfl
  | cons q qs ih =>
      rw [List.foldl_cons, autoRegister_stateOf, ih, List.filterMap_cons]
      cases splitDot q <;> rfl

theorem agent_entries (A : Agent) (g : CodeGen) :
    autoRegisterAgent g A = (allEntries capabilitiesField A.fields).foldl autoRegister g := by
  rw [autoRegisterAgent, allEntries]
  induction A.fields generalizing g with
  | nil => rfl
  | cons f fs ih =>
      rw [List.foldl_cons, ih, autoRegisterField, List.filter_cons]
      split
      case isTrue h => simp [h]
      case isFalse h => simp [h]

/-- The passes leave the state of the emitted capabilities. -/
theorem codegen_eq_emitted (P : Program) : P.codegen = stateOf P.emitted := by
  have hagents : ∀ g : CodeGen, P.agents.foldl autoRegisterAgent g =
      (P.agents.flatMap fun A => allEntries capabilitiesField A.fields).foldl autoRegister g := by
    intro g
    induction P.agents generalizing g with
    | nil => rfl
    | cons A As ih => rw [List.foldl_cons, ih, agent_entries, List.flatMap_cons, List.foldl_append]
  rw [Program.codegen, ← stateOf_nil, blocks_stateOf, hagents, entries_stateOf]
  rfl

/-! ## Up to 64 capabilities -/

theorem foldl_addInline_length (qs : List (CString × CString)) (ds : List Capability) :
    ds.length ≤ (qs.foldl addInline ds).length := by
  induction qs generalizing ds with
  | nil => exact Nat.le_refl _
  | cons q qs ih =>
      refine Nat.le_trans ?_ (ih _)
      rw [addInline]
      split <;> simp

theorem foldl_addEntry_length (qs : List (CString × CString)) (ds : List Capability) :
    ds.length ≤ (qs.foldl addEntry ds).length := by
  induction qs generalizing ds with
  | nil => exact Nat.le_refl _
  | cons q qs ih =>
      refine Nat.le_trans ?_ (ih _)
      rw [addEntry]
      split <;> simp

/-- As long as the table has room the entries found are those of the list. -/
theorem foldl_add_eq (qs : List (CString × CString)) (ds : List Capability)
    (h : (qs.foldl addInline ds).length ≤ 64 ∨ (qs.foldl addEntry ds).length ≤ 64) :
    qs.foldl addInline ds = qs.foldl addEntry ds := by
  induction qs generalizing ds with
  | nil => rfl
  | cons q qs ih =>
      have hds : ds.length ≤ 64 := by
        rcases h with h | h
        · exact Nat.le_trans (foldl_addInline_length (q :: qs) ds) h
        · exact Nat.le_trans (foldl_addEntry_length (q :: qs) ds) h
      have hstep : addInline ds q = addEntry ds q := by
        have hroom : cgMaxCaps = 256 := rfl
        rw [addInline, addEntry, List.take_of_length_le (by omega)]
      rw [List.foldl_cons, List.foldl_cons, hstep] at h ⊢
      exact ih _ h

theorem declared_eq_emitted {P : Program} (h : P.declared.length ≤ 64 ∨ P.emitted.length ≤ 64) :
    P.declared = P.emitted :=
  foldl_add_eq P.agentEntries P.blockCaps h

end Limceron.Caps
