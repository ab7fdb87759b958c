/-
# `Limceron.Caps.ToolFences` — three fences around a tool

Whether agent `A` may call tool `T` is decided in three places:

| fence | reads of the tool | reads of the agent |
| :-- | :-- | :-- |
| `on_cap_check_tool_call` | 64 entries of the first `requires` | 128 of the first `capabilities` |
| bit tests of `lcn_tool_T` | the dotted entries of the last `requires` | the last `capabilities`, as a mask |
| `_agent_A_tools` | 16 entries of the last `requires` | 128 of the first `capabilities` array |

Each has its own limits, and the mask knows a capability by its `CAP_` name only.
`fencesAgree_iff` says for which programs the three decide alike.
-/
import Limceron.Caps.Registry
import Mathlib.Data.List.Nodup

namespace Limceron.Caps

/-! ## Fields -/

/-- The first field so named, if it is an array (`collect_agent_caps`,
`collect_tool_requires`). -/
def firstField (name : CString) (fields : List Field) : List CString :=
  match fields.find? (fun f => decide (f.name = name)) with
  | some f => f.elems
  | none => []

/-- The first array so named. -/
def firstArray (name : CString) (fields : List Field) : List CString :=
  match fields.find? (fun f => decide (f.name = name) && f.isArray) with
  | some f => f.elems
  | none => []

/-- The last array so named. -/
def lastArray (name : CString) (fields : List Field) : List CString :=
  firstArray name fields.reverse

/-! ## The static check -/

def maxCapItems : Nat := 512

def CapMember.name? : CapMember → Option CString
  | .item name => some name
  | .rule name => name

/-- `build_cap_registry`: every named member of a block, rules included. -/
def Program.capRegistry (P : Program) : List CString :=
  (P.capabilities.flatMap fun G =>
    (G.params.filterMap CapMember.name?).map (makeQualified G.name)).take maxCapItems

/-- `collect_agent_caps` with `MAX_AGENT_CAPS`. -/
def collectAgentCaps (A : Agent) : List CString := (firstField capabilitiesField A.fields).take 128

/-- `collect_tool_requires` with `MAX_TOOL_REQUIRES`. -/
def collectToolRequires (T : Tool) : List CString := (firstField requiresField T.fields).take 64

inductive CapError where
  | requiresUnknown (tool cap : CString)
  | lacks (agent tool cap : CString)
  deriving DecidableEq

/-- The errors of `on_cap_check_tool_call` at a call of `toolName` in `A`. -/
def onCapCheckToolCall (P : Program) (A : Agent) (toolName : CString) : List CapError :=
  match P.tools.find? (fun T => decide (T.name = toolName)) with
  | none => []
  | some T => (collectToolRequires T).flatMap fun r =>
      (if r ∈ P.capRegistry then [] else [.requiresUnknown toolName r]) ++
        (if r ∈ collectAgentCaps A then [] else [.lacks A.name toolName r])

/-! ## The bit tests -/

/-- The macros of the agent's initialiser; an entry without a dot is printed `0`,
and of several `.capabilities` initialisers C takes the last. -/
def maskNames (P : Program) (A : Agent) : List CString :=
  (lastArray capabilitiesField A.fields).filterMap (cgLookupCap P.codegen)

def agentMask (P : Program) (A : Agent) : Option (BitVec 64) :=
  Flags.union 64 P.codegen.table (maskNames P A)

/-- The macros `lcn_tool_T` tests; an entry without a dot is not tested. -/
def testNames (P : Program) (T : Tool) : List CString :=
  (lastArray requiresField T.fields).filterMap (cgLookupCap P.codegen)

/-- `lcn_tool_T` called with the mask of `A` reaches its body. -/
def toolPasses (P : Program) (A : Agent) (T : Tool) : Bool :=
  match agentMask P A with
  | some m => Flags.passes P.codegen.table m (testNames P T)
  | none => false

/-! ## The tool list -/

/-- `g->tools`. -/
def Program.toolTable (P : Program) : List Tool := (P.tools ++ P.skillTools).take 256

def storedRequires (T : Tool) : List CString := (lastArray requiresField T.fields).take 16

def listCaps (A : Agent) : List CString := (firstArray capabilitiesField A.fields).take 128

/-- The names of `_agent_A_tools`; a tool that requires nothing is in it. -/
def allowedTools (P : Program) (A : Agent) : List CString :=
  (P.toolTable.filter fun T => (storedRequires T).all fun r => decide (r ∈ listCaps A)).map
    (·.name)

/-! ## Agreement -/

/-- Every entry `T` requires is in the agent's list. -/
def Granted (A : Agent) (T : Tool) : Prop :=
  ∀ r ∈ allEntries requiresField T.fields, r ∈ allEntries capabilitiesField A.fields

instance (A : Agent) (T : Tool) : Decidable (Granted A T) :=
  inferInstanceAs (Decidable (∀ r ∈ _, r ∈ _))

/-- The fences decide alike for every agent and tool, and every capability has a
mask of one bit and a name that are its own. -/
structure FencesAgree (P : Program) : Prop where
  static : ∀ A ∈ P.agents, ∀ T ∈ P.tools ++ P.skillTools,
    Granted A T ↔ onCapCheckToolCall P A T.name = []
  tests : ∀ A ∈ P.agents, ∀ T ∈ P.tools ++ P.skillTools, Granted A T ↔ toolPasses P A T = true
  listed : ∀ A ∈ P.agents, ∀ T ∈ P.tools ++ P.skillTools,
    Granted A T ↔ T.name ∈ allowedTools P A
  masks : ∀ l ∈ P.codegen.defines, ∃ k < 64,
    Flags.value 64 P.codegen.table l.cap.define = some (BitVec.twoPow 64 k)
  apart : ∀ l ∈ P.codegen.defines, ∀ l' ∈ P.codegen.defines,
    (l.cap.group, l.cap.name) ≠ (l'.cap.group, l'.cap.name) →
      l.cap.define ≠ l'.cap.define ∧
        Flags.value 64 P.codegen.table l.cap.define ≠
          Flags.value 64 P.codegen.table l'.cap.define

/-- What the three fences read of the lists of `A` and `T` decides as the lists do. -/
structure ReadAlike (P : Program) (A : Agent) (T : Tool) : Prop where
  /-- All entries granted: those read are declared and found, and no limit cuts the
  tool or an entry of the agent off. -/
  granted : Granted A T →
    (T ∈ P.tools → ∀ r ∈ collectToolRequires T, r ∈ P.capRegistry ∧ r ∈ collectAgentCaps A) ∧
      (∀ r ∈ lastArray requiresField T.fields, ∀ d, P.capName r = some d →
        ∃ c ∈ lastArray capabilitiesField A.fields, P.capName c = some d) ∧
      T ∈ P.toolTable ∧ ∀ r ∈ storedRequires T, r ∈ listCaps A
  /-- Some entry missing: one is missing from what each fence reads, and a dotted
  one has a `CAP_` name that no entry of the agent has. -/
  missing : ¬ Granted A T →
    (T ∈ P.tools ∧ ∃ r ∈ collectToolRequires T, r ∉ P.capRegistry ∨ r ∉ collectAgentCaps A) ∧
      (∃ r ∈ lastArray requiresField T.fields, ∃ d, P.capName r = some d ∧
        ∀ c ∈ lastArray capabilitiesField A.fields, P.capName c ≠ some d) ∧
      (T ∈ P.toolTable → ∃ r ∈ storedRequires T, r ∉ listCaps A)

/-- At most 64 capabilities, different ones under different `CAP_` names, and lists
that the limits of the fences do not cut in a way that matters. -/
structure Separated (P : Program) : Prop where
  few : P.declared.length ≤ 64
  named : ∀ c ∈ P.declared, ∀ c' ∈ P.declared,
    (c.group, c.name) ≠ (c'.group, c'.name) → c.define ≠ c'.define
  lists : ∀ A ∈ P.agents, ∀ T ∈ P.tools ++ P.skillTools, ReadAlike P A T

/-! ## The table of a small program -/

theorem stateOf_table (ds : List Capability) :
    (stateOf ds).table = ds.zipIdx.map fun c => ⟨c.1.define, min c.2 (cgMaxCaps - 1)⟩ := by
  simp [CodeGen.table, stateOf, CapLine.flag]

theorem mem_stateOf_table {ds : List Capability} {f : Flags.Flag CString} :
    f ∈ (stateOf ds).table ↔
      ∃ i, ∃ h : i < ds.length, f = ⟨ds[i].define, min i (cgMaxCaps - 1)⟩ := by
  simp only [stateOf_table, List.mem_map, Prod.exists, List.mk_mem_zipIdx_iff_getElem?]
  constructor
  · rintro ⟨c, i, hc, rfl⟩
    obtain ⟨hlt, rfl⟩ := List.getElem?_eq_some_iff.mp hc
    exact ⟨i, hlt, rfl⟩
  · rintro ⟨i, hlt, rfl⟩
    exact ⟨ds[i], i, List.getElem?_eq_getElem hlt, rfl⟩

theorem mem_stateOf_defines {ds : List Capability} {c : Capability} :
    c ∈ ds ↔ ∃ l ∈ (stateOf ds).defines, l.cap = c := by
  constructor
  · intro hc
    obtain ⟨i, hlt, rfl⟩ := List.getElem_of_mem hc
    refine ⟨⟨ds[i], min i (cgMaxCaps - 1)⟩, ?_, rfl⟩
    exact List.mem_map.mpr ⟨(ds[i], i), List.mk_mem_zipIdx_iff_getElem?.mpr
      (List.getElem?_eq_getElem hlt), rfl⟩
  · rintro ⟨l, hl, rfl⟩
    obtain ⟨⟨c, i⟩, hc, rfl⟩ := List.mem_map.mp hl
    exact List.mem_of_getElem? (List.mk_mem_zipIdx_iff_getElem?.mp hc)

theorem flag_mem_table {g : CodeGen} {l : CapLine} (h : l ∈ g.defines) : l.flag ∈ g.table :=
  List.mem_map_of_mem h

/-- Up to 64 capabilities every macro is a bit of the word, and its own. -/
theorem stateOf_sound {ds : List Capability} (h : ds.length ≤ 64) :
    Flags.Sound 64 (stateOf ds).table where
  inside := by
    intro f hf
    obtain ⟨i, hlt, rfl⟩ := mem_stateOf_table.mp hf
    exact Nat.lt_of_le_of_lt (Nat.min_le_left _ _) (by omega)
  apart := by
    intro f hf f' hf' hbit
    obtain ⟨i, hlt, rfl⟩ := mem_stateOf_table.mp hf
    obtain ⟨j, hlt', rfl⟩ := mem_stateOf_table.mp hf'
    have hroom : cgMaxCaps = 256 := rfl
    have hij : i = j := by simp only at hbit; omega
    subst hij
    rfl

/-- The 65th `#define` shifts past the word. -/
theorem emitted_few {ds : List Capability}
    (h : ∀ l ∈ (stateOf ds).defines, ∃ k < 64,
      Flags.value 64 (stateOf ds).table l.cap.define = some (BitVec.twoPow 64 k)) :
    ds.length ≤ 64 := by
  rcases List.eq_nil_or_concat ds with rfl | ⟨init, c, rfl⟩
  · exact Nat.zero_le _
  · rw [List.concat_eq_append] at h ⊢
    obtain ⟨l, hl, hlc⟩ :=
      mem_stateOf_defines.mp (List.mem_append_right init (List.mem_singleton.mpr (rfl : c = c)))
    obtain ⟨k, -, hv⟩ := h l hl
    have htable : (stateOf (init ++ [c])).table =
        (stateOf init).table ++ [⟨c.define, min init.length (cgMaxCaps - 1)⟩] := by
      simp [stateOf_table, List.zipIdx_append]
    have hlast := Flags.value_last (w := 64) (stateOf init).table
      ⟨c.define, min init.length (cgMaxCaps - 1)⟩
    rw [hlc, htable, hlast, Flags.Flag.word] at hv
    split at hv
    case isTrue hlt =>
      have hroom : cgMaxCaps = 256 := rfl
      simp only [List.length_append, List.length_singleton]
      simp only at hlt
      omega
    case isFalse => cases hv

theorem codegen_sound {P : Program} (hfew : P.emitted.length ≤ 64) :
    Flags.Sound 64 P.codegen.table := by
  rw [codegen_eq_emitted]
  exact stateOf_sound hfew

theorem lookup_eq_capName {P : Program} (hfew : P.emitted.length ≤ 64) (q : CString) :
    cgLookupCap P.codegen q = P.capName q := by
  have hroom : cgMaxCaps = 256 := rfl
  have htake : P.emitted.take cgMaxCaps = P.emitted := List.take_of_length_le (by omega)
  rw [cgLookupCap, Program.capName, codegen_eq_emitted, declared_eq_emitted (Or.inr hfew)]
  simp only [stateOf_hasCap, htake]

/-- Every entry of an agent has its capability among those declared. -/
theorem entry_declared (qs : List (CString × CString)) (ds : List Capability)
    {q : CString × CString} (h : q ∈ qs) :
    ∃ c ∈ qs.foldl addInline ds, c.name = q.2 ∧ (c.kept = q.1 ∨ c.kept = groupBuf q.1) := by
  have hkeep : ∀ (qs : List (CString × CString)) (ds : List Capability), ∀ c ∈ ds,
      c ∈ qs.foldl addInline ds := by
    intro qs
    induction qs with
    | nil => intro ds c hc; exact hc
    | cons q qs ih =>
        intro ds c hc
        refine ih _ c ?_
        rw [addInline]
        split
        · exact hc
        · exact List.mem_append_left _ hc
  induction qs generalizing ds with
  | nil => cases h
  | cons q' qs ih =>
      rcases List.mem_cons.mp h with rfl | h
      · rw [List.foldl_cons, addInline]
        split
        case isTrue hk =>
          obtain ⟨c, hc, he⟩ := List.any_eq_true.mp hk
          obtain ⟨hk, hn⟩ := of_decide_eq_true he
          exact ⟨c, hkeep _ _ c hc, hn, Or.inl hk⟩
        case isFalse =>
          refine ⟨⟨q.1, q.2, groupBuf q.1⟩, hkeep _ _ _ ?_, rfl, Or.inr rfl⟩
          exact List.mem_append_right _ (List.mem_singleton.mpr rfl)
      · exact ih _ h

/-- The `CAP_` name of an agent's entry is that of a declared capability. -/
theorem capName_declared {P : Program} {A : Agent} (hA : A ∈ P.agents) {c d : CString}
    (hc : c ∈ allEntries capabilitiesField A.fields) (hd : P.capName c = some d) :
    ∃ k ∈ P.declared, k.define = d := by
  obtain ⟨⟨group, name⟩, hs, hd⟩ := Option.map_eq_some_iff.mp hd
  have hq : (group, name) ∈ P.agentEntries :=
    List.mem_filterMap.mpr ⟨c, List.mem_flatMap.mpr ⟨A, hA, hc⟩, hs⟩
  obtain ⟨k, hk, hn, hkept⟩ := entry_declared P.agentEntries P.blockCaps hq
  simp only at hd hn hkept
  split at hd
  case isTrue hkeeps =>
    obtain ⟨k', hk', he⟩ := List.any_eq_true.mp hkeeps
    obtain ⟨hkept', hn'⟩ := of_decide_eq_true he
    exact ⟨k', hk', by rw [← hd, Capability.define, hkept', hn']⟩
  case isFalse hkeeps =>
    rcases hkept with hkept | hkept
    · refine absurd ?_ hkeeps
      exact List.any_eq_true.mpr ⟨k, hk, decide_eq_true ⟨hkept, hn⟩⟩
    · exact ⟨k, hk, by rw [← hd, Capability.define, hkept, hn]⟩

theorem firstArray_subset {name : CString} {fields : List Field} {e : CString}
    (h : e ∈ firstArray name fields) : e ∈ allEntries name fields := by
  rw [firstArray] at h
  split at h
  case h_1 f hf =>
    have hp := List.find?_some hf
    rw [Bool.and_eq_true] at hp
    exact List.mem_flatMap.mpr ⟨f, List.mem_filter.mpr ⟨List.mem_of_find?_eq_some hf, hp.1⟩, h⟩
  case h_2 => cases h

theorem lastArray_subset {name : CString} {fields : List Field} {e : CString}
    (h : e ∈ lastArray name fields) : e ∈ allEntries name fields := by
  have hmem := firstArray_subset h
  rw [allEntries, List.mem_flatMap] at hmem ⊢
  obtain ⟨f, hf, he⟩ := hmem
  obtain ⟨hf, hp⟩ := List.mem_filter.mp hf
  exact ⟨f, List.mem_filter.mpr ⟨List.mem_reverse.mp hf, hp⟩, he⟩

/-! ## What each fence decides -/

theorem find_of_mem {Ts : List Tool} (hd : (Ts.map (·.name)).Nodup) {T : Tool} (hT : T ∈ Ts) :
    Ts.find? (fun S => decide (S.name = T.name)) = some T := by
  cases hf : Ts.find? (fun S => decide (S.name = T.name)) with
  | none => exact absurd (decide_eq_true rfl) (List.find?_eq_none.mp hf T hT)
  | some S =>
      have hn : S.name = T.name := by simpa using List.find?_some hf
      rw [List.inj_on_of_nodup_map hd (List.mem_of_find?_eq_some hf) hT hn]

theorem static_iff {P : Program} {A : Agent} {T : Tool} (hT : T ∈ P.tools ++ P.skillTools) :
    onCapCheckToolCall P A T.name = [] ↔
      (T ∈ P.tools → ∀ r ∈ collectToolRequires T, r ∈ P.capRegistry ∧ r ∈ collectAgentCaps A) := by
  have hd := P.distinct
  rw [onCapCheckToolCall]
  by_cases hmem : T ∈ P.tools
  · rw [List.map_append] at hd
    rw [find_of_mem (List.nodup_append.mp hd).1 hmem]
    simp only [List.flatMap_eq_nil_iff, List.append_eq_nil_iff, ite_eq_left_iff,
      List.cons_ne_nil, imp_false, not_not, hmem, true_imp_iff]
  · have hnone : P.tools.find? (fun S => decide (S.name = T.name)) = none := by
      refine List.find?_eq_none.mpr ?_
      intro S hS hn
      have hST : S = T := List.inj_on_of_nodup_map hd (List.mem_append_left _ hS) hT
        (of_decide_eq_true hn)
      exact hmem (hST ▸ hS)
    rw [hnone]
    exact iff_of_true rfl (fun h => absurd h hmem)

/-- The bit tests compare `CAP_` names. -/
theorem toolPasses_iff {P : Program} (hfew : P.emitted.length ≤ 64) {A : Agent}
    (hA : A ∈ P.agents) (T : Tool) :
    toolPasses P A T = true ↔
      ∀ r ∈ lastArray requiresField T.fields, ∀ d, P.capName r = some d →
        ∃ c ∈ lastArray capabilitiesField A.fields, P.capName c = some d := by
  have hsound := codegen_sound hfew
  have hheld : ∀ n ∈ maskNames P A, ∃ f ∈ P.codegen.table, f.name = n := by
    intro n hn
    obtain ⟨c, hc, hd⟩ := List.mem_filterMap.mp hn
    rw [lookup_eq_capName hfew] at hd
    obtain ⟨k, hk, rfl⟩ := capName_declared hA (lastArray_subset hc) hd
    rw [declared_eq_emitted (Or.inr hfew)] at hk
    obtain ⟨l, hl, rfl⟩ := mem_stateOf_defines.mp hk
    rw [← codegen_eq_emitted] at hl
    exact ⟨l.flag, flag_mem_table hl, rfl⟩
  obtain ⟨m, hm⟩ : ∃ m, agentMask P A = some m := by
    refine Flags.union_isSome ?_
    intro n hn
    obtain ⟨f, hf, rfl⟩ := hheld n hn
    exact Flags.value_of_mem hsound.inside hf
  have hpass : toolPasses P A T = Flags.passes P.codegen.table m (testNames P T) := by
    rw [toolPasses, hm]
  rw [hpass, Flags.passes_iff hsound hheld hm]
  simp only [testNames, maskNames, List.mem_filterMap, lookup_eq_capName hfew]
  constructor
  · intro h r hr d hd
    exact h d ⟨r, hr, hd⟩
  · rintro h d ⟨r, hr, hd⟩
    exact h r hr d hd

theorem listed_iff {P : Program} {A : Agent} {T : Tool} (hT : T ∈ P.tools ++ P.skillTools) :
    T.name ∈ allowedTools P A ↔ T ∈ P.toolTable ∧ ∀ r ∈ storedRequires T, r ∈ listCaps A := by
  simp only [allowedTools, List.mem_map, List.mem_filter, List.all_eq_true, decide_eq_true_eq]
  constructor
  · rintro ⟨S, ⟨hS, hall⟩, hn⟩
    have hST : S = T := List.inj_on_of_nodup_map P.distinct (List.mem_of_mem_take hS) hT hn
    exact hST ▸ ⟨hS, hall⟩
  · rintro ⟨hS, hall⟩
    exact ⟨T, ⟨hS, hall⟩, rfl⟩

/-- Reading alike is deciding as the lists do, in all three fences. -/
theorem readAlike_iff {P : Program} (hfew : P.emitted.length ≤ 64) {A : Agent}
    (hA : A ∈ P.agents) {T : Tool} (hT : T ∈ P.tools ++ P.skillTools) :
    ReadAlike P A T ↔
      (Granted A T ↔ onCapCheckToolCall P A T.name = []) ∧
        (Granted A T ↔ toolPasses P A T = true) ∧ (Granted A T ↔ T.name ∈ allowedTools P A) := by
  rw [static_iff hT, toolPasses_iff hfew hA, listed_iff hT]
  constructor
  · rintro ⟨hyes, hno⟩
    by_cases hg : Granted A T
    · obtain ⟨hs, ht, hl⟩ := hyes hg
      exact ⟨iff_of_true hg hs, iff_of_true hg ht, iff_of_true hg hl⟩
    · obtain ⟨⟨hm, r, hr, hs⟩, ⟨r', hr', d, hd, ht⟩, hl⟩ := hno hg
      refine ⟨iff_of_false hg ?_, iff_of_false hg ?_, iff_of_false hg ?_⟩
      · intro h
        obtain ⟨hreg, hcap⟩ := h hm r hr
        exact hs.elim (fun h => h hreg) (fun h => h hcap)
      · intro h
        obtain ⟨c, hc, hcd⟩ := h r' hr' d hd
        exact ht c hc hcd
      · rintro ⟨hm, h⟩
        obtain ⟨r, hr, hnot⟩ := hl hm
        exact hnot (h r hr)
  · rintro ⟨hs, ht, hl⟩
    refine ⟨fun hg => ⟨hs.mp hg, ht.mp hg, hl.mp hg⟩, ?_⟩
    intro hg
    rw [hs] at hg
    have hg' := hg
    rw [← hs, ht] at hg'
    have hg'' := hg
    rw [← hs, hl] at hg''
    push Not at hg hg' hg''
    refine ⟨⟨hg.1, ?_⟩, hg', hg''⟩
    obtain ⟨r, hr, hnot⟩ := hg.2
    exact ⟨r, hr, Classical.or_iff_not_imp_left.mpr (fun h => hnot (not_not.mp h))⟩

/-- The three fences agree on exactly the separated programs. -/
theorem fencesAgree_iff (P : Program) : FencesAgree P ↔ Separated P := by
  constructor
  · intro h
    have hfew : P.emitted.length ≤ 64 := by
      have hmasks := h.masks
      rw [codegen_eq_emitted] at hmasks
      exact emitted_few hmasks
    have hdecl := declared_eq_emitted (Or.inr hfew)
    refine ⟨by rwa [hdecl], ?_, ?_⟩
    · intro c hc c' hc' hne
      rw [hdecl] at hc hc'
      obtain ⟨l, hl, rfl⟩ := mem_stateOf_defines.mp hc
      obtain ⟨l', hl', rfl⟩ := mem_stateOf_defines.mp hc'
      rw [← codegen_eq_emitted] at hl hl'
      exact (h.apart l hl l' hl' hne).1
    · intro A hA T hT
      exact (readAlike_iff hfew hA hT).mpr
        ⟨h.static A hA T hT, h.tests A hA T hT, h.listed A hA T hT⟩
  · rintro ⟨hfew, hnamed, hlists⟩
    have hdecl := declared_eq_emitted (Or.inl hfew)
    rw [hdecl] at hfew hnamed
    have hsound := codegen_sound hfew
    have hcap : ∀ l ∈ P.codegen.defines, l.cap ∈ P.emitted := by
      intro l hl
      rw [codegen_eq_emitted] at hl
      exact mem_stateOf_defines.mpr ⟨l, hl, rfl⟩
    have hvalue : ∀ l ∈ P.codegen.defines,
        ∃ v : BitVec 64, Flags.value 64 P.codegen.table l.cap.define = some v := fun l hl =>
      Flags.value_of_mem hsound.inside (flag_mem_table hl)
    have hread := fun A hA T hT => (readAlike_iff hfew hA hT).mp (hlists A hA T hT)
    refine ⟨fun A hA T hT => (hread A hA T hT).1, fun A hA T hT => (hread A hA T hT).2.1,
      fun A hA T hT => (hread A hA T hT).2.2, ?_, ?_⟩
    · intro l hl
      obtain ⟨v, hv⟩ := hvalue l hl
      obtain ⟨f, -, -, hlt, rfl⟩ := Flags.value_eq_some hv
      exact ⟨f.bit, hlt, hv⟩
    · intro l hl l' hl' hne
      have hdef := hnamed l.cap (hcap l hl) l'.cap (hcap l' hl') hne
      refine ⟨hdef, ?_⟩
      intro hsame
      obtain ⟨v, hv⟩ := hvalue l hl
      exact hdef (Flags.value_inj hsound hv (hsame ▸ hv))

/-- Two capabilities that differ in the case of a letter, a tool that requires the
one and an agent that has the other. -/
def caseProgram : Program where
  capabilities := [⟨"web".toList, [.item "search".toList, .item "Search".toList]⟩]
  agents := [⟨"Scout".toList, [⟨capabilitiesField, .array ["web.Search".toList]⟩]⟩]
  tools := [⟨"find".toList, [⟨requiresField, .array ["web.search".toList]⟩]⟩]
  skillTools := []
  distinct := by decide

/-- The static check and the tool list refuse the tool, the bit test lets it run. -/
theorem fences_disagree_case : ¬ FencesAgree caseProgram := by
  intro h
  have htest := h.tests ⟨"Scout".toList, [⟨capabilitiesField, .array ["web.Search".toList]⟩]⟩
    (by decide) ⟨"find".toList, [⟨requiresField, .array ["web.search".toList]⟩]⟩ (by decide)
  revert htest
  decide +kernel

end Limceron.Caps
