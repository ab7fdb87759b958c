/-
# `Limceron.Runtime.Agents` — the registry of agents, and the emitters that keep it

`runtime/event.c`.  An emitter records an event and then writes to the entry of its agent:

| emitter | the entry |
| :-- | :-- |
| `agent_start` | is there from now on, running; one that is there is left as it is |
| `agent_stop`, `budget_exhausted` | stopped |
| `agent_fail` | failed |
| `llm_response` | its sums |

An entry keeps at most 63 bytes of the name, and is looked for with the whole name.  So
the registry says which agents run (`registry_iff`) until an agent starts that has a
longer name, or that has ended before.

What `printf` writes for a double is a parameter.
-/
import Limceron.Json.Value
import Limceron.Lib.NameTables
import Limceron.Runtime.Events

namespace Limceron.Runtime.Agents

open NameTables Events Json

/-! ## The registry -/

/-- `LcnAgentStatus`. -/
inductive AgentStatus where
  | running | paused | stopped | failed
  deriving DecidableEq

structure LcnAgentInfo where
  name : List UInt8
  model : List UInt8
  status : AgentStatus := .running
  startTimeMs : UInt64
  totalLlmCalls : Int64 := 0
  totalTokens : Int64 := 0
  totalCost : Float := 0
  active : Bool := true

/-- `LCN_MAX_AGENTS`. -/
def maxAgents : ℕ := 64

abbrev LcnAgentRegistry := List LcnAgentInfo

/-- `lcn_agent_find`. -/
def lcnAgentFind (reg : LcnAgentRegistry) (name : List UInt8) : Option LcnAgentInfo :=
  entry LcnAgentInfo.name reg name

/-- A new entry. -/
def newAgent (name : List UInt8) (model : Option (List UInt8)) (now : UInt64) : LcnAgentInfo where
  name := safeCopy 64 name
  model := safeCopy 64 model
  startTimeMs := now

/-- `lcn_agent_register`. -/
def lcnAgentRegister (reg : LcnAgentRegistry) (name : List UInt8) (model : Option (List UInt8))
    (now : UInt64) : LcnAgentRegistry :=
  if (lcnAgentFind reg name).isSome then reg
  else if maxAgents ≤ reg.length then reg
  else reg ++ [newAgent name model now]

/-! ## The emitters -/

/-- The store and the registry. -/
structure Globals where
  eventStore : LcnEventStore := lcnEventStoreInit
  agentRegistry : LcnAgentRegistry := []

/-- `"key":"…"`. -/
def stringMember (member : String × Option (List UInt8)) : List UInt8 :=
  ascii "\"" ++ ascii member.1 ++ ascii "\":\"" ++ member.2.getD [] ++ ascii "\""

/-- What `snprintf` leaves of an object with such members in a buffer for a detail. -/
def detailOf (members : List (String × Option (List UInt8))) : List UInt8 :=
  (0x7B :: (ascii ",").intercalate (members.map stringMember) ++ [0x7D]).take 511

/-- An event of an agent, in no session. -/
def Globals.emit (g : Globals) (kind : EventKind) (agent detail : List UInt8) (now : UInt64) :
    Globals :=
  { g with
    eventStore := lcnEventEmit g.eventStore ⟨kind, some agent, some [], some detail, now⟩ }

/-- What is written where `lcn_agent_find` points to. -/
def Globals.onAgent (g : Globals) (name : List UInt8) (f : LcnAgentInfo → LcnAgentInfo) :
    Globals :=
  { g with agentRegistry := update LcnAgentInfo.name name f g.agentRegistry }

/-- `lcn_emit_agent_start`. -/
def lcnEmitAgentStart (g : Globals) (agent : List UInt8) (model : Option (List UInt8))
    (now registered : UInt64) : Globals :=
  let g := g.emit .agentStart agent (detailOf [("model", model)]) now
  { g with agentRegistry := lcnAgentRegister g.agentRegistry agent model registered }

/-- `lcn_emit_agent_stop`. -/
def lcnEmitAgentStop (g : Globals) (agent : List UInt8) (now : UInt64) : Globals :=
  (g.emit .agentStop agent (ascii "{}") now).onAgent agent fun info =>
    { info with status := .stopped, active := false }

/-- `lcn_emit_agent_fail`. -/
def lcnEmitAgentFail (g : Globals) (agent : List UInt8) (error : Option (List UInt8))
    (now : UInt64) : Globals :=
  (g.emit .agentFail agent (detailOf [("error", error)]) now).onAgent agent fun info =>
    { info with status := .failed, active := false }

/-- `lcn_emit_budget_exhausted`. -/
def lcnEmitBudgetExhausted (g : Globals) (agent : List UInt8) (reason : Option (List UInt8))
    (now : UInt64) : Globals :=
  (g.emit .budgetExhausted agent (detailOf [("reason", reason)]) now).onAgent agent fun info =>
    { info with status := .stopped, active := false }

/-- `lcn_emit_llm_response`; `formatF6` is the `%.6f` of `printf`. -/
def lcnEmitLlmResponse (formatF6 : Float → List UInt8) (g : Globals) (agent : List UInt8)
    (tokens : Int64) (cost : Float) (latencyMs : Int64) (now : UInt64) : Globals :=
  let detail := 0x7B :: ascii "\"tokens\":" ++ formatInt tokens.toInt ++ ascii ",\"cost\":" ++
    formatF6 cost ++ ascii ",\"latency_ms\":" ++ formatInt latencyMs.toInt ++ [0x7D]
  (g.emit .llmResponse agent (detail.take 511) now).onAgent agent fun info =>
    { info with
      totalLlmCalls := info.totalLlmCalls + 1
      totalTokens := info.totalTokens + tokens
      totalCost := info.totalCost + cost }

/-! ## Runs -/

/-- What is told of an agent. -/
inductive Notice where
  | start (model : Option (List UInt8)) (registered : UInt64)
  | stop
  | fail (error : Option (List UInt8))
  | exhausted (reason : Option (List UInt8))
  | llmResponse (tokens : Int64) (cost : Float) (latencyMs : Int64)

structure Call where
  agent : List UInt8
  notice : Notice
  now : UInt64

variable (formatF6 : Float → List UInt8)

def Call.apply (g : Globals) (call : Call) : Globals :=
  match call.notice with
  | .start model registered => lcnEmitAgentStart g call.agent model call.now registered
  | .stop => lcnEmitAgentStop g call.agent call.now
  | .fail error => lcnEmitAgentFail g call.agent error call.now
  | .exhausted reason => lcnEmitBudgetExhausted g call.agent reason call.now
  | .llmResponse tokens cost latencyMs =>
      lcnEmitLlmResponse formatF6 g call.agent tokens cost latencyMs call.now

def run (calls : List Call) : Globals := calls.foldl (Call.apply formatF6) {}

/-- The registry after these calls. -/
def registry (calls : List Call) : LcnAgentRegistry := (run formatF6 calls).agentRegistry

/-! ## One agent -/

/-- A start, and what ends it. -/
inductive Change where
  | started | ended
  deriving DecidableEq

def Notice.change : Notice → Option Change
  | .start _ _ => some .started
  | .stop => some .ended
  | .fail _ => some .ended
  | .exhausted _ => some .ended
  | .llmResponse _ _ _ => none

/-- The last start or end of an agent. -/
def lastChange (calls : List Call) (name : List UInt8) : Option Change :=
  (calls.filter (·.agent = name)).foldl (fun last call => call.notice.change.or last) none

/-- What a notice does to the entry of its agent. -/
def Notice.effect (info : LcnAgentInfo) : Notice → LcnAgentInfo
  | .start _ _ => { info with status := .running, active := true }
  | .stop => { info with status := .stopped, active := false }
  | .fail _ => { info with status := .failed, active := false }
  | .exhausted _ => { info with status := .stopped, active := false }
  | .llmResponse tokens cost _ =>
      { info with
        totalLlmCalls := info.totalLlmCalls + 1
        totalTokens := info.totalTokens + tokens
        totalCost := info.totalCost + cost }

/-- What there is of an agent after a notice; only a start makes an entry. -/
def Notice.entryAfter (name : List UInt8) (notice : Notice) :
    Option LcnAgentInfo → Option LcnAgentInfo
  | some info => some (notice.effect info)
  | none =>
      match notice with
      | .start model registered => some (newAgent name model registered)
      | _ => none

/-- The entry that an agent is to have: each notice of it has its effect. -/
def expected (calls : List Call) (name : List UInt8) : Option LcnAgentInfo :=
  (calls.filter (·.agent = name)).foldl (fun info call => call.notice.entryAfter name info) none

def LcnAgentInfo.Runs (info : LcnAgentInfo) : Prop := info.active = true ∧ info.status = .running

/-- The agents that were started, in order. -/
def startedNames (calls : List Call) : List (List UInt8) :=
  calls.filterMap fun call => if call.notice.change = some .started then some call.agent else none

/-- The agents that were started have room in the registry. -/
def Fits (calls : List Call) : Prop :=
  ∃ names : List (List UInt8), names.length ≤ maxAgents ∧ startedNames calls ⊆ names

/-! ## What the registry is to say -/

/-- Each agent has one entry, with the effects of all that was told of it, and it runs if its last
change is a start. -/
structure Faithful (calls : List Call) (reg : LcnAgentRegistry) : Prop where
  nodup : (reg.map LcnAgentInfo.name).Nodup
  updated : Fits calls → ∀ name, lcnAgentFind reg name = expected calls name
  running : Fits calls → ∀ name,
    (∃ info ∈ reg, info.name = name ∧ info.Runs) ↔ lastChange calls name = some .started

/-- A start is told of a name that an entry has room for, and of no agent that has ended. -/
def Sound (before : List Call) (call : Call) : Prop :=
  call.notice.change = some .started →
    call.agent.length < 64 ∧
      (call.agent ∈ startedNames before → lastChange before call.agent = some .started)

/-- So is each start while the registry has room. -/
def Meets (calls : List Call) : Prop :=
  ∀ before call after, calls = before ++ call :: after → Fits (before ++ [call]) →
    Sound before call

/-! ## One call more -/

section Concat

variable (calls : List Call) (call : Call) (name : List UInt8)

theorem run_concat : run formatF6 (calls ++ [call]) = call.apply formatF6 (run formatF6 calls) := by
  rw [run, List.foldl_append]
  rfl

theorem lastChange_concat : lastChange (calls ++ [call]) name =
    if call.agent = name then call.notice.change.or (lastChange calls name)
    else lastChange calls name := by
  rw [lastChange, List.filter_append, List.foldl_append, List.filter_cons]
  by_cases h : call.agent = name
  · rw [if_pos h, if_pos (decide_eq_true h)]
    rfl
  · rw [if_neg h, if_neg (by rwa [decide_eq_true_eq])]
    rfl

theorem expected_concat : expected (calls ++ [call]) name =
    if call.agent = name then call.notice.entryAfter name (expected calls name)
    else expected calls name := by
  rw [expected, List.filter_append, List.foldl_append, List.filter_cons]
  by_cases h : call.agent = name
  · rw [if_pos h, if_pos (decide_eq_true h)]
    rfl
  · rw [if_neg h, if_neg (by rwa [decide_eq_true_eq])]
    rfl

theorem startedNames_concat : startedNames (calls ++ [call]) =
    startedNames calls ++ if call.notice.change = some .started then [call.agent] else [] := by
  rw [startedNames, List.filterMap_append, List.filterMap_cons]
  split_ifs
  · rfl
  · rfl

theorem Fits.init {calls : List Call} {call : Call} (h : Fits (calls ++ [call])) : Fits calls := by
  obtain ⟨names, hlength, hnames⟩ := h
  refine ⟨names, hlength, ?_⟩
  intro n hn
  refine hnames ?_
  rw [startedNames_concat]
  exact List.mem_append_left _ hn

theorem meets_concat : Meets (calls ++ [call]) ↔
    Meets calls ∧ (Fits (calls ++ [call]) → Sound calls call) := by
  refine ⟨?_, ?_⟩
  · intro h
    refine ⟨?_, h calls call [] rfl⟩
    intro before c after hcalls
    refine h before c (after ++ [call]) ?_
    rw [hcalls, List.append_assoc, List.cons_append]
  · rintro ⟨hinit, hlast⟩ before c after hcalls
    rcases List.eq_nil_or_concat after with rfl | ⟨after', c', rfl⟩
    · obtain ⟨rfl, hc⟩ := List.append_inj' hcalls rfl
      obtain rfl := List.singleton_injective hc
      exact hlast
    · rw [List.concat_eq_append, ← List.cons_append, ← List.append_assoc] at hcalls
      obtain ⟨rfl, -⟩ := List.append_inj' hcalls rfl
      exact hinit before c after' rfl

end Concat

/-! ## The entry that is expected -/

theorem entryAfter_runs (notice : Notice) (name : List UInt8) (before : Option LcnAgentInfo) :
    (∃ info, notice.entryAfter name before = some info ∧ info.Runs) ↔
      notice.change = some .started ∨
        notice.change = none ∧ ∃ info, before = some info ∧ info.Runs := by
  cases before with
  | none =>
      cases notice <;> simp [Notice.entryAfter, Notice.change, LcnAgentInfo.Runs, newAgent]
  | some info =>
      cases notice <;>
        simp [Notice.entryAfter, Notice.effect, Notice.change, LcnAgentInfo.Runs]

theorem runs_iff (calls : List Call) (name : List UInt8) :
    (∃ info, expected calls name = some info ∧ info.Runs) ↔
      lastChange calls name = some .started := by
  induction calls using List.reverseRecOn with
  | nil =>
      refine ⟨?_, ?_⟩
      · rintro ⟨info, ⟨⟩, -⟩
      · rintro ⟨⟩
  | append_singleton calls call ih =>
      rw [expected_concat, lastChange_concat]
      by_cases h : call.agent = name
      · rw [if_pos h, if_pos h, entryAfter_runs, ih, Option.or_eq_some_iff]
      · rw [if_neg h, if_neg h]
        exact ih

/-- An agent that was started has its entry. -/
theorem expected_isSome {calls : List Call} {name : List UInt8} :
    (expected calls name).isSome ↔ name ∈ startedNames calls := by
  induction calls using List.reverseRecOn with
  | nil =>
      refine ⟨?_, ?_⟩
      · rintro ⟨⟩
      · rintro ⟨⟩
  | append_singleton calls call ih =>
      rw [expected_concat, startedNames_concat, List.mem_append, ← ih]
      obtain ⟨agent, notice, now⟩ := call
      by_cases h : agent = name
      · subst h
        rw [if_pos rfl]
        cases hexpected : expected calls agent with
        | none => cases notice <;> simp [Notice.entryAfter, Notice.change]
        | some info => simp [Notice.entryAfter]
      · rw [if_neg h]
        split_ifs with hstarted
        · simp [Ne.symm h]
        · simp

/-! ## The entry that there is -/

/-- The entries of the agents that were started, as long as there is room, and with what they are
to have. -/
structure Kept (calls : List Call) (reg : LcnAgentRegistry) : Prop where
  names : reg.map LcnAgentInfo.name = fill maxAgents id (startedNames calls)
  entries : Fits calls → ∀ name, lcnAgentFind reg name = expected calls name

/-- A notice that is no start writes to the entry of its agent. -/
theorem registry_concat_of_ne (calls : List Call) (call : Call)
    (h : call.notice.change ≠ some .started) :
    registry formatF6 (calls ++ [call]) =
      update LcnAgentInfo.name call.agent (fun info => call.notice.effect info)
        (registry formatF6 calls) := by
  obtain ⟨agent, notice, now⟩ := call
  rw [registry, run_concat]
  cases notice with
  | start model registered => exact absurd rfl h
  | stop => rfl
  | fail error => rfl
  | exhausted reason => rfl
  | llmResponse tokens cost latencyMs => rfl

theorem registry_concat_start (calls : List Call) (agent : List UInt8)
    (model : Option (List UInt8)) (registered now : UInt64) :
    registry formatF6 (calls ++ [⟨agent, .start model registered, now⟩]) =
      lcnAgentRegister (registry formatF6 calls) agent model registered := by
  rw [registry, run_concat]
  rfl

theorem effect_name (notice : Notice) (info : LcnAgentInfo) :
    (notice.effect info).name = info.name := by
  cases notice with
  | start model registered => rfl
  | stop => rfl
  | fail error => rfl
  | exhausted reason => rfl
  | llmResponse tokens cost latencyMs => rfl

/-- An entry is written for a name that is not there, while there is room. -/
theorem register_eq (reg : LcnAgentRegistry) (name : List UInt8) (model : Option (List UInt8))
    (now : UInt64) :
    lcnAgentRegister reg name model now =
      if name ∈ reg.map LcnAgentInfo.name ∨ maxAgents ≤ reg.length then reg
      else reg ++ [newAgent name model now] := by
  rw [lcnAgentRegister]
  by_cases hmem : name ∈ reg.map LcnAgentInfo.name
  · have hfound : (lcnAgentFind reg name).isSome := by
      rw [lcnAgentFind, Option.isSome_iff_ne_none, Ne, entry_eq_none_iff, not_not]
      exact hmem
    rw [if_pos hfound, if_pos (Or.inl hmem)]
  · have hnone : lcnAgentFind reg name = none := entry_eq_none_iff.2 hmem
    rw [hnone, if_neg (by rintro ⟨⟩)]
    by_cases hfull : maxAgents ≤ reg.length
    · rw [if_pos hfull, if_pos (Or.inr hfull)]
    · rw [if_neg hfull, if_neg (by rintro (h | h); exacts [hmem h, hfull h])]

theorem entryAfter_of_ne {notice : Notice} (h : notice.change ≠ some .started)
    (name : List UInt8) (before : Option LcnAgentInfo) :
    notice.entryAfter name before = before.map fun info => notice.effect info := by
  cases before with
  | some info => rfl
  | none =>
      cases notice with
      | start model registered => exact absurd rfl h
      | stop => rfl
      | fail error => rfl
      | exhausted reason => rfl
      | llmResponse tokens cost latencyMs => rfl

theorem newAgent_name {name : List UInt8} (h : name.length < 64) (model : Option (List UInt8))
    (now : UInt64) : (newAgent name model now).name = name :=
  List.take_of_length_le (Nat.le_of_lt_succ h)

section Step

variable {formatF6} {calls : List Call} {agent : List UInt8} {model : Option (List UInt8)}
  {registered now : UInt64} {reg : LcnAgentRegistry}

/-- The agents that were started have room, and one more, unless the registry is full. -/
theorem Kept.fits (h : Kept calls reg) (hroom : ¬ maxAgents ≤ reg.length) (call : Call) :
    Fits (calls ++ [call]) := by
  have hfilled := filled maxAgents id (startedNames calls)
  have hlength : (fill maxAgents id (startedNames calls)).length = reg.length := by
    rw [← h.names, List.length_map]
  refine ⟨call.agent :: fill maxAgents id (startedNames calls), ?_, ?_⟩
  · rw [List.length_cons, hlength]
    omega
  · intro name hname
    rw [startedNames_concat, List.mem_append] at hname
    rcases hname with hold | hnew
    · have hall := (hfilled.covers.resolve_left (by omega)) name hold
      rw [List.map_id] at hall
      exact List.mem_cons_of_mem _ hall
    · split_ifs at hnew
      · rw [List.mem_singleton.1 hnew]
        exact List.mem_cons_self
      · cases hnew

/-- While the agents have room, the registry is not full for a new one. -/
theorem Kept.room (h : Kept calls reg)
    (hfits : Fits (calls ++ [⟨agent, .start model registered, now⟩]))
    (hnew : agent ∉ reg.map LcnAgentInfo.name) : ¬ maxAgents ≤ reg.length := by
  intro hfull
  obtain ⟨names, hlength, hnames⟩ := hfits
  have hstarted : startedNames (calls ++ [⟨agent, .start model registered, now⟩]) =
      startedNames calls ++ [agent] := startedNames_concat _ _
  have hmem : agent ∈ (fill maxAgents id (startedNames calls ++ [agent])).map id := by
    refine (mem_fill_iff maxAgents id _ agent).2 ⟨_, List.prefix_refl _, ?_, names, hlength, ?_⟩
    · rw [List.map_id]
      exact List.mem_append_right _ (List.mem_singleton_self agent)
    · intro name hname
      rw [hstarted] at hnames
      exact hnames hname
  rw [List.map_id, fill_concat, enter, ← h.names, List.length_map, if_pos hfull] at hmem
  exact hnew hmem

theorem effect_of_runs {info : LcnAgentInfo} (h : info.Runs) :
    (Notice.start model registered).effect info = info := by
  obtain ⟨hactive, hstatus⟩ := h
  obtain ⟨name, model, status, started, llmCalls, tokens, cost, active⟩ := info
  subst hactive hstatus
  rfl

theorem Kept.start (h : Kept calls (registry formatF6 calls))
    (hsound : Fits (calls ++ [⟨agent, .start model registered, now⟩]) →
      Sound calls ⟨agent, .start model registered, now⟩) :
    Kept (calls ++ [⟨agent, .start model registered, now⟩])
      (registry formatF6 (calls ++ [⟨agent, .start model registered, now⟩])) := by
  rw [registry_concat_start, register_eq]
  refine ⟨?_, ?_⟩
  · have hstarted : startedNames (calls ++ [⟨agent, .start model registered, now⟩]) =
        startedNames calls ++ [agent] := startedNames_concat _ _
    rw [hstarted, fill_concat, enter, ← h.names, List.length_map, List.map_id, id_eq]
    by_cases hfull : maxAgents ≤ (registry formatF6 calls).length
    · rw [if_pos (Or.inr hfull), if_pos hfull]
    · rw [if_neg hfull]
      by_cases hmem : agent ∈ (registry formatF6 calls).map LcnAgentInfo.name
      · rw [if_pos (Or.inl hmem), if_pos hmem]
      · have hname := newAgent_name (hsound (h.fits hfull _) rfl).1 model registered
        rw [if_neg (by rintro (h | h); exacts [hmem h, hfull h]), List.map_append,
          if_neg hmem, List.map_singleton, hname]
  · intro hfits name
    obtain ⟨hshort, hrunning⟩ := hsound hfits rfl
    have hfind := h.entries hfits.init
    rw [expected_concat]
    by_cases hmem : agent ∈ (registry formatF6 calls).map LcnAgentInfo.name
    · rw [if_pos (Or.inl hmem), hfind]
      split_ifs with hname
      · -- it runs already
        subst hname
        have hsome : (expected calls agent).isSome := by
          rw [← hfind, Option.isSome_iff_ne_none, lcnAgentFind, Ne, entry_eq_none_iff, not_not]
          exact hmem
        obtain ⟨info, hinfo, hruns⟩ :=
          (runs_iff calls agent).2 (hrunning (expected_isSome.1 hsome))
        rw [hinfo]
        exact congrArg some (effect_of_runs hruns).symm
      · rfl
    · have hroom := h.room hfits hmem
      have hnone : expected calls agent = none := by
        rw [← hfind]
        exact entry_eq_none_iff.2 hmem
      rw [if_neg (by rintro (h | h); exacts [hmem h, hroom h]), lcnAgentFind, entry_concat,
        newAgent_name hshort]
      change (lcnAgentFind (registry formatF6 calls) name).or _ = _
      rw [hfind]
      split_ifs with hname
      · subst hname
        rw [hnone]
        rfl
      · exact Option.or_none

theorem Kept.concat (h : Kept calls (registry formatF6 calls)) {call : Call}
    (hsound : Fits (calls ++ [call]) → Sound calls call) :
    Kept (calls ++ [call]) (registry formatF6 (calls ++ [call])) := by
  by_cases hchange : call.notice.change = some .started
  · obtain ⟨agent, notice, now⟩ := call
    cases notice with
    | start model registered => exact h.start hsound
    | stop => cases hchange
    | fail error => cases hchange
    | exhausted reason => cases hchange
    | llmResponse tokens cost latencyMs => cases hchange
  · rw [registry_concat_of_ne formatF6 calls call hchange]
    refine ⟨?_, ?_⟩
    · rw [map_update (effect_name _), startedNames_concat, if_neg hchange, List.append_nil]
      exact h.names
    · intro hfits name
      rw [lcnAgentFind, entry_update (effect_name _), expected_concat, entryAfter_of_ne hchange]
      change (if _ then (lcnAgentFind (registry formatF6 calls) name).map _
        else lcnAgentFind (registry formatF6 calls) name) = _
      rw [h.entries hfits.init]

end Step

theorem kept {calls : List Call} (h : Meets calls) : Kept calls (registry formatF6 calls) := by
  induction calls using List.reverseRecOn with
  | nil => exact ⟨rfl, fun _ _ => rfl⟩
  | append_singleton calls call ih =>
      obtain ⟨hinit, hlast⟩ := (meets_concat calls call).1 h
      exact (ih hinit).concat hlast

/-! ## What the registry says -/

section Says

variable {formatF6} {calls : List Call} {call : Call} {reg : LcnAgentRegistry}

theorem Kept.nodup (h : Kept calls reg) : (reg.map LcnAgentInfo.name).Nodup := by
  have hnodup := (filled maxAgents id (startedNames calls)).nodup
  rwa [List.map_id, ← h.names] at hnodup

/-- The entry of a name, where the names are different. -/
theorem exists_iff_find (hnodup : (reg.map LcnAgentInfo.name).Nodup) (name : List UInt8) :
    (∃ info ∈ reg, info.name = name ∧ info.Runs) ↔
      ∃ info, lcnAgentFind reg name = some info ∧ info.Runs := by
  refine ⟨?_, ?_⟩
  · rintro ⟨info, hmem, rfl, hruns⟩
    exact ⟨info, entry_of_mem hnodup hmem, hruns⟩
  · rintro ⟨info, hfind, hruns⟩
    exact ⟨info, entry_mem hfind, entry_name hfind, hruns⟩

theorem Kept.faithful (h : Kept calls reg) : Faithful calls reg := by
  refine ⟨h.nodup, h.entries, ?_⟩
  intro hfits name
  rw [exists_iff_find h.nodup, h.entries hfits, runs_iff]

/-- Only so many bytes of a name are kept. -/
theorem length_name_lt (calls : List Call) :
    ∀ info ∈ registry formatF6 calls, info.name.length < 64 := by
  induction calls using List.reverseRecOn with
  | nil =>
      intro info hinfo
      cases hinfo
  | append_singleton calls call ih =>
      have hnames : ∀ name ∈ (registry formatF6 calls).map LcnAgentInfo.name,
          name.length < 64 := by
        intro name hname
        obtain ⟨info, hinfo, rfl⟩ := List.mem_map.1 hname
        exact ih info hinfo
      intro info hinfo
      by_cases hchange : call.notice.change = some .started
      · obtain ⟨agent, notice, now⟩ := call
        cases notice with
        | start model registered =>
            rw [registry_concat_start, register_eq] at hinfo
            split_ifs at hinfo
            · exact ih info hinfo
            · rcases List.mem_append.1 hinfo with hold | hnew
              · exact ih info hold
              · rw [List.mem_singleton.1 hnew]
                exact Nat.lt_succ_of_le (List.length_take_le 63 agent)
        | stop => cases hchange
        | fail error => cases hchange
        | exhausted reason => cases hchange
        | llmResponse tokens cost latencyMs => cases hchange
      · rw [registry_concat_of_ne formatF6 calls call hchange] at hinfo
        refine hnames _ ?_
        rw [← map_update (effect_name call.notice) call.agent]
        exact List.mem_map_of_mem hinfo

/-- An agent that a start leaves running has a name that fits, and had not ended. -/
theorem Kept.sound (h : Kept calls (registry formatF6 calls)) (hfits : Fits (calls ++ [call]))
    (hfaithful : Faithful (calls ++ [call]) (registry formatF6 (calls ++ [call]))) :
    Sound calls call := by
  intro hchange
  obtain ⟨agent, notice, now⟩ := call
  have hstarted : lastChange (calls ++ [⟨agent, notice, now⟩]) agent = some .started := by
    rw [lastChange_concat, if_pos rfl, hchange]
    rfl
  obtain ⟨info, hmem, hname, hruns⟩ := (hfaithful.running hfits agent).2 hstarted
  refine ⟨?_, ?_⟩
  · rw [← hname]
    exact length_name_lt _ info hmem
  · intro hbefore
    cases notice with
    | start model registered =>
        have hin : agent ∈ (registry formatF6 calls).map LcnAgentInfo.name := by
          by_contra hnot
          have hnone : expected calls agent = none := by
            rw [← h.entries hfits.init]
            exact entry_eq_none_iff.2 hnot
          have hsome := expected_isSome.2 hbefore
          rw [hnone] at hsome
          cases hsome
        rw [registry_concat_start, register_eq, if_pos (Or.inl hin)] at hmem
        have hfind := (exists_iff_find h.nodup agent).1 ⟨info, hmem, hname, hruns⟩
        rw [h.entries hfits.init] at hfind
        exact (runs_iff calls agent).1 hfind
    | stop => cases hchange
    | fail error => cases hchange
    | exhausted reason => cases hchange
    | llmResponse tokens cost latencyMs => cases hchange

end Says

/-- The registry is right at all times of just the runs in which each start is of a name that fits,
and of no agent that has ended, while there is room. -/
theorem registry_iff (calls : List Call) :
    (∀ before, before <+: calls → Faithful before (registry formatF6 before)) ↔ Meets calls := by
  induction calls using List.reverseRecOn with
  | nil =>
      refine ⟨?_, ?_⟩
      · intro _ before call after hcalls
        exact absurd hcalls (by simp)
      · intro hmeets before hbefore
        rw [List.prefix_nil.1 hbefore]
        exact (kept formatF6 hmeets).faithful
  | append_singleton calls call ih =>
      rw [meets_concat, ← ih]
      refine ⟨?_, ?_⟩
      · intro h
        have hinit : ∀ before, before <+: calls → Faithful before (registry formatF6 before) :=
          fun before hbefore => h before (hbefore.trans (List.prefix_append _ _))
        refine ⟨hinit, ?_⟩
        intro hfits
        exact (kept formatF6 (ih.1 hinit)).sound hfits (h _ (List.prefix_refl _))
      · rintro ⟨hinit, hlast⟩ before hbefore
        rcases List.prefix_concat_iff.1 hbefore with rfl | hprefix
        · exact (kept formatF6 ((meets_concat calls call).2 ⟨ih.1 hinit, hlast⟩)).faithful
        · exact hinit before hprefix

def startOf (name : List UInt8) : Call := ⟨name, .start none 0, 0⟩

def restarted : List Call := [startOf (ascii "a"), ⟨ascii "a", .stop, 0⟩, startOf (ascii "a")]

def longName : List UInt8 := List.replicate 64 0x61

/-- An agent that starts again is still stopped; one with a long name has two entries. -/
theorem restart_stays_stopped :
    ¬ Faithful restarted (registry (fun _ => []) restarted) ∧
    ¬ Faithful [startOf longName, startOf longName]
      (registry (fun _ => []) [startOf longName, startOf longName]) := by
  refine ⟨?_, ?_⟩
  · intro h
    have hfits : Fits restarted := ⟨[ascii "a"], by decide, by decide⟩
    obtain ⟨info, hmem, -, -, hstatus⟩ := (h.running hfits (ascii "a")).2 (by decide)
    have hstopped : ∀ info ∈ registry (fun _ => []) restarted, info.status = .stopped := by
      intro info hinfo
      obtain rfl := List.mem_singleton.1 hinfo
      rfl
    rw [hstopped info hmem] at hstatus
    cases hstatus
  · intro h
    exact absurd h.nodup (by decide)

end Limceron.Runtime.Agents
