/-
# `Limceron.Runtime.Memory` — the memory of agents, over histories of calls

`runtime/memory.c`.  The tables are lists of rows in the order they were inserted, with
ids that count up and are not used again.  What the database and the clock do in a call
stands beside it (`Env`):

| | |
| :-- | :-- |
| `time` | the clock, in seconds |
| `fails` | which of its statements fail |
| `stops` | after how many rows a `SELECT` stops with an error |
| `tie` | how `ORDER BY` orders rows of one timestamp |

`Meets` is what a call is for; `Safe` says when it does that, from the state before it and
from its environment.  In a history of safe calls each call does what it is for
(`history_meets`).

The mirror file is in `Limceron.Runtime.Records`.  A C string is the list of its bytes.
-/
import Limceron.Json.Value
import Limceron.Lib.Recency

namespace Limceron.Runtime.Memory

open Recency Json

/-! ## The tables -/

/-- `LcnMemoryEntry`, and a row of `entries`.  The type is an enumeration of C. -/
structure LcnMemoryEntry where
  id : ℤ
  agent : List UInt8
  sessionId : List UInt8
  type : ℤ
  key : List UInt8
  valueJson : List UInt8
  embedding : List Float32
  timestampMs : ℤ
  ttlMs : ℤ
  accessCount : ℤ

/-- `LcnMemorySession`, and a row of `sessions`. -/
structure LcnMemorySession where
  id : ℤ
  agent : List UInt8
  sessionId : List UInt8
  channel : List UInt8
  startedAtMs : ℤ
  lastActiveMs : ℤ
  summary : Option (List UInt8) := none
  active : Bool := true

/-- The tables, and the last id that each has given. -/
structure LcnMemoryStore where
  entries : List LcnMemoryEntry := []
  entrySeq : ℤ := 0
  sessions : List LcnMemorySession := []
  sessionSeq : ℤ := 0

structure Env where
  time : ℤ
  fails : ℕ → Bool
  stops : Option ℕ
  tie : LcnMemoryEntry → ℕ
  /-- `sqlite3_changes`, where the last statement failed. -/
  changes : ℤ

/-- `mem_now_ms`. -/
def Env.now (env : Env) : ℤ := env.time * 1000

/-- The rows of a `SELECT`. -/
def Env.read {α : Type*} (env : Env) (rows : List α) : List α :=
  match env.stops with
  | none => rows
  | some n => rows.take n

/-- `LCN_MEM_SUMMARY`. -/
def memSummary : ℤ := 2

/-! ## Entries -/

/-- `UPDATE sessions SET last_active_ms = ? WHERE session_id = ?`. -/
def LcnMemoryStore.touch (s : LcnMemoryStore) (sessionId : List UInt8) (now : ℤ) :
    LcnMemoryStore :=
  { s with sessions := s.sessions.map fun x =>
      if x.sessionId = sessionId then { x with lastActiveMs := now } else x }

/-- The row of `lcn_memory_insert`. -/
def newEntry (env : Env) (s : LcnMemoryStore) (agent sessionId : Option (List UInt8)) (type : ℤ)
    (key : Option (List UInt8)) (valueJson : List UInt8) (embedding : List Float32) (ttlMs : ℤ) :
    LcnMemoryEntry where
  id := s.entrySeq + 1
  agent := agent.getD []
  sessionId := sessionId.getD []
  type := type
  key := key.getD []
  valueJson := valueJson
  embedding := embedding
  timestampMs := env.now
  ttlMs := ttlMs
  accessCount := 0

/-- `lcn_memory_insert`; its statements are the ones from number `i` on. -/
def lcnMemoryInsert (env : Env) (i : ℕ) (s : LcnMemoryStore)
    (agent sessionId : Option (List UInt8)) (type : ℤ) (key valueJson : Option (List UInt8))
    (embedding : List Float32) (ttlMs : ℤ) : LcnMemoryStore × ℤ :=
  match valueJson with
  | none => (s, -1)
  | some valueJson =>
      if env.fails i then (s, -1)
      else
        let e := newEntry env s agent sessionId type key valueJson embedding ttlMs
        let s := { s with entries := s.entries ++ [e], entrySeq := s.entrySeq + 1 }
        if sessionId.getD [] ≠ [] ∧ env.fails (i + 1) = false then
          (s.touch (sessionId.getD []) env.now, e.id)
        else (s, e.id)

/-- `lcn_memory_delete`, by statement number `i`. -/
def lcnMemoryDelete (env : Env) (i : ℕ) (s : LcnMemoryStore) (id : ℤ) : LcnMemoryStore × Bool :=
  if env.fails i then (s, false)
  else ({ s with entries := s.entries.filter (·.id ≠ id) }, true)

/-- `row_to_entry`: the strings are cut to the room that an entry has for them. -/
def rowToEntry (e : LcnMemoryEntry) : LcnMemoryEntry :=
  { e with agent := e.agent.take 63, sessionId := e.sessionId.take 63, key := e.key.take 255 }

/-- `max_results`, where `cap` is positive. -/
def maxResults (limit cap : ℤ) : ℤ := if 0 < limit ∧ limit < cap then limit else cap

/-- The entries of an agent in a session, and those of an agent and a type. -/
def LcnMemoryStore.inSession (s : LcnMemoryStore) (agent sessionId : List UInt8) :
    List LcnMemoryEntry :=
  s.entries.filter fun e => e.agent = agent ∧ e.sessionId = sessionId

def LcnMemoryStore.ofType (s : LcnMemoryStore) (agent : List UInt8) (type : ℤ) :
    List LcnMemoryEntry :=
  s.entries.filter fun e => e.agent = agent ∧ e.type = type

/-- `SELECT … ORDER BY timestamp_ms DESC LIMIT ?`, of these rows. -/
def selectLatest (env : Env) (rows : List LcnMemoryEntry) (limit cap : ℤ) : List LcnMemoryEntry :=
  if cap ≤ 0 ∨ env.fails 0 then []
  else
    (env.read ((descending LcnMemoryEntry.timestampMs env.tie rows).take
      (maxResults limit cap).toNat)).map rowToEntry

def lcnMemoryQuerySession (env : Env) (s : LcnMemoryStore) (agent sessionId : Option (List UInt8))
    (limit cap : ℤ) : List LcnMemoryEntry :=
  selectLatest env (s.inSession (agent.getD []) (sessionId.getD [])) limit cap

def lcnMemoryQueryType (env : Env) (s : LcnMemoryStore) (agent : Option (List UInt8)) (type : ℤ)
    (limit cap : ℤ) : List LcnMemoryEntry :=
  selectLatest env (s.ofType (agent.getD []) type) limit cap

/-- `lcn_memory_expire`. -/
def lcnMemoryExpire (env : Env) (s : LcnMemoryStore) : LcnMemoryStore × ℤ :=
  if env.fails 0 then (s, env.changes)
  else
    let kept := s.entries.filter fun e => ¬ (0 < e.ttlMs ∧ e.timestampMs + e.ttlMs < env.now)
    ({ s with entries := kept }, s.entries.length - kept.length)

/-- The loop over the ids of `lcn_memory_compact`. -/
def deleteAll (env : Env) : ℕ → LcnMemoryStore → List ℤ → LcnMemoryStore
  | _, s, [] => s
  | i, s, id :: ids => deleteAll env (i + 1) (lcnMemoryDelete env i s id).1 ids

/-- The ids that `lcn_memory_compact` finds. -/
def oldestIds (env : Env) (s : LcnMemoryStore) (agent sessionId : List UInt8) (n : ℤ) : List ℤ :=
  (env.read ((ascending LcnMemoryEntry.timestampMs env.tie (s.inSession agent sessionId)).take
    n.toNat)).map LcnMemoryEntry.id

/-- `lcn_memory_compact`: one `SELECT`, a `DELETE` for each id, and an insertion. -/
def lcnMemoryCompact (env : Env) (s : LcnMemoryStore)
    (agent sessionId summaryJson : Option (List UInt8)) (n : ℤ) : LcnMemoryStore × ℤ :=
  match agent, summaryJson with
  | some agent, some summaryJson =>
      if n ≤ 0 ∨ env.fails 0 then (s, 0)
      else
        let ids := oldestIds env s agent (sessionId.getD []) n
        if ids = [] then (s, 0)
        else
          let s := deleteAll env 1 s ids
          let s := (lcnMemoryInsert env (ids.length + 1) s (some agent) sessionId memSummary
            (some (ascii "compaction_summary")) (some summaryJson) [] 0).1
          (s, ids.length)
  | _, _ => (s, 0)

/-! ## Sessions -/

/-- Session ids are compared byte by byte. -/
local instance lawfulBytes : LawfulBEq (List UInt8) := inferInstance

/-- `lcn_session_create`, by statement number `i`: the session id is unique. -/
def lcnSessionCreate (env : Env) (i : ℕ) (s : LcnMemoryStore)
    (agent sessionId channel : Option (List UInt8)) : LcnMemoryStore × ℤ :=
  match agent, sessionId with
  | some agent, some sessionId =>
      if env.fails i ∨ sessionId ∈ s.sessions.map LcnMemorySession.sessionId then (s, -1)
      else
        let x : LcnMemorySession :=
          { id := s.sessionSeq + 1
            agent := agent
            sessionId := sessionId
            channel := channel.getD []
            startedAtMs := env.now
            lastActiveMs := env.now }
        ({ s with sessions := s.sessions ++ [x], sessionSeq := s.sessionSeq + 1 }, x.id)
  | _, _ => (s, -1)

/-- `lcn_session_get_or_create`: a `SELECT` by the session id alone, and an insertion. -/
def lcnSessionGetOrCreate (env : Env) (s : LcnMemoryStore)
    (agent sessionId channel : Option (List UInt8)) : LcnMemoryStore × ℤ :=
  match agent, sessionId with
  | some agent, some sessionId =>
      if env.fails 0 then (s, -1)
      else
        match (env.read (s.sessions.filter (·.sessionId = sessionId))).head? with
        | some x => (s, x.id)
        | none => lcnSessionCreate env 1 s (some agent) (some sessionId) channel
  | _, _ => (s, -1)

def lcnSessionClose (env : Env) (s : LcnMemoryStore) (sessionId : Option (List UInt8)) :
    LcnMemoryStore × Bool :=
  match sessionId with
  | none => (s, false)
  | some sessionId =>
      if env.fails 0 then (s, false)
      else
        ({ s with sessions := s.sessions.map fun x =>
            if x.sessionId = sessionId then { x with active := false, lastActiveMs := env.now }
            else x }, true)

def lcnSessionSetSummary (env : Env) (s : LcnMemoryStore)
    (sessionId summary : Option (List UInt8)) : LcnMemoryStore × Bool :=
  match sessionId with
  | none => (s, false)
  | some sessionId =>
      if env.fails 0 then (s, false)
      else
        ({ s with sessions := s.sessions.map fun x =>
            if x.sessionId = sessionId then
              { x with summary := some (summary.getD []), lastActiveMs := env.now }
            else x }, true)

/-! ## Histories -/

/-- A call. -/
inductive Op where
  | insert (agent sessionId : Option (List UInt8)) (type : ℤ) (key valueJson : Option (List UInt8))
      (embedding : List Float32) (ttlMs : ℤ)
  | delete (id : ℤ)
  | expire
  | compact (agent sessionId summaryJson : Option (List UInt8)) (n : ℤ)
  | sessionCreate (agent sessionId channel : Option (List UInt8))
  | sessionGetOrCreate (agent sessionId channel : Option (List UInt8))
  | sessionClose (sessionId : Option (List UInt8))
  | sessionSetSummary (sessionId summary : Option (List UInt8))
  | querySession (agent sessionId : Option (List UInt8)) (limit cap : ℤ)
  | queryType (agent : Option (List UInt8)) (type limit cap : ℤ)

/-- The store behind a call. -/
def Op.apply (env : Env) (s : LcnMemoryStore) : Op → LcnMemoryStore
  | .insert agent sessionId type key valueJson embedding ttlMs =>
      (lcnMemoryInsert env 0 s agent sessionId type key valueJson embedding ttlMs).1
  | .delete id => (lcnMemoryDelete env 0 s id).1
  | .expire => (lcnMemoryExpire env s).1
  | .compact agent sessionId summaryJson n =>
      (lcnMemoryCompact env s agent sessionId summaryJson n).1
  | .sessionCreate agent sessionId channel => (lcnSessionCreate env 0 s agent sessionId channel).1
  | .sessionGetOrCreate agent sessionId channel =>
      (lcnSessionGetOrCreate env s agent sessionId channel).1
  | .sessionClose sessionId => (lcnSessionClose env s sessionId).1
  | .sessionSetSummary sessionId summary => (lcnSessionSetSummary env s sessionId summary).1
  | .querySession _ _ _ _ => s
  | .queryType _ _ _ _ => s

/-- The agent that a call is for. -/
def Op.agent : Op → Option (List UInt8)
  | .insert agent _ _ _ _ _ _ => some (agent.getD [])
  | .compact agent _ _ _ => agent
  | .sessionCreate agent _ _ => agent
  | .sessionGetOrCreate agent _ _ => agent
  | .querySession agent _ _ _ => some (agent.getD [])
  | .queryType agent _ _ _ => some (agent.getD [])
  | _ => none

/-- `P` holds of each call of a history, in the state before it. -/
def Throughout (P : LcnMemoryStore → Op → Env → Prop) : LcnMemoryStore → List (Op × Env) → Prop
  | _, [] => True
  | s, (op, env) :: calls => P s op env ∧ Throughout P (op.apply env s) calls

/-! ## What the calls are for -/

/-- Nothing of another agent is changed. -/
structure Isolated (agent : List UInt8) (s s' : LcnMemoryStore) : Prop where
  entries : s'.entries.filter (·.agent ≠ agent) = s.entries.filter (·.agent ≠ agent)
  sessions : s'.sessions.filter (·.agent ≠ agent) = s.sessions.filter (·.agent ≠ agent)

def LcnMemoryStore.outside (s : LcnMemoryStore) (agent sessionId : List UInt8) :
    List LcnMemoryEntry :=
  s.entries.filter fun e => ¬ (e.agent = agent ∧ e.sessionId = sessionId)

/-- The first `n` entries of the session are gone, a summary is there, and no other entry is
changed. -/
structure Compacted (s s' : LcnMemoryStore) (agent sessionId summaryJson : List UInt8) (n : ℤ) :
    Prop where
  outside : s'.outside agent sessionId = s.outside agent sessionId
  inside : ∃ e, s'.inSession agent sessionId = (s.inSession agent sessionId).drop n.toNat ++ [e] ∧
    e.type = memSummary ∧ e.key = ascii "compaction_summary" ∧ e.valueJson = summaryJson

/-- A statement of a compaction of so many entries fails. -/
def Env.Fails (env : Env) (k : ℕ) : Prop := (∃ i ≤ k, env.fails i = true) ∨ env.stops.isSome

/-- A query returns only these rows, and with a limit the last of them. -/
structure Answers (rows : List LcnMemoryEntry) (limit cap : ℤ) (found : List LcnMemoryEntry) :
    Prop where
  only : found ⊆ rows.map rowToEntry
  last : 0 < limit → found = (rows.reverse.take (min limit cap).toNat).map rowToEntry

def Op.Does (env : Env) (s : LcnMemoryStore) : Op → Prop
  | .compact agent sessionId summaryJson n =>
      ∀ a ∈ agent, ∀ summary ∈ summaryJson, 0 < n →
        Compacted s (lcnMemoryCompact env s agent sessionId summaryJson n).1 a (sessionId.getD [])
            summary n ∨
          env.Fails (s.inSession a (sessionId.getD [])).length ∧
            (lcnMemoryCompact env s agent sessionId summaryJson n).1 = s
  | .sessionGetOrCreate agent sessionId channel =>
      (lcnSessionGetOrCreate env s agent sessionId channel).2 ≠ -1 →
        ∃ x ∈ (lcnSessionGetOrCreate env s agent sessionId channel).1.sessions,
          x.id = (lcnSessionGetOrCreate env s agent sessionId channel).2 ∧ some x.agent = agent
  | .querySession agent sessionId limit cap =>
      Answers (s.inSession (agent.getD []) (sessionId.getD [])) limit cap
        (lcnMemoryQuerySession env s agent sessionId limit cap)
  | .queryType agent type limit cap =>
      Answers (s.ofType (agent.getD []) type) limit cap
        (lcnMemoryQueryType env s agent type limit cap)
  | _ => True

/-- The call does what it is for, and nothing to other agents than its own. -/
def Meets (s : LcnMemoryStore) (op : Op) (env : Env) : Prop :=
  (∀ agent ∈ op.agent, Isolated agent s (op.apply env s)) ∧ op.Does env s

/-! ## When they do that -/

/-- The session of that id is one of the agent's, if there is one. -/
def Own (s : LcnMemoryStore) (agent sessionId : List UInt8) : Prop :=
  ∀ x ∈ s.sessions, x.sessionId = sessionId → x.agent = agent

/-- So many rows are read before an error. -/
def Env.Reads (env : Env) (k : ℕ) : Prop := ∀ n ∈ env.stops, k ≤ n

/-- The last `k` of these rows stand out by their timestamps, and are read. -/
def Env.Queries (env : Env) (rows : List LcnMemoryEntry) (k : ℕ) : Prop :=
  env.fails 0 = false ∧ env.Reads (min k rows.length) ∧ Latest LcnMemoryEntry.timestampMs k rows

/-- No row is found, or none is deleted and nothing inserted. -/
def Env.Refuses (env : Env) (rows : List LcnMemoryEntry) : Prop :=
  env.fails 0 = true ∨ env.stops = some 0 ∨ rows ≠ [] ∧ ∀ i, 0 < i → env.fails i = true

/-- There are rows, the first `n` stand out by their timestamps, and no statement fails, up to
the insertion. -/
structure Env.Compacts (env : Env) (rows : List LcnMemoryEntry) (n : ℕ) : Prop where
  some_row : rows ≠ []
  reads : env.Reads (min n rows.length)
  works : ∀ i ≤ min n rows.length + 1, env.fails i = false
  first : ∀ a ∈ rows.take n, ∀ b ∈ rows.drop n, a.timestampMs < b.timestampMs

def Op.Safe (env : Env) (s : LcnMemoryStore) : Op → Prop
  | .insert agent sessionId _ _ valueJson _ _ =>
      valueJson = none ∨ env.fails 0 = true ∨ env.fails 1 = true ∨ sessionId.getD [] = [] ∨
        Own s (agent.getD []) (sessionId.getD [])
  | .compact agent sessionId summaryJson n =>
      ∀ a ∈ agent, summaryJson ≠ none → 0 < n →
        env.Refuses (s.inSession a (sessionId.getD [])) ∨
          env.Compacts (s.inSession a (sessionId.getD [])) n.toNat ∧
            (sessionId.getD [] = [] ∨ Own s a (sessionId.getD []))
  | .sessionGetOrCreate agent sessionId _ =>
      ∀ a ∈ agent, ∀ id ∈ sessionId, env.fails 0 = true ∨ env.stops = some 0 ∨ Own s a id
  | .querySession agent sessionId limit cap =>
      0 < limit → 0 < cap →
        env.Queries (s.inSession (agent.getD []) (sessionId.getD [])) (min limit cap).toNat
  | .queryType agent type limit cap =>
      0 < limit → 0 < cap → env.Queries (s.ofType (agent.getD []) type) (min limit cap).toNat
  | _ => True

def Safe (s : LcnMemoryStore) (op : Op) (env : Env) : Prop := op.Safe env s

/-! ## Ids -/

/-- The ids of the entries differ, and are ones that were given. -/
structure Kept (s : LcnMemoryStore) : Prop where
  nodup : (s.entries.map LcnMemoryEntry.id).Nodup
  given : ∀ e ∈ s.entries, e.id ≤ s.entrySeq

theorem Kept.of_sublist {s s' : LcnMemoryStore} (h : Kept s)
    (hentries : s'.entries.Sublist s.entries) (hseq : s'.entrySeq = s.entrySeq) : Kept s' where
  nodup := h.nodup.sublist (hentries.map _)
  given := fun e he => hseq ▸ h.given e (hentries.subset he)

theorem Kept.snoc {s s' : LcnMemoryStore} (h : Kept s) {e : LcnMemoryEntry}
    (hentries : s'.entries = s.entries ++ [e]) (hid : e.id = s.entrySeq + 1)
    (hseq : s'.entrySeq = s.entrySeq + 1) : Kept s' where
  nodup := by
    rw [hentries, List.map_append, List.map_singleton, List.nodup_append]
    refine ⟨h.nodup, List.nodup_singleton _, ?_⟩
    rintro a ha b hb rfl
    obtain ⟨d, hd, hda⟩ := List.mem_map.1 ha
    have hold := h.given d hd
    have hnew := List.mem_singleton.1 hb
    omega
  given := by
    intro d hd
    rw [hentries] at hd
    rcases List.mem_append.1 hd with hd | hd
    · have := h.given d hd
      omega
    · obtain rfl := List.mem_singleton.1 hd
      omega

/-- What an insertion does. -/
theorem lcnMemoryInsert_cases (env : Env) (i : ℕ) (s : LcnMemoryStore)
    (agent sessionId : Option (List UInt8)) (type : ℤ) (key valueJson : Option (List UInt8))
    (embedding : List Float32) (ttlMs : ℤ) :
    (lcnMemoryInsert env i s agent sessionId type key valueJson embedding ttlMs = (s, -1) ∧
        (valueJson = none ∨ env.fails i = true)) ∨
      ∃ value s', valueJson = some value ∧ env.fails i = false ∧
        lcnMemoryInsert env i s agent sessionId type key valueJson embedding ttlMs =
          (s', s.entrySeq + 1) ∧
        s'.entries = s.entries ++ [newEntry env s agent sessionId type key value embedding ttlMs] ∧
        s'.entrySeq = s.entrySeq + 1 ∧
        (s'.sessions = s.sessions ∨ sessionId.getD [] ≠ [] ∧ env.fails (i + 1) = false ∧
          s'.sessions = (s.touch (sessionId.getD []) env.now).sessions) := by
  unfold lcnMemoryInsert
  cases valueJson with
  | none => exact .inl ⟨rfl, .inl rfl⟩
  | some value =>
      dsimp only
      split
      · next hfails => exact .inl ⟨rfl, .inr hfails⟩
      · next hfails =>
          have hworks : env.fails i = false := Bool.eq_false_iff.2 hfails
          right
          split
          · next htouch => exact ⟨value, _, rfl, hworks, rfl, rfl, rfl, .inr ⟨htouch.1, htouch.2, rfl⟩⟩
          · exact ⟨value, _, rfl, hworks, rfl, rfl, rfl, .inl rfl⟩

theorem lcnMemoryInsert_kept {env : Env} {i : ℕ} {s : LcnMemoryStore} (h : Kept s)
    (agent sessionId : Option (List UInt8)) (type : ℤ) (key valueJson : Option (List UInt8))
    (embedding : List Float32) (ttlMs : ℤ) :
    Kept (lcnMemoryInsert env i s agent sessionId type key valueJson embedding ttlMs).1 := by
  rcases lcnMemoryInsert_cases env i s agent sessionId type key valueJson embedding ttlMs with
    ⟨heq, -⟩ | ⟨value, s', -, -, heq, hentries, hseq, -⟩
  · rw [heq]
    exact h
  · rw [heq]
    exact h.snoc hentries rfl hseq

theorem lcnMemoryDelete_kept {env : Env} {i : ℕ} {s : LcnMemoryStore} (h : Kept s) (id : ℤ) :
    Kept (lcnMemoryDelete env i s id).1 := by
  unfold lcnMemoryDelete
  split
  · exact h
  · exact h.of_sublist List.filter_sublist rfl

theorem deleteAll_kept {env : Env} {i : ℕ} {s : LcnMemoryStore} (h : Kept s) (ids : List ℤ) :
    Kept (deleteAll env i s ids) := by
  induction ids generalizing i s with
  | nil => exact h
  | cons id ids ih => exact ih (lcnMemoryDelete_kept h id)

theorem lcnSessionCreate_entries (env : Env) (i : ℕ) (s : LcnMemoryStore)
    (agent sessionId channel : Option (List UInt8)) :
    (lcnSessionCreate env i s agent sessionId channel).1.entries = s.entries ∧
      (lcnSessionCreate env i s agent sessionId channel).1.entrySeq = s.entrySeq := by
  unfold lcnSessionCreate
  split
  · split
    · exact ⟨rfl, rfl⟩
    · exact ⟨rfl, rfl⟩
  · exact ⟨rfl, rfl⟩

theorem lcnSessionGetOrCreate_entries (env : Env) (s : LcnMemoryStore)
    (agent sessionId channel : Option (List UInt8)) :
    (lcnSessionGetOrCreate env s agent sessionId channel).1.entries = s.entries ∧
      (lcnSessionGetOrCreate env s agent sessionId channel).1.entrySeq = s.entrySeq := by
  unfold lcnSessionGetOrCreate
  split
  · split
    · exact ⟨rfl, rfl⟩
    · split
      · exact ⟨rfl, rfl⟩
      · exact lcnSessionCreate_entries env 1 s _ _ channel
  · exact ⟨rfl, rfl⟩

/-- Every call keeps the ids. -/
theorem apply_kept {env : Env} {s : LcnMemoryStore} (h : Kept s) (op : Op) :
    Kept (op.apply env s) := by
  cases op with
  | insert agent sessionId type key valueJson embedding ttlMs =>
      exact lcnMemoryInsert_kept h agent sessionId type key valueJson embedding ttlMs
  | delete id => exact lcnMemoryDelete_kept h id
  | expire =>
      unfold Op.apply lcnMemoryExpire
      dsimp only
      split
      · exact h
      · exact h.of_sublist List.filter_sublist rfl
  | compact agent sessionId summaryJson n =>
      unfold Op.apply lcnMemoryCompact
      dsimp only
      split
      · split
        · exact h
        · split
          · exact h
          · exact lcnMemoryInsert_kept (deleteAll_kept h _) _ _ _ _ _ _ _
      · exact h
  | sessionCreate agent sessionId channel =>
      obtain ⟨hentries, hseq⟩ := lcnSessionCreate_entries env 0 s agent sessionId channel
      exact h.of_sublist (hentries ▸ List.Sublist.refl _) hseq
  | sessionGetOrCreate agent sessionId channel =>
      obtain ⟨hentries, hseq⟩ := lcnSessionGetOrCreate_entries env s agent sessionId channel
      exact h.of_sublist (hentries ▸ List.Sublist.refl _) hseq
  | sessionClose sessionId =>
      unfold Op.apply lcnSessionClose
      dsimp only
      split
      · exact h
      · split
        · exact h
        · exact h.of_sublist (List.Sublist.refl _) rfl
  | sessionSetSummary sessionId summary =>
      unfold Op.apply lcnSessionSetSummary
      dsimp only
      split
      · exact h
      · split
        · exact h
        · exact h.of_sublist (List.Sublist.refl _) rfl
  | querySession agent sessionId limit cap => exact h
  | queryType agent type limit cap => exact h

/-! ## Queries -/

theorem Env.read_eq {α : Type*} {env : Env} {rows : List α} {k : ℕ} (h : env.Reads k)
    (hrows : rows.length ≤ k) : env.read rows = rows := by
  unfold Env.read
  split
  · rfl
  · next n hn => exact List.take_of_length_le (hrows.trans (h n hn))

theorem selectLatest_eq {env : Env} {rows : List LcnMemoryEntry} {limit cap : ℤ}
    (hlimit : 0 < limit) (h : 0 < cap → env.Queries rows (min limit cap).toNat) :
    selectLatest env rows limit cap = (rows.reverse.take (min limit cap).toNat).map rowToEntry := by
  unfold selectLatest
  by_cases hcap : cap ≤ 0
  · have hnone : (min limit cap).toNat = 0 := Int.toNat_of_nonpos ((min_le_right _ _).trans hcap)
    rw [if_pos (.inl hcap), hnone]
    rfl
  · obtain ⟨hworks, hreads, hlatest⟩ := h (Int.not_le.1 hcap)
    have hmax : maxResults limit cap = min limit cap := by
      unfold maxResults
      split
      · omega
      · omega
    have hlength : ((descending LcnMemoryEntry.timestampMs env.tie rows).take
        (min limit cap).toNat).length ≤ min (min limit cap).toNat rows.length := by
      rw [List.length_take, (descending_perm _ env.tie rows).length_eq]
    rw [if_neg (by simp [hcap, hworks]), hmax, Env.read_eq hreads hlength,
      descending_take env.tie hlatest]

theorem selectLatest_subset (env : Env) (rows : List LcnMemoryEntry) (limit cap : ℤ) :
    selectLatest env rows limit cap ⊆ rows.map rowToEntry := by
  unfold selectLatest
  split
  · exact List.nil_subset _
  · refine List.map_subset _ fun e he => ?_
    have hfound : e ∈ (descending LcnMemoryEntry.timestampMs env.tie rows).take
        (maxResults limit cap).toNat := by
      unfold Env.read at he
      split at he
      · exact he
      · exact List.mem_of_mem_take he
    exact (descending_perm _ env.tie rows).subset (List.mem_of_mem_take hfound)

theorem selectLatest_answers {env : Env} {rows : List LcnMemoryEntry} {limit cap : ℤ}
    (h : 0 < limit → 0 < cap → env.Queries rows (min limit cap).toNat) :
    Answers rows limit cap (selectLatest env rows limit cap) :=
  ⟨selectLatest_subset env rows limit cap, fun hlimit => selectLatest_eq hlimit (h hlimit)⟩

/-! ## Compaction -/

theorem deleteAll_eq {env : Env} {i : ℕ} {s : LcnMemoryStore} {ids : List ℤ}
    (h : ∀ j < ids.length, env.fails (i + j) = false) :
    deleteAll env i s ids = { s with entries := s.entries.filter (·.id ∉ ids) } := by
  induction ids generalizing i s with
  | nil => simp [deleteAll]
  | cons id ids ih =>
      have hfirst : env.fails i = false := h 0 (Nat.succ_pos _)
      have hrest : ∀ j < ids.length, env.fails (i + 1 + j) = false := by
        intro j hj
        have := h (j + 1) (Nat.succ_lt_succ hj)
        rwa [show i + (j + 1) = i + 1 + j by omega] at this
      rw [deleteAll, lcnMemoryDelete, hfirst, if_neg (by decide), ih hrest]
      simp [List.filter_filter, Bool.and_comm]

theorem deleteAll_fails {env : Env} {i : ℕ} {s : LcnMemoryStore} {ids : List ℤ}
    (h : ∀ j, i ≤ j → env.fails j = true) : deleteAll env i s ids = s := by
  induction ids generalizing i with
  | nil => rfl
  | cons id ids ih =>
      rw [deleteAll, lcnMemoryDelete, h i le_rfl, if_pos rfl]
      exact ih fun j hj => h j (by omega)

/-- In a list of different ids, the ids of a first part are found there only. -/
theorem filter_take {rows : List LcnMemoryEntry} {ids : List ℤ} {n : ℕ}
    (hnodup : (rows.map LcnMemoryEntry.id).Nodup)
    (hids : ids.Perm ((rows.take n).map LcnMemoryEntry.id)) :
    rows.filter (·.id ∉ ids) = rows.drop n := by
  have hmem (e : LcnMemoryEntry) : e.id ∈ ids ↔ e.id ∈ (rows.take n).map LcnMemoryEntry.id :=
    hids.mem_iff
  have hsplit := List.take_append_drop n rows
  rw [← hsplit, List.map_append] at hnodup
  conv_lhs => rw [← hsplit]
  rw [List.filter_append, List.filter_eq_nil_iff.2, List.filter_eq_self.2, List.nil_append]
  · intro e he
    simp only [decide_eq_true_eq, hmem]
    exact fun hold => List.disjoint_of_nodup_append hnodup hold (List.mem_map_of_mem he)
  · intro e he
    simp only [decide_eq_true_eq, hmem, not_not]
    exact List.mem_map_of_mem he

/-- The ids that are found are those of the first entries. -/
theorem oldestIds_perm {env : Env} {s : LcnMemoryStore} {agent sessionId : List UInt8} {n : ℤ}
    (h : env.Compacts (s.inSession agent sessionId) n.toNat) :
    (oldestIds env s agent sessionId n).Perm
      (((s.inSession agent sessionId).take n.toNat).map LcnMemoryEntry.id) := by
  have hlength : ((ascending LcnMemoryEntry.timestampMs env.tie
      (s.inSession agent sessionId)).take n.toNat).length ≤
        min n.toNat (s.inSession agent sessionId).length := by
    rw [List.length_take, (ascending_perm _ env.tie _).length_eq]
  rw [oldestIds, Env.read_eq h.reads hlength]
  exact (ascending_take env.tie h.first).map _

theorem oldestIds_ne_nil {env : Env} {s : LcnMemoryStore} {agent sessionId : List UInt8} {n : ℤ}
    (hn : 0 < n) (h : env.Compacts (s.inSession agent sessionId) n.toNat) :
    oldestIds env s agent sessionId n ≠ [] := by
  intro hnil
  have hperm := oldestIds_perm h
  rw [hnil] at hperm
  have hnone := List.map_eq_nil_iff.1 hperm.symm.eq_nil
  rcases List.take_eq_nil_iff.1 hnone with hzero | hrows
  · omega
  · exact h.some_row hrows

theorem oldestIds_length {env : Env} {s : LcnMemoryStore} {agent sessionId : List UInt8} {n : ℤ}
    (h : env.Compacts (s.inSession agent sessionId) n.toNat) :
    (oldestIds env s agent sessionId n).length =
      min n.toNat (s.inSession agent sessionId).length := by
  rw [(oldestIds_perm h).length_eq, List.length_map, List.length_take]

/-- An id of the session's entries is no other entry's. -/
theorem notMem_oldestIds {env : Env} {s : LcnMemoryStore} (hkept : Kept s)
    {agent sessionId : List UInt8} {n : ℤ}
    (h : env.Compacts (s.inSession agent sessionId) n.toNat) {e : LcnMemoryEntry}
    (he : e ∈ s.entries) (hother : ¬ (e.agent = agent ∧ e.sessionId = sessionId)) :
    e.id ∉ oldestIds env s agent sessionId n := by
  intro hid
  obtain ⟨d, hd, heq⟩ := List.mem_map.1 ((oldestIds_perm h).subset hid)
  have hmem := List.mem_filter.1 (List.mem_of_mem_take hd)
  obtain rfl : d = e := List.inj_on_of_nodup_map hkept.nodup hmem.1 he heq
  exact hother (by simpa using hmem.2)

/-! ## Other agents -/

/-- What a function leaves as it is, it leaves where it is. -/
theorem filter_map_fixed {α : Type*} {f : α → α} {p : α → Bool} {l : List α}
    (h : ∀ x ∈ l, p (f x) = p x ∧ (p x = true → f x = x)) :
    (l.map f).filter p = l.filter p := by
  induction l with
  | nil => rfl
  | cons x l ih =>
      obtain ⟨hp, hfixed⟩ := h x List.mem_cons_self
      have hrest := ih fun y hy => h y (List.mem_cons_of_mem x hy)
      rw [List.map_cons, List.filter_cons, List.filter_cons, hp, hrest]
      split
      · next hx => rw [hfixed hx]
      · rfl

/-- The sessions of others, where the time of one of the agent's is set. -/
theorem touch_sessions {s : LcnMemoryStore} {agent sessionId : List UInt8} (now : ℤ)
    (h : Own s agent sessionId) :
    (s.touch sessionId now).sessions.filter (·.agent ≠ agent) =
      s.sessions.filter (·.agent ≠ agent) := by
  refine filter_map_fixed fun x hx => ⟨?_, ?_⟩
  · split
    · rfl
    · rfl
  · intro hother
    refine if_neg fun hid => ?_
    simp [h x hx hid] at hother

theorem Isolated.refl (agent : List UInt8) (s : LcnMemoryStore) : Isolated agent s s := ⟨rfl, rfl⟩

theorem Isolated.trans {agent : List UInt8} {s t u : LcnMemoryStore} (hst : Isolated agent s t)
    (htu : Isolated agent t u) : Isolated agent s u :=
  ⟨htu.entries.trans hst.entries, htu.sessions.trans hst.sessions⟩

theorem lcnMemoryInsert_isolated {env : Env} {i : ℕ} {s : LcnMemoryStore}
    {agent sessionId : Option (List UInt8)} {type : ℤ} {key valueJson : Option (List UInt8)}
    {embedding : List Float32} {ttlMs : ℤ}
    (h : valueJson = none ∨ env.fails i = true ∨ env.fails (i + 1) = true ∨
      sessionId.getD [] = [] ∨ Own s (agent.getD []) (sessionId.getD [])) :
    Isolated (agent.getD []) s
      (lcnMemoryInsert env i s agent sessionId type key valueJson embedding ttlMs).1 := by
  rcases lcnMemoryInsert_cases env i s agent sessionId type key valueJson embedding ttlMs with
    ⟨heq, -⟩ | ⟨value, s', hvalue, hworks, heq, hentries, -, hsessions⟩
  · rw [heq]
    exact .refl _ s
  · rw [heq]
    refine ⟨?_, ?_⟩
    · simp [hentries, newEntry]
    · rcases hsessions with hsame | ⟨hid, htouched, hsessions⟩
      · rw [hsame]
      · have hown : Own s (agent.getD []) (sessionId.getD []) := by
          simpa [hvalue, hworks, htouched, hid] using h
        rw [hsessions, touch_sessions env.now hown]

theorem lcnSessionCreate_cases (env : Env) (i : ℕ) (s : LcnMemoryStore)
    (agent sessionId channel : Option (List UInt8)) :
    lcnSessionCreate env i s agent sessionId channel = (s, -1) ∨
      ∃ x : LcnMemorySession, some x.agent = agent ∧
        (lcnSessionCreate env i s agent sessionId channel).1.entries = s.entries ∧
        (lcnSessionCreate env i s agent sessionId channel).1.sessions = s.sessions ++ [x] ∧
        (lcnSessionCreate env i s agent sessionId channel).2 = x.id := by
  unfold lcnSessionCreate
  split
  · split
    · exact .inl rfl
    · exact .inr ⟨_, rfl, rfl, rfl, rfl⟩
  · exact .inl rfl

theorem lcnSessionCreate_isolated {env : Env} {i : ℕ} {s : LcnMemoryStore} {agent : List UInt8}
    {sessionId channel : Option (List UInt8)} :
    Isolated agent s (lcnSessionCreate env i s (some agent) sessionId channel).1 := by
  rcases lcnSessionCreate_cases env i s (some agent) sessionId channel with
    heq | ⟨x, hagent, hentries, hsessions, -⟩
  · rw [heq]
    exact .refl _ s
  · obtain rfl := Option.some.inj hagent
    exact ⟨by rw [hentries], by simp [hsessions]⟩

/-- What `lcn_session_get_or_create` does: it refuses, finds a session, or creates one. -/
theorem lcnSessionGetOrCreate_cases (env : Env) (s : LcnMemoryStore)
    (agent sessionId channel : Option (List UInt8)) :
    lcnSessionGetOrCreate env s agent sessionId channel = (s, -1) ∨
      (∃ x ∈ s.sessions, some x.sessionId = sessionId ∧ env.fails 0 = false ∧
        env.stops ≠ some 0 ∧ agent ≠ none ∧
        lcnSessionGetOrCreate env s agent sessionId channel = (s, x.id)) ∨
      lcnSessionGetOrCreate env s agent sessionId channel =
        lcnSessionCreate env 1 s agent sessionId channel := by
  unfold lcnSessionGetOrCreate
  cases agent with
  | none => exact .inl rfl
  | some agent =>
      cases sessionId with
      | none => exact .inl rfl
      | some sessionId =>
          dsimp only
          split
          · exact .inl rfl
          · next hworks =>
              split
              · next x hx =>
                  have hread := List.mem_of_head? hx
                  have hrows : x ∈ s.sessions.filter (·.sessionId = sessionId) := by
                    unfold Env.read at hread
                    split at hread
                    · exact hread
                    · exact List.mem_of_mem_take hread
                  obtain ⟨hmem, hid⟩ := List.mem_filter.1 hrows
                  refine .inr (.inl ⟨x, hmem, by simpa using hid, Bool.eq_false_iff.2 hworks, ?_,
                    by simp, rfl⟩)
                  intro hstops
                  simp [Env.read, hstops] at hread
              · exact .inr (.inr rfl)

theorem lcnSessionGetOrCreate_isolated {env : Env} {s : LcnMemoryStore} {agent : List UInt8}
    {sessionId channel : Option (List UInt8)} :
    Isolated agent s (lcnSessionGetOrCreate env s (some agent) sessionId channel).1 := by
  rcases lcnSessionGetOrCreate_cases env s (some agent) sessionId channel with
    heq | ⟨x, -, -, -, -, -, heq⟩ | heq
  · rw [heq]
    exact .refl _ s
  · rw [heq]
    exact .refl _ s
  · rw [heq]
    exact lcnSessionCreate_isolated

/-- Where the sessions of that id are the agent's, so is the one it returns. -/
theorem lcnSessionGetOrCreate_own {env : Env} {s : LcnMemoryStore}
    {agent sessionId : Option (List UInt8)} (channel : Option (List UInt8))
    (h : ∀ a ∈ agent, ∀ id ∈ sessionId, env.fails 0 = true ∨ env.stops = some 0 ∨ Own s a id)
    (hret : (lcnSessionGetOrCreate env s agent sessionId channel).2 ≠ -1) :
    ∃ x ∈ (lcnSessionGetOrCreate env s agent sessionId channel).1.sessions,
      x.id = (lcnSessionGetOrCreate env s agent sessionId channel).2 ∧ some x.agent = agent := by
  rcases lcnSessionGetOrCreate_cases env s agent sessionId channel with
    heq | ⟨x, hx, hid, hworks, hstops, hagent, heq⟩ | heq
  · rw [heq] at hret
    exact absurd rfl hret
  · obtain ⟨a, rfl⟩ := Option.ne_none_iff_exists'.1 hagent
    subst hid
    have hown : Own s a x.sessionId := by
      simpa [hworks, hstops] using h a rfl x.sessionId rfl
    rw [heq]
    exact ⟨x, hx, rfl, congrArg some (hown x hx rfl)⟩
  · rw [heq] at hret ⊢
    rcases lcnSessionCreate_cases env 1 s agent sessionId channel with
      hsame | ⟨x, hagent, -, hsessions, hid⟩
    · rw [hsame] at hret
      exact absurd rfl hret
    · refine ⟨x, ?_, hid.symm, hagent⟩
      rw [hsessions]
      exact List.mem_append_right _ (List.mem_singleton.2 rfl)

/-! ## What a compaction does -/

theorem lcnMemoryCompact_refuses {env : Env} {s : LcnMemoryStore} {agent sessionId : List UInt8}
    (h : env.Refuses (s.inSession agent sessionId)) (session : Option (List UInt8))
    (hsession : session.getD [] = sessionId) (summary : List UInt8) (n : ℤ) :
    (lcnMemoryCompact env s (some agent) session (some summary) n).1 = s := by
  subst hsession
  unfold lcnMemoryCompact
  dsimp only
  split
  · rfl
  · next hworks =>
      rw [not_or] at hworks
      split
      · rfl
      · next hids =>
          rcases h with hfails | hstops | ⟨-, hfails⟩
          · exact absurd hfails hworks.2
          · exact absurd (by simp [oldestIds, Env.read, hstops]) hids
          · rw [deleteAll_fails fun j hj => hfails j hj]
            simp [lcnMemoryInsert, hfails]

theorem Env.Refuses.fails {env : Env} {rows : List LcnMemoryEntry} (h : env.Refuses rows) :
    env.Fails rows.length := by
  rcases h with hfails | hstops | ⟨hrows, hfails⟩
  · exact .inl ⟨0, Nat.zero_le _, hfails⟩
  · exact .inr (by simp [hstops])
  · exact .inl ⟨1, List.length_pos_iff.2 hrows, hfails 1 Nat.one_pos⟩

/-- Where no statement fails, the entries found are gone, and the summary is the last. -/
theorem lcnMemoryCompact_entries {env : Env} {s : LcnMemoryStore} {agent : List UInt8}
    {session : Option (List UInt8)} {n : ℤ} (hn : 0 < n)
    (h : env.Compacts (s.inSession agent (session.getD [])) n.toNat) (summary : List UInt8) :
    (lcnMemoryCompact env s (some agent) session (some summary) n).1.entries =
      s.entries.filter (·.id ∉ oldestIds env s agent (session.getD []) n) ++
        [newEntry env s (some agent) session memSummary (some (ascii "compaction_summary")) summary
          [] 0] := by
  have hlength := oldestIds_length h
  have hdelete : ∀ j < (oldestIds env s agent (session.getD []) n).length,
      env.fails (1 + j) = false := fun j hj => h.works _ (by omega)
  have hinsert : env.fails ((oldestIds env s agent (session.getD []) n).length + 1) = false :=
    h.works _ (by omega)
  have hselect : env.fails 0 = false := h.works 0 (Nat.zero_le _)
  have hselected : ¬ (n ≤ 0 ∨ env.fails 0 = true) := by
    rw [hselect]
    simpa using hn
  unfold lcnMemoryCompact
  dsimp only
  rw [if_neg hselected, if_neg (oldestIds_ne_nil hn h), deleteAll_eq hdelete]
  rcases lcnMemoryInsert_cases env ((oldestIds env s agent (session.getD []) n).length + 1)
      { s with entries := s.entries.filter (·.id ∉ oldestIds env s agent (session.getD []) n) }
      (some agent) session memSummary (some (ascii "compaction_summary")) (some summary) [] 0 with
    ⟨-, hrefused⟩ | ⟨value, s', hvalue, -, heq, hentries, -, -⟩
  · simp [hinsert] at hrefused
  · obtain rfl := Option.some.inj hvalue
    rw [heq]
    exact hentries

theorem lcnMemoryCompact_compacted {env : Env} {s : LcnMemoryStore} (hkept : Kept s)
    {agent : List UInt8} {session : Option (List UInt8)} {n : ℤ} (hn : 0 < n)
    (h : env.Compacts (s.inSession agent (session.getD [])) n.toNat) (summary : List UInt8) :
    Compacted s (lcnMemoryCompact env s (some agent) session (some summary) n).1 agent
      (session.getD []) summary n := by
  have hentries := lcnMemoryCompact_entries hn h summary
  refine ⟨?_, newEntry env s (some agent) session memSummary (some (ascii "compaction_summary"))
    summary [] 0, ?_, rfl, rfl, rfl⟩
  · rw [LcnMemoryStore.outside, hentries, List.filter_append, List.filter_filter]
    have hnew : [newEntry env s (some agent) session memSummary
        (some (ascii "compaction_summary")) summary [] 0].filter
          (fun e => ¬ (e.agent = agent ∧ e.sessionId = session.getD [])) = [] := by
      simp [newEntry]
    rw [hnew, List.append_nil]
    refine List.filter_congr fun e he => ?_
    by_cases hin : e.agent = agent ∧ e.sessionId = session.getD []
    · simp [hin]
    · simp [hin, notMem_oldestIds hkept h he hin]
  · have hnodup : ((s.inSession agent (session.getD [])).map LcnMemoryEntry.id).Nodup :=
      hkept.nodup.sublist (List.filter_sublist.map _)
    rw [← filter_take hnodup (oldestIds_perm h), LcnMemoryStore.inSession, hentries,
      List.filter_append, List.filter_filter]
    simp [LcnMemoryStore.inSession, newEntry, List.filter_filter, Bool.and_comm]

theorem lcnMemoryCompact_isolated {env : Env} {s : LcnMemoryStore} (hkept : Kept s)
    {agent : List UInt8} {session : Option (List UInt8)} {n : ℤ} (hn : 0 < n)
    (h : env.Compacts (s.inSession agent (session.getD [])) n.toNat)
    (hown : session.getD [] = [] ∨ Own s agent (session.getD [])) (summary : List UInt8) :
    Isolated agent s (lcnMemoryCompact env s (some agent) session (some summary) n).1 := by
  have hlength := oldestIds_length h
  have hdelete : ∀ j < (oldestIds env s agent (session.getD []) n).length,
      env.fails (1 + j) = false := fun j hj => h.works _ (by omega)
  have hselected : ¬ (n ≤ 0 ∨ env.fails 0 = true) := by
    rw [h.works 0 (Nat.zero_le _)]
    simpa using hn
  have hold : Isolated agent s
      { s with entries := s.entries.filter (·.id ∉ oldestIds env s agent (session.getD []) n) } := by
    refine ⟨?_, rfl⟩
    dsimp only
    rw [List.filter_filter]
    refine List.filter_congr fun e he => ?_
    by_cases hagent : e.agent = agent
    · simp [hagent]
    · simp [hagent, notMem_oldestIds hkept h he fun hin => hagent hin.1]
  unfold lcnMemoryCompact
  dsimp only
  rw [if_neg hselected, if_neg (oldestIds_ne_nil hn h), deleteAll_eq hdelete]
  refine hold.trans ?_
  change Isolated ((some agent).getD []) _ _
  exact lcnMemoryInsert_isolated (.inr (.inr (.inr hown)))

/-- A compaction without an agent or a summary, or of no entries. -/
theorem lcnMemoryCompact_none {env : Env} {s : LcnMemoryStore}
    {agent sessionId summaryJson : Option (List UInt8)} {n : ℤ}
    (h : summaryJson = none ∨ n ≤ 0) :
    (lcnMemoryCompact env s agent sessionId summaryJson n).1 = s := by
  unfold lcnMemoryCompact
  split
  · rcases h with hnone | hn
    · exact absurd hnone (by simp)
    · rw [if_pos (.inl hn)]
  · rfl

theorem lcnMemoryCompact_meets {env : Env} {s : LcnMemoryStore} (hkept : Kept s)
    {agent sessionId summaryJson : Option (List UInt8)} {n : ℤ}
    (h : Safe s (.compact agent sessionId summaryJson n) env) :
    Meets s (.compact agent sessionId summaryJson n) env := by
  refine ⟨?_, ?_⟩
  · intro a ha
    by_cases hnone : summaryJson = none ∨ n ≤ 0
    · unfold Op.apply
      dsimp only
      rw [lcnMemoryCompact_none hnone]
      exact .refl a s
    · rw [not_or, Int.not_le] at hnone
      obtain rfl : agent = some a := ha
      obtain ⟨summary, rfl⟩ := Option.ne_none_iff_exists'.1 hnone.1
      rcases h a rfl hnone.1 hnone.2 with hrefuses | ⟨hcompacts, hown⟩
      · unfold Op.apply
        dsimp only
        rw [lcnMemoryCompact_refuses hrefuses sessionId rfl]
        exact .refl a s
      · exact lcnMemoryCompact_isolated hkept hnone.2 hcompacts hown summary
  · intro a ha summary hsummary hn
    obtain rfl : agent = some a := ha
    obtain rfl : summaryJson = some summary := hsummary
    rcases h a rfl (by simp) hn with hrefuses | ⟨hcompacts, -⟩
    · exact .inr ⟨hrefuses.fails, lcnMemoryCompact_refuses hrefuses sessionId rfl summary n⟩
    · exact .inl (lcnMemoryCompact_compacted hkept hn hcompacts summary)

/-! ## Histories of safe calls -/

/-- A safe call does what it is for. -/
theorem step_meets {s : LcnMemoryStore} (hkept : Kept s) {op : Op} {env : Env}
    (h : Safe s op env) : Meets s op env := by
  cases op with
  | insert agent sessionId type key valueJson embedding ttlMs =>
      refine ⟨?_, trivial⟩
      intro a ha
      obtain rfl : agent.getD [] = a := Option.some.inj ha
      exact lcnMemoryInsert_isolated h
  | delete id => exact ⟨by simp [Op.agent], trivial⟩
  | expire => exact ⟨by simp [Op.agent], trivial⟩
  | compact agent sessionId summaryJson n => exact lcnMemoryCompact_meets hkept h
  | sessionCreate agent sessionId channel =>
      refine ⟨?_, trivial⟩
      intro a ha
      obtain rfl : agent = some a := ha
      exact lcnSessionCreate_isolated
  | sessionGetOrCreate agent sessionId channel =>
      refine ⟨?_, lcnSessionGetOrCreate_own channel h⟩
      intro a ha
      obtain rfl : agent = some a := ha
      exact lcnSessionGetOrCreate_isolated
  | sessionClose sessionId => exact ⟨by simp [Op.agent], trivial⟩
  | sessionSetSummary sessionId summary => exact ⟨by simp [Op.agent], trivial⟩
  | querySession agent sessionId limit cap =>
      exact ⟨fun a _ => .refl a s, selectLatest_answers h⟩
  | queryType agent type limit cap =>
      exact ⟨fun a _ => .refl a s, selectLatest_answers h⟩

theorem throughout_meets {s : LcnMemoryStore} (hkept : Kept s) {calls : List (Op × Env)}
    (h : Throughout Safe s calls) : Throughout Meets s calls := by
  induction calls generalizing s with
  | nil => trivial
  | cons call calls ih =>
      obtain ⟨hsafe, hrest⟩ := h
      exact ⟨step_meets hkept hsafe, ih (apply_kept hkept call.1) hrest⟩

/-- From the empty store, in a history of safe calls each call does what it is for. -/
theorem history_meets (calls : List (Op × Env)) (h : Throughout Safe {} calls) :
    Throughout Meets {} calls := by
  refine throughout_meets ?_ h
  exact ⟨List.nodup_nil, by simp⟩

/-- A call in which nothing fails. -/
def quiet : Env where
  time := 1
  fails := fun _ => false
  stops := none
  tie := fun _ => 0
  changes := 0

/-- An agent that asks for its session twice. -/
theorem history_meets_planner :
    Throughout Meets {}
      [(.sessionGetOrCreate (some (ascii "planner")) (some (ascii "s1")) none, quiet),
        (.sessionGetOrCreate (some (ascii "planner")) (some (ascii "s1")) none, quiet)] := by
  refine history_meets _ ⟨?_, ?_, trivial⟩
  · rintro a - id -
    exact .inr (.inr fun x hx => absurd hx List.not_mem_nil)
  · intro a ha id hid
    obtain rfl : ascii "planner" = a := Option.some.inj ha
    refine .inr (.inr fun x hx _ => ?_)
    obtain rfl := List.mem_singleton.1 hx
    rfl

/-- The second agent gets the session of the first. -/
theorem not_history_meets : ¬ ∀ calls, Throughout Meets {} calls := by
  intro h
  obtain ⟨-, ⟨-, hdoes⟩, -⟩ := h
    [(.sessionGetOrCreate (some (ascii "planner")) (some (ascii "s1")) none, quiet),
      (.sessionGetOrCreate (some (ascii "writer")) (some (ascii "s1")) none, quiet)]
  obtain ⟨x, hx, -, hagent⟩ := hdoes (by decide)
  obtain rfl := List.mem_singleton.1 hx
  exact absurd (Option.some.inj hagent) (by decide)

end Limceron.Runtime.Memory
