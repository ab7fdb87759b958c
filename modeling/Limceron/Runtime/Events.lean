/-
# `Limceron.Runtime.Events` — the event store, and reading it with a cursor

`runtime/event.c`.  The store is a ring of 8192 events; a new event takes the place of
the oldest.  A reader asks for the events from a sequence number on, and goes on behind
the last one that it was given:

| | is given |
| :-- | :-- |
| to the reader, in the end | each event that passes its filter, once and in order |
| if a call stops at its limit | what the store still has, at the next call |

So an event can be lost that was emitted before a call and not given by it
(`limit_loses`), and no other (`reader_complete`).

A C string is the list of its bytes.  The clock is read from outside.
-/
import Limceron.Lib.Pages
import Limceron.Lib.Ring
import Mathlib.Algebra.Ring.Nat
import Mathlib.Data.Int.Notation
import Mathlib.Data.List.Induction

namespace Limceron.Runtime.Events

open Pages Ring

/-! ## The data -/

/-- `LcnEventKind`. -/
inductive EventKind where
  | agentStart | agentStop | agentFail
  | llmRequest | llmResponse
  | budgetDeduct | budgetExhausted
  | guardCheck | guardTrigger
  | capabilityAccess
  | toolCall | toolResult
  | channelSend | channelRecv
  | log
  | memoryStore | memoryQuery | memoryCompact
  deriving DecidableEq

/-- The kind as an `int`. -/
def EventKind.toInt (kind : EventKind) : ℤ := kind.ctorIdx

structure LcnEvent where
  kind : EventKind
  timestampMs : UInt64
  seq : UInt64
  agentName : List UInt8
  sessionId : List UInt8
  detailJson : List UInt8
  deriving DecidableEq

/-- `LCN_EVENT_STORE_CAPACITY`. -/
def capacity : ℕ := 8192

/-- The slots, the oldest of them and how many there are. -/
structure LcnEventStore where
  events : ℕ → LcnEvent
  head : ℕ
  count : ℕ
  nextSeq : UInt64

/-- What `memset` leaves. -/
def zeroEvent : LcnEvent := ⟨.agentStart, 0, 0, [], [], []⟩

/-- `lcn_event_store_init`. -/
def lcnEventStoreInit : LcnEventStore := ⟨fun _ => zeroEvent, 0, 0, 0⟩

/-- `safe_copy`: as many bytes as there is room for, beside the NUL. -/
def safeCopy (cap : ℕ) (src : Option (List UInt8)) : List UInt8 := (src.getD []).take (cap - 1)

/-! ## Emitting -/

/-- What `lcn_event_emit` is called with, and the time. -/
structure Emission where
  kind : EventKind
  agentName : Option (List UInt8)
  sessionId : Option (List UInt8)
  detailJson : Option (List UInt8)
  now : UInt64

/-- The event that is kept, with its number. -/
def Emission.event (e : Emission) (seq : UInt64) : LcnEvent where
  kind := e.kind
  timestampMs := e.now
  seq := seq
  agentName := safeCopy 64 e.agentName
  sessionId := safeCopy 64 e.sessionId
  detailJson := safeCopy 512 e.detailJson

/-- `lcn_event_emit`. -/
def lcnEventEmit (store : LcnEventStore) (e : Emission) : LcnEventStore :=
  let idx := (store.head + store.count) % capacity
  let full := store.count = capacity
  { events := Function.update store.events idx (e.event store.nextSeq)
    head := if full then (store.head + 1) % capacity else store.head
    count := if full then store.count else store.count + 1
    nextSeq := store.nextSeq + 1 }

/-! ## Asking -/

/-- What a query is for: a kind, or any where it is negative, and an agent, or any. -/
structure EventFilter where
  kind : ℤ
  agent : Option (List UInt8)

def EventFilter.passes (f : EventFilter) (ev : LcnEvent) : Bool :=
  (f.kind < 0 || ev.kind.toInt = f.kind) &&
    match f.agent with
    | none => true
    | some [] => true
    | some agent => ev.agentName = agent

/-- The loop of `lcn_event_query`, with so many events left to look at, and room for so many. -/
def queryLoop (store : LcnEventStore) (matched : LcnEvent → Bool) :
    ℕ → ℕ → ℕ → List LcnEvent
  | 0, _, _ => []
  | _ + 1, _, 0 => []
  | left + 1, i, room + 1 =>
      let ev := store.events ((store.head + i) % capacity)
      if matched ev then ev :: queryLoop store matched left (i + 1) room
      else queryLoop store matched left (i + 1) (room + 1)

/-- `max_results`. -/
def maxResults (limit outCap : ℤ) : ℕ :=
  if outCap ≤ 0 then 0
  else if 0 < limit ∧ limit < outCap then limit.toNat else outCap.toNat

/-- `lcn_event_query`. -/
def lcnEventQuery (store : LcnEventStore) (sinceSeq : UInt64) (f : EventFilter) (limit outCap : ℤ) :
    List LcnEvent :=
  queryLoop store (fun ev => sinceSeq ≤ ev.seq && f.passes ev) store.count 0
    (maxResults limit outCap)

/-! ## What the store holds -/

/-- The events of these calls, each with its number. -/
def recorded (es : List Emission) : List LcnEvent := es.mapIdx fun i e => e.event (.ofNat i)

def emitAll (store : LcnEventStore) (es : List Emission) : LcnEventStore :=
  es.foldl lcnEventEmit store

def LcnEventStore.held (store : LcnEventStore) : List LcnEvent :=
  contents capacity store.events store.head store.count

/-- The store holds the last of these events. -/
structure Holds (store : LcnEventStore) (es : List Emission) : Prop where
  held : store.held = last capacity (recorded es)
  seq : store.nextSeq = .ofNat es.length

theorem length_recorded (es : List Emission) : (recorded es).length = es.length :=
  List.length_mapIdx

theorem recorded_snoc (es : List Emission) (e : Emission) :
    recorded (es ++ [e]) = recorded es ++ [e.event (.ofNat es.length)] := List.mapIdx_concat

theorem holds_init : Holds lcnEventStoreInit [] := ⟨rfl, rfl⟩

theorem Holds.emit {store : LcnEventStore} {es : List Emission} (h : Holds store es)
    (e : Emission) : Holds (lcnEventEmit store e) (es ++ [e]) := by
  have hlength : store.count = min capacity es.length := by
    have hheld := congrArg List.length h.held
    rwa [LcnEventStore.held, length_contents, length_last, length_recorded] at hheld
  have hpos : 0 < capacity := by decide
  refine ⟨?_, ?_⟩
  · have hheld := h.held
    unfold LcnEventStore.held at hheld
    rw [LcnEventStore.held, lcnEventEmit, recorded_snoc, h.seq]
    dsimp only
    by_cases hfull : store.count = capacity
    · have hlong : capacity ≤ (recorded es).length := by
        rw [length_recorded]
        omega
      rw [hfull] at hheld ⊢
      rw [if_pos rfl, if_pos rfl, contents_overwrite hpos, hheld, last_snoc hlong hpos]
    · have hshort : (recorded es ++ [e.event (.ofNat es.length)]).length ≤ capacity := by
        rw [List.length_append, length_recorded, List.length_singleton]
        omega
      have hbefore : (recorded es).length ≤ capacity := by
        rw [length_recorded]
        omega
      rw [if_neg hfull, if_neg hfull, contents_push (by omega), hheld, last_of_le hshort,
        last_of_le hbefore]
  · rw [lcnEventEmit, h.seq, List.length_append, List.length_singleton, UInt64.ofNat_add]
    rfl

theorem holds_emitAll (es : List Emission) : Holds (emitAll lcnEventStoreInit es) es := by
  induction es using List.reverseRecOn with
  | nil => exact holds_init
  | append_singleton es e ih =>
      rw [emitAll, List.foldl_append]
      exact ih.emit e

/-! ## What a query gives -/

theorem queryLoop_eq (store : LcnEventStore) (matched : LcnEvent → Bool) (left i room : ℕ) :
    queryLoop store matched left i room =
      (((List.range left).map fun j => store.events ((store.head + (i + j)) % capacity)).filter
        matched).take room := by
  induction left generalizing i room with
  | zero => rw [queryLoop, List.range_zero, List.map_nil, List.filter_nil, List.take_nil]
  | succ left ih =>
      cases room with
      | zero => rw [queryLoop, List.take_zero]
      | succ room =>
          have hshift : (List.range left).map
              ((fun j => store.events ((store.head + (i + j)) % capacity)) ∘ Nat.succ) =
                (List.range left).map fun j =>
                  store.events ((store.head + (i + 1 + j)) % capacity) := by
            refine List.map_congr_left fun j _ => ?_
            show store.events ((store.head + (i + (j + 1))) % capacity) = _
            rw [Nat.add_assoc i 1 j, Nat.add_comm 1 j]
          rw [queryLoop, List.range_succ_eq_map, List.map_cons, List.map_map, hshift,
            List.filter_cons]
          simp only [Nat.add_zero]
          split_ifs
          · rw [List.take_succ_cons, ih]
          · rw [ih]

theorem query_eq (store : LcnEventStore) (sinceSeq : UInt64) (f : EventFilter) (limit outCap : ℤ) :
    lcnEventQuery store sinceSeq f limit outCap =
      (store.held.filter fun ev => sinceSeq ≤ ev.seq && f.passes ev).take
        (maxResults limit outCap) := by
  rw [lcnEventQuery, queryLoop_eq, LcnEventStore.held, contents]
  simp only [Nat.zero_add]

/-- `lcn_event_latest_seq`. -/
def lcnEventLatestSeq (store : LcnEventStore) : UInt64 :=
  if store.count = 0 then 0 else store.nextSeq - 1

theorem Holds.latest {store : LcnEventStore} {es : List Emission} {e : Emission}
    (h : Holds store (es ++ [e])) : lcnEventLatestSeq store = .ofNat es.length := by
  have hcount : store.count ≠ 0 := by
    intro hzero
    have hheld := congrArg List.length h.held
    rw [LcnEventStore.held, length_contents, length_last, length_recorded, hzero,
      List.length_append, List.length_singleton, capacity] at hheld
    omega
  rw [lcnEventLatestSeq, if_neg hcount, h.seq, List.length_append, List.length_singleton,
    UInt64.ofNat_add]
  exact UInt64.add_sub_cancel _ _

/-! ## A reader -/

/-- What happens: an event, or a call of the reader. -/
inductive Op where
  | emit (e : Emission)
  | query (limit outCap : ℤ)

/-- The store, where the reader goes on, and what it was given. -/
structure Session where
  store : LcnEventStore
  since : UInt64
  seen : List LcnEvent

def Session.start : Session := ⟨lcnEventStoreInit, 0, []⟩

/-- What the reader is given at a call. -/
def Session.answer (f : EventFilter) (r : Session) (limit outCap : ℤ) : List LcnEvent :=
  lcnEventQuery r.store r.since f limit outCap

def Session.step (f : EventFilter) (r : Session) : Op → Session
  | .emit e => { r with store := lcnEventEmit r.store e }
  | .query limit outCap =>
      let given := r.answer f limit outCap
      { r with
        since := (given.getLast?.map (·.seq + 1)).getD r.since
        seen := r.seen ++ given }

def run (f : EventFilter) (ops : List Op) : Session := ops.foldl (Session.step f) .start

def Op.emission : Op → Option Emission
  | .emit e => some e
  | .query _ _ => none

def emissions (ops : List Op) : List Emission := ops.filterMap Op.emission

/-- At a call, of the events that pass and were not given yet, each has at most `capacity` from it
on. -/
def InTime (f : EventFilter) (ops : List Op) : Prop :=
  ∀ i ev, (recorded (emissions ops))[i]? = some ev → f.passes ev → ev ∉ (run f ops).seen →
    (emissions ops).length ≤ i + capacity

/-- So it is at each call. -/
def Timely (f : EventFilter) (ops : List Op) : Prop :=
  ∀ before limit outCap after, ops = before ++ .query limit outCap :: after → InTime f before

theorem run_snoc (f : EventFilter) (ops : List Op) (op : Op) :
    run f (ops ++ [op]) = (run f ops).step f op := by
  rw [run, List.foldl_append]
  rfl

theorem emissions_emit (ops : List Op) (e : Emission) :
    emissions (ops ++ [.emit e]) = emissions ops ++ [e] := by
  rw [emissions, List.filterMap_append]
  rfl

theorem emissions_query (ops : List Op) (limit outCap : ℤ) :
    emissions (ops ++ [.query limit outCap]) = emissions ops := by
  rw [emissions, List.filterMap_append]
  exact List.append_nil _

theorem Timely.init {f : EventFilter} {ops : List Op} {op : Op} (h : Timely f (ops ++ [op])) :
    Timely f ops := by
  intro before limit outCap after hops
  refine h before limit outCap (after ++ [op]) ?_
  rw [hops, List.append_assoc, List.cons_append]

theorem Timely.last {f : EventFilter} {ops : List Op} {limit outCap : ℤ}
    (h : Timely f (ops ++ [.query limit outCap])) : InTime f ops := h ops limit outCap [] rfl

theorem run_holds (f : EventFilter) (ops : List Op) :
    Holds (run f ops).store (emissions ops) := by
  induction ops using List.reverseRecOn with
  | nil => exact holds_init
  | append_singleton ops op ih =>
      rw [run_snoc]
      cases op with
      | emit e =>
          rw [emissions_emit]
          exact ih.emit e
      | query limit outCap =>
          rw [emissions_query]
          exact ih

/-! ## Behind the cursor -/

section Numbers

variable {es : List Emission} {i j s d : ℕ} {ev : LcnEvent} {f : EventFilter}

theorem seq_recorded (h : (recorded es)[i]? = some ev) : i < es.length ∧ ev.seq = .ofNat i := by
  rw [recorded, List.getElem?_mapIdx] at h
  obtain ⟨e, he, rfl⟩ := Option.map_eq_some_iff.1 h
  exact ⟨(List.getElem?_eq_some_iff.1 he).1, rfl⟩

theorem le_seq_iff (hn : es.length < 2 ^ 64) (hs : s ≤ es.length)
    (h : (recorded es)[i]? = some ev) : UInt64.ofNat s ≤ ev.seq ↔ s ≤ i := by
  obtain ⟨hi, hseq⟩ := seq_recorded h
  rw [hseq, UInt64.le_iff_toNat_le, UInt64.toNat_ofNat_of_lt' (by rw [UInt64.size]; omega),
    UInt64.toNat_ofNat_of_lt' (by rw [UInt64.size]; omega)]

/-- What was given up to a place has none from it on. -/
theorem not_seen (hn : es.length < 2 ^ 64) (h : (recorded es)[i]? = some ev) (hi : s ≤ i) :
    ev ∉ ((recorded es).take s).filter f.passes := by
  intro hmem
  obtain ⟨j, hj, hev⟩ := List.mem_take_iff_getElem.1 (List.mem_of_mem_filter hmem)
  have hjev : (recorded es)[j]? = some ev := by
    rw [List.getElem?_eq_getElem (by omega), hev]
  obtain ⟨hilt, hseq⟩ := seq_recorded h
  obtain ⟨hjlt, hseq'⟩ := seq_recorded hjev
  have heq := congrArg UInt64.toNat (hseq.symm.trans hseq')
  rw [UInt64.toNat_ofNat_of_lt' (by rw [UInt64.size]; omega),
    UInt64.toNat_ofNat_of_lt' (by rw [UInt64.size]; omega)] at heq
  omega

/-- What is held from the cursor on, if what is not held was given or does not pass. -/
theorem held_behind (hn : es.length < 2 ^ 64) (hs : s ≤ es.length)
    (htime : ∀ i ev, (recorded es)[i]? = some ev → f.passes ev →
      ev ∉ ((recorded es).take s).filter f.passes → es.length ≤ i + capacity) :
    ((last capacity (recorded es)).filter fun ev => .ofNat s ≤ ev.seq && f.passes ev) =
      ((recorded es).drop s).filter f.passes := by
  rw [last, length_recorded]
  refine filter_drop_eq ?_ ?_ ?_
  · intro i ev hev _ hi
    have hlt : ¬ UInt64.ofNat s ≤ ev.seq := by
      rw [le_seq_iff hn hs hev]
      omega
    rw [decide_eq_false hlt, Bool.false_and]
  · intro i ev hev hi hd
    by_contra hpass
    have hlate := htime i ev hev (by simpa using hpass) (not_seen hn hev hi)
    omega
  · intro i ev hev hi
    rw [decide_eq_true ((le_seq_iff hn hs hev).2 hi), Bool.true_and]

end Numbers

/-- The reader was given all that passes up to its cursor. -/
structure Upto (f : EventFilter) (es : List Emission) (r : Session) : Prop where
  behind : ∃ s ≤ es.length, r.since = .ofNat s ∧ r.seen = ((recorded es).take s).filter f.passes

section Steps

variable {f : EventFilter} {es : List Emission} {r : Session}

theorem Upto.emit (h : Upto f es r) (e : Emission) : Upto f (es ++ [e]) (r.step f (.emit e)) := by
  obtain ⟨s, hs, hsince, hseen⟩ := h.behind
  refine ⟨⟨s, ?_, hsince, ?_⟩⟩
  · rw [List.length_append]
    omega
  · rw [recorded_snoc, List.take_append_of_le_length (by rwa [length_recorded])]
    exact hseen

/-- What a call gives is the next of what passes. -/
theorem Upto.answer (h : Upto f es r) (hn : es.length < 2 ^ 64) (hstore : Holds r.store es)
    (htime : ∀ i ev, (recorded es)[i]? = some ev → f.passes ev → ev ∉ r.seen →
      es.length ≤ i + capacity) (limit outCap : ℤ) :
    ∃ s ≤ es.length, r.since = .ofNat s ∧ r.seen = ((recorded es).take s).filter f.passes ∧
      r.answer f limit outCap =
        (((recorded es).drop s).filter f.passes).take (maxResults limit outCap) := by
  obtain ⟨s, hs, hsince, hseen⟩ := h.behind
  refine ⟨s, hs, hsince, hseen, ?_⟩
  rw [hseen] at htime
  rw [Session.answer, query_eq, hstore.held, hsince, held_behind hn hs htime]

theorem Upto.query (h : Upto f es r) (hn : es.length < 2 ^ 64) (hstore : Holds r.store es)
    (htime : ∀ i ev, (recorded es)[i]? = some ev → f.passes ev → ev ∉ r.seen →
      es.length ≤ i + capacity) (limit outCap : ℤ) :
    Upto f es (r.step f (.query limit outCap)) := by
  obtain ⟨s, hs, hsince, hseen, hanswer⟩ := h.answer hn hstore htime limit outCap
  obtain ⟨m, hm, hpage, hlast⟩ :=
    exists_page f.passes ((recorded es).drop s) (maxResults limit outCap)
  rw [List.length_drop, length_recorded] at hm
  refine ⟨⟨s + m, by omega, ?_, ?_⟩⟩
  · rw [Session.step, hanswer, hpage]
    dsimp only
    rcases hlast with rfl | ⟨n, ev, rfl, hev, hpass⟩
    · rw [List.take_zero, List.filter_nil, List.getLast?_nil]
      exact hsince
    · rw [getLast?_filter_take hev hpass]
      rw [List.getElem?_drop] at hev
      show ev.seq + 1 = _
      rw [(seq_recorded hev).2, ← Nat.add_assoc, UInt64.ofNat_add (s + n)]
      rfl
  · rw [Session.step, hanswer, hpage, hseen, filter_take_add]

/-- A call that could have given more has given all. -/
theorem Upto.all (h : Upto f es r) (hn : es.length < 2 ^ 64) (hstore : Holds r.store es)
    (htime : ∀ i ev, (recorded es)[i]? = some ev → f.passes ev → ev ∉ r.seen →
      es.length ≤ i + capacity) {limit outCap : ℤ}
    (hroom : (r.answer f limit outCap).length < maxResults limit outCap) :
    (r.step f (.query limit outCap)).seen = (recorded es).filter f.passes := by
  obtain ⟨s, hs, hsince, hseen, hanswer⟩ := h.answer hn hstore htime limit outCap
  have hall : ((recorded es).drop s).filter f.passes = r.answer f limit outCap := by
    rw [hanswer, List.length_take] at hroom
    rw [hanswer, List.take_of_length_le (by omega)]
  show r.seen ++ r.answer f limit outCap = _
  rw [hseen, ← hall, ← List.filter_append, List.take_append_drop]

end Steps

theorem run_upto {f : EventFilter} {ops : List Op} (hn : (emissions ops).length < 2 ^ 64)
    (htimely : Timely f ops) : Upto f (emissions ops) (run f ops) := by
  induction ops using List.reverseRecOn with
  | nil => exact ⟨⟨0, Nat.le_refl 0, rfl, rfl⟩⟩
  | append_singleton ops op ih =>
      rw [run_snoc]
      cases op with
      | emit e =>
          rw [emissions_emit, List.length_append] at hn
          rw [emissions_emit]
          exact (ih (by omega) htimely.init).emit e
      | query limit outCap =>
          rw [emissions_query] at hn ⊢
          exact (ih hn htimely.init).query hn (run_holds f ops) htimely.last limit outCap

/-- The store holds the last events, numbered one after the other.  A reader is given each event
that passes its filter once and in order, and with a call that leaves room it was given all, if at
each call at most `capacity` events come from the first on that it still is to be given. -/
theorem reader_complete (f : EventFilter) (ops : List Op) :
    (run f ops).store.held = last capacity (recorded (emissions ops)) ∧
    ((emissions ops).length < 2 ^ 64 → Timely f ops →
      (run f ops).seen <+: (recorded (emissions ops)).filter f.passes ∧
      ∀ before limit outCap, ops = before ++ [.query limit outCap] →
        ((run f before).answer f limit outCap).length < maxResults limit outCap →
        (run f ops).seen = (recorded (emissions ops)).filter f.passes) := by
  refine ⟨(run_holds f ops).held, ?_⟩
  intro hn htimely
  refine ⟨?_, ?_⟩
  · obtain ⟨s, hs, -, hseen⟩ := (run_upto hn htimely).behind
    rw [hseen]
    exact (List.take_prefix s _).filter _
  · rintro before limit outCap rfl hroom
    rw [emissions_query] at hn ⊢
    rw [run_snoc]
    exact (run_upto hn htimely.init).all hn (run_holds f before) htimely.last hroom

theorem timely_of_few (f : EventFilter) {ops : List Op}
    (h : (emissions ops).length ≤ capacity) : Timely f ops := by
  rintro before limit outCap after rfl i ev hev hpass hseen
  rw [emissions, List.filterMap_append, List.length_append] at h
  exact Nat.le_trans (Nat.le_add_right _ _) (Nat.le_trans h (Nat.le_add_left _ _))

/-- Any event. -/
def anyEvent : EventFilter := ⟨-1, none⟩

def note (detail : Option (List UInt8)) : Emission := ⟨.log, none, none, detail, 0⟩

/-- One event, and a call for all. -/
theorem reader_complete_one :
    (run anyEvent [.emit (note none), .query 0 2]).seen = [(note none).event 0] := by
  have hcomplete := (reader_complete anyEvent [.emit (note none), .query 0 2]).2 (by decide)
    (timely_of_few anyEvent (by decide))
  exact hcomplete.2 [.emit (note none)] 0 2 rfl (by decide)

/-! ## At most `capacity` events between two calls -/

/-- So many since the last call, and at most `capacity` between two. -/
def Spaced : ℕ → List Op → Prop
  | n, [] => n ≤ capacity
  | n, .emit _ :: ops => Spaced (n + 1) ops
  | n, .query _ _ :: ops => n ≤ capacity ∧ Spaced 0 ops

theorem spaced_emits (n k : ℕ) (e : Emission) (ops : List Op) :
    Spaced n (List.replicate k (.emit e) ++ ops) ↔ Spaced (n + k) ops := by
  induction k generalizing n with
  | zero => exact Iff.rfl
  | succ k ih =>
      rw [List.replicate_succ, List.cons_append, Spaced, ih, Nat.add_right_comm]
      exact Iff.rfl

/-- Two events, of which a call gives one, and then as many as there is room for. -/
def lossyStart : List Op :=
  [.emit (note none), .emit (note none), .query 1 1] ++ List.replicate 8192 (.emit (note none))

def lossy : List Op := lossyStart ++ [.query 0 8193]

theorem foldl_emits (f : EventFilter) (k : ℕ) (e : Emission) (r : Session) :
    (List.replicate k (.emit e)).foldl (Session.step f) r =
      { r with store := emitAll r.store (List.replicate k e) } := by
  induction k generalizing r with
  | zero => rfl
  | succ k ih =>
      rw [List.replicate_succ, List.foldl_cons, ih, List.replicate_succ]
      rfl

theorem emissions_lossyStart :
    emissions lossyStart = List.replicate 2 (note none) ++ List.replicate 8192 (note none) := by
  rw [lossyStart, emissions, List.filterMap_append, List.filterMap_replicate]
  rfl

theorem length_lossyStart : (emissions lossyStart).length = 8194 := by
  rw [emissions_lossyStart, List.length_append, List.length_replicate, List.length_replicate]

theorem seen_lossyStart : (run anyEvent lossyStart).seen = [(note none).event 0] := by
  rw [lossyStart, run, List.foldl_append, foldl_emits]
  rfl

/-- The second event is not given, though at most `capacity` come between the calls, and the last
call could have given more. -/
theorem limit_loses :
    Spaced 0 lossy ∧
    ((run anyEvent lossyStart).answer anyEvent 0 8193).length < maxResults 0 8193 ∧
    (note none).event 1 ∈ (recorded (emissions lossy)).filter anyEvent.passes ∧
    (note none).event 1 ∉ (run anyEvent lossy).seen := by
  have hheld : ∀ ev, ev ∈ (run anyEvent lossyStart).answer anyEvent 0 8193 →
      ev ∈ last capacity (recorded (emissions lossyStart)) := by
    intro ev hev
    rw [Session.answer, query_eq] at hev
    have hmem := List.mem_of_mem_filter (List.mem_of_mem_take hev)
    rwa [(run_holds anyEvent lossyStart).held] at hmem
  refine ⟨?_, ?_, ?_, ?_⟩
  · rw [lossy, lossyStart, List.append_assoc, List.cons_append, List.cons_append,
      List.cons_append, List.nil_append]
    refine ⟨by decide, ?_⟩
    rw [spaced_emits]
    exact ⟨by decide, Nat.zero_le _⟩
  · rw [Session.answer, query_eq, (run_holds anyEvent lossyStart).held]
    refine Nat.lt_of_le_of_lt (List.length_take_le' _ _) ?_
    refine Nat.lt_of_le_of_lt (List.length_filter_le _ _) ?_
    rw [length_last, length_recorded, length_lossyStart]
    decide
  · rw [lossy, emissions_query, emissions_lossyStart, List.mem_filter]
    refine ⟨List.mem_of_getElem? (i := 1) ?_, rfl⟩
    rw [recorded, List.getElem?_mapIdx]
    rfl
  · rw [lossy, run_snoc]
    intro hseen
    rcases List.mem_append.1 hseen with hfirst | hanswer
    · rw [seen_lossyStart, List.mem_singleton] at hfirst
      have hseq := congrArg LcnEvent.seq hfirst
      revert hseq
      decide
    · have hmem := hheld _ hanswer
      rw [last, length_recorded, length_lossyStart] at hmem
      obtain ⟨j, hj⟩ := List.mem_iff_getElem?.1 hmem
      rw [List.getElem?_drop] at hj
      obtain ⟨hlt, hseq⟩ := seq_recorded hj
      rw [length_lossyStart] at hlt
      have hnum := congrArg UInt64.toNat hseq
      rw [UInt64.toNat_ofNat_of_lt' (by rw [UInt64.size]; omega)] at hnum
      change 1 = _ at hnum
      rw [capacity] at hnum
      omega

end Limceron.Runtime.Events
