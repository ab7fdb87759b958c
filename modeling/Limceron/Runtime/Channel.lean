/-
# `Limceron.Runtime.Channel` — channels between any number of threads

`runtime/channel.c` is a ring buffer behind a mutex, with two condition
variables.  A channel with no capacity has one slot, and its sender waits until
the item has been taken.  Each section between taking and leaving the mutex is
one step here, a wait ending it; a thread that is woken takes the mutex again and
looks at its loop's condition.

The steps also write down what no thread can see: all items that were put in and
taken out, and the sends that have returned `true` with the number of their item.

| | |
| :-- | :-- |
| `LcnChannel.send`, `LcnChannel.recv`, `LcnChannel.tryRecv` | how a section ends |
| `Pc` | where a thread is |
| `Step` | one section, one call or one wake-up |
| `Safe` | what holds of every reachable state |
-/
import Limceron.Lib.Monitors
import Limceron.Lib.Ring
import Limceron.Lib.Systems

namespace Limceron.Runtime.Channel

open Systems Monitors

/-! ## The source -/

/-- `struct LcnChannel`. -/
structure LcnChannel (α : Type*) where
  buffer : ℕ → α
  capacity : ℕ
  head : ℕ
  tail : ℕ
  count : ℤ
  closed : Bool
  unbuffered : Bool

/-- `lcn_channel_new`, of memory with this contents. -/
def lcnChannelNew {α : Type*} (capacity : ℤ) (memory : ℕ → α) : LcnChannel α where
  buffer := memory
  capacity := if capacity ≤ 0 then 1 else capacity.toNat
  head := 0
  tail := 0
  count := 0
  closed := false
  unbuffered := decide (capacity ≤ 0)

/-- How the section of a send ends: in a wait, or with the result. -/
inductive SendEnd (α : Type*) where
  | waitsFull
  | refused
  | waitsHandoff (ch : LcnChannel α)
  | done (ch : LcnChannel α)

/-- How the section of a receive ends. -/
inductive RecvEnd (α : Type*) where
  | waitsEmpty
  | refused
  | took (item : α) (ch : LcnChannel α)

namespace LcnChannel

variable {α : Type*}

/-- An item goes into the slot at the tail. -/
def put (ch : LcnChannel α) (item : α) : LcnChannel α :=
  { ch with
    buffer := Function.update ch.buffer ch.tail item
    tail := (ch.tail + 1) % ch.capacity
    count := ch.count + 1 }

/-- The slot at the head is given up. -/
def drop (ch : LcnChannel α) : LcnChannel α :=
  { ch with head := (ch.head + 1) % ch.capacity, count := ch.count - 1 }

/-- The condition of the second loop of `lcn_channel_send`. -/
def awaitsHandoff (ch : LcnChannel α) : Bool := ch.count > 0 && !ch.closed

/-- `lcn_channel_send`, from the lock or the first wait on. -/
def send (ch : LcnChannel α) (item : α) : SendEnd α :=
  if ch.count = ch.capacity ∧ ch.closed = false then .waitsFull
  else if ch.closed then .refused
  else
    let ch := ch.put item
    if ch.unbuffered && ch.awaitsHandoff then .waitsHandoff ch else .done ch

/-- `lcn_channel_recv`, from the lock or the wait on. -/
def recv (ch : LcnChannel α) : RecvEnd α :=
  if ch.count = 0 ∧ ch.closed = false then .waitsEmpty
  else if ch.count = 0 ∧ ch.closed = true then .refused
  else .took (ch.buffer ch.head) ch.drop

/-- `lcn_channel_try_recv`. -/
def tryRecv (ch : LcnChannel α) : RecvEnd α :=
  if ch.count = 0 then .refused else .took (ch.buffer ch.head) ch.drop

/-- `lcn_channel_close`. -/
def close (ch : LcnChannel α) : LcnChannel α := { ch with closed := true }

/-- The items in the ring, from the head to the tail. -/
def items (ch : LcnChannel α) : List α :=
  Ring.contents ch.capacity ch.buffer ch.head ch.count.toNat

end LcnChannel

/-! ## Threads -/

/-- Where a thread is: outside, before a section of a call, or asleep in it. A sender that waits for
its item to be taken has the number of it. -/
inductive Pc (α : Type*) where
  | idle
  | sending (item : α)
  | asleepFull (item : α)
  | handing (n : ℕ) (item : α)
  | asleepHandoff (n : ℕ) (item : α)
  | receiving
  | asleepEmpty

namespace Pc

variable {α : Type*}

/-- Asleep on `not_full`. -/
def OnNotFull : Pc α → Prop
  | .asleepFull _ | .asleepHandoff _ _ => True
  | _ => False

/-- Asleep on `not_empty`. -/
def OnNotEmpty : Pc α → Prop
  | .asleepEmpty => True
  | _ => False

instance : DecidablePred (OnNotFull (α := α)) := fun pc => by
  cases pc <;> unfold OnNotFull <;> infer_instance

instance : DecidablePred (OnNotEmpty (α := α)) := fun pc => by
  cases pc <;> unfold OnNotEmpty <;> infer_instance

/-- The place that a sleeping thread wakes up at. -/
def woken : Pc α → Pc α
  | .asleepFull item => .sending item
  | .asleepHandoff n item => .handing n item
  | .asleepEmpty => .receiving
  | pc => pc

end Pc

/-- The channel, the threads, and what has happened: the items put in and taken out, and the sends
that have returned `true`, each with the number of its item. -/
structure State (τ α : Type*) where
  chan : LcnChannel α
  pc : τ → Pc α
  enqueued : List α
  received : List α
  returned : List (ℕ × α)

/-- A step of a thread; the thread that its signal wakes is part of it. -/
inductive Action (τ α : Type*) where
  | callSend (t : τ) (item : α)
  | callRecv (t : τ)
  | send (t : τ) (w : Option τ)
  | handoff (t : τ)
  | recv (t : τ) (w : Option τ)
  | tryRecv (t : τ) (w : Option τ)
  | close (t : τ)
  | wake (t : τ)

/-- A new channel that no thread has used. -/
def Init {τ α : Type*} (capacity : ℤ) (s : State τ α) : Prop :=
  ∃ memory, s.chan = lcnChannelNew capacity memory ∧ (∀ t, s.pc t = .idle) ∧ s.enqueued = [] ∧
    s.received = [] ∧ s.returned = []

section
variable {τ α : Type*} [DecidableEq τ]

/-- Thread `t` moves. -/
def State.goto (s : State τ α) (t : τ) (pc : Pc α) : State τ α :=
  { s with pc := Function.update s.pc t pc }

/-- A signal on `not_empty`. -/
abbrev SignalNotEmpty (pc : τ → Pc α) : Option τ → (τ → Pc α) → Prop :=
  Signal Pc.OnNotEmpty Pc.woken pc

/-- A signal on `not_full`. -/
abbrev SignalNotFull (pc : τ → Pc α) : Option τ → (τ → Pc α) → Prop :=
  Signal Pc.OnNotFull Pc.woken pc

/-- An item has been put in. -/
def State.putIn (s : State τ α) (ch : LcnChannel α) (item : α) (pc : τ → Pc α) : State τ α :=
  { s with chan := ch, pc := pc, enqueued := s.enqueued ++ [item] }

/-- An item has been taken out. -/
def State.takeOut (s : State τ α) (ch : LcnChannel α) (item : α) (pc : τ → Pc α) : State τ α :=
  { s with chan := ch, pc := pc, received := s.received ++ [item] }

/-- A send returns `true`. -/
def State.returns (s : State τ α) (n : ℕ) (item : α) : State τ α :=
  { s with returned := s.returned ++ [(n, item)] }

/-- One section, one call or one wake-up. -/
inductive Step (s : State τ α) : Action τ α → State τ α → Prop where
  | callSend {t : τ} (item : α) : s.pc t = .idle →
      Step s (.callSend t item) (s.goto t (.sending item))
  | callRecv {t : τ} : s.pc t = .idle → Step s (.callRecv t) (s.goto t .receiving)
  -- `lcn_channel_send`
  | sendWaits {t : τ} {item : α} : s.pc t = .sending item → s.chan.send item = .waitsFull →
      Step s (.send t none) (s.goto t (.asleepFull item))
  | sendRefused {t : τ} {item : α} : s.pc t = .sending item → s.chan.send item = .refused →
      Step s (.send t none) (s.goto t .idle)
  | sendHands {t : τ} {item : α} {ch : LcnChannel α} {w : Option τ} {pc : τ → Pc α} :
      s.pc t = .sending item → s.chan.send item = .waitsHandoff ch → SignalNotEmpty s.pc w pc →
      Step s (.send t w) ((s.putIn ch item pc).goto t (.asleepHandoff s.enqueued.length item))
  | sendDone {t : τ} {item : α} {ch : LcnChannel α} {w : Option τ} {pc : τ → Pc α} :
      s.pc t = .sending item → s.chan.send item = .done ch → SignalNotEmpty s.pc w pc →
      Step s (.send t w) (((s.putIn ch item pc).goto t .idle).returns s.enqueued.length item)
  | handoffWaits {t : τ} {n : ℕ} {item : α} : s.pc t = .handing n item →
      s.chan.awaitsHandoff = true → Step s (.handoff t) (s.goto t (.asleepHandoff n item))
  | handoffDone {t : τ} {n : ℕ} {item : α} : s.pc t = .handing n item →
      s.chan.awaitsHandoff = false → Step s (.handoff t) ((s.goto t .idle).returns n item)
  -- `lcn_channel_recv`
  | recvWaits {t : τ} : s.pc t = .receiving → s.chan.recv = .waitsEmpty →
      Step s (.recv t none) (s.goto t .asleepEmpty)
  | recvRefused {t : τ} : s.pc t = .receiving → s.chan.recv = .refused →
      Step s (.recv t none) (s.goto t .idle)
  | recvTakes {t : τ} {item : α} {ch : LcnChannel α} {w : Option τ} {pc : τ → Pc α} :
      s.pc t = .receiving → s.chan.recv = .took item ch → SignalNotFull s.pc w pc →
      Step s (.recv t w) ((s.takeOut ch item pc).goto t .idle)
  -- `lcn_channel_try_recv`, from the call on
  | tryRefused {t : τ} : s.pc t = .idle → s.chan.tryRecv = .refused → Step s (.tryRecv t none) s
  | tryTakes {t : τ} {item : α} {ch : LcnChannel α} {w : Option τ} {pc : τ → Pc α} :
      s.pc t = .idle → s.chan.tryRecv = .took item ch → SignalNotFull s.pc w pc →
      Step s (.tryRecv t w) (s.takeOut ch item pc)
  -- `lcn_channel_close`, from the call on
  | close {t : τ} : s.pc t = .idle →
      Step s (.close t) { s with
        chan := s.chan.close
        pc := broadcast Pc.OnNotFull Pc.woken (broadcast Pc.OnNotEmpty Pc.woken s.pc) }
  -- a wait may also end without a signal
  | wake {t : τ} : (s.pc t).OnNotEmpty ∨ (s.pc t).OnNotFull →
      Step s (.wake t) (s.goto t (s.pc t).woken)

/-- The states that any steps lead to. -/
def Reachable (capacity : ℤ) (s : State τ α) : Prop :=
  Reached (Init capacity) Step (fun _ _ => True) s

end

/-! ## Sections -/

namespace LcnChannel

variable {α : Type*} {ch ch' : LcnChannel α} {item : α}

theorem send_waitsFull (h : ch.send item = .waitsFull) :
    ch.count = ch.capacity ∧ ch.closed = false := by
  unfold send at h
  split at h
  · assumption
  · split at h
    · cases h
    · dsimp only at h
      split at h <;> cases h

theorem send_refused (h : ch.send item = .refused) : ch.closed = true := by
  unfold send at h
  split at h
  · cases h
  · split at h
    · assumption
    · dsimp only at h
      split at h <;> cases h

/-- An item is put in only if the channel is open and not full; the sender then waits if it has to
hand the item over. -/
theorem send_puts (h : ch.send item = .waitsHandoff ch' ∨ ch.send item = .done ch') :
    ch' = ch.put item ∧ ch.closed = false ∧ ch.count ≠ ch.capacity := by
  unfold send at h
  split at h
  · rcases h with h | h <;> cases h
  · rename_i hfull
    split at h
    · rcases h with h | h <;> cases h
    · rename_i hopen
      have hclosed : ch.closed = false := Bool.eq_false_iff.2 hopen
      refine ⟨?_, hclosed, fun hcount => hfull ⟨hcount, hclosed⟩⟩
      dsimp only at h
      split at h
      · rcases h with h | h <;> cases h
        rfl
      · rcases h with h | h <;> cases h
        rfl

theorem send_waitsHandoff (h : ch.send item = .waitsHandoff ch') :
    ch.unbuffered = true ∧ ch'.awaitsHandoff = true := by
  obtain ⟨rfl, hclosed, hcount⟩ := send_puts (.inl h)
  rw [send, if_neg (fun hfull => hcount hfull.1), if_neg (Bool.eq_false_iff.1 hclosed)] at h
  dsimp only at h
  split at h
  · exact Bool.and_eq_true_iff.1 ‹_›
  · cases h

theorem send_done (h : ch.send item = .done ch') :
    ch.unbuffered = false ∨ ch'.awaitsHandoff = false := by
  obtain ⟨rfl, hclosed, hcount⟩ := send_puts (.inr h)
  rw [send, if_neg (fun hfull => hcount hfull.1), if_neg (Bool.eq_false_iff.1 hclosed)] at h
  dsimp only at h
  split at h
  · cases h
  · exact Bool.and_eq_false_iff.1 (Bool.eq_false_iff.2 ‹_›)

theorem recv_waitsEmpty (h : ch.recv = .waitsEmpty) : ch.count = 0 ∧ ch.closed = false := by
  unfold recv at h
  split at h
  · assumption
  · split at h <;> cases h

theorem recv_refused (h : ch.recv = .refused) : ch.count = 0 ∧ ch.closed = true := by
  unfold recv at h
  split at h
  · cases h
  · split at h
    · assumption
    · cases h

/-- The item at the head is taken if there is one. -/
theorem recv_of_ne (h : ch.count ≠ 0) : ch.recv = .took (ch.buffer ch.head) ch.drop := by
  rw [recv, if_neg fun hc => h hc.1, if_neg fun hc => h hc.1]

theorem tryRecv_of_ne (h : ch.count ≠ 0) : ch.tryRecv = .took (ch.buffer ch.head) ch.drop := by
  rw [tryRecv, if_neg h]

theorem recv_took (h : ch.recv = .took item ch') :
    item = ch.buffer ch.head ∧ ch' = ch.drop ∧ ch.count ≠ 0 := by
  by_cases hcount : ch.count = 0
  · unfold recv at h
    split at h
    · cases h
    · rename_i hopen
      rw [if_pos ⟨hcount, by simpa [hcount] using hopen⟩] at h
      cases h
  · rw [recv_of_ne hcount] at h
    cases h
    exact ⟨rfl, rfl, hcount⟩

theorem tryRecv_took (h : ch.tryRecv = .took item ch') :
    item = ch.buffer ch.head ∧ ch' = ch.drop ∧ ch.count ≠ 0 := by
  unfold tryRecv at h
  split at h
  · cases h
  · cases h
    exact ⟨rfl, rfl, ‹_›⟩

/-! ## The ring -/

/-- The tail is as far behind the head as there are items, and there is room for them. -/
structure Ok (ch : LcnChannel α) : Prop where
  capacity_pos : 0 < ch.capacity
  head_lt : ch.head < ch.capacity
  count_nonneg : 0 ≤ ch.count
  count_le : ch.count ≤ ch.capacity
  tail_eq : ch.tail = (ch.head + ch.count.toNat) % ch.capacity

theorem Ok.new (capacity : ℤ) (memory : ℕ → α) : (lcnChannelNew capacity memory).Ok := by
  have hpos : 0 < (lcnChannelNew capacity memory).capacity := by
    show 0 < if capacity ≤ 0 then 1 else capacity.toNat
    split <;> omega
  exact ⟨hpos, hpos, le_refl (0 : ℤ), Int.natCast_nonneg _, (Nat.zero_mod _).symm⟩

theorem Ok.put (h : ch.Ok) (hcount : ch.count ≠ ch.capacity) (item : α) :
    (ch.put item).Ok ∧ (ch.put item).items = ch.items ++ [item] := by
  have hnonneg := h.count_nonneg
  have hle := h.count_le
  have hsucc : (ch.count + 1).toNat = ch.count.toNat + 1 := by omega
  refine ⟨⟨h.capacity_pos, h.head_lt, ?_, ?_, ?_⟩, ?_⟩
  · show 0 ≤ ch.count + 1
    omega
  · show ch.count + 1 ≤ ch.capacity
    omega
  · show (ch.tail + 1) % ch.capacity = (ch.head + (ch.count + 1).toNat) % ch.capacity
    rw [h.tail_eq, Nat.mod_add_mod, hsucc, Nat.add_assoc]
  · show Ring.contents ch.capacity (Function.update ch.buffer ch.tail item) ch.head
      (ch.count + 1).toNat = _
    rw [hsucc, h.tail_eq]
    exact Ring.contents_push (by omega) item

theorem Ok.drop (h : ch.Ok) (hcount : ch.count ≠ 0) :
    ch.drop.Ok ∧ ch.items = ch.buffer ch.head :: ch.drop.items := by
  have hnonneg := h.count_nonneg
  have hle := h.count_le
  have hsucc : ch.count.toNat = (ch.count - 1).toNat + 1 := by omega
  refine ⟨⟨h.capacity_pos, Nat.mod_lt _ h.capacity_pos, ?_, ?_, ?_⟩, ?_⟩
  · show 0 ≤ ch.count - 1
    omega
  · show ch.count - 1 ≤ ch.capacity
    omega
  · show ch.tail = ((ch.head + 1) % ch.capacity + (ch.count - 1).toNat) % ch.capacity
    rw [h.tail_eq, Nat.mod_add_mod, hsucc]
    congr 1
    omega
  · show Ring.contents ch.capacity ch.buffer ch.head ch.count.toNat = _
    rw [hsucc, Ring.contents_pop, Nat.mod_eq_of_lt h.head_lt]
    rfl

theorem items_eq_nil (hcount : ch.count = 0) : ch.items = [] := by
  rw [items, hcount]
  rfl

theorem count_of_items {rest : List α} (h : ch.items = item :: rest) : ch.count ≠ 0 := by
  intro hcount
  rw [items_eq_nil hcount] at h
  cases h

end LcnChannel

/-! ## Safety -/

/-- The ring is in order, and has what was put in and not yet taken out. -/
structure Inv {τ α : Type*} (s : State τ α) : Prop where
  ok : s.chan.Ok
  fifo : s.received ++ s.chan.items = s.enqueued

theorem Inv.init {τ α : Type*} {s : State τ α} {capacity : ℤ} (h : Init capacity s) : Inv s := by
  obtain ⟨memory, hchan, -, henqueued, hreceived, -⟩ := h
  refine ⟨hchan ▸ .new capacity memory, ?_⟩
  rw [hchan, henqueued, hreceived]
  rfl

section
variable {τ α : Type*} [DecidableEq τ] {s s' : State τ α} {a : Action τ α}

/-- A receive of a thread takes the first item, and can. -/
def Takes (s : State τ α) (action : Option τ → Action τ α) (item : α) (rest : List α) : Prop :=
  (∃ w s', Step s (action w) s') ∧ ∀ w s', Step s (action w) s' →
    s'.received = s.received ++ [item] ∧ s'.chan.items = rest

/-- What has been received and what is in the ring is what was put in; the ring is within its
bounds; once the channel is closed nothing is put in, and what is in it can be received. -/
structure Safe (s : State τ α) : Prop where
  fifo : s.received ++ s.chan.items = s.enqueued
  count_nonneg : 0 ≤ s.chan.count
  count_le : s.chan.count ≤ s.chan.capacity
  tail_eq : (s.chan.tail : ℤ) = (s.chan.head + s.chan.count) % s.chan.capacity
  after_close : s.chan.closed = true → ∀ a s', Step s a s' →
    s'.chan.closed = true ∧ s'.enqueued = s.enqueued
  receivable : s.chan.closed = true → ∀ item rest, s.chan.items = item :: rest → ∀ t,
    (s.pc t = .receiving → Takes s (.recv t) item rest) ∧
      (s.pc t = .idle → Takes s (.tryRecv t) item rest)

/-- What a step does to the channel, and to what has been put in and taken out. -/
inductive Change (s s' : State τ α) : Prop where
  | same : s'.chan = s.chan → s'.enqueued = s.enqueued → s'.received = s.received → Change s s'
  | put (item : α) : s.chan.closed = false → s.chan.count ≠ s.chan.capacity →
      s'.chan = s.chan.put item → s'.enqueued = s.enqueued ++ [item] → s'.received = s.received →
      Change s s'
  | take : s.chan.count ≠ 0 → s'.chan = s.chan.drop → s'.enqueued = s.enqueued →
      s'.received = s.received ++ [s.chan.buffer s.chan.head] → Change s s'
  | close : s'.chan = s.chan.close → s'.enqueued = s.enqueued → s'.received = s.received →
      Change s s'

theorem Step.change (h : Step s a s') : Change s s' := by
  cases h with
  | sendHands _ hsend _ =>
      obtain ⟨rfl, hclosed, hcount⟩ := LcnChannel.send_puts (.inl hsend)
      exact .put _ hclosed hcount rfl rfl rfl
  | sendDone _ hsend _ =>
      obtain ⟨rfl, hclosed, hcount⟩ := LcnChannel.send_puts (.inr hsend)
      exact .put _ hclosed hcount rfl rfl rfl
  | recvTakes _ hrecv _ =>
      obtain ⟨rfl, rfl, hcount⟩ := LcnChannel.recv_took hrecv
      exact .take hcount rfl rfl rfl
  | tryTakes _ hrecv _ =>
      obtain ⟨rfl, rfl, hcount⟩ := LcnChannel.tryRecv_took hrecv
      exact .take hcount rfl rfl rfl
  | close => exact .close rfl rfl rfl
  | _ => exact .same rfl rfl rfl

theorem Inv.step (h : Inv s) (hstep : Step s a s') : Inv s' := by
  cases hstep.change with
  | same hchan henqueued hreceived =>
      refine ⟨hchan ▸ h.ok, ?_⟩
      rw [hchan, henqueued, hreceived]
      exact h.fifo
  | put item _ hcount hchan henqueued hreceived =>
      obtain ⟨hok, hitems⟩ := h.ok.put hcount item
      refine ⟨hchan ▸ hok, ?_⟩
      rw [hchan, henqueued, hreceived, hitems, ← List.append_assoc, h.fifo]
  | take hcount hchan henqueued hreceived =>
      obtain ⟨hok, hitems⟩ := h.ok.drop hcount
      refine ⟨hchan ▸ hok, ?_⟩
      rw [hchan, henqueued, hreceived, List.append_assoc, ← h.fifo, hitems]
      rfl
  | close hchan henqueued hreceived =>
      refine ⟨?_, ?_⟩
      · rw [hchan]
        exact ⟨h.ok.capacity_pos, h.ok.head_lt, h.ok.count_nonneg, h.ok.count_le, h.ok.tail_eq⟩
      · rw [hchan, henqueued, hreceived]
        exact h.fifo

theorem inv_of_reached {capacity : ℤ} {ok : State τ α → Action τ α → Prop}
    (h : Reached (Init capacity) Step ok s) : Inv s :=
  h.invariant (fun _ => Inv.init) fun _ _ _ hs _ hstep => hs.step hstep

/-- Nothing is put into a closed channel, and it stays closed. -/
theorem Step.after_close (h : Step s a s') (hclosed : s.chan.closed = true) :
    s'.chan.closed = true ∧ s'.enqueued = s.enqueued := by
  cases h.change with
  | same hchan henqueued _ => exact ⟨hchan ▸ hclosed, henqueued⟩
  | put _ hopen =>
      rw [hclosed] at hopen
      cases hopen
  | take _ hchan henqueued _ => exact ⟨hchan ▸ hclosed, henqueued⟩
  | close hchan henqueued _ => exact ⟨hchan ▸ rfl, henqueued⟩

/-- What has been put in and taken out is not forgotten, and the channel stays of its kind. -/
theorem Step.grows (h : Step s a s') :
    (∃ r, s'.enqueued = s.enqueued ++ r) ∧ (∃ r, s'.received = s.received ++ r) ∧
      s'.chan.capacity = s.chan.capacity ∧ s'.chan.unbuffered = s.chan.unbuffered := by
  cases h.change with
  | same hchan henqueued hreceived =>
      exact ⟨⟨[], by rw [henqueued, List.append_nil]⟩, ⟨[], by rw [hreceived, List.append_nil]⟩,
        hchan ▸ rfl, hchan ▸ rfl⟩
  | put item _ _ hchan henqueued hreceived =>
      exact ⟨⟨[item], henqueued⟩, ⟨[], by rw [hreceived, List.append_nil]⟩, hchan ▸ rfl,
        hchan ▸ rfl⟩
  | take _ hchan henqueued hreceived =>
      exact ⟨⟨[], by rw [henqueued, List.append_nil]⟩, ⟨_, hreceived⟩, hchan ▸ rfl, hchan ▸ rfl⟩
  | close hchan henqueued hreceived =>
      exact ⟨⟨[], by rw [henqueued, List.append_nil]⟩, ⟨[], by rw [hreceived, List.append_nil]⟩,
        hchan ▸ rfl, hchan ▸ rfl⟩

/-- A thread that receives takes the item at the head, if there is one. -/
theorem Inv.takes_recv (h : Inv s) {item : α} {rest : List α} (hitems : s.chan.items = item :: rest)
    {t : τ} (ht : s.pc t = .receiving) : Takes s (.recv t) item rest := by
  have hcount := LcnChannel.count_of_items hitems
  obtain ⟨-, hdrop⟩ := h.ok.drop hcount
  rw [hitems] at hdrop
  obtain ⟨rfl, rfl⟩ := List.cons_eq_cons.1 hdrop
  constructor
  · obtain ⟨w, pc, hsignal⟩ := exists_signal Pc.OnNotFull Pc.woken s.pc
    exact ⟨w, _, .recvTakes ht (LcnChannel.recv_of_ne hcount) hsignal⟩
  · intro w s' hstep
    cases hstep with
    | recvWaits _ hrecv => exact absurd (LcnChannel.recv_waitsEmpty hrecv).1 hcount
    | recvRefused _ hrecv => exact absurd (LcnChannel.recv_refused hrecv).1 hcount
    | recvTakes _ hrecv _ =>
        obtain ⟨rfl, rfl, -⟩ := LcnChannel.recv_took hrecv
        exact ⟨rfl, rfl⟩

/-- So does one that only tries. -/
theorem Inv.takes_tryRecv (h : Inv s) {item : α} {rest : List α}
    (hitems : s.chan.items = item :: rest) {t : τ} (ht : s.pc t = .idle) :
    Takes s (.tryRecv t) item rest := by
  have hcount := LcnChannel.count_of_items hitems
  obtain ⟨-, hdrop⟩ := h.ok.drop hcount
  rw [hitems] at hdrop
  obtain ⟨rfl, rfl⟩ := List.cons_eq_cons.1 hdrop
  constructor
  · obtain ⟨w, pc, hsignal⟩ := exists_signal Pc.OnNotFull Pc.woken s.pc
    exact ⟨w, _, .tryTakes ht (LcnChannel.tryRecv_of_ne hcount) hsignal⟩
  · intro w s' hstep
    cases hstep with
    | tryRefused _ hrecv =>
        rw [LcnChannel.tryRecv_of_ne hcount] at hrecv
        cases hrecv
    | tryTakes _ hrecv _ =>
        obtain ⟨rfl, rfl, -⟩ := LcnChannel.tryRecv_took hrecv
        exact ⟨rfl, rfl⟩

/-- Every reachable state of every channel is safe. -/
theorem channel_safe {capacity : ℤ} (h : Reachable capacity s) : Safe s := by
  have hinv : Inv s := inv_of_reached h
  have hnonneg := hinv.ok.count_nonneg
  refine ⟨hinv.fifo, hnonneg, hinv.ok.count_le, ?_, ?_, ?_⟩
  · rw [hinv.ok.tail_eq, Int.natCast_emod, Int.natCast_add, Int.toNat_of_nonneg hnonneg]
  · intro hclosed a s' hstep
    exact hstep.after_close hclosed
  · intro _ item rest hitems t
    exact ⟨hinv.takes_recv hitems, hinv.takes_tryRecv hitems⟩

/-- A thread sends on a channel without capacity, and the channel is closed behind its item. -/
theorem channel_safe_closed :
    ∃ s : State Bool ℕ, s.enqueued = [7] ∧ s.chan.closed = true ∧ Safe s := by
  have h₀ : Reachable 0 (State.mk (lcnChannelNew 0 fun _ => 0) (fun _ : Bool => .idle) [] [] []) :=
    .start ⟨_, rfl, fun _ => rfl, rfl, rfl, rfl⟩
  have h₁ := h₀.next trivial (.callSend (t := false) 7 rfl)
  have h₂ := h₁.next trivial (.sendHands (t := false) rfl rfl (.none (by decide)))
  have h₃ := h₂.next trivial (.close (t := true) rfl)
  exact ⟨_, rfl, rfl, channel_safe h₃⟩

end

end Limceron.Runtime.Channel
