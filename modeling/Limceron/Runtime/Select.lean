/-
# `Limceron.Runtime.Select` — waiting for one of several channels

`lcn_select` in `runtime/select.c` goes round an array of channels until it finds
one that has an item, or all of them closed and empty, or its time is up.  It
takes the mutex of a channel twice: to see whether the channel is closed, and
then to see how many items it has.  Between any two of these looks other threads
may do anything to any of the channels (`Channel.Step`).

Two things make the verdict right although no two channels are looked at in the
same moment.  What has been seen closed and after that empty stays so
(`Done.step`): nothing is put into a closed channel.  And an item that has been
seen stays until somebody receives.

| | |
| :-- | :-- |
| `Sel` | where a call of `lcn_select` is |
| `Look` | one section of it |
| `Step` | a section of the call, or any step on one of the channels |
| `Inv` | what the call knows |

The clock may say anything: a call with a timeout may give up whenever it looks
at it.  The sum of an index and the offset is taken as it is, with no bound on
the number of channels.
-/
import Limceron.Runtime.Channel

namespace Limceron.Runtime.Channel

/-- `lcn_channel_is_closed`. -/
def LcnChannel.isClosed {α : Type*} (ch : LcnChannel α) : Bool := ch.closed

/-- `lcn_channel_len`. -/
def LcnChannel.len {α : Type*} (ch : LcnChannel α) : ℤ := ch.count

namespace Action

variable {τ α : Type*}

/-- The thread that takes the step. -/
def thread : Action τ α → τ
  | .callSend t _ => t
  | .callRecv t => t
  | .send t _ => t
  | .handoff t => t
  | .recv t _ => t
  | .tryRecv t _ => t
  | .close t => t
  | .wake t => t

/-- A step of `lcn_channel_recv` or `lcn_channel_try_recv`. -/
def Receives : Action τ α → Prop
  | .callRecv _ | .recv _ _ | .tryRecv _ _ => True
  | _ => False

end Action

end Limceron.Runtime.Channel

namespace Limceron.Runtime.Select

open Systems Channel

/-! ## The source -/

/-- Where a call is: outside; before the `i`th look of a round that began at this offset; between
the two sections of it; or back, with this result. -/
inductive Sel where
  | idle
  | testing (offset i : ℕ) (allClosed : Bool)
  | measuring (offset i : ℕ) (allClosed : Bool)
  | returned (result : ℤ)

/-- `int idx = (i + offset) % n;` -/
def slot {κ : Type*} (channels : List (Option κ)) (offset i : ℕ) : ℕ :=
  (i + offset) % channels.length

/-- One section of `lcn_select`, and what it does up to the next. -/
inductive Look {κ α : Type*} (channels : List (Option κ)) (timeoutMs : ℤ)
    (chan : κ → LcnChannel α) : Sel → Sel → Prop where
  -- `if (!ch) continue;`
  | skips {offset i : ℕ} {allClosed : Bool} : i < channels.length →
      channels[slot channels offset i]? = some none →
      Look channels timeoutMs chan (.testing offset i allClosed) (.testing offset (i + 1) allClosed)
  -- `if (!lcn_channel_is_closed(ch)) all_closed = 0;`
  | tests {offset i : ℕ} {allClosed : Bool} {k : κ} : i < channels.length →
      channels[slot channels offset i]? = some (some k) →
      Look channels timeoutMs chan (.testing offset i allClosed)
        (.measuring offset i (if !(chan k).isClosed then false else allClosed))
  -- `if (lcn_channel_len(ch) > 0) return idx;`
  | finds {offset i : ℕ} {allClosed : Bool} {k : κ} :
      channels[slot channels offset i]? = some (some k) → (chan k).len > 0 →
      Look channels timeoutMs chan (.measuring offset i allClosed)
        (.returned (slot channels offset i))
  | passes {offset i : ℕ} {allClosed : Bool} {k : κ} :
      channels[slot channels offset i]? = some (some k) → ¬ (chan k).len > 0 →
      Look channels timeoutMs chan (.measuring offset i allClosed)
        (.testing offset (i + 1) allClosed)
  -- after the round
  | allClosed {offset : ℕ} :
      Look channels timeoutMs chan (.testing offset channels.length true) (.returned (-1))
  | timesOut {offset : ℕ} : timeoutMs > 0 →
      Look channels timeoutMs chan (.testing offset channels.length false) (.returned (-2))
  | again {offset : ℕ} :
      Look channels timeoutMs chan (.testing offset channels.length false)
        (.testing ((offset + 1) % channels.length) 0 true)

/-- The start of a call. -/
def enter {κ : Type*} (channels : List (Option κ)) : Sel :=
  if channels.length ≤ 0 then .returned (-1) else .testing 0 0 true

/-! ## Threads -/

/-- The channels with the threads on them, and the call of one thread: the array it was given,
which may have `NULL` and the same channel twice, its timeout, and where it is. -/
structure State (κ τ α : Type*) where
  chans : κ → Channel.State τ α
  channels : List (Option κ)
  timeoutMs : ℤ
  sel : Sel

/-- A step: the call begins, has a section, or a thread does something to a channel. -/
inductive Act (κ τ α : Type*) where
  | call (channels : List (Option κ)) (timeoutMs : ℤ)
  | look
  | chan (k : κ) (a : Channel.Action τ α)

/-- The call is under way. -/
def Sel.Runs : Sel → Prop
  | .testing _ _ _ | .measuring _ _ _ => True
  | .idle | .returned _ => False

/-- New channels, and no call. -/
def Init {κ τ α : Type*} (s : State κ τ α) : Prop :=
  (∀ k, ∃ capacity, Channel.Init capacity (s.chans k)) ∧ s.sel = .idle

section
variable {κ τ α : Type*} [DecidableEq κ] [DecidableEq τ]

/-- The steps of any threads, of which `me` calls `lcn_select` and does nothing else while the call
lasts. What it does to a channel afterwards ends the result's time. -/
inductive Step (me : τ) (s : State κ τ α) : Act κ τ α → State κ τ α → Prop where
  | call {channels : List (Option κ)} {timeoutMs : ℤ} : ¬ s.sel.Runs →
      (∀ k, (s.chans k).pc me = .idle) →
      Step me s (.call channels timeoutMs) { s with channels, timeoutMs, sel := enter channels }
  | look {sel : Sel} : Look s.channels s.timeoutMs (fun k => (s.chans k).chan) s.sel sel →
      Step me s .look { s with sel }
  | mine {k : κ} {a : Channel.Action τ α} {c : Channel.State τ α} : a.thread = me → ¬ s.sel.Runs →
      Channel.Step (s.chans k) a c →
      Step me s (.chan k a) { s with chans := Function.update s.chans k c, sel := .idle }
  | other {k : κ} {a : Channel.Action τ α} {c : Channel.State τ α} : a.thread ≠ me →
      Channel.Step (s.chans k) a c →
      Step me s (.chan k a) { s with chans := Function.update s.chans k c }

/-- The states that any steps lead to. -/
def Reachable (me : τ) (s : State κ τ α) : Prop := Reached Init (Step me) (fun _ _ => True) s

/-- Nobody else receives. -/
def OnlyReceiver (me : τ) (_ : State κ τ α) (act : Act κ τ α) : Prop :=
  ∀ k a, act = .chan k a → a.thread ≠ me → ¬ a.Receives

/-- A step of somebody else, who does not receive. -/
def OthersOnly (me : τ) (_ : State κ τ α) (act : Act κ τ α) : Prop :=
  ∃ k a, act = .chan k a ∧ a.thread ≠ me ∧ ¬ a.Receives

end

/-! ## What stays -/

section
variable {τ α : Type*} [DecidableEq τ] {c c' : Channel.State τ α} {a : Channel.Action τ α} {t : τ}

/-- The channel is closed, and all its items have been received. -/
def Done (c : Channel.State τ α) : Prop := c.chan.closed = true ∧ c.chan.count = 0

theorem Done.step (h : Done c) (hstep : Channel.Step c a c') :
    Done c' ∧ c'.received = c.received := by
  obtain ⟨hclosed, hcount⟩ := h
  cases hstep.change with
  | same hchan _ hreceived => exact ⟨⟨hchan ▸ hclosed, hchan ▸ hcount⟩, hreceived⟩
  | put _ hopen =>
      rw [hclosed] at hopen
      cases hopen
  | take hne => exact absurd hcount hne
  | close hchan _ hreceived => exact ⟨⟨hchan ▸ rfl, hchan ▸ hcount⟩, hreceived⟩

/-- An item stays in the ring unless a thread receives. -/
theorem count_ne_zero (hinv : Channel.Inv c) (hcount : c.chan.count ≠ 0)
    (hstep : Channel.Step c a c') (ha : ¬ a.Receives) : c'.chan.count ≠ 0 := by
  have hnonneg := hinv.ok.count_nonneg
  cases hstep with
  | recvTakes => exact absurd trivial ha
  | tryTakes => exact absurd trivial ha
  | sendHands _ hsend =>
      obtain ⟨rfl, -, -⟩ := LcnChannel.send_puts (.inl hsend)
      show c.chan.count + 1 ≠ 0
      omega
  | sendDone _ hsend =>
      obtain ⟨rfl, -, -⟩ := LcnChannel.send_puts (.inr hsend)
      show c.chan.count + 1 ≠ 0
      omega
  | _ => exact hcount

/-- A thread that is awake is not moved by others. -/
theorem pc_of_other (hstep : Channel.Step c a c') (ht : a.thread ≠ t)
    (hfull : ¬ (c.pc t).OnNotFull) (hempty : ¬ (c.pc t).OnNotEmpty) : c'.pc t = c.pc t := by
  have hgoto : ∀ (r : Channel.State τ α) (u : τ) (v : Pc α), u ≠ t → (r.goto u v).pc t = r.pc t :=
    fun r u v hu => Function.update_of_ne hu.symm _ _
  cases hstep with
  | sendHands _ _ hsignal => exact (hgoto _ _ _ ht).trans (hsignal.stays hempty)
  | sendDone _ _ hsignal => exact (hgoto _ _ _ ht).trans (hsignal.stays hempty)
  | recvTakes _ _ hsignal => exact (hgoto _ _ _ ht).trans (hsignal.stays hfull)
  | tryTakes _ _ hsignal => exact hsignal.stays hfull
  | tryRefused => rfl
  | close =>
      have hstays : Monitors.broadcast Pc.OnNotEmpty Pc.woken c.pc t = c.pc t := if_neg hempty
      show Monitors.broadcast Pc.OnNotFull Pc.woken _ t = c.pc t
      rw [Monitors.broadcast, hstays, if_neg hfull]
  | _ => exact hgoto _ _ _ ht

/-- An item waits, and the thread has called `lcn_channel_recv` for it. -/
structure Fetches (t : τ) (c : Channel.State τ α) : Prop where
  inv : Channel.Inv c
  count_ne : c.chan.count ≠ 0
  pc_eq : c.pc t = .receiving

theorem Fetches.step (h : Fetches t c) (hstep : Channel.Step c a c') (ht : a.thread ≠ t)
    (ha : ¬ a.Receives) : Fetches t c' := by
  refine ⟨h.inv.step hstep, count_ne_zero h.inv h.count_ne hstep ha, ?_⟩
  rw [pc_of_other hstep ht (h.pc_eq ▸ id) (h.pc_eq ▸ id), h.pc_eq]

/-- It gets an item at once. -/
theorem Fetches.takes (h : Fetches t c) : ∃ item rest, Takes c (.recv t) item rest := by
  obtain ⟨-, hitems⟩ := h.inv.ok.drop h.count_ne
  exact ⟨_, _, h.inv.takes_recv hitems h.pc_eq⟩

end

/-! ## What the call knows -/

section
variable {κ τ α : Type*} {chans chans' : κ → Channel.State τ α} {channels : List (Option κ)}
  {sel sel' : Sel}

/-- The channel of this slot, if there is one, is closed and empty. -/
def DoneAt (chans : κ → Channel.State τ α) (channels : List (Option κ)) (idx : ℕ) : Prop :=
  ∀ k, channels[idx]? = some (some k) → Done (chans k)

/-- What is known at each place. -/
def Knows (chans : κ → Channel.State τ α) (channels : List (Option κ)) : Sel → Prop
  | .idle => True
  | .testing offset i allClosed =>
      offset < channels.length ∧
        (allClosed = true → ∀ j < i, DoneAt chans channels (slot channels offset j))
  | .measuring offset i allClosed =>
      offset < channels.length ∧
        (allClosed = true → (∀ j < i, DoneAt chans channels (slot channels offset j)) ∧
          ∀ k, channels[slot channels offset i]? = some (some k) →
            (chans k).chan.closed = true)
  | .returned result => result = -1 → ∀ idx, DoneAt chans channels idx

/-- A round comes to every slot. -/
theorem exists_slot {offset idx : ℕ} (ho : offset < channels.length)
    (hidx : idx < channels.length) : ∃ j < channels.length, slot channels offset j = idx := by
  refine ⟨(idx + (channels.length - offset)) % channels.length, Nat.mod_lt _ (by omega), ?_⟩
  have hsum : idx + (channels.length - offset) + offset = idx + channels.length := by omega
  rw [slot, Nat.mod_add_mod, hsum, Nat.add_mod_right, Nat.mod_eq_of_lt hidx]

/-- What each channel keeps is enough for what is known. -/
theorem Knows.mono (h : Knows chans channels sel)
    (hclosed : ∀ k, (chans k).chan.closed = true → (chans' k).chan.closed = true)
    (hdone : ∀ k, Done (chans k) → Done (chans' k)) : Knows chans' channels sel := by
  have hat : ∀ idx, DoneAt chans channels idx → DoneAt chans' channels idx :=
    fun idx hidx k hk => hdone k (hidx k hk)
  cases sel with
  | idle => trivial
  | testing offset i allClosed => exact ⟨h.1, fun hall j hj => hat _ (h.2 hall j hj)⟩
  | measuring offset i allClosed =>
      refine ⟨h.1, fun hall => ⟨fun j hj => hat _ ((h.2 hall).1 j hj), fun k hk => ?_⟩⟩
      exact hclosed k ((h.2 hall).2 k hk)
  | returned result => exact fun hresult idx => hat idx (h hresult idx)

theorem knows_enter : Knows chans channels (enter channels) := by
  unfold enter
  split
  · next hlength =>
      rintro - idx k hk
      rw [List.length_eq_zero_iff.mp (Nat.le_zero.mp hlength)] at hk
      cases hk
  · next hlength =>
      exact ⟨Nat.lt_of_not_le hlength, fun _ j hj => absurd hj (Nat.not_lt_zero j)⟩

theorem enter_ne (idx : ℕ) : enter channels ≠ .returned idx := by
  intro h
  unfold enter at h
  split at h
  · injection h with h
    omega
  · cases h

/-- A section of the call has seen what it says. -/
theorem Knows.look {timeoutMs : ℤ} (hinv : ∀ k, Channel.Inv (chans k))
    (h : Knows chans channels sel)
    (hlook : Look channels timeoutMs (fun k => (chans k).chan) sel sel') :
    Knows chans channels sel' := by
  cases hlook with
  | @skips offset i b hi hslot =>
      refine ⟨h.1, fun hall j hj => ?_⟩
      rcases Nat.lt_succ_iff_lt_or_eq.mp hj with hj | rfl
      · exact h.2 hall j hj
      · intro k hk
        cases hslot.symm.trans hk
  | @tests offset i b k hi hslot =>
      refine ⟨h.1, fun hall => ?_⟩
      have hclosed : (chans k).chan.closed = true := by
        by_contra hopen
        rw [LcnChannel.isClosed, Bool.eq_false_iff.mpr hopen] at hall
        cases hall
      have hb : b = true := by
        rwa [LcnChannel.isClosed, hclosed] at hall
      refine ⟨h.2 hb, fun k' hk' => ?_⟩
      cases hslot.symm.trans hk'
      exact hclosed
  | @finds offset i b k hslot hlen =>
      intro hresult
      have hnonneg : (0 : ℤ) ≤ slot channels offset i := Int.natCast_nonneg _
      omega
  | @passes offset i b k hslot hlen =>
      refine ⟨h.1, fun hall j hj => ?_⟩
      rcases Nat.lt_succ_iff_lt_or_eq.mp hj with hj | rfl
      · exact (h.2 hall).1 j hj
      · intro k' hk'
        refine ⟨(h.2 hall).2 k' hk', ?_⟩
        cases hslot.symm.trans hk'
        have hnonneg := (hinv k).ok.count_nonneg
        have hcount : ¬ (chans k).chan.count > 0 := hlen
        omega
  | @allClosed offset =>
      rintro - idx k hk
      obtain ⟨hidx, -⟩ := List.getElem?_eq_some_iff.mp hk
      obtain ⟨j, hj, rfl⟩ := exists_slot h.1 hidx
      exact h.2 rfl j hj k hk
  | timesOut => exact fun hresult => by cases hresult
  | @again offset =>
      exact ⟨Nat.mod_lt _ (Nat.zero_lt_of_lt h.1), fun _ j hj => absurd hj (Nat.not_lt_zero j)⟩

end

/-! ## Soundness -/

/-- What holds in every reachable state. -/
structure Inv {κ τ α : Type*} (me : τ) (s : State κ τ α) : Prop where
  chans : ∀ k, Channel.Inv (s.chans k)
  knows : Knows s.chans s.channels s.sel
  idle : s.sel ≠ .idle → ∀ k, (s.chans k).pc me = .idle

theorem Inv.init {κ τ α : Type*} {me : τ} {s : State κ τ α} (h : Init s) : Inv me s := by
  obtain ⟨hchans, hsel⟩ := h
  refine ⟨fun k => ?_, ?_, fun hne => absurd hsel hne⟩
  · obtain ⟨capacity, hk⟩ := hchans k
    exact Channel.Inv.init hk
  · rw [hsel]
    trivial

/-- A step on one channel, for all of them. -/
theorem forall_update {κ σ : Type*} [DecidableEq κ] (P : κ → σ → Prop) {chans : κ → σ} {k : κ}
    {c : σ} (h : ∀ i, P i (chans i)) (hk : P k (chans k) → P k c) (i : κ) :
    P i (Function.update chans k c i) := by
  by_cases hi : i = k
  · subst hi
    rw [Function.update_self]
    exact hk (h i)
  · rw [Function.update_of_ne hi]
    exact h i

section
variable {κ τ α : Type*} [DecidableEq κ] [DecidableEq τ] {me : τ} {s s' : State κ τ α}
  {act : Act κ τ α}

theorem Inv.step (h : Inv me s) (hstep : Step me s act s') : Inv me s' := by
  cases hstep with
  | call _ hidle => exact ⟨h.chans, knows_enter, fun _ => hidle⟩
  | look hlook =>
      refine ⟨h.chans, h.knows.look h.chans hlook, fun _ => h.idle ?_⟩
      intro hsel
      rw [hsel] at hlook
      cases hlook
  | mine _ _ hstep =>
      exact ⟨forall_update (fun _ => Channel.Inv) h.chans fun hk => hk.step hstep, trivial,
        fun hne => absurd rfl hne⟩
  | @other k a c ha hstep =>
      refine ⟨forall_update (fun _ => Channel.Inv) h.chans fun hk => hk.step hstep, ?_, ?_⟩
      · refine h.knows.mono ?_ ?_
        · exact forall_update
            (fun i (c : Channel.State τ α) => (s.chans i).chan.closed = true → c.chan.closed = true)
            (fun _ hclosed => hclosed) fun _ hclosed => (hstep.after_close hclosed).1
        · exact forall_update (fun i c => Done (s.chans i) → Done c) (fun _ hdone => hdone)
            fun _ hdone => (hdone.step hstep).1
      · intro hne
        refine forall_update (fun _ (c : Channel.State τ α) => c.pc me = .idle) (h.idle hne) ?_
        intro hk
        rw [pc_of_other hstep ha (hk ▸ id) (hk ▸ id), hk]

theorem inv_of_reached {ok : State κ τ α → Act κ τ α → Prop}
    (h : Reached Init (Step me) ok s) : Inv me s :=
  h.invariant (fun _ => Inv.init) fun _ _ _ hs _ hstep => hs.step hstep

/-- What is done stays done, whatever happens. -/
theorem Step.done (hstep : Step me s act s') {k : κ} (h : Done (s.chans k)) :
    Done (s'.chans k) ∧ (s'.chans k).received = (s.chans k).received := by
  have hupdate : ∀ {j : κ} {a : Channel.Action τ α} {c : Channel.State τ α},
      Channel.Step (s.chans j) a c → Done (Function.update s.chans j c k) ∧
        (Function.update s.chans j c k).received = (s.chans k).received := by
    intro j a c hstep
    refine forall_update (fun i c => Done (s.chans i) → Done c ∧ c.received = (s.chans i).received)
      (fun _ hdone => ⟨hdone, rfl⟩) ?_ k h
    exact fun _ hdone => hdone.step hstep
  cases hstep with
  | call => exact ⟨h, rfl⟩
  | look => exact ⟨h, rfl⟩
  | mine _ _ hstep => exact hupdate hstep
  | other _ hstep => exact hupdate hstep

/-- The channel is closed, and nothing will ever be received from it. -/
def Finished (me : τ) (s : State κ τ α) (k : κ) : Prop :=
  ∀ s', Reached (· = s) (Step me) (fun _ _ => True) s' → (s'.chans k).chan.closed = true ∧
    (s'.chans k).received = (s.chans k).received

theorem Done.finished {k : κ} (h : Done (s.chans k)) : Finished me s k := by
  intro s' hreached
  have hdone : Done (s'.chans k) ∧ (s'.chans k).received = (s.chans k).received := by
    refine hreached.invariant (I := fun r => Done (r.chans k) ∧
      (r.chans k).received = (s.chans k).received) ?_ ?_
    · rintro _ rfl
      exact ⟨h, rfl⟩
    · rintro r act t ⟨hr, hreceived⟩ - hstep
      exact ⟨(hstep.done hr).1, (hstep.done hr).2.trans hreceived⟩
  exact ⟨hdone.1.1, hdone.2⟩

/-- A slot that was returned has an item, if nobody else receives. -/
def Ready (s : State κ τ α) : Prop :=
  ∀ idx : ℕ, s.sel = .returned idx →
    ∃ k, s.channels[idx]? = some (some k) ∧ (s.chans k).chan.count ≠ 0

theorem Ready.step (h : Ready s) (hinv : Inv me s) (hstep : Step me s act s')
    (honly : OnlyReceiver me s act) : Ready s' := by
  intro idx hidx
  cases hstep with
  | call => exact absurd hidx (enter_ne idx)
  | @look sel hlook =>
      obtain ⟨chans, channels, timeoutMs, before⟩ := s
      dsimp only at hidx hlook
      subst hidx
      generalize hresult : Sel.returned idx = sel at hlook
      cases hlook with
      | @finds offset i b k hslot hlen =>
          injection hresult with hresult
          rw [Int.ofNat_inj.mp hresult]
          refine ⟨k, hslot, ?_⟩
          have hcount : (chans k).chan.count > 0 := hlen
          dsimp only
          omega
      | allClosed =>
          injection hresult with hresult
          omega
      | timesOut =>
          injection hresult with hresult
          omega
      | _ => cases hresult
  | mine => cases hidx
  | @other k a c ha hstep =>
      obtain ⟨k', hk', hcount⟩ := h idx hidx
      refine ⟨k', hk', ?_⟩
      refine forall_update (fun i (c : Channel.State τ α) =>
        (s.chans i).chan.count ≠ 0 → c.chan.count ≠ 0) (fun _ => id) ?_ k' hcount
      exact fun _ hne => count_ne_zero (hinv.chans k) hne hstep (honly k a rfl ha)

/-- While others take their steps and nobody else receives, the item waits. -/
theorem fetches_of_reached {k : κ} (h : Fetches me (s.chans k))
    (hreached : Reached (· = s) (Step me) (OthersOnly me) s') : Fetches me (s'.chans k) := by
  refine hreached.invariant (I := fun r => Fetches me (r.chans k)) ?_ ?_
  · rintro _ rfl
    exact h
  · rintro r act t hr ⟨j, a, rfl, ha, hreceives⟩ hstep
    cases hstep with
    | mine hme => exact absurd hme ha
    | other _ hstep =>
        refine forall_update (fun i c => Fetches me (r.chans i) → Fetches me c) (fun _ => id) ?_
          k hr
        exact fun _ hj => hj.step hstep ha hreceives

/-- The next `lcn_channel_recv` of the caller on this slot finds an item, whenever its turn is. -/
def Receivable (me : τ) (s : State κ τ α) (idx : ℕ) : Prop :=
  ∃ k, s.channels[idx]? = some (some k) ∧ (∃ s₁, Step me s (.chan k (.callRecv me)) s₁) ∧
    ∀ s₁ s₂, Step me s (.chan k (.callRecv me)) s₁ →
      Reached (· = s₁) (Step me) (OthersOnly me) s₂ →
      ∃ item rest, Takes (s₂.chans k) (.recv me) item rest

/-- The call takes nothing out of a channel. Its `-1` says that all channels of the array are closed
and that nothing comes from them any more; an index says that an item waits there, if the caller
alone receives. -/
theorem select_sound (h : Reachable me s) :
    (∀ s', Step me s .look s' → s'.chans = s.chans) ∧
    (s.sel = .returned (-1) → ∀ k, some k ∈ s.channels → Finished me s k) ∧
    (Reached Init (Step me) (OnlyReceiver me) s → ∀ idx : ℕ, s.sel = .returned idx →
      Receivable me s idx) := by
  have hinv : Inv me s := inv_of_reached h
  refine ⟨?_, ?_, ?_⟩
  · intro s' hstep
    cases hstep with
    | look => rfl
  · intro hsel k hk
    have hknows := hinv.knows
    rw [hsel] at hknows
    obtain ⟨idx, hidx⟩ := List.mem_iff_getElem?.mp hk
    exact (hknows rfl idx k hidx).finished
  · intro honly idx hsel
    have hready : Inv me s ∧ Ready s := by
      refine honly.invariant (I := fun r => Inv me r ∧ Ready r) ?_ ?_
      · intro r hr
        refine ⟨Inv.init hr, fun idx hidx => ?_⟩
        rw [hr.2] at hidx
        cases hidx
      · rintro r act t ⟨hr, hready⟩ hok hstep
        exact ⟨hr.step hstep, hready.step hr hstep hok⟩
    obtain ⟨k, hk, hcount⟩ := hready.2 idx hsel
    have hpc : (s.chans k).pc me = .idle := hinv.idle (by rw [hsel]; exact Sel.noConfusion) k
    refine ⟨k, hk, ⟨_, .mine rfl (by rw [hsel]; exact id) (.callRecv hpc)⟩, ?_⟩
    intro s₁ s₂ hcall hreached
    refine (fetches_of_reached (k := k) ?_ hreached).takes
    cases hcall with
    | other hme => exact absurd rfl hme
    | mine _ _ hstep =>
        dsimp only
        rw [Function.update_self]
        cases hstep with
        | callRecv =>
            exact ⟨(hinv.chans k).step (.callRecv hpc), hcount, Function.update_self ..⟩

/-- Another thread sends, and the call finds the item behind a `NULL`. -/
theorem select_sound_one : ∃ s : State Unit Bool ℕ, s.sel = .returned 1 ∧ Receivable false s 1 := by
  let c : Channel.State Bool ℕ := ⟨lcnChannelNew 1 fun _ => 0, fun _ => .idle, [], [], []⟩
  have honly : ∀ {s : State Unit Bool ℕ} {k : Unit} {a : Channel.Action Bool ℕ}, ¬ a.Receives →
      OnlyReceiver false s (.chan k a) := by
    rintro s k a ha _ _ ⟨⟩ -
    exact ha
  have hcall : ∀ (s : State Unit Bool ℕ) channels timeoutMs,
      OnlyReceiver false s (.call channels timeoutMs) := by
    rintro s channels timeoutMs k a ⟨⟩
  have hlook : ∀ s : State Unit Bool ℕ, OnlyReceiver false s .look := by
    rintro s k a ⟨⟩
  have h₀ : Reached Init (Step false) (OnlyReceiver false)
      (State.mk (fun _ : Unit => c) [] 0 .idle) :=
    .start ⟨fun _ => ⟨1, _, rfl, fun _ => rfl, rfl, rfl, rfl⟩, rfl⟩
  have h₁ := h₀.next (honly id) (.other (k := ()) (by decide) (.callSend (t := true) 7 rfl))
  have h₂ := h₁.next (honly id) (.other (k := ()) (by decide)
    (.sendDone (t := true) rfl rfl (.none (by decide))))
  have h₃ := h₂.next (hcall _ _ _)
    (show Step false _ (.call [none, some ()] 0) _ from .call id fun _ => rfl)
  have h₄ := h₃.next (hlook _) (.look (.skips (by decide) rfl))
  have h₅ := h₄.next (hlook _) (.look (.tests (by decide) rfl))
  have h₆ := h₅.next (hlook _) (.look (.finds rfl (by decide)))
  have hreachable : Reachable false _ := h₆.mono fun _ _ _ => trivial
  exact ⟨_, rfl, (select_sound hreachable).2.2 h₆ 1 rfl⟩

end

end Limceron.Runtime.Select
