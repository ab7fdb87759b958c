/-
# `Limceron.Runtime.Wakeups` — threads that sleep on a channel though they could go on

A thread asleep in a call waits for a signal.  It must not be that all threads
are asleep or away and one of them could go on.  While a thread sleeps on
`not_empty`, at least as many receivers are awake as there are items, and while
one sleeps on `not_full`, at least as many senders are awake as there are free
slots (`Awaited`): each signal is given for one item or one slot.

Two kinds of senders sleep on `not_full`.  One that waits for its item to be
taken does not use the slot when it is woken, and returns without a signal; then
another that sleeps there stays asleep.  This is the one way in which a wake-up
is lost (`WakesRight`), and there is none on a channel with capacity.
-/
import Limceron.Runtime.Rendezvous

namespace Limceron.Runtime.Channel

open Systems Monitors

/-! ## What is promised -/

section
variable {τ α : Type*}

/-- The thread is before a section that puts an item in. -/
def Pc.Sending (pc : Pc α) : Prop := ∃ item, pc = .sending item

/-- The thread is before a section that takes an item out. -/
def Pc.Receiving (pc : Pc α) : Prop := pc = .receiving

/-- No thread is awake in a call. -/
def Quiescent (s : State τ α) : Prop :=
  ∀ t, s.pc t = .idle ∨ (s.pc t).OnNotEmpty ∨ (s.pc t).OnNotFull

/-- The condition that a sleeping thread waits on does not hold. -/
def CanGoOn (ch : LcnChannel α) : Pc α → Prop
  | .asleepFull _ => ¬ (ch.count = ch.capacity ∧ ch.closed = false)
  | .asleepHandoff _ _ => ch.awaitsHandoff = false
  | .asleepEmpty => ¬ (ch.count = 0 ∧ ch.closed = false)
  | _ => False

/-- If all threads are asleep or away, those that are asleep have to be. -/
def NoLostWakeup (s : State τ α) : Prop := Quiescent s → ∀ t, ¬ CanGoOn s.chan (s.pc t)

/-- A receive that wakes a sender waiting for its item to be taken leaves no other thread asleep on
`not_full`, or one that puts an item in is awake. -/
def WakesRight (s : State τ α) (a : Action τ α) : Prop :=
  ∀ t w n item, (a = .recv t (some w) ∨ a = .tryRecv t (some w)) →
    s.pc w = .asleepHandoff n item →
      (∀ u, u ≠ w → ¬ (s.pc u).OnNotFull) ∨ ∃ u, (s.pc u).Sending

/-! ## The invariant -/

/-- Who sleeps is awaited by as many others as there is something to wake it for. -/
structure Awaited (s : State τ α) : Prop where
  inv : Inv s
  single : s.chan.unbuffered = true → s.chan.capacity = 1
  handing : ∀ t n item, (s.pc t).HandsOver n item → s.chan.unbuffered = true
  closed : s.chan.closed = true → ∀ t, ¬ (s.pc t).OnNotEmpty ∧ ¬ (s.pc t).OnNotFull
  takers : Served Pc.OnNotEmpty Pc.Receiving s.chan.count.toNat s.pc
  putters : Served Pc.OnNotFull Pc.Sending (s.chan.capacity - s.chan.count).toNat s.pc

theorem Awaited.init {s : State τ α} {capacity : ℤ} (h : Init capacity s) : Awaited s := by
  have hinv := Inv.init h
  obtain ⟨memory, hchan, hidle, -, -, -⟩ := h
  have hempty : ∀ t, ¬ (s.pc t).OnNotEmpty := fun t => by
    rw [hidle t]
    exact id
  have hfull : ∀ t, ¬ (s.pc t).OnNotFull := fun t => by
    rw [hidle t]
    exact id
  refine ⟨hinv, ?_, ?_, fun _ t => ⟨hempty t, hfull t⟩, served_of_none hempty,
    served_of_none hfull⟩
  · intro hunbuffered
    rw [hchan] at hunbuffered ⊢
    exact if_pos (of_decide_eq_true hunbuffered)
  · intro t n item ht
    rw [hidle t] at ht
    rcases ht with ht | ht <;> cases ht

/-- With such counts nobody has to be woken when all is quiet. -/
theorem Awaited.noLostWakeup {s : State τ α} (h : Awaited s) : NoLostWakeup s := by
  intro hquiet t hcan
  have hreceiving : ∀ u, ¬ (s.pc u).Receiving := by
    intro u hu
    rcases hquiet u with hu' | hu' | hu' <;> rw [hu] at hu'
    · cases hu'
    · exact hu'
    · exact hu'
  have hsending : ∀ u, ¬ (s.pc u).Sending := by
    rintro u ⟨item, hu⟩
    rcases hquiet u with hu' | hu' | hu' <;> rw [hu] at hu'
    · cases hu'
    · exact hu'
    · exact hu'
  have hnonneg := h.inv.ok.count_nonneg
  have hle := h.inv.ok.count_le
  have hopen : (s.pc t).OnNotEmpty ∨ (s.pc t).OnNotFull → s.chan.closed = false := by
    intro hasleep
    refine Bool.eq_false_iff.2 fun hclosed => ?_
    obtain ⟨hempty, hfull⟩ := h.closed hclosed t
    exact hasleep.elim hempty hfull
  cases hpc : s.pc t with
  | asleepEmpty =>
      rw [hpc] at hcan hopen
      have hzero := h.takers.quiet hreceiving (t := t) (by rw [hpc]; trivial)
      exact hcan ⟨by omega, hopen (.inl trivial)⟩
  | asleepFull item =>
      rw [hpc] at hcan hopen
      have hzero := h.putters.quiet hsending (t := t) (by rw [hpc]; trivial)
      exact hcan ⟨by omega, hopen (.inr trivial)⟩
  | asleepHandoff n item =>
      rw [hpc] at hcan hopen
      have hzero := h.putters.quiet hsending (t := t) (by rw [hpc]; trivial)
      have hsingle := h.single (h.handing t n item (.inr hpc))
      have hcan' : (decide (s.chan.count > 0) && !s.chan.closed) = false := hcan
      rw [hopen (.inr trivial), decide_eq_true (by omega)] at hcan'
      cases hcan'
  | idle => rw [hpc] at hcan; exact hcan
  | sending item => rw [hpc] at hcan; exact hcan
  | handing n item => rw [hpc] at hcan; exact hcan
  | receiving => rw [hpc] at hcan; exact hcan

end

/-! ## Signals -/

section
variable {α : Type*} {v : Pc α}

/-- A thread that is woken on one condition was not asleep on the other. -/
theorem notEmpty_kept (h : v.OnNotEmpty) :
    (v.woken.OnNotFull ↔ v.OnNotFull) ∧ (v.woken.Sending ↔ v.Sending) := by
  cases v with
  | asleepEmpty => exact ⟨Iff.rfl, iff_of_false (by rintro ⟨_, h⟩; cases h) (by rintro ⟨_, h⟩; cases h)⟩
  | _ => cases h

theorem notFull_kept (h : v.OnNotFull) :
    (v.woken.OnNotEmpty ↔ v.OnNotEmpty) ∧ (v.woken.Receiving ↔ v.Receiving) := by
  cases v with
  | asleepFull item => exact ⟨Iff.rfl, iff_of_false nofun nofun⟩
  | asleepHandoff n item => exact ⟨Iff.rfl, iff_of_false nofun nofun⟩
  | _ => cases h

/-- A thread that sleeps on neither condition. -/
def Pc.Awake (v : Pc α) : Prop := ¬ v.OnNotEmpty ∧ ¬ v.OnNotFull

theorem woken_awake (v : Pc α) : v.woken.Awake := by
  cases v <;> exact ⟨id, id⟩

theorem broadcast_awake {τ : Type*} (pc : τ → Pc α) (t : τ) :
    (broadcast Pc.OnNotFull Pc.woken (broadcast Pc.OnNotEmpty Pc.woken pc) t).Awake := by
  by_cases hfull : (broadcast Pc.OnNotEmpty Pc.woken pc t).OnNotFull
  · rw [broadcast, if_pos hfull]
    exact woken_awake _
  · rw [broadcast, if_neg hfull]
    refine ⟨?_, hfull⟩
    by_cases hempty : (pc t).OnNotEmpty
    · rw [broadcast, if_pos hempty]
      exact (woken_awake _).1
    · rw [broadcast, if_neg hempty]
      exact hempty

end

section
variable {τ α : Type*} [DecidableEq τ] {s s' : State τ α} {a : Action τ α}

/-- On a closed channel nobody falls asleep. -/
theorem Step.awake (h : Step s a s')
    (hclosed : s.chan.closed = true → ∀ t, (s.pc t).Awake) (hclosed' : s'.chan.closed = true)
    (u : τ) : (s'.pc u).Awake := by
  have hgoto : ∀ (r : State τ α) (t : τ) (v : Pc α), v.Awake → (∀ u, (r.pc u).Awake) →
      ((r.goto t v).pc u).Awake := by
    intro r t v hv hr
    rcases goto_pc r t u v with ⟨hpc, -⟩ | hpc
    · rw [hpc]
      exact hv
    · rw [hpc]
      exact hr u
  cases h with
  | callSend _ _ => exact hgoto _ _ _ ⟨id, id⟩ (hclosed hclosed')
  | callRecv _ => exact hgoto _ _ _ ⟨id, id⟩ (hclosed hclosed')
  | sendWaits _ hsend =>
      have hopen := (LcnChannel.send_waitsFull hsend).2
      exact absurd (hopen.symm.trans hclosed') Bool.false_ne_true
  | sendRefused _ _ => exact hgoto _ _ _ ⟨id, id⟩ (hclosed hclosed')
  | sendHands _ hsend _ =>
      obtain ⟨rfl, hopen, -⟩ := LcnChannel.send_puts (.inl hsend)
      exact absurd (hopen.symm.trans hclosed') Bool.false_ne_true
  | sendDone _ hsend _ =>
      obtain ⟨rfl, hopen, -⟩ := LcnChannel.send_puts (.inr hsend)
      exact absurd (hopen.symm.trans hclosed') Bool.false_ne_true
  | handoffWaits _ hwaits =>
      have hopen := (Bool.and_eq_true_iff.1 hwaits).2
      have hclosed'' : s.chan.closed = true := hclosed'
      rw [hclosed''] at hopen
      cases hopen
  | handoffDone _ _ => exact hgoto _ _ _ ⟨id, id⟩ (hclosed hclosed')
  | recvWaits _ hrecv =>
      have hopen := (LcnChannel.recv_waitsEmpty hrecv).2
      exact absurd (hopen.symm.trans hclosed') Bool.false_ne_true
  | recvRefused _ _ => exact hgoto _ _ _ ⟨id, id⟩ (hclosed hclosed')
  | @recvTakes t item ch w pc _ hrecv hsignal =>
      obtain ⟨rfl, rfl, -⟩ := LcnChannel.recv_took hrecv
      refine hgoto (s.takeOut s.chan.drop _ pc) _ _ ⟨id, id⟩ fun u => ?_
      exact hsignal.forall (hclosed hclosed') (fun _ _ => woken_awake _) u
  | tryRefused _ _ => exact hclosed hclosed' u
  | tryTakes _ hrecv hsignal =>
      obtain ⟨rfl, rfl, -⟩ := LcnChannel.tryRecv_took hrecv
      exact hsignal.forall (hclosed hclosed') (fun _ _ => woken_awake _) u
  | close _ => exact broadcast_awake s.pc u
  | wake _ => exact hgoto _ _ _ (woken_awake _) (hclosed hclosed')

/-! ## Counting -/

section
variable {w : Option τ} {pc : τ → Pc α}

/-- One more item, and a signal for it. -/
theorem Awaited.put_takers (h : Awaited s) (hsignal : SignalNotEmpty s.pc w pc) :
    Served Pc.OnNotEmpty Pc.Receiving (s.chan.count + 1).toNat pc := by
  have hnonneg := h.inv.ok.count_nonneg
  refine (h.takers.signal hsignal fun t _ hempty => ?_).mono (by omega)
  cases hpc : s.pc t with
  | asleepEmpty => exact ⟨nofun, rfl⟩
  | _ => rw [hpc] at hempty; cases hempty

/-- A signal for an item wakes no sender. -/
theorem Awaited.put_putters (h : Awaited s) (hsignal : SignalNotEmpty s.pc w pc) :
    Served Pc.OnNotFull Pc.Sending (s.chan.capacity - s.chan.count).toNat pc :=
  h.putters.weaken (fun t => (hsignal.kept (fun _ hv => (notEmpty_kept hv).1) t).1)
    fun t => (hsignal.kept (fun _ hv => (notEmpty_kept hv).2) t).2

/-- A signal for a slot wakes no receiver. -/
theorem Awaited.take_takers (h : Awaited s) (hsignal : SignalNotFull s.pc w pc) :
    Served Pc.OnNotEmpty Pc.Receiving s.chan.count.toNat pc :=
  h.takers.weaken (fun t => (hsignal.kept (fun _ hv => (notFull_kept hv).1) t).1)
    fun t => (hsignal.kept (fun _ hv => (notFull_kept hv).2) t).2

/-- One more slot, and a signal for it: either it wakes a thread that uses it, or nobody else has to
be woken. -/
theorem Awaited.take_putters (h : Awaited s) (hcount : s.chan.count ≠ 0)
    (hsignal : SignalNotFull s.pc w pc)
    (hright : ∀ u n item, w = some u → s.pc u = .asleepHandoff n item →
      (∀ v, v ≠ u → ¬ (s.pc v).OnNotFull) ∨ ∃ v, (s.pc v).Sending) :
    Served Pc.OnNotFull Pc.Sending (s.chan.capacity - (s.chan.count - 1)).toNat pc := by
  have hnonneg := h.inv.ok.count_nonneg
  have hle := h.inv.ok.count_le
  have hmore : (s.chan.capacity - (s.chan.count - 1)).toNat =
      (s.chan.capacity - s.chan.count).toNat + 1 := by omega
  rw [hmore]
  by_cases hhands : ∃ u n item, w = some u ∧ s.pc u = .asleepHandoff n item
  · obtain ⟨u, n, item, rfl, hu⟩ := hhands
    rcases hright u n item rfl hu with hnone | ⟨v, hv⟩
    · refine served_of_none fun v hv => ?_
      by_cases hvu : v = u
      · subst hvu
        rw [hsignal.woke.2, hu] at hv
        exact hv
      · rw [hsignal.other fun he => hvu (Option.some.inj he).symm] at hv
        exact hnone v hvu hv
    · intro _
      have hsingle := h.single (h.handing u n item (.inr hu))
      have hone : (s.chan.capacity - s.chan.count).toNat + 1 = 1 := by omega
      have hstays : pc v = s.pc v := by
        refine hsignal.stays ?_
        obtain ⟨item', hv⟩ := hv
        rw [hv]
        exact id
      rw [hone]
      exact crowd_one (t := v) (hstays ▸ hv)
  · refine h.putters.signal hsignal fun t ht hfull => ?_
    cases hpc : s.pc t with
    | asleepFull item => exact ⟨nofun, ⟨item, rfl⟩⟩
    | asleepHandoff n item => exact absurd ⟨t, n, item, ht, hpc⟩ hhands
    | _ => rw [hpc] at hfull; cases hfull

end

/-- The counts after a step. -/
theorem Awaited.served (h : Awaited s) (hstep : Step s a s') (hok : WakesRight s a) :
    Served Pc.OnNotEmpty Pc.Receiving s'.chan.count.toNat s'.pc ∧
      Served Pc.OnNotFull Pc.Sending (s'.chan.capacity - s'.chan.count).toNat s'.pc := by
  have hnonneg := h.inv.ok.count_nonneg
  have hle := h.inv.ok.count_le
  have hmove : ∀ (t : τ) (v : Pc α), ¬ (s.pc t).Receiving → ¬ (s.pc t).Sending → v.Awake →
      Served Pc.OnNotEmpty Pc.Receiving s.chan.count.toNat (s.goto t v).pc ∧
        Served Pc.OnNotFull Pc.Sending (s.chan.capacity - s.chan.count).toNat (s.goto t v).pc :=
    fun t v hr hs hv => ⟨h.takers.move (fun hr' => absurd hr' hr) hv.1,
      h.putters.move (fun hs' => absurd hs' hs) hv.2⟩
  have hidle : (Pc.idle : Pc α).Awake := ⟨id, id⟩
  have hclosed : s.chan.closed = true → ∀ t, (s.pc t).Awake := h.closed
  have hasleep : s'.chan.closed = true → Served Pc.OnNotEmpty Pc.Receiving s'.chan.count.toNat s'.pc ∧
      Served Pc.OnNotFull Pc.Sending (s'.chan.capacity - s'.chan.count).toNat s'.pc := fun hc =>
    ⟨served_of_none fun t => (hstep.awake hclosed hc t).1,
      served_of_none fun t => (hstep.awake hclosed hc t).2⟩
  cases hstep with
  | callSend item ht => exact hmove _ _ (by rw [ht]; nofun) (by rw [ht]; rintro ⟨_, ⟨⟩⟩) ⟨id, id⟩
  | callRecv ht => exact hmove _ _ (by rw [ht]; nofun) (by rw [ht]; rintro ⟨_, ⟨⟩⟩) ⟨id, id⟩
  | sendWaits ht hsend =>
      have hfull := (LcnChannel.send_waitsFull hsend).1
      refine ⟨h.takers.move (by rw [ht]; nofun) id, ?_⟩
      have hzero : (s.chan.capacity - s.chan.count).toNat = 0 := by omega
      show Served _ _ (s.chan.capacity - s.chan.count).toNat _
      rw [hzero]
      exact served_zero _ _ _
  | sendRefused _ hsend => exact hasleep (LcnChannel.send_refused hsend)
  | @sendHands t item ch w pc ht hsend hsignal =>
      obtain ⟨rfl, -, hcount⟩ := LcnChannel.send_puts (.inl hsend)
      have hsingle := h.single (LcnChannel.send_waitsHandoff hsend).1
      have hstays : pc t = .sending item := by
        rw [hsignal.stays (by rw [ht]; exact id), ht]
      have hzero : ((s.chan.put item).capacity - (s.chan.put item).count : ℤ).toNat = 0 := by
        show ((s.chan.capacity : ℤ) - (s.chan.count + 1)).toNat = 0
        omega
      refine ⟨(h.put_takers hsignal).move (by rw [hstays]; nofun) id, ?_⟩
      show Served _ _ ((s.chan.put item).capacity - (s.chan.put item).count : ℤ).toNat _
      rw [hzero]
      exact served_zero _ _ _
  | @sendDone t item ch w pc ht hsend hsignal =>
      obtain ⟨rfl, -, hcount⟩ := LcnChannel.send_puts (.inr hsend)
      have hstays : pc t = .sending item := by
        rw [hsignal.stays (by rw [ht]; exact id), ht]
      have hless : ((s.chan.put item).capacity - (s.chan.put item).count : ℤ).toNat =
          (s.chan.capacity - s.chan.count).toNat - 1 := by
        show ((s.chan.capacity : ℤ) - (s.chan.count + 1)).toNat = _
        omega
      refine ⟨(h.put_takers hsignal).move (by rw [hstays]; nofun) id, ?_⟩
      show Served _ _ ((s.chan.put item).capacity - (s.chan.put item).count : ℤ).toNat _
      rw [hless]
      exact (h.put_putters hsignal).take id
  | handoffWaits ht hwaits =>
      have hsingle := h.single (h.handing _ _ _ (.inl ht))
      have hpos := of_decide_eq_true (Bool.and_eq_true_iff.1 hwaits).1
      refine ⟨h.takers.move (by rw [ht]; nofun) id, ?_⟩
      have hzero : (s.chan.capacity - s.chan.count).toNat = 0 := by omega
      show Served _ _ (s.chan.capacity - s.chan.count).toNat _
      rw [hzero]
      exact served_zero _ _ _
  | handoffDone ht _ => exact hmove _ _ (by rw [ht]; nofun) (by rw [ht]; rintro ⟨_, ⟨⟩⟩) hidle
  | recvWaits ht hrecv =>
      have hempty := (LcnChannel.recv_waitsEmpty hrecv).1
      refine ⟨?_, h.putters.move (by rw [ht]; rintro ⟨_, ⟨⟩⟩) id⟩
      show Served _ _ s.chan.count.toNat _
      rw [hempty]
      exact served_zero _ _ _
  | recvRefused _ hrecv => exact hasleep (LcnChannel.recv_refused hrecv).2
  | @recvTakes t item ch w pc ht hrecv hsignal =>
      obtain ⟨rfl, rfl, hcount⟩ := LcnChannel.recv_took hrecv
      have hstays : pc t = .receiving := by
        rw [hsignal.stays (by rw [ht]; exact id), ht]
      have hputters := h.take_putters hcount hsignal fun u n item hw hu => by
        subst hw
        exact hok t u n item (.inl rfl) hu
      have hless : s.chan.drop.count.toNat = s.chan.count.toNat - 1 := by
        show (s.chan.count - 1).toNat = _
        omega
      refine ⟨?_, hputters.move (by rw [hstays]; rintro ⟨_, ⟨⟩⟩) id⟩
      show Served _ _ s.chan.drop.count.toNat _
      rw [hless]
      exact (h.take_takers hsignal).take id
  | tryRefused _ _ => exact ⟨h.takers, h.putters⟩
  | @tryTakes t item ch w pc ht hrecv hsignal =>
      obtain ⟨rfl, rfl, hcount⟩ := LcnChannel.tryRecv_took hrecv
      have hputters := h.take_putters hcount hsignal fun u n item hw hu => by
        subst hw
        exact hok t u n item (.inr rfl) hu
      refine ⟨(h.take_takers hsignal).mono ?_, hputters⟩
      show (s.chan.count - 1).toNat ≤ s.chan.count.toNat
      omega
  | close _ => exact hasleep rfl
  | @wake t ht =>
      refine hmove t _ ?_ ?_ (woken_awake _)
      · intro hr
        rw [hr] at ht
        exact ht.elim id id
      · rintro ⟨item, hs⟩
        rw [hs] at ht
        exact ht.elim id id

theorem Awaited.step (h : Awaited s) (hstep : Step s a s') (hok : WakesRight s a) : Awaited s' := by
  obtain ⟨-, -, hcapacity, hunbuffered⟩ := hstep.grows
  obtain ⟨htakers, hputters⟩ := h.served hstep hok
  refine ⟨h.inv.step hstep, ?_, ?_, fun hc => hstep.awake h.closed hc, htakers, hputters⟩
  · rw [hunbuffered, hcapacity]
    exact h.single
  · intro u n item hu
    rcases hstep.handsOver hu with hold | ⟨-, -, hnew⟩
    · exact hunbuffered.trans (h.handing u n item hold)
    · exact hnew

/-! ## Runs -/

/-- With capacity no sender waits for its item to be taken, and every step wakes right. -/
theorem noLostWakeup_buffered {capacity : ℤ} (hcapacity : 0 < capacity)
    (h : Reachable capacity s) : NoLostWakeup s := by
  have hinv : Awaited s ∧ s.chan.unbuffered = false := by
    refine h.invariant (I := fun s => Awaited s ∧ s.chan.unbuffered = false)
      (fun s hinit => ⟨.init hinit, ?_⟩) ?_
    · obtain ⟨memory, hchan, -⟩ := hinit
      rw [hchan]
      exact decide_eq_false (by omega)
    · rintro s a s' ⟨h, hbuffered⟩ - hstep
      obtain ⟨-, -, -, hunbuffered⟩ := hstep.grows
      refine ⟨h.step hstep fun t w n item _ hw => ?_, hunbuffered.trans hbuffered⟩
      have hhanding := h.handing w n item (.inr hw)
      rw [hbuffered] at hhanding
      cases hhanding
  exact hinv.1.noLostWakeup

/-- The one place is taken, and a second sender waits for it. -/
theorem noLostWakeup_buffered_full :
    ∃ s : State Bool ℕ, s.pc false = .asleepFull 8 ∧ Quiescent s ∧ NoLostWakeup s := by
  have h₀ : Reachable 1
      (State.mk (lcnChannelNew 1 fun _ => 0) (fun _ : Bool => .idle) [] [] []) :=
    .start ⟨_, rfl, fun _ => rfl, rfl, rfl, rfl⟩
  have h₁ := h₀.next trivial (.callSend (t := true) 7 rfl)
  have h₂ := h₁.next trivial (.sendDone (t := true) rfl rfl (.none (by decide)))
  have h₃ := h₂.next trivial (.callSend (t := false) 8 rfl)
  have h₄ := h₃.next trivial (.sendWaits (t := false) rfl rfl)
  refine ⟨_, rfl, ?_, noLostWakeup_buffered Int.zero_lt_one h₄⟩
  rintro (_ | _)
  · exact .inr (.inr trivial)
  · exact .inl rfl

/-- While every receive wakes right, no wake-up is lost. -/
theorem no_lost_wakeup {capacity : ℤ} (h : Reached (Init capacity) Step WakesRight s) :
    NoLostWakeup s :=
  (h.invariant (fun _ => Awaited.init) fun _ _ _ h hok hstep => h.step hstep hok).noLostWakeup

/-- A thread waits for an item on an empty channel, and all is quiet. -/
theorem no_lost_wakeup_waiting :
    ∃ s : State Bool ℕ, s.pc true = .asleepEmpty ∧ Quiescent s ∧ NoLostWakeup s := by
  have h₀ : Reached (Init 0) Step WakesRight
      (State.mk (lcnChannelNew 0 fun _ => 0) (fun _ : Bool => .idle) [] [] []) :=
    .start ⟨_, rfl, fun _ => rfl, rfl, rfl, rfl⟩
  have hcall : ∀ s : State Bool ℕ, WakesRight s (.callRecv true) := by
    rintro s t w n item (h | h) <;> cases h
  have hrecv : ∀ s : State Bool ℕ, WakesRight s (.recv true none) := by
    rintro s t w n item (h | h) <;> cases h
  have h₁ := h₀.next (hcall _) (.callRecv rfl)
  have h₂ := h₁.next (hrecv _) (.recvWaits rfl rfl)
  refine ⟨_, rfl, ?_, no_lost_wakeup h₂⟩
  rintro (_ | _)
  · exact .inl rfl
  · exact .inr (.inl trivial)

/-- Two threads send, and the signal of one receive wakes the one whose item was taken: the other
sleeps at an empty ring, and nobody is awake. -/
theorem sender_left_asleep :
    ¬ ∀ (capacity : ℤ) (s : State (Fin 3) ℕ), Reachable capacity s → NoLostWakeup s := by
  intro h
  have h₀ : Reachable 0
      (State.mk (lcnChannelNew 0 fun _ => 0) (fun _ : Fin 3 => .idle) [] [] []) :=
    .start ⟨_, rfl, fun _ => rfl, rfl, rfl, rfl⟩
  have h₁ := h₀.next trivial (.callSend (t := 0) 7 rfl)
  have h₂ := h₁.next trivial (.sendHands (t := 0) rfl rfl (.none (by decide)))
  have h₃ := h₂.next trivial (.callSend (t := 1) 8 rfl)
  have h₄ := h₃.next trivial (.sendWaits (t := 1) rfl rfl)
  have h₅ := h₄.next trivial (.tryTakes (t := 2) rfl rfl (.one (t := 0) trivial))
  have h₆ := h₅.next trivial (.handoffDone (t := 0) rfl rfl)
  refine h 0 _ h₆ ?_ 1 (by rintro ⟨⟨⟩, -⟩)
  intro t
  match t with
  | 0 => exact .inl rfl
  | 1 => exact .inr (.inr trivial)
  | 2 => exact .inl rfl

end

end Limceron.Runtime.Channel
