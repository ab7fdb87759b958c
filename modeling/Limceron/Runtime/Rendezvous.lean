/-
# `Limceron.Runtime.Rendezvous` — sends that wait for their receive

On a channel without capacity `lcn_channel_send` is to return `true` only after
its item has been taken.  It waits while the count of the ring is positive and
the channel open, so it may wait longer than for its own item, and it stops
waiting when the channel is closed.  That is the only way for it to return too
early (`rendezvous`): the channel is closed, and the item in the ring is its own.
-/
import Limceron.Runtime.Channel

namespace Limceron.Runtime.Channel

open Systems Monitors

section
variable {τ α : Type*}

/-- Every send that has returned `true` has had its item taken. -/
def Rendezvous (s : State τ α) : Prop :=
  ∀ n item, (n, item) ∈ s.returned → s.received[n]? = some item

/-- A sender that finds the channel closed while it waits does not have its own item in the ring:
the item there is the one with the number of those received. -/
def HandedOver (s : State τ α) (a : Action τ α) : Prop :=
  ∀ t n item, a = .handoff t → s.pc t = .handing n item → s.chan.closed = true →
    0 < s.chan.count → n ≠ s.received.length

/-- The sender waits for this item to be taken. -/
def Pc.HandsOver (n : ℕ) (item : α) (pc : Pc α) : Prop :=
  pc = .handing n item ∨ pc = .asleepHandoff n item

/-- Who waits for an item to be taken has put it in. -/
structure Numbered (s : State τ α) : Prop where
  inv : Inv s
  capacity_eq : s.chan.capacity = 1
  unbuffered : s.chan.unbuffered = true
  numbers : ∀ t n item, (s.pc t).HandsOver n item → s.enqueued[n]? = some item

theorem Numbered.init {s : State τ α} {capacity : ℤ} (hcapacity : capacity ≤ 0)
    (h : Init capacity s) : Numbered s ∧ Rendezvous s := by
  have hinv := Inv.init h
  obtain ⟨memory, hchan, hidle, -, -, hreturned⟩ := h
  refine ⟨⟨hinv, ?_, ?_, ?_⟩, ?_⟩
  · rw [hchan]
    exact if_pos hcapacity
  · rw [hchan]
    exact decide_eq_true hcapacity
  · intro t n item ht
    rw [hidle t] at ht
    rcases ht with ht | ht <;> cases ht
  · intro n item hmem
    rw [hreturned] at hmem
    cases hmem

/-- An item that was put in and is not the one in the ring has been taken. -/
theorem Numbered.taken {s : State τ α} (h : Numbered s) {n : ℕ} {item : α}
    (hn : s.enqueued[n]? = some item) (hring : 0 < s.chan.count → n ≠ s.received.length) :
    s.received[n]? = some item := by
  have hfifo := h.inv.fifo
  have hle := h.inv.ok.count_le
  have hlt : n < s.received.length := by
    have hlen : n < s.enqueued.length := (List.getElem?_eq_some_iff.1 hn).1
    have hitems : s.chan.items.length = s.chan.count.toNat := Ring.length_contents
    rw [← hfifo, List.length_append, hitems] at hlen
    rw [h.capacity_eq] at hle
    by_cases hpos : 0 < s.chan.count
    · have hne := hring hpos
      omega
    · omega
  rw [← hfifo, List.getElem?_append_left hlt] at hn
  exact hn

/-- A send does not return at once. -/
theorem Numbered.not_done {s : State τ α} (h : Numbered s) {item : α} {ch : LcnChannel α} :
    s.chan.send item ≠ .done ch := by
  intro hsend
  obtain ⟨rfl, hclosed, -⟩ := LcnChannel.send_puts (.inr hsend)
  have hnonneg := h.inv.ok.count_nonneg
  rcases LcnChannel.send_done hsend with hbuffered | hwaits
  · rw [h.unbuffered] at hbuffered
    cases hbuffered
  · have hput : (s.chan.put item).awaitsHandoff = (decide (s.chan.count + 1 > 0) && !s.chan.closed) :=
      rfl
    rw [hput, hclosed, decide_eq_true (by omega)] at hwaits
    cases hwaits

end

section
variable {τ α : Type*} [DecidableEq τ] {s s' : State τ α} {a : Action τ α}

/-! ## One step -/

theorem handsOver_woken {n : ℕ} {item : α} (pc : Pc α) :
    pc.woken.HandsOver n item ↔ pc.HandsOver n item := by
  cases pc <;> simp [Pc.HandsOver, Pc.woken]

theorem goto_pc (s : State τ α) (t u : τ) (v : Pc α) :
    (s.goto t v).pc u = v ∧ u = t ∨ (s.goto t v).pc u = s.pc u := by
  by_cases hu : u = t
  · subst hu
    exact .inl ⟨Function.update_self .., rfl⟩
  · exact .inr (Function.update_of_ne hu _ _)

/-- A thread that waits for an item to be taken did so before, or has just put it in. -/
theorem Step.handsOver (h : Step s a s') {u : τ} {n : ℕ} {item : α}
    (hu : (s'.pc u).HandsOver n item) :
    (s.pc u).HandsOver n item ∨
      n = s.enqueued.length ∧ s'.enqueued = s.enqueued ++ [item] ∧ s'.chan.unbuffered = true := by
  have hgoto : ∀ (r : State τ α) (t : τ) (v : Pc α), (∀ m item, ¬ v.HandsOver m item) →
      ((r.goto t v).pc u).HandsOver n item → (r.pc u).HandsOver n item := by
    intro r t v hv hr
    rcases goto_pc r t u v with ⟨hpc, -⟩ | hpc
    · rw [hpc] at hr
      exact absurd hr (hv n item)
    · rwa [hpc] at hr
  have hidle : ∀ m item, ¬ (Pc.idle : Pc α).HandsOver m item := by
    rintro m item (h | h) <;> cases h
  cases h with
  | callSend _ _ => exact .inl (hgoto _ _ _ (by rintro m item (h | h) <;> cases h) hu)
  | callRecv _ => exact .inl (hgoto _ _ _ (by rintro m item (h | h) <;> cases h) hu)
  | sendWaits _ _ => exact .inl (hgoto _ _ _ (by rintro m item (h | h) <;> cases h) hu)
  | sendRefused _ _ => exact .inl (hgoto _ _ _ hidle hu)
  | @sendHands t item' ch w pc ht hsend hsignal =>
      rcases goto_pc (s.putIn ch item' pc) t u (.asleepHandoff s.enqueued.length item') with
        ⟨hpc, -⟩ | hpc
      · rw [hpc] at hu
        rcases hu with hu | hu <;> cases hu
        obtain ⟨hput, -, -⟩ := LcnChannel.send_puts (.inl hsend)
        refine .inr ⟨rfl, rfl, ?_⟩
        show ch.unbuffered = true
        rw [hput]
        exact (LcnChannel.send_waitsHandoff hsend).1
      · rw [hpc] at hu
        exact .inl ((hsignal.kept (fun v _ => handsOver_woken v) u).1 hu)
  | @sendDone t item' ch w pc ht _ hsignal =>
      have hu' := hgoto (s.putIn ch item' pc) _ _ hidle hu
      exact .inl ((hsignal.kept (fun v _ => handsOver_woken v) u).1 hu')
  | @handoffWaits t m item' ht _ =>
      rcases goto_pc s t u (.asleepHandoff m item') with ⟨hpc, rfl⟩ | hpc
      · rw [hpc] at hu
        rcases hu with hu | hu <;> cases hu
        exact .inl (.inl ht)
      · exact .inl (hpc ▸ hu)
  | handoffDone _ _ => exact .inl (hgoto _ _ _ hidle hu)
  | recvWaits _ _ => exact .inl (hgoto _ _ _ (by rintro m item (h | h) <;> cases h) hu)
  | recvRefused _ _ => exact .inl (hgoto _ _ _ hidle hu)
  | @recvTakes t item' ch w pc ht _ hsignal =>
      have hu' := hgoto (s.takeOut ch item' pc) _ _ hidle hu
      exact .inl ((hsignal.kept (fun v _ => handsOver_woken v) u).1 hu')
  | tryRefused _ _ => exact .inl hu
  | tryTakes _ _ hsignal => exact .inl ((hsignal.kept (fun v _ => handsOver_woken v) u).1 hu)
  | close _ =>
      have hu' := (broadcast_kept (fun v _ => handsOver_woken v) u).1 hu
      exact .inl ((broadcast_kept (fun v _ => handsOver_woken v) u).1 hu')
  | @wake t _ =>
      rcases goto_pc s t u (s.pc t).woken with ⟨hpc, rfl⟩ | hpc
      · rw [hpc] at hu
        exact .inl ((handsOver_woken _).1 hu)
      · exact .inl (hpc ▸ hu)

theorem Numbered.step (h : Numbered s) (hstep : Step s a s') : Numbered s' := by
  obtain ⟨⟨r, hr⟩, -, hcapacity, hunbuffered⟩ := hstep.grows
  refine ⟨h.inv.step hstep, hcapacity.trans h.capacity_eq, hunbuffered.trans h.unbuffered, ?_⟩
  intro u n item hu
  rcases hstep.handsOver hu with hold | ⟨rfl, hnew, -⟩
  · have hn := h.numbers u n item hold
    have hlt : n < s.enqueued.length := (List.getElem?_eq_some_iff.1 hn).1
    rw [hr, List.getElem?_append_left hlt, hn]
  · rw [hnew, List.getElem?_concat_length]

/-- A send returns only in its second loop. -/
theorem Numbered.returned_cases (h : Numbered s) (hstep : Step s a s') :
    s'.returned = s.returned ∨ ∃ t n item, a = .handoff t ∧ s.pc t = .handing n item ∧
      s.chan.awaitsHandoff = false ∧ s'.returned = s.returned ++ [(n, item)] := by
  cases hstep with
  | sendDone _ hsend _ => exact absurd hsend h.not_done
  | handoffDone ht hwaits => exact .inr ⟨_, _, _, rfl, ht, hwaits, rfl⟩
  | _ => exact .inl rfl

/-- A step that meets the condition does not make a send return too early. -/
theorem Numbered.keeps (h : Numbered s) (hmet : Rendezvous s) (hstep : Step s a s')
    (hok : HandedOver s a) : Rendezvous s' := by
  obtain ⟨-, ⟨r, hr⟩, -, -⟩ := hstep.grows
  have hold : ∀ (n : ℕ) (item : α), s.received[n]? = some item → s'.received[n]? = some item := by
    intro n item hn
    rw [hr, List.getElem?_append_left (List.getElem?_eq_some_iff.1 hn).1, hn]
  intro n item hmem
  rcases h.returned_cases hstep with hsame | ⟨t, m, item', rfl, ht, hwaits, hnew⟩
  · exact hold n item (hmet n item (hsame ▸ hmem))
  · rw [hnew] at hmem
    rcases List.mem_append.1 hmem with hmem | hmem
    · exact hold n item (hmet n item hmem)
    · cases List.mem_singleton.1 hmem
      refine hold n item (h.taken (h.numbers t n item (.inl ht)) fun hpos => ?_)
      refine hok t n item rfl ht ?_ hpos
      rw [LcnChannel.awaitsHandoff, decide_eq_true hpos, Bool.true_and] at hwaits
      simpa using hwaits

/-- A step that does not meet it does. -/
theorem breaks (hstep : Step s a s') (hok : ¬ HandedOver s a) :
    ¬ Rendezvous s' := by
  rw [HandedOver] at hok
  push Not at hok
  obtain ⟨t, n, item, rfl, ht, hclosed, hpos, rfl⟩ := hok
  intro hmet
  cases hstep with
  | handoffWaits ht' hwaits =>
      rw [LcnChannel.awaitsHandoff, hclosed, Bool.not_true, Bool.and_false] at hwaits
      cases hwaits
  | handoffDone ht' _ =>
      cases ht.symm.trans ht'
      have htaken := hmet s.received.length item
        (List.mem_append_right _ (List.mem_singleton_self _))
      have hlt := (List.getElem?_eq_some_iff.1 htaken).1
      exact absurd hlt (lt_irrefl _)

/-! ## The claim -/

/-- On a channel without capacity, while no sender finds it closed with its own item in the ring,
every send that returns `true` has had its item taken; the first sender that does returns too
early. -/
theorem rendezvous {capacity : ℤ} (hcapacity : capacity ≤ 0)
    (h : Reached (Init capacity) Step HandedOver s) :
    Rendezvous s ∧ ∀ a s', Step s a s' → (Rendezvous s' ↔ HandedOver s a) := by
  have hinv : Numbered s ∧ Rendezvous s := by
    refine h.invariant (fun _ => Numbered.init hcapacity) ?_
    rintro s a s' ⟨hnumbered, hmet⟩ hok hstep
    exact ⟨hnumbered.step hstep, hnumbered.keeps hmet hstep hok⟩
  obtain ⟨hnumbered, hmet⟩ := hinv
  refine ⟨hmet, fun a s' hstep => ⟨fun hmet' => ?_, hnumbered.keeps hmet hstep⟩⟩
  by_contra hok
  exact breaks hstep hok hmet'

/-- An item is sent, received, and its sender returns. -/
theorem rendezvous_one : ∃ s : State Bool ℕ, s.returned = [(0, 7)] ∧ Rendezvous s := by
  have hok : ∀ (s : State Bool ℕ) (a : Action Bool ℕ), s.chan.closed = false → HandedOver s a := by
    intro s a hopen t n item _ _ hclosed
    rw [hopen] at hclosed
    cases hclosed
  have h₀ : Reached (Init 0) Step HandedOver
      (State.mk (lcnChannelNew 0 fun _ => 0) (fun _ : Bool => .idle) [] [] []) :=
    .start ⟨_, rfl, fun _ => rfl, rfl, rfl, rfl⟩
  have h₁ := h₀.next (hok _ _ rfl) (.callSend (t := false) 7 rfl)
  have h₂ := h₁.next (hok _ _ rfl) (.sendHands (t := false) rfl rfl (.none (by decide)))
  have h₃ := h₂.next (hok _ _ rfl) (.callRecv (t := true) rfl)
  have h₄ := h₃.next (hok _ _ rfl) (.recvTakes (t := true) rfl rfl (.one (t := false) trivial))
  have h₅ := h₄.next (hok _ _ rfl) (.handoffDone (t := false) rfl rfl)
  exact ⟨_, rfl, (rendezvous (le_refl 0) h₅).1⟩

/-- The channel is closed while the sender waits: it returns `true`, and its item is in the ring. -/
theorem closed_too_early :
    ¬ ∀ (capacity : ℤ) (s : State Bool ℕ), capacity ≤ 0 → Reachable capacity s → Rendezvous s := by
  intro h
  have h₀ : Reachable 0 (State.mk (lcnChannelNew 0 fun _ => 0) (fun _ : Bool => .idle) [] [] []) :=
    .start ⟨_, rfl, fun _ => rfl, rfl, rfl, rfl⟩
  have h₁ := h₀.next trivial (.callSend (t := false) 7 rfl)
  have h₂ := h₁.next trivial (.sendHands (t := false) rfl rfl (.none (by decide)))
  have h₃ := h₂.next trivial (.close (t := true) rfl)
  have h₄ := h₃.next trivial (.handoffDone (t := false) rfl rfl)
  have htaken := h 0 _ (le_refl 0) h₄ 0 7 (List.mem_singleton_self _)
  cases htaken

end

end Limceron.Runtime.Channel
