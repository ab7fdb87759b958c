/-
# `Limceron.Lib.Monitors` — threads that sleep on conditions and are woken

Threads share a monitor; each is at a place of its program (`τ → σ`), and a
condition variable is a kind of place to sleep at.  A signal wakes one of the
sleeping threads, whichever it is, and a broadcast wakes all.

That no wake-up is lost is a matter of counting: while someone sleeps, at least
as many threads are awake and on their way as there is something to be had
(`Served`).  A signal for each thing that becomes available keeps that, and so
does a thread that takes one.  There may be any number of threads; a number of
them is counted by a finite set (`Crowd`).
-/
import Mathlib.Algebra.BigOperators.Group.Finset.Piecewise
import Mathlib.Data.Finset.Card
import Mathlib.Logic.Function.Basic

namespace Monitors

variable {τ σ : Type*} {sleeps awake P : σ → Prop} {woken : σ → σ} {pc pc' : τ → σ}
  {w : Option τ} {j k : ℕ} {t : τ} {v : σ}

/-! ## Crowds -/

/-- At least `k` threads are at places of this kind. -/
def Crowd (k : ℕ) (P : σ → Prop) (pc : τ → σ) : Prop :=
  ∃ F : Finset τ, F.card = k ∧ ∀ t ∈ F, P (pc t)

theorem crowd_zero (P : σ → Prop) (pc : τ → σ) : Crowd 0 P pc :=
  ⟨∅, rfl, fun _ ht => absurd ht (Finset.notMem_empty _)⟩

theorem Crowd.mono (h : Crowd k P pc) (hjk : j ≤ k) : Crowd j P pc := by
  obtain ⟨F, rfl, hF⟩ := h
  obtain ⟨G, hGF, hG⟩ := Finset.exists_subset_card_eq hjk
  exact ⟨G, hG, fun t ht => hF t (hGF ht)⟩

theorem Crowd.exists (h : Crowd k P pc) (hk : 0 < k) : ∃ t, P (pc t) := by
  obtain ⟨F, rfl, hF⟩ := h
  obtain ⟨t, ht⟩ := Finset.card_pos.1 hk
  exact ⟨t, hF t ht⟩

theorem crowd_one (h : P (pc t)) : Crowd 1 P pc :=
  ⟨{t}, Finset.card_singleton t, fun u hu => by rwa [Finset.mem_singleton.1 hu]⟩

/-- While a thread sleeps, at least `k` are on their way. -/
def Served (sleeps awake : σ → Prop) (k : ℕ) (pc : τ → σ) : Prop :=
  (∃ t, sleeps (pc t)) → Crowd k awake pc

theorem served_zero (sleeps awake : σ → Prop) (pc : τ → σ) : Served sleeps awake 0 pc :=
  fun _ => crowd_zero awake pc

theorem served_of_none (h : ∀ t, ¬ sleeps (pc t)) : Served sleeps awake k pc :=
  fun ⟨t, ht⟩ => absurd ht (h t)

theorem Served.mono (h : Served sleeps awake k pc) (hjk : j ≤ k) : Served sleeps awake j pc :=
  fun hs => (h hs).mono hjk

/-- Threads that wake up or come are no harm. -/
theorem Served.weaken (h : Served sleeps awake k pc) (hsleeps : ∀ t, sleeps (pc' t) → sleeps (pc t))
    (hawake : ∀ t, awake (pc t) → awake (pc' t)) : Served sleeps awake k pc' := by
  rintro ⟨t, ht⟩
  obtain ⟨F, hk, hF⟩ := h ⟨t, hsleeps t ht⟩
  exact ⟨F, hk, fun u hu => hawake u (hF u hu)⟩

/-- If nobody is on the way, there is nothing to be had for a thread that sleeps. -/
theorem Served.quiet (h : Served sleeps awake k pc) (hquiet : ∀ t, ¬ awake (pc t))
    (hs : sleeps (pc t)) : k = 0 := by
  by_contra hk
  obtain ⟨u, hu⟩ := (h ⟨t, hs⟩).exists (Nat.pos_of_ne_zero hk)
  exact hquiet u hu

/-! ## Waking up -/

/-- All sleeping threads are woken. -/
def broadcast (sleeps : σ → Prop) [DecidablePred sleeps] (woken : σ → σ) (pc : τ → σ) : τ → σ :=
  fun t => if sleeps (pc t) then woken (pc t) else pc t

theorem broadcast_kept [DecidablePred sleeps] (hP : ∀ v, sleeps v → (P (woken v) ↔ P v)) (t : τ) :
    P (broadcast sleeps woken pc t) ↔ P (pc t) := by
  unfold broadcast
  split
  · exact hP _ ‹_›
  · rfl

/-- After a broadcast nobody sleeps. -/
theorem broadcast_awake [DecidablePred P] (hwoken : ∀ v, ¬ P (woken v)) (t : τ) :
    ¬ P (broadcast P woken pc t) := by
  unfold broadcast
  split
  · exact hwoken _
  · assumption

variable [DecidableEq τ]

/-- One sleeping thread is woken, if there is one. -/
inductive Signal (sleeps : σ → Prop) (woken : σ → σ) (pc : τ → σ) :
    Option τ → (τ → σ) → Prop where
  | none : (∀ t, ¬ sleeps (pc t)) → Signal sleeps woken pc none pc
  | one {t : τ} : sleeps (pc t) →
      Signal sleeps woken pc (some t) (Function.update pc t (woken (pc t)))

theorem exists_signal (sleeps : σ → Prop) (woken : σ → σ) (pc : τ → σ) :
    ∃ w pc', Signal sleeps woken pc w pc' := by
  by_cases h : ∃ t, sleeps (pc t)
  · obtain ⟨t, ht⟩ := h
    exact ⟨_, _, .one ht⟩
  · exact ⟨_, _, .none (not_exists.1 h)⟩

/-- A thread that is not woken stays where it is. -/
theorem Signal.other (h : Signal sleeps woken pc w pc') (ht : w ≠ some t) : pc' t = pc t := by
  cases h with
  | none => rfl
  | one => exact Function.update_of_ne (fun he => ht (congrArg some he.symm)) _ _

theorem Signal.woke (h : Signal sleeps woken pc (some t) pc') :
    sleeps (pc t) ∧ pc' t = woken (pc t) := by
  cases h with
  | one hs => exact ⟨hs, Function.update_self ..⟩

/-- A thread that is not asleep stays where it is. -/
theorem Signal.stays (h : Signal sleeps woken pc w pc') (ht : ¬ sleeps (pc t)) :
    pc' t = pc t := by
  refine h.other ?_
  rintro rfl
  exact ht h.woke.1

/-- What holds of places, and of those woken, holds after a signal. -/
theorem Signal.forall (h : Signal sleeps woken pc w pc') (hP : ∀ t, P (pc t))
    (hwoken : ∀ t, sleeps (pc t) → P (woken (pc t))) (t : τ) : P (pc' t) := by
  by_cases hw : w = some t
  · subst hw
    rw [h.woke.2]
    exact hwoken t h.woke.1
  · rw [h.other hw]
    exact hP t

/-- A property of places that waking up does not change. -/
theorem Signal.kept (h : Signal sleeps woken pc w pc')
    (hP : ∀ v, sleeps v → (P (woken v) ↔ P v)) (t : τ) : P (pc' t) ↔ P (pc t) := by
  by_cases hw : w = some t
  · subst hw
    rw [h.woke.2]
    exact hP _ h.woke.1
  · rw [h.other hw]

/-- A thread that moves without leaving the crowd. -/
theorem Crowd.stay (h : Crowd k P pc) (hv : P (pc t) → P v) :
    Crowd k P (Function.update pc t v) := by
  obtain ⟨F, hk, hF⟩ := h
  refine ⟨F, hk, fun u hu => ?_⟩
  by_cases hut : u = t
  · subst hut
    rw [Function.update_self]
    exact hv (hF u hu)
  · rw [Function.update_of_ne hut]
    exact hF u hu

/-- A thread that leaves takes one. -/
theorem Crowd.leave (h : Crowd k P pc) (t : τ) (v : σ) :
    Crowd (k - 1) P (Function.update pc t v) := by
  obtain ⟨F, rfl, hF⟩ := h
  have herase : Crowd (F.erase t).card P (Function.update pc t v) := by
    refine ⟨F.erase t, rfl, fun u hu => ?_⟩
    rw [Function.update_of_ne (Finset.ne_of_mem_erase hu)]
    exact hF u (Finset.mem_of_mem_erase hu)
  exact herase.mono Finset.pred_card_le_card_erase

/-- A thread that comes adds one. -/
theorem Crowd.join (h : Crowd k P pc) (ht : ¬ P (pc t)) (hv : P v) :
    Crowd (k + 1) P (Function.update pc t v) := by
  obtain ⟨F, rfl, hF⟩ := h
  have hmem : t ∉ F := fun hmem => ht (hF t hmem)
  refine ⟨insert t F, Finset.card_insert_of_notMem hmem, fun u hu => ?_⟩
  by_cases hut : u = t
  · subst hut
    rwa [Function.update_self]
  · rw [Function.update_of_ne hut]
    exact hF u ((Finset.mem_insert.1 hu).resolve_left hut)

/-! ## Weights -/

/-- A thread that moves exchanges its old weight for the new one. -/
theorem sum_update {F : Finset τ} (ht : t ∈ F) (g : τ → σ → ℕ) (pc : τ → σ) (v : σ) :
    ∑ u ∈ F, g u (Function.update pc t v u) + g t (pc t) = ∑ u ∈ F, g u (pc u) + g t v := by
  have hupdate : ∀ u, g u (Function.update pc t v u) =
      Function.update (fun u => g u (pc u)) t (g t v) u := Function.apply_update g pc t v
  have hnew : ∑ u ∈ F, g u (Function.update pc t v u) = g t v + ∑ u ∈ F \ {t}, g u (pc u) := by
    rw [Finset.sum_congr rfl fun u _ => hupdate u]
    exact Finset.sum_update_of_mem ht _ _
  have hold : g t (pc t) + ∑ u ∈ F \ {t}, g u (pc u) = ∑ u ∈ F, g u (pc u) := by
    rw [← Finset.erase_eq]
    exact Finset.add_sum_erase _ (fun u => g u (pc u)) ht
  omega

/-- The number of threads at places of a kind, when one moves. -/
theorem card_update {F : Finset τ} (ht : t ∈ F) (P : σ → Prop) [DecidablePred P] (pc : τ → σ)
    (v : σ) :
    (F.filter fun u => P (Function.update pc t v u)).card + (if P (pc t) then 1 else 0) =
      (F.filter fun u => P (pc u)).card + (if P v then 1 else 0) := by
  rw [Finset.card_filter, Finset.card_filter]
  exact sum_update ht (fun _ u => if P u then 1 else 0) pc v

/-! ## Served threads -/

/-- One more thing to be had, and a signal for it. -/
theorem Served.signal (h : Served sleeps awake k pc) (hsignal : Signal sleeps woken pc w pc')
    (hwoken : ∀ t, w = some t → sleeps (pc t) → ¬ awake (pc t) ∧ awake (woken (pc t))) :
    Served sleeps awake (k + 1) pc' := by
  cases hsignal with
  | none hnone => exact served_of_none hnone
  | @one t hs =>
      intro _
      exact (h ⟨t, hs⟩).join (hwoken t rfl hs).1 (hwoken t rfl hs).2

/-- A thread that still sleeps after a move of another slept before it. -/
theorem exists_of_update (hv : ¬ sleeps v) (h : ∃ u, sleeps (Function.update pc t v u)) :
    ∃ u, sleeps (pc u) := by
  obtain ⟨u, hu⟩ := h
  have hut : u ≠ t := by
    rintro rfl
    rw [Function.update_self] at hu
    exact hv hu
  rw [Function.update_of_ne hut] at hu
  exact ⟨u, hu⟩

/-- A thread that was on its way takes what it came for. -/
theorem Served.take (h : Served sleeps awake k pc) (hv : ¬ sleeps v) :
    Served sleeps awake (k - 1) (Function.update pc t v) :=
  fun hs => (h (exists_of_update hv hs)).leave t v

/-- A thread that moves, not from its way and not to sleep. -/
theorem Served.move (h : Served sleeps awake k pc) (ht : awake (pc t) → awake v)
    (hv : ¬ sleeps v) : Served sleeps awake k (Function.update pc t v) :=
  fun hs => (h (exists_of_update hv hs)).stay ht

end Monitors
