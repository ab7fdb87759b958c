/-
# `Limceron.Runtime.GreenSafety` — orderly runs of the scheduler are safe

The invariant has four parts, each about some of the state: the counters count
the places (`Counted`), the queue, the spawners and the dispatcher have the
threads that they are to have (`Held`), no thread is freed that somebody still
uses (`Kept`), and the rounds of the scheduler (`Rounds`): from the flag of a
shutdown on no thread is alive, and none is on its way when the scheduler is
destroyed.  There is one lemma for each kind of move and part.
-/
import Limceron.Lib.Monitors
import Limceron.Runtime.GreenThreads

namespace Limceron.Runtime.Green

open Systems Monitors

/-! ## Numbers of threads -/

section
variable {spawned : ℕ} {place : ℕ → Place} {g : ℕ} {p v : Place}

theorem ite_toNat (b : Bool) : (if b = true then 1 else 0) = b.toNat := by
  cases b <;> rfl

theorem number_move (hg : g < spawned) (hp : place g = p) (P : Place → Bool) :
    number spawned (Function.update place g v) P + (P p).toNat =
      number spawned place P + (P v).toNat := by
  subst hp
  rw [← ite_toNat, ← ite_toNat]
  exact card_update (Finset.mem_range.2 hg) (fun v => P v = true) place v

/-- A new thread is counted by its place. -/
theorem number_succ (P : Place → Bool) (v : Place) :
    number (spawned + 1) (Function.update place spawned v) P =
      number spawned place P + (P v).toNat := by
  have hold : ∑ u ∈ Finset.range spawned,
      (if P (Function.update place spawned v u) = true then 1 else 0) =
      ∑ u ∈ Finset.range spawned, if P (place u) = true then 1 else 0 := by
    refine Finset.sum_congr rfl fun u hu => ?_
    rw [Function.update_of_ne (Finset.mem_range.1 hu).ne]
  rw [number, number, Finset.card_filter, Finset.card_filter, Finset.sum_range_succ, hold,
    Function.update_self, ite_toNat]

theorem number_eq_zero {P : Place → Bool} (h : ∀ g, P (place g) = false) :
    number spawned place P = 0 := by
  rw [number, Finset.card_eq_zero, Finset.filter_eq_empty_iff]
  intro g _
  rw [h g]
  exact Bool.false_ne_true

theorem number_mono {P Q : Place → Bool} (h : ∀ v, P v = true → Q v = true) :
    number spawned place P ≤ number spawned place Q :=
  Finset.card_le_card (Finset.monotone_filter_right _ fun _ _ hg => h _ hg)

end

/-! ## Counters -/

/-- How often a task has been run at this place. -/
def Place.runCount : Place → ℕ
  | running | completed | leaving | exited => 1
  | _ => 0

/-- The counters and the places agree. -/
structure Counted (alive active max : ℤ) (runs : ℕ → ℕ) (spawned : ℕ) (place : ℕ → Place) : Prop where
  alive_eq : alive = number spawned place Place.alive
  active_eq : active = number spawned place Place.holds
  active_le : active ≤ max
  runs_eq : ∀ g, runs g = (place g).runCount
  absent_iff : ∀ g, place g = .absent ↔ spawned ≤ g

namespace Counted

variable {alive active max alive' active' : ℤ} {runs runs' : ℕ → ℕ} {spawned : ℕ} {place : ℕ → Place}
  {g : ℕ} {p v : Place}

theorem start : Counted 0 0 0 (fun _ => 0) 0 fun _ => .absent where
  alive_eq := rfl
  active_eq := rfl
  active_le := le_refl 0
  runs_eq := fun _ => rfl
  absent_iff := fun g => iff_of_true rfl (Nat.zero_le g)

/-- A thread moves, and the counters with it; it may run its task meanwhile. -/
theorem move_runs (h : Counted alive active max runs spawned place) (hp : place g = p)
    (hpresent : p ≠ .absent) (hv : v ≠ .absent)
    (halive : alive' + p.alive.toNat = alive + v.alive.toNat)
    (hactive : active' + p.holds.toNat = active + v.holds.toNat) (hle : active' ≤ max) :
    Counted alive' active' max (Function.update runs g v.runCount) spawned
      (Function.update place g v) := by
  have hg : g < spawned := by
    rw [← not_le, ← h.absent_iff, hp]
    exact hpresent
  refine ⟨?_, ?_, hle, fun u => ?_, fun u => ?_⟩
  · have hnumber := number_move (v := v) hg hp Place.alive
    have hold := h.alive_eq
    omega
  · have hnumber := number_move (v := v) hg hp Place.holds
    have hold := h.active_eq
    omega
  · by_cases hu : u = g
    · subst hu
      rw [Function.update_self, Function.update_self]
    · rw [Function.update_of_ne hu, Function.update_of_ne hu]
      exact h.runs_eq u
  · by_cases hu : u = g
    · subst hu
      rw [Function.update_self, ← h.absent_iff, hp]
      exact iff_of_false hv hpresent
    · rw [Function.update_of_ne hu]
      exact h.absent_iff u

theorem move (h : Counted alive active max runs spawned place) (hp : place g = p)
    (hpresent : p ≠ .absent) (hv : v ≠ .absent)
    (halive : alive' + p.alive.toNat = alive + v.alive.toNat)
    (hactive : active' + p.holds.toNat = active + v.holds.toNat) (hle : active' ≤ max)
    (hruns : v.runCount = p.runCount) :
    Counted alive' active' max runs spawned (Function.update place g v) := by
  have hsame : Function.update runs g v.runCount = runs := by
    rw [hruns, ← hp, ← h.runs_eq, Function.update_eq_self]
  have hmove := h.move_runs hp hpresent hv halive hactive hle
  rwa [hsame] at hmove

/-- A thread is spawned. -/
theorem counts (h : Counted alive active max runs spawned place) :
    Counted (alive + 1) active max runs (spawned + 1)
      (Function.update place spawned .prepared) where
  alive_eq := by
    have hold := h.alive_eq
    rw [number_succ, hold]
    rfl
  active_eq := by
    have hold := h.active_eq
    rw [number_succ, hold]
    rfl
  active_le := h.active_le
  runs_eq := by
    intro u
    by_cases hu : u = spawned
    · subst hu
      rw [Function.update_self, h.runs_eq, (h.absent_iff u).2 (le_refl u)]
      rfl
    · rw [Function.update_of_ne hu]
      exact h.runs_eq u
  absent_iff := by
    intro u
    by_cases hu : u = spawned
    · subst hu
      rw [Function.update_self]
      exact iff_of_false nofun (Nat.not_succ_le_self u)
    · rw [Function.update_of_ne hu, h.absent_iff]
      omega

/-- The counters begin again when no thread is on its way. -/
theorem reset (h : Counted alive active max runs spawned place)
    (halive : ∀ g, (place g).alive = false) (hholds : ∀ g, (place g).holds = false) {workers : ℤ}
    (hworkers : 0 ≤ workers) : Counted 0 0 workers runs spawned place where
  alive_eq := by
    rw [number_eq_zero halive]
    rfl
  active_eq := by
    rw [number_eq_zero hholds]
    rfl
  active_le := hworkers
  runs_eq := h.runs_eq
  absent_iff := h.absent_iff

end Counted

/-! ## Who has a thread -/

/-- What is in the queue, with a spawner, or with the dispatcher is there once, and at that place. -/
structure Held {τ : Type*} (queue : List ℕ) (spawner : τ → Spawner) (dispatcher : Dispatcher)
    (place : ℕ → Place) : Prop where
  queued : ∀ g ∈ queue, place g = .queued
  nodup : queue.Nodup
  pushing : ∀ t g, spawner t = .pushing g → place g = .prepared
  once : ∀ t u g, spawner t = .pushing g → spawner u = .pushing g → t = u
  launching : ∀ g, dispatcher = .launching g ∨ dispatcher = .failing g → place g = .launching
  dropping : ∀ g, dispatcher = .dropping g ↔ place g = .failed
  cleaning : ∀ g, dispatcher = .cleaning g → place g = .dropped

/-- The dispatcher has no thread. -/
def Dispatcher.free : Dispatcher → Bool
  | launching _ | failing _ | dropping _ | cleaning _ => false
  | _ => true

/-- The places that somebody has a thread at. -/
def Place.held : Place → Bool
  | prepared | queued | launching | failed | dropped => true
  | _ => false

namespace Held

variable {τ : Type*} {queue rest : List ℕ} {spawner : τ → Spawner} {d d' : Dispatcher}
  {place : ℕ → Place} {g : ℕ} {p v : Place} {t : τ}

theorem start : Held [] (fun _ : τ => .idle) .none fun _ => .absent where
  queued := nofun
  nodup := List.nodup_nil
  pushing := nofun
  once := nofun
  launching := nofun
  dropping := fun _ => ⟨nofun, nofun⟩
  cleaning := nofun

/-- A thread that nobody has moves on. -/
theorem move (h : Held queue spawner d place) (hp : place g = p) (hheld : p.held = false)
    (hv : v ≠ .failed) : Held queue spawner d (Function.update place g v) := by
  have hother : ∀ x, (place x).held = true → Function.update place g v x = place x := by
    intro x hx
    refine Function.update_of_ne ?_ _ _
    rintro rfl
    rw [hp, hheld] at hx
    cases hx
  refine ⟨fun x hx => ?_, h.nodup, fun t x hx => ?_, h.once, fun x hx => ?_, fun x => ?_, fun x hx => ?_⟩
  · rw [hother x (by rw [h.queued x hx]; rfl)]
    exact h.queued x hx
  · rw [hother x (by rw [h.pushing t x hx]; rfl)]
    exact h.pushing t x hx
  · rw [hother x (by rw [h.launching x hx]; rfl)]
    exact h.launching x hx
  · rw [h.dropping x]
    constructor
    · intro hx
      rw [hother x (by rw [hx]; rfl)]
      exact hx
    · intro hx
      by_cases hxg : x = g
      · subst hxg
        rw [Function.update_self] at hx
        exact absurd hx hv
      · rwa [Function.update_of_ne hxg] at hx
  · rw [hother x (by rw [h.cleaning x hx]; rfl)]
    exact h.cleaning x hx

/-- The dispatcher goes on without a thread. -/
theorem idle (h : Held queue spawner d place) (hd : ∀ g, d ≠ .dropping g) (hd' : d'.free = true) :
    Held queue spawner d' place where
  queued := h.queued
  nodup := h.nodup
  pushing := h.pushing
  once := h.once
  launching := by
    rintro x (rfl | rfl) <;> cases hd'
  dropping := by
    intro x
    rw [← h.dropping x]
    refine iff_of_false ?_ (hd x)
    rintro rfl
    cases hd'
  cleaning := by
    rintro x rfl
    cases hd'

/-- The dispatcher goes on with its thread, which it moves from its place. -/
theorem dispatch (h : Held queue spawner d place)
    (hqueue : g ∉ queue) (hspawner : ∀ t, spawner t ≠ .pushing g)
    (hd : ∀ x, d = .dropping x → x = g)
    (hlaunching : ∀ x, d' = .launching x ∨ d' = .failing x → x = g ∧ v = .launching)
    (hdropping : ∀ x, d' = .dropping x ↔ x = g ∧ v = .failed)
    (hcleaning : ∀ x, d' = .cleaning x → x = g ∧ v = .dropped) :
    Held queue spawner d' (Function.update place g v) where
  queued := by
    intro x hx
    rw [Function.update_of_ne (ne_of_mem_of_not_mem hx hqueue)]
    exact h.queued x hx
  nodup := h.nodup
  pushing := by
    intro t x hx
    have hxg : x ≠ g := by
      rintro rfl
      exact hspawner t hx
    rw [Function.update_of_ne hxg]
    exact h.pushing t x hx
  once := h.once
  launching := by
    intro x hx
    obtain ⟨rfl, rfl⟩ := hlaunching x hx
    exact Function.update_self ..
  dropping := by
    intro x
    rw [hdropping x]
    by_cases hxg : x = g
    · subst hxg
      rw [Function.update_self]
      exact ⟨fun hx => hx.2, fun hx => ⟨rfl, hx⟩⟩
    · rw [Function.update_of_ne hxg]
      refine iff_of_false (fun hx => hxg hx.1) fun hx => hxg (hd x ((h.dropping x).2 hx))
  cleaning := by
    intro x hx
    obtain ⟨rfl, rfl⟩ := hcleaning x hx
    exact Function.update_self ..

/-- The dispatcher takes the first thread of the queue. -/
theorem pops (h : Held (g :: rest) spawner d place) (hd : ∀ x, d ≠ .dropping x) :
    Held rest spawner (.launching g) (Function.update place g .launching) := by
  have hg := h.queued g List.mem_cons_self
  have hrest : Held rest spawner d place :=
    ⟨fun x hx => h.queued x (List.mem_cons_of_mem _ hx), (List.nodup_cons.1 h.nodup).2, h.pushing,
      h.once, h.launching, h.dropping, h.cleaning⟩
  refine hrest.dispatch (List.nodup_cons.1 h.nodup).1 ?_ (fun x hx => absurd hx (hd x)) ?_ ?_ nofun
  · intro t ht
    rw [h.pushing t g ht] at hg
    cases hg
  · rintro x (hx | hx)
    · exact ⟨(Dispatcher.launching.inj hx).symm, rfl⟩
    · cases hx
  · intro x
    exact ⟨nofun, fun hx => nomatch hx.2⟩

variable [DecidableEq τ]

/-- A spawner that has no thread goes on. -/
theorem spawns (h : Held queue spawner d place) {v : Spawner} (hv : ∀ g, v ≠ .pushing g) :
    Held queue (Function.update spawner t v) d place := by
  have hpushing : ∀ u g, Function.update spawner t v u = .pushing g → spawner u = .pushing g := by
    intro u g hu
    by_cases hut : u = t
    · subst hut
      rw [Function.update_self] at hu
      exact absurd hu (hv g)
    · rwa [Function.update_of_ne hut] at hu
  exact ⟨h.queued, h.nodup, fun u g hu => h.pushing u g (hpushing u g hu),
    fun u u' g hu hu' => h.once u u' g (hpushing u g hu) (hpushing u' g hu'), h.launching, h.dropping,
    h.cleaning⟩

/-- A spawner gets a new thread. -/
theorem counts (h : Held queue spawner d place) (hg : place g = .absent) :
    Held queue (Function.update spawner t (.pushing g)) d (Function.update place g .prepared) := by
  have hmove : Held queue spawner d (Function.update place g .prepared) := h.move hg rfl nofun
  have hnew : ∀ u, spawner u ≠ .pushing g := by
    intro u hu
    rw [h.pushing u g hu] at hg
    cases hg
  refine ⟨hmove.queued, hmove.nodup, fun u x hu => ?_, fun u u' x hu hu' => ?_, hmove.launching,
    hmove.dropping, hmove.cleaning⟩
  · by_cases hut : u = t
    · subst hut
      rw [Function.update_self] at hu
      cases hu
      exact Function.update_self ..
    · rw [Function.update_of_ne hut] at hu
      exact hmove.pushing u x hu
  · by_cases hut : u = t
    · by_cases hut' : u' = t
      · rw [hut, hut']
      · rw [hut, Function.update_self] at hu
        rw [Function.update_of_ne hut'] at hu'
        cases hu
        exact absurd hu' (hnew u')
    · rw [Function.update_of_ne hut] at hu
      by_cases hut' : u' = t
      · rw [hut', Function.update_self] at hu'
        cases hu'
        exact absurd hu (hnew u)
      · rw [Function.update_of_ne hut'] at hu'
        exact h.once u u' x hu hu'

/-- A spawner puts its thread in the queue. -/
theorem pushes (h : Held queue spawner d place) (ht : spawner t = .pushing g) :
    Held (queue ++ [g]) (Function.update spawner t .idle) d (Function.update place g .queued) := by
  have hg := h.pushing t g ht
  have hother : ∀ x, place x ≠ .prepared → Function.update place g .queued x = place x := by
    intro x hx
    refine Function.update_of_ne ?_ _ _
    rintro rfl
    exact hx hg
  refine ⟨?_, ?_, fun u x hu => ?_, fun u u' x hu hu' => ?_, fun x hx => ?_, fun x => ?_, fun x hx => ?_⟩
  · intro x hx
    rcases List.mem_append.1 hx with hx | hx
    · rw [hother x (by rw [h.queued x hx]; nofun)]
      exact h.queued x hx
    · rw [List.mem_singleton.1 hx]
      exact Function.update_self ..
  · refine List.nodup_append.2 ⟨h.nodup, List.nodup_singleton _, fun x hx y hy => ?_⟩
    rw [List.mem_singleton.1 hy]
    rintro rfl
    rw [h.queued x hx] at hg
    cases hg
  · by_cases hut : u = t
    · subst hut
      rw [Function.update_self] at hu
      cases hu
    · rw [Function.update_of_ne hut] at hu
      have hxg : x ≠ g := by
        rintro rfl
        exact hut (h.once u t x hu ht)
      rw [Function.update_of_ne hxg]
      exact h.pushing u x hu
  · exact (h.spawns (t := t) (v := .idle) nofun).once u u' x hu hu'
  · rw [hother x (by rw [h.launching x hx]; nofun)]
    exact h.launching x hx
  · rw [h.dropping x]
    by_cases hxg : x = g
    · subst hxg
      rw [Function.update_self, hg]
      exact ⟨nofun, nofun⟩
    · rw [Function.update_of_ne hxg]
  · rw [hother x (by rw [h.cleaning x hx]; nofun)]
    exact h.cleaning x hx

end Held

/-! ## Who may be freed -/

/-- A thread that is freed has ended, and the dispatcher is done with it. -/
structure Kept (dispatcher : Dispatcher) (await : ℕ → Await) (place : ℕ → Place) : Prop where
  cleaned : ∀ g, dispatcher = .cleaning g → await g ≠ .freed
  freed : ∀ g, await g = .freed → place g = .exited ∨ place g = .dropped
  joining : ∀ g, await g = .joining → (place g).done = true

namespace Kept

variable {d d' : Dispatcher} {await : ℕ → Await} {place : ℕ → Place} {g : ℕ} {p v : Place}

theorem start : Kept .none (fun _ => .none) fun _ => .absent :=
  ⟨nofun, nofun, nofun⟩

/-- A thread that has not ended moves on. -/
theorem move (h : Kept d await place) (hp : place g = p) (hexited : p ≠ .exited)
    (hdropped : p ≠ .dropped) (hdone : p.done = true → v.done = true)
    (hd' : ∀ x, d' = .cleaning x → d = .cleaning x ∨ x = g) :
    Kept d' await (Function.update place g v) := by
  have hnot : await g ≠ .freed := by
    intro hfreed
    rcases h.freed g hfreed with hend | hend
    · exact hexited (hp.symm.trans hend)
    · exact hdropped (hp.symm.trans hend)
  refine ⟨fun x hx => ?_, fun x hx => ?_, fun x hx => ?_⟩
  · rcases hd' x hx with hold | rfl
    · exact h.cleaned x hold
    · exact hnot
  · have hxg : x ≠ g := by
      rintro rfl
      exact hnot hx
    rw [Function.update_of_ne hxg]
    exact h.freed x hx
  · by_cases hxg : x = g
    · subst hxg
      rw [Function.update_self]
      exact hdone (hp ▸ h.joining x hx)
    · rw [Function.update_of_ne hxg]
      exact h.joining x hx

/-- The dispatcher goes on without a thread. -/
theorem idle (h : Kept d await place) (hd' : d'.free = true) : Kept d' await place where
  cleaned := by
    rintro x rfl
    cases hd'
  freed := h.freed
  joining := h.joining

/-- A call of `lcn_green_await` goes on. -/
theorem awaits (h : Kept d await place) {w : Await} (hfreed : w ≠ .freed)
    (hjoining : w = .joining → (place g).done = true) :
    Kept d (Function.update await g w) place where
  cleaned := fun x hx => (Function.forall_update_iff await fun x w => d = .cleaning x → w ≠ .freed).2
    ⟨fun _ => hfreed, fun x _ => h.cleaned x⟩ x hx
  freed := (Function.forall_update_iff await fun x w =>
    w = .freed → place x = .exited ∨ place x = .dropped).2
      ⟨fun hw => absurd hw hfreed, fun x _ => h.freed x⟩
  joining := (Function.forall_update_iff await fun x w => w = .joining → (place x).done = true).2
    ⟨hjoining, fun x _ => h.joining x⟩

/-- A thread that has ended is freed. -/
theorem frees (h : Kept d await place) (hd : d ≠ .cleaning g)
    (hended : place g = .exited ∨ place g = .dropped) :
    Kept d (Function.update await g .freed) place where
  cleaned := by
    intro x hx
    have hxg : x ≠ g := by
      rintro rfl
      exact hd hx
    rw [Function.update_of_ne hxg]
    exact h.cleaned x hx
  freed := (Function.forall_update_iff await fun x w =>
    w = .freed → place x = .exited ∨ place x = .dropped).2 ⟨fun _ => hended, fun x _ => h.freed x⟩
  joining := (Function.forall_update_iff await fun x w => w = .joining → (place x).done = true).2
    ⟨nofun, fun x _ => h.joining x⟩

end Kept

/-! ## Rounds -/

/-- The flag of the shutdown has been set. -/
def Closing.past : Closing → Bool
  | idle | waiting => false
  | _ => true

/-- The dispatcher has been joined. -/
def Closing.ending : Closing → Bool
  | draining | drained | destroyed => true
  | _ => false

/-- No thread is alive once the flag is set, and none is on its way when the scheduler is down. -/
structure Rounds (initialized shutdown up : Bool) (closing : Closing) (live : Bool)
    (place : ℕ → Place) : Prop where
  up_iff : up = true ↔ initialized = true ∧ closing ≠ .destroyed
  called : closing ≠ .idle → initialized = true
  flag : shutdown = true → closing.past = true
  closed : closing.past = true → shutdown = true ∧ ∀ g, (place g).alive = false
  ended : closing.ending = true ∨ up = false → live = false
  down : up = false → ∀ g, (place g).alive = false ∧ place g ≠ .leaving

namespace Rounds

variable {initialized shutdown up live live' : Bool} {closing : Closing} {place : ℕ → Place} {g : ℕ}
  {p v : Place}

theorem start : Rounds false false false .idle false fun _ => .absent where
  up_iff := iff_of_false nofun nofun
  called := fun h => absurd rfl h
  flag := nofun
  closed := nofun
  ended := fun _ => rfl
  down := fun _ _ => ⟨rfl, nofun⟩

theorem up_of_live (h : Rounds initialized shutdown up closing true place) : up = true := by
  by_contra hup
  cases h.ended (.inr (Bool.eq_false_iff.2 hup))

theorem up_of_alive (h : Rounds initialized shutdown up closing live place)
    (hg : (place g).alive = true) : up = true := by
  by_contra hup
  rw [(h.down (Bool.eq_false_iff.2 hup) g).1] at hg
  cases hg

theorem up_of_leaving (h : Rounds initialized shutdown up closing live place)
    (hg : place g = .leaving) : up = true := by
  by_contra hup
  exact (h.down (Bool.eq_false_iff.2 hup) g).2 hg

theorem up_of_called (h : Rounds initialized shutdown up closing live place)
    (hidle : closing ≠ .idle) (hdestroyed : closing ≠ .destroyed) : up = true :=
  h.up_iff.2 ⟨h.called hidle, hdestroyed⟩

/-- A thread moves on that was alive, or ends. -/
theorem move (h : Rounds initialized shutdown up closing live place) (hp : place g = p)
    (halive : v.alive = true → p.alive = true) (hleaving : v = .leaving → p.alive = true) :
    Rounds initialized shutdown up closing live (Function.update place g v) where
  up_iff := h.up_iff
  called := h.called
  flag := h.flag
  closed := by
    intro hpast
    obtain ⟨hshutdown, hnone⟩ := h.closed hpast
    refine ⟨hshutdown, (Function.forall_update_iff place fun _ v => v.alive = false).2
      ⟨?_, fun x _ => hnone x⟩⟩
    by_contra hv
    have hg := hnone g
    rw [hp, halive (by simpa using hv)] at hg
    cases hg
  ended := h.ended
  down := by
    intro hup
    refine (Function.forall_update_iff place fun _ v => v.alive = false ∧ v ≠ .leaving).2
      ⟨?_, fun x _ => h.down hup x⟩
    have hg := (h.down hup g).1
    rw [hp] at hg
    refine ⟨?_, fun hv => ?_⟩
    · by_contra hv
      rw [halive (by simpa using hv)] at hg
      cases hg
    · rw [hleaving hv] at hg
      cases hg

/-- The dispatcher goes on while it is there. -/
theorem dispatch (h : Rounds initialized shutdown up closing true place) :
    Rounds initialized shutdown up closing live place where
  up_iff := h.up_iff
  called := h.called
  flag := h.flag
  closed := h.closed
  ended := fun hend => nomatch h.ended hend
  down := h.down

/-- A thread is spawned before the flag is set. -/
theorem counts (h : Rounds initialized shutdown up closing live place) (hup : up = true)
    (hopen : shutdown = false) :
    Rounds initialized shutdown up closing live (Function.update place g .prepared) where
  up_iff := h.up_iff
  called := h.called
  flag := h.flag
  closed := by
    intro hpast
    rw [(h.closed hpast).1] at hopen
    cases hopen
  ended := h.ended
  down := by
    intro hdown
    rw [hup] at hdown
    cases hdown

/-- A scheduler is made. -/
theorem initSched (h : Rounds false shutdown up closing live place) :
    Rounds true false true closing live' place where
  up_iff := by
    refine iff_of_true rfl ⟨rfl, ?_⟩
    rintro rfl
    cases h.called nofun
  called := fun _ => rfl
  flag := nofun
  closed := by
    intro hpast
    have hidle : closing ≠ .idle := by
      rintro rfl
      cases hpast
    cases h.called hidle
  ended := by
    rintro (hend | hend)
    · have hidle : closing ≠ .idle := by
        rintro rfl
        cases hend
      cases h.called hidle
    · cases hend
  down := nofun

/-- A shutdown begins, and waits. -/
theorem calls (h : Rounds true shutdown up .idle live place) :
    Rounds true shutdown up .waiting live place where
  up_iff := iff_of_true (h.up_iff.2 ⟨rfl, nofun⟩) ⟨rfl, nofun⟩
  called := fun _ => rfl
  flag := h.flag
  closed := nofun
  ended := by
    rintro (hend | hend)
    · cases hend
    · exact h.ended (.inr hend)
  down := h.down

/-- It sets the flag when no thread is alive. -/
theorem flags (h : Rounds initialized shutdown up .waiting live place)
    (hnone : ∀ g, (place g).alive = false) : Rounds initialized true up .flagged live place where
  up_iff := iff_of_true (h.up_of_called nofun nofun) ⟨h.called nofun, nofun⟩
  called := fun _ => h.called nofun
  flag := fun _ => rfl
  closed := fun _ => ⟨rfl, hnone⟩
  ended := by
    rintro (hend | hend)
    · cases hend
    · exact h.ended (.inr hend)
  down := h.down

/-- It goes on after that. -/
theorem goes (h : Rounds initialized shutdown up closing live place) {closing' : Closing}
    (hpast : closing.past = true) (hopen : closing ≠ .destroyed) (hpast' : closing'.past = true)
    (hopen' : closing' ≠ .destroyed) (hend : closing'.ending = true → live = false) :
    Rounds initialized shutdown up closing' live place := by
  have hidle : closing ≠ .idle := by
    rintro rfl
    cases hpast
  refine ⟨iff_of_true (h.up_of_called hidle hopen) ⟨h.called hidle, hopen'⟩,
    fun _ => h.called hidle, fun _ => hpast', fun _ => h.closed hpast, ?_, h.down⟩
  rintro (hc | hc)
  · exact hend hc
  · exact h.ended (.inr hc)

/-- It destroys the scheduler when no thread has its slot. -/
theorem destroys (h : Rounds initialized shutdown up .drained live place)
    (hleft : ∀ g, place g ≠ .leaving) :
    Rounds initialized shutdown false .destroyed live place where
  up_iff := iff_of_false nofun fun hopen => hopen.2 rfl
  called := fun _ => h.called nofun
  flag := fun _ => rfl
  closed := fun _ => h.closed rfl
  ended := fun _ => h.ended (.inl rfl)
  down := fun _ g => ⟨(h.closed rfl).2 g, hleft g⟩

/-- The scheduler is gone. -/
theorem ends (h : Rounds initialized shutdown up .destroyed live place) :
    Rounds false false up .idle live place where
  up_iff := iff_of_false (fun hup => (h.up_iff.1 hup).2 rfl) nofun
  called := fun hidle => absurd rfl hidle
  flag := nofun
  closed := nofun
  ended := fun _ => h.ended (.inl rfl)
  down := h.down

end Rounds

/-! ## One step -/

section
variable {τ : Type*}

/-- The four parts, and nothing has been misused. -/
structure Inv (s : State τ) : Prop where
  counted : Counted s.aliveCount s.active s.maxConcurrent s.runs s.spawned s.place
  held : Held s.queue s.spawner s.dispatcher s.place
  kept : Kept s.dispatcher s.await s.place
  rounds : Rounds s.initialized s.shutdown s.up s.closing s.dispatcher.live s.place
  proper : s.misused = false

variable {s s' : State τ} {a : Action τ} {g : ℕ}

theorem Inv.start : Inv (State.start : State τ) :=
  ⟨.start, .start, .start, .start, rfl⟩

theorem usesSched_eq (hup : s.up = true) : s.usesSched = s := by
  have hmisused : (s.misused || !s.up) = s.misused := by rw [hup, Bool.not_true, Bool.or_false]
  rw [State.usesSched, hmisused]

theorem usesGreen_eq (hg : s.await g ≠ .freed) : s.usesGreen g = s := by
  have hmisused : (s.misused || decide (s.await g = .freed)) = s.misused := by
    rw [decide_eq_false hg, Bool.or_false]
  rw [State.usesGreen, hmisused]

theorem Inv.not_freed (h : Inv s) (hexited : s.place g ≠ .exited) (hdropped : s.place g ≠ .dropped) :
    s.await g ≠ .freed := by
  intro hfreed
  rcases h.kept.freed g hfreed with hend | hend
  · exact hexited hend
  · exact hdropped hend

/-- The sections of a thread that has an OS thread. -/
theorem Inv.enter (h : Inv s) (g : ℕ) : Inv (s.enter g) := by
  unfold State.enter
  split
  case h_1 hp =>
    have hup := h.rounds.up_of_alive (g := g) (by rw [hp]; rfl)
    rw [usesSched_eq hup]
    split
    · exact ⟨h.counted.move hp nofun nofun rfl (add_zero _) (Int.add_one_le_of_lt ‹_›) rfl,
        h.held.move hp rfl nofun, h.kept.move hp nofun nofun nofun fun _ => .inl,
        h.rounds.move hp (fun _ => rfl) nofun, h.proper⟩
    · exact h
  case h_2 hp =>
    rw [usesGreen_eq (h.not_freed (by rw [hp]; nofun) (by rw [hp]; nofun))]
    have hruns : s.runs g + 1 = Place.running.runCount := by
      rw [h.counted.runs_eq, hp]
      rfl
    rw [hruns]
    exact ⟨h.counted.move_runs hp nofun nofun rfl rfl h.counted.active_le,
      h.held.move hp rfl nofun, h.kept.move hp nofun nofun nofun fun _ => .inl,
      h.rounds.move hp (fun _ => rfl) nofun, h.proper⟩
  case h_3 hp =>
    rw [usesGreen_eq (h.not_freed (by rw [hp]; nofun) (by rw [hp]; nofun))]
    exact ⟨h.counted.move hp nofun nofun rfl rfl h.counted.active_le rfl,
      h.held.move hp rfl nofun, h.kept.move hp nofun nofun nofun fun _ => .inl,
      h.rounds.move hp (fun _ => rfl) nofun, h.proper⟩
  case h_4 hp =>
    have hup := h.rounds.up_of_alive (g := g) (by rw [hp]; rfl)
    rw [usesSched_eq hup]
    exact ⟨h.counted.move hp nofun nofun (by simp [Place.alive]) rfl h.counted.active_le rfl,
      h.held.move hp rfl nofun, h.kept.move hp nofun nofun (fun _ => rfl) fun _ => .inl,
      h.rounds.move hp nofun (fun _ => rfl), h.proper⟩
  case h_5 hp =>
    rw [usesSched_eq (h.rounds.up_of_leaving hp)]
    have hle := h.counted.active_le
    refine ⟨h.counted.move hp nofun nofun rfl (by simp [Place.holds]) ?_ rfl,
      h.held.move hp rfl nofun, h.kept.move hp nofun nofun (fun _ => rfl) fun _ => .inl,
      h.rounds.move hp nofun nofun, h.proper⟩
    show s.active - 1 ≤ s.maxConcurrent
    omega
  case h_6 => exact h

/-- The dispatcher goes on and has no thread, before and after. -/
theorem Inv.dispatches (h : Inv s) {d : Dispatcher} (hlive : s.dispatcher.live = true)
    (hfree : s.dispatcher.free = true) (hd : d.free = true) : Inv { s with dispatcher := d } := by
  have hrounds := h.rounds
  rw [hlive] at hrounds
  refine ⟨h.counted, h.held.idle ?_ hd, h.kept.idle hd, hrounds.dispatch, h.proper⟩
  intro g hg
  rw [hg] at hfree
  cases hfree

theorem Inv.up_of_live (h : Inv s) (hlive : s.dispatcher.live = true) : s.up = true := by
  have hrounds := h.rounds
  rw [hlive] at hrounds
  exact hrounds.up_of_live

/-- Nobody else has the thread that the dispatcher has. -/
theorem Inv.not_queued (h : Inv s) {p : Place} (hp : s.place g = p) (hqueued : p ≠ .queued)
    (hprepared : p ≠ .prepared) : g ∉ s.queue ∧ ∀ t, s.spawner t ≠ .pushing g := by
  refine ⟨fun hmem => ?_, fun t ht => ?_⟩
  · exact hqueued (hp.symm.trans (h.held.queued g hmem))
  · exact hprepared (hp.symm.trans (h.held.pushing t g ht))

theorem Inv.dispatch (h : Inv s) (created : Bool) : Inv (s.dispatch created) := by
  unfold State.dispatch
  split
  case h_1 hd =>
    rw [usesSched_eq (h.up_of_live (by rw [hd]; rfl))]
    exact h.dispatches (by rw [hd]; rfl) (by rw [hd]; rfl) (by split <;> rfl)
  case h_2 hd =>
    have hlive : s.dispatcher.live = true := by
      rw [hd]
      rfl
    have hrounds := h.rounds
    rw [hlive] at hrounds
    rw [usesSched_eq (h.up_of_live hlive)]
    split
    · exact h.dispatches hlive (by rw [hd]; rfl) rfl
    · next g rest hqueue =>
        have hheld := h.held
        rw [hqueue] at hheld
        have hg := hheld.queued g List.mem_cons_self
        rw [usesGreen_eq (h.not_freed (by rw [hg]; nofun) (by rw [hg]; nofun))]
        exact ⟨h.counted.move hg nofun nofun rfl rfl h.counted.active_le rfl,
          hheld.pops (by rw [hd]; nofun), h.kept.move hg nofun nofun nofun nofun,
          hrounds.dispatch.move hg (fun _ => rfl) nofun, h.proper⟩
  case h_3 hd =>
    rw [usesSched_eq (h.up_of_live (by rw [hd]; rfl))]
    refine h.dispatches (by rw [hd]; rfl) (by rw [hd]; rfl) ?_
    split
    · rfl
    · split <;> rfl
  case h_4 hd =>
    rw [usesSched_eq (h.up_of_live (by rw [hd]; rfl))]
    exact h.dispatches (by rw [hd]; rfl) (by rw [hd]; rfl) rfl
  case h_5 g hd =>
    have hg := h.held.launching g (.inl hd)
    have hrounds := h.rounds
    rw [show s.dispatcher.live = true by rw [hd]; rfl] at hrounds
    obtain ⟨hqueue, hspawner⟩ := h.not_queued hg nofun nofun
    rw [usesGreen_eq (h.not_freed (by rw [hg]; nofun) (by rw [hg]; nofun))]
    split
    · exact ⟨h.counted.move hg nofun nofun rfl rfl h.counted.active_le rfl,
        h.held.dispatch hqueue hspawner (by rw [hd]; nofun) nofun (by simp) nofun,
        h.kept.move hg nofun nofun nofun nofun, hrounds.dispatch.move hg (fun _ => rfl) nofun,
        h.proper⟩
    · have hheld : Held s.queue s.spawner (.failing g) (Function.update s.place g .launching) :=
        h.held.dispatch hqueue hspawner (by rw [hd]; nofun)
          (by rintro x (hx | hx) <;> cases hx; exact ⟨rfl, rfl⟩) (by simp) nofun
      rw [← hg, Function.update_eq_self] at hheld
      exact ⟨h.counted, hheld, ⟨nofun, h.kept.freed, h.kept.joining⟩, hrounds.dispatch, h.proper⟩
  case h_6 g hd =>
    have hg := h.held.launching g (.inr hd)
    have hrounds := h.rounds
    rw [show s.dispatcher.live = true by rw [hd]; rfl] at hrounds
    obtain ⟨hqueue, hspawner⟩ := h.not_queued hg nofun nofun
    rw [usesGreen_eq (h.not_freed (by rw [hg]; nofun) (by rw [hg]; nofun))]
    exact ⟨h.counted.move hg nofun nofun rfl rfl h.counted.active_le rfl,
      h.held.dispatch hqueue hspawner (by rw [hd]; nofun) nofun (by simp [eq_comm]) nofun,
      h.kept.move hg nofun nofun nofun nofun, hrounds.dispatch.move hg (fun _ => rfl) nofun,
      h.proper⟩
  case h_7 g hd =>
    have hg := (h.held.dropping g).1 hd
    have hrounds := h.rounds
    rw [show s.dispatcher.live = true by rw [hd]; rfl] at hrounds
    obtain ⟨hqueue, hspawner⟩ := h.not_queued hg nofun nofun
    rw [usesSched_eq hrounds.up_of_live]
    exact ⟨h.counted.move hg nofun nofun (by simp [Place.alive]) rfl h.counted.active_le rfl,
      h.held.dispatch hqueue hspawner (by rw [hd]; rintro x ⟨⟩; rfl) nofun (by simp)
        (by rintro x ⟨⟩; exact ⟨rfl, rfl⟩),
      h.kept.move hg nofun nofun (fun _ => rfl) (by rintro x ⟨⟩; exact .inr rfl),
      hrounds.dispatch.move hg nofun nofun, h.proper⟩
  case h_8 g hd =>
    have hrounds := h.rounds
    rw [show s.dispatcher.live = true by rw [hd]; rfl] at hrounds
    rw [usesGreen_eq (h.kept.cleaned g hd)]
    exact ⟨h.counted, h.held.idle (by rw [hd]; nofun) rfl, h.kept.idle rfl, hrounds.dispatch,
      h.proper⟩
  case h_9 => exact h
  case h_10 => exact h

/-- The call of an await, and its section. -/
theorem Inv.awaits (h : Inv s) (g : ℕ) : Inv (s.awaits g) := by
  unfold State.awaits
  split
  case h_1 =>
    split
    · exact ⟨h.counted, h.held, h.kept.awaits nofun nofun, h.rounds, h.proper⟩
    · exact h
  case h_2 hw =>
    rw [usesGreen_eq (by rw [hw]; nofun)]
    split
    · exact ⟨h.counted, h.held, h.kept.awaits nofun fun _ => ‹_›, h.rounds, h.proper⟩
    · exact h
  case h_3 => exact h

/-- A thread is freed when the dispatcher is done with it. -/
theorem Inv.free (h : Inv s)
    (hdone : s.await g = .joining → s.dispatcher ≠ .dropping g ∧ s.dispatcher ≠ .cleaning g) :
    Inv (s.free g) := by
  unfold State.free
  split
  case isTrue hjoin =>
    obtain ⟨hw, hjoinable⟩ := hjoin
    obtain ⟨hdropping, hcleaning⟩ := hdone hw
    rw [usesGreen_eq (by rw [hw]; nofun)]
    refine ⟨h.counted, h.held, h.kept.frees hcleaning ?_, h.rounds, h.proper⟩
    cases hp : s.place g with
    | exited => exact .inl rfl
    | dropped => exact .inr rfl
    | failed => exact absurd ((h.held.dropping g).2 hp) hdropping
    | _ =>
        rw [hp] at hjoinable
        cases hjoinable
  case isFalse => exact h

theorem Inv.initSched (h : Inv s) {workers : ℤ} (hworkers : 0 ≤ workers) (created : Bool) :
    Inv (s.initSched workers created) := by
  unfold State.initSched
  split
  case isTrue => exact h
  case isFalse hinit =>
    have hrounds := h.rounds
    rw [Bool.eq_false_iff.2 hinit] at hrounds
    have hdown : s.up = false := by
      by_contra hup
      cases (hrounds.up_iff.1 (by simpa using hup)).1
    have hnone := hrounds.down hdown
    have hlive := hrounds.ended (.inr hdown)
    refine ⟨h.counted.reset (fun g => (hnone g).1) (fun g => ?_) hworkers, ?_, ?_, hrounds.initSched,
      h.proper⟩
    · obtain ⟨halive, hleaving⟩ := hnone g
      cases hp : s.place g with
      | leaving => exact absurd hp hleaving
      | acquired =>
          rw [hp] at halive
          cases halive
      | running =>
          rw [hp] at halive
          cases halive
      | completed =>
          rw [hp] at halive
          cases halive
      | _ => rfl
    · have hnothing : ∀ g, s.dispatcher ≠ .dropping g := by
        intro g hd
        rw [hd] at hlive
        cases hlive
      have hheld : Held s.queue s.spawner (if created then .checking else .none) s.place :=
        h.held.idle hnothing (by split <;> rfl)
      exact ⟨nofun, List.nodup_nil, hheld.pushing, hheld.once, hheld.launching, hheld.dropping,
        hheld.cleaning⟩
    · exact h.kept.idle (by split <;> rfl)

/-- With nothing to count, no thread is alive. -/
theorem Inv.none_alive (h : Inv s) (hcount : ¬ s.aliveCount > 0) (g : ℕ) :
    (s.place g).alive = false := by
  by_contra halive
  have hpos : 0 < number s.spawned s.place Place.alive := by
    refine Finset.card_pos.2 ⟨g, Finset.mem_filter.2 ⟨Finset.mem_range.2 ?_, by simpa using halive⟩⟩
    by_contra hg
    rw [(h.counted.absent_iff g).2 (not_lt.1 hg)] at halive
    exact halive rfl
  have heq := h.counted.alive_eq
  omega

/-- With no thread alive, the queue is empty. -/
theorem Inv.queue_nil (h : Inv s) (hnone : ∀ g, (s.place g).alive = false) : s.queue = [] := by
  rw [List.eq_nil_iff_forall_not_mem]
  intro g hg
  have halive := hnone g
  rw [h.held.queued g hg] at halive
  cases halive

/-- A section of the shutdown. -/
theorem Inv.close (h : Inv s) (hleft : s.closing = .drained → ∀ g, s.place g ≠ .leaving) :
    Inv s.close := by
  have hrounds := h.rounds
  unfold State.close
  split
  case h_1 => exact h
  case h_2 hc =>
    rw [hc] at hrounds
    rw [usesSched_eq (hrounds.up_of_called nofun nofun)]
    split
    · exact h
    · exact ⟨h.counted, h.held, h.kept, hrounds.flags (h.none_alive ‹_›), h.proper⟩
  case h_3 hc =>
    rw [hc] at hrounds
    rw [usesSched_eq (hrounds.up_of_called nofun nofun)]
    exact ⟨h.counted, h.held, h.kept, hrounds.goes rfl nofun rfl nofun nofun, h.proper⟩
  case h_4 hc =>
    rw [hc] at hrounds
    split
    · exact h
    · next hlive =>
        exact ⟨h.counted, h.held, h.kept,
          hrounds.goes rfl nofun rfl nofun fun _ => by simpa using hlive, h.proper⟩
  case h_5 hc =>
    rw [hc] at hrounds
    rw [usesSched_eq (hrounds.up_of_called nofun nofun)]
    split
    · exact ⟨h.counted, h.held, h.kept,
        hrounds.goes rfl nofun rfl nofun fun _ => hrounds.ended (.inl rfl), h.proper⟩
    · next hqueue =>
        rw [h.queue_nil (hrounds.closed rfl).2] at hqueue
        cases hqueue
  case h_6 hc =>
    rw [hc] at hrounds
    have hheld := h.held
    exact ⟨h.counted, ⟨nofun, List.nodup_nil, hheld.pushing, hheld.once, hheld.launching,
      hheld.dropping, hheld.cleaning⟩, h.kept, hrounds.destroys (hleft hc), h.proper⟩
  case h_7 hc =>
    rw [hc] at hrounds
    exact ⟨h.counted, h.held, h.kept, hrounds.ends, h.proper⟩

end

section
variable {τ : Type*} [DecidableEq τ] {s s' : State τ} {a : Action τ}

theorem resolveGreenWorkers_nonneg (requested : ℤ) (env cpus : Option ℤ) :
    0 ≤ resolveGreenWorkers requested env cpus := by
  have hclamp : ∀ n : ℤ, 0 < n → 0 ≤ atMostMax n := by
    intro n hn
    rw [atMostMax, lcnMaxWorkers]
    split <;> omega
  unfold resolveGreenWorkers
  split
  · exact hclamp _ ‹_›
  · split
    · exact hclamp _ ‹_›
    · split
      · exact hclamp _ ‹_›
      · decide

theorem Inv.spawns (h : Inv s) (t : τ) {v : Spawner} (hv : ∀ g, v ≠ .pushing g) :
    Inv (s.spawns t v) :=
  ⟨h.counted, h.held.spawns hv, h.kept, h.rounds, h.proper⟩

/-- A thread is counted while the scheduler is there and not shut down. -/
theorem Inv.counts (h : Inv s) (t : τ) (hup : s.up = true) (hopen : s.shutdown = false) :
    Inv (s.counts t) := by
  have habsent := (h.counted.absent_iff s.spawned).2 (le_refl _)
  unfold State.counts
  rw [usesSched_eq hup]
  exact ⟨h.counted.counts, h.held.counts habsent, h.kept.move habsent nofun nofun nofun fun _ => .inl,
    h.rounds.counts hup hopen, h.proper⟩

/-- It is put in the queue while it is alive. -/
theorem Inv.pushes (h : Inv s) {t : τ} {g : ℕ} (ht : s.spawner t = .pushing g) :
    Inv (s.pushes t g) := by
  have hg := h.held.pushing t g ht
  unfold State.pushes
  rw [usesSched_eq (h.rounds.up_of_alive (g := g) (by rw [hg]; rfl)),
    usesGreen_eq (h.not_freed (by rw [hg]; nofun) (by rw [hg]; nofun))]
  exact ⟨h.counted.move hg nofun nofun rfl rfl h.counted.active_le rfl, h.held.pushes ht,
    h.kept.move hg nofun nofun nofun fun _ => .inl, h.rounds.move hg (fun _ => rfl) nofun, h.proper⟩

/-- A step that meets the condition keeps the invariant. -/
theorem Inv.step (h : Inv s) (hstep : Step s a s') (hok : Orderly s a) : Inv s' := by
  cases hstep with
  | init requested env cpus created _ =>
      exact h.initSched (resolveGreenWorkers_nonneg requested env cpus) created
  | @spawn t _ => exact h.spawns t (by split <;> nofun)
  | @autoInit t env cpus created _ _ =>
      exact (h.initSched (resolveGreenWorkers_nonneg 0 env cpus) created).spawns t nofun
  | @count t _ => exact h.counts t hok.1 hok.2
  | push ht => exact h.pushes ht
  | dispatch created => exact h.dispatch created
  | enter g => exact h.enter g
  | await g => exact h.awaits g
  | free g => exact h.free hok
  | shutdown hidle hinit =>
      have hrounds := h.rounds
      rw [hidle, hinit] at hrounds
      refine ⟨h.counted, h.held, h.kept, ?_, h.proper⟩
      rw [show ({ s with closing := .waiting } : State τ).initialized = true from hinit]
      exact hrounds.calls
  | close => exact h.close hok

/-! ## Steps that are not orderly -/

/-- Some steps from here on are not safe. -/
def Unsafe (s : State τ) : Prop :=
  ∃ s', Reached (· = s) Step (fun _ _ => True) s' ∧ ¬ Safe s'

theorem Unsafe.of_step (h : Unsafe s') (hstep : Step s a s') : Unsafe s := by
  obtain ⟨s'', hreach, hunsafe⟩ := h
  have hfirst : Reached (· = s) Step (fun _ _ => True) s' := .next (.start rfl) trivial hstep
  exact ⟨s'', hfirst.trans hreach, hunsafe⟩

theorem unsafe_of_misused (h : s.misused = true) : Unsafe s := by
  refine ⟨s, .start rfl, fun hsafe => ?_⟩
  rw [hsafe.proper] at h
  cases h

/-- A slot is given up when the throttle is destroyed. -/
theorem unsafe_of_leaving {g : ℕ} (hc : s.closing = .drained) (hg : s.place g = .leaving) :
    Unsafe s.close := by
  have hclose : s.close = { s with up := false, queue := [], closing := .destroyed } := by
    simp only [State.close, hc]
  rw [hclose]
  refine (unsafe_of_misused ?_).of_step (.enter g)
  simp only [State.enter, hg]
  exact Bool.or_true _

/-- The dispatcher cleans up after a thread that is freed. -/
theorem unsafe_of_cleaning {g : ℕ} (hd : s.dispatcher = .cleaning g) (hfreed : s.await g = .freed) :
    Unsafe s := by
  refine (unsafe_of_misused ?_).of_step (.dispatch true)
  simp only [State.dispatch, hd]
  show (s.misused || decide (s.await g = .freed)) = true
  rw [decide_eq_true hfreed, Bool.or_true]

theorem Inv.unsafe_free (h : Inv s) {g : ℕ} (hw : s.await g = .joining)
    (hd : s.dispatcher = .dropping g ∨ s.dispatcher = .cleaning g) : Unsafe (s.free g) := by
  have hjoinable : (s.place g).joinable = true := by
    rcases hd with hd | hd
    · rw [(h.held.dropping g).1 hd]
      rfl
    · rw [h.held.cleaning g hd]
      rfl
  have hfree : s.free g = { s.usesGreen g with await := Function.update s.await g .freed } :=
    if_pos ⟨hw, hjoinable⟩
  rw [hfree]
  rcases hd with hd | hd
  · refine Unsafe.of_step ?_ (.dispatch true)
    have hdispatcher : (s.usesGreen g).dispatcher = .dropping g := hd
    simp only [State.dispatch, hdispatcher]
    exact unsafe_of_cleaning rfl (Function.update_self ..)
  · exact unsafe_of_cleaning hd (Function.update_self ..)

/-- A thread that was counted after the flag was set, with a scheduler that nothing else keeps. -/
structure Late (s : State τ) : Prop where
  pushing : ∃ t g, s.spawner t = .pushing g
  shutdown : s.shutdown = true
  up : s.up = true
  queue_nil : s.queue = []
  free : s.dispatcher.free = true ∨
    ∃ g, s.dispatcher = .cleaning g ∧ s.await g ≠ .freed

omit [DecidableEq τ] in
theorem Late.closes (h : Late s) (c : Closing) : Late { s with closing := c } :=
  ⟨h.pushing, h.shutdown, h.up, h.queue_nil, h.free⟩

omit [DecidableEq τ] in
theorem Late.dispatches (h : Late s) {d : Dispatcher} (hd : d.free = true) :
    Late { s with dispatcher := d } :=
  ⟨h.pushing, h.shutdown, h.up, h.queue_nil, .inl hd⟩

/-- The scheduler is destroyed, and then the thread is put in its queue. -/
theorem Late.unsafe_drained (h : Late s) (hc : s.closing = .drained) : Unsafe s := by
  obtain ⟨t, g, ht⟩ := h.pushing
  have hclose : s.close = { s with up := false, queue := [], closing := .destroyed } := by
    simp only [State.close, hc]
  refine Unsafe.of_step ?_ .close
  rw [hclose]
  refine (unsafe_of_misused ?_).of_step (.push (t := t) (g := g) ht)
  show ((s.misused || !false) || _) = true
  rw [Bool.not_false, Bool.or_true, Bool.true_or]

theorem Late.unsafe_draining (h : Late s) (hc : s.closing = .draining) : Unsafe s := by
  have hclose : s.close = { s with closing := .drained } := by
    simp only [State.close, hc, h.queue_nil, usesSched_eq h.up]
  refine Unsafe.of_step ?_ .close
  rw [hclose]
  exact (h.closes .drained).unsafe_drained rfl

/-- Once the dispatcher has left. -/
theorem Late.unsafe_left (h : Late s) (hc : s.closing = .joining) (hlive : s.dispatcher.live = false) :
    Unsafe s := by
  have hclose : s.close = { s with closing := .draining } := by
    simp only [State.close, hc, hlive]
    rfl
  refine Unsafe.of_step ?_ .close
  rw [hclose]
  exact (h.closes .draining).unsafe_draining rfl

/-- The dispatcher finds the flag. -/
theorem Late.unsafe_checking (h : Late s) (hc : s.closing = .joining)
    (hd : s.dispatcher = .checking ∨ s.dispatcher = .empty) : Unsafe s := by
  have hdispatch : s.dispatch true = { s with dispatcher := .exited } := by
    rcases hd with hd | hd
    · simp only [State.dispatch, hd, usesSched_eq h.up, h.shutdown, if_true]
    · simp only [State.dispatch, hd, usesSched_eq h.up, h.shutdown, if_true]
  refine Unsafe.of_step ?_ (.dispatch true)
  rw [hdispatch]
  exact (h.dispatches (d := .exited) rfl).unsafe_left hc rfl

theorem Late.unsafe_joining (h : Late s) (hc : s.closing = .joining) : Unsafe s := by
  cases hd : s.dispatcher with
  | none => exact h.unsafe_left hc (by rw [hd]; rfl)
  | exited => exact h.unsafe_left hc (by rw [hd]; rfl)
  | checking => exact h.unsafe_checking hc (.inl hd)
  | empty => exact h.unsafe_checking hc (.inr hd)
  | popping =>
      have hdispatch : s.dispatch true = { s with dispatcher := .empty } := by
        simp only [State.dispatch, hd, h.queue_nil, usesSched_eq h.up]
      refine Unsafe.of_step ?_ (.dispatch true)
      rw [hdispatch]
      exact (h.dispatches (d := .empty) rfl).unsafe_checking hc (.inr rfl)
  | napping =>
      have hdispatch : s.dispatch true = { s with dispatcher := .checking } := by
        simp only [State.dispatch, hd, usesSched_eq h.up]
      refine Unsafe.of_step ?_ (.dispatch true)
      rw [hdispatch]
      exact (h.dispatches (d := .checking) rfl).unsafe_checking hc (.inl rfl)
  | cleaning g =>
      have hkept : s.await g ≠ .freed := by
        rcases h.free with hfree | ⟨g', hg', hkept⟩
        · rw [hd] at hfree
          cases hfree
        · cases hd.symm.trans hg'
          exact hkept
      have hdispatch : s.dispatch true = { s with dispatcher := .checking } := by
        simp only [State.dispatch, hd, usesGreen_eq hkept]
      refine Unsafe.of_step ?_ (.dispatch true)
      rw [hdispatch]
      exact (h.dispatches (d := .checking) rfl).unsafe_checking hc (.inl rfl)
  | _ =>
      rcases h.free with hfree | ⟨g', hg', -⟩
      · rw [hd] at hfree
        cases hfree
      · cases hd.symm.trans hg'

/-- A thread is counted when the scheduler is shut down, or gone. -/
theorem Inv.unsafe_count (h : Inv s) (t : τ) (hlate : ¬ (s.up = true ∧ s.shutdown = false)) :
    Unsafe (s.counts t) := by
  by_cases hup : s.up = true
  · have hshutdown : s.shutdown = true := by simpa [hup] using hlate
    have hpast := h.rounds.flag hshutdown
    have hnone := (h.rounds.closed hpast).2
    have hcounts : Late (s.counts t) := by
      refine ⟨⟨t, s.spawned, Function.update_self ..⟩, hshutdown, hup, h.queue_nil hnone, ?_⟩
      show s.dispatcher.free = true ∨ ∃ g, s.dispatcher = .cleaning g ∧ s.await g ≠ .freed
      cases hd : s.dispatcher with
      | launching g =>
          have halive := hnone g
          rw [h.held.launching g (.inl hd)] at halive
          cases halive
      | failing g =>
          have halive := hnone g
          rw [h.held.launching g (.inr hd)] at halive
          cases halive
      | dropping g =>
          have halive := hnone g
          rw [(h.held.dropping g).1 hd] at halive
          cases halive
      | cleaning g => exact .inr ⟨g, rfl, h.kept.cleaned g hd⟩
      | _ => exact .inl rfl
    cases hc : s.closing with
    | idle =>
        rw [hc] at hpast
        cases hpast
    | waiting =>
        rw [hc] at hpast
        cases hpast
    | flagged =>
        have hclosing : (s.counts t).closing = .flagged := hc
        have hclose : (s.counts t).close = { s.counts t with closing := .joining } := by
          simp only [State.close, hclosing, usesSched_eq hcounts.up]
        refine Unsafe.of_step ?_ .close
        rw [hclose]
        exact (hcounts.closes .joining).unsafe_joining rfl
    | joining => exact hcounts.unsafe_joining hc
    | draining => exact hcounts.unsafe_draining hc
    | drained => exact hcounts.unsafe_drained hc
    | destroyed => exact absurd hc (h.rounds.up_iff.1 hup).2
  · refine unsafe_of_misused ?_
    show (s.misused || !s.up) = true
    rw [Bool.eq_false_iff.2 hup, Bool.not_false, Bool.or_true]

/-- A step that does not meet the condition is not safe, or leads to one that is not. -/
theorem Inv.unsafe_step (h : Inv s) (hstep : Step s a s') (hok : ¬ Orderly s a) : Unsafe s' := by
  cases hstep with
  | @count t _ => exact h.unsafe_count t hok
  | free g =>
      rw [Orderly] at hok
      push Not at hok
      obtain ⟨hw, hd⟩ := hok
      refine h.unsafe_free hw ?_
      by_cases hdropping : s.dispatcher = .dropping g
      · exact .inl hdropping
      · exact .inr (hd hdropping)
  | close =>
      rw [Orderly] at hok
      push Not at hok
      obtain ⟨hc, g, hg⟩ := hok
      exact unsafe_of_leaving hc hg
  | _ => exact absurd trivial hok

/-! ## The claim -/

omit [DecidableEq τ] in
theorem Inv.safe (h : Inv s) : Safe s where
  running_le := by
    have hmono : number s.spawned s.place (fun v => decide (v = .running)) ≤
        number s.spawned s.place Place.holds := by
      refine number_mono fun v hv => ?_
      rw [of_decide_eq_true hv]
      rfl
    have hactive := h.counted.active_eq
    have hle := h.counted.active_le
    omega
  active_eq := h.counted.active_eq
  alive_eq := h.counted.alive_eq
  counted_out := by
    intro g hg halive
    have hpresent : s.place g ≠ .absent := by
      rw [Ne, h.counted.absent_iff]
      exact not_le.2 hg
    cases hp : s.place g <;> rw [hp] at halive hpresent <;> first | rfl | contradiction
  runs_le := by
    intro g
    rw [h.counted.runs_eq]
    cases s.place g <;> decide
  runs_eq := by
    intro g hdone hfails
    rw [h.counted.runs_eq]
    cases hp : s.place g <;> rw [hp] at hdone hfails <;> first | rfl | contradiction
  finished := by
    intro hdown g hg
    obtain ⟨halive, hleaving⟩ := h.rounds.down hdown g
    have hpresent : s.place g ≠ .absent := by
      rw [Ne, h.counted.absent_iff]
      exact not_le.2 hg
    cases hp : s.place g <;> rw [hp] at halive hleaving hpresent <;> first | rfl | contradiction
  proper := h.proper

/-- In every orderly run the scheduler is safe; and the first step that is not orderly leads to a
state that is not. -/
theorem green_safe (h : Reached (· = State.start) Step Orderly s) :
    Safe s ∧ ∀ a s', Step s a s' → ¬ Orderly s a →
      ∃ s'', Reached (· = s') Step (fun _ _ => True) s'' ∧ ¬ Safe s'' := by
  have hinv : Inv s := by
    refine h.invariant ?_ fun s a s' hinv hok hstep => hinv.step hstep hok
    rintro s rfl
    exact Inv.start
  exact ⟨hinv.safe, fun a s' hstep hok => hinv.unsafe_step hstep hok⟩

/-- A green thread is run, awaited and freed, and the scheduler is shut down. -/
theorem green_safe_one :
    ∃ s : State Unit, s.up = false ∧ s.await 0 = .freed ∧ s.runs 0 = 1 ∧ Safe s := by
  have next : ∀ {s s' : State Unit} {a : Action Unit}, Reached (· = State.start) Step Orderly s →
      Step s a s' → Orderly s a → Reached (· = State.start) Step Orderly s' :=
    fun h hstep hok => h.next hok hstep
  have h₀ : Reached (· = State.start) Step Orderly (State.start : State Unit) := .start rfl
  have h₁ := next h₀ (.init 1 none none true rfl) trivial
  have h₂ := next h₁ (.spawn (t := ()) rfl) trivial
  have h₃ := next h₂ (.count (t := ()) rfl) ⟨rfl, rfl⟩
  have h₄ := next h₃ (.push (t := ()) rfl) trivial
  have h₅ := next (next (next h₄ (.dispatch true) trivial) (.dispatch true) trivial)
    (.dispatch true) trivial
  have h₆ := next (next (next h₅ (.enter 0) trivial) (.enter 0) trivial) (.enter 0) trivial
  have h₇ := next (next h₆ (.await 0) trivial) (.await 0) trivial
  have h₈ := next (next h₇ (.enter 0) trivial) (.enter 0) trivial
  have h₉ := next h₈ (.free 0) fun _ => ⟨nofun, nofun⟩
  have h₁₀ := next h₉ (.shutdown rfl rfl) trivial
  have h₁₁ := next (next h₁₀ .close nofun) .close nofun
  have h₁₂ := next h₁₁ (.dispatch true) trivial
  have h₁₃ := next (next h₁₂ .close nofun) .close nofun
  have h₁₄ := next h₁₃ .close fun _ => by rintro (_ | g) ⟨⟩
  exact ⟨_, rfl, rfl, rfl, (green_safe h₁₄).1⟩

/-- The scheduler is shut down and made again while a thread has not given up its slot: the throttle
then counts `-1`. -/
theorem released_late : ¬ ∀ s : State Unit, Reached (· = State.start) Step (fun _ _ => True) s →
    Safe s := by
  intro h
  have h₀ : Reached (· = State.start) Step (fun _ _ => True) (State.start : State Unit) := .start rfl
  have h₁ := h₀.next trivial (.init 1 none none true rfl)
  have h₂ := h₁.next trivial (.spawn (t := ()) rfl)
  have h₃ := h₂.next trivial (.count (t := ()) rfl)
  have h₄ := h₃.next trivial (.push (t := ()) rfl)
  have h₅ := ((h₄.next trivial (.dispatch true)).next trivial (.dispatch true)).next trivial
    (.dispatch true)
  have h₆ := ((h₅.next trivial (.enter 0)).next trivial (.enter 0)).next trivial (.enter 0)
  have h₇ := h₆.next trivial (.enter 0)
  have h₈ := h₇.next trivial (.shutdown rfl rfl)
  have h₉ := (h₈.next trivial .close).next trivial .close
  have h₁₀ := h₉.next trivial (.dispatch true)
  have h₁₁ := ((h₁₀.next trivial .close).next trivial .close).next trivial .close
  have h₁₂ := h₁₁.next trivial .close
  have h₁₃ := h₁₂.next trivial (.init 1 none none true rfl)
  have h₁₄ := h₁₃.next trivial (.enter 0)
  have hactive := (h _ h₁₄).active_eq
  have hnegative : (-1 : ℤ) = _ := hactive
  omega

end

end Limceron.Runtime.Green
