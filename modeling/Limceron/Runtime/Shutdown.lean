/-
# `Limceron.Runtime.Shutdown` — the tasks that are pending at a shutdown

`lcn_threadpool_shutdown` sets the flag of the queue, joins the workers, and
throws away what is in the queue, which is to be nothing: a worker leaves its
loop on an empty queue only.  But `lcn_spawn_task` does not look at the flag, so
a task may come after the last worker has left.  That is the only way for a task
to be dropped (`nothing_dropped`).

Each section under a lock is one step.  `g_init_mutex` is held throughout a
shutdown, so none begins and no pool is made meanwhile; the read of
`initialized` in `lcn_spawn_task` is under no lock.  Tasks are numbered as they
are put in the queue, and the steps write down which were started, completed and
thrown away.  `lcn_await_task` looks at completed tasks only, and is not a step.

| | |
| :-- | :-- |
| `State` | the pool, the workers, and the calls that are under way |
| `Step` | one section |
| `NothingDropped` | what is to hold of every reachable state |
| `Staffed` | a worker is there when a task is put in the queue |
-/
import Limceron.Lib.Monitors
import Limceron.Lib.Systems
import Limceron.Runtime.TaskPool

namespace Limceron.Runtime.Shutdown

open Systems Monitors

/-! ## The system -/

/-- Where a worker is; one that was never made is gone. -/
inductive Worker where
  | ready
  | asleep
  | running (task : ℕ)
  | gone
  deriving DecidableEq

/-- Where a call of `lcn_spawn_task` is: it has found no pool, or has its handle. -/
inductive Spawn where
  | idle
  | noPool
  | pushing

/-- Where the call of `lcn_threadpool_shutdown` is. -/
inductive Closing where
  | idle
  | joining
  | joined
  | drained

/-- `g_pool` with its threads, and what has become of the tasks. -/
structure State (τ : Type*) where
  queue : LcnTaskQueue ℕ
  initialized : Bool
  workers : ℕ → Worker
  closing : Closing
  spawner : τ → Spawn
  returned : ℕ
  started : List ℕ
  completed : List ℕ
  discarded : List ℕ

/-- The sections; a worker that a push wakes is named. -/
inductive Action (τ : Type*) where
  | init (requested : ℤ) (env : Option ℤ)
  | spawn (t : τ)
  | autoInit (t : τ) (env : Option ℤ)
  | push (t : τ) (woken : Option ℕ)
  | check (w : ℕ)
  | complete (w : ℕ)
  | wake (w : ℕ)
  | shutdown
  | join
  | drain
  | finish

section
variable {τ : Type*}

/-- The start of the program. -/
def State.start : State τ where
  queue := .init
  initialized := false
  workers := fun _ => .gone
  closing := .idle
  spawner := fun _ => .idle
  returned := 0
  started := []
  completed := []
  discarded := []

/-- `lcn_threadpool_init`, when `g_init_mutex` is taken. -/
def State.initPool (s : State τ) (requested : ℤ) (env : Option ℤ) : State τ :=
  if s.initialized then s
  else
    { s with
      queue := .init
      initialized := true
      workers := fun w => if w < (resolveWorkerCount requested env).toNat then .ready else .gone }

/-- A worker is at another place. -/
def State.worker (s : State τ) (w : ℕ) (v : Worker) : State τ :=
  { s with workers := Function.update s.workers w v }

/-- A worker has the lock of the queue. -/
def State.check (s : State τ) (w : ℕ) : State τ :=
  match s.queue.workerSection with
  | .waits => s.worker w .asleep
  | .leaves => s.worker w .gone
  | .takes task queue =>
      { s.worker w (.running task) with queue := queue, started := s.started ++ [task] }
  | .again => s

variable [DecidableEq τ]

/-- A spawner is at another place. -/
def State.spawns (s : State τ) (t : τ) (v : Spawn) : State τ :=
  { s with spawner := Function.update s.spawner t v }

/-- One section, of any thread. -/
inductive Step (s : State τ) : Action τ → State τ → Prop where
  | init (requested : ℤ) (env : Option ℤ) : s.closing = .idle →
      Step s (.init requested env) (s.initPool requested env)
  -- `lcn_spawn_task`
  | spawn {t : τ} : s.spawner t = .idle →
      Step s (.spawn t) (s.spawns t (if s.initialized then .pushing else .noPool))
  | autoInit {t : τ} (env : Option ℤ) : s.spawner t = .noPool → s.closing = .idle →
      Step s (.autoInit t env) ((s.initPool 0 env).spawns t .pushing)
  | push {t : τ} {woken : Option ℕ} {workers : ℕ → Worker} : s.spawner t = .pushing →
      Signal (· = .asleep) (fun _ => .ready) s.workers woken workers →
      Step s (.push t woken)
        { s.spawns t .idle with
          queue := s.queue.push s.returned, workers := workers, returned := s.returned + 1 }
  -- `worker_loop`
  | check {w : ℕ} : s.workers w = .ready → Step s (.check w) (s.check w)
  | complete {w task : ℕ} : s.workers w = .running task →
      Step s (.complete w) { s.worker w .ready with completed := s.completed ++ [task] }
  | wake {w : ℕ} : s.workers w = .asleep → Step s (.wake w) (s.worker w .ready)
  -- `lcn_threadpool_shutdown`
  | shutdown : s.closing = .idle → s.initialized = true →
      Step s .shutdown
        { s with
          queue := { s.queue with shutdown := true }
          workers := broadcast (· = .asleep) (fun _ => .ready) s.workers
          closing := .joining }
  | join : s.closing = .joining → (∀ w, s.workers w = .gone) →
      Step s .join { s with closing := .joined }
  | drain : s.closing = .joined →
      Step s .drain
        { s with
          queue := { s.queue with tasks := [] }
          discarded := s.discarded ++ s.queue.tasks
          closing := .drained }
  | finish : s.closing = .drained →
      Step s .finish { s with initialized := false, closing := .idle }

end

/-! ## What is claimed -/

section
variable {τ : Type*}

/-- No task is started twice or thrown away, and each is completed, or a worker runs it, or it is in
the queue and a worker is on its way. -/
structure NothingDropped (s : State τ) : Prop where
  once : s.started.Nodup
  kept : s.discarded = []
  executed : ∀ task < s.returned, task ∈ s.completed ∨ (∃ w, s.workers w = .running task) ∨
    task ∈ s.queue.tasks ∧ ∃ w, s.workers w = .ready ∨ ∃ other, s.workers w = .running other

/-- A task is put in the queue only while some worker has not left its loop. -/
def Staffed (s : State τ) (a : Action τ) : Prop :=
  ∀ t woken, a = .push t woken → ∃ w, s.workers w ≠ .gone

/-- A shutdown that nothing has been dropped before has waited for all tasks. -/
theorem NothingDropped.waited {s : State τ} (h : NothingDropped s)
    (hgone : ∀ w, s.workers w = .gone) : ∀ task < s.returned, task ∈ s.completed := by
  intro task htask
  rcases h.executed task htask with hdone | ⟨w, hw⟩ | ⟨-, w, hw | ⟨other, hw⟩⟩
  · exact hdone
  all_goals
    rw [hgone w] at hw
    cases hw

/-! ## The invariant -/

/-- The tasks are started in the order of the queue; one that was started is completed or runs; and
the queue is empty when the workers are gone. -/
structure Inv (s : State τ) : Prop where
  order : s.started ++ s.queue.tasks = List.range s.returned
  kept : s.discarded = []
  served : Served (· = .asleep) (· = .ready) s.queue.tasks.length s.workers
  taken : ∀ task ∈ s.started, task ∈ s.completed ∨ ∃ w, s.workers w = .running task
  finished : ∀ task ∈ s.completed, task ∈ s.started
  runs : ∀ w task, s.workers w = .running task → task ∈ s.started
  staffed : s.queue.tasks ≠ [] → ∃ w, s.workers w ≠ .gone
  closed : s.initialized = false ∨ s.closing = .joined ∨ s.closing = .drained →
    ∀ w, s.workers w = .gone
  running : s.closing = .joining ∨ s.closing = .joined ∨ s.closing = .drained →
    s.initialized = true

theorem Inv.start : Inv (State.start : State τ) where
  order := rfl
  kept := rfl
  served := served_zero _ _ _
  taken := fun _ htask => absurd htask List.not_mem_nil
  finished := fun _ htask => absurd htask List.not_mem_nil
  runs := by rintro w task ⟨⟩
  staffed := fun h => absurd rfl h
  closed := fun _ _ => rfl
  running := by rintro (h | h | h) <;> cases h

variable {s s' : State τ} {a : Action τ}

theorem Inv.queue_nil (h : Inv s) (hgone : ∀ w, s.workers w = .gone) : s.queue.tasks = [] := by
  by_contra hqueue
  obtain ⟨w, hw⟩ := h.staffed hqueue
  exact hw (hgone w)

/-- A started task is one of those that were put in the queue. -/
theorem Inv.lt_returned (h : Inv s) {task : ℕ} (htask : task ∈ s.started) : task < s.returned := by
  rw [← List.mem_range, ← h.order]
  exact List.mem_append_left _ htask

theorem Inv.nothingDropped (h : Inv s) : NothingDropped s := by
  refine ⟨?_, h.kept, ?_⟩
  · have hnodup : (s.started ++ s.queue.tasks).Nodup := h.order ▸ List.nodup_range
    exact hnodup.of_append_left
  · intro task htask
    have hmem : task ∈ s.started ++ s.queue.tasks := h.order ▸ List.mem_range.2 htask
    rcases List.mem_append.1 hmem with hstarted | hqueue
    · rcases h.taken task hstarted with hdone | hruns
      · exact .inl hdone
      · exact .inr (.inl hruns)
    · refine .inr (.inr ⟨hqueue, ?_⟩)
      obtain ⟨w, hw⟩ := h.staffed (List.ne_nil_of_mem hqueue)
      cases hworker : s.workers w with
      | ready => exact ⟨w, .inl hworker⟩
      | asleep =>
          -- a push has woken another worker for each task of the queue
          obtain ⟨u, hu⟩ := (h.served ⟨w, hworker⟩).exists (List.length_pos_of_mem hqueue)
          exact ⟨u, .inl hu⟩
      | running other => exact ⟨w, .inr ⟨other, hworker⟩⟩
      | gone => exact absurd hworker hw

/-! ## One step -/

theorem Inv.initPool (h : Inv s) (hidle : s.closing = .idle) (requested : ℤ) (env : Option ℤ) :
    Inv (s.initPool requested env) := by
  unfold State.initPool
  split
  · exact h
  · have hgone := h.closed (.inl (Bool.eq_false_iff.2 ‹_›))
    have hqueue := h.queue_nil hgone
    refine ⟨?_, h.kept, served_zero _ _ _, ?_, h.finished, ?_, fun hne => absurd rfl hne, ?_, ?_⟩
    · rw [← h.order, hqueue]
      rfl
    · intro task htask
      rcases h.taken task htask with hdone | ⟨w, hw⟩
      · exact .inl hdone
      · rw [hgone w] at hw
        cases hw
    · intro w task hw
      dsimp only at hw
      split at hw <;> cases hw
    · rintro (hc | hc | hc)
      · cases hc
      · rw [hidle] at hc
        cases hc
      · rw [hidle] at hc
        cases hc
    · exact fun _ => rfl

/-- What a worker runs is not changed by the moves of another. -/
theorem runs_worker {w : ℕ} (v : Worker) (hw : ∀ task, s.workers w ≠ .running task) {task : ℕ}
    (h : ∃ u, s.workers u = .running task) : ∃ u, (s.worker w v).workers u = .running task := by
  obtain ⟨u, hu⟩ := h
  refine ⟨u, ?_⟩
  have hne : u ≠ w := by
    rintro rfl
    exact hw task hu
  exact (Function.update_of_ne hne _ _).trans hu

/-- A worker runs what it ran before, or what it runs now. -/
theorem worker_runs {w u task : ℕ} {v : Worker}
    (h : (s.worker w v).workers u = .running task) :
    v = .running task ∨ s.workers u = .running task := by
  by_cases hu : u = w
  · subst hu
    exact .inl ((Function.update_self ..).symm.trans h)
  · exact .inr ((Function.update_of_ne hu _ _).symm.trans h)

/-- A worker that is there shows that the pool is not closed. -/
theorem Inv.open (h : Inv s) {w : ℕ} (hw : s.workers w ≠ .gone) {P : Prop}
    (hc : s.initialized = false ∨ s.closing = .joined ∨ s.closing = .drained) : P :=
  absurd (h.closed hc w) hw

/-- A worker that finds the queue empty sleeps or leaves. -/
theorem Inv.idles (h : Inv s) {w : ℕ} (hw : s.workers w = .ready) (hnil : s.queue.tasks = [])
    {v : Worker} (hv : ∀ task, v ≠ .running task) : Inv (s.worker w v) where
  order := h.order
  kept := h.kept
  served := by
    show Served _ _ s.queue.tasks.length _
    rw [hnil]
    exact served_zero _ _ _
  taken := fun task htask => (h.taken task htask).imp_right (runs_worker v (by simp [hw]))
  finished := h.finished
  runs := by
    intro u task hu
    rcases worker_runs hu with hrun | hu
    · exact absurd hrun (hv task)
    · exact h.runs u task hu
  staffed := fun hne => absurd hnil hne
  closed := h.open (w := w) (by simp [hw])
  running := h.running

/-- A worker takes the first task. -/
theorem Inv.takes (h : Inv s) {w : ℕ} (hw : s.workers w = .ready) {task : ℕ} {rest : List ℕ}
    (htasks : s.queue.tasks = task :: rest) :
    Inv { s.worker w (.running task) with
      queue := { s.queue with tasks := rest }, started := s.started ++ [task] } where
  order := by
    show (s.started ++ [task]) ++ rest = List.range s.returned
    rw [← h.order, htasks, List.append_assoc]
    rfl
  kept := h.kept
  served := by
    have htake := h.served.take (t := w) (v := .running task) Worker.noConfusion
    rw [htasks] at htake
    exact htake
  taken := by
    intro other hother
    rcases List.mem_append.1 hother with hold | hnew
    · exact (h.taken other hold).imp_right (runs_worker (.running task) (by simp [hw]))
    · cases List.mem_singleton.1 hnew
      exact .inr ⟨w, Function.update_self ..⟩
  finished := fun other hother => List.mem_append_left _ (h.finished other hother)
  runs := by
    intro u other hu
    rcases worker_runs hu with hv | hu
    · cases hv
      exact List.mem_append_right _ (List.mem_singleton_self _)
    · exact List.mem_append_left _ (h.runs u other hu)
  staffed := by
    intro _
    refine ⟨w, ?_⟩
    show Function.update s.workers w (.running task) w ≠ .gone
    rw [Function.update_self]
    exact Worker.noConfusion
  closed := h.open (w := w) (by simp [hw])
  running := h.running

/-- A worker with the lock. -/
theorem Inv.check (h : Inv s) {w : ℕ} (hw : s.workers w = .ready) : Inv (s.check w) := by
  unfold State.check
  rcases s.queue.workerSection_cases with ⟨hnil, -, hsection⟩ | ⟨hnil, -, hsection⟩ |
    ⟨task, rest, htasks, hsection⟩
  · rw [hsection]
    exact h.idles hw hnil (fun _ => Worker.noConfusion)
  · rw [hsection]
    exact h.idles hw hnil (fun _ => Worker.noConfusion)
  · rw [hsection]
    exact h.takes hw htasks

/-- A worker has run its task. -/
theorem Inv.complete (h : Inv s) {w task : ℕ} (hw : s.workers w = .running task) :
    Inv { s.worker w .ready with completed := s.completed ++ [task] } where
  order := h.order
  kept := h.kept
  served := h.served.move (fun _ => rfl) Worker.noConfusion
  taken := by
    intro other hother
    rcases h.taken other hother with hdone | ⟨u, hu⟩
    · exact .inl (List.mem_append_left _ hdone)
    · by_cases huw : u = w
      · subst huw
        cases hw.symm.trans hu
        exact .inl (List.mem_append_right _ (List.mem_singleton_self _))
      · exact .inr ⟨u, (Function.update_of_ne huw _ _).trans hu⟩
  finished := by
    intro other hother
    rcases List.mem_append.1 hother with hold | hnew
    · exact h.finished other hold
    · cases List.mem_singleton.1 hnew
      exact h.runs w task hw
  runs := by
    intro u other hu
    rcases worker_runs hu with hv | hu
    · cases hv
    · exact h.runs u other hu
  staffed := by
    intro _
    refine ⟨w, ?_⟩
    show Function.update s.workers w .ready w ≠ .gone
    rw [Function.update_self]
    exact Worker.noConfusion
  closed := h.open (w := w) (by simp [hw])
  running := h.running

/-- A worker whose wait ends. -/
theorem Inv.wake (h : Inv s) {w : ℕ} (hw : s.workers w = .asleep) :
    Inv (s.worker w .ready) where
  order := h.order
  kept := h.kept
  served := h.served.move (fun _ => rfl) Worker.noConfusion
  taken := fun task htask => (h.taken task htask).imp_right (runs_worker .ready (by simp [hw]))
  finished := h.finished
  runs := by
    intro u task hu
    rcases worker_runs hu with hv | hu
    · cases hv
    · exact h.runs u task hu
  staffed := by
    intro _
    refine ⟨w, ?_⟩
    show Function.update s.workers w .ready w ≠ .gone
    rw [Function.update_self]
    exact Worker.noConfusion
  closed := h.open (w := w) (by simp [hw])
  running := h.running

/-- A worker that is woken does not come to run a task, nor is it made. -/
theorem runs_woken (task : ℕ) (v : Worker) (hv : v = .asleep) :
    Worker.ready = .running task ↔ v = .running task := by
  subst hv
  constructor <;> rintro ⟨⟩

theorem here_woken (v : Worker) (hv : v = .asleep) : Worker.ready ≠ .gone ↔ v ≠ .gone := by
  subst hv
  exact ⟨fun _ => Worker.noConfusion, fun _ => Worker.noConfusion⟩

/-- The flag is set, and all workers are woken. -/
theorem Inv.shutdown (h : Inv s) (hinit : s.initialized = true) :
    Inv { s with
      queue := { s.queue with shutdown := true }
      workers := broadcast (· = .asleep) (fun _ => .ready) s.workers
      closing := .joining } where
  order := h.order
  kept := h.kept
  served := by
    refine served_of_none ?_
    exact broadcast_awake (P := (· = Worker.asleep)) fun _ => (nofun : Worker.ready ≠ .asleep)
  taken := by
    intro task htask
    refine (h.taken task htask).imp_right ?_
    rintro ⟨w, hw⟩
    exact ⟨w, (broadcast_kept (P := (· = Worker.running task)) (runs_woken task) w).2 hw⟩
  finished := h.finished
  runs := fun w task hw => h.runs w task
    ((broadcast_kept (P := (· = Worker.running task)) (runs_woken task) w).1 hw)
  staffed := by
    intro hne
    obtain ⟨w, hw⟩ := h.staffed hne
    exact ⟨w, (broadcast_kept (P := (· ≠ Worker.gone)) here_woken w).2 hw⟩
  closed := by
    rintro (hc | hc | hc)
    · rw [hinit] at hc
      cases hc
    · cases hc
    · cases hc
  running := fun _ => hinit

variable [DecidableEq τ]

/-- A task is put in the queue while a worker is there. -/
theorem Inv.push (h : Inv s) {woken : Option ℕ} {workers : ℕ → Worker} (t : τ)
    (hsignal : Signal (· = .asleep) (fun _ => .ready) s.workers woken workers)
    (hstaffed : ∃ w, s.workers w ≠ .gone) :
    Inv { s.spawns t .idle with
      queue := s.queue.push s.returned, workers := workers, returned := s.returned + 1 } where
  order := by
    show s.started ++ (s.queue.tasks ++ [s.returned]) = List.range (s.returned + 1)
    rw [← List.append_assoc, h.order, List.range_succ]
  kept := h.kept
  served := by
    show Served _ _ (s.queue.tasks ++ [s.returned]).length _
    rw [List.length_append]
    exact h.served.signal hsignal fun w _ hw => ⟨by simp [show s.workers w = .asleep from hw], rfl⟩
  taken := by
    intro task htask
    refine (h.taken task htask).imp_right ?_
    rintro ⟨w, hw⟩
    exact ⟨w, (hsignal.kept (P := (· = Worker.running task)) (runs_woken task) w).2 hw⟩
  finished := h.finished
  runs := fun w task hw => h.runs w task
    ((hsignal.kept (P := (· = Worker.running task)) (runs_woken task) w).1 hw)
  staffed := by
    intro _
    obtain ⟨w, hw⟩ := hstaffed
    exact ⟨w, (hsignal.kept (P := (· ≠ Worker.gone)) here_woken w).2 hw⟩
  closed := by
    obtain ⟨w, hw⟩ := hstaffed
    exact h.open hw
  running := h.running

theorem Inv.spawns (h : Inv s) (t : τ) (v : Spawn) : Inv (s.spawns t v) :=
  ⟨h.order, h.kept, h.served, h.taken, h.finished, h.runs, h.staffed, h.closed, h.running⟩

theorem Inv.step (h : Inv s) (hstep : Step s a s') (hok : Staffed s a) : Inv s' := by
  cases hstep with
  | init requested env hidle => exact h.initPool hidle requested env
  | spawn _ => exact h.spawns _ _
  | autoInit env _ hidle => exact (h.initPool hidle 0 env).spawns _ _
  | @push t woken _ _ hsignal => exact h.push t hsignal (hok t woken rfl)
  | check hw => exact h.check hw
  | complete hw => exact h.complete hw
  | wake hw => exact h.wake hw
  | shutdown _ hinit => exact h.shutdown hinit
  | join hjoining hgone =>
      exact ⟨h.order, h.kept, h.served, h.taken, h.finished, h.runs, h.staffed, fun _ => hgone,
        fun _ => h.running (.inl hjoining)⟩
  | drain hjoined =>
      have hgone := h.closed (.inr (.inl hjoined))
      have hnil := h.queue_nil hgone
      refine ⟨?_, ?_, served_zero _ _ _, h.taken, h.finished, h.runs, fun hne => absurd rfl hne,
        fun _ => hgone, fun _ => h.running (.inr (.inl hjoined))⟩
      · rw [← h.order, hnil]
      · rw [hnil, h.kept]
        rfl
  | finish hdrained =>
      refine ⟨h.order, h.kept, h.served, h.taken, h.finished, h.runs, h.staffed,
        fun _ => h.closed (.inr (.inr hdrained)), ?_⟩
      rintro (hc | hc | hc) <;> cases hc

/-- A task that is put in the queue when all workers have left is not executed. -/
theorem Inv.drops (h : Inv s) (hstep : Step s a s') (hok : ¬ Staffed s a) : ¬ NothingDropped s' := by
  rw [Staffed] at hok
  push Not at hok
  obtain ⟨t, woken, rfl, hgone⟩ := hok
  intro hnothing
  cases hstep with
  | @push _ _ workers _ hsignal =>
      have hworkers : ∀ w, workers w = .gone :=
        hsignal.forall (P := (· = Worker.gone)) hgone fun w hw => absurd (hw.symm.trans (hgone w)) Worker.noConfusion
      have hdone := hnothing.waited hworkers s.returned (Nat.lt_succ_self _)
      exact lt_irrefl _ (h.lt_returned (h.finished _ hdone))

/-! ## The claim -/

/-- While each task is put in the queue before all workers have left, none is dropped; the first that
comes later is. -/
theorem nothing_dropped (h : Reached (· = State.start) Step Staffed s) :
    NothingDropped s ∧ ∀ a s', Step s a s' → (NothingDropped s' ↔ Staffed s a) := by
  have hinv : Inv s := by
    refine h.invariant ?_ ?_
    · rintro s rfl
      exact Inv.start
    · intro s a s' hinv hok hstep
      exact hinv.step hstep hok
  refine ⟨hinv.nothingDropped, fun a s' hstep => ⟨fun hnothing => ?_, fun hok => ?_⟩⟩
  · by_contra hok
    exact hinv.drops hstep hok hnothing
  · exact (hinv.step hstep hok).nothingDropped

/-- A task is put in the queue, and the pool is shut down: the worker takes the task before it
leaves. -/
theorem nothing_dropped_one :
    ∃ s : State Unit, s.closing = .joined ∧ s.completed = [0] ∧ NothingDropped s := by
  have hok : ∀ (s : State Unit) (a : Action Unit), s.workers 0 ≠ .gone → Staffed s a :=
    fun s a hw t woken _ => ⟨0, hw⟩
  have hquiet : ∀ (s : State Unit) (a : Action Unit), (∀ t woken, a ≠ .push t woken) → Staffed s a :=
    fun s a ha t woken he => absurd he (ha t woken)
  have h₀ : Reached (· = State.start) Step Staffed (State.start : State Unit) := .start rfl
  have h₁ := h₀.next (hquiet _ _ (by simp)) (.init 1 none rfl)
  have h₂ := h₁.next (hok _ _ (by decide)) (.spawn (t := ()) rfl)
  have h₃ := h₂.next (hok _ _ (by decide)) (.push (t := ()) rfl (.none (by rintro (_ | w) ⟨⟩)))
  have h₄ := h₃.next (hok _ _ (by decide)) (.shutdown rfl rfl)
  have h₅ := h₄.next (hok _ _ (by decide)) (.check (w := 0) rfl)
  have h₆ := h₅.next (hok _ _ (by decide)) (.complete (w := 0) rfl)
  have h₇ := h₆.next (hok _ _ (by decide)) (.check (w := 0) rfl)
  have h₈ := h₇.next (hquiet _ _ (by simp)) (.join rfl (by rintro (_ | w) <;> rfl))
  exact ⟨_, rfl, rfl, (nothing_dropped h₈).1⟩

/-- A task comes when the only worker has left, and is thrown away. -/
theorem dropped_late : ¬ ∀ s : State Unit, Reached (· = State.start) Step (fun _ _ => True) s →
    NothingDropped s := by
  intro h
  have h₀ : Reached (· = State.start) Step (fun _ _ => True) (State.start : State Unit) := .start rfl
  have h₁ := h₀.next trivial (.init 1 none rfl)
  have h₂ := h₁.next trivial (.spawn (t := ()) rfl)
  have h₃ := h₂.next trivial (.shutdown rfl rfl)
  have h₄ := h₃.next trivial (.check (w := 0) rfl)
  have h₅ := h₄.next trivial (.push (t := ()) rfl (.none (by rintro (_ | w) ⟨⟩)))
  have h₆ := h₅.next trivial (.join rfl (by rintro (_ | w) <;> rfl))
  have h₇ := h₆.next trivial (.drain rfl)
  exact absurd (h _ h₇).kept (List.cons_ne_nil 0 [])

end

end Limceron.Runtime.Shutdown
