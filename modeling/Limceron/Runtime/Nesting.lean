/-
# `Limceron.Runtime.Nesting` — tasks that wait for tasks

A task of the pool may spawn tasks with `lcn_spawn_task` and wait for them with
`lcn_await_task`, as a task group does.  It keeps its worker while it waits.  If
all workers are kept so, nobody is left to run the tasks they wait for.

A task that waits has children, so there are no more workers kept than there are
such tasks in the tree.  With more workers than that the pool is never stuck
(`Inv.not_stuck`): a task waits for tasks that were spawned later only, and the
last one that is not completed can be run.

| | |
| :-- | :-- |
| `Task` | the tree |
| `Pc`, `Step` | where a thread is, and one section |
| `Stuck` | some task is not completed, and no thread can go on |
| `Shape` | what holds of the jobs of the threads, whatever they wait for |
-/
import Limceron.Lib.Monitors
import Limceron.Lib.Systems
import Limceron.Runtime.TaskPool
import Mathlib.Algebra.Order.BigOperators.Group.Finset
import Mathlib.Data.Fintype.BigOperators
import Mathlib.Data.Fintype.Option

namespace Limceron.Runtime.Nesting

open Systems Monitors

/-! ## Trees of tasks -/

/-- The body of a task: it spawns its children, and then waits for them in order. -/
inductive Task where
  | awaits
  | spawns (child rest : Task)
  deriving DecidableEq

namespace Task

/-- A task with children is kept while it waits. -/
def waits : Task → ℕ
  | awaits => 0
  | spawns _ _ => 1

/-- The tasks with children, among the children and theirs. -/
def waiters : Task → ℕ
  | awaits => 0
  | spawns child rest => child.waits + child.waiters + rest.waiters

end Task

/-! ## The system -/

/-- What a thread has to do: the task it runs, if it is a worker, what it has yet to spawn, and the
handles it has yet to wait for. -/
structure Job where
  self : Option ℕ
  todo : Task
  kids : List ℕ

def Job.none : Job :=
  ⟨Option.none, .awaits, []⟩

/-- Where a thread is.  A worker waits for tasks (`asleep`), any thread waits for its first handle
(`asleepOn`), and only the caller is ever `done`. -/
inductive Pc where
  | ready
  | asleep
  | body (job : Job)
  | asleepOn (job : Job)
  | done

namespace Pc

/-- A wait ends. -/
def woken : Pc → Pc
  | asleep => ready
  | asleepOn job => body job
  | pc => pc

def job : Pc → Job
  | body job => job
  | asleepOn job => job
  | _ => .none

/-- The thread sleeps on the condition of this handle. -/
def OnHandle (handle : ℕ) (pc : Pc) : Prop :=
  ∃ job kids, pc = asleepOn job ∧ job.kids = handle :: kids

@[simp] theorem job_woken (pc : Pc) : pc.woken.job = pc.job := by
  cases pc <;> rfl

end Pc

/-- The caller, and the workers. -/
abbrev Thread (n : ℕ) := Option (Fin n)

/-- The pool, the threads, and the handles that are completed. -/
structure State (n : ℕ) where
  queue : LcnTaskQueue (ℕ × Task)
  pc : Thread n → Pc
  spawned : ℕ
  completed : List ℕ

/-- The sections. -/
inductive Action (n : ℕ) where
  | check (i : Fin n)
  | spawn (t : Thread n)
  | await (t : Thread n)
  | complete (i : Fin n)
  | returns
  | wake (t : Thread n)

section
variable {n : ℕ}

/-- The pool has its workers, and the caller begins. -/
def State.start (n : ℕ) (root : Task) : State n where
  queue := .init
  pc := fun t => t.elim (.body ⟨none, root, []⟩) fun _ => .ready
  spawned := 0
  completed := []

def State.goto (s : State n) (t : Thread n) (v : Pc) : State n :=
  { s with pc := Function.update s.pc t v }

/-- A worker has the lock of the queue; it never leaves its loop here. -/
def State.check (s : State n) (i : Fin n) : State n :=
  match s.queue.workerSection with
  | .waits => s.goto (some i) .asleep
  | .leaves => s.goto (some i) .done
  | .takes (handle, task) queue =>
      { s.goto (some i) (.body ⟨some handle, task, []⟩) with queue := queue }
  | .again => s

/-- One section.  Where a condition is signalled, any thread that sleeps on it may be woken. -/
inductive Step (s : State n) : Action n → State n → Prop where
  -- `worker_loop`
  | check {i : Fin n} : s.pc (some i) = .ready → Step s (.check i) (s.check i)
  | complete {i : Fin n} {handle : ℕ} {w : Option (Thread n)} {pc : Thread n → Pc} :
      s.pc (some i) = .body ⟨some handle, .awaits, []⟩ →
      Signal (Pc.OnHandle handle) Pc.woken (Function.update s.pc (some i) .ready) w pc →
      Step s (.complete i) { s with pc := pc, completed := handle :: s.completed }
  -- `lcn_spawn_task`
  | spawn {t : Thread n} {self : Option ℕ} {child rest : Task} {kids : List ℕ}
      {w : Option (Thread n)} {pc : Thread n → Pc} :
      s.pc t = .body ⟨self, .spawns child rest, kids⟩ →
      Signal (· = .asleep) Pc.woken
        (Function.update s.pc t (.body ⟨self, rest, kids ++ [s.spawned]⟩)) w pc →
      Step s (.spawn t)
        { s with queue := s.queue.push (s.spawned, child), pc := pc, spawned := s.spawned + 1 }
  -- `lcn_await_task`
  | awaitDone {t : Thread n} {self : Option ℕ} {kid : ℕ} {kids : List ℕ} :
      s.pc t = .body ⟨self, .awaits, kid :: kids⟩ → kid ∈ s.completed →
      Step s (.await t) (s.goto t (.body ⟨self, .awaits, kids⟩))
  | awaitWaits {t : Thread n} {self : Option ℕ} {kid : ℕ} {kids : List ℕ} :
      s.pc t = .body ⟨self, .awaits, kid :: kids⟩ → kid ∉ s.completed →
      Step s (.await t) (s.goto t (.asleepOn ⟨self, .awaits, kid :: kids⟩))
  -- the caller has waited for all its tasks
  | returns : s.pc none = .body ⟨none, .awaits, []⟩ → Step s .returns (s.goto none .done)
  -- a wait may also end without a signal
  | wake {t : Thread n} : s.pc t = .asleep ∨ (∃ job, s.pc t = .asleepOn job) →
      Step s (.wake t) (s.goto t (s.pc t).woken)

/-- Some task that was spawned is not completed, and threads can only wake up for nothing. -/
def Stuck (s : State n) : Prop :=
  (∃ handle < s.spawned, handle ∉ s.completed) ∧ ∀ a s', Step s a s' → ∃ t, a = .wake t

/-- The states of the pool while the caller runs `root`. -/
def Reachable (root : Task) (s : State n) : Prop :=
  Reached (· = State.start n root) Step (fun _ _ => True) s

/-- With `n` workers, no order of the sections gets stuck. -/
def DeadlockFree (n : ℕ) (root : Task) : Prop :=
  ∀ s : State n, Reachable root s → ¬ Stuck s

end

/-! ## Jobs -/

namespace Job

/-- The job has something to wait for, or will have. -/
def waits (job : Job) : ℕ :=
  if job.kids = [] then job.todo.waits else 1

/-- What a job adds to the tasks that are kept: itself, if a worker has it, and what it spawns. -/
def weight {n : ℕ} (t : Thread n) (job : Job) : ℕ :=
  t.elim 0 (fun _ => job.waits) + job.todo.waiters

end Job

def jobsWeight {n : ℕ} (jobs : Thread n → Job) : ℕ :=
  ∑ t, (jobs t).weight t

def queueWeight (tasks : List (ℕ × Task)) : ℕ :=
  (tasks.map fun x => x.2.waits + x.2.waiters).sum

/-- Each handle is completed, or in the queue, or a worker runs it; a task waits for later ones; a
handle has one owner; and the tasks with children are those of the tree. -/
structure Shape {n : ℕ} (root : Task) (tasks : List (ℕ × Task)) (spawned : ℕ) (completed : List ℕ)
    (jobs : Thread n → Job) : Prop where
  placed : ∀ handle < spawned, handle ∈ completed ∨ (∃ task, (handle, task) ∈ tasks) ∨
    ∃ i, (jobs (some i)).self = some handle
  queued_lt : ∀ handle task, (handle, task) ∈ tasks → handle < spawned
  self_lt : ∀ t handle, (jobs t).self = some handle → handle < spawned
  kids_lt : ∀ t, ∀ kid ∈ (jobs t).kids, kid < spawned
  later : ∀ t handle, (jobs t).self = some handle → ∀ kid ∈ (jobs t).kids, handle < kid
  apart : ∀ t u kid, kid ∈ (jobs t).kids → kid ∈ (jobs u).kids → t = u
  weight : jobsWeight jobs + queueWeight tasks ≤ root.waiters

theorem queueWeight_cons (handle : ℕ) (task : Task) (tasks : List (ℕ × Task)) :
    queueWeight ((handle, task) :: tasks) = task.waits + task.waiters + queueWeight tasks :=
  rfl

theorem queueWeight_push (tasks : List (ℕ × Task)) (handle : ℕ) (task : Task) :
    queueWeight (tasks ++ [(handle, task)]) = queueWeight tasks + (task.waits + task.waiters) := by
  simp [queueWeight]

section
variable {n : ℕ} {jobs : Thread n → Job}

/-- A worker that takes a task takes its weight from the queue. -/
theorem jobsWeight_takes {i : Fin n} (hi : jobs (some i) = .none) (handle : ℕ) (task : Task) :
    jobsWeight (Function.update jobs (some i) ⟨some handle, task, []⟩) =
      jobsWeight jobs + (task.waits + task.waiters) := by
  have hsum := sum_update (Finset.mem_univ (some i)) Job.weight jobs ⟨some handle, task, []⟩
  rw [hi] at hsum
  exact hsum

/-- A thread that spawns a task gives its weight to the queue. -/
theorem jobsWeight_spawns {t : Thread n} {self : Option ℕ} {child rest : Task} {kids : List ℕ}
    (ht : jobs t = ⟨self, .spawns child rest, kids⟩) (handle : ℕ) :
    jobsWeight (Function.update jobs t ⟨self, rest, kids ++ [handle]⟩) +
      (child.waits + child.waiters) = jobsWeight jobs := by
  have hsum := sum_update (Finset.mem_univ t) Job.weight jobs ⟨self, rest, kids ++ [handle]⟩
  have hweight : Job.weight t ⟨self, rest, kids ++ [handle]⟩ + (child.waits + child.waiters) =
      Job.weight t (jobs t) := by
    rw [ht]
    cases t with
    | none =>
        show 0 + rest.waiters + _ = 0 + (child.waits + child.waiters + rest.waiters)
        omega
    | some i =>
        have hnew : Job.waits ⟨self, rest, kids ++ [handle]⟩ = 1 := if_neg (by simp)
        have hold : Job.waits ⟨self, .spawns child rest, kids⟩ = 1 := by
          unfold Job.waits
          split <;> rfl
        show Job.waits _ + rest.waiters + _ =
          Job.waits _ + (child.waits + child.waiters + rest.waiters)
        omega
  unfold jobsWeight
  omega

end

namespace Shape

variable {n : ℕ} {root : Task} {tasks : List (ℕ × Task)} {spawned : ℕ} {completed : List ℕ}
  {jobs : Thread n → Job}

theorem start (n : ℕ) (root : Task) :
    Shape root [] 0 [] fun t : Thread n => t.elim ⟨none, root, []⟩ fun _ => .none where
  placed := fun handle hlt => absurd hlt (Nat.not_lt_zero handle)
  queued_lt := fun handle task hmem => absurd hmem List.not_mem_nil
  self_lt := by rintro (_ | i) handle ⟨⟩
  kids_lt := by rintro (_ | i) kid ⟨⟩
  later := by rintro (_ | i) handle ⟨⟩
  apart := by rintro (_ | i) u kid ⟨⟩
  weight := by
    rw [jobsWeight, Fintype.sum_option]
    simp [Job.weight, Job.waits, Job.none, Task.waits, Task.waiters, queueWeight]

/-- A handle that a thread has to wait for after a move that adds none. -/
theorem mem_kids_update {t : Thread n} {v : Job} (hv : v.kids ⊆ (jobs t).kids)
    {u : Thread n} {kid : ℕ} (hkid : kid ∈ (Function.update jobs t v u).kids) :
    kid ∈ (jobs u).kids := by
  by_cases hut : u = t
  · subst hut
    rw [Function.update_self] at hkid
    exact hv hkid
  · rwa [Function.update_of_ne hut] at hkid

/-- A worker takes the first task of the queue. -/
theorem takes {handle : ℕ} {task : Task} {i : Fin n}
    (h : Shape root ((handle, task) :: tasks) spawned completed jobs)
    (hi : jobs (some i) = .none) :
    Shape root tasks spawned completed
      (Function.update jobs (some i) ⟨some handle, task, []⟩) where
  placed := by
    intro x hx
    rcases h.placed x hx with hdone | ⟨other, hmem⟩ | ⟨j, hj⟩
    · exact .inl hdone
    · rcases List.mem_cons.1 hmem with heq | hmem
      · cases heq
        refine .inr (.inr ⟨i, ?_⟩)
        rw [Function.update_self]
      · exact .inr (.inl ⟨other, hmem⟩)
    · refine .inr (.inr ⟨j, ?_⟩)
      have hji : (some j : Thread n) ≠ some i := by
        intro hji
        rw [hji, hi] at hj
        cases hj
      rw [Function.update_of_ne hji]
      exact hj
  queued_lt := fun x other hmem => h.queued_lt x other (List.mem_cons_of_mem _ hmem)
  self_lt := by
    refine (Function.forall_update_iff jobs fun _ job => ∀ x, job.self = some x → x < spawned).2
      ⟨?_, fun t _ => h.self_lt t⟩
    rintro x ⟨⟩
    exact h.queued_lt handle task List.mem_cons_self
  kids_lt := fun t kid hkid => h.kids_lt t kid (mem_kids_update (List.nil_subset _) hkid)
  later := by
    refine (Function.forall_update_iff jobs fun _ job =>
      ∀ x, job.self = some x → ∀ kid ∈ job.kids, x < kid).2 ⟨nofun, fun t _ => h.later t⟩
  apart := fun t u kid ht hu =>
    h.apart t u kid (mem_kids_update (List.nil_subset _) ht) (mem_kids_update (List.nil_subset _) hu)
  weight := by
    have hle := h.weight
    rw [queueWeight_cons] at hle
    rw [jobsWeight_takes hi]
    omega

/-- A thread spawns a task. -/
theorem spawns {t : Thread n} {self : Option ℕ} {child rest : Task} {kids : List ℕ}
    (h : Shape root tasks spawned completed jobs)
    (ht : jobs t = ⟨self, .spawns child rest, kids⟩) :
    Shape root (tasks ++ [(spawned, child)]) (spawned + 1) completed
      (Function.update jobs t ⟨self, rest, kids ++ [spawned]⟩) where
  placed := by
    intro x hx
    rcases Nat.lt_succ_iff_lt_or_eq.1 hx with hlt | rfl
    · rcases h.placed x hlt with hdone | ⟨other, hmem⟩ | ⟨j, hj⟩
      · exact .inl hdone
      · exact .inr (.inl ⟨other, List.mem_append_left _ hmem⟩)
      · refine .inr (.inr ⟨j, ?_⟩)
        by_cases hjt : (some j : Thread n) = t
        · subst hjt
          rw [Function.update_self]
          rwa [ht] at hj
        · rwa [Function.update_of_ne hjt]
    · exact .inr (.inl ⟨child, List.mem_append_right _ (List.mem_singleton_self _)⟩)
  queued_lt := by
    intro x other hmem
    rcases List.mem_append.1 hmem with hold | hnew
    · exact (h.queued_lt x other hold).trans (Nat.lt_succ_self _)
    · cases List.mem_singleton.1 hnew
      exact Nat.lt_succ_self _
  self_lt := by
    refine (Function.forall_update_iff jobs fun _ job => ∀ x, job.self = some x → x < spawned + 1).2
      ⟨fun x hx => ?_, fun u _ x hx => (h.self_lt u x hx).trans (Nat.lt_succ_self _)⟩
    exact (h.self_lt t x (by rw [ht]; exact hx)).trans (Nat.lt_succ_self _)
  kids_lt := by
    refine (Function.forall_update_iff jobs fun _ job => ∀ kid ∈ job.kids, kid < spawned + 1).2
      ⟨fun kid hkid => ?_, fun u _ kid hkid => (h.kids_lt u kid hkid).trans (Nat.lt_succ_self _)⟩
    rcases List.mem_append.1 hkid with hold | hnew
    · exact (h.kids_lt t kid (by rw [ht]; exact hold)).trans (Nat.lt_succ_self _)
    · rw [List.mem_singleton.1 hnew]
      exact Nat.lt_succ_self _
  later := by
    refine (Function.forall_update_iff jobs fun _ job =>
      ∀ x, job.self = some x → ∀ kid ∈ job.kids, x < kid).2
      ⟨fun x hx kid hkid => ?_, fun u _ => h.later u⟩
    have hself : (jobs t).self = some x := by rw [ht]; exact hx
    rcases List.mem_append.1 hkid with hold | hnew
    · exact h.later t x hself kid (by rw [ht]; exact hold)
    · rw [List.mem_singleton.1 hnew]
      exact h.self_lt t x hself
  apart := by
    -- the new handle is nobody's yet
    have hkids : ∀ u kid, kid ∈ (Function.update jobs t ⟨self, rest, kids ++ [spawned]⟩ u).kids →
        kid ∈ (jobs u).kids ∨ u = t ∧ kid = spawned := by
      refine (Function.forall_update_iff jobs fun u job =>
        ∀ kid ∈ job.kids, kid ∈ (jobs u).kids ∨ u = t ∧ kid = spawned).2
        ⟨fun kid hkid => ?_, fun u _ kid hkid => .inl hkid⟩
      rcases List.mem_append.1 hkid with hold | hnew
      · exact .inl (by rw [ht]; exact hold)
      · exact .inr ⟨rfl, List.mem_singleton.1 hnew⟩
    intro u u' kid hu hu'
    rcases hkids u kid hu with hold | ⟨rfl, rfl⟩
    · rcases hkids u' kid hu' with hold' | ⟨rfl, rfl⟩
      · exact h.apart u u' kid hold hold'
      · exact absurd (h.kids_lt u _ hold) (lt_irrefl _)
    · rcases hkids u' _ hu' with hold' | ⟨rfl, -⟩
      · exact absurd (h.kids_lt u' _ hold') (lt_irrefl _)
      · rfl
  weight := by
    have hsum := jobsWeight_spawns ht spawned
    have hle := h.weight
    rw [queueWeight_push]
    omega

/-- A thread has waited for its first handle. -/
theorem waited {t : Thread n} {self : Option ℕ} {kid : ℕ} {kids : List ℕ}
    (h : Shape root tasks spawned completed jobs)
    (ht : jobs t = ⟨self, .awaits, kid :: kids⟩) :
    Shape root tasks spawned completed (Function.update jobs t ⟨self, .awaits, kids⟩) where
  placed := by
    intro x hx
    refine (h.placed x hx).imp_right (Or.imp_right ?_)
    rintro ⟨j, hj⟩
    refine ⟨j, ?_⟩
    by_cases hjt : (some j : Thread n) = t
    · subst hjt
      rw [Function.update_self]
      rwa [ht] at hj
    · rwa [Function.update_of_ne hjt]
  queued_lt := h.queued_lt
  self_lt := by
    refine (Function.forall_update_iff jobs fun _ job => ∀ x, job.self = some x → x < spawned).2
      ⟨fun x hx => h.self_lt t x (by rw [ht]; exact hx), fun u _ => h.self_lt u⟩
  kids_lt := fun u k hk => h.kids_lt u k (mem_kids_update (by rw [ht]; exact List.subset_cons_self kid kids) hk)
  later := by
    refine (Function.forall_update_iff jobs fun _ job =>
      ∀ x, job.self = some x → ∀ k ∈ job.kids, x < k).2
      ⟨fun x hx k hk => ?_, fun u _ => h.later u⟩
    exact h.later t x (by rw [ht]; exact hx) k (by rw [ht]; exact List.mem_cons_of_mem _ hk)
  apart := fun u u' k hu hu' =>
    h.apart u u' k (mem_kids_update (by rw [ht]; exact List.subset_cons_self kid kids) hu)
      (mem_kids_update (by rw [ht]; exact List.subset_cons_self kid kids) hu')
  weight := by
    have hsum : jobsWeight (Function.update jobs t ⟨self, .awaits, kids⟩) + _ = jobsWeight jobs + _ :=
      sum_update (Finset.mem_univ t) Job.weight jobs ⟨self, .awaits, kids⟩
    have hle := h.weight
    have hweight : Job.weight t ⟨self, .awaits, kids⟩ ≤ Job.weight t (jobs t) := by
      rw [ht]
      cases t with
      | none => exact le_refl _
      | some i =>
          show Job.waits _ + 0 ≤ 1 + 0
          unfold Job.waits
          split
          · exact Nat.zero_le _
          · exact le_refl _
    omega

/-- A worker has completed its task. -/
theorem completes {i : Fin n} {handle : ℕ} (h : Shape root tasks spawned completed jobs)
    (hi : jobs (some i) = ⟨some handle, .awaits, []⟩) :
    Shape root tasks spawned (handle :: completed) (Function.update jobs (some i) .none) where
  placed := by
    intro x hx
    rcases h.placed x hx with hdone | hqueued | ⟨j, hj⟩
    · exact .inl (List.mem_cons_of_mem _ hdone)
    · exact .inr (.inl hqueued)
    · by_cases hji : j = i
      · subst hji
        rw [hi] at hj
        cases hj
        exact .inl List.mem_cons_self
      · refine .inr (.inr ⟨j, ?_⟩)
        rwa [Function.update_of_ne (fun he => hji (Option.some.inj he))]
  queued_lt := h.queued_lt
  self_lt := by
    refine (Function.forall_update_iff jobs fun _ job => ∀ x, job.self = some x → x < spawned).2
      ⟨nofun, fun u _ => h.self_lt u⟩
  kids_lt := fun u k hk => h.kids_lt u k (mem_kids_update (List.nil_subset _) hk)
  later := by
    refine (Function.forall_update_iff jobs fun _ job =>
      ∀ x, job.self = some x → ∀ k ∈ job.kids, x < k).2 ⟨nofun, fun u _ => h.later u⟩
  apart := fun u u' k hu hu' =>
    h.apart u u' k (mem_kids_update (List.nil_subset _) hu) (mem_kids_update (List.nil_subset _) hu')
  weight := by
    have hsum : jobsWeight (Function.update jobs (some i) .none) + _ = jobsWeight jobs + _ :=
      sum_update (Finset.mem_univ _) Job.weight jobs .none
    have hle := h.weight
    have hnone : Job.weight (some i : Thread n) .none = 0 := rfl
    omega

end Shape

/-! ## The threads -/

namespace Pc

variable {n : ℕ}

/-- Workers have the task they run, and the caller never is at the queue. -/
def Fits : Thread n → Pc → Prop
  | some _, ready => True
  | some _, asleep => True
  | some _, body job => ∃ handle, job.self = some handle
  | some _, asleepOn job => ∃ handle, job.self = some handle
  | some _, done => False
  | none, ready => False
  | none, asleep => False
  | none, body job => job.self = none
  | none, asleepOn job => job.self = none
  | none, done => True

theorem Fits.woken {t : Thread n} {pc : Pc} (h : pc.Fits t) : pc.woken.Fits t := by
  cases t <;> cases pc <;> exact h

end Pc

section
variable {n : ℕ}

/-- The jobs have their shape, no task waits in the queue while a worker sleeps and none is awake,
and a thread sleeps only on a handle that is not completed. -/
structure Inv (root : Task) (s : State n) : Prop where
  shape : Shape root s.queue.tasks s.spawned s.completed fun t => (s.pc t).job
  running : s.queue.shutdown = false
  served : Served (· = .asleep) (· = .ready) s.queue.tasks.length s.pc
  fits : ∀ t, (s.pc t).Fits t
  waiting : ∀ t job, s.pc t = .asleepOn job →
    ∃ kid kids, job = ⟨job.self, .awaits, kid :: kids⟩ ∧ kid ∉ s.completed

variable {root : Task} {s s' : State n} {a : Action n}

theorem Inv.start (root : Task) : Inv root (State.start n root) where
  shape := by
    have hjobs : (fun t => ((State.start n root).pc t).job) =
        fun t : Thread n => t.elim ⟨none, root, []⟩ fun _ => .none := by
      funext t
      cases t <;> rfl
    rw [hjobs]
    exact Shape.start n root
  running := rfl
  served := served_zero _ _ _
  fits := by rintro (_ | i) <;> trivial
  waiting := by rintro (_ | i) job ⟨⟩

theorem jobs_update (pc : Thread n → Pc) (t : Thread n) (v : Pc) :
    (fun u => (Function.update pc t v u).job) = Function.update (fun u => (pc u).job) t v.job :=
  funext (Function.apply_update (fun _ => Pc.job) pc t v)

/-- Moves that leave a thread's job as it is. -/
theorem jobs_update_same {pc : Thread n → Pc} {t : Thread n} {v : Pc} (hv : v.job = (pc t).job) :
    (fun u => (Function.update pc t v u).job) = fun u => (pc u).job := by
  rw [jobs_update, hv]
  exact Function.update_eq_self t fun u => (pc u).job

/-- Who is woken has the job that it had. -/
theorem jobs_signal {sleeps : Pc → Prop} {pc pc' : Thread n → Pc} {w : Option (Thread n)}
    (h : Signal sleeps Pc.woken pc w pc') : (fun u => (pc' u).job) = fun u => (pc u).job := by
  funext u
  refine (h.kept (P := fun v => v.job = (pc u).job) (fun v _ => ?_) u).2 rfl
  rw [Pc.job_woken]

theorem fits_update {pc : Thread n → Pc} {t : Thread n} {v : Pc} (h : ∀ u, (pc u).Fits u)
    (hv : v.Fits t) : ∀ u, (Function.update pc t v u).Fits u :=
  (Function.forall_update_iff pc fun u v => v.Fits u).2 ⟨hv, fun u _ => h u⟩

theorem fits_signal {sleeps : Pc → Prop} {pc pc' : Thread n → Pc} {w : Option (Thread n)}
    (hsignal : Signal sleeps Pc.woken pc w pc') (h : ∀ u, (pc u).Fits u) (u : Thread n) :
    (pc' u).Fits u := by
  by_cases hw : w = some u
  · subst hw
    rw [hsignal.woke.2]
    exact (h u).woken
  · rw [hsignal.other hw]
    exact h u

/-- A thread that sleeps on a handle after another has moved did so before. -/
theorem asleepOn_update {pc : Thread n → Pc} {t u : Thread n} {v : Pc} {job : Job}
    (hu : Function.update pc t v u = .asleepOn job) (hv : ∀ job, v ≠ .asleepOn job) :
    u ≠ t ∧ pc u = .asleepOn job := by
  have hut : u ≠ t := by
    rintro rfl
    rw [Function.update_self] at hu
    exact hv job hu
  exact ⟨hut, (Function.update_of_ne hut v pc).symm.trans hu⟩

theorem asleepOn_signal {sleeps : Pc → Prop} {pc pc' : Thread n → Pc} {w : Option (Thread n)}
    (hsignal : Signal sleeps Pc.woken pc w pc') {u : Thread n} {job : Job}
    (hu : pc' u = .asleepOn job) : w ≠ some u ∧ pc u = .asleepOn job := by
  have hw : w ≠ some u := by
    rintro rfl
    rw [hsignal.woke.2] at hu
    cases hpc : pc u <;> rw [hpc] at hu <;> cases hu
  exact ⟨hw, (hsignal.other hw).symm.trans hu⟩

/-! ## One step -/

/-- A worker that finds a task takes it. -/
theorem check_takes {handle : ℕ} {task : Task} {rest : List (ℕ × Task)} (i : Fin n)
    (htasks : s.queue.tasks = (handle, task) :: rest) :
    s.check i = { s.goto (some i) (.body ⟨some handle, task, []⟩) with
      queue := { s.queue with tasks := rest } } := by
  rcases s.queue.workerSection_cases with ⟨hnil, -, -⟩ | ⟨hnil, -, -⟩ | ⟨x, rest', htasks', hsection⟩
  · rw [htasks] at hnil
    cases hnil
  · rw [htasks] at hnil
    cases hnil
  · cases htasks.symm.trans htasks'
    rw [State.check, hsection]

theorem Inv.check (h : Inv root s) {i : Fin n} (hi : s.pc (some i) = .ready) :
    Inv root (s.check i) := by
  have hjob : (s.pc (some i)).job = .none := by
    rw [hi]
    rfl
  rcases s.queue.workerSection_cases with ⟨hnil, -, hsection⟩ | ⟨-, hshut, -⟩ |
    ⟨⟨handle, task⟩, rest, htasks, -⟩
  · rw [State.check, hsection]
    refine ⟨?_, h.running, ?_, fits_update h.fits trivial, ?_⟩
    · show Shape root _ _ _ fun u => (Function.update s.pc (some i) .asleep u).job
      rw [jobs_update_same (v := .asleep) hjob.symm]
      exact h.shape
    · show Served _ _ s.queue.tasks.length _
      rw [hnil]
      exact served_zero _ _ _
    · intro u job hu
      exact h.waiting u job (asleepOn_update hu nofun).2
  · rw [h.running] at hshut
    cases hshut
  · rw [check_takes i htasks]
    refine ⟨?_, h.running, ?_, fits_update h.fits ⟨handle, rfl⟩, ?_⟩
    · show Shape root rest _ _ fun u => (Function.update s.pc (some i) _ u).job
      rw [jobs_update]
      refine Shape.takes ?_ hjob
      rw [← htasks]
      exact h.shape
    · have htake := h.served.take (t := some i) (v := .body ⟨some handle, task, []⟩) nofun
      rw [htasks] at htake
      exact htake
    · intro u job hu
      exact h.waiting u job (asleepOn_update hu nofun).2

theorem Inv.complete (h : Inv root s) {i : Fin n} {handle : ℕ} {w : Option (Thread n)}
    {pc : Thread n → Pc} (hi : s.pc (some i) = .body ⟨some handle, .awaits, []⟩)
    (hsignal : Signal (Pc.OnHandle handle) Pc.woken (Function.update s.pc (some i) .ready) w pc) :
    Inv root { s with pc := pc, completed := handle :: s.completed } where
  shape := by
    show Shape root _ _ _ fun u => (pc u).job
    rw [jobs_signal hsignal, jobs_update]
    exact h.shape.completes (by rw [hi]; rfl)
  running := h.running
  served := by
    refine (h.served.move (t := some i) (fun _ => rfl) nofun).weaken (fun u hu => ?_) fun u hu => ?_
    · refine (hsignal.kept (P := (· = Pc.asleep)) ?_ u).1 hu
      rintro v ⟨job, kids, rfl, -⟩
      exact ⟨nofun, nofun⟩
    · refine (hsignal.kept (P := (· = Pc.ready)) ?_ u).2 hu
      rintro v ⟨job, kids, rfl, -⟩
      exact ⟨nofun, nofun⟩
  fits := fits_signal hsignal (fits_update h.fits trivial)
  waiting := by
    intro u job hu
    obtain ⟨hwu, hbase⟩ := asleepOn_signal hsignal hu
    obtain ⟨hui, hold⟩ := asleepOn_update hbase nofun
    obtain ⟨kid, kids, hjob, hkid⟩ := h.waiting u job hold
    refine ⟨kid, kids, hjob, fun hmem => ?_⟩
    rcases List.mem_cons.1 hmem with rfl | hmem
    · -- the thread that has this handle is the one that was woken
      cases hsignal with
      | none hnone => exact hnone u ⟨job, kids, hbase, by rw [hjob]⟩
      | @one u' hsleeps =>
          obtain ⟨job', kids', hbase', hkids'⟩ := hsleeps
          obtain ⟨-, hold'⟩ := asleepOn_update hbase' nofun
          have hmine : kid ∈ (s.pc u).job.kids := by
            rw [hold, hjob]
            exact List.mem_cons_self
          have hother : kid ∈ (s.pc u').job.kids := by
            rw [hold']
            show kid ∈ job'.kids
            rw [hkids']
            exact List.mem_cons_self
          exact hwu (congrArg some (h.shape.apart u' u kid hother hmine))
    · exact hkid hmem

theorem Inv.spawn (h : Inv root s) {t : Thread n} {self : Option ℕ} {child rest : Task}
    {kids : List ℕ} {w : Option (Thread n)} {pc : Thread n → Pc}
    (ht : s.pc t = .body ⟨self, .spawns child rest, kids⟩)
    (hsignal : Signal (· = .asleep) Pc.woken
      (Function.update s.pc t (.body ⟨self, rest, kids ++ [s.spawned]⟩)) w pc) :
    Inv root
      { s with queue := s.queue.push (s.spawned, child), pc := pc, spawned := s.spawned + 1 } where
  shape := by
    show Shape root _ _ _ fun u => (pc u).job
    rw [jobs_signal hsignal, jobs_update]
    exact h.shape.spawns (by rw [ht]; rfl)
  running := h.running
  served := by
    show Served _ _ (s.queue.tasks ++ [(s.spawned, child)]).length _
    rw [List.length_append]
    refine Served.signal ?_ hsignal fun u _ hu => ?_
    · refine h.served.move (fun hready => ?_) nofun
      rw [ht] at hready
      cases hready
    · rw [show _ = Pc.asleep from hu]
      exact ⟨nofun, rfl⟩
  fits := by
    have hself := h.fits t
    rw [ht] at hself
    refine fits_signal hsignal (fits_update h.fits ?_)
    cases t <;> exact hself
  waiting := fun u job hu =>
    h.waiting u job (asleepOn_update (asleepOn_signal hsignal hu).2 nofun).2

/-- A thread that goes on without the queue, or begins to sleep on a handle. -/
theorem Inv.goto (h : Inv root s) {t : Thread n} {v : Pc}
    (hshape : Shape root s.queue.tasks s.spawned s.completed
      (Function.update (fun u => (s.pc u).job) t v.job))
    (hready : s.pc t = .ready → v = .ready) (hasleep : v ≠ .asleep) (hfits : v.Fits t)
    (hwaiting : ∀ job, v = .asleepOn job →
      ∃ kid kids, job = ⟨job.self, .awaits, kid :: kids⟩ ∧ kid ∉ s.completed) :
    Inv root (s.goto t v) where
  shape := by
    show Shape root _ _ _ fun u => (Function.update s.pc t v u).job
    rw [jobs_update]
    exact hshape
  running := h.running
  served := h.served.move hready hasleep
  fits := fits_update h.fits hfits
  waiting := by
    refine (Function.forall_update_iff s.pc fun _ v => ∀ job, v = .asleepOn job →
      ∃ kid kids, job = ⟨job.self, .awaits, kid :: kids⟩ ∧ kid ∉ s.completed).2 ⟨hwaiting, ?_⟩
    exact fun u _ => h.waiting u

/-- A thread that goes on with the job that it has. -/
theorem Inv.goto_same (h : Inv root s) {t : Thread n} {v : Pc} (hjob : v.job = (s.pc t).job)
    (hready : s.pc t = .ready → v = .ready) (hasleep : v ≠ .asleep) (hfits : v.Fits t)
    (hwaiting : ∀ job, v = .asleepOn job →
      ∃ kid kids, job = ⟨job.self, .awaits, kid :: kids⟩ ∧ kid ∉ s.completed) :
    Inv root (s.goto t v) := by
  refine h.goto ?_ hready hasleep hfits hwaiting
  rw [← jobs_update, jobs_update_same hjob]
  exact h.shape

theorem Inv.step (h : Inv root s) (hstep : Step s a s') : Inv root s' := by
  cases hstep with
  | check hi => exact h.check hi
  | complete hi hsignal => exact h.complete hi hsignal
  | spawn ht hsignal => exact h.spawn ht hsignal
  | @awaitDone t self kid kids ht _ =>
      have hfits := h.fits t
      rw [ht] at hfits
      refine h.goto (h.shape.waited (by rw [ht]; rfl)) (by simp [ht]) nofun ?_ nofun
      cases t <;> exact hfits
  | @awaitWaits t self kid kids ht hkid =>
      have hfits := h.fits t
      rw [ht] at hfits
      refine h.goto_same (by rw [ht]; rfl) (by simp [ht]) nofun ?_ ?_
      · cases t <;> exact hfits
      · rintro job ⟨⟩
        exact ⟨kid, kids, rfl, hkid⟩
  | returns ht => exact h.goto_same (by rw [ht]; rfl) (by simp [ht]) nofun trivial nofun
  | @wake t ht =>
      refine h.goto_same (Pc.job_woken _) ?_ ?_ (h.fits t).woken ?_
      · intro hready
        rw [hready]
        rfl
      · rcases ht with ht | ⟨job, ht⟩
        · rw [ht]
          exact nofun
        · rw [ht]
          exact nofun
      · rcases ht with ht | ⟨job, ht⟩
        · rw [ht]
          exact nofun
        · rw [ht]
          exact nofun

theorem Reachable.inv (h : Reachable root s) : Inv root s := by
  refine Reached.invariant h ?_ fun s a s' hinv _ hstep => hinv.step hstep
  rintro s rfl
  exact Inv.start root

/-! ## No deadlock -/

/-- In a stuck pool all workers sleep. -/
theorem Inv.sleeps (h : Inv root s) (hstuck : Stuck s) (i : Fin n) :
    s.pc (some i) = .asleep ∨ ∃ job, s.pc (some i) = .asleepOn job := by
  have hfits := h.fits (some i)
  cases hi : s.pc (some i) with
  | ready =>
      obtain ⟨t, ht⟩ := hstuck.2 _ _ (.check hi)
      cases ht
  | asleep => exact .inl rfl
  | body job =>
      rw [hi] at hfits
      obtain ⟨self, todo, kids⟩ := job
      obtain ⟨handle, rfl⟩ : ∃ handle, self = some handle := hfits
      exfalso
      cases todo with
      | spawns child rest =>
          obtain ⟨w, pc, hsignal⟩ := exists_signal (· = .asleep) Pc.woken
            (Function.update s.pc (some i) (.body ⟨some handle, rest, kids ++ [s.spawned]⟩))
          obtain ⟨t, ht⟩ := hstuck.2 _ _ (.spawn hi hsignal)
          cases ht
      | awaits =>
          cases kids with
          | nil =>
              obtain ⟨w, pc, hsignal⟩ := exists_signal (Pc.OnHandle handle) Pc.woken
                (Function.update s.pc (some i) .ready)
              obtain ⟨t, ht⟩ := hstuck.2 _ _ (.complete hi hsignal)
              cases ht
          | cons kid kids =>
              by_cases hkid : kid ∈ s.completed
              · obtain ⟨t, ht⟩ := hstuck.2 _ _ (.awaitDone hi hkid)
                cases ht
              · obtain ⟨t, ht⟩ := hstuck.2 _ _ (.awaitWaits hi hkid)
                cases ht
  | asleepOn job => exact .inr ⟨job, rfl⟩
  | done =>
      rw [hi] at hfits
      exact hfits.elim

/-- Not all workers are kept by tasks that wait. -/
theorem Inv.exists_asleep (h : Inv root s) (hroot : root.waiters < n) (hstuck : Stuck s) :
    ∃ i, s.pc (some i) = .asleep := by
  by_contra hnone
  have hkept : ∀ i : Fin n, 1 ≤ Job.weight (some i) (s.pc (some i)).job := by
    intro i
    rcases h.sleeps hstuck i with hi | ⟨job, hi⟩
    · exact absurd ⟨i, hi⟩ hnone
    · obtain ⟨kid, kids, hjob, -⟩ := h.waiting _ job hi
      rw [hi, Pc.job, hjob]
      exact le_refl 1
  have hle := h.shape.weight
  have hcard : n ≤ ∑ i : Fin n, Job.weight (some i) (s.pc (some i)).job := by
    calc n = ∑ _i : Fin n, 1 := by simp
      _ ≤ _ := Finset.sum_le_sum fun i _ => hkept i
  rw [jobsWeight, Fintype.sum_option] at hle
  omega

/-- With a worker for the queue every task is completed: it is not in the queue, and a worker that
runs it waits for a later one, which is completed. -/
theorem Inv.all_completed (h : Inv root s) (hroot : root.waiters < n) (hstuck : Stuck s)
    {handle : ℕ} (hlt : handle < s.spawned) : handle ∈ s.completed := by
  obtain ⟨i, hi⟩ := h.exists_asleep hroot hstuck
  have hquiet : ∀ t, s.pc t ≠ .ready := by
    intro t ht
    cases t with
    | none =>
        have hfits := h.fits none
        rw [ht] at hfits
        exact hfits
    | some j =>
        rcases h.sleeps hstuck j with hj | ⟨job, hj⟩
        · rw [ht] at hj
          cases hj
        · rw [ht] at hj
          cases hj
  have hnil : s.queue.tasks = [] := List.length_eq_zero_iff.1 (h.served.quiet hquiet hi)
  induction hd : s.spawned - handle using Nat.strong_induction_on generalizing handle with
  | _ d ih =>
      subst hd
      rcases h.shape.placed handle hlt with hdone | ⟨task, hmem⟩ | ⟨j, hself⟩
      · exact hdone
      · rw [hnil] at hmem
        cases hmem
      · rcases h.sleeps hstuck j with hj | ⟨job, hj⟩
        · rw [hj] at hself
          cases hself
        · obtain ⟨kid, kids, hjob, hkid⟩ := h.waiting _ job hj
          have hmine : kid ∈ (s.pc (some j)).job.kids := by
            rw [hj, Pc.job, hjob]
            exact List.mem_cons_self
          have hlater := h.shape.later _ handle hself kid hmine
          have hkidlt := h.shape.kids_lt _ kid hmine
          exact absurd (ih (s.spawned - kid) (by omega) hkidlt rfl) hkid

theorem Inv.not_stuck (h : Inv root s) (hroot : root.waiters < n) : ¬ Stuck s := by
  intro hstuck
  obtain ⟨handle, hlt, hnot⟩ := hstuck.1
  exact hnot (h.all_completed hroot hstuck hlt)

end

end Limceron.Runtime.Nesting
