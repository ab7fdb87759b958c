/-
# `Limceron.Runtime.TaskPool` — the queue of the thread pool

The pool of `threads.c` has one queue.  `lcn_spawn_task` puts a task at its end
and signals its condition; a worker waits while it is empty and the pool not
shut down, and then leaves its loop or takes the first task
(`workerSection_cases`).

Tasks are any type.  Where a worker is, and what a task does, differs between
the modules that use the queue.
-/
import Mathlib.Algebra.Order.Ring.Int

namespace Limceron.Runtime

/-! ## The queue -/

/-- The linked list between `head` and `tail`, and the flag that is set on shutdown. -/
structure LcnTaskQueue (α : Type*) where
  tasks : List α
  shutdown : Bool

namespace LcnTaskQueue

variable {α : Type*}

/-- `lcn_threadpool_init`: no tasks, not shut down. -/
def init : LcnTaskQueue α :=
  ⟨[], false⟩

/-- `queue_push`. -/
def push (q : LcnTaskQueue α) (task : α) : LcnTaskQueue α :=
  { q with tasks := q.tasks ++ [task] }

/-- `queue_pop`. -/
def pop (q : LcnTaskQueue α) : Option (α × LcnTaskQueue α) :=
  match q.tasks with
  | [] => none
  | task :: rest => some (task, { q with tasks := rest })

/-- What a worker does under the lock of the queue. -/
inductive Section (α : Type*) where
  | waits
  | leaves
  | takes (task : α) (q : LcnTaskQueue α)
  | again

/-- The part of `worker_loop` between taking the lock and giving it up. -/
def workerSection (q : LcnTaskQueue α) : Section α :=
  if q.tasks.isEmpty && !q.shutdown then .waits
  else if q.shutdown && q.tasks.isEmpty then .leaves
  else
    match q.pop with
    | some (task, q) => .takes task q
    | none => .again

/-- A worker waits or leaves on an empty queue only, and takes the first task of another. -/
theorem workerSection_cases (q : LcnTaskQueue α) :
    q.tasks = [] ∧ q.shutdown = false ∧ q.workerSection = .waits ∨
      q.tasks = [] ∧ q.shutdown = true ∧ q.workerSection = .leaves ∨
      ∃ task rest, q.tasks = task :: rest ∧
        q.workerSection = .takes task { q with tasks := rest } := by
  obtain ⟨tasks, shutdown⟩ := q
  cases tasks with
  | nil =>
      cases shutdown with
      | false => exact .inl ⟨rfl, rfl, rfl⟩
      | true => exact .inr (.inl ⟨rfl, rfl, rfl⟩)
  | cons task rest =>
      cases shutdown with
      | false => exact .inr (.inr ⟨task, rest, rfl, rfl⟩)
      | true => exact .inr (.inr ⟨task, rest, rfl, rfl⟩)

end LcnTaskQueue

/-! ## The workers -/

def lcnDefaultWorkers : ℤ := 4

/-- `resolve_worker_count`; `env` is the number that `LCN_WORKERS` says, if it is set. -/
def resolveWorkerCount (requested : ℤ) (env : Option ℤ) : ℤ :=
  if requested > 0 then requested
  else
    match env with
    | some n => if n > 0 then n else lcnDefaultWorkers
    | none => lcnDefaultWorkers

/-- There is always a worker. -/
theorem resolveWorkerCount_pos (requested : ℤ) (env : Option ℤ) :
    0 < resolveWorkerCount requested env := by
  have hdefault : 0 < lcnDefaultWorkers := four_pos
  unfold resolveWorkerCount
  split
  · assumption
  · cases env with
    | none => exact hdefault
    | some n =>
        show 0 < if n > 0 then n else lcnDefaultWorkers
        split
        · assumption
        · exact hdefault

end Limceron.Runtime
