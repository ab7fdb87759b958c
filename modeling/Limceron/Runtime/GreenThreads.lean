/-
# `Limceron.Runtime.GreenThreads` — the scheduler of green threads

`green_threads.c` gives each green thread an OS thread of its own, which the
dispatcher creates, and a throttle lets `max_concurrent` of them run at once.  A
green thread ends in three sections: it sets its flag, counts itself out
(`alive_count`), and gives up its slot.  `lcn_green_await` waits for the flag
and joins the OS thread; `lcn_green_shutdown` waits for the count.

Each section under a lock is one step.  `g_green_init_mutex` is held throughout
a shutdown and while a scheduler is made; the read of `initialized` in
`lcn_green_spawn` is under no lock.  A wait is a section that changes nothing,
and is entered again.  The steps write down how often each task was run, and
whether anything was used after it was freed or destroyed (`misused`).

| | |
| :-- | :-- |
| `Place` | where a green thread is on its way |
| `State.dispatch`, `State.enter`, `State.awaits`, `State.close` | the sections of the four loops |
| `Step` | one section of any thread |
| `Safe` | what is to hold of every reachable state |
| `Orderly` | the condition on the steps |
-/
import Limceron.Lib.Systems
import Mathlib.Algebra.Order.Ring.Int
import Mathlib.Data.Finset.Card
import Mathlib.Logic.Function.Basic

namespace Limceron.Runtime.Green

/-! ## The threads -/

def lcnMaxWorkers : ℤ := 64

def atMostMax (n : ℤ) : ℤ :=
  if n < lcnMaxWorkers then n else lcnMaxWorkers

/-- `resolve_green_workers`; `env` is the number that `LCN_GREEN_WORKERS` says, and `cpus` what
`sysconf` does, if it is there. -/
def resolveGreenWorkers (requested : ℤ) (env cpus : Option ℤ) : ℤ :=
  if requested > 0 then atMostMax requested
  else if 0 < env.getD 0 then atMostMax (env.getD 0)
  else if 0 < cpus.getD 0 then atMostMax (cpus.getD 0)
  else 4

/-- Where a green thread is: from `created` on it has an OS thread, which runs
`throttled_green_entry`; if none could be created, it has `failed`, and is `dropped` when the
dispatcher has counted it out. -/
inductive Place where
  | absent
  | prepared
  | queued
  | launching
  | created
  | acquired
  | running
  | completed
  | leaving
  | exited
  | failed
  | dropped
  deriving DecidableEq

namespace Place

/-- Spawned, and not yet counted out. -/
def alive : Place → Bool
  | absent | leaving | exited | dropped => false
  | _ => true

/-- Between acquire and release. -/
def holds : Place → Bool
  | acquired | running | completed | leaving => true
  | _ => false

/-- The `completed` flag. -/
def done : Place → Bool
  | completed | leaving | exited | failed | dropped => true
  | _ => false

/-- Its OS thread could not be created. -/
def fails : Place → Bool
  | failed | dropped => true
  | _ => false

/-- There is no OS thread to wait for. -/
def joinable : Place → Bool
  | exited | failed | dropped => true
  | _ => false

/-- `lcn_green_spawn` has returned the handle. -/
def returned : Place → Bool
  | absent | prepared => false
  | _ => true

end Place

/-- Where the dispatcher is: it reads the flag, pops, finds nothing and waits; or it creates an OS
thread, and where that fails sets the flag, counts, and cleans up. -/
inductive Dispatcher where
  | none
  | checking
  | popping
  | empty
  | napping
  | launching (g : ℕ)
  | failing (g : ℕ)
  | dropping (g : ℕ)
  | cleaning (g : ℕ)
  | exited
  deriving DecidableEq

def Dispatcher.live : Dispatcher → Bool
  | none | exited => false
  | _ => true

/-- Where the call of `lcn_green_await` is. -/
inductive Await where
  | none
  | waiting
  | joining
  | freed
  deriving DecidableEq

/-- Where a call of `lcn_green_spawn` is. -/
inductive Spawner where
  | idle
  | noSched
  | counting
  | pushing (g : ℕ)

/-- Where the call of `lcn_green_shutdown` is. -/
inductive Closing where
  | idle
  | waiting
  | flagged
  | joining
  | draining
  | drained
  | destroyed
  deriving DecidableEq

/-! ## The state -/

/-- `g_sched` and `g_throttle` (`up` while they are not destroyed), the threads, and what the steps
write down. -/
structure State (τ : Type*) where
  initialized : Bool
  shutdown : Bool
  up : Bool
  aliveCount : ℤ
  active : ℤ
  maxConcurrent : ℤ
  queue : List ℕ
  dispatcher : Dispatcher
  closing : Closing
  spawner : τ → Spawner
  spawned : ℕ
  place : ℕ → Place
  await : ℕ → Await
  runs : ℕ → ℕ
  misused : Bool

namespace State

variable {τ : Type*}

/-- The start of the program. -/
def start : State τ where
  initialized := false
  shutdown := false
  up := false
  aliveCount := 0
  active := 0
  maxConcurrent := 0
  queue := []
  dispatcher := .none
  closing := .idle
  spawner := fun _ => .idle
  spawned := 0
  place := fun _ => .absent
  await := fun _ => .none
  runs := fun _ => 0
  misused := false

/-- A lock or a condition of the scheduler or the throttle is used. -/
def usesSched (s : State τ) : State τ :=
  { s with misused := s.misused || !s.up }

/-- A green thread is used. -/
def usesGreen (s : State τ) (g : ℕ) : State τ :=
  { s with misused := s.misused || decide (s.await g = .freed) }

def move (s : State τ) (g : ℕ) (v : Place) : State τ :=
  { s with place := Function.update s.place g v }

/-- `lcn_green_init_with_workers`, when `g_green_init_mutex` is taken; the dispatcher may not be
`created`. -/
def initSched (s : State τ) (workers : ℤ) (created : Bool) : State τ :=
  if s.initialized then s
  else
    { s with
      initialized := true
      shutdown := false
      up := true
      aliveCount := 0
      active := 0
      maxConcurrent := workers
      queue := []
      dispatcher := if created then .checking else .none }

/-- The next section of `dispatcher_loop`; `created` is how `pthread_create` ends. -/
def dispatch (s : State τ) (created : Bool) : State τ :=
  match s.dispatcher with
  | .checking => { s.usesSched with dispatcher := if s.shutdown then .exited else .popping }
  | .popping =>
      match s.queue with
      | [] => { s.usesSched with dispatcher := .empty }
      | g :: rest =>
          { (s.usesSched.usesGreen g).move g .launching with
            queue := rest, dispatcher := .launching g }
  | .empty =>
      { s.usesSched with
        dispatcher := if s.shutdown then .exited
          else if s.queue.isEmpty then .napping else .checking }
  | .napping => { s.usesSched with dispatcher := .checking }
  | .launching g =>
      if created then { (s.usesGreen g).move g .created with dispatcher := .checking }
      else { s.usesGreen g with dispatcher := .failing g }
  | .failing g => { (s.usesGreen g).move g .failed with dispatcher := .dropping g }
  | .dropping g =>
      { s.usesSched.move g .dropped with
        aliveCount := s.aliveCount - 1, dispatcher := .cleaning g }
  | .cleaning g => { s.usesGreen g with dispatcher := .checking }
  | .none => s
  | .exited => s

/-- The next section of `throttled_green_entry`. -/
def enter (s : State τ) (g : ℕ) : State τ :=
  match s.place g with
  | .created =>
      if s.active < s.maxConcurrent then
        { s.usesSched.move g .acquired with active := s.active + 1 }
      else s.usesSched
  | .acquired =>
      { (s.usesGreen g).move g .running with runs := Function.update s.runs g (s.runs g + 1) }
  | .running => (s.usesGreen g).move g .completed
  | .completed => { s.usesSched.move g .leaving with aliveCount := s.aliveCount - 1 }
  | .leaving => { s.usesSched.move g .exited with active := s.active - 1 }
  | _ => s

/-- The call of `lcn_green_await`, and its section. -/
def awaits (s : State τ) (g : ℕ) : State τ :=
  match s.await g with
  | .none =>
      if (s.place g).returned then { s with await := Function.update s.await g .waiting } else s
  | .waiting =>
      if (s.place g).done then
        { s.usesGreen g with await := Function.update s.await g .joining }
      else s.usesGreen g
  | _ => s

/-- `lcn_green_await` has joined the OS thread, and frees the green thread. -/
def free (s : State τ) (g : ℕ) : State τ :=
  if s.await g = .joining ∧ (s.place g).joinable then
    { s.usesGreen g with await := Function.update s.await g .freed }
  else s

/-- The next section of `lcn_green_shutdown`. -/
def close (s : State τ) : State τ :=
  match s.closing with
  | .idle => s
  | .waiting =>
      if s.aliveCount > 0 then s.usesSched
      else { s.usesSched with shutdown := true, closing := .flagged }
  | .flagged => { s.usesSched with closing := .joining }
  | .joining => if s.dispatcher.live then s else { s with closing := .draining }
  | .draining =>
      match s.queue with
      | [] => { s.usesSched with closing := .drained }
      | g :: rest =>
          { s.usesSched.usesGreen g with
            queue := rest, await := Function.update s.await g .freed }
  | .drained => { s with up := false, queue := [], closing := .destroyed }
  | .destroyed => { s with initialized := false, shutdown := false, closing := .idle }

variable [DecidableEq τ]

/-- A spawner is at another place. -/
def spawns (s : State τ) (t : τ) (v : Spawner) : State τ :=
  { s with spawner := Function.update s.spawner t v }

/-- The first section of `lcn_green_spawn`: the thread gets its number, and is counted. -/
def counts (s : State τ) (t : τ) : State τ :=
  { (s.usesSched.move s.spawned .prepared).spawns t (.pushing s.spawned) with
    aliveCount := s.aliveCount + 1, spawned := s.spawned + 1 }

/-- The second: the thread is put in the queue, and its handle returned. -/
def pushes (s : State τ) (t : τ) (g : ℕ) : State τ :=
  { ((s.usesSched.usesGreen g).move g .queued).spawns t .idle with queue := s.queue ++ [g] }

end State

/-! ## The steps -/

inductive Action (τ : Type*) where
  | init (requested : ℤ) (env cpus : Option ℤ) (created : Bool)
  | spawn (t : τ)
  | autoInit (t : τ) (env cpus : Option ℤ) (created : Bool)
  | count (t : τ)
  | push (t : τ)
  | dispatch (created : Bool)
  | enter (g : ℕ)
  | await (g : ℕ)
  | free (g : ℕ)
  | shutdown
  | close

/-- One section, of any thread. -/
inductive Step {τ : Type*} [DecidableEq τ] (s : State τ) : Action τ → State τ → Prop where
  | init (requested : ℤ) (env cpus : Option ℤ) (created : Bool) : s.closing = .idle →
      Step s (.init requested env cpus created)
        (s.initSched (resolveGreenWorkers requested env cpus) created)
  -- `lcn_green_spawn`
  | spawn {t : τ} : s.spawner t = .idle →
      Step s (.spawn t) (s.spawns t (if s.initialized then .counting else .noSched))
  | autoInit {t : τ} (env cpus : Option ℤ) (created : Bool) : s.spawner t = .noSched →
      s.closing = .idle → Step s (.autoInit t env cpus created)
        ((s.initSched (resolveGreenWorkers 0 env cpus) created).spawns t .counting)
  | count {t : τ} : s.spawner t = .counting → Step s (.count t) (s.counts t)
  | push {t : τ} {g : ℕ} : s.spawner t = .pushing g → Step s (.push t) (s.pushes t g)
  | dispatch (created : Bool) : Step s (.dispatch created) (s.dispatch created)
  | enter (g : ℕ) : Step s (.enter g) (s.enter g)
  | await (g : ℕ) : Step s (.await g) (s.awaits g)
  | free (g : ℕ) : Step s (.free g) (s.free g)
  -- `lcn_green_shutdown`; the first section is that of its call
  | shutdown : s.closing = .idle → s.initialized = true →
      Step s .shutdown { s with closing := .waiting }
  | close : Step s .close s.close

/-! ## What is claimed -/

section
variable {τ : Type*}

/-- How many of the green threads are at places of this kind. -/
def number (spawned : ℕ) (place : ℕ → Place) (P : Place → Bool) : ℕ :=
  ((Finset.range spawned).filter fun g => P (place g) = true).card

/-- The counters count what they are to count, each task is run once, and nothing is used after it
has been freed or destroyed. -/
structure Safe (s : State τ) : Prop where
  running_le : number s.spawned s.place (fun v => decide (v = .running)) ≤ s.maxConcurrent
  active_eq : s.active = number s.spawned s.place Place.holds
  alive_eq : s.aliveCount = number s.spawned s.place Place.alive
  counted_out : ∀ g < s.spawned, (s.place g).alive = false → (s.place g).done = true
  runs_le : ∀ g, s.runs g ≤ 1
  runs_eq : ∀ g, (s.place g).done = true → (s.place g).fails = false → s.runs g = 1
  finished : s.up = false → ∀ g < s.spawned, (s.place g).done = true
  proper : s.misused = false

/-- The condition on the steps: a thread is counted only while the scheduler is there and not shut
down; a green thread that could not be created is not freed while the dispatcher still has it; and
when the throttle is destroyed, each green thread that is counted out has given up its slot. -/
def Orderly (s : State τ) : Action τ → Prop
  | .count _ => s.up = true ∧ s.shutdown = false
  | .free g => s.await g = .joining → s.dispatcher ≠ .dropping g ∧ s.dispatcher ≠ .cleaning g
  | .close => s.closing = .drained → ∀ g, s.place g ≠ .leaving
  | _ => True

end

end Limceron.Runtime.Green
