/-
# `Limceron.Runtime.Starved` — how a pool gets stuck

With no more workers than tasks that wait there is an order of the sections in
which the pool gets stuck.  First the workers gather tasks that wait: each free
worker takes the first task of the queue, completes it at once if it has no
children, and otherwise keeps it; while the queue is empty a thread spawns one
more child, where that brings another task that waits (`Gathering.exists_full`).
Then all threads run until they sleep (`settles`): there is no worker for what
they wait for.

So the pool is never stuck, for any order of the sections, if and only if it has
more workers than the tree has tasks that wait (`never_stuck_iff`).
-/
import Limceron.Runtime.Nesting

namespace Limceron.Runtime.Nesting

open Systems Monitors

/-! ## The places of the handles -/

/-- A handle is queued once, run by one thread, or completed. -/
structure Sole {n : ℕ} (tasks : List (ℕ × Task)) (spawned : ℕ) (completed : List ℕ)
    (jobs : Thread n → Job) : Prop where
  queued : (tasks.map Prod.fst).Nodup
  queued_only : ∀ handle ∈ tasks.map Prod.fst,
    handle < spawned ∧ handle ∉ completed ∧ ∀ t, (jobs t).self ≠ some handle
  self_once : ∀ t u handle, (jobs t).self = some handle → (jobs u).self = some handle → t = u
  self_only : ∀ t handle, (jobs t).self = some handle → handle < spawned ∧ handle ∉ completed
  completed_lt : ∀ handle ∈ completed, handle < spawned

namespace Sole

variable {n : ℕ} {root : Task} {tasks : List (ℕ × Task)} {spawned : ℕ} {completed : List ℕ}
  {jobs : Thread n → Job}

theorem start (n : ℕ) (root : Task) :
    Sole [] 0 [] fun t : Thread n => t.elim ⟨none, root, []⟩ fun _ => .none where
  queued := List.nodup_nil
  queued_only := fun handle hmem => absurd hmem List.not_mem_nil
  self_once := by rintro (_ | i) u handle ⟨⟩
  self_only := by rintro (_ | i) handle ⟨⟩
  completed_lt := fun handle hmem => absurd hmem List.not_mem_nil

/-- A worker takes the first task of the queue. -/
theorem takes {handle : ℕ} {task : Task} {t : Thread n} {kids : List ℕ}
    (h : Sole ((handle, task) :: tasks) spawned completed jobs) :
    Sole tasks spawned completed (Function.update jobs t ⟨some handle, task, kids⟩) where
  queued := (List.nodup_cons.1 h.queued).2
  queued_only := by
    intro x hx
    obtain ⟨hlt, hdone, hself⟩ := h.queued_only x (List.mem_cons_of_mem _ hx)
    refine ⟨hlt, hdone, (Function.forall_update_iff jobs fun _ job => job.self ≠ some x).2
      ⟨?_, fun u _ => hself u⟩⟩
    rintro ⟨⟩
    exact (List.nodup_cons.1 h.queued).1 hx
  self_once := by
    have hnobody := (h.queued_only handle List.mem_cons_self).2.2
    intro u u' x hu hu'
    by_cases hut : u = t
    · by_cases hut' : u' = t
      · rw [hut, hut']
      · rw [hut, Function.update_self] at hu
        rw [Function.update_of_ne hut'] at hu'
        cases hu
        exact absurd hu' (hnobody u')
    · rw [Function.update_of_ne hut] at hu
      by_cases hut' : u' = t
      · rw [hut', Function.update_self] at hu'
        cases hu'
        exact absurd hu (hnobody u)
      · rw [Function.update_of_ne hut'] at hu'
        exact h.self_once u u' x hu hu'
  self_only := by
    refine (Function.forall_update_iff jobs fun _ job =>
      ∀ x, job.self = some x → x < spawned ∧ x ∉ completed).2 ⟨?_, fun u _ => h.self_only u⟩
    rintro x ⟨⟩
    obtain ⟨hlt, hdone, -⟩ := h.queued_only handle List.mem_cons_self
    exact ⟨hlt, hdone⟩
  completed_lt := h.completed_lt

/-- The first task of the queue is completed. -/
theorem completes {handle : ℕ} {task : Task}
    (h : Sole ((handle, task) :: tasks) spawned completed jobs) :
    Sole tasks spawned (handle :: completed) jobs where
  queued := (List.nodup_cons.1 h.queued).2
  queued_only := by
    intro x hx
    obtain ⟨hlt, hdone, hself⟩ := h.queued_only x (List.mem_cons_of_mem _ hx)
    refine ⟨hlt, fun hmem => ?_, hself⟩
    rcases List.mem_cons.1 hmem with rfl | hmem
    · exact (List.nodup_cons.1 h.queued).1 hx
    · exact hdone hmem
  self_once := h.self_once
  self_only := by
    intro u x hu
    obtain ⟨hlt, hdone⟩ := h.self_only u x hu
    refine ⟨hlt, fun hmem => ?_⟩
    rcases List.mem_cons.1 hmem with rfl | hmem
    · exact (h.queued_only x List.mem_cons_self).2.2 u hu
    · exact hdone hmem
  completed_lt := by
    intro x hx
    rcases List.mem_cons.1 hx with rfl | hx
    · exact (h.queued_only x List.mem_cons_self).1
    · exact h.completed_lt x hx

/-- A thread spawns a task. -/
theorem spawns {t : Thread n} {child : Task} {v : Job} (h : Sole tasks spawned completed jobs)
    (hv : v.self = (jobs t).self) :
    Sole (tasks ++ [(spawned, child)]) (spawned + 1) completed (Function.update jobs t v) := by
  have hself : ∀ u, (Function.update jobs t v u).self = (jobs u).self :=
    (Function.forall_update_iff jobs fun u job => job.self = (jobs u).self).2
      ⟨hv, fun u _ => rfl⟩
  have hsucc : ∀ {x : ℕ}, x < spawned → x < spawned + 1 := fun hx => hx.trans (Nat.lt_succ_self _)
  refine ⟨?_, ?_, ?_, ?_, fun x hx => hsucc (h.completed_lt x hx)⟩
  · rw [List.map_append, List.map_singleton, List.nodup_append]
    refine ⟨h.queued, List.nodup_singleton _, fun x hx y hy => ?_⟩
    rw [List.mem_singleton.1 hy]
    exact (h.queued_only x hx).1.ne
  · intro x hx
    rw [List.map_append, List.map_singleton] at hx
    rcases List.mem_append.1 hx with hold | hnew
    · obtain ⟨hlt, hdone, hnobody⟩ := h.queued_only x hold
      refine ⟨hsucc hlt, hdone, fun u => ?_⟩
      rw [hself u]
      exact hnobody u
    · rw [List.mem_singleton.1 hnew]
      refine ⟨Nat.lt_succ_self _, fun hmem => lt_irrefl _ (h.completed_lt _ hmem), fun u hu => ?_⟩
      rw [hself u] at hu
      exact lt_irrefl _ (h.self_only u _ hu).1
  · intro u u' x hu hu'
    rw [hself] at hu hu'
    exact h.self_once u u' x hu hu'
  · intro u x hu
    rw [hself] at hu
    obtain ⟨hlt, hdone⟩ := h.self_only u x hu
    exact ⟨hsucc hlt, hdone⟩

end Sole

/-! ## Gathering tasks that wait -/

namespace Task

/-- What is left to do of a task. -/
def size : Task → ℕ
  | awaits => 0
  | spawns child rest => child.size + rest.size + 2

end Task

section
variable {n : ℕ} {root : Task} {s : State n}

def queueSize (tasks : List (ℕ × Task)) : ℕ :=
  (tasks.map fun x => x.2.size + 1).sum

/-- What is left to do in the pool. -/
def State.size (s : State n) : ℕ :=
  ∑ t, (s.pc t).job.todo.size + queueSize s.queue.tasks

theorem queueSize_cons (handle : ℕ) (task : Task) (tasks : List (ℕ × Task)) :
    queueSize ((handle, task) :: tasks) = task.size + 1 + queueSize tasks :=
  rfl

theorem queueSize_push (tasks : List (ℕ × Task)) (handle : ℕ) (task : Task) :
    queueSize (tasks ++ [(handle, task)]) = queueSize tasks + (task.size + 1) := by
  simp [queueSize]

/-- A worker runs the task of the handle, or it is in the queue and has children. -/
def State.Pending (s : State n) (handle : ℕ) : Prop :=
  (∃ i, (s.pc (some i)).job.self = some handle) ∨
    ∃ child rest, (handle, Task.spawns child rest) ∈ s.queue.tasks

/-- The job will have a handle to wait for that is not completed. -/
def State.Keeps (s : State n) (job : Job) : Prop :=
  job.todo ≠ .awaits ∨ ∃ kid ∈ job.kids, s.Pending kid

/-- Nobody sleeps, and each worker that is not free is kept. -/
structure Gathering (root : Task) (s : State n) : Prop where
  reachable : Reachable root s
  caller : ∃ job, s.pc none = .body job
  workers : ∀ i, s.pc (some i) = .ready ∨ ∃ job, s.pc (some i) = .body job ∧ s.Keeps job
  weight : jobsWeight (fun t => (s.pc t).job) + queueWeight s.queue.tasks = root.waiters
  sole : Sole s.queue.tasks s.spawned s.completed fun t => (s.pc t).job

theorem Gathering.awake (h : Gathering root s) (t : Thread n) :
    s.pc t = .ready ∨ ∃ job, s.pc t = .body job := by
  cases t with
  | none => exact .inr h.caller
  | some i =>
      rcases h.workers i with hi | ⟨job, hi, -⟩
      · exact .inl hi
      · exact .inr ⟨job, hi⟩

theorem Gathering.start (root : Task) : Gathering root (State.start n root) where
  reachable := .start rfl
  caller := ⟨_, rfl⟩
  workers := fun i => .inl rfl
  weight := by
    rw [jobsWeight, Fintype.sum_option]
    simp [State.start, Job.weight, Job.waits, Pc.job, Job.none, Task.waits, Task.waiters, queueWeight,
      LcnTaskQueue.init]
  sole := by
    have hjobs : (fun t => ((State.start n root).pc t).job) =
        fun t : Thread n => t.elim ⟨none, root, []⟩ fun _ => .none := by
      funext t
      cases t <;> rfl
    rw [hjobs]
    exact Sole.start n root

/-- A job is kept while what is pending remains so. -/
theorem State.Keeps.mono {s' : State n} {job : Job} (h : s.Keeps job)
    (hpending : ∀ handle, s.Pending handle → s'.Pending handle) : s'.Keeps job := by
  rcases h with htodo | ⟨kid, hmem, hkid⟩
  · exact .inl htodo
  · exact .inr ⟨kid, hmem, hpending kid hkid⟩

/-- A free worker takes a task without children, and completes it. -/
theorem Gathering.completes (h : Gathering root s) {i : Fin n} (hi : s.pc (some i) = .ready)
    {handle : ℕ} {rest : List (ℕ × Task)} (htasks : s.queue.tasks = (handle, .awaits) :: rest) :
    Gathering root { s with
      queue := { s.queue with tasks := rest }, completed := handle :: s.completed } where
  reachable := by
    have hpc : Function.update
        (Function.update s.pc (some i) (.body ⟨some handle, .awaits, []⟩)) (some i) .ready = s.pc := by
      rw [Function.update_idem, ← hi, Function.update_eq_self]
    have htake := h.reachable.next trivial (.check hi)
    rw [check_takes i htasks] at htake
    refine htake.next trivial (.complete (i := i) (w := none) (Function.update_self ..) ?_)
    show Signal (Pc.OnHandle handle) Pc.woken (Function.update (Function.update s.pc _ _) _ _) none s.pc
    rw [hpc]
    refine .none ?_
    rintro t ⟨job, kids, ht, -⟩
    rcases h.awake t with hready | ⟨job', hbody⟩
    · rw [hready] at ht
      cases ht
    · rw [hbody] at ht
      cases ht
  caller := h.caller
  workers := by
    intro j
    rcases h.workers j with hj | ⟨job, hj, hkeeps⟩
    · exact .inl hj
    · refine .inr ⟨job, hj, hkeeps.mono fun kid hkid => ?_⟩
      rcases hkid with hruns | ⟨child, rest', hmem⟩
      · exact .inl hruns
      · rw [htasks] at hmem
        exact .inr ⟨child, rest', (List.mem_cons.1 hmem).resolve_left nofun⟩
  weight := by
    have hweight := h.weight
    rw [htasks, queueWeight_cons] at hweight
    show _ + queueWeight rest = _
    simpa [Task.waits, Task.waiters] using hweight
  sole := by
    have hsole := h.sole
    rw [htasks] at hsole
    exact hsole.completes

/-- A free worker takes a task with children, and is kept. -/
theorem Gathering.takes (h : Gathering root s) {i : Fin n} (hi : s.pc (some i) = .ready)
    {handle : ℕ} {child others : Task} {rest : List (ℕ × Task)}
    (htasks : s.queue.tasks = (handle, .spawns child others) :: rest) :
    Gathering root { s.goto (some i) (.body ⟨some handle, .spawns child others, []⟩) with
      queue := { s.queue with tasks := rest } } where
  reachable := by
    rw [← check_takes i htasks]
    exact h.reachable.next trivial (.check hi)
  caller := h.caller
  workers := by
    have hpending : ∀ kid, s.Pending kid → State.Pending
        { s.goto (some i) (.body ⟨some handle, .spawns child others, []⟩) with
          queue := { s.queue with tasks := rest } } kid := by
      rintro kid (⟨j, hj⟩ | ⟨child', others', hmem⟩)
      · refine .inl ⟨j, ?_⟩
        have hji : (some j : Thread n) ≠ some i := by
          intro hji
          rw [hji, hi] at hj
          cases hj
        show (Function.update s.pc (some i) _ (some j)).job.self = some kid
        rw [Function.update_of_ne hji]
        exact hj
      · rw [htasks] at hmem
        rcases List.mem_cons.1 hmem with heq | hmem
        · cases heq
          refine .inl ⟨i, ?_⟩
          show (Function.update s.pc (some i) _ (some i)).job.self = some handle
          rw [Function.update_self]
          rfl
        · exact .inr ⟨child', others', hmem⟩
    intro j
    by_cases hji : j = i
    · subst hji
      exact .inr ⟨_, Function.update_self .., .inl nofun⟩
    · have hother : Function.update s.pc (some i) (.body ⟨some handle, .spawns child others, []⟩)
          (some j) = s.pc (some j) := Function.update_of_ne (fun he => hji (Option.some.inj he)) _ _
      rcases h.workers j with hj | ⟨job, hj, hkeeps⟩
      · exact .inl (hother.trans hj)
      · exact .inr ⟨job, hother.trans hj, hkeeps.mono hpending⟩
  weight := by
    have hweight := h.weight
    rw [htasks, queueWeight_cons] at hweight
    show jobsWeight (fun t => (Function.update s.pc (some i) _ t).job) + queueWeight rest = _
    rw [jobs_update]
    have htake : jobsWeight (Function.update (fun t => (s.pc t).job) (some i)
        ⟨some handle, .spawns child others, []⟩) = _ := jobsWeight_takes (by rw [hi]; rfl) _ _
    show jobsWeight (Function.update _ _ ⟨some handle, .spawns child others, []⟩) + _ = _
    omega
  sole := by
    have hsole := h.sole
    rw [htasks] at hsole
    show Sole rest _ _ fun t => (Function.update s.pc (some i) _ t).job
    rw [jobs_update]
    exact hsole.takes

/-- While the queue is empty a thread spawns a child, where that brings one more task that waits. -/
theorem Gathering.spawns (h : Gathering root s) (hnil : s.queue.tasks = []) {t : Thread n}
    {self : Option ℕ} {child rest : Task} {kids : List ℕ}
    (ht : s.pc t = .body ⟨self, .spawns child rest, kids⟩)
    (hchild : rest = .awaits → child ≠ .awaits) :
    Gathering root { s with
      queue := s.queue.push (s.spawned, child)
      pc := Function.update s.pc t (.body ⟨self, rest, kids ++ [s.spawned]⟩)
      spawned := s.spawned + 1 } where
  reachable := by
    refine h.reachable.next trivial (.spawn ht (w := none) (.none ?_))
    refine (Function.forall_update_iff s.pc fun _ v => v ≠ .asleep).2 ⟨nofun, fun u _ => ?_⟩
    rcases h.awake u with hu | ⟨job, hu⟩
    · rw [hu]
      exact nofun
    · rw [hu]
      exact nofun
  caller := by
    by_cases htn : t = none
    · subst htn
      show ∃ job, Function.update s.pc none _ none = .body job
      rw [Function.update_self]
      exact ⟨_, rfl⟩
    · obtain ⟨job, hjob⟩ := h.caller
      exact ⟨job, (Function.update_of_ne (Ne.symm htn) _ _).trans hjob⟩
  workers := by
    have hpending : ∀ kid, s.Pending kid → State.Pending { s with
        queue := s.queue.push (s.spawned, child)
        pc := Function.update s.pc t (.body ⟨self, rest, kids ++ [s.spawned]⟩)
        spawned := s.spawned + 1 } kid := by
      rintro kid (⟨j, hj⟩ | ⟨child', others', hmem⟩)
      · refine .inl ⟨j, ?_⟩
        show (Function.update s.pc t _ (some j)).job.self = some kid
        by_cases hjt : (some j : Thread n) = t
        · subst hjt
          rw [Function.update_self]
          rwa [ht] at hj
        · rwa [Function.update_of_ne hjt]
      · rw [hnil] at hmem
        cases hmem
    intro j
    by_cases hjt : (some j : Thread n) = t
    · subst hjt
      refine .inr ⟨_, Function.update_self .., ?_⟩
      cases rest with
      | spawns _ _ => exact .inl nofun
      | awaits =>
          -- the child is the one to wait for
          refine .inr ⟨s.spawned, List.mem_append_right _ (List.mem_singleton_self _), .inr ?_⟩
          cases child with
          | awaits => exact absurd rfl (hchild rfl)
          | spawns child' others' =>
              exact ⟨child', others', List.mem_append_right _ (List.mem_singleton_self _)⟩
    · have hother : Function.update s.pc t (.body ⟨self, rest, kids ++ [s.spawned]⟩) (some j) =
          s.pc (some j) := Function.update_of_ne hjt _ _
      rcases h.workers j with hj | ⟨job, hj, hkeeps⟩
      · exact .inl (hother.trans hj)
      · exact .inr ⟨job, hother.trans hj, hkeeps.mono hpending⟩
  weight := by
    have hweight := h.weight
    have hspawn : jobsWeight (Function.update (fun t => (s.pc t).job) t
        ⟨self, rest, kids ++ [s.spawned]⟩) + _ = _ := jobsWeight_spawns (by rw [ht]; rfl) s.spawned
    show jobsWeight (fun u => (Function.update s.pc t _ u).job) +
      queueWeight (s.queue.tasks ++ [(s.spawned, child)]) = _
    rw [jobs_update, queueWeight_push]
    show jobsWeight (Function.update _ _ ⟨self, rest, kids ++ [s.spawned]⟩) + _ = _
    omega
  sole := by
    show Sole _ _ _ fun u => (Function.update s.pc t _ u).job
    rw [jobs_update]
    exact h.sole.spawns (by rw [ht]; rfl)

/-- While a worker is free, there is a task to take, or a thread that can spawn one more that
waits. -/
theorem Gathering.exists_spawns (h : Gathering root s) (hroot : n ≤ root.waiters)
    (hnil : s.queue.tasks = []) {i : Fin n} (hi : s.pc (some i) = .ready) :
    ∃ t self child rest kids, s.pc t = .body ⟨self, .spawns child rest, kids⟩ ∧
      (rest = .awaits → child ≠ .awaits) := by
  have htodo : ∃ t, 0 < (s.pc t).job.todo.waiters := by
    by_contra hnone
    push Not at hnone
    have hweight := h.weight
    have hcount : ∑ j : Fin n, Job.weight (some j) (s.pc (some j)).job < ∑ _j : Fin n, 1 := by
      refine Finset.sum_lt_sum (fun j _ => ?_) ⟨i, Finset.mem_univ i, ?_⟩
      · have hj := hnone (some j)
        show (s.pc (some j)).job.waits + (s.pc (some j)).job.todo.waiters ≤ 1
        have hle : (s.pc (some j)).job.waits ≤ 1 := by
          unfold Job.waits Task.waits
          split
          · split <;> decide
          · exact le_refl 1
        omega
      · rw [hi]
        exact Nat.zero_lt_one
    have hcaller : Job.weight (none : Thread n) (s.pc none).job = 0 := by
      have hn := hnone none
      show 0 + (s.pc none).job.todo.waiters = 0
      omega
    rw [hnil, jobsWeight, Fintype.sum_option, hcaller] at hweight
    have hone : ∑ _j : Fin n, 1 = n := by simp
    have hqueue : queueWeight [] = 0 := rfl
    omega
  obtain ⟨t, ht⟩ := htodo
  rcases h.awake t with hready | ⟨⟨self, todo, kids⟩, hbody⟩
  · rw [hready] at ht
    exact absurd ht (lt_irrefl 0)
  · rw [hbody] at ht
    cases todo with
    | awaits => exact absurd ht (lt_irrefl 0)
    | spawns child rest =>
        refine ⟨t, self, child, rest, kids, hbody, ?_⟩
        rintro rfl rfl
        exact absurd ht (lt_irrefl 0)

/-- A thread that moves leaves what its new job says. -/
theorem size_goto (s : State n) (t : Thread n) (v : Pc) :
    ∑ u, (Function.update s.pc t v u).job.todo.size + (s.pc t).job.todo.size =
      ∑ u, (s.pc u).job.todo.size + v.job.todo.size :=
  sum_update (Finset.mem_univ t) (fun _ v => v.job.todo.size) s.pc v

/-- The workers gather tasks that wait until none is free: each move leaves less to do. -/
theorem Gathering.exists_full (h : Gathering root s) (hroot : n ≤ root.waiters) :
    ∃ s' : State n, Gathering root s' ∧ ∀ i, s'.pc (some i) ≠ .ready := by
  induction hd : s.size using Nat.strong_induction_on generalizing s with
  | _ d ih =>
      subst hd
      by_cases hfull : ∀ i, s.pc (some i) ≠ .ready
      · exact ⟨s, h, hfull⟩
      · push Not at hfull
        obtain ⟨i, hi⟩ := hfull
        cases htasks : s.queue.tasks with
        | nil =>
            obtain ⟨t, self, child, rest, kids, ht, hchild⟩ := h.exists_spawns hroot htasks hi
            refine ih _ ?_ (h.spawns htasks ht hchild) rfl
            have hsum := size_goto s t (.body ⟨self, rest, kids ++ [s.spawned]⟩)
            have hold : (s.pc t).job.todo.size = child.size + rest.size + 2 := by
              rw [ht]
              rfl
            have hnew : (Pc.body ⟨self, rest, kids ++ [s.spawned]⟩).job.todo.size = rest.size := rfl
            show ∑ u, (Function.update s.pc t _ u).job.todo.size +
              queueSize (s.queue.tasks ++ [(s.spawned, child)]) < s.size
            rw [queueSize_push, State.size]
            omega
        | cons x rest =>
            obtain ⟨handle, task⟩ := x
            have hqueue : queueSize s.queue.tasks = task.size + 1 + queueSize rest := by
              rw [htasks, queueSize_cons]
            cases task with
            | awaits =>
                refine ih _ ?_ (h.completes hi htasks) rfl
                show ∑ u, (s.pc u).job.todo.size + queueSize rest < s.size
                rw [State.size]
                omega
            | spawns child others =>
                refine ih _ ?_ (h.takes hi htasks) rfl
                have hsum := size_goto s (some i) (.body ⟨some handle, .spawns child others, []⟩)
                have hnew : (Pc.body ⟨some handle, .spawns child others, []⟩).job.todo.size =
                  (Task.spawns child others).size := rfl
                show ∑ u, (Function.update s.pc (some i) _ u).job.todo.size + queueSize rest < s.size
                rw [State.size]
                omega

/-! ## Falling asleep -/

/-- The thread cannot go on unless it is woken, or has ended. -/
def Pc.Settled (pc : Pc) : Prop :=
  (∃ job, pc = .asleepOn job) ∨ pc = .done

/-- A thread that has spawned its tasks waits until one is not completed. -/
theorem settles_awaits (h : Reachable root s) {t : Thread n} {self : Option ℕ} {kids : List ℕ}
    (ht : s.pc t = .body ⟨self, .awaits, kids⟩) :
    ∃ v, Reachable root (s.goto t v) ∧ ((∃ job, v = .asleepOn job) ∨
      v = .body ⟨self, .awaits, []⟩ ∧ ∀ kid ∈ kids, kid ∈ s.completed) := by
  induction kids generalizing s with
  | nil =>
      refine ⟨s.pc t, ?_, .inr ⟨ht, nofun⟩⟩
      rw [State.goto, Function.update_eq_self]
      exact h
  | cons kid kids ih =>
      by_cases hkid : kid ∈ s.completed
      · obtain ⟨v, hreach, hv⟩ := ih (h.next trivial (.awaitDone ht hkid)) (Function.update_self ..)
        have hgoto : (s.goto t (.body ⟨self, .awaits, kids⟩)).goto t v = s.goto t v := by
          rw [State.goto, State.goto, State.goto, Function.update_idem]
        rw [hgoto] at hreach
        refine ⟨v, hreach, hv.imp_right fun ⟨hbody, hkids⟩ => ⟨hbody, ?_⟩⟩
        exact List.forall_mem_cons.2 ⟨hkid, hkids⟩
      · exact ⟨_, h.next trivial (.awaitWaits ht hkid), .inl ⟨_, rfl⟩⟩

/-- Nobody sleeps at the queue, and handles that are completed have been spawned. -/
structure State.Calm (s : State n) : Prop where
  awake : ∀ t, s.pc t ≠ .asleep
  completed_lt : ∀ handle ∈ s.completed, handle < s.spawned

/-- A thread runs until it has to wait. -/
theorem settles_body (h : Reachable root s) (hcalm : s.Calm) {t : Thread n} {self : Option ℕ}
    {todo : Task} {kids : List ℕ} (ht : s.pc t = .body ⟨self, todo, kids⟩) :
    ∃ s' v, Reachable root s' ∧ s'.pc = Function.update s.pc t v ∧ s'.completed = s.completed ∧
      s.spawned ≤ s'.spawned ∧ ((∃ job, v = .asleepOn job) ∨ v = .body ⟨self, .awaits, []⟩ ∧
        todo = .awaits ∧ ∀ kid ∈ kids, kid ∈ s.completed) := by
  induction todo generalizing s kids with
  | awaits =>
      obtain ⟨v, hreach, hv⟩ := settles_awaits h ht
      exact ⟨_, v, hreach, rfl, rfl, le_refl _, hv.imp_right fun ⟨hbody, hkids⟩ => ⟨hbody, rfl, hkids⟩⟩
  | spawns child rest _ ih =>
      have hawake : ∀ u,
          Function.update s.pc t (.body ⟨self, rest, kids ++ [s.spawned]⟩) u ≠ .asleep :=
        (Function.forall_update_iff s.pc fun _ v => v ≠ .asleep).2 ⟨nofun, fun u _ => hcalm.awake u⟩
      obtain ⟨s', v, hreach, hpc, hcompleted, hspawned, hv⟩ :=
        ih (h.next trivial (.spawn ht (w := none) (.none hawake)))
          ⟨hawake, fun x hx => (hcalm.completed_lt x hx).trans (Nat.lt_succ_self _)⟩
          (Function.update_self ..)
      refine ⟨s', v, hreach, ?_, hcompleted, (Nat.le_succ _).trans hspawned, ?_⟩
      · rw [hpc, Function.update_idem]
      · -- the task that was spawned last is not completed
        rcases hv with hv | ⟨-, -, hkids⟩
        · exact .inl hv
        · have hlast := hkids s.spawned (List.mem_append_right _ (List.mem_singleton_self _))
          exact absurd (hcalm.completed_lt _ hlast) (lt_irrefl _)

/-- A worker that is kept falls asleep, and the caller does or ends. -/
theorem settles_thread (h : Reachable root s) (hcalm : s.Calm) {t : Thread n} {job : Job}
    (ht : s.pc t = .body job)
    (hkept : t = none ∨ job.todo ≠ .awaits ∨ ∃ kid ∈ job.kids, kid ∉ s.completed) :
    ∃ s' v, Reachable root s' ∧ s'.pc = Function.update s.pc t v ∧ s'.completed = s.completed ∧
      s.spawned ≤ s'.spawned ∧ v.Settled := by
  obtain ⟨self, todo, kids⟩ := job
  obtain ⟨s', v, hreach, hpc, hcompleted, hspawned, hv⟩ := settles_body h hcalm ht
  rcases hv with hv | ⟨rfl, rfl, hkids⟩
  · exact ⟨s', v, hreach, hpc, hcompleted, hspawned, .inl hv⟩
  · rcases hkept with rfl | htodo | ⟨kid, hmem, hkid⟩
    · have hself : self = none := by
        have hfits := h.inv.fits none
        rw [ht] at hfits
        exact hfits
      subst hself
      have hbody : s'.pc none = .body ⟨none, .awaits, []⟩ := by
        rw [hpc, Function.update_self]
      refine ⟨s'.goto none .done, .done, hreach.next trivial (.returns hbody), ?_, hcompleted, hspawned,
        .inr rfl⟩
      show Function.update s'.pc none .done = _
      rw [hpc, Function.update_idem]
    · exact absurd rfl htodo
    · exact absurd (hkids kid hmem) hkid

/-- All threads of a set fall asleep, one after the other. -/
theorem settles (h : Reachable root s) (hcalm : s.Calm)
    (hkept : ∀ t, ∃ job, s.pc t = .body job ∧
      (t = none ∨ job.todo ≠ .awaits ∨ ∃ kid ∈ job.kids, kid ∉ s.completed))
    (F : Finset (Thread n)) :
    ∃ s', Reachable root s' ∧ s'.completed = s.completed ∧ s.spawned ≤ s'.spawned ∧
      (∀ t ∈ F, (s'.pc t).Settled) ∧ ∀ t ∉ F, s'.pc t = s.pc t := by
  induction F using Finset.induction_on with
  | empty => exact ⟨s, h, rfl, le_refl _, nofun, fun _ _ => rfl⟩
  | insert t F htF ih =>
      obtain ⟨s₁, hreach₁, hcompleted₁, hspawned₁, hsettled, hothers⟩ := ih
      have hcalm₁ : s₁.Calm := by
        refine ⟨fun u => ?_, fun x hx => ?_⟩
        · by_cases hu : u ∈ F
          · rcases hsettled u hu with ⟨job, hjob⟩ | hdone
            · rw [hjob]
              exact nofun
            · rw [hdone]
              exact nofun
          · rw [hothers u hu]
            exact hcalm.awake u
        · rw [hcompleted₁] at hx
          exact (hcalm.completed_lt x hx).trans_le hspawned₁
      obtain ⟨job, hjob, hkeeps⟩ := hkept t
      rw [← hothers t htF] at hjob
      rw [← hcompleted₁] at hkeeps
      obtain ⟨s₂, v, hreach₂, hpc, hcompleted₂, hspawned₂, hv⟩ :=
        settles_thread hreach₁ hcalm₁ hjob hkeeps
      refine ⟨s₂, hreach₂, hcompleted₂.trans hcompleted₁, hspawned₁.trans hspawned₂, ?_, ?_⟩
      · rw [hpc]
        refine fun u hu => (Function.forall_update_iff s₁.pc fun u v => u ∈ insert t F → v.Settled).2
          ⟨fun _ => hv, fun u hut hu => ?_⟩ u hu
        exact hsettled u ((Finset.mem_insert.1 hu).resolve_left hut)
      · intro u hu
        have hut : u ≠ t := by
          rintro rfl
          exact hu (Finset.mem_insert_self u F)
        rw [hpc, Function.update_of_ne hut]
        exact hothers u fun hmem => hu (Finset.mem_insert_of_mem hmem)

/-! ## The claim -/

/-- With no more workers than tasks that wait, some order of the sections gets stuck. -/
theorem exists_stuck (hn : 0 < n) (hroot : n ≤ root.waiters) :
    ∃ s : State n, Reachable root s ∧ Stuck s := by
  obtain ⟨s, h, hfull⟩ := (Gathering.start root).exists_full hroot
  have hpending : ∀ kid, s.Pending kid → kid ∉ s.completed := by
    rintro kid (⟨i, hi⟩ | ⟨child, rest, hmem⟩)
    · exact (h.sole.self_only _ kid hi).2
    · exact (h.sole.queued_only kid (List.mem_map_of_mem (f := Prod.fst) hmem)).2.1
  have hcalm : s.Calm := by
    refine ⟨fun t => ?_, h.sole.completed_lt⟩
    rcases h.awake t with ht | ⟨job, ht⟩
    · rw [ht]
      exact nofun
    · rw [ht]
      exact nofun
  have hkept : ∀ t, ∃ job, s.pc t = .body job ∧
      (t = none ∨ job.todo ≠ .awaits ∨ ∃ kid ∈ job.kids, kid ∉ s.completed) := by
    intro t
    cases t with
    | none =>
        obtain ⟨job, hjob⟩ := h.caller
        exact ⟨job, hjob, .inl rfl⟩
    | some i =>
        obtain ⟨job, hjob, hkeeps⟩ := (h.workers i).resolve_left (hfull i)
        refine ⟨job, hjob, .inr (hkeeps.imp_right ?_)⟩
        rintro ⟨kid, hmem, hkid⟩
        exact ⟨kid, hmem, hpending kid hkid⟩
  obtain ⟨s', hreach, -, -, hsettled, -⟩ := settles h.reachable hcalm hkept Finset.univ
  have hinv := hreach.inv
  have hsleeps : ∀ t, (∃ job, s'.pc t = .asleepOn job) ∨ s'.pc t = .done :=
    fun t => hsettled t (Finset.mem_univ t)
  have hidle : ∀ t, s'.pc t ≠ .ready ∧ ∀ job, s'.pc t ≠ .body job := by
    intro t
    rcases hsleeps t with ⟨job, ht⟩ | ht
    · rw [ht]
      exact ⟨nofun, nofun⟩
    · rw [ht]
      exact ⟨nofun, nofun⟩
  refine ⟨s', hreach, ?_, ?_⟩
  · rcases hsleeps (some ⟨0, hn⟩) with ⟨job, ht⟩ | ht
    · obtain ⟨kid, kids, hjob, hkid⟩ := hinv.waiting _ job ht
      refine ⟨kid, hinv.shape.kids_lt (some ⟨0, hn⟩) kid ?_, hkid⟩
      rw [ht, Pc.job, hjob]
      exact List.mem_cons_self
    · have hfits := hinv.fits (some ⟨0, hn⟩)
      rw [ht] at hfits
      exact hfits.elim
  · intro a s'' hstep
    cases hstep with
    | check hi => exact absurd hi (hidle _).1
    | complete hi _ => exact absurd hi ((hidle _).2 _)
    | spawn ht _ => exact absurd ht ((hidle _).2 _)
    | awaitDone ht _ => exact absurd ht ((hidle _).2 _)
    | awaitWaits ht _ => exact absurd ht ((hidle _).2 _)
    | returns ht => exact absurd ht ((hidle _).2 _)
    | @wake t _ => exact ⟨t, rfl⟩

/-- The pool never gets stuck if and only if it has more workers than there are tasks that wait for
tasks. -/
theorem never_stuck_iff (hn : 0 < n) : DeadlockFree n root ↔ root.waiters < n := by
  constructor
  · intro hfree
    by_contra hroot
    obtain ⟨s, hreach, hstuck⟩ := exists_stuck hn (Nat.not_lt.1 hroot)
    exact hfree s hreach hstuck
  · intro hroot s hreach
    exact hreach.inv.not_stuck hroot

/-- Two workers are enough for a task with one child. -/
theorem never_stuck_two : DeadlockFree 2 (.spawns (.spawns .awaits .awaits) .awaits) :=
  (never_stuck_iff two_pos).2 (by decide)

/-- One worker is not: it waits for a task that only it could run. -/
theorem stuck_one : ¬ ∀ (n : ℕ) (root : Task), 0 < n → DeadlockFree n root := by
  intro h
  obtain ⟨s, hreach, hstuck⟩ :=
    exists_stuck (n := 1) one_pos (show 1 ≤ (Task.spawns (.spawns .awaits .awaits) .awaits).waiters by
      decide)
  exact h 1 _ one_pos s hreach hstuck

end

end Limceron.Runtime.Nesting
