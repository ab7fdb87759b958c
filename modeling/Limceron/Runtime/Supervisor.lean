/-
# `Limceron.Runtime.Supervisor` — children that are restarted

`runtime/supervisor.c` starts and stops the children of a supervisor.  A child
that is reported to have failed is restarted, alone or with others, by the
strategy; the times of the last 256 reports are kept in a ring, and when too
many of them are in the window, all children are stopped and the supervisor has
escalated.

The functions of a child are called and do nothing here; the calls are noted
with the child, in their order.  A report reads the clock three times.  Names,
messages and the callback `on_escalate` are left out.

| | |
| :-- | :-- |
| `childStart`, `childStop`, `childRestart` | one child |
| `LcnSupervisor.eachChild` | a loop over children |
| `LcnSupervisor.call` | the calls of the interface |
-/
import Mathlib.Data.List.Nodup
import Limceron.Lib.Ring
import Limceron.Lib.Systems

namespace Limceron.Runtime

/-! ## Children -/

/-- `LcnChildState`. -/
inductive LcnChildState where
  | stopped | running | failed | restarting
  deriving DecidableEq

/-- `LcnRestartMode`. -/
inductive LcnRestartMode where
  | always | onFailure | never
  deriving DecidableEq

/-- A call of `start_fn` or `stop_fn`. -/
inductive ChildCall where
  | start | stop
  deriving DecidableEq

/-- `LcnSupervisorChild`: whether it has the functions, and the calls of them. -/
structure LcnSupervisorChild where
  startFn : Bool
  stopFn : Bool
  state : LcnChildState
  restartMode : LcnRestartMode
  restartCount : ℕ
  consecutiveFailures : ℕ
  called : List ChildCall

/-- `child_start`; the state is `RESTARTING` during the call. -/
def childStart (c : LcnSupervisorChild) : LcnSupervisorChild :=
  if c.state = .running then c
  else if c.startFn then { c with state := .running, called := c.called ++ [.start] }
  else c

/-- `child_stop`. -/
def childStop (c : LcnSupervisorChild) : LcnSupervisorChild :=
  if c.state = .stopped then c
  else { c with state := .stopped, called := if c.stopFn then c.called ++ [.stop] else c.called }

/-- `child_restart`. -/
def childRestart (c : LcnSupervisorChild) : LcnSupervisorChild :=
  let c := childStop c
  { childStart { c with restartCount := c.restartCount + 1 } with consecutiveFailures := 0 }

/-- The body of the loops that start children again. -/
def childRestartAfterStop (c : LcnSupervisorChild) : LcnSupervisorChild :=
  if c.restartMode ≠ .never then
    { childStart { c with restartCount := c.restartCount + 1 } with consecutiveFailures := 0 }
  else c

/-- A child that was just added. -/
def childNew (startFn stopFn : Bool) (mode : LcnRestartMode) : LcnSupervisorChild where
  startFn := startFn
  stopFn := stopFn
  state := .stopped
  restartMode := mode
  restartCount := 0
  consecutiveFailures := 0
  called := []

/-- A child that was reported. -/
def childFail (c : LcnSupervisorChild) : LcnSupervisorChild :=
  { c with state := .failed, consecutiveFailures := c.consecutiveFailures + 1 }

/-! ## History -/

/-- `LCN_SUPERVISOR_MAX_CHILDREN`. -/
def maxChildren : ℕ := 64

/-- `LCN_SUPERVISOR_MAX_RESTARTS`: the slots of the history. -/
def historySlots : ℕ := 256

/-- `LcnRestartHistory`. -/
structure LcnRestartHistory where
  timestamps : ℕ → ℤ
  head : ℕ
  count : ℕ

/-- `history_record`. -/
def historyRecord (h : LcnRestartHistory) (now : ℤ) : LcnRestartHistory :=
  let idx := (h.head + h.count) % historySlots
  let timestamps := Function.update h.timestamps idx now
  if h.count < historySlots then { h with timestamps := timestamps, count := h.count + 1 }
  else { h with timestamps := timestamps, head := (h.head + 1) % historySlots }

/-- `history_count_in_window`. -/
def historyCountInWindow (h : LcnRestartHistory) (windowSeconds now : ℤ) : ℕ :=
  if h.count = 0 ∨ windowSeconds ≤ 0 then 0
  else
    let cutoff := now - windowSeconds
    (List.range h.count).foldl (fun inWindow i =>
      if h.timestamps ((h.head + i) % historySlots) ≥ cutoff then inWindow + 1 else inWindow) 0

/-! ## Supervisors -/

/-- `LcnSupervisorStrategy`. -/
inductive LcnSupervisorStrategy where
  | oneForOne | restForAll | oneForAll
  deriving DecidableEq

/-- `LcnSupervisorState`. -/
inductive LcnSupervisorState where
  | stopped | running | shuttingDown | escalated
  deriving DecidableEq

/-- `LcnSupervisor`. -/
structure LcnSupervisor where
  strategy : LcnSupervisorStrategy
  maxRestarts : ℤ
  windowSeconds : ℤ
  state : LcnSupervisorState
  children : List LcnSupervisorChild
  history : LcnRestartHistory
  totalRestarts : ℕ
  startedAt : ℤ
  lastRestartAt : ℤ

/-- `lcn_supervisor_new`. -/
def lcnSupervisorNew (strategy : LcnSupervisorStrategy) (maxRestarts windowSeconds : ℤ) :
    LcnSupervisor where
  strategy := strategy
  maxRestarts := maxRestarts
  windowSeconds := if windowSeconds > 0 then windowSeconds else 60
  state := .stopped
  children := []
  history := { timestamps := fun _ => 0, head := 0, count := 0 }
  totalRestarts := 0
  startedAt := 0
  lastRestartAt := 0

namespace LcnSupervisor

/-- Do this to the children with these indices, in this order. -/
def eachChild (is : List ℕ) (f : LcnSupervisorChild → LcnSupervisorChild) (sup : LcnSupervisor) :
    LcnSupervisor :=
  { sup with children := is.foldl (fun cs i => cs.modify i f) sup.children }

/-- The indices from `i` on. -/
def indicesFrom (sup : LcnSupervisor) (i : ℕ) : List ℕ := List.range' i (sup.children.length - i)

/-- `strategy_one_for_one`. -/
def strategyOneForOne (sup : LcnSupervisor) (i : ℕ) : LcnSupervisor :=
  sup.eachChild [i] fun c =>
    if c.restartMode = .never then { c with state := .stopped } else childRestart c

/-- `strategy_one_for_all`. -/
def strategyOneForAll (sup : LcnSupervisor) : LcnSupervisor :=
  (sup.eachChild (sup.indicesFrom 0).reverse childStop).eachChild (sup.indicesFrom 0)
    childRestartAfterStop

/-- `strategy_rest_for_all`. -/
def strategyRestForAll (sup : LcnSupervisor) (i : ℕ) : LcnSupervisor :=
  (sup.eachChild (sup.indicesFrom i).reverse childStop).eachChild (sup.indicesFrom i)
    childRestartAfterStop

/-- All children stopped, the last first. -/
def stopAll (sup : LcnSupervisor) : LcnSupervisor :=
  sup.eachChild (sup.indicesFrom 0).reverse childStop

/-- The test of `check_escalation`. -/
def overLimit (sup : LcnSupervisor) (now : ℤ) : Bool :=
  0 < sup.maxRestarts ∧
    (historyCountInWindow sup.history sup.windowSeconds now : ℤ) > sup.maxRestarts

/-- `check_escalation`. -/
def checkEscalation (sup : LcnSupervisor) (now : ℤ) : Bool × LcnSupervisor :=
  if sup.overLimit now then (true, stopAll { sup with state := .escalated }) else (false, sup)

/-- `lcn_supervisor_add_child`. -/
def addChild (sup : LcnSupervisor) (startFn stopFn : Bool) (mode : LcnRestartMode) :
    LcnSupervisor :=
  if sup.children.length ≥ maxChildren then sup
  else { sup with children := sup.children ++ [childNew startFn stopFn mode] }

/-- `lcn_supervisor_start`. -/
def start (sup : LcnSupervisor) (now : ℤ) : LcnSupervisor :=
  if sup.state = .running then sup
  else eachChild (sup.indicesFrom 0) childStart { sup with state := .running, startedAt := now }

/-- `lcn_supervisor_stop`; the state is `SHUTTING_DOWN` during the loop. -/
def stop (sup : LcnSupervisor) : LcnSupervisor :=
  if sup.state = .stopped then sup else { stopAll sup with state := .stopped }

/-- `lcn_supervisor_child_failed` up to the check: the failure is noted, with the first two times. -/
def noteFailure (sup : LcnSupervisor) (i : ℕ) (recorded noted : ℤ) : LcnSupervisor :=
  { sup.eachChild [i] childFail with
    history := historyRecord sup.history recorded
    totalRestarts := sup.totalRestarts + 1
    lastRestartAt := noted }

/-- The `switch` on the strategy. -/
def applyStrategy (sup : LcnSupervisor) (i : ℕ) : LcnSupervisor :=
  match sup.strategy with
  | .oneForOne => sup.strategyOneForOne i
  | .oneForAll => sup.strategyOneForAll
  | .restForAll => sup.strategyRestForAll i

/-- `lcn_supervisor_child_failed`. -/
def childFailed (sup : LcnSupervisor) (index recorded noted checked : ℤ) : ℤ × LcnSupervisor :=
  if index < 0 ∨ index ≥ sup.children.length then (-1, sup)
  else if sup.state ≠ .running then (-1, sup)
  else
    match (sup.noteFailure index.toNat recorded noted).checkEscalation checked with
    | (true, sup) => (-2, sup)
    | (false, sup) => (0, sup.applyStrategy index.toNat)

end LcnSupervisor

/-! ## Calls -/

/-- A call of the interface, with the times that it reads. -/
inductive SupervisorCall where
  | addChild (startFn stopFn : Bool) (mode : LcnRestartMode)
  | start (now : ℤ)
  | stop
  | childFailed (index recorded noted checked : ℤ)

/-- What a call returns, if it returns something, and the supervisor after it. -/
def LcnSupervisor.call (sup : LcnSupervisor) : SupervisorCall → Option ℤ × LcnSupervisor
  | .addChild startFn stopFn mode => (none, sup.addChild startFn stopFn mode)
  | .start now => (none, sup.start now)
  | .stop => (none, sup.stop)
  | .childFailed index recorded noted checked =>
    let r := sup.childFailed index recorded noted checked
    (some r.1, r.2)

def LcnSupervisor.step (sup : LcnSupervisor) (c : SupervisorCall) : LcnSupervisor := (sup.call c).2

/-- The report names a child of a running supervisor. -/
def LcnSupervisor.Accepts (sup : LcnSupervisor) (index : ℤ) : Prop :=
  (0 ≤ index ∧ index < sup.children.length) ∧ sup.state = .running

instance (sup : LcnSupervisor) (index : ℤ) : Decidable (sup.Accepts index) :=
  inferInstanceAs (Decidable (_ ∧ _))

/-! ## Loops -/

/-- After a loop over different indices, the child with each of them is changed, once. -/
theorem getElem?_foldl_modify {α : Type*} (f : α → α) {is : List ℕ} (his : is.Nodup) (l : List α)
    (i : ℕ) :
    (is.foldl (fun l j => l.modify j f) l)[i]? = if i ∈ is then l[i]?.map f else l[i]? := by
  induction is generalizing l with
  | nil => rfl
  | cons j is ih =>
      obtain ⟨hj, his⟩ := List.nodup_cons.1 his
      rw [List.foldl_cons, ih his]
      by_cases hij : j = i
      · subst hij
        rw [if_neg hj, if_pos List.mem_cons_self, List.getElem?_modify_eq]
        rfl
      · have hmem : i ∈ j :: is ↔ i ∈ is := by
          rw [List.mem_cons]
          exact or_iff_right fun h => hij h.symm
        rw [List.getElem?_modify_ne _ _ hij, if_congr hmem rfl rfl]

theorem length_foldl_modify {α : Type*} (f : α → α) (is : List ℕ) (l : List α) :
    (is.foldl (fun l j => l.modify j f) l).length = l.length := by
  induction is generalizing l with
  | nil => rfl
  | cons j is ih => rw [List.foldl_cons, ih, List.length_modify]

namespace LcnSupervisor

variable {sup : LcnSupervisor} {is : List ℕ} {f : LcnSupervisorChild → LcnSupervisorChild}

theorem eachChild_getElem? (his : is.Nodup) (i : ℕ) :
    (sup.eachChild is f).children[i]? =
      if i ∈ is then sup.children[i]?.map f else sup.children[i]? :=
  getElem?_foldl_modify f his sup.children i

@[simp] theorem eachChild_length : (sup.eachChild is f).children.length = sup.children.length :=
  length_foldl_modify f is sup.children

theorem indicesFrom_nodup (sup : LcnSupervisor) (i : ℕ) : (sup.indicesFrom i).Nodup :=
  List.nodup_range'

theorem mem_indicesFrom {i j : ℕ} (hj : j < sup.children.length) :
    j ∈ sup.indicesFrom i ↔ i ≤ j := by
  rw [indicesFrom, List.mem_range'_1]
  omega

/-- A loop from an index on, in any order. -/
theorem eachChild_from {k : ℕ} (his : is.Nodup)
    (hmem : ∀ j, j < sup.children.length → (j ∈ is ↔ k ≤ j)) (j : ℕ) :
    (sup.eachChild is f).children[j]? = sup.children[j]?.map (if k ≤ j then f else id) := by
  rw [eachChild_getElem? his]
  cases hj : sup.children[j]? with
  | none => simp
  | some c =>
      have hiff := hmem j (List.getElem?_eq_some_iff.1 hj).1
      rw [if_congr hiff rfl rfl]
      split <;> rfl

theorem stopFrom_getElem? (sup : LcnSupervisor) (k j : ℕ) :
    (sup.eachChild (sup.indicesFrom k).reverse childStop).children[j]? =
      sup.children[j]?.map (if k ≤ j then childStop else id) :=
  eachChild_from (List.nodup_reverse.2 (sup.indicesFrom_nodup k))
    (fun _ hj => List.mem_reverse.trans (mem_indicesFrom hj)) j

/-- What each child keeps, a loop keeps of all. -/
theorem forall_eachChild {P : LcnSupervisorChild → Prop} (h : ∀ c ∈ sup.children, P c)
    (hf : ∀ c, P c → P (f c)) : ∀ c ∈ (sup.eachChild is f).children, P c := by
  have key : ∀ (is : List ℕ) (cs : List LcnSupervisorChild), (∀ c ∈ cs, P c) →
      ∀ c ∈ is.foldl (fun cs i => cs.modify i f) cs, P c := by
    intro is
    induction is with
    | nil => exact fun _ hcs => hcs
    | cons i is ih =>
        intro cs hcs
        refine ih _ fun c hc => ?_
        obtain ⟨j, hj⟩ := List.mem_iff_getElem?.1 hc
        rw [List.getElem?_modify] at hj
        obtain ⟨d, hd, rfl⟩ := Option.map_eq_some_iff.1 hj
        have hPd : P d := hcs d (List.mem_of_getElem? hd)
        split
        · exact hf d hPd
        · exact hPd
  exact key is sup.children h

/-! ## Reports -/

theorem childFailed_of_not_accepts {index : ℤ} (h : ¬ sup.Accepts index)
    (recorded noted checked : ℤ) : sup.childFailed index recorded noted checked = (-1, sup) := by
  unfold childFailed
  split
  · rfl
  · rw [if_pos]
    intro hrunning
    exact h ⟨by omega, hrunning⟩

theorem childFailed_of_accepts {index : ℤ} (h : sup.Accepts index) (recorded noted checked : ℤ) :
    sup.childFailed index recorded noted checked =
      let reported := sup.noteFailure index.toNat recorded noted
      if reported.overLimit checked then (-2, stopAll { reported with state := .escalated })
      else (0, reported.applyStrategy index.toNat) := by
  obtain ⟨hindex, hrunning⟩ := h
  rw [childFailed, if_neg (by omega), if_neg (not_not.2 hrunning), checkEscalation]
  cases hover : (sup.noteFailure index.toNat recorded noted).overLimit checked with
  | true => simp [hover]
  | false => simp [hover]

/-! ## What calls leave as it is -/

theorem childStop_state (c : LcnSupervisorChild) : (childStop c).state = .stopped := by
  unfold childStop
  split
  · assumption
  · rfl

theorem stopAll_getElem? (sup : LcnSupervisor) (i : ℕ) :
    sup.stopAll.children[i]? = sup.children[i]?.map childStop :=
  (sup.stopFrom_getElem? 0 i).trans (by rw [if_pos (Nat.zero_le i)])

/-- A strategy changes only children. -/
theorem applyStrategy_eq (sup : LcnSupervisor) (i : ℕ) :
    ∃ cs, sup.applyStrategy i = { sup with children := cs } := by
  unfold applyStrategy
  split
  · exact ⟨_, rfl⟩
  · exact ⟨_, rfl⟩
  · exact ⟨_, rfl⟩

/-- The history after a call. -/
def historyAfter (sup : LcnSupervisor) : SupervisorCall → LcnRestartHistory
  | .childFailed index recorded _ _ =>
    if sup.Accepts index then historyRecord sup.history recorded else sup.history
  | _ => sup.history

/-- What an escalation depends on. -/
def limits (sup : LcnSupervisor) : LcnRestartHistory × ℤ × ℤ :=
  (sup.history, sup.maxRestarts, sup.windowSeconds)

/-- Only an accepted report changes the history, and no call the limits. -/
theorem step_limits (sup : LcnSupervisor) (c : SupervisorCall) :
    (sup.step c).limits = (sup.historyAfter c, sup.maxRestarts, sup.windowSeconds) := by
  cases c with
  | addChild startFn stopFn mode =>
      show (sup.addChild startFn stopFn mode).limits = _
      unfold addChild
      split <;> rfl
  | start now =>
      show (sup.start now).limits = _
      unfold start
      split <;> rfl
  | stop =>
      show sup.stop.limits = _
      unfold stop
      split <;> rfl
  | childFailed index recorded noted checked =>
      show (sup.childFailed index recorded noted checked).2.limits = _
      by_cases h : sup.Accepts index
      · obtain ⟨cs, hcs⟩ := (sup.noteFailure index.toNat recorded noted).applyStrategy_eq index.toNat
        rw [childFailed_of_accepts h, historyAfter, if_pos h]
        show (ite _ _ _ : ℤ × LcnSupervisor).2.limits = _
        split
        · rfl
        · rw [hcs]
          rfl
      · rw [childFailed_of_not_accepts h, historyAfter, if_neg h]
        rfl

end LcnSupervisor

end Limceron.Runtime
