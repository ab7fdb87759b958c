/-
# `Limceron.Runtime.Lifecycle` — children are started and stopped in turn

The calls of a child's `start_fn` and `stop_fn` should alternate, from a start,
and a child whose state is `STOPPED` should have been stopped as often as it was
started.  Between calls of the interface a child is stopped or running
(`Settled`), and a report of a running child by which it is stopped keeps that.
Two reports do not: one after which a child with `restart_mode=never` is only
marked as stopped, and one that names a child that was not running, which is
then stopped a second time.

| | |
| :-- | :-- |
| `Turn` | calls in turn, and whether the last was a start |
| `Regular` | what is promised of a child |
| `LcnSupervisor.Orderly` | the report names a running child, unless it only marks it |
| `regular_iff` | the condition is exact |
-/
import Limceron.Runtime.Supervisor

namespace Limceron.Runtime

open Systems

/-! ## Calls in turn -/

/-- Starts and stops that alternate from a start; the flag says if a stop is next. -/
inductive Turn : Bool → List ChildCall → Prop where
  | nil : Turn false []
  | start {l : List ChildCall} : Turn false l → Turn true (l ++ [.start])
  | stop {l : List ChildCall} : Turn true l → Turn false (l ++ [.stop])

def Alternates (l : List ChildCall) : Prop := ∃ b, Turn b l

namespace Turn

variable {b : Bool} {l : List ChildCall}

theorem count (h : Turn b l) : l.count .start = l.count .stop + b.toNat := by
  induction h with
  | nil => rfl
  | start _ ih =>
      rw [List.count_append, List.count_append, ih]
      rfl
  | stop _ ih =>
      rw [List.count_append, List.count_append, ih]
      rfl

theorem snoc_inv {c : ChildCall} (h : Turn b (l ++ [c])) :
    (c = .start ∧ b = true ∧ Turn false l) ∨ (c = .stop ∧ b = false ∧ Turn true l) := by
  generalize hl : l ++ [c] = l' at h
  cases h with
  | nil => exact absurd hl (List.append_ne_nil_of_right_ne_nil l (List.cons_ne_nil c []))
  | start h =>
      obtain ⟨rfl, hc⟩ := List.append_inj' hl rfl
      exact .inl ⟨List.head_eq_of_cons_eq hc, rfl, h⟩
  | stop h =>
      obtain ⟨rfl, hc⟩ := List.append_inj' hl rfl
      exact .inr ⟨List.head_eq_of_cons_eq hc, rfl, h⟩

end Turn

/-- What is in turn was so at any time before. -/
theorem Alternates.left {l r : List ChildCall} (h : Alternates (l ++ r)) : Alternates l := by
  induction r using List.reverseRecOn with
  | nil => rwa [List.append_nil] at h
  | append_singleton r c ih =>
      obtain ⟨b, h⟩ := h
      rw [← List.append_assoc] at h
      rcases h.snoc_inv with ⟨-, -, h⟩ | ⟨-, -, h⟩
      · exact ih ⟨_, h⟩
      · exact ih ⟨_, h⟩

/-- Nothing is stopped twice. -/
theorem Turn.not_alternates_stop {l : List ChildCall} (h : Turn false l) (r : List ChildCall) :
    ¬ Alternates (l ++ [.stop] ++ r) := by
  intro halt
  obtain ⟨b, hb⟩ := halt.left
  rcases hb.snoc_inv with ⟨hc, -⟩ | ⟨-, -, hl⟩
  · cases hc
  · have hcount := h.count
    rw [hl.count] at hcount
    simp at hcount

/-! ## Children -/

/-- What is promised of a child. -/
structure Regular (c : LcnSupervisorChild) : Prop where
  alternates : Alternates c.called
  balanced : c.state = .stopped → c.called.count .start = c.called.count .stop

/-- The child has both functions, and is running or stopped as the calls of them say. -/
structure Settled (c : LcnSupervisorChild) : Prop where
  startFn : c.startFn = true
  stopFn : c.stopFn = true
  turn : (c.state = .running ∧ Turn true c.called) ∨ (c.state = .stopped ∧ Turn false c.called)

namespace Settled

variable {c : LcnSupervisorChild}

theorem regular (h : Settled c) : Regular c := by
  rcases h.turn with ⟨hstate, hturn⟩ | ⟨hstate, hturn⟩
  · refine ⟨⟨_, hturn⟩, fun hstopped => ?_⟩
    rw [hstate] at hstopped
    cases hstopped
  · exact ⟨⟨_, hturn⟩, fun _ => hturn.count⟩

theorem new (mode : LcnRestartMode) : Settled (childNew true true mode) :=
  ⟨rfl, rfl, .inr ⟨rfl, .nil⟩⟩

theorem childStart (h : Settled c) : Settled (childStart c) := by
  unfold Runtime.childStart
  rcases h.turn with ⟨hstate, -⟩ | ⟨hstate, hturn⟩
  · rw [if_pos hstate]
    exact h
  · rw [if_neg (by rw [hstate]; decide), if_pos h.startFn]
    exact ⟨h.startFn, h.stopFn, .inl ⟨rfl, hturn.start⟩⟩

/-- A child whose calls end with a start is stopped, whatever its state says. -/
theorem childStop_of_turn (hstart : c.startFn = true) (hstop : c.stopFn = true)
    (hstate : c.state ≠ .stopped) (hturn : Turn true c.called) : Settled (childStop c) := by
  unfold Runtime.childStop
  rw [if_neg hstate]
  refine ⟨hstart, hstop, .inr ⟨rfl, ?_⟩⟩
  show Turn false (if c.stopFn then c.called ++ [.stop] else c.called)
  rw [if_pos hstop]
  exact hturn.stop

theorem childStop (h : Settled c) : Settled (childStop c) := by
  rcases h.turn with ⟨hstate, hturn⟩ | ⟨hstate, -⟩
  · exact childStop_of_turn h.startFn h.stopFn (by rw [hstate]; decide) hturn
  · unfold Runtime.childStop
    rw [if_pos hstate]
    exact h

/-- Counters do not matter. -/
theorem withCounts (h : Settled c) (restarts failures : ℕ) :
    Settled { c with restartCount := restarts, consecutiveFailures := failures } :=
  ⟨h.startFn, h.stopFn, h.turn⟩

theorem restartAfterStop (h : Settled c) : Settled (childRestartAfterStop c) := by
  unfold childRestartAfterStop
  split
  · exact ((h.withCounts (c.restartCount + 1) c.consecutiveFailures).childStart).withCounts _ 0
  · exact h

end Settled

/-! ## What a report does to each child -/

/-- A change that keeps a child settled, and only adds calls. -/
structure Keeps (f : LcnSupervisorChild → LcnSupervisorChild) : Prop where
  settled : ∀ c, Settled c → Settled (f c)
  called : ∀ c, ∃ r, (f c).called = c.called ++ r

namespace Keeps

variable {f g : LcnSupervisorChild → LcnSupervisorChild}

theorem id : Keeps id := ⟨fun _ h => h, fun _ => ⟨[], (List.append_nil _).symm⟩⟩

theorem comp (hf : Keeps f) (hg : Keeps g) : Keeps (f ∘ g) where
  settled c h := hf.settled _ (hg.settled c h)
  called c := by
    obtain ⟨r, hr⟩ := hg.called c
    obtain ⟨r', hr'⟩ := hf.called (g c)
    exact ⟨r ++ r', by rw [Function.comp, hr', hr, List.append_assoc]⟩

theorem ite {p : Prop} [Decidable p] (hf : Keeps f) (hg : Keeps g) : Keeps (if p then f else g) := by
  split
  · exact hf
  · exact hg

theorem childStop : Keeps childStop where
  settled _ h := h.childStop
  called c := by
    unfold Runtime.childStop
    split
    · exact ⟨[], (List.append_nil _).symm⟩
    · show ∃ r, (if c.stopFn then c.called ++ [.stop] else c.called) = c.called ++ r
      split
      · exact ⟨_, rfl⟩
      · exact ⟨[], (List.append_nil _).symm⟩

theorem childStart : Keeps childStart where
  settled _ h := h.childStart
  called c := by
    unfold Runtime.childStart
    split
    · exact ⟨[], (List.append_nil _).symm⟩
    · split
      · exact ⟨_, rfl⟩
      · exact ⟨[], (List.append_nil _).symm⟩

/-- The second half of a restart. -/
theorem startAgain : Keeps fun c =>
    { Runtime.childStart { c with restartCount := c.restartCount + 1 } with
      consecutiveFailures := 0 } where
  settled c h := (h.withCounts (c.restartCount + 1) c.consecutiveFailures).childStart.withCounts _ 0
  called c := childStart.called { c with restartCount := c.restartCount + 1 }

theorem restartAfterStop : Keeps childRestartAfterStop where
  settled _ h := h.restartAfterStop
  called c := by
    unfold childRestartAfterStop
    split
    · exact startAgain.called c
    · exact ⟨[], (List.append_nil _).symm⟩

end Keeps

namespace LcnSupervisor

variable {sup : LcnSupervisor}

/-- The report of this child only marks it as stopped. -/
def MarksOnly (sup : LcnSupervisor) (index recorded noted checked : ℤ) (c : LcnSupervisorChild) :
    Prop :=
  sup.strategy = .oneForOne ∧ c.restartMode = .never ∧
    (sup.noteFailure index.toNat recorded noted).overLimit checked = false

/-- The child that is reported is running, unless the report only marks it. -/
def Orderly (sup : LcnSupervisor) (call : SupervisorCall) : Prop :=
  ∀ index recorded noted checked, call = .childFailed index recorded noted checked →
    sup.Accepts index → ∀ c, sup.children[index.toNat]? = some c →
      (c.state = .running ↔ ¬ sup.MarksOnly index recorded noted checked c)

theorem noteFailure_getElem? (sup : LcnSupervisor) (i : ℕ) (recorded noted : ℤ) (j : ℕ) :
    (sup.noteFailure i recorded noted).children[j]? =
      sup.children[j]?.map (if j = i then childFail else id) := by
  have hget : (sup.noteFailure i recorded noted).children[j]? =
      if j ∈ [i] then sup.children[j]?.map childFail else sup.children[j]? :=
    eachChild_getElem? (List.nodup_singleton i) j
  rw [hget, if_congr List.mem_singleton rfl rfl]
  split
  · rfl
  · exact Option.map_id_apply.symm

/-- What a report makes of each child, the one with index `i` being stopped first. -/
def Handles (sup sup' : LcnSupervisor) (i : ℕ) : Prop :=
  ∀ j, ∃ e, Keeps e ∧
    sup'.children[j]? = sup.children[j]?.map (e ∘ if j = i then childStop ∘ childFail else id)

/-- A loop that stops the children from `k` on, the failed one among them. -/
theorem handles_stopFrom {k i : ℕ} (hki : k ≤ i) (recorded noted : ℤ) :
    sup.Handles ((sup.noteFailure i recorded noted).eachChild
      ((sup.noteFailure i recorded noted).indicesFrom k).reverse childStop) i := by
  intro j
  rw [stopFrom_getElem?, noteFailure_getElem?, Option.map_map]
  by_cases hj : j = i
  · subst hj
    rw [if_pos hki, if_pos rfl, if_pos rfl]
    exact ⟨id, .id, rfl⟩
  · rw [if_neg hj, if_neg hj]
    exact ⟨_, Keeps.childStop.ite Keeps.id, rfl⟩

theorem Handles.eachChild {sup' : LcnSupervisor} {i : ℕ} (h : sup.Handles sup' i) {is : List ℕ}
    (his : is.Nodup) {f : LcnSupervisorChild → LcnSupervisorChild} (hf : Keeps f) :
    sup.Handles (sup'.eachChild is f) i := by
  intro j
  obtain ⟨e, he, heffect⟩ := h j
  rw [eachChild_getElem? his, heffect]
  split
  · rw [Option.map_map]
    exact ⟨f ∘ e, hf.comp he, rfl⟩
  · exact ⟨e, he, rfl⟩

/-- The strategy stops the child that has failed, unless it only marks it. -/
theorem handles_applyStrategy {i : ℕ} {c : LcnSupervisorChild} (hc : sup.children[i]? = some c)
    (recorded noted : ℤ) (hnot : ¬ (sup.strategy = .oneForOne ∧ c.restartMode = .never)) :
    sup.Handles ((sup.noteFailure i recorded noted).applyStrategy i) i := by
  have hstrategy : (sup.noteFailure i recorded noted).strategy = sup.strategy := rfl
  unfold applyStrategy
  rw [hstrategy]
  cases hs : sup.strategy with
  | oneForAll =>
      exact (handles_stopFrom (Nat.zero_le i) recorded noted).eachChild
        (indicesFrom_nodup _ 0) Keeps.restartAfterStop
  | restForAll =>
      exact (handles_stopFrom (le_refl i) recorded noted).eachChild
        (indicesFrom_nodup _ i) Keeps.restartAfterStop
  | oneForOne =>
      have hmode : c.restartMode ≠ .never := fun hmode => hnot ⟨hs, hmode⟩
      intro j
      show ∃ e, Keeps e ∧ ((sup.noteFailure i recorded noted).eachChild [i] _).children[j]? = _
      rw [eachChild_getElem? (List.nodup_singleton i), noteFailure_getElem?]
      by_cases hj : j = i
      · subst hj
        rw [if_pos (List.mem_singleton_self j), if_pos rfl, if_pos rfl, hc]
        refine ⟨_, Keeps.startAgain, ?_⟩
        show some (if c.restartMode = .never then _ else childRestart (childFail c)) = some _
        rw [if_neg hmode]
        rfl
      · rw [if_neg (fun h => hj (List.mem_singleton.1 h)), if_neg hj, if_neg hj]
        exact ⟨id, .id, rfl⟩

/-- A report that does more than to mark a child stops it first. -/
theorem handles_report {index recorded noted checked : ℤ} (haccepts : sup.Accepts index)
    {c : LcnSupervisorChild} (hc : sup.children[index.toNat]? = some c)
    (hnot : ¬ sup.MarksOnly index recorded noted checked c) :
    sup.Handles (sup.childFailed index recorded noted checked).2 index.toNat := by
  rw [childFailed_of_accepts haccepts]
  show sup.Handles (ite _ _ _ : ℤ × LcnSupervisor).2 index.toNat
  split
  · exact handles_stopFrom (Nat.zero_le _) recorded noted
  · refine handles_applyStrategy hc recorded noted ?_
    rintro ⟨hs, hmode⟩
    exact hnot ⟨hs, hmode, Bool.eq_false_iff.2 ‹_›⟩

/-- A report that only marks the child. -/
theorem marks_report {index recorded noted checked : ℤ} (haccepts : sup.Accepts index)
    {c : LcnSupervisorChild} (hc : sup.children[index.toNat]? = some c)
    (hmarks : sup.MarksOnly index recorded noted checked c) (j : ℕ) :
    (sup.childFailed index recorded noted checked).2.children[j]? =
      if j = index.toNat then some { childFail c with state := .stopped } else sup.children[j]? := by
  obtain ⟨hs, hmode, hover⟩ := hmarks
  have hstrategy : (sup.noteFailure index.toNat recorded noted).strategy = .oneForOne := hs
  rw [childFailed_of_accepts haccepts]
  show (ite _ _ _ : ℤ × LcnSupervisor).2.children[j]? = _
  rw [hover, if_neg Bool.false_ne_true]
  show ((sup.noteFailure index.toNat recorded noted).applyStrategy index.toNat).children[j]? = _
  rw [applyStrategy, hstrategy]
  show ((sup.noteFailure index.toNat recorded noted).eachChild [index.toNat] _).children[j]? = _
  rw [eachChild_getElem? (List.nodup_singleton _), noteFailure_getElem?,
    if_congr List.mem_singleton rfl rfl]
  by_cases hj : j = index.toNat
  · subst hj
    rw [if_pos rfl, if_pos rfl, if_pos rfl, hc]
    show some (if c.restartMode = .never then _ else childRestart (childFail c)) = some _
    rw [if_pos hmode]
  · rw [if_neg hj, if_neg hj, if_neg hj]
    exact Option.map_id_apply

/-! ## Calls -/

/-- All children are settled. -/
def AllSettled (sup : LcnSupervisor) : Prop := ∀ c ∈ sup.children, Settled c

/-- All children are regular. -/
def AllRegular (sup : LcnSupervisor) : Prop := ∀ c ∈ sup.children, Regular c

theorem allSettled_of_getElem? {sup' : LcnSupervisor}
    (h : ∀ (j : ℕ) (c : LcnSupervisorChild), sup'.children[j]? = some c → Settled c) :
    sup'.AllSettled := by
  intro c hc
  obtain ⟨j, hj⟩ := List.mem_iff_getElem?.1 hc
  exact h j c hj

theorem AllSettled.get (h : sup.AllSettled) {j : ℕ} {c : LcnSupervisorChild}
    (hc : sup.children[j]? = some c) : Settled c :=
  h c (List.mem_of_getElem? hc)

theorem AllSettled.addChild (h : sup.AllSettled) (mode : LcnRestartMode) :
    (sup.addChild true true mode).AllSettled := by
  unfold LcnSupervisor.addChild
  split
  · exact h
  · intro c hc
    rcases List.mem_append.1 hc with hc | hc
    · exact h c hc
    · rw [List.mem_singleton.1 hc]
      exact .new mode

theorem AllSettled.start (h : sup.AllSettled) (now : ℤ) : (sup.start now).AllSettled := by
  unfold LcnSupervisor.start
  split
  · exact h
  · exact forall_eachChild h fun _ hc => hc.childStart

theorem AllSettled.stop (h : sup.AllSettled) : sup.stop.AllSettled := by
  unfold LcnSupervisor.stop
  split
  · exact h
  · have hstopped : sup.stopAll.AllSettled := forall_eachChild h fun _ hc => hc.childStop
    exact hstopped

/-- A running child that has failed is stopped like any other. -/
theorem settled_stopped {c : LcnSupervisorChild} (h : Settled c) (hrunning : c.state = .running) :
    Settled (childStop (childFail c)) := by
  have hturn : Turn true c.called := by
    rcases h.turn with ⟨-, hturn⟩ | ⟨hstopped, -⟩
    · exact hturn
    · rw [hrunning] at hstopped
      cases hstopped
  exact Settled.childStop_of_turn (c := childFail c) h.startFn h.stopFn nofun hturn

/-- A report of a running child that is handled, or of a stopped one that is only marked. -/
theorem AllSettled.report (h : sup.AllSettled) {index recorded noted checked : ℤ}
    (horderly : sup.Orderly (.childFailed index recorded noted checked)) :
    (sup.childFailed index recorded noted checked).2.AllSettled := by
  by_cases haccepts : sup.Accepts index
  · obtain ⟨c, hc⟩ : ∃ c, sup.children[index.toNat]? = some c :=
      ⟨_, List.getElem?_eq_getElem (by have := haccepts.1; omega)⟩
    have hiff := horderly index recorded noted checked rfl haccepts c hc
    refine allSettled_of_getElem? fun j d hd => ?_
    by_cases hmarks : sup.MarksOnly index recorded noted checked c
    · rw [marks_report haccepts hc hmarks] at hd
      split at hd
      · cases hd
        have hsettled := h.get hc
        rcases hsettled.turn with ⟨hrunning, -⟩ | ⟨-, hturn⟩
        · exact absurd hmarks (hiff.1 hrunning)
        · exact ⟨hsettled.startFn, hsettled.stopFn, .inr ⟨rfl, hturn⟩⟩
      · exact h.get hd
    · obtain ⟨e, he, heffect⟩ := handles_report haccepts hc hmarks j
      rw [heffect] at hd
      obtain ⟨d₀, hd₀, rfl⟩ := Option.map_eq_some_iff.1 hd
      refine he.settled _ ?_
      by_cases hj : j = index.toNat
      · subst hj
        cases hc.symm.trans hd₀
        rw [if_pos rfl]
        exact settled_stopped (h.get hc) (hiff.2 hmarks)
      · rw [if_neg hj]
        exact h.get hd₀
  · rw [childFailed_of_not_accepts haccepts]
    exact h

/-- The calls add only children that have both functions. -/
def Equipped (calls : List SupervisorCall) : Prop :=
  ∀ startFn stopFn mode, .addChild startFn stopFn mode ∈ calls → startFn = true ∧ stopFn = true

theorem AllSettled.step {calls : List SupervisorCall} (hcalls : Equipped calls)
    (h : sup.AllSettled) {call : SupervisorCall} (hcall : call ∈ calls)
    (horderly : sup.Orderly call) : (sup.step call).AllSettled := by
  cases call with
  | addChild startFn stopFn mode =>
      obtain ⟨rfl, rfl⟩ := hcalls startFn stopFn mode hcall
      exact h.addChild mode
  | start now => exact h.start now
  | stop => exact h.stop
  | childFailed index recorded noted checked => exact h.report horderly

/-- A running child that is only marked has not been stopped. -/
theorem not_regular_marked {c : LcnSupervisorChild} (h : Settled c) (hrunning : c.state = .running) :
    ¬ Regular { childFail c with state := .stopped } := by
  intro hregular
  rcases h.turn with ⟨-, hturn⟩ | ⟨hstopped, -⟩
  · have hcount := hturn.count
    have hbalanced : c.called.count .start = c.called.count .stop := hregular.balanced rfl
    rw [hbalanced] at hcount
    simp at hcount
  · rw [hrunning] at hstopped
    cases hstopped

/-- A child that was not running is stopped twice. -/
theorem not_regular_stopped {c : LcnSupervisorChild} (h : Settled c) (hstate : c.state ≠ .running)
    {e : LcnSupervisorChild → LcnSupervisorChild} (he : Keeps e) :
    ¬ Regular (e (childStop (childFail c))) := by
  intro hregular
  rcases h.turn with ⟨hrunning, -⟩ | ⟨-, hturn⟩
  · exact hstate hrunning
  · obtain ⟨r, hr⟩ := he.called (childStop (childFail c))
    have halternates := hregular.alternates
    have hstop : (childStop (childFail c)).called = c.called ++ [.stop] := by
      have hfn : (childFail c).stopFn = true := h.stopFn
      show (if (childFail c).stopFn then (childFail c).called ++ [.stop] else _) = _
      rw [if_pos hfn]
      rfl
    rw [hr, hstop] at halternates
    exact hturn.not_alternates_stop r halternates

theorem AllSettled.not_regular (h : sup.AllSettled) {call : SupervisorCall}
    (horderly : ¬ sup.Orderly call) : ¬ (sup.step call).AllRegular := by
  intro hregular
  rw [Orderly] at horderly
  push Not at horderly
  obtain ⟨index, recorded, noted, checked, rfl, haccepts, c, hc, hstate⟩ := horderly
  have hnew : ∀ d, (sup.childFailed index recorded noted checked).2.children[index.toNat]? = some d →
      Regular d := fun d hd => hregular d (List.mem_of_getElem? hd)
  by_cases hmarks : sup.MarksOnly index recorded noted checked c
  · have hd := marks_report haccepts hc hmarks index.toNat
    rw [if_pos rfl] at hd
    refine not_regular_marked (h.get hc) ?_ (hnew _ hd)
    rcases hstate with ⟨hrunning, -⟩ | ⟨-, hnot⟩
    · exact hrunning
    · exact absurd hmarks hnot
  · obtain ⟨e, he, heffect⟩ := handles_report haccepts hc hmarks index.toNat
    rw [if_pos rfl, hc] at heffect
    refine not_regular_stopped (h.get hc) ?_ he (hnew _ heffect)
    rcases hstate with ⟨-, hmarks'⟩ | ⟨hstopped, -⟩
    · exact absurd hmarks' hmarks
    · exact hstopped

/-! ## The claim -/

/-- The children are regular throughout, if and only if each report that is accepted names a running
child, or a child that is not running and that it only marks. -/
theorem regular_iff (strategy : LcnSupervisorStrategy) (maxRestarts windowSeconds : ℤ)
    {calls : List SupervisorCall} (hcalls : Equipped calls) :
    Always step AllRegular (lcnSupervisorNew strategy maxRestarts windowSeconds) calls ↔
      EachMeets step Orderly (lcnSupervisorNew strategy maxRestarts windowSeconds) calls := by
  refine always_iff (I := AllSettled) (fun _ h c hc => (h c hc).regular)
    (fun _ _ hcall h horderly => h.step hcalls hcall horderly)
    (fun _ _ _ h horderly => h.not_regular horderly) ?_
  intro c hc
  cases hc

/-- A child is restarted once, and another is added to the running supervisor. -/
theorem regular_restart :
    Always step AllRegular (lcnSupervisorNew .oneForOne 3 60)
      [.addChild true true .always, .start 0, .childFailed 0 1 1 1, .addChild true true .never] := by
  refine (regular_iff .oneForOne 3 60 ?_).2 ?_
  · intro startFn stopFn mode h
    simp only [List.mem_cons, SupervisorCall.addChild.injEq, reduceCtorEq, List.not_mem_nil, false_or,
      or_false] at h
    rcases h with ⟨rfl, rfl, -⟩ | ⟨rfl, rfl, -⟩ <;> exact ⟨rfl, rfl⟩
  · refine eachMeets_cons.2 ⟨nofun, eachMeets_cons.2 ⟨nofun, eachMeets_cons.2 ⟨?_,
      eachMeets_cons.2 ⟨nofun, eachMeets_nil⟩⟩⟩⟩
    rintro index recorded noted checked ⟨⟩ - c ⟨⟩
    refine iff_of_true rfl ?_
    rintro ⟨-, hmode, -⟩
    cases hmode

/-- A child that is not to be restarted has failed: it is marked as stopped, and was not. -/
theorem marked_not_stopped :
    ¬ ∀ (strategy : LcnSupervisorStrategy) (maxRestarts windowSeconds : ℤ)
        (calls : List SupervisorCall), Equipped calls →
      Always step AllRegular (lcnSupervisorNew strategy maxRestarts windowSeconds) calls := by
  intro h
  have hequipped : Equipped [.addChild true true .never, .start 0, .childFailed 0 0 0 0] := by
    intro startFn stopFn mode h
    simp only [List.mem_cons, SupervisorCall.addChild.injEq, reduceCtorEq, List.not_mem_nil, or_false]
      at h
    exact ⟨h.1, h.2.1⟩
  have hregular := h .oneForOne 3 60 _ hequipped _ (List.prefix_refl _) _
    (List.mem_of_getElem? (i := 0) rfl)
  have hbalanced := hregular.balanced (by decide)
  revert hbalanced
  decide

end LcnSupervisor

end Limceron.Runtime
