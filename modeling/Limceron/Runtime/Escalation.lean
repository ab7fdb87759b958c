/-
# `Limceron.Runtime.Escalation` — when a supervisor gives up

A supervisor is to escalate on a report when more than `max_restarts` reports,
this one included, are in the window that ends with it.  The count is taken from
the ring of the history, which has the last 256 reports; since the clock does not
go back, what is missing from the ring matters only if all of the ring is in the
window.  So the count is the number of reports in the window, up to 256
(`count_eq`), and the supervisor escalates when it should exactly if its limit is
below that (`escalates_iff`).

| | |
| :-- | :-- |
| `Reported` | a supervisor, and the times of the reports it has accepted |
| `Reported.Due` | more reports in the window than the limit |
| `Escalates` | what a call does when an escalation is due, not due, or past |
-/
import Limceron.Runtime.Supervisor

namespace Limceron.Runtime

open Systems

/-! ## What is promised -/

/-- A supervisor, and the times of the reports that it has accepted. -/
structure Reported where
  sup : LcnSupervisor
  reports : List ℤ

namespace Reported

/-- The reports after a call. -/
def reportsAfter (r : Reported) : SupervisorCall → List ℤ
  | .childFailed index recorded _ _ =>
    if r.sup.Accepts index then r.reports ++ [recorded] else r.reports
  | _ => r.reports

def step (r : Reported) (c : SupervisorCall) : Reported where
  sup := r.sup.step c
  reports := r.reportsAfter c

def new (strategy : LcnSupervisorStrategy) (maxRestarts windowSeconds : ℤ) : Reported where
  sup := lcnSupervisorNew strategy maxRestarts windowSeconds
  reports := []

/-- With the report at the time `recorded`, more reports than the limit are in the window. -/
def Due (r : Reported) (recorded checked : ℤ) : Prop :=
  r.sup.maxRestarts <
    (r.reports ++ [recorded]).countP fun t => decide (checked - r.sup.windowSeconds ≤ t)

end Reported

/-- The call restarts no child of the supervisor, and starts none. -/
def StartsNone (sup sup' : LcnSupervisor) : Prop :=
  ∀ (i : ℕ) (c : LcnSupervisorChild), sup.children[i]? = some c →
    ∃ c' : LcnSupervisorChild, sup'.children[i]? = some c' ∧ c'.restartCount = c.restartCount ∧
      c'.called.count .start = c.called.count .start

/-- An escalation that is due happens, one that is not does not, and after it nothing is started
until the supervisor is. -/
structure Escalates (r : Reported) (c : SupervisorCall) : Prop where
  due : ∀ index recorded noted checked, c = .childFailed index recorded noted checked →
    r.sup.Accepts index → r.Due recorded checked →
      (r.sup.call c).1 = some (-2) ∧ (r.step c).sup.state = .escalated ∧
        (∀ child ∈ (r.step c).sup.children, child.state = .stopped) ∧
          StartsNone r.sup (r.step c).sup
  notDue : ∀ index recorded noted checked, c = .childFailed index recorded noted checked →
    r.sup.Accepts index → ¬ r.Due recorded checked →
      (r.sup.call c).1 = some 0 ∧ (r.step c).sup.state = .running
  past : r.sup.state ≠ .running → (∀ now, c ≠ .start now) →
    (r.step c).sup.state ≠ .running ∧ StartsNone r.sup (r.step c).sup

/-- The times that a call reads. -/
def SupervisorCall.readings : SupervisorCall → List ℤ
  | .start now => [now]
  | .childFailed _ recorded noted checked => [recorded, noted, checked]
  | _ => []

/-- The clock does not go back. -/
def Timed (calls : List SupervisorCall) : Prop :=
  (calls.flatMap SupervisorCall.readings).Pairwise (· ≤ ·)

/-! ## The history -/

theorem foldl_count {α : Type*} (p : α → Prop) [DecidablePred p] (l : List α) (n : ℕ) :
    l.foldl (fun n a => if p a then n + 1 else n) n = n + l.countP fun a => decide (p a) := by
  induction l generalizing n with
  | nil => rfl
  | cons a l ih =>
      rw [List.foldl_cons, ih, List.countP_cons]
      by_cases h : p a
      · simp [h]
        omega
      · simp [h]

/-- The ring has the last reports. -/
def Holds (h : LcnRestartHistory) (reports : List ℤ) : Prop :=
  Ring.contents historySlots h.timestamps h.head h.count = Ring.last historySlots reports

theorem Holds.count {h : LcnRestartHistory} {reports : List ℤ} (hh : Holds h reports) :
    h.count = min historySlots reports.length := by
  rw [← Ring.length_last, ← hh, Ring.length_contents]

theorem Holds.record {h : LcnRestartHistory} {reports : List ℤ} (hh : Holds h reports) (now : ℤ) :
    Holds (historyRecord h now) (reports ++ [now]) := by
  have hpos : 0 < historySlots := by decide
  have hcount := hh.count
  unfold historyRecord
  by_cases hlt : h.count < historySlots
  · rw [if_pos hlt]
    refine (Ring.contents_push hlt now).trans ?_
    rw [hh, Ring.last_of_le (by omega), Ring.last_of_le]
    rw [List.length_append, List.length_singleton]
    omega
  · rw [if_neg hlt]
    have hfull : h.count = historySlots := by omega
    rw [Holds, hfull] at hh
    rw [Holds, hfull]
    refine (Ring.contents_overwrite hpos now).trans ?_
    rw [hh, Ring.last_snoc (by omega) hpos]

/-- The count is the number of reports in the window, as far as the ring goes. -/
theorem count_eq {h : LcnRestartHistory} {reports : List ℤ} (hh : Holds h reports)
    (hsorted : reports.Pairwise (· ≤ ·)) {window : ℤ} (hwindow : 0 < window) (now : ℤ) :
    historyCountInWindow h window now =
      min historySlots (reports.countP fun t => decide (now - window ≤ t)) := by
  have hmono : reports.Pairwise fun a b =>
      decide (now - window ≤ a) = true → decide (now - window ≤ b) = true := by
    refine hsorted.imp fun {a b} hab ha => ?_
    simp only [decide_eq_true_eq] at ha ⊢
    omega
  rw [← Ring.countP_last hmono, ← hh, Ring.contents, List.countP_map]
  unfold historyCountInWindow
  by_cases hzero : h.count = 0
  · rw [if_pos (.inl hzero), hzero]
    rfl
  · rw [if_neg (by omega)]
    exact (foldl_count _ _ 0).trans (Nat.zero_add _)

/-! ## Runs -/

namespace Reported

variable {maxRestarts windowSeconds : ℤ} {r : Reported}

/-- The limits are those it was made with, and the ring has the last reports. -/
structure Inv (maxRestarts windowSeconds : ℤ) (r : Reported) : Prop where
  maxRestarts_eq : r.sup.maxRestarts = maxRestarts
  window_eq : r.sup.windowSeconds = windowSeconds
  holds : Holds r.sup.history r.reports

theorem Inv.step (h : r.Inv maxRestarts windowSeconds) (c : SupervisorCall) :
    (r.step c).Inv maxRestarts windowSeconds := by
  have hlimits := r.sup.step_limits c
  obtain ⟨hhistory, hmax, hwindow⟩ : (r.sup.step c).history = r.sup.historyAfter c ∧
      (r.sup.step c).maxRestarts = r.sup.maxRestarts ∧
      (r.sup.step c).windowSeconds = r.sup.windowSeconds := by
    simpa only [LcnSupervisor.limits, Prod.mk.injEq] using hlimits
  refine ⟨hmax.trans h.maxRestarts_eq, hwindow.trans h.window_eq, ?_⟩
  show Holds (r.sup.step c).history (r.reportsAfter c)
  rw [hhistory]
  cases c with
  | childFailed index recorded noted checked =>
      rw [LcnSupervisor.historyAfter, reportsAfter]
      split
      · exact h.holds.record recorded
      · exact h.holds
  | addChild => exact h.holds
  | start => exact h.holds
  | stop => exact h.holds

theorem Inv.run (h : r.Inv maxRestarts windowSeconds) (calls : List SupervisorCall) :
    (calls.foldl Reported.step r).Inv maxRestarts windowSeconds := by
  induction calls generalizing r with
  | nil => exact h
  | cons c calls ih => exact ih (h.step c)

theorem inv_new (strategy : LcnSupervisorStrategy) (maxRestarts windowSeconds : ℤ) :
    (new strategy maxRestarts windowSeconds).Inv maxRestarts
      (if windowSeconds > 0 then windowSeconds else 60) :=
  ⟨rfl, rfl, Ring.contents_zero.trans List.drop_nil.symm⟩

/-- The reports are among the times that were read. -/
theorem reportsAfter_sublist (r : Reported) (c : SupervisorCall) :
    (r.reportsAfter c).Sublist (r.reports ++ c.readings) := by
  cases c with
  | childFailed index recorded noted checked =>
      rw [reportsAfter]
      split
      · exact ((List.nil_sublist [noted, checked]).cons_cons recorded).append_left r.reports
      · exact List.sublist_append_left _ _
  | addChild => exact List.sublist_append_left _ _
  | start => exact List.sublist_append_left _ _
  | stop => exact List.sublist_append_left _ _

theorem reports_sublist (r : Reported) (calls : List SupervisorCall) :
    (calls.foldl step r).reports.Sublist (r.reports ++ calls.flatMap SupervisorCall.readings) := by
  induction calls generalizing r with
  | nil => exact List.sublist_append_left _ _
  | cons c calls ih =>
      rw [List.foldl_cons, List.flatMap_cons, ← List.append_assoc]
      exact (ih (r.step c)).trans ((r.reportsAfter_sublist c).append_right _)

/-- While the clock does not go back, the reports are in order. -/
theorem sorted_of_timed {strategy : LcnSupervisorStrategy} {calls before : List SupervisorCall}
    {index recorded noted checked : ℤ} (htimed : Timed calls)
    (hb : before ++ [.childFailed index recorded noted checked] <+: calls) :
    ((before.foldl step (new strategy maxRestarts windowSeconds)).reports ++ [recorded]).Pairwise
      (· ≤ ·) := by
  obtain ⟨after, rfl⟩ := hb
  rw [Timed, List.flatMap_append, List.flatMap_append] at htimed
  refine (List.pairwise_append.1 htimed).1.sublist ?_
  refine (reports_sublist (new strategy maxRestarts windowSeconds) before).append ?_
  exact (List.nil_sublist [noted, checked]).cons_cons recorded

/-- The test after a report compares the reports in the window, up to 256, with the limit. -/
theorem Inv.overLimit_iff (h : r.Inv maxRestarts windowSeconds) (hmax : 0 < maxRestarts)
    (hwindow : 0 < windowSeconds) (i : ℕ) {recorded : ℤ} (noted checked : ℤ)
    (hsorted : (r.reports ++ [recorded]).Pairwise (· ≤ ·)) :
    (r.sup.noteFailure i recorded noted).overLimit checked = true ↔
      r.Due recorded checked ∧ maxRestarts < historySlots := by
  have hcount := count_eq (h.holds.record recorded) hsorted hwindow checked
  have htest : (r.sup.noteFailure i recorded noted).overLimit checked =
      decide (0 < r.sup.maxRestarts ∧ (historyCountInWindow (historyRecord r.sup.history recorded)
        r.sup.windowSeconds checked : ℤ) > r.sup.maxRestarts) := rfl
  rw [htest, Due, h.maxRestarts_eq, h.window_eq, hcount, decide_eq_true_eq]
  omega

end Reported

/-! ## Stopping -/

theorem StartsNone.refl (sup : LcnSupervisor) : StartsNone sup sup :=
  fun _ c hc => ⟨c, hc, rfl, rfl⟩

theorem StartsNone.trans {sup₁ sup₂ sup₃ : LcnSupervisor} (h : StartsNone sup₁ sup₂)
    (h' : StartsNone sup₂ sup₃) : StartsNone sup₁ sup₃ := by
  intro i c hc
  obtain ⟨c', hc', hcount, hstarts⟩ := h i c hc
  obtain ⟨c'', hc'', hcount', hstarts'⟩ := h' i c' hc'
  exact ⟨c'', hc'', hcount'.trans hcount, hstarts'.trans hstarts⟩

theorem childStop_starts (c : LcnSupervisorChild) :
    (childStop c).restartCount = c.restartCount ∧
      (childStop c).called.count .start = c.called.count .start := by
  unfold childStop
  split
  · exact ⟨rfl, rfl⟩
  · refine ⟨rfl, ?_⟩
    show (if c.stopFn then c.called ++ [.stop] else c.called).count .start = _
    split
    · rw [List.count_append]
      rfl
    · rfl

theorem startsNone_stopAll (sup : LcnSupervisor) : StartsNone sup sup.stopAll := by
  intro i c hc
  refine ⟨childStop c, ?_, childStop_starts c⟩
  rw [LcnSupervisor.stopAll_getElem?, hc]
  rfl

theorem startsNone_noteFailure (sup : LcnSupervisor) (i : ℕ) (recorded noted : ℤ) :
    StartsNone sup (sup.noteFailure i recorded noted) := by
  intro j c hc
  have hget : (sup.noteFailure i recorded noted).children[j]? =
      if j ∈ [i] then sup.children[j]?.map childFail else sup.children[j]? :=
    LcnSupervisor.eachChild_getElem? (List.nodup_singleton i) j
  rw [hc] at hget
  split at hget
  · exact ⟨childFail c, hget, rfl, rfl⟩
  · exact ⟨c, hget, rfl, rfl⟩

theorem stopAll_stopped (sup : LcnSupervisor) : ∀ c ∈ sup.stopAll.children, c.state = .stopped := by
  intro c hc
  obtain ⟨i, hi⟩ := List.mem_iff_getElem?.1 hc
  rw [LcnSupervisor.stopAll_getElem?] at hi
  obtain ⟨c₀, -, rfl⟩ := Option.map_eq_some_iff.1 hi
  exact LcnSupervisor.childStop_state c₀

/-! ## One call -/

namespace Reported

variable {maxRestarts windowSeconds : ℤ} {r : Reported}

/-- A supervisor that is not running starts nothing, unless it is started. -/
theorem past (h : r.sup.state ≠ .running) {c : SupervisorCall} (hc : ∀ now, c ≠ .start now) :
    (r.step c).sup.state ≠ .running ∧ StartsNone r.sup (r.step c).sup := by
  cases c with
  | start now => exact absurd rfl (hc now)
  | addChild startFn stopFn mode =>
      show (r.sup.addChild startFn stopFn mode).state ≠ .running ∧
        StartsNone r.sup (r.sup.addChild startFn stopFn mode)
      unfold LcnSupervisor.addChild
      split
      · exact ⟨h, .refl _⟩
      · refine ⟨h, fun i c hi => ⟨c, ?_, rfl, rfl⟩⟩
        rw [List.getElem?_append_left (List.getElem?_eq_some_iff.1 hi).1, hi]
  | stop =>
      show r.sup.stop.state ≠ .running ∧ StartsNone r.sup r.sup.stop
      unfold LcnSupervisor.stop
      split
      · exact ⟨h, .refl _⟩
      · exact ⟨nofun, startsNone_stopAll r.sup⟩
  | childFailed index recorded noted checked =>
      show (r.sup.childFailed index recorded noted checked).2.state ≠ .running ∧
        StartsNone r.sup (r.sup.childFailed index recorded noted checked).2
      rw [LcnSupervisor.childFailed_of_not_accepts fun haccepts => h haccepts.2]
      exact ⟨h, .refl _⟩

/-- What an accepted report does when the test finds the limit passed. -/
theorem over_step {index : ℤ} (h : r.sup.Accepts index) {recorded noted checked : ℤ}
    (hover : (r.sup.noteFailure index.toNat recorded noted).overLimit checked = true) :
    (r.sup.call (.childFailed index recorded noted checked)).1 = some (-2) ∧
      (r.step (.childFailed index recorded noted checked)).sup.state = .escalated ∧
        (∀ child ∈ (r.step (.childFailed index recorded noted checked)).sup.children,
            child.state = .stopped) ∧
          StartsNone r.sup (r.step (.childFailed index recorded noted checked)).sup := by
  have hcall : r.sup.childFailed index recorded noted checked =
      (-2, LcnSupervisor.stopAll
        { r.sup.noteFailure index.toNat recorded noted with state := .escalated }) := by
    rw [LcnSupervisor.childFailed_of_accepts h]
    exact if_pos hover
  show some (r.sup.childFailed index recorded noted checked).1 = _ ∧
    (r.sup.childFailed index recorded noted checked).2.state = _ ∧
    (∀ child ∈ (r.sup.childFailed index recorded noted checked).2.children, _) ∧
    StartsNone _ (r.sup.childFailed index recorded noted checked).2
  rw [hcall]
  exact ⟨rfl, rfl, stopAll_stopped _,
    (startsNone_noteFailure r.sup index.toNat recorded noted).trans (startsNone_stopAll _)⟩

/-- And when it does not. -/
theorem under_step {index : ℤ} (h : r.sup.Accepts index) {recorded noted checked : ℤ}
    (hover : ¬ (r.sup.noteFailure index.toNat recorded noted).overLimit checked = true) :
    (r.sup.call (.childFailed index recorded noted checked)).1 = some 0 ∧
      (r.step (.childFailed index recorded noted checked)).sup.state = .running := by
  obtain ⟨cs, hcs⟩ :=
    (r.sup.noteFailure index.toNat recorded noted).applyStrategy_eq index.toNat
  have hcall : r.sup.childFailed index recorded noted checked =
      (0, { r.sup.noteFailure index.toNat recorded noted with children := cs }) := by
    rw [LcnSupervisor.childFailed_of_accepts h, ← hcs]
    exact if_neg hover
  show some (r.sup.childFailed index recorded noted checked).1 = _ ∧
    (r.sup.childFailed index recorded noted checked).2.state = _
  rw [hcall]
  exact ⟨rfl, h.2⟩

/-- A limit below the size of the ring is kept. -/
theorem Inv.escalates (h : r.Inv maxRestarts windowSeconds) (hmax : 0 < maxRestarts)
    (hwindow : 0 < windowSeconds) (hsmall : maxRestarts < historySlots) {c : SupervisorCall}
    (hsorted : ∀ index recorded noted checked, c = .childFailed index recorded noted checked →
      (r.reports ++ [recorded]).Pairwise (· ≤ ·)) : Escalates r c where
  due := by
    rintro index recorded noted checked rfl haccepts hdue
    have hiff := h.overLimit_iff hmax hwindow index.toNat noted checked
      (hsorted index recorded noted checked rfl)
    exact over_step haccepts (hiff.2 ⟨hdue, hsmall⟩)
  notDue := by
    rintro index recorded noted checked rfl haccepts hdue
    have hiff := h.overLimit_iff hmax hwindow index.toNat noted checked
      (hsorted index recorded noted checked rfl)
    exact under_step haccepts fun hover => hdue (hiff.1 hover).1
  past hstate hc := past hstate hc

end Reported

/-! ## Limits that are too high -/

namespace Reported

variable {r : Reported}

/-- One child of a running supervisor, and `n` reports at time 0. -/
structure Idle (n : ℕ) (r : Reported) : Prop where
  running : r.sup.state = .running
  children : r.sup.children.length = 1
  reports : r.reports = List.replicate n 0

theorem applyStrategy_length (sup : LcnSupervisor) (i : ℕ) :
    (sup.applyStrategy i).children.length = sup.children.length := by
  unfold LcnSupervisor.applyStrategy
  split
  · exact LcnSupervisor.eachChild_length
  · exact LcnSupervisor.eachChild_length.trans LcnSupervisor.eachChild_length
  · exact LcnSupervisor.eachChild_length.trans LcnSupervisor.eachChild_length

/-- A count of at most 256 does not pass the limit. -/
theorem not_overLimit {sup : LcnSupervisor} {reports : List ℤ} (h : Holds sup.history reports)
    (hsorted : reports.Pairwise (· ≤ ·)) (hwindow : 0 < sup.windowSeconds)
    (hbig : (historySlots : ℤ) ≤ sup.maxRestarts) (now : ℤ) : ¬ sup.overLimit now = true := by
  rw [LcnSupervisor.overLimit, decide_eq_true_eq, count_eq h hsorted hwindow now]
  omega

theorem Idle.step {n : ℕ} {maxRestarts windowSeconds : ℤ} (h : r.Idle n)
    (hinv : r.Inv maxRestarts windowSeconds) (hwindow : 0 < windowSeconds)
    (hbig : (historySlots : ℤ) ≤ maxRestarts) :
    ((r.sup.call (.childFailed 0 0 0 0)).1 = some 0 ∧ r.sup.Accepts 0) ∧
      (r.step (.childFailed 0 0 0 0)).Idle (n + 1) := by
  have haccepts : r.sup.Accepts 0 := ⟨⟨Int.le_refl 0, by rw [h.children]; decide⟩, h.running⟩
  have hreports : r.reports ++ [0] = List.replicate (n + 1) 0 := by
    rw [h.reports]
    exact List.replicate_succ'.symm
  have hsorted : (r.reports ++ [0]).Pairwise (· ≤ ·) := by
    rw [hreports]
    exact List.pairwise_replicate.2 (.inr (Int.le_refl 0))
  have hover : ¬ (r.sup.noteFailure (0 : ℤ).toNat 0 0).overLimit 0 = true :=
    not_overLimit (hinv.holds.record 0) hsorted (hinv.window_eq.symm ▸ hwindow)
      (hinv.maxRestarts_eq.symm ▸ hbig) 0
  obtain ⟨hret, hstate⟩ := under_step haccepts hover
  refine ⟨⟨hret, haccepts⟩, hstate, ?_, ?_⟩
  · have hcall : r.sup.childFailed 0 0 0 0 =
        (0, (r.sup.noteFailure (0 : ℤ).toNat 0 0).applyStrategy (0 : ℤ).toNat) := by
      rw [LcnSupervisor.childFailed_of_accepts haccepts]
      exact if_neg hover
    show (r.sup.childFailed 0 0 0 0).2.children.length = 1
    rw [hcall, applyStrategy_length]
    exact LcnSupervisor.eachChild_length.trans h.children
  · show r.reportsAfter (.childFailed 0 0 0 0) = _
    rw [reportsAfter, if_pos haccepts, hreports]

/-- A supervisor with one child is started. -/
def opening : List SupervisorCall := [.addChild true true .always, .start 0]

/-- And then the child is reported again and again. -/
def failing (n : ℕ) : List SupervisorCall :=
  opening ++ List.replicate n (.childFailed 0 0 0 0)

theorem failing_succ (n : ℕ) : failing (n + 1) = failing n ++ [.childFailed 0 0 0 0] := by
  rw [failing, List.replicate_succ', ← List.append_assoc]
  rfl

theorem timed_failing (n : ℕ) : Timed (failing n) := by
  have hzero : ∀ t ∈ (failing n).flatMap SupervisorCall.readings, t = 0 := by
    intro t ht
    obtain ⟨c, hc, ht⟩ := List.mem_flatMap.1 ht
    rcases List.mem_append.1 hc with hc | hc
    · simp only [opening, List.mem_cons, List.not_mem_nil, or_false] at hc
      rcases hc with rfl | rfl <;> simp_all [SupervisorCall.readings]
    · rw [List.eq_of_mem_replicate hc] at ht
      simpa [SupervisorCall.readings] using ht
  have hrep := List.eq_replicate_of_mem hzero
  rw [Timed, hrep]
  exact List.pairwise_replicate.2 (.inr (Int.le_refl 0))

theorem idle_failing (strategy : LcnSupervisorStrategy) {maxRestarts : ℤ}
    (hbig : (historySlots : ℤ) ≤ maxRestarts) (windowSeconds : ℤ) (n : ℕ) :
    ((failing n).foldl step (new strategy maxRestarts windowSeconds)).Idle n := by
  induction n with
  | zero => exact ⟨rfl, rfl, rfl⟩
  | succ n ih =>
      rw [failing_succ, List.foldl_append]
      exact (ih.step ((inv_new strategy maxRestarts windowSeconds).run (failing n))
        (by split <;> omega) hbig).2

/-- With a limit that the ring cannot pass, the report that passes it goes by. -/
theorem not_escalates (strategy : LcnSupervisorStrategy) {maxRestarts : ℤ}
    (hbig : (historySlots : ℤ) ≤ maxRestarts) (windowSeconds : ℤ) :
    ¬ EachMeets step Escalates (new strategy maxRestarts windowSeconds)
      (failing (maxRestarts.toNat + 1)) := by
  intro h
  have hidle := idle_failing strategy hbig windowSeconds maxRestarts.toNat
  have hinv := (inv_new strategy maxRestarts windowSeconds).run (failing maxRestarts.toNat)
  have hesc := h (failing maxRestarts.toNat) (.childFailed 0 0 0 0) (by rw [failing_succ])
  have hwindow : 0 < if windowSeconds > 0 then windowSeconds else 60 := by split <;> omega
  obtain ⟨⟨hret, haccepts⟩, -⟩ := hidle.step hinv hwindow hbig
  have hdue : Due ((failing maxRestarts.toNat).foldl step (new strategy maxRestarts windowSeconds))
      0 0 := by
    rw [Due, hinv.maxRestarts_eq, hinv.window_eq, hidle.reports, ← List.replicate_succ',
      List.countP_replicate, if_pos]
    · omega
    · rw [decide_eq_true_eq]
      omega
  have hdone := (hesc.due 0 0 0 0 rfl haccepts hdue).1
  rw [hret] at hdone
  cases hdone

/-! ## The claim -/

/-- Whatever the calls, the supervisor escalates when it should, if and only if its limit is below
the size of the ring. -/
theorem escalates_iff (strategy : LcnSupervisorStrategy) {maxRestarts : ℤ} (hmax : 0 < maxRestarts)
    (windowSeconds : ℤ) :
    (∀ calls, Timed calls →
        EachMeets step Escalates (new strategy maxRestarts windowSeconds) calls) ↔
      maxRestarts < 256 := by
  constructor
  · intro h
    by_contra hbig
    exact not_escalates strategy (Int.not_lt.1 hbig) windowSeconds
      (h (failing (maxRestarts.toNat + 1)) (timed_failing _))
  · intro hsmall calls htimed before c hb
    have hwindow : 0 < if windowSeconds > 0 then windowSeconds else 60 := by split <;> omega
    refine ((inv_new strategy maxRestarts windowSeconds).run before).escalates hmax hwindow hsmall ?_
    rintro index recorded noted checked rfl
    exact sorted_of_timed htimed hb

theorem escalates_three : EachMeets step Escalates (new .oneForAll 3 60) (failing 4) :=
  (escalates_iff .oneForAll (by decide) 60).2 (by decide) (failing 4) (timed_failing 4)

/-- A limit of 256, and 257 reports at once: the supervisor does not escalate. -/
theorem limit_out_of_reach :
    ¬ ∀ (strategy : LcnSupervisorStrategy) (maxRestarts windowSeconds : ℤ)
        (calls : List SupervisorCall), 0 < maxRestarts → Timed calls →
      EachMeets step Escalates (new strategy maxRestarts windowSeconds) calls := by
  intro h
  exact not_escalates .oneForOne (by decide) 60
    (h .oneForOne 256 60 (failing 257) (by decide) (timed_failing 257))

end Reported

end Limceron.Runtime
