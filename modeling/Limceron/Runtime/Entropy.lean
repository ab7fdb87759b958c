/-
# `Limceron.Runtime.Entropy` — the entropy tracker, and its budget

`runtime/entropy.c` and `runtime/drift.c`, in exact arithmetic: over an ordered field, with
a function for `log`.  The tracker is a ring of the last entries; a check of a budget
compares

| | with |
| :-- | :-- |
| the average entropy | `max_avg_entropy` |
| the share of low confidence | `max_low_confidence` |
| the drift of the distribution | `max_drift`, if it is positive and there are two categories |

The drift is that from the distribution at the first check that came so far.  What is read
of the tracker is what the history of the calls says (`Reads`, `run_reads`).
-/
import Limceron.Lib.Ring
import Mathlib.Algebra.BigOperators.Group.List.Basic
import Mathlib.Algebra.Field.Defs
import Mathlib.Analysis.SpecialFunctions.Log.Basic

namespace Limceron.Runtime.Entropy

open Ring

variable {K : Type*}

/-! ## The data -/

structure LcnEntropyEntry (K : Type*) where
  confidence : K
  entropy : K
  categoryId : ℤ
  timestampMs : ℤ

structure LcnEntropyBudget (K : Type*) where
  maxAvgEntropy : K
  maxLowConfidence : K
  maxDrift : K
  lowConfidenceThreshold : K

structure LcnEntropyTracker (K : Type*) where
  ring : ℕ → LcnEntropyEntry K
  capacity : ℕ
  head : ℕ
  tail : ℕ
  count : ℕ
  total : ℕ
  numCategories : ℕ
  baseline : List K
  baselineSet : Bool

/-- `lcn_entropy_tracker_new`. -/
def lcnEntropyTrackerNew (K : Type*) [Field K] (capacity numCategories : ℤ) :
    LcnEntropyTracker K where
  ring := fun _ => ⟨0, 0, 0, 0⟩
  capacity := if capacity ≤ 0 then 100 else capacity.toNat
  head := 0
  tail := 0
  count := 0
  total := 0
  numCategories := if numCategories ≤ 0 then 1 else numCategories.toNat
  baseline := List.replicate (if numCategories ≤ 0 then 1 else numCategories.toNat) 0
  baselineSet := false

def effectiveWindow (t : LcnEntropyTracker K) (window : ℤ) : ℕ :=
  if window ≤ 0 ∨ t.count < window then t.count else window.toNat

/-- The slot of the entry that came `i` entries before the last. -/
def recentIndex (t : LcnEntropyTracker K) (i : ℕ) : ℕ :=
  let idx : ℤ := t.tail - 1 - i
  (if idx < 0 then idx + t.capacity else idx).toNat

/-- `lcn_entropy_record`; the time is read from outside. -/
def lcnEntropyRecord (t : LcnEntropyTracker K) (e : LcnEntropyEntry K) : LcnEntropyTracker K :=
  let full := ¬ t.count < t.capacity
  { t with
    ring := Function.update t.ring t.tail e
    tail := (t.tail + 1) % t.capacity
    count := if full then t.count else t.count + 1
    head := if full then (t.head + 1) % t.capacity else t.head
    total := t.total + 1 }

/-! ## Calls -/

inductive Op (K : Type*) where
  | record (e : LcnEntropyEntry K)
  | check (budget : LcnEntropyBudget K)

/-- The entries that these calls record. -/
def recorded : List (Op K) → List (LcnEntropyEntry K)
  | [] => []
  | .record e :: ops => e :: recorded ops
  | .check _ :: ops => recorded ops

theorem recorded_append (ops ops' : List (Op K)) :
    recorded (ops ++ ops') = recorded ops ++ recorded ops' := by
  induction ops with
  | nil => rfl
  | cons op ops ih => cases op <;> simp [recorded, ih]

/-! ## The ring -/

/-- The tracker holds the last of these entries. -/
structure Holds (t : LcnEntropyTracker K) (l : List (LcnEntropyEntry K)) : Prop where
  pos : 0 < t.capacity
  head_lt : t.head < t.capacity
  tail_eq : t.tail = (t.head + t.count) % t.capacity
  held : contents t.capacity t.ring t.head t.count = last t.capacity l

theorem Holds.count_eq {t : LcnEntropyTracker K} {l : List (LcnEntropyEntry K)} (h : Holds t l) :
    t.count = min t.capacity l.length := by
  have hlength := congrArg List.length h.held
  rwa [length_contents, length_last] at hlength

theorem holds_new [Field K] (capacity numCategories : ℤ) :
    Holds (lcnEntropyTrackerNew K capacity numCategories) [] := by
  have hpos : 0 < (lcnEntropyTrackerNew K capacity numCategories).capacity := by
    unfold lcnEntropyTrackerNew
    dsimp only
    split
    · decide
    · omega
  exact ⟨hpos, hpos, (Nat.zero_mod _).symm, (last_of_le (Nat.zero_le _)).symm⟩

theorem Holds.record {t : LcnEntropyTracker K} {l : List (LcnEntropyEntry K)} (h : Holds t l)
    (e : LcnEntropyEntry K) : Holds (lcnEntropyRecord t e) (l ++ [e]) := by
  have hcount := h.count_eq
  have hpos := h.pos
  have hheld := h.held
  unfold lcnEntropyRecord
  by_cases hroom : t.count < t.capacity
  · have hfull : ¬ ¬ t.count < t.capacity := not_not.2 hroom
    have hshort : (l ++ [e]).length ≤ t.capacity := by
      rw [List.length_append, List.length_singleton]
      omega
    have hbefore : l.length ≤ t.capacity := by omega
    simp only [if_neg hfull]
    refine ⟨hpos, h.head_lt, ?_, ?_⟩
    · dsimp only
      rw [h.tail_eq, Nat.mod_add_mod, Nat.add_assoc]
    · dsimp only
      rw [h.tail_eq, contents_push hroom, hheld, last_of_le hshort, last_of_le hbefore]
  · have hsize : t.count = t.capacity := by omega
    have hlong : t.capacity ≤ l.length := by omega
    simp only [if_pos hroom]
    refine ⟨hpos, Nat.mod_lt _ hpos, ?_, ?_⟩
    · dsimp only
      rw [h.tail_eq, hsize, Nat.mod_add_mod, Nat.mod_add_mod]
      congr 1
      omega
    · dsimp only
      rw [hsize] at hheld
      rw [h.tail_eq, hsize, contents_overwrite hpos, hheld, last_snoc hlong hpos]

/-- A loop over the last `w` entries, from the last one on. -/
def overRecent {β : Type*} (t : LcnEntropyTracker K) (w : ℕ) (f : β → LcnEntropyEntry K → β)
    (start : β) : β :=
  (List.range w).foldl (fun acc i => f acc (t.ring (recentIndex t i))) start

theorem Holds.overRecent {t : LcnEntropyTracker K} {l : List (LcnEntropyEntry K)} (h : Holds t l)
    {β : Type*} {w : ℕ} (hw : w ≤ t.count) (f : β → LcnEntropyEntry K → β) (start : β) :
    overRecent t w f start = (last w (last t.capacity l)).reverse.foldl f start := by
  have hcount := h.count_eq
  rw [← h.held, ← map_back hw, List.foldl_map, Entropy.overRecent]
  refine List.foldl_ext _ _ _ fun acc i hi => ?_
  have hi' : i < t.count := (List.mem_range.1 hi).trans_le hw
  have hslot : recentIndex t i = (t.head + (t.count - 1 - i)) % t.capacity :=
    back_slot h.head_lt (by omega) hi' h.tail_eq
  rw [hslot]

/-- The last `w` entries, or all. -/
def window (w : ℤ) (l : List (LcnEntropyEntry K)) : List (LcnEntropyEntry K) :=
  if w ≤ 0 then l else last w.toNat l

theorem window_self (n : ℕ) (l : List (LcnEntropyEntry K)) (h : l.length ≤ n) :
    window n l = l := by
  unfold window
  split
  · rfl
  · exact last_of_le (by omega)

theorem Holds.window_eq {t : LcnEntropyTracker K} {l : List (LcnEntropyEntry K)}
    (h : Holds t l) (w : ℤ) :
    effectiveWindow t w = (window w (last t.capacity l)).length ∧
      last (effectiveWindow t w) (last t.capacity l) = window w (last t.capacity l) := by
  have hlength : (last t.capacity l).length = t.count := by rw [length_last, h.count_eq]
  unfold effectiveWindow window
  by_cases hall : w ≤ 0
  · rw [if_pos (.inl hall), if_pos hall]
    exact ⟨hlength.symm, last_of_le hlength.le⟩
  · rw [if_neg hall, length_last, hlength]
    split
    · exact ⟨by omega, (last_of_le hlength.le).trans (last_of_le (by omega)).symm⟩
    · exact ⟨by omega, rfl⟩

/-- A loop over a window. -/
theorem Holds.overWindow {t : LcnEntropyTracker K} {l : List (LcnEntropyEntry K)} (h : Holds t l)
    {β : Type*} (w : ℤ) (f : β → LcnEntropyEntry K → β) (start : β) :
    Entropy.overRecent t (effectiveWindow t w) f start =
      (window w (last t.capacity l)).foldr (fun e acc => f acc e) start := by
  obtain ⟨hlength, hlast⟩ := h.window_eq w
  have hle : effectiveWindow t w ≤ t.count := by
    unfold effectiveWindow
    split
    · exact le_rfl
    · omega
  rw [h.overRecent hle, hlast, List.foldl_reverse]

/-! ## Loops that add and count -/

theorem foldr_add {M : Type*} [AddCommMonoid M] (f : LcnEntropyEntry K → M)
    (l : List (LcnEntropyEntry K)) : l.foldr (fun e sum => sum + f e) 0 = (l.map f).sum := by
  induction l with
  | nil => rfl
  | cons e l ih => rw [List.foldr_cons, ih, List.map_cons, List.sum_cons, add_comm]

theorem foldr_count (p : LcnEntropyEntry K → Prop) [DecidablePred p]
    (l : List (LcnEntropyEntry K)) :
    l.foldr (fun e n => if p e then n + 1 else n) 0 = l.countP fun e => p e := by
  induction l with
  | nil => rfl
  | cons e l ih =>
      rw [List.foldr_cons, ih, List.countP_cons]
      by_cases he : p e <;> simp [he]

/-- The counts of the categories below `nc`. -/
theorem foldr_modify {M : Type*} [AddCommMonoidWithOne M] (nc n : ℤ)
    (l : List (LcnEntropyEntry K)) :
    l.foldr (fun e dist =>
      if 0 ≤ e.categoryId ∧ e.categoryId < nc then dist.modify e.categoryId.toNat (· + 1)
      else dist) (List.replicate n.toNat (0 : M)) =
      (List.range n.toNat).map fun i : ℕ =>
        if (i : ℤ) < nc then ((l.countP fun e => e.categoryId = (i : ℤ) : ℕ) : M) else 0 := by
  induction l with
  | nil => simp
  | cons e l ih =>
      rw [List.foldr_cons, ih]
      by_cases hcat : 0 ≤ e.categoryId ∧ e.categoryId < nc
      · obtain ⟨c, hc⟩ := Int.eq_ofNat_of_zero_le hcat.1
        rw [if_pos hcat, hc, Int.toNat_natCast]
        refine List.ext_getElem (by simp) fun i hi hi' => ?_
        rw [List.getElem_modify]
        simp only [List.getElem_map, List.getElem_range, List.countP_cons, hc]
        by_cases heq : c = i
        · subst heq
          have hlt : (c : ℤ) < nc := hc ▸ hcat.2
          simp [hlt]
        · have hne : ¬ (c : ℤ) = i := by exact_mod_cast heq
          simp [heq, hne]
      · rw [if_neg hcat]
        refine List.map_congr_left fun i _ => ?_
        split
        · next hlt =>
            have hne : e.categoryId ≠ i := by omega
            rw [List.countP_cons]
            simp [hne]
        · rfl

/-! ## Windows -/

variable [Field K] [LinearOrder K]

def lcnEntropyAvgConfidence (t : LcnEntropyTracker K) (window : ℤ) : K :=
  let w := effectiveWindow t window
  if w = 0 then 0 else overRecent t w (fun sum e => sum + e.confidence) 0 / w

def lcnEntropyAvgEntropy (t : LcnEntropyTracker K) (window : ℤ) : K :=
  let w := effectiveWindow t window
  if w = 0 then 0 else overRecent t w (fun sum e => sum + e.entropy) 0 / w

def lcnEntropyLowConfidencePct (t : LcnEntropyTracker K) (window : ℤ) (threshold : K) : K :=
  let w := effectiveWindow t window
  if w = 0 then 0
  else
    ((overRecent t w (fun n e => if e.confidence < threshold then n + 1 else n) 0 : ℕ) : K) / w

/-- `lcn_entropy_distribution`: what is written to `dist_out`. -/
def lcnEntropyDistribution (t : LcnEntropyTracker K) (window numCategories : ℤ) : List K :=
  let w := effectiveWindow t window
  let nc := min numCategories t.numCategories
  let zeros := List.replicate numCategories.toNat (0 : K)
  if w = 0 then zeros
  else
    (overRecent t w (fun dist e =>
      if 0 ≤ e.categoryId ∧ e.categoryId < nc then dist.modify e.categoryId.toNat (· + 1)
      else dist) zeros).mapIdx fun i x => if (i : ℤ) < nc then x / w else x

/-! ## The drift -/

/-- `DRIFT_EPS`. -/
def driftEps : K := 1 / 10 ^ 10

/-- `lcn_kl_divergence`. -/
def lcnKlDivergence (log : K → K) (p q : List K) : K :=
  let kl := (p.zip q).foldl
    (fun kl x => kl + (x.1 + driftEps) * log ((x.1 + driftEps) / (x.2 + driftEps))) 0
  if 0 < kl then kl else 0

def lcnDrift (log : K → K) (current baseline : List K) : K :=
  (lcnKlDivergence log current baseline + lcnKlDivergence log baseline current) / 2

/-! ## The budget -/

/-- A message: the name of what exceeds, what it is, and its limit. -/
inductive Violation (K : Type*) where
  /-- `entropy budget exceeded: avg_entropy=%.3f > max=%.3f` -/
  | avgEntropy (found limit : K)
  /-- `entropy budget exceeded: low_confidence_pct=%.3f > max=%.3f` -/
  | lowConfidence (found limit : K)
  /-- `entropy budget exceeded: drift=%.3f > max=%.3f` -/
  | drift (found limit : K)

def LcnEntropyBudget.threshold (budget : LcnEntropyBudget K) : K :=
  if 0 < budget.lowConfidenceThreshold then budget.lowConfidenceThreshold else 1 / 2

/-- `lcn_entropy_check_budget`: the message, and the tracker with its baseline. -/
def lcnEntropyCheckBudget (log : K → K) (t : LcnEntropyTracker K) (budget : LcnEntropyBudget K) :
    Option (Violation K) × LcnEntropyTracker K :=
  let avgEnt := lcnEntropyAvgEntropy t t.count
  if budget.maxAvgEntropy < avgEnt then (some (.avgEntropy avgEnt budget.maxAvgEntropy), t)
  else
    let lowPct := lcnEntropyLowConfidencePct t t.count budget.threshold
    if budget.maxLowConfidence < lowPct then
      (some (.lowConfidence lowPct budget.maxLowConfidence), t)
    else if 0 < budget.maxDrift ∧ 1 < t.numCategories then
      let current := lcnEntropyDistribution t t.count t.numCategories
      let t := if t.baselineSet then t else { t with baseline := current, baselineSet := true }
      let drift := lcnDrift log current t.baseline
      if budget.maxDrift < drift then (some (.drift drift budget.maxDrift), t) else (none, t)
    else (none, t)

/-! ## Runs -/

def Op.apply (log : K → K) (t : LcnEntropyTracker K) : Op K → LcnEntropyTracker K
  | .record e => lcnEntropyRecord t e
  | .check budget => (lcnEntropyCheckBudget log t budget).2

/-- The tracker after these calls. -/
def run (log : K → K) (capacity numCategories : ℤ) (ops : List (Op K)) : LcnEntropyTracker K :=
  ops.foldl (Op.apply log) (lcnEntropyTrackerNew K capacity numCategories)

/-! ## What the numbers are of a list of entries -/

def mean (f : LcnEntropyEntry K → K) (l : List (LcnEntropyEntry K)) : K :=
  if l = [] then 0 else (l.map f).sum / l.length

/-- The share of the entries below a confidence. -/
def lowShare (threshold : K) (l : List (LcnEntropyEntry K)) : K :=
  if l = [] then 0 else (l.countP fun e => e.confidence < threshold) / l.length

/-- The share of each of the first `n` categories, of which a tracker counts `nc`. -/
def shares (nc : ℕ) (n : ℤ) (l : List (LcnEntropyEntry K)) : List K :=
  (List.range n.toNat).map fun i =>
    if l = [] ∨ nc ≤ i then 0 else (l.countP fun e => e.categoryId = (i : ℤ)) / l.length

/-- What is told of the tracker, is told of these entries. -/
structure Reads (t : LcnEntropyTracker K) (l : List (LcnEntropyEntry K)) : Prop where
  avgConfidence : ∀ w, lcnEntropyAvgConfidence t w = mean (·.confidence) (window w l)
  avgEntropy : ∀ w, lcnEntropyAvgEntropy t w = mean (·.entropy) (window w l)
  lowConfidencePct : ∀ w threshold,
    lcnEntropyLowConfidencePct t w threshold = lowShare threshold (window w l)
  distribution : ∀ w n, lcnEntropyDistribution t w n = shares t.numCategories n (window w l)

/-! ## The windows of a tracker -/

theorem Holds.reads {t : LcnEntropyTracker K} {l : List (LcnEntropyEntry K)} (h : Holds t l) :
    Reads t (last t.capacity l) := by
  have hzero (w : ℤ) : effectiveWindow t w = 0 ↔ window w (last t.capacity l) = [] := by
    rw [(h.window_eq w).1, List.length_eq_zero_iff]
  refine ⟨fun w => ?_, fun w => ?_, fun w threshold => ?_, fun w n => ?_⟩
  · simp only [lcnEntropyAvgConfidence, mean, hzero, h.overWindow w, foldr_add]
    rw [(h.window_eq w).1]
  · simp only [lcnEntropyAvgEntropy, mean, hzero, h.overWindow w, foldr_add]
    rw [(h.window_eq w).1]
  · simp only [lcnEntropyLowConfidencePct, lowShare, hzero, h.overWindow w, foldr_count]
    rw [(h.window_eq w).1]
  · simp only [lcnEntropyDistribution, shares, hzero, h.overWindow w, foldr_modify]
    split
    · next hnone =>
        simp [hnone]
    · next hsome =>
        refine List.ext_getElem (by simp) fun i hi hi' => ?_
        simp only [List.getElem_mapIdx, List.getElem_map, List.getElem_range, hsome, false_or,
          (h.window_eq w).1]
        have hi'' : i < n.toNat := by simpa using hi
        by_cases hlt : (i : ℤ) < min n t.numCategories
        · rw [if_pos hlt, if_pos hlt, if_neg (by omega)]
        · rw [if_neg hlt, if_neg hlt, if_pos (by omega)]

/-! ## Checks -/

/-- The average entropy and the share of low confidence are within the budget. -/
structure Within (l : List (LcnEntropyEntry K)) (budget : LcnEntropyBudget K) : Prop where
  entropy : mean (·.entropy) l ≤ budget.maxAvgEntropy
  confidence : lowShare budget.threshold l ≤ budget.maxLowConfidence

/-- A check of these entries comes to the drift. -/
def ReachesDrift (nc : ℕ) (l : List (LcnEntropyEntry K)) (budget : LcnEntropyBudget K) : Prop :=
  Within l budget ∧ 0 < budget.maxDrift ∧ 1 < nc

instance (l : List (LcnEntropyEntry K)) (budget : LcnEntropyBudget K) :
    Decidable (Within l budget) :=
  decidable_of_iff (_ ∧ _) ⟨fun h => ⟨h.1, h.2⟩, fun h => ⟨h.entropy, h.confidence⟩⟩

instance (nc : ℕ) (l : List (LcnEntropyEntry K)) (budget : LcnEntropyBudget K) :
    Decidable (ReachesDrift nc l budget) := inferInstanceAs (Decidable (_ ∧ _ ∧ _))

def LcnEntropyTracker.latched (t : LcnEntropyTracker K) : Option (List K) :=
  if t.baselineSet then some t.baseline else none

/-- What a check of the budget compares, in the words of the entries. -/
theorem Holds.check {t : LcnEntropyTracker K} {l : List (LcnEntropyEntry K)} (h : Holds t l)
    (log : K → K) (budget : LcnEntropyBudget K) :
    (ReachesDrift t.numCategories (last t.capacity l) budget ∧
      ∃ d, d = t.latched.getD (shares t.numCategories t.numCategories (last t.capacity l)) ∧
        (lcnEntropyCheckBudget log t budget).2.latched = some d ∧
        ((lcnEntropyCheckBudget log t budget).1 = none ↔
          lcnDrift log (shares t.numCategories t.numCategories (last t.capacity l)) d ≤
            budget.maxDrift)) ∨
      ¬ ReachesDrift t.numCategories (last t.capacity l) budget ∧
        (lcnEntropyCheckBudget log t budget).2.latched = t.latched ∧
        ((lcnEntropyCheckBudget log t budget).1 = none ↔ Within (last t.capacity l) budget) := by
  have hreads := h.reads
  have hwindow : window t.count (last t.capacity l) = last t.capacity l :=
    window_self _ _ (by rw [length_last, h.count_eq])
  have hentropy := hreads.avgEntropy t.count
  have hshare := hreads.lowConfidencePct t.count budget.threshold
  have hdist := hreads.distribution t.count t.numCategories
  rw [hwindow] at hentropy hshare hdist
  unfold lcnEntropyCheckBudget
  simp only [hentropy, hshare, hdist]
  split
  · next hhigh =>
      right
      have hnot : ¬ Within (last t.capacity l) budget := fun hwithin => hwithin.entropy.not_gt hhigh
      exact ⟨fun hreach => hnot hreach.1, rfl, by simp [hnot]⟩
  next hlow =>
  split
  · next hhigh =>
      right
      have hnot : ¬ Within (last t.capacity l) budget :=
        fun hwithin => hwithin.confidence.not_gt hhigh
      exact ⟨fun hreach => hnot hreach.1, rfl, by simp [hnot]⟩
  next hlow' =>
  have hwithin : Within (last t.capacity l) budget := ⟨not_lt.1 hlow, not_lt.1 hlow'⟩
  split
  · next hreach =>
      left
      refine ⟨⟨hwithin, hreach⟩, _, rfl, ?_⟩
      unfold LcnEntropyTracker.latched
      cases hset : t.baselineSet with
      | false =>
          simp only [Bool.false_eq_true, if_false, Option.getD_none]
          split
          · next hover => simp [hover]
          · next hunder => simp [not_lt.1 hunder]
      | true =>
          simp only [if_true, Option.getD_some]
          split
          · next hover => simp [hover]
          · next hunder => simp [not_lt.1 hunder]
  · next hreach =>
      right
      exact ⟨fun h => hreach h.2, rfl, by simp [hwithin]⟩

/-! ## Histories -/

/-- The distribution at the first check that comes to the drift, in a history that goes on
behind these entries. -/
def firstDrift (capacity nc : ℕ) :
    List (LcnEntropyEntry K) → List (Op K) → Option (List K)
  | _, [] => none
  | l, .record e :: ops => firstDrift capacity nc (l ++ [e]) ops
  | l, .check budget :: ops =>
      if ReachesDrift nc (last capacity l) budget then some (shares nc nc (last capacity l))
      else firstDrift capacity nc l ops

theorem firstDrift_append (capacity nc : ℕ) (l : List (LcnEntropyEntry K))
    (ops ops' : List (Op K)) :
    firstDrift capacity nc l (ops ++ ops') =
      (firstDrift capacity nc l ops).or (firstDrift capacity nc (l ++ recorded ops) ops') := by
  induction ops generalizing l with
  | nil => simp [firstDrift, recorded]
  | cons op ops ih =>
      cases op with
      | record e => simp [firstDrift, recorded, ih]
      | check budget =>
          rw [List.cons_append, firstDrift, firstDrift, recorded]
          split
          · rfl
          · exact ih l

theorem check_sizes (log : K → K) (t : LcnEntropyTracker K) (budget : LcnEntropyBudget K) :
    ∃ baseline baselineSet, (lcnEntropyCheckBudget log t budget).2 =
      { t with baseline := baseline, baselineSet := baselineSet } := by
  unfold lcnEntropyCheckBudget
  dsimp only
  split_ifs <;> exact ⟨_, _, rfl⟩

/-- The tracker after these calls, from one of these sizes. -/
structure Follows (capacity nc : ℕ) (t : LcnEntropyTracker K) (ops : List (Op K)) : Prop where
  capacity_eq : t.capacity = capacity
  categories_eq : t.numCategories = nc
  holds : Holds t (recorded ops)
  latched : t.latched = firstDrift capacity nc [] ops

theorem Follows.snoc {capacity nc : ℕ} {t : LcnEntropyTracker K} {ops : List (Op K)}
    (h : Follows capacity nc t ops) (log : K → K) (op : Op K) :
    Follows capacity nc (op.apply log t) (ops ++ [op]) := by
  obtain ⟨rfl, rfl, hholds, hlatched⟩ := h
  cases op with
  | record e =>
      refine ⟨rfl, rfl, ?_, ?_⟩
      · rw [recorded_append]
        exact hholds.record e
      · rw [firstDrift_append, ← hlatched]
        exact Option.or_none.symm
  | check budget =>
      obtain ⟨baseline, baselineSet, heq⟩ := check_sizes log t budget
      refine ⟨?_, ?_, ?_, ?_⟩
      · rw [Op.apply, heq]
      · rw [Op.apply, heq]
      · rw [Op.apply, heq, recorded_append, recorded, recorded, List.append_nil]
        exact ⟨hholds.pos, hholds.head_lt, hholds.tail_eq, hholds.held⟩
      · rw [firstDrift_append, ← hlatched, List.nil_append, Op.apply, firstDrift]
        rcases hholds.check log budget with ⟨hreach, d, hd, hafter, -⟩ | ⟨hreach, hafter, -⟩
        · rw [hafter, if_pos hreach, hd]
          cases t.latched <;> rfl
        · rw [hafter, if_neg hreach]
          exact Option.or_none.symm

/-- The capacity and the number of categories that a tracker has. -/
theorem follows_run (log : K → K) (capacity numCategories : ℤ) (ops : List (Op K)) :
    Follows (lcnEntropyTrackerNew K capacity numCategories).capacity
      (lcnEntropyTrackerNew K capacity numCategories).numCategories
      (run log capacity numCategories ops) ops := by
  induction ops using List.reverseRecOn with
  | nil => exact ⟨rfl, rfl, holds_new capacity numCategories, rfl⟩
  | append_singleton ops op ih =>
      rw [run, List.foldl_append]
      exact ih.snoc log op

/-! ## What the calls return -/

/-- The entries that the tracker is about, after these calls. -/
def held (capacity numCategories : ℤ) (ops : List (Op K)) : List (LcnEntropyEntry K) :=
  last (lcnEntropyTrackerNew K capacity numCategories).capacity (recorded ops)

/-- The distribution that the drift is measured from, if there is one. -/
def origin (capacity numCategories : ℤ) (ops : List (Op K)) : Option (List K) :=
  firstDrift (lcnEntropyTrackerNew K capacity numCategories).capacity
    (lcnEntropyTrackerNew K capacity numCategories).numCategories [] ops

/-- The drift is within the budget. -/
def DriftWithin (log : K → K) (capacity numCategories : ℤ) (ops : List (Op K))
    (budget : LcnEntropyBudget K) : Prop :=
  ∀ d ∈ origin capacity numCategories (ops ++ [.check budget]),
    lcnDrift log (shares (lcnEntropyTrackerNew K capacity numCategories).numCategories
      (lcnEntropyTrackerNew K capacity numCategories).numCategories
      (held capacity numCategories ops)) d ≤ budget.maxDrift

/-- The statistics are those of the entries held, and a check finds nothing if and only if the
drift passes, and the rest is within the budget. -/
structure Meets (log : K → K) (capacity numCategories : ℤ) (ops : List (Op K))
    (passes : LcnEntropyBudget K → Prop) : Prop where
  reads : Reads (run log capacity numCategories ops) (held capacity numCategories ops)
  checks : ∀ budget,
    (lcnEntropyCheckBudget log (run log capacity numCategories ops) budget).1 = none ↔
      Within (held capacity numCategories ops) budget ∧ passes budget

theorem meets_of_run (log : K → K) (capacity numCategories : ℤ) (ops : List (Op K)) :
    Meets log capacity numCategories ops fun budget =>
      0 < budget.maxDrift →
        1 < (lcnEntropyTrackerNew K capacity numCategories).numCategories →
          DriftWithin log capacity numCategories ops budget := by
  have hfollows := follows_run log capacity numCategories ops
  have hafter := fun budget => (hfollows.snoc log (.check budget)).latched
  obtain ⟨hcapacity, hcategories, hholds, -⟩ := hfollows
  refine ⟨?_, fun budget => ?_⟩
  · have hreads := hholds.reads
    rwa [hcapacity] at hreads
  · have hcheck := hholds.check log budget
    have hlatched := hafter budget
    rw [Op.apply] at hlatched
    unfold DriftWithin origin held
    rw [hcapacity, hcategories] at hcheck
    rw [← hlatched]
    rcases hcheck with ⟨⟨hwithin, hdrift, htwo⟩, d, -, hd, hiff⟩ | ⟨hreach, -, hiff⟩
    · rw [hiff, hd]
      simp [hwithin, hdrift, htwo]
    · rw [hiff]
      refine ⟨fun hwithin => ⟨hwithin, fun hdrift htwo => ?_⟩, fun h => h.1⟩
      exact absurd ⟨hwithin, hdrift, htwo⟩ hreach

/-- The drift counts, where its limit is positive and there are two categories. -/
theorem run_meets (log : K → K) (capacity numCategories : ℤ) (ops : List (Op K)) :
    Meets log capacity numCategories ops fun budget =>
      0 < budget.maxDrift →
        1 < (lcnEntropyTrackerNew K capacity numCategories).numCategories →
          DriftWithin log capacity numCategories ops budget :=
  meets_of_run log capacity numCategories ops

/-! ## A limit of zero -/

/-- A budget that only limits the drift. -/
def onlyDrift (limit : ℝ) : LcnEntropyBudget ℝ := ⟨1, 1, limit, 0⟩

/-- A check of nothing, and then an entry of the first category. -/
noncomputable def drifting : List (Op ℝ) :=
  [.check (onlyDrift 1), .record ⟨1, 0, 0, 0⟩]

theorem lcnKlDivergence_nonneg (log : ℝ → ℝ) (p q : List ℝ) : 0 ≤ lcnKlDivergence log p q := by
  unfold lcnKlDivergence
  dsimp only
  split
  · next hpos => exact hpos.le
  · exact le_rfl

theorem drift_drifting : 0 < lcnDrift Real.log [1, 0] [0, 0] := by
  have hback := lcnKlDivergence_nonneg Real.log [0, 0] [1, 0]
  have hlog : 0 < Real.log ((1 + 1 / 10 ^ 10) / (0 + 1 / 10 ^ 10)) := Real.log_pos (by norm_num)
  have hself : Real.log ((0 + 1 / 10 ^ 10) / (0 + 1 / 10 ^ 10)) = 0 := by norm_num
  have hforth : 0 < lcnKlDivergence Real.log [1, 0] [0, 0] := by
    have hsum : 0 < 0 + (1 + 1 / 10 ^ 10) * Real.log ((1 + 1 / 10 ^ 10) / (0 + 1 / 10 ^ 10)) +
        (0 + 1 / 10 ^ 10) * Real.log ((0 + 1 / 10 ^ 10) / (0 + 1 / 10 ^ 10)) := by
      rw [hself]
      positivity
    unfold lcnKlDivergence driftEps
    dsimp only
    split
    · next hpos => exact hpos
    · next hnot => exact absurd hsum hnot
  unfold lcnDrift
  linarith

/-- A limit that is not positive does not count. -/
theorem not_driftWithin :
    ¬ ∀ (log : ℝ → ℝ) (capacity numCategories : ℤ) (ops : List (Op ℝ)),
      Meets log capacity numCategories ops (DriftWithin log capacity numCategories ops) := by
  intro h
  have hclaim := (h Real.log 10 2 drifting).checks (onlyDrift 0)
  have hcode := (meets_of_run Real.log 10 2 drifting).checks (onlyDrift 0)
  have hheld : held 10 2 drifting = [⟨1, 0, 0, 0⟩] := rfl
  have hwithin : Within (held 10 2 drifting) (onlyDrift 0) := by
    rw [hheld]
    constructor
    · norm_num [mean, onlyDrift]
    · norm_num [lowShare, onlyDrift, LcnEntropyBudget.threshold]
  have hnone := hcode.2 ⟨hwithin, fun hpos => absurd hpos (lt_irrefl _)⟩
  have horigin : origin 10 2 (drifting ++ [.check (onlyDrift 0)]) = some [0, 0] := by
    have hreach : ReachesDrift 2 [] (onlyDrift 1) := by
      refine ⟨⟨?_, ?_⟩, ?_, ?_⟩ <;> norm_num [mean, lowShare, onlyDrift]
    exact (if_pos hreach).trans rfl
  have hshares : shares 2 2 (held 10 2 drifting) = [1, 0] := by
    have htwo : List.range (Int.toNat 2) = [0, 1] := rfl
    rw [hheld, shares, htwo]
    norm_num
  have hdrift := (hclaim.1 hnone).2 [0, 0] horigin
  have hlimit : lcnDrift Real.log (shares 2 2 (held 10 2 drifting)) [0, 0] ≤ 0 := hdrift
  rw [hshares] at hlimit
  exact hlimit.not_gt drift_drifting

end Limceron.Runtime.Entropy
