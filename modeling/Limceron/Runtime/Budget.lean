/-
# `Limceron.Runtime.Budget` — the books of an agent's budget

`runtime/budget.c` counts the tokens and the cost that an agent has used
against the limits it was given.  A deduction is refused if it would pass a
limit, and what has once been exhausted stays so.  Amounts of tokens are
`int64_t`; the limit is tested on their sum, which wraps, before anything has
looked at its size.  Costs are exact here.  `time(NULL)` is an argument, and the
events that are emitted are left out.

| | |
| :-- | :-- |
| `LcnBudget.deductTokens`, `LcnBudget.deductCost`, `LcnBudget.check` | the calls |
| `Books` | a budget, and the calls that have returned `true` |
| `Accounted` | what the books promise |
| `accounted_iff` | the promise holds throughout, exactly if no sum wraps |
-/
import Mathlib.Data.Rat.Defs
import Mathlib.Algebra.Order.Field.Rat
import Mathlib.Tactic.Linarith
import Limceron.Lib.Systems

namespace Limceron.Runtime

open Systems

/-! ## The source -/

/-- `LcnBudget`. -/
structure LcnBudget where
  maxTokens : Int64
  maxCost : ℚ
  maxDurationSecs : Int64
  usedTokens : Int64
  usedCost : ℚ
  startTime : ℤ
  exhausted : Bool
  exhaustedReason : Option String

/-- `lcn_budget_new`, at a time. -/
def lcnBudgetNew (maxTokens : Int64) (maxCost : ℚ) (maxDurationSecs : Int64) (now : ℤ) :
    LcnBudget where
  maxTokens := maxTokens
  maxCost := maxCost
  maxDurationSecs := maxDurationSecs
  usedTokens := 0
  usedCost := 0
  startTime := now
  exhausted := false
  exhaustedReason := none

namespace LcnBudget

/-- `budget_elapsed`. -/
def elapsed (b : LcnBudget) (now : ℤ) : ℤ := now - b.startTime

/-- `budget_mark_exhausted`. -/
def markExhausted (b : LcnBudget) (reason : String) : LcnBudget :=
  { b with exhausted := true, exhaustedReason := some reason }

/-- `lcn_budget_check`. -/
def check (now : ℤ) (b : LcnBudget) : Bool × LcnBudget :=
  if b.exhausted then (false, b)
  else if 0 < b.maxTokens ∧ b.usedTokens ≥ b.maxTokens then
    (false, b.markExhausted "token limit reached")
  else if 0 < b.maxCost ∧ b.usedCost ≥ b.maxCost then
    (false, b.markExhausted "cost limit reached")
  else if 0 < b.maxDurationSecs ∧ b.elapsed now ≥ b.maxDurationSecs.toInt then
    (false, b.markExhausted "duration limit reached")
  else (true, b)

/-- `used_tokens += tokens`, and the check after it. -/
def addTokens (b : LcnBudget) (tokens : Int64) : LcnBudget :=
  let b := { b with usedTokens := b.usedTokens + tokens }
  if 0 < b.maxTokens ∧ b.usedTokens ≥ b.maxTokens then b.markExhausted "token limit reached" else b

/-- `used_cost += cost`, and the check after it. -/
def addCost (b : LcnBudget) (cost : ℚ) : LcnBudget :=
  let b := { b with usedCost := b.usedCost + cost }
  if 0 < b.maxCost ∧ b.usedCost ≥ b.maxCost then b.markExhausted "cost limit reached" else b

/-- `lcn_budget_deduct_tokens`. -/
def deductTokens (now : ℤ) (b : LcnBudget) (tokens : Int64) : Bool × LcnBudget :=
  if tokens < 0 then (false, b)
  else if b.exhausted then (false, b)
  else if 0 < b.maxTokens ∧ b.usedTokens + tokens > b.maxTokens then
    (false, b.markExhausted "token limit reached")
  else
    match b.check now with
    | (false, b) => (false, b)
    | (true, b) => (true, b.addTokens tokens)

/-- `lcn_budget_deduct_cost`. -/
def deductCost (now : ℤ) (b : LcnBudget) (cost : ℚ) : Bool × LcnBudget :=
  if cost < 0 then (false, b)
  else if b.exhausted then (false, b)
  else if 0 < b.maxCost ∧ b.usedCost + cost > b.maxCost then
    (false, b.markExhausted "cost limit reached")
  else
    match b.check now with
    | (false, b) => (false, b)
    | (true, b) => (true, b.addCost cost)

end LcnBudget

/-! ## Books -/

/-- A call of the budget. -/
inductive BudgetCall where
  | check
  | deductTokens (tokens : Int64)
  | deductCost (cost : ℚ)

/-- What a call asks for. -/
def BudgetCall.tokens : BudgetCall → ℤ
  | .deductTokens tokens => tokens.toInt
  | _ => 0

/-- What a call asks for. -/
def BudgetCall.cost : BudgetCall → ℚ
  | .deductCost cost => cost
  | _ => 0

def LcnBudget.call (b : LcnBudget) (now : ℤ) : BudgetCall → Bool × LcnBudget
  | .check => b.check now
  | .deductTokens tokens => b.deductTokens now tokens
  | .deductCost cost => b.deductCost now cost

/-- A budget, and the calls of it that have returned `true`. -/
structure Books where
  budget : LcnBudget
  granted : List BudgetCall

/-- A call at a time. -/
def Books.step (k : Books) (e : ℤ × BudgetCall) : Books :=
  let r := k.budget.call e.1 e.2
  { budget := r.2, granted := if r.1 then k.granted ++ [e.2] else k.granted }

/-- What the books promise of a budget with these limits. -/
structure Accounted (maxTokens : Int64) (maxCost : ℚ) (k : Books) : Prop where
  tokens_eq : k.budget.usedTokens.toInt = (k.granted.map BudgetCall.tokens).sum
  tokens_nonneg : 0 ≤ k.budget.usedTokens.toInt
  tokens_le : k.budget.usedTokens.toInt ≤ maxTokens.toInt
  cost_eq : k.budget.usedCost = (k.granted.map BudgetCall.cost).sum
  cost_nonneg : 0 ≤ k.budget.usedCost
  cost_le : 0 < maxCost → k.budget.usedCost ≤ maxCost
  latched : k.budget.exhausted = true → ∀ es : List (ℤ × BudgetCall),
    (es.foldl Books.step k).budget.exhausted = true ∧ (es.foldl Books.step k).granted = k.granted

/-! ## Calls -/

namespace LcnBudget

variable {b : LcnBudget} {now : ℤ}

/-- No limit is reached. -/
structure Open (b : LcnBudget) (now : ℤ) : Prop where
  live : b.exhausted = false
  tokens : ¬ (0 < b.maxTokens ∧ b.usedTokens ≥ b.maxTokens)
  cost : ¬ (0 < b.maxCost ∧ b.usedCost ≥ b.maxCost)
  time : ¬ (0 < b.maxDurationSecs ∧ b.elapsed now ≥ b.maxDurationSecs.toInt)

/-- What a call can do. -/
inductive Outcome (b : LcnBudget) (now : ℤ) : BudgetCall → Bool × LcnBudget → Prop where
  | refused (c : BudgetCall) : Outcome b now c (false, b)
  | exhausted (c : BudgetCall) (reason : String) : Outcome b now c (false, b.markExhausted reason)
  | checked : b.Open now → Outcome b now .check (true, b)
  | tokens {tokens : Int64} : b.Open now → 0 ≤ tokens →
      ¬ (0 < b.maxTokens ∧ b.usedTokens + tokens > b.maxTokens) →
      Outcome b now (.deductTokens tokens) (true, b.addTokens tokens)
  | cost {cost : ℚ} : b.Open now → 0 ≤ cost → ¬ (0 < b.maxCost ∧ b.usedCost + cost > b.maxCost) →
      Outcome b now (.deductCost cost) (true, b.addCost cost)

theorem check_of_open (h : b.Open now) : b.check now = (true, b) := by
  rw [check, h.live, if_neg Bool.false_ne_true, if_neg h.tokens, if_neg h.cost, if_neg h.time]

theorem check_cases (b : LcnBudget) (now : ℤ) :
    (b.Open now ∧ b.check now = (true, b)) ∨ b.check now = (false, b) ∨
      ∃ reason, b.check now = (false, b.markExhausted reason) := by
  unfold check
  split
  · exact .inr (.inl rfl)
  · split
    · exact .inr (.inr ⟨_, rfl⟩)
    · split
      · exact .inr (.inr ⟨_, rfl⟩)
      · split
        · exact .inr (.inr ⟨_, rfl⟩)
        · refine .inl ⟨⟨?_, ?_, ?_, ?_⟩, rfl⟩
          · simpa using ‹¬ b.exhausted = true›
          all_goals assumption

theorem outcome (b : LcnBudget) (now : ℤ) (c : BudgetCall) : Outcome b now c (b.call now c) := by
  cases c with
  | check =>
      show Outcome b now .check (b.check now)
      rcases check_cases b now with ⟨hopen, h⟩ | h | ⟨reason, h⟩ <;> rw [h]
      · exact .checked hopen
      · exact .refused _
      · exact .exhausted _ reason
  | deductTokens tokens =>
      show Outcome b now (.deductTokens tokens) (b.deductTokens now tokens)
      unfold deductTokens
      split
      · exact .refused _
      · split
        · exact .refused _
        · split
          · exact .exhausted _ _
          · rcases check_cases b now with ⟨hopen, h⟩ | h | ⟨reason, h⟩ <;> rw [h]
            · exact .tokens hopen (Int64.not_lt.1 ‹_›) ‹_›
            · exact .refused _
            · exact .exhausted _ reason
  | deductCost cost =>
      show Outcome b now (.deductCost cost) (b.deductCost now cost)
      unfold deductCost
      split
      · exact .refused _
      · split
        · exact .refused _
        · split
          · exact .exhausted _ _
          · rcases check_cases b now with ⟨hopen, h⟩ | h | ⟨reason, h⟩ <;> rw [h]
            · exact .cost hopen (not_lt.1 ‹_›) ‹_›
            · exact .refused _
            · exact .exhausted _ reason

theorem deductTokens_of_open (h : b.Open now) {tokens : Int64} (hpos : 0 ≤ tokens)
    (hlimit : ¬ (0 < b.maxTokens ∧ b.usedTokens + tokens > b.maxTokens)) :
    b.deductTokens now tokens = (true, b.addTokens tokens) := by
  rw [deductTokens, if_neg (Int64.not_lt.2 hpos), h.live, if_neg Bool.false_ne_true,
    if_neg hlimit, check_of_open h]

theorem call_of_exhausted (h : b.exhausted = true) (c : BudgetCall) :
    b.call now c = (false, b) := by
  cases c with
  | check => rw [call, check, if_pos h]
  | deductTokens tokens => rw [call, deductTokens, if_pos h, ite_self]
  | deductCost cost => rw [call, deductCost, if_pos h, ite_self]

end LcnBudget

/-! ## What is added -/

namespace LcnBudget

variable {b : LcnBudget} {tokens : Int64} {cost : ℚ}

/-- Tokens are all that is added, and the budget is exhausted if they reach the limit. -/
theorem addTokens_cases (b : LcnBudget) (tokens : Int64) :
    b.addTokens tokens = { b with usedTokens := b.usedTokens + tokens } ∧
        ¬ (0 < b.maxTokens ∧ b.usedTokens + tokens ≥ b.maxTokens) ∨
      b.addTokens tokens =
        { b with usedTokens := b.usedTokens + tokens }.markExhausted "token limit reached" := by
  by_cases h : 0 < b.maxTokens ∧ b.usedTokens + tokens ≥ b.maxTokens
  · exact .inr (if_pos h)
  · exact .inl ⟨if_neg h, h⟩

/-- Cost is all that is added, and the budget is exhausted if it reaches the limit. -/
theorem addCost_cases (b : LcnBudget) (cost : ℚ) :
    b.addCost cost = { b with usedCost := b.usedCost + cost } ∧
        ¬ (0 < b.maxCost ∧ b.usedCost + cost ≥ b.maxCost) ∨
      b.addCost cost =
        { b with usedCost := b.usedCost + cost }.markExhausted "cost limit reached" := by
  by_cases h : 0 < b.maxCost ∧ b.usedCost + cost ≥ b.maxCost
  · exact .inr (if_pos h)
  · exact .inl ⟨if_neg h, h⟩

/-- A sum that is an `int64_t` does not wrap. -/
theorem toInt_add_of_lt {a t : Int64} (ha : 0 ≤ a.toInt) (ht : 0 ≤ t)
    (h : a.toInt + t.toInt < 2 ^ 63) : (a + t).toInt = a.toInt + t.toInt := by
  have ht' : 0 ≤ t.toInt := Int64.le_iff_toInt_le.1 ht
  rw [Int64.toInt_add, Int.bmod_eq_of_le] <;> omega

/-- And one that is not becomes negative. -/
theorem toInt_add_of_le {a t : Int64} (ht : 0 ≤ t) (h : 2 ^ 63 ≤ a.toInt + t.toInt) :
    (a + t).toInt = a.toInt + t.toInt - 2 ^ 64 ∧ (a + t).toInt < 0 := by
  have ht' : 0 ≤ t.toInt := Int64.le_iff_toInt_le.1 ht
  have hat := a.toInt_lt
  have htt := t.toInt_lt
  have hsum : (a + t).toInt = a.toInt + t.toInt - 2 ^ 64 := by
    rw [Int64.toInt_add, ← Int.sub_bmod_right, Int.bmod_eq_of_le] <;> omega
  exact ⟨hsum, by omega⟩

end LcnBudget

/-! ## The invariant -/

/-- The budget can still be used, and its time is not over. -/
def LcnBudget.Live (b : LcnBudget) (now : ℤ) : Prop :=
  b.exhausted = false ∧ (0 < b.maxDurationSecs → b.elapsed now < b.maxDurationSecs.toInt)

/-- If the call asks a live budget for tokens, their sum with those used is an `int64_t`. -/
def Books.Fits (k : Books) (e : ℤ × BudgetCall) : Prop :=
  ∀ tokens, e.2 = .deductTokens tokens → 0 ≤ tokens → k.budget.Live e.1 →
    k.budget.usedTokens.toInt + tokens.toInt < 2 ^ 63

/-- The books as they are opened. -/
def Books.new (maxTokens : Int64) (maxCost : ℚ) (maxDurationSecs : Int64) (now : ℤ) : Books where
  budget := lcnBudgetNew maxTokens maxCost maxDurationSecs now
  granted := []

/-- The sums are right and within the limits, which are reached only by what is exhausted. -/
structure Books.Inv (maxTokens : Int64) (maxCost : ℚ) (k : Books) : Prop where
  maxTokens_eq : k.budget.maxTokens = maxTokens
  maxCost_eq : k.budget.maxCost = maxCost
  tokens_eq : k.budget.usedTokens.toInt = (k.granted.map BudgetCall.tokens).sum
  tokens_nonneg : 0 ≤ k.budget.usedTokens.toInt
  tokens_le : k.budget.usedTokens.toInt ≤ maxTokens.toInt
  tokens_lt : k.budget.exhausted = false → k.budget.usedTokens.toInt < maxTokens.toInt
  cost_eq : k.budget.usedCost = (k.granted.map BudgetCall.cost).sum
  cost_nonneg : 0 ≤ k.budget.usedCost
  cost_le : 0 < maxCost → k.budget.usedCost ≤ maxCost
  cost_lt : 0 < maxCost → k.budget.exhausted = false → k.budget.usedCost < maxCost

namespace Books

variable {maxTokens : Int64} {maxCost : ℚ} {k : Books} {e : ℤ × BudgetCall}

theorem step_of_exhausted (h : k.budget.exhausted = true) (e : ℤ × BudgetCall) : k.step e = k := by
  rw [step, LcnBudget.call_of_exhausted h]
  rfl

theorem run_of_exhausted (h : k.budget.exhausted = true) (es : List (ℤ × BudgetCall)) :
    es.foldl step k = k := by
  induction es with
  | nil => rfl
  | cons e es ih => rw [List.foldl_cons, step_of_exhausted h, ih]

theorem Inv.accounted (h : k.Inv maxTokens maxCost) : Accounted maxTokens maxCost k where
  tokens_eq := h.tokens_eq
  tokens_nonneg := h.tokens_nonneg
  tokens_le := h.tokens_le
  cost_eq := h.cost_eq
  cost_nonneg := h.cost_nonneg
  cost_le := h.cost_le
  latched hexhausted es := by
    rw [run_of_exhausted hexhausted]
    exact ⟨hexhausted, rfl⟩

theorem inv_new (hmax : 0 < maxTokens) (maxDurationSecs : Int64) (now : ℤ) :
    (new maxTokens maxCost maxDurationSecs now).Inv maxTokens maxCost := by
  have hpos : 0 < maxTokens.toInt := Int64.lt_iff_toInt_lt.1 hmax
  exact ⟨rfl, rfl, rfl, le_refl 0, hpos.le, fun _ => hpos, rfl, le_refl 0, fun h => h.le,
    fun h _ => h⟩

/-- A call that is answered with `false` changes no sum. -/
theorem Inv.exhaust (h : k.Inv maxTokens maxCost) (reason : String) :
    Inv maxTokens maxCost { k with budget := k.budget.markExhausted reason } where
  maxTokens_eq := h.maxTokens_eq
  maxCost_eq := h.maxCost_eq
  tokens_eq := h.tokens_eq
  tokens_nonneg := h.tokens_nonneg
  tokens_le := h.tokens_le
  tokens_lt hlive := by cases hlive
  cost_eq := h.cost_eq
  cost_nonneg := h.cost_nonneg
  cost_le := h.cost_le
  cost_lt _ hlive := by cases hlive

theorem sum_snoc {α : Type*} [AddCommMonoid α] (f : BudgetCall → α) (cs : List BudgetCall)
    (c : BudgetCall) : ((cs ++ [c]).map f).sum = (cs.map f).sum + f c := by
  rw [List.map_append, List.sum_append, List.map_singleton, List.sum_singleton]

/-- Tokens that fit are added to the sum. -/
theorem Inv.tokens (h : k.Inv maxTokens maxCost) (hmax : 0 < maxTokens) {tokens : Int64}
    (hpos : 0 ≤ tokens)
    (hlimit : ¬ (0 < k.budget.maxTokens ∧ k.budget.usedTokens + tokens > k.budget.maxTokens))
    (hfits : k.budget.usedTokens.toInt + tokens.toInt < 2 ^ 63)
    (hlive : k.budget.exhausted = false) :
    Inv maxTokens maxCost
      { budget := k.budget.addTokens tokens, granted := k.granted ++ [.deductTokens tokens] } := by
  have hsum := LcnBudget.toInt_add_of_lt h.tokens_nonneg hpos hfits
  have hpos' : 0 ≤ tokens.toInt := Int64.le_iff_toInt_le.1 hpos
  have hnonneg := h.tokens_nonneg
  rw [h.maxTokens_eq] at hlimit
  have hle : (k.budget.usedTokens + tokens).toInt ≤ maxTokens.toInt :=
    Int64.le_iff_toInt_le.1 (Int64.not_lt.1 fun hlt => hlimit ⟨hmax, hlt⟩)
  have htokens : (k.budget.usedTokens + tokens).toInt =
      ((k.granted ++ [BudgetCall.deductTokens tokens]).map BudgetCall.tokens).sum := by
    rw [sum_snoc, ← h.tokens_eq, hsum]
    rfl
  have hcost : k.budget.usedCost =
      ((k.granted ++ [BudgetCall.deductTokens tokens]).map BudgetCall.cost).sum := by
    rw [sum_snoc, ← h.cost_eq]
    exact (add_zero _).symm
  rcases LcnBudget.addTokens_cases k.budget tokens with ⟨hadd, hbelow⟩ | hadd <;> rw [hadd]
  · rw [h.maxTokens_eq] at hbelow
    have hlt : (k.budget.usedTokens + tokens).toInt < maxTokens.toInt :=
      Int64.lt_iff_toInt_lt.1 (Int64.not_le.1 fun hle => hbelow ⟨hmax, hle⟩)
    exact ⟨h.maxTokens_eq, h.maxCost_eq, htokens, by rw [hsum]; omega, hle, fun _ => hlt, hcost,
      h.cost_nonneg, h.cost_le, fun hc _ => h.cost_lt hc hlive⟩
  · exact ⟨h.maxTokens_eq, h.maxCost_eq, htokens, by
      show 0 ≤ (k.budget.usedTokens + tokens).toInt
      rw [hsum]
      omega, hle, nofun, hcost, h.cost_nonneg, h.cost_le, nofun⟩

/-- So is a cost. -/
theorem Inv.cost (h : k.Inv maxTokens maxCost) {cost : ℚ} (hpos : 0 ≤ cost)
    (hlimit : ¬ (0 < k.budget.maxCost ∧ k.budget.usedCost + cost > k.budget.maxCost))
    (hlive : k.budget.exhausted = false) :
    Inv maxTokens maxCost
      { budget := k.budget.addCost cost, granted := k.granted ++ [.deductCost cost] } := by
  rw [h.maxCost_eq] at hlimit
  have hnonneg : 0 ≤ k.budget.usedCost + cost := add_nonneg h.cost_nonneg hpos
  have hle : 0 < maxCost → k.budget.usedCost + cost ≤ maxCost :=
    fun hmax => not_lt.1 fun hlt => hlimit ⟨hmax, hlt⟩
  have htokens : k.budget.usedTokens.toInt =
      ((k.granted ++ [BudgetCall.deductCost cost]).map BudgetCall.tokens).sum := by
    rw [sum_snoc, ← h.tokens_eq]
    exact (add_zero _).symm
  have hcost : k.budget.usedCost + cost =
      ((k.granted ++ [BudgetCall.deductCost cost]).map BudgetCall.cost).sum := by
    rw [sum_snoc, ← h.cost_eq]
    rfl
  rcases LcnBudget.addCost_cases k.budget cost with ⟨hadd, hbelow⟩ | hadd <;> rw [hadd]
  · rw [h.maxCost_eq] at hbelow
    have hlt : 0 < maxCost → k.budget.usedCost + cost < maxCost :=
      fun hmax => not_le.1 fun hle => hbelow ⟨hmax, hle⟩
    exact ⟨h.maxTokens_eq, h.maxCost_eq, htokens, h.tokens_nonneg, h.tokens_le,
      fun _ => h.tokens_lt hlive, hcost, hnonneg, hle, fun hmax _ => hlt hmax⟩
  · exact ⟨h.maxTokens_eq, h.maxCost_eq, htokens, h.tokens_nonneg, h.tokens_le, nofun, hcost,
      hnonneg, hle, nofun⟩

theorem live_of_open {b : LcnBudget} {now : ℤ} (h : b.Open now) : b.Live now := by
  refine ⟨h.live, fun hmax => ?_⟩
  exact not_le.1 fun hle => h.time ⟨hmax, hle⟩

/-- A live budget has not reached a limit. -/
theorem Inv.open_of_live (h : k.Inv maxTokens maxCost) {now : ℤ} (hlive : k.budget.Live now) :
    k.budget.Open now where
  live := hlive.1
  tokens := by
    rintro ⟨-, hle⟩
    rw [h.maxTokens_eq] at hle
    have hlt := h.tokens_lt hlive.1
    have hle' := Int64.le_iff_toInt_le.1 hle
    omega
  cost := by
    rintro ⟨hmax, hle⟩
    rw [h.maxCost_eq] at hmax hle
    exact not_le.2 (h.cost_lt hmax hlive.1) hle
  time := fun htime => not_le.2 (hlive.2 htime.1) htime.2

theorem Inv.step (hmax : 0 < maxTokens) (h : k.Inv maxTokens maxCost) (hfits : k.Fits e) :
    (k.step e).Inv maxTokens maxCost := by
  obtain ⟨now, c⟩ := e
  have houtcome := k.budget.outcome now c
  unfold Books.step
  generalize k.budget.call now c = r at houtcome
  cases houtcome with
  | refused => exact h
  | exhausted _ reason => exact h.exhaust reason
  | checked hopen =>
      have htokens := sum_snoc BudgetCall.tokens k.granted .check
      have hcost := sum_snoc BudgetCall.cost k.granted .check
      rw [← h.tokens_eq] at htokens
      rw [← h.cost_eq] at hcost
      exact { h with
        tokens_eq := (htokens.trans (add_zero _)).symm
        cost_eq := (hcost.trans (add_zero _)).symm }
  | @tokens t hopen hpos hlimit =>
      exact h.tokens hmax hpos hlimit (hfits t rfl hpos (live_of_open hopen)) hopen.live
  | cost hopen hpos hlimit => exact h.cost hpos hlimit hopen.live

/-- Tokens whose sum wraps are granted, and the sum becomes negative. -/
theorem Inv.wraps (h : k.Inv maxTokens maxCost) (hfits : ¬ k.Fits e) :
    (k.step e).budget.usedTokens.toInt < 0 := by
  obtain ⟨now, c⟩ := e
  rw [Fits] at hfits
  push Not at hfits
  obtain ⟨tokens, rfl, hpos, hlive, hle⟩ := hfits
  obtain ⟨-, hneg⟩ := LcnBudget.toInt_add_of_le hpos hle
  have hmax := h.tokens_nonneg.trans h.tokens_le
  have hcall := LcnBudget.deductTokens_of_open (h.open_of_live hlive) hpos (by
    rintro ⟨-, hgt⟩
    rw [h.maxTokens_eq] at hgt
    have hlt := Int64.lt_iff_toInt_lt.1 hgt
    omega)
  show (k.budget.call now (.deductTokens tokens)).2.usedTokens.toInt < 0
  rw [LcnBudget.call, hcall]
  rcases LcnBudget.addTokens_cases k.budget tokens with ⟨hadd, -⟩ | hadd <;> rw [hadd] <;>
    exact hneg

end Books

/-! ## The claim -/

/-- The books of a budget with a limit on its tokens keep their promise throughout a sequence of
calls, if and only if no call asks the live budget for tokens that make the sum wrap. -/
theorem accounted_iff {maxTokens : Int64} (hmax : 0 < maxTokens) (maxCost : ℚ)
    (maxDurationSecs : Int64) (now : ℤ) (calls : List (ℤ × BudgetCall)) :
    Always Books.step (Accounted maxTokens maxCost)
        (Books.new maxTokens maxCost maxDurationSecs now) calls ↔
      EachMeets Books.step Books.Fits (Books.new maxTokens maxCost maxDurationSecs now) calls := by
  refine always_iff (I := Books.Inv maxTokens maxCost) (fun _ h => h.accounted)
    (fun _ _ _ h hfits => h.step hmax hfits) ?_ (Books.inv_new hmax maxDurationSecs now)
  intro k e _ h hfits hacc
  exact not_le.2 (h.wraps hfits) hacc.tokens_nonneg

/-- Seven tokens of ten, a check, and seven more that are refused. -/
theorem accounted_sevens :
    Always Books.step (Accounted 10 5) (Books.new 10 5 60 0)
      [(1, .deductTokens 7), (2, .check), (3, .deductTokens 7)] := by
  refine (accounted_iff (by decide) 5 60 0 _).2 ?_
  refine eachMeets_cons.2 ⟨?_, eachMeets_cons.2 ⟨nofun, eachMeets_cons.2 ⟨?_, eachMeets_nil⟩⟩⟩
  · rintro tokens ⟨⟩ - -
    decide
  · rintro tokens ⟨⟩ - -
    decide

/-- One token of ten, and then `INT64_MAX` more: both are granted, and the sum is negative. -/
theorem tokens_wrap :
    ¬ ∀ (maxTokens maxDurationSecs : Int64) (maxCost : ℚ) (now : ℤ) (calls : List (ℤ × BudgetCall)),
      0 < maxTokens → Always Books.step (Accounted maxTokens maxCost)
        (Books.new maxTokens maxCost maxDurationSecs now) calls := by
  intro h
  have hnonneg := (h 10 0 0 0 [(0, .deductTokens 1), (0, .deductTokens Int64.maxValue)] (by decide)
    _ (List.prefix_refl _)).tokens_nonneg
  revert hnonneg
  decide

end Limceron.Runtime
