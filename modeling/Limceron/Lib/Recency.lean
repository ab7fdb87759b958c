/-
# `Limceron.Lib.Recency` — the first and the last of a list, by a key with ties

A list stands in the order its elements came in; a sort by a key puts elements of the
same key in any order (`tie`).  What the sort puts first is still what came first, or
last, if the key sets it apart:

| sort | is what came | if |
| :-- | :-- | :-- |
| `ascending`, first `n` | first (`ascending_take`) | the keys of these are below all others |
| `descending`, first `n` | last (`descending_take`) | each of these is above all before it |
-/
import Mathlib.Data.Int.Notation
import Mathlib.Data.List.Perm.Basic

namespace Recency

variable {α : Type*} (key : α → ℤ) (tie : α → ℕ)

/-- By the key, and then as the ties are. -/
def ascending (l : List α) : List α :=
  l.mergeSort fun a b => key a < key b ∨ key a = key b ∧ tie a ≤ tie b

def descending (l : List α) : List α := ascending (fun a => -key a) tie l

theorem ascending_perm (l : List α) : (ascending key tie l).Perm l := List.mergeSort_perm l _

theorem descending_perm (l : List α) : (descending key tie l).Perm l := List.mergeSort_perm l _

theorem ascending_sorted (l : List α) :
    (ascending key tie l).Pairwise fun a b => key a ≤ key b := by
  refine List.Pairwise.imp ?_ (List.pairwise_mergeSort ?_ ?_ l)
  · intro a b hab
    simp only [decide_eq_true_eq] at hab
    omega
  · intro a b c hab hbc
    simp only [decide_eq_true_eq] at hab hbc ⊢
    omega
  · intro a b
    simp only [Bool.or_eq_true, decide_eq_true_eq]
    omega

theorem descending_sorted (l : List α) :
    (descending key tie l).Pairwise fun a b => key b ≤ key a :=
  (ascending_sorted (fun a => -key a) tie l).imp fun h => Int.neg_le_neg_iff.1 h

variable {key}

/-- A part that is below all others is what a sort puts first. -/
theorem take_perm {r p q : List α} (hperm : r.Perm (p ++ q))
    (hsorted : r.Pairwise fun a b => key a ≤ key b) (hbelow : ∀ a ∈ p, ∀ b ∈ q, key a < key b) :
    (r.take p.length).Perm p := by
  induction r generalizing p q with
  | nil =>
      have hnil := List.append_eq_nil_iff.1 hperm.symm.eq_nil
      rw [hnil.1]
      exact .refl _
  | cons a r ih =>
      rcases p with _ | ⟨c, p⟩
      · exact .refl _
      · obtain ⟨hfirst, hrest⟩ := List.pairwise_cons.1 hsorted
        have hmem : a ∈ c :: p := by
          rcases List.mem_append.1 (hperm.subset List.mem_cons_self) with hp | hq
          · exact hp
          · -- it would stand before an element below it
            have hlt := hbelow c List.mem_cons_self a hq
            have hc : c ∈ a :: r := hperm.symm.subset (by simp)
            rcases List.mem_cons.1 hc with rfl | hc
            · exact absurd hlt (Int.lt_irrefl _)
            · exact absurd hlt (Int.not_lt.2 (hfirst c hc))
        obtain ⟨s, t, hsplit⟩ := List.append_of_mem hmem
        have hmiddle : (c :: p).Perm (a :: (s ++ t)) := hsplit ▸ List.perm_middle
        have htail : r.Perm ((s ++ t) ++ q) :=
          (List.perm_cons a).1 (hperm.trans (hmiddle.append_right q))
        have hlength : p.length = (s ++ t).length := by
          have := hmiddle.length_eq
          simpa using this
        have hbelow' : ∀ b ∈ s ++ t, ∀ d ∈ q, key b < key d := fun b hb =>
          hbelow b (hmiddle.symm.subset (List.mem_cons_of_mem a hb))
        rw [List.length_cons, List.take_succ_cons, hlength]
        exact ((ih htail hrest hbelow').cons a).trans hmiddle.symm

theorem ascending_take {l : List α} {n : ℕ}
    (h : ∀ a ∈ l.take n, ∀ b ∈ l.drop n, key a < key b) :
    ((ascending key tie l).take n).Perm (l.take n) := by
  have hperm : (ascending key tie l).Perm (l.take n ++ l.drop n) := by
    rw [List.take_append_drop]
    exact ascending_perm key tie l
  rcases Nat.lt_or_ge n l.length with hlt | hge
  · have htake := take_perm hperm (ascending_sorted key tie l) h
    rwa [List.length_take, Nat.min_eq_left (Nat.le_of_lt hlt)] at htake
  · rw [List.take_of_length_le hge, List.take_of_length_le]
    · exact ascending_perm key tie l
    · rw [(ascending_perm key tie l).length_eq]
      exact hge

variable (key)

/-- Each of the last `n` has a key above all before it. -/
def Latest (n : ℕ) (l : List α) : Prop :=
  ∀ before a behind, l = before ++ a :: behind → behind.length < n → ∀ b ∈ before, key b < key a

variable {key}

theorem latest_take {r l : List α} {n : ℕ} (hperm : r.Perm l)
    (hsorted : r.Pairwise fun a b => key b ≤ key a) (h : Latest key n l) :
    r.take n = l.reverse.take n := by
  induction n generalizing r l with
  | zero => rfl
  | succ n ih =>
      rcases List.eq_nil_or_concat l with rfl | ⟨l, a, rfl⟩
      · rw [hperm.eq_nil]
        rfl
      · rw [List.concat_eq_append] at hperm h ⊢
        have habove := h l a [] rfl n.succ_pos
        rcases r with _ | ⟨b, r⟩
        · simpa using hperm.length_eq
        · obtain ⟨hfirst, hrest⟩ := List.pairwise_cons.1 hsorted
          obtain rfl : b = a := by
            rcases List.mem_append.1 (hperm.subset List.mem_cons_self) with hb | hb
            · have hlt := habove b hb
              rcases List.mem_cons.1 (hperm.symm.subset (List.mem_append_right l
                (List.mem_singleton.2 rfl))) with rfl | ha
              · rfl
              · exact absurd hlt (Int.not_lt.2 (hfirst a ha))
            · exact List.mem_singleton.1 hb
          have htail : r.Perm l :=
            (List.perm_cons b).1 (hperm.trans (@List.perm_append_comm _ l [b]))
          have hlatest : Latest key n l := by
            intro before c behind hsplit hlength
            refine h before c (behind ++ [b]) ?_ ?_
            · rw [hsplit]
              simp
            · simpa using hlength
          rw [List.reverse_append, List.reverse_singleton, List.singleton_append,
            List.take_succ_cons, List.take_succ_cons, ih htail hrest hlatest]

theorem descending_take {l : List α} {n : ℕ} (h : Latest key n l) :
    (descending key tie l).take n = l.reverse.take n :=
  latest_take (descending_perm key tie l) (descending_sorted key tie l) h

end Recency
