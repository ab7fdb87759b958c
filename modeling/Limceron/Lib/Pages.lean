/-
# `Limceron.Lib.Pages` — reading a list through a filter, page by page

A page has the first `k` elements that pass.  It ends somewhere in the list: it is all
that passes up to there, and its last element stands there (`exists_page`).
-/
import Mathlib.Data.List.Basic

namespace Pages

variable {α : Type*}

/-- As far as the page goes. -/
theorem exists_page (p : α → Bool) (l : List α) (k : ℕ) :
    ∃ m ≤ l.length, (l.filter p).take k = (l.take m).filter p ∧
      (m = 0 ∨ ∃ n a, m = n + 1 ∧ l[n]? = some a ∧ p a = true) := by
  induction l generalizing k with
  | nil =>
      refine ⟨0, Nat.le_refl 0, ?_, Or.inl rfl⟩
      rw [List.filter_nil, List.take_nil, List.take_nil]
      rfl
  | cons a l ih =>
      by_cases ha : p a = true
      · cases k with
        | zero => exact ⟨0, Nat.zero_le _, rfl, Or.inl rfl⟩
        | succ k =>
            obtain ⟨m, hm, htake, hlast⟩ := ih k
            refine ⟨m + 1, Nat.succ_le_succ hm, ?_, Or.inr ⟨m, ?_⟩⟩
            · rw [List.filter_cons, if_pos ha, List.take_succ_cons, List.take_succ_cons,
                List.filter_cons, if_pos ha, htake]
            · rcases hlast with rfl | ⟨n, b, rfl, hb, hpb⟩
              · exact ⟨a, rfl, rfl, ha⟩
              · exact ⟨b, rfl, hb, hpb⟩
      · obtain ⟨m, hm, htake, hlast⟩ := ih k
        rw [List.filter_cons, if_neg ha]
        rcases hlast with rfl | ⟨n, b, rfl, hb, hpb⟩
        · exact ⟨0, Nat.zero_le _, htake, Or.inl rfl⟩
        · refine ⟨n + 2, Nat.succ_le_succ hm, ?_, Or.inr ⟨n + 1, b, rfl, hb, hpb⟩⟩
          rw [htake, List.take_succ_cons, List.filter_cons, if_neg ha]

/-- The last element of what passes. -/
theorem getLast?_filter_take {p : α → Bool} {l : List α} {n : ℕ} {a : α} (h : l[n]? = some a)
    (ha : p a = true) : ((l.take (n + 1)).filter p).getLast? = some a := by
  rw [List.take_add_one, h, List.filter_append, Option.toList_some, List.filter_cons, if_pos ha,
    List.filter_nil, List.getLast?_concat]

/-- What passes up to a place, and from there on up to another. -/
theorem filter_take_add (p : α → Bool) (l : List α) (s m : ℕ) :
    (l.take (s + m)).filter p = (l.take s).filter p ++ ((l.drop s).take m).filter p := by
  rw [List.take_add, List.filter_append]

/-- Two tests on from two places: each element that only one of them comes to fails there. -/
theorem filter_drop_eq {p q : α → Bool} {l : List α} {d s : ℕ}
    (hq : ∀ i a, l[i]? = some a → d ≤ i → i < s → q a = false)
    (hp : ∀ i a, l[i]? = some a → s ≤ i → i < d → p a = false)
    (hpq : ∀ i a, l[i]? = some a → s ≤ i → q a = p a) :
    (l.drop d).filter q = (l.drop s).filter p := by
  induction l generalizing d s with
  | nil => rw [List.drop_nil, List.drop_nil, List.filter_nil, List.filter_nil]
  | cons a l ih =>
      cases d with
      | zero =>
          cases s with
          | zero =>
              have hrest : l.filter q = l.filter p := by
                refine @ih 0 0 ?_ ?_ ?_
                · intro i b _ _ hi
                  exact absurd hi (Nat.not_lt_zero i)
                · intro i b _ _ hi
                  exact absurd hi (Nat.not_lt_zero i)
                · intro i b hb _
                  exact hpq (i + 1) b hb (Nat.zero_le _)
              rw [List.drop_zero, List.filter_cons, List.filter_cons, hrest,
                hpq 0 a rfl (Nat.le_refl 0)]
          | succ s =>
              have hrest : l.filter q = (l.drop s).filter p := by
                refine @ih 0 s ?_ ?_ ?_
                · intro i b hb _ hi
                  exact hq (i + 1) b hb (Nat.zero_le _) (Nat.succ_lt_succ hi)
                · intro i b _ _ hi
                  exact absurd hi (Nat.not_lt_zero i)
                · intro i b hb hi
                  exact hpq (i + 1) b hb (Nat.succ_le_succ hi)
              rw [List.drop_zero, List.filter_cons,
                hq 0 a rfl (Nat.le_refl 0) (Nat.succ_pos s), List.drop_succ_cons, hrest]
              rfl
      | succ d =>
          cases s with
          | zero =>
              have hrest : (l.drop d).filter q = l.filter p := by
                refine @ih d 0 ?_ ?_ ?_
                · intro i b _ _ hi
                  exact absurd hi (Nat.not_lt_zero i)
                · intro i b hb _ hi
                  exact hp (i + 1) b hb (Nat.zero_le _) (Nat.succ_lt_succ hi)
                · intro i b hb _
                  exact hpq (i + 1) b hb (Nat.zero_le _)
              rw [List.drop_zero, List.filter_cons,
                hp 0 a rfl (Nat.le_refl 0) (Nat.succ_pos d), List.drop_succ_cons, hrest]
              rfl
          | succ s =>
              refine @ih d s ?_ ?_ ?_
              · intro i b hb hd hi
                exact hq (i + 1) b hb (Nat.succ_le_succ hd) (Nat.succ_lt_succ hi)
              · intro i b hb hs hi
                exact hp (i + 1) b hb (Nat.succ_le_succ hs) (Nat.succ_lt_succ hi)
              · intro i b hb hs
                exact hpq (i + 1) b hb (Nat.succ_le_succ hs)

end Pages
