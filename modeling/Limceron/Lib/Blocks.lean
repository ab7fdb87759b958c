/-
# `Limceron.Lib.Blocks` — a function folded over blocks, fed one element at a time

A compression function `f : σ → List β → σ` is folded over the blocks of `B`
elements of a list.  A program seldom has the list: it has a buffer of fewer
than `B` elements, takes one element after the other and compresses when the
buffer is full.

| | |
| :-- | :-- |
| `chain f B s xs` | `f` folded from `s` over the full blocks of `xs` |
| `rest B xs` | what follows the last full block |

`chain_push` and `rest_push` say what one more element does to the two: this is
what a buffer is.
-/
import Mathlib.Data.List.TakeDrop
import Mathlib.Tactic.Ring

namespace Blocks

variable {σ β : Type} (f : σ → List β → σ) (B : Nat)

/-- The first `k` blocks. -/
def blocks : Nat → List β → List (List β)
  | 0, _ => []
  | k + 1, xs => xs.take B :: blocks k (xs.drop B)

def chain (s : σ) (xs : List β) : σ := (blocks B (xs.length / B) xs).foldl f s

def rest (xs : List β) : List β := xs.drop (xs.length / B * B)

/-! ## Blocks of longer lists -/

theorem blocks_append {k : Nat} {xs : List β} (ys : List β) (h : k * B ≤ xs.length) :
    blocks B k (xs ++ ys) = blocks B k xs := by
  induction k generalizing xs with
  | zero => rfl
  | succ k ih =>
    have hB : B ≤ xs.length := by rw [Nat.succ_mul] at h; omega
    have hk : k * B ≤ (xs.drop B).length := by
      rw [Nat.succ_mul] at h
      rw [List.length_drop]
      omega
    simp only [blocks]
    rw [List.take_append_of_le_length hB, List.drop_append_of_le_length hB, ih hk]

theorem blocks_succ (k : Nat) (xs : List β) :
    blocks B (k + 1) xs = blocks B k xs ++ [(xs.drop (k * B)).take B] := by
  induction k generalizing xs with
  | zero => simp [blocks]
  | succ k ih =>
    rw [blocks, ih (xs.drop B), blocks, List.drop_drop, Nat.succ_mul, Nat.add_comm B,
      List.cons_append]

/-! ## One more element -/

variable {B}

theorem rest_length (xs : List β) : (rest B xs).length = xs.length % B := by
  have h := Nat.div_add_mod xs.length B
  rw [Nat.mul_comm] at h
  rw [rest, List.length_drop]
  omega

/-- While the buffer is not full, the element joins it. -/
theorem push_short {xs : List β} (b : β) (h : xs.length % B + 1 < B) (s : σ) :
    chain f B s (xs ++ [b]) = chain f B s xs ∧ rest B (xs ++ [b]) = rest B xs ++ [b] := by
  have hd : (xs.length + 1) / B = xs.length / B := by
    have hB : 0 < B := by omega
    rw [Nat.div_eq_iff hB]
    have := Nat.div_add_mod xs.length B
    rw [Nat.mul_comm] at this
    omega
  have hle : xs.length / B * B ≤ xs.length := Nat.div_mul_le_self _ _
  constructor
  · rw [chain, chain, List.length_append, List.length_singleton, hd, blocks_append B [b] hle]
  · rw [rest, rest, List.length_append, List.length_singleton, hd,
      List.drop_append_of_le_length hle]

/-- A list whose length leaves a rest, with as much after it as fills one block:
the rest and what follows are the last block compressed. -/
theorem chain_last {xs ys : List β} (hB : 0 < B) (h : xs.length % B + ys.length = B) (s : σ) :
    chain f B s (xs ++ ys) = f (chain f B s xs) (rest B xs ++ ys) := by
  have hsum := Nat.div_add_mod xs.length B
  rw [Nat.mul_comm] at hsum
  have hd : (xs ++ ys).length / B = xs.length / B + 1 := by
    rw [List.length_append, Nat.div_eq_iff hB, Nat.succ_mul]
    omega
  have hle : xs.length / B * B ≤ xs.length := Nat.div_mul_le_self _ _
  have hlen : (rest B xs ++ ys).length = B := by rw [List.length_append, rest_length, h]
  rw [chain, chain, hd, blocks_succ, blocks_append B ys hle, List.drop_append_of_le_length hle,
    List.foldl_append, ← rest, List.take_of_length_le (le_of_eq hlen)]
  rfl

/-- The element that fills the buffer has it compressed. -/
theorem push_full {xs : List β} (b : β) (h : xs.length % B + 1 = B) (s : σ) :
    chain f B s (xs ++ [b]) = f (chain f B s xs) (rest B xs ++ [b]) ∧
      rest B (xs ++ [b]) = [] := by
  have hB : 0 < B := by omega
  have hmod : (xs ++ [b]).length % B = 0 := by
    rw [List.length_append, List.length_singleton, ← Nat.div_add_mod xs.length B, Nat.add_assoc, h,
      Nat.mul_add_mod, Nat.mod_self]
  refine ⟨chain_last f hB (by simpa using h) s, ?_⟩
  rw [← List.length_eq_zero_iff, rest_length, hmod]

end Blocks
