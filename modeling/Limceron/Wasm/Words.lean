/-
# `Limceron.Wasm.Words` — words in memory

A little-endian word is read back bit by bit: bit `i` of a word at `a` is bit
`i % 8` of the byte at `a + i / 8`.  Every fact about overlapping and disjoint
accesses, and about accesses of different widths, follows from that.
-/
import Limceron.Wasm.Machine

namespace Limceron.Wasm.Memory

theorem read_getLsbD (mem : Memory) (n : Nat) : ∀ (a i : Nat),
    (mem.read a n).getLsbD i =
      (decide (i < 8 * n) && decide (i < 64) && (mem (a + i / 8)).toBitVec.getLsbD (i % 8)) := by
  induction n with
  | zero => intro a i; simp [Memory.read]
  | succ n ih =>
      intro a i
      rw [Memory.read, BitVec.getLsbD_or, BitVec.getLsbD_setWidth, BitVec.getLsbD_shiftLeft, ih]
      by_cases hi : i < 8
      · rw [Nat.div_eq_of_lt hi, Nat.mod_eq_of_lt hi]
        simp [hi, show i < 8 * (n + 1) by omega]
      · have hbyte : (mem a).toBitVec.getLsbD i = false := BitVec.getLsbD_of_ge _ _ (by omega)
        have hsub : (i - 8) / 8 = i / 8 - 1 := by omega
        have hmod : (i - 8) % 8 = i % 8 := by omega
        have haddr : a + 1 + (i / 8 - 1) = a + i / 8 := by omega
        rw [hbyte, hsub, hmod, haddr, Bool.and_false, Bool.false_or]
        by_cases hlt : i < 64
        · simp [hi, hlt, show i - 8 < 64 by omega, show i - 8 < 8 * n ↔ i < 8 * (n + 1) by omega]
        · simp [hlt]

theorem write_getLsbD (mem : Memory) (n : Nat) : ∀ (a : Nat) (v : BitVec 64) (k : Nat), k < n →
    ∀ j < 8, (mem.write a v n (a + k)).toBitVec.getLsbD j = v.getLsbD (8 * k + j) := by
  induction n with
  | zero => exact fun _ _ k hk => absurd hk (Nat.not_lt_zero k)
  | succ n ih =>
      intro a v k hk j hj
      rw [Memory.write]
      cases k with
      | zero =>
          simp only [Nat.add_zero, Nat.mul_zero, Nat.zero_add, Function.update_self,
            BitVec.getLsbD_setWidth, hj, decide_true, Bool.true_and]
      | succ k =>
          have hne : a + (k + 1) ≠ a := by omega
          rw [Function.update_of_ne hne, show a + (k + 1) = a + 1 + k by omega,
            ih (a + 1) (v >>> 8) k (by omega) j hj, BitVec.getLsbD_ushiftRight]
          congr 1
          omega

/-- A write leaves the other bytes. -/
theorem write_other (mem : Memory) (n : Nat) : ∀ (a : Nat) (v : BitVec 64) (x : Nat),
    x < a ∨ a + n ≤ x → mem.write a v n x = mem x := by
  induction n with
  | zero => exact fun _ _ _ _ => rfl
  | succ n ih =>
      intro a v x hx
      have hne : x ≠ a := by omega
      rw [Memory.write, Function.update_of_ne hne, ih (a + 1) (v >>> 8) x (by omega)]

theorem read_congr {mem mem' : Memory} {a n : Nat}
    (h : ∀ x, a ≤ x → x < a + n → mem x = mem' x) : mem.read a n = mem'.read a n := by
  refine BitVec.eq_of_getLsbD_eq fun i hi => ?_
  rw [read_getLsbD, read_getLsbD]
  by_cases hn : i < 8 * n
  · rw [h (a + i / 8) (by omega) (by omega)]
  · simp [hn]

theorem read_write_other {mem : Memory} {a a' n n' : Nat} {v : BitVec 64}
    (h : a + n ≤ a' ∨ a' + n' ≤ a) : (mem.write a v n).read a' n' = mem.read a' n' :=
  read_congr fun x hle hlt => mem.write_other n a v x (by omega)

theorem read_write_self (mem : Memory) (a : Nat) (v : BitVec 64) :
    (mem.write a v 8).read a 8 = v := by
  refine BitVec.eq_of_getLsbD_eq fun i hi => ?_
  rw [read_getLsbD, write_getLsbD mem 8 a v (i / 8) (by omega) (i % 8) (by omega),
    show 8 * (i / 8) + i % 8 = i by omega]
  simp [hi]

/-- No bit at or above `w` is set. -/
def Narrow (w : Nat) (v : BitVec 64) : Prop := ∀ i, w ≤ i → v.getLsbD i = false

theorem narrow_bool {v : BitVec 64} (h : v = 0 ∨ v = 1) : Narrow 32 v := by
  intro i hi
  rcases h with rfl | rfl
  · exact BitVec.getLsbD_zero
  · show (1#64).getLsbD i = false
    rw [BitVec.getLsbD_one, decide_eq_false (show i ≠ 0 by omega), Bool.and_false]

theorem read_write_self_narrow {mem : Memory} {a : Nat} {v : BitVec 64} (hv : Narrow 32 v) :
    (mem.write a v 4).read a 4 = v := by
  refine BitVec.eq_of_getLsbD_eq fun i hi => ?_
  rw [read_getLsbD]
  by_cases hlt : i < 32
  · rw [write_getLsbD mem 4 a v (i / 8) (by omega) (i % 8) (by omega),
      show 8 * (i / 8) + i % 8 = i by omega]
    simp [hi, show i < 8 * 4 by omega]
  · rw [hv i (by omega), decide_eq_false (show ¬ i < 8 * 4 by omega), Bool.false_and,
      Bool.false_and]

/-- A 32-bit load of a word that fits. -/
theorem read_narrow {mem : Memory} {a : Nat} {v : BitVec 64} (hv : Narrow 32 v)
    (h : mem.read a 8 = v) : mem.read a 4 = v := by
  refine BitVec.eq_of_getLsbD_eq fun i hi => ?_
  rw [read_getLsbD]
  by_cases hlt : i < 32
  · rw [← h, read_getLsbD, decide_eq_true (show i < 8 * 4 by omega),
      decide_eq_true (show i < 8 * 8 by omega)]
  · rw [hv i (by omega), decide_eq_false (show ¬ i < 8 * 4 by omega), Bool.false_and,
      Bool.false_and]

/-- A 32-bit store over a word that fits. -/
theorem read_write_narrow {mem : Memory} {a : Nat} {v w : BitVec 64} (hv : Narrow 32 v)
    (hw : Narrow 32 w) (h : mem.read a 8 = w) : (mem.write a v 4).read a 8 = v := by
  refine BitVec.eq_of_getLsbD_eq fun i hi => ?_
  rw [read_getLsbD]
  by_cases hlt : i < 32
  · rw [write_getLsbD mem 4 a v (i / 8) (by omega) (i % 8) (by omega),
      show 8 * (i / 8) + i % 8 = i by omega]
    simp [hi]
  · have hold := hw i (by omega)
    rw [← h, read_getLsbD] at hold
    rw [write_other mem 4 a v (a + i / 8) (by omega), hv i (by omega)]
    exact hold

end Limceron.Wasm.Memory
