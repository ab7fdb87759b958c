/-
# `Limceron.Lib.DotPaths` — walks in a tree of directories

A directory is the list of the names that lead to it from the root.  A walk goes
into a directory, up, or stays; at the root, up stays.

What a walk does can be told from the walk alone (`net`): it goes up some levels, and
then down along some names.
-/
import Mathlib.Data.List.Basic
import Mathlib.Data.List.Infix

namespace DotPaths

variable {α : Type}

inductive Move (α : Type) where
  | into (name : α)
  | up
  | stay
  deriving DecidableEq

/-- One move, from a directory. -/
def step (dir : List α) : Move α → List α
  | .into name => dir ++ [name]
  | .up => dir.dropLast
  | .stay => dir

def walk (dir : List α) (ms : List (Move α)) : List α := ms.foldl step dir

/-- Levels up, and then names down: one more move. -/
def netStep (net : Nat × List α) : Move α → Nat × List α
  | .into name => (net.1, net.2 ++ [name])
  | .up => if net.2 = [] then (net.1 + 1, []) else (net.1, net.2.dropLast)
  | .stay => net

/-- How far up a walk goes, and what it goes down from there. -/
def net (ms : List (Move α)) : Nat × List α := ms.foldl netStep (0, [])

/-- Where levels up and names down lead to. -/
def place (dir : List α) (net : Nat × List α) : List α := dir.take (dir.length - net.1) ++ net.2

theorem place_netStep (dir : List α) (net : Nat × List α) (m : Move α) :
    place dir (netStep net m) = step (place dir net) m := by
  obtain ⟨k, names⟩ := net
  cases m with
  | into name => simp [place, netStep, step]
  | stay => rfl
  | up =>
      by_cases hnames : names = []
      · subst hnames
        have htake : dir.take (dir.length - (k + 1)) = (dir.take (dir.length - k)).dropLast := by
          rw [List.dropLast_eq_take, List.take_take, List.length_take]
          congr 1
          omega
        simp [place, netStep, step, htake]
      · simp [place, netStep, step, hnames, List.dropLast_append_of_ne_nil]

theorem walk_eq_place (dir : List α) (ms : List (Move α)) : walk dir ms = place dir (net ms) := by
  have hstart : place dir (0, []) = dir := by simp [place]
  calc walk dir ms = ms.foldl step (place dir (0, [])) := by rw [walk, hstart]
    _ = place dir (net ms) := List.foldl_hom (place dir) fun n m => (place_netStep dir n m).symm

theorem walk_append (dir : List α) (ms ns : List (Move α)) :
    walk dir (ms ++ ns) = walk (walk dir ms) ns := List.foldl_append

/-- A walk ends below the directory where it began exactly if the names it goes down
begin with those that it went up. -/
theorem prefix_walk_iff (dir : List α) (ms : List (Move α)) :
    dir <+: walk dir ms ↔ dir.drop (dir.length - (net ms).1) <+: (net ms).2 := by
  rw [walk_eq_place, place]
  conv_lhs => lhs; rw [← List.take_append_drop (dir.length - (net ms).1) dir]
  exact List.prefix_append_right_inj _

/-- Without a move up, a walk stays below. -/
theorem prefix_walk_of_not_up {dir : List α} {ms : List (Move α)} (h : (net ms).1 = 0) :
    dir <+: walk dir ms := by
  rw [prefix_walk_iff, h, Nat.sub_zero, List.drop_length]
  exact List.nil_prefix

theorem net_of_not_up {ms : List (Move α)} (h : Move.up ∉ ms) : (net ms).1 = 0 := by
  induction ms using List.reverseRecOn with
  | nil => rfl
  | append_singleton ms m ih =>
      rw [List.mem_append, not_or] at h
      have hms := ih h.1
      rw [net, List.foldl_append, ← net]
      cases m with
      | into name => exact hms
      | stay => exact hms
      | up => exact absurd (List.mem_singleton_self _) h.2

/-! ## Paths in words -/

variable [DecidableEq α]

/-- A name that is empty or a dot stays, and two dots go up. -/
def moveOf (dot : α) (name : List α) : Move (List α) :=
  if name = [] ∨ name = [dot] then .stay else if name = [dot, dot] then .up else .into name

/-- The names between the slashes. -/
def moves (slash dot : α) (path : List α) : List (Move (List α)) :=
  (path.splitOn slash).map (moveOf dot)

theorem moves_append (slash dot : α) (p q : List α) :
    moves slash dot (p ++ slash :: q) = moves slash dot p ++ moves slash dot q := by
  rw [moves, List.splitOn_append_cons_self, List.map_append]
  rfl

theorem up_not_mem_moves {slash dot : α} {p : List α} (h : [dot, dot] ∉ p.splitOn slash) :
    Move.up ∉ moves slash dot p := by
  intro hup
  rcases List.mem_map.1 hup with ⟨name, hname, hmove⟩
  rw [moveOf] at hmove
  split_ifs at hmove with hstay hdots
  exact h (hdots ▸ hname)

end DotPaths
