/-
# `Limceron.Lib.DepthFirst` — depth-first search with a path

A search from a root keeps the vertices it has met, those on the path to where it is,
and those it has finished, in this order.  An edge to the path is counted, and not
followed; an edge to a finished vertex is not followed either.

| theorem           | what the search does                                       |
|-------------------|------------------------------------------------------------|
| `explore_some`    | returns, if finitely many vertices can be reached          |
| `visited_iff`     | meets what can be reached, once                            |
| `backs_pos_iff`   | counts an edge, if and only if a cycle can be reached      |
-/
import Mathlib.Data.Finset.Card
import Mathlib.Data.Finset.SDiff
import Mathlib.Data.List.Chain
import Mathlib.Data.List.Perm.Basic
import Mathlib.Data.List.Nodup
import Mathlib.Logic.Relation

namespace DepthFirst

open Relation

variable {α : Type}

structure State (α : Type) where
  visited : List α
  path : List α
  finished : List α
  /-- Edges to the path. -/
  backs : ℕ

def State.enter (s : State α) (w : α) : State α :=
  { s with visited := s.visited ++ [w], path := s.path ++ [w] }

def State.leave (s : State α) (w : α) : State α :=
  { s with path := s.path.dropLast, finished := s.finished ++ [w] }

/-- An edge to `w`. -/
def visit [DecidableEq α] (explore : α → State α → Option (State α)) (s : State α) (w : α) :
    Option (State α) :=
  if w ∈ s.path then some { s with backs := s.backs + 1 }
  else if w ∈ s.visited then some s
  else (explore w (s.enter w)).map (·.leave w)

/-- The edges of `v`, which is the last vertex of the path; the search goes at most `n`
vertices deep. -/
def explore [DecidableEq α] (next : α → List α) : ℕ → α → State α → Option (State α)
  | 0, _, _ => none
  | n + 1, v, s => (next v).foldlM (visit (explore next n)) s

def start (root : α) : State α := ⟨[root], [root], [], 0⟩

/-! ## The invariant -/

variable (next : α → List α) (root : α)

def Edge (a b : α) : Prop := b ∈ next a

/-- A vertex on a cycle can be reached. -/
def Cyclic : Prop := ∃ q, ReflTransGen (Edge next) root q ∧ TransGen (Edge next) q q

structure Inv (s : State α) : Prop where
  perm : s.visited.Perm (s.path ++ s.finished)
  nodup : (s.path ++ s.finished).Nodup
  reach : ∀ q ∈ s.visited, ReflTransGen (Edge next) root q
  chain : s.path.IsChain (Edge next)
  expanded : ∀ q ∈ s.finished, ∀ r ∈ next q, r ∈ s.visited
  /-- Without an edge to the path, what is finished is closed and has no cycle. -/
  closed : s.backs = 0 → ∀ q ∈ s.finished, ∀ r ∈ next q, r ∈ s.finished
  acyclic : s.backs = 0 → ∀ q ∈ s.finished, ¬ TransGen (Edge next) q q
  cyclic : 0 < s.backs → Cyclic next root

variable {next root}

theorem Inv.mem_visited {s : State α} (h : Inv next root s) {q : α} :
    q ∈ s.visited ↔ q ∈ s.path ∨ q ∈ s.finished := by
  rw [h.perm.mem_iff, List.mem_append]

theorem Inv.visited_nodup {s : State α} (h : Inv next root s) : s.visited.Nodup :=
  h.perm.nodup_iff.2 h.nodup

theorem inv_start (root : α) : Inv next root (start root) where
  perm := by simp [start]
  nodup := by simp [start]
  reach := by
    intro q hq
    obtain rfl := List.mem_singleton.1 hq
    exact .refl
  chain := List.isChain_singleton root
  expanded := by simp [start]
  closed := by simp [start]
  acyclic := by simp [start]
  cyclic := by simp [start]

/-- What a scan of edges leaves. -/
structure Scanned (ws : List α) (s t : State α) : Prop where
  path : t.path = s.path
  visited : s.visited <+: t.visited
  finished : s.finished <+: t.finished
  backs : s.backs ≤ t.backs
  seen : ∀ w ∈ ws, w ∈ t.visited
  done : t.backs = 0 → ∀ w ∈ ws, w ∈ t.finished

theorem Scanned.refl (s : State α) : Scanned [] s s where
  path := rfl
  visited := List.prefix_refl _
  finished := List.prefix_refl _
  backs := le_refl _
  seen := by simp
  done := by simp

theorem Scanned.cons {w : α} {ws : List α} {s t u : State α} (h₁ : Scanned [w] s t)
    (h₂ : Scanned ws t u) : Scanned (w :: ws) s u where
  path := h₂.path.trans h₁.path
  visited := h₁.visited.trans h₂.visited
  finished := h₁.finished.trans h₂.finished
  backs := h₁.backs.trans h₂.backs
  seen := by
    intro x hx
    rcases List.mem_cons.1 hx with rfl | hx
    · exact h₂.visited.subset (h₁.seen x List.mem_cons_self)
    · exact h₂.seen x hx
  done := by
    intro hbacks x hx
    rcases List.mem_cons.1 hx with rfl | hx
    · have hzero : t.backs = 0 := Nat.le_zero.1 (hbacks ▸ h₂.backs)
      exact h₂.finished.subset (h₁.done hzero x List.mem_cons_self)
    · exact h₂.done hbacks x hx

/-- A run from `v`, at the end of the path. -/
def Explores (next : α → List α) (root : α) (run : α → State α → Option (State α)) : Prop :=
  ∀ v s t, run v s = some t → Inv next root s → s.path.getLast? = some v →
    Inv next root t ∧ Scanned (next v) s t

/-! ## One edge -/

/-- From a vertex on the path there is a way to the last one. -/
theorem chain_reach {path : List α} (h : path.IsChain (Edge next)) {w v : α} (hw : w ∈ path)
    (hv : path.getLast? = some v) : ReflTransGen (Edge next) w v := by
  induction path generalizing w with
  | nil => cases hw
  | cons a path ih =>
      cases path with
      | nil =>
          obtain rfl := List.mem_singleton.1 hw
          obtain rfl : w = v := by simpa using hv
          exact .refl
      | cons b path =>
          obtain ⟨hedge, hchain⟩ := List.isChain_cons_cons.1 h
          rw [List.getLast?_cons_cons] at hv
          rcases List.mem_cons.1 hw with rfl | hw
          · exact .head hedge (ih hchain List.mem_cons_self hv)
          · exact ih hchain hw hv

theorem Inv.back {s : State α} (h : Inv next root s) {v w : α} (hv : s.path.getLast? = some v)
    (hedge : w ∈ next v) (hw : w ∈ s.path) :
    Inv next root { s with backs := s.backs + 1 } where
  perm := h.perm
  nodup := h.nodup
  reach := h.reach
  chain := h.chain
  expanded := h.expanded
  closed := fun hzero => absurd hzero (Nat.succ_ne_zero _)
  acyclic := fun hzero => absurd hzero (Nat.succ_ne_zero _)
  cyclic := fun _ => ⟨w, h.reach w (h.mem_visited.2 (.inl hw)),
    TransGen.tail' (chain_reach h.chain hw hv) hedge⟩

theorem Inv.enter {s : State α} (h : Inv next root s) {v w : α} (hv : s.path.getLast? = some v)
    (hedge : w ∈ next v) (hnew : w ∉ s.visited) : Inv next root (s.enter w) where
  perm := by
    have hmove : (s.visited ++ [w]).Perm (s.path ++ s.finished ++ [w]) := h.perm.append_right [w]
    refine hmove.trans ?_
    rw [List.append_assoc, State.enter, List.append_assoc]
    exact List.perm_append_comm.append_left s.path
  nodup := by
    rw [State.enter, List.append_assoc, List.nodup_append_comm, List.singleton_append,
      List.cons_append, List.nodup_cons, ← List.nodup_append_comm]
    refine ⟨fun hmem => hnew ?_, h.nodup⟩
    rw [h.mem_visited]
    exact (List.mem_append.1 hmem).symm
  reach := by
    intro q hq
    rcases List.mem_append.1 hq with hq | hq
    · exact h.reach q hq
    · obtain rfl := List.mem_singleton.1 hq
      have hlast := List.mem_of_getLast? hv
      exact (h.reach v (h.mem_visited.2 (.inl hlast))).tail hedge
  chain := by
    rw [State.enter, List.isChain_append]
    refine ⟨h.chain, List.isChain_singleton w, ?_⟩
    intro x hx y hy
    obtain rfl : v = x := Option.some.inj (hv.symm.trans hx)
    obtain rfl : w = y := by simpa using hy
    exact hedge
  expanded := fun q hq r hr => List.mem_append_left _ (h.expanded q hq r hr)
  closed := h.closed
  acyclic := h.acyclic
  cyclic := h.cyclic

theorem closed_reach {f : List α} (hclosed : ∀ q ∈ f, ∀ r ∈ next q, r ∈ f) {q r : α} (hq : q ∈ f)
    (h : ReflTransGen (Edge next) q r) : r ∈ f := by
  induction h with
  | refl => exact hq
  | tail _ hedge ih => exact hclosed _ ih _ hedge

/-- The vertex is finished, once its edges are scanned. -/
theorem Inv.leave {t : State α} {path : List α} {w : α} (h : Inv next root t)
    (hpath : t.path = path ++ [w]) (hseen : ∀ r ∈ next w, r ∈ t.visited)
    (hdone : t.backs = 0 → ∀ r ∈ next w, r ∈ t.finished) : Inv next root (t.leave w) := by
  have hperm : t.visited.Perm (path ++ (t.finished ++ [w])) := by
    refine h.perm.trans ?_
    rw [hpath, List.append_assoc]
    exact List.perm_append_comm.append_left path
  have hdrop : (t.leave w).path = path := by
    rw [State.leave, hpath, List.dropLast_concat]
  have hnotin : w ∉ t.finished := by
    intro hmem
    have hnodup := h.nodup
    rw [hpath] at hnodup
    exact List.disjoint_of_nodup_append hnodup (List.mem_append_right _ List.mem_cons_self) hmem
  constructor
  · rw [hdrop]
    exact hperm
  · rw [hdrop]
    exact hperm.nodup_iff.1 h.visited_nodup
  · exact h.reach
  · rw [hdrop]
    have hchain := h.chain
    rw [hpath] at hchain
    exact hchain.left_of_append
  · intro q hq r hr
    rcases List.mem_append.1 hq with hq | hq
    · exact h.expanded q hq r hr
    · obtain rfl := List.mem_singleton.1 hq
      exact hseen r hr
  · intro hzero q hq r hr
    rcases List.mem_append.1 hq with hq | hq
    · exact List.mem_append_left _ (h.closed hzero q hq r hr)
    · obtain rfl := List.mem_singleton.1 hq
      exact List.mem_append_left _ (hdone hzero r hr)
  · intro hzero q hq hcycle
    rcases List.mem_append.1 hq with hq | hq
    · exact h.acyclic hzero q hq hcycle
    · -- a cycle through `w` would have to come back out of what was finished before it
      obtain rfl := List.mem_singleton.1 hq
      obtain ⟨r, hr, hback⟩ := TransGen.head'_iff.1 hcycle
      exact hnotin (closed_reach (h.closed hzero) (hdone hzero r hr) hback)
  · exact h.cyclic

variable [DecidableEq α]

theorem visit_spec {run : α → State α → Option (State α)} (hrun : Explores next root run)
    {s t : State α} {v w : α} (h : visit run s w = some t) (hinv : Inv next root s)
    (hv : s.path.getLast? = some v) (hedge : w ∈ next v) :
    Inv next root t ∧ Scanned [w] s t := by
  unfold visit at h
  split_ifs at h with hpath hvisited
  · obtain rfl := Option.some.inj h
    refine ⟨hinv.back hv hedge hpath, rfl, List.prefix_refl _, List.prefix_refl _,
      Nat.le_succ _, ?_, fun hzero => absurd hzero (Nat.succ_ne_zero _)⟩
    intro x hx
    obtain rfl := List.mem_singleton.1 hx
    exact hinv.mem_visited.2 (.inl hpath)
  · obtain rfl := Option.some.inj h
    refine ⟨hinv, rfl, List.prefix_refl _, List.prefix_refl _, le_refl _, ?_, ?_⟩
    · intro x hx
      obtain rfl := List.mem_singleton.1 hx
      exact hvisited
    · intro _ x hx
      obtain rfl := List.mem_singleton.1 hx
      exact (hinv.mem_visited.1 hvisited).resolve_left hpath
  · obtain ⟨u, hu, rfl⟩ := Option.map_eq_some_iff.1 h
    obtain ⟨hinv', hscan⟩ :=
      hrun w (s.enter w) u hu (hinv.enter hv hedge hvisited) (by simp [State.enter])
    have hdrop : (u.leave w).path = s.path := by
      rw [State.leave, hscan.path, State.enter, List.dropLast_concat]
    refine ⟨hinv'.leave hscan.path hscan.seen hscan.done, hdrop, (List.prefix_append _ _).trans hscan.visited,
      hscan.finished.trans (List.prefix_append _ _), hscan.backs, ?_, ?_⟩
    · intro x hx
      obtain rfl := List.mem_singleton.1 hx
      exact hscan.visited.subset (List.mem_append_right _ List.mem_cons_self)
    · intro _ x hx
      obtain rfl := List.mem_singleton.1 hx
      exact List.mem_append_right _ List.mem_cons_self

theorem scan_spec {run : α → State α → Option (State α)} (hrun : Explores next root run)
    {v : α} {ws : List α} (hws : ∀ w ∈ ws, w ∈ next v) {s t : State α}
    (h : ws.foldlM (visit run) s = some t) (hinv : Inv next root s)
    (hv : s.path.getLast? = some v) : Inv next root t ∧ Scanned ws s t := by
  induction ws generalizing s with
  | nil =>
      obtain rfl : s = t := by simpa using h
      exact ⟨hinv, .refl s⟩
  | cons w ws ih =>
      rw [List.foldlM_cons] at h
      obtain ⟨u, hu, h⟩ := Option.bind_eq_some_iff.1 h
      obtain ⟨hinv', hscan⟩ := visit_spec hrun hu hinv hv (hws w List.mem_cons_self)
      obtain ⟨hinv'', hscan'⟩ := ih (fun x hx => hws x (List.mem_cons_of_mem _ hx)) h hinv'
        (hscan.path ▸ hv)
      exact ⟨hinv'', hscan.cons hscan'⟩

theorem explore_spec (n : ℕ) : Explores next root (explore next n) := by
  induction n with
  | zero =>
      intro v s t h
      cases h
  | succ n ih =>
      intro v s t h hinv hv
      exact scan_spec ih (fun w hw => hw) h hinv hv

/-! ## Termination -/

variable {all : Finset α}

/-- The vertices that are not met yet. -/
def fresh (all : Finset α) (s : State α) : ℕ := (all \ s.visited.toFinset).card

theorem fresh_le {s t : State α} (h : s.visited <+: t.visited) : fresh all t ≤ fresh all s := by
  refine Finset.card_le_card (Finset.sdiff_subset_sdiff (Finset.Subset.refl _) ?_)
  intro q hq
  rw [List.mem_toFinset] at hq ⊢
  exact h.subset hq

theorem fresh_lt {s : State α} {w : α} (hw : w ∈ all) (hnew : w ∉ s.visited) :
    fresh all (s.enter w) < fresh all s := by
  refine Finset.card_lt_card (Finset.ssubset_iff_subset_ne.2 ⟨?_, ?_⟩)
  · refine Finset.sdiff_subset_sdiff (Finset.Subset.refl _) ?_
    intro q hq
    rw [List.mem_toFinset] at hq ⊢
    exact List.mem_append_left _ hq
  · intro heq
    have hmem : w ∈ all \ s.visited.toFinset := by simp [hw, hnew]
    rw [← heq] at hmem
    simp [State.enter] at hmem

theorem scan_some {run : α → State α → Option (State α)} (hrun : Explores next root run)
    {n : ℕ} (hall : ∀ q, ReflTransGen (Edge next) root q → q ∈ all)
    (hsome : ∀ v s, Inv next root s → s.path.getLast? = some v → fresh all s < n →
      ∃ t, run v s = some t)
    {v : α} {ws : List α} (hws : ∀ w ∈ ws, w ∈ next v) {s : State α} (hinv : Inv next root s)
    (hv : s.path.getLast? = some v) (hn : fresh all s < n + 1) :
    ∃ t, ws.foldlM (visit run) s = some t := by
  induction ws generalizing s with
  | nil => exact ⟨s, rfl⟩
  | cons w ws ih =>
      have hedge := hws w List.mem_cons_self
      obtain ⟨u, hu⟩ : ∃ u, visit run s w = some u := by
        unfold visit
        split_ifs with hpath hvisited
        · exact ⟨_, rfl⟩
        · exact ⟨_, rfl⟩
        · have hreach := hinv.reach v (hinv.mem_visited.2 (.inl (List.mem_of_getLast? hv)))
          have hlt := fresh_lt (hall w (hreach.tail hedge)) hvisited
          obtain ⟨t, ht⟩ := hsome w (s.enter w) (hinv.enter hv hedge hvisited)
            (by simp [State.enter]) (by omega)
          exact ⟨t.leave w, by rw [ht]; rfl⟩
      obtain ⟨hinv', hscan⟩ := visit_spec hrun hu hinv hv hedge
      have hle : fresh all u ≤ fresh all s := fresh_le hscan.visited
      rw [List.foldlM_cons, hu]
      exact ih (fun x hx => hws x (List.mem_cons_of_mem _ hx)) hinv' (hscan.path ▸ hv) (by omega)

/-- The search returns, if it may go deeper than there are vertices to meet. -/
theorem explore_some (hall : ∀ q, ReflTransGen (Edge next) root q → q ∈ all) {n : ℕ} {v : α}
    {s : State α} (hinv : Inv next root s) (hv : s.path.getLast? = some v)
    (hn : fresh all s < n) : ∃ t, explore next n v s = some t := by
  induction n generalizing v s with
  | zero => omega
  | succ n ih =>
      exact scan_some (explore_spec n) hall (fun v s hinv hv hlt => ih hinv hv hlt)
        (fun w hw => hw) hinv hv hn

/-! ## The whole search -/

section Search

variable {n : ℕ} {t : State α}

theorem search_inv (h : explore next n root (start root) = some t) :
    Inv next root (t.leave root) ∧ Scanned (next root) (start root) t := by
  obtain ⟨hinv, hscan⟩ := explore_spec n _ _ _ h (inv_start root) rfl
  have hpath : t.path = [] ++ [root] := hscan.path
  exact ⟨hinv.leave hpath hscan.seen hscan.done, hscan⟩

theorem search_finished (h : explore next n root (start root) = some t) {q : α} :
    q ∈ t.visited ↔ q ∈ t.finished ++ [root] := by
  obtain ⟨hinv, hscan⟩ := search_inv h
  have hpath : (t.leave root).path = [] := by
    rw [State.leave, hscan.path]
    rfl
  have hmem := hinv.mem_visited (q := q)
  rw [hpath] at hmem
  simp only [List.not_mem_nil, false_or] at hmem
  exact hmem

/-- The search meets what can be reached. -/
theorem visited_iff (h : explore next n root (start root) = some t) {q : α} :
    q ∈ t.visited ↔ ReflTransGen (Edge next) root q := by
  obtain ⟨hinv, hscan⟩ := search_inv h
  refine ⟨hinv.reach q, fun hreach => ?_⟩
  have hclosed : ∀ q ∈ t.visited, ∀ r ∈ next q, r ∈ t.visited := by
    intro q hq
    exact hinv.expanded q ((search_finished h).1 hq)
  exact closed_reach hclosed (hscan.visited.subset List.mem_cons_self) hreach

/-- The search counts an edge to its path, if and only if there is a cycle. -/
theorem backs_pos_iff (h : explore next n root (start root) = some t) :
    0 < t.backs ↔ Cyclic next root := by
  obtain ⟨hinv, -⟩ := search_inv h
  refine ⟨hinv.cyclic, fun ⟨q, hreach, hcycle⟩ => ?_⟩
  by_contra hbacks
  have hmem := (search_finished h).1 ((visited_iff h).2 hreach)
  exact hinv.acyclic (Nat.eq_zero_of_not_pos hbacks) q hmem hcycle

end Search

end DepthFirst
