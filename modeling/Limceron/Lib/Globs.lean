/-
# `Globs` — patterns with wildcards, and their languages

| token | denotes |
| :-- | :-- |
| `char c` | `c` |
| `run` | any text without the separator |
| `deep` | any text; `deep true` was written with a separator behind it |

`Matches` is the language of a pattern.  `accepts` reads the pattern from the left and
has no use for `deep true` when the text has ended: `accepts_iff` says what that costs.
-/
import Mathlib.Data.List.Infix

namespace Globs

variable {α : Type*}

inductive Token (α : Type*) where
  | char (c : α)
  | run
  | deep (separated : Bool)

/-- The language of a pattern. -/
inductive Matches (sep : α) : List (Token α) → List α → Prop
  | nil : Matches sep [] []
  | char {c : α} {ts : List (Token α)} {s : List α} : Matches sep ts s →
      Matches sep (.char c :: ts) (c :: s)
  | run {u s : List α} {ts : List (Token α)} : sep ∉ u → Matches sep ts s →
      Matches sep (.run :: ts) (u ++ s)
  | deep {b : Bool} {u s : List α} {ts : List (Token α)} : Matches sep ts s →
      Matches sep (.deep b :: ts) (u ++ s)

namespace Token

/-- A wildcard. -/
def wild : Token α → Bool
  | char _ => false
  | _ => true

/-- A wildcard that is still read when the text has ended. -/
def trailing : Token α → Bool
  | run | deep false => true
  | _ => false

def isSeparated : Token α → Bool
  | deep b => b
  | _ => false

theorem trailing_iff {t : Token α} (hwild : t.wild = true) :
    t.trailing = true ↔ t.isSeparated = false := by
  cases t with
  | char c => cases hwild
  | run => exact ⟨fun _ => rfl, fun _ => rfl⟩
  | deep b => cases b <;> simp [trailing, isSeparated]

end Token

/-! ## The language -/

section Language

variable {sep : α}

theorem matches_append {q r : List (Token α)} {s : List α} :
    Matches sep (q ++ r) s ↔ ∃ x v, s = x ++ v ∧ Matches sep q x ∧ Matches sep r v := by
  constructor
  · intro h
    induction q generalizing s with
    | nil => exact ⟨[], s, rfl, .nil, h⟩
    | cons t q ih =>
        rw [List.cons_append] at h
        cases h with
        | char hs =>
            obtain ⟨x, v, rfl, hx, hv⟩ := ih hs
            exact ⟨_ :: x, v, rfl, .char hx, hv⟩
        | run hu hs =>
            obtain ⟨x, v, rfl, hx, hv⟩ := ih hs
            exact ⟨_ ++ x, v, (List.append_assoc _ _ _).symm, .run hu hx, hv⟩
        | deep hs =>
            obtain ⟨x, v, rfl, hx, hv⟩ := ih hs
            exact ⟨_ ++ x, v, (List.append_assoc _ _ _).symm, .deep hx, hv⟩
  · rintro ⟨x, v, rfl, hx, hv⟩
    induction hx with
    | nil => exact hv
    | char _ ih => exact .char ih
    | run hu _ ih =>
        rw [List.append_assoc]
        exact .run hu ih
    | deep _ ih =>
        rw [List.append_assoc]
        exact .deep ih

/-- Wildcards match the empty text. -/
theorem matches_wild {r : List (Token α)} (h : ∀ t ∈ r, t.wild = true) : Matches sep r [] := by
  induction r with
  | nil => exact .nil
  | cons t r ih =>
      have hr := ih fun t' ht' => h t' (List.mem_cons_of_mem _ ht')
      cases t with
      | char c => cases h (.char c) List.mem_cons_self
      | run => exact .run (u := []) List.not_mem_nil hr
      | deep b => exact .deep (u := []) hr

variable (sep) in
/-- The pattern ends in wildcards, one of them `deep true`, and what stands before these
matches the text and none of its proper beginnings. -/
def EndsAt (ts : List (Token α)) (s : List α) : Prop :=
  ∃ q r, ts = q ++ r ∧ (∀ t ∈ r, t.wild = true) ∧ (∃ t ∈ r, t.isSeparated = true) ∧
    Matches sep q s ∧ ∀ x v, s = x ++ v → v ≠ [] → ¬ Matches sep q x

theorem EndsAt.matches {ts : List (Token α)} {s : List α} (h : EndsAt sep ts s) :
    Matches sep ts s := by
  obtain ⟨q, r, rfl, hwild, -, hq, -⟩ := h
  exact matches_append.mpr ⟨s, [], (List.append_nil s).symm, hq, matches_wild hwild⟩

/-- The wildcards at the end of a pattern, and what stands before them. -/
theorem split_wild (ts : List (Token α)) :
    ∃ q r, ts = q ++ r ∧ (∀ t ∈ r, t.wild = true) ∧ (q = [] ∨ ∃ q' c, q = q' ++ [.char c]) := by
  induction ts with
  | nil => exact ⟨[], [], rfl, by simp, .inl rfl⟩
  | cons t ts ih =>
      obtain ⟨q, r, rfl, hwild, hq⟩ := ih
      rcases hq with rfl | ⟨q', c, rfl⟩
      · cases t with
        | char d => exact ⟨[.char d], r, rfl, hwild, .inr ⟨[], d, rfl⟩⟩
        | run =>
            refine ⟨[], .run :: r, rfl, fun t ht => ?_, .inl rfl⟩
            rcases List.mem_cons.mp ht with rfl | ht
            · rfl
            · exact hwild t ht
        | deep b =>
            refine ⟨[], .deep b :: r, rfl, fun t ht => ?_, .inl rfl⟩
            rcases List.mem_cons.mp ht with rfl | ht
            · rfl
            · exact hwild t ht
      · exact ⟨t :: (q' ++ [.char c]), r, rfl, hwild, .inr ⟨t :: q', c, rfl⟩⟩

end Language

section Reading

variable [DecidableEq α] (sep : α)

/-- What is left of the text when `run` has taken some of it: up to the next separator. -/
def runTails : List α → List (List α)
  | [] => [[]]
  | c :: s => if c = sep then [c :: s] else (c :: s) :: runTails s

/-- The pattern is read from the left. -/
def accepts : List (Token α) → List α → Bool
  | [], s => s.isEmpty
  | t :: ts, [] => (t :: ts).all Token.trailing
  | .char d :: ts, c :: s => d == c && accepts ts s
  | .run :: ts, c :: s => (runTails sep (c :: s)).any (accepts ts)
  | .deep _ :: ts, c :: s => ts.isEmpty || (c :: s).tails.any (accepts ts)

variable {sep}

theorem mem_runTails {s v : List α} :
    v ∈ runTails sep s ↔ ∃ u, sep ∉ u ∧ s = u ++ v := by
  induction s with
  | nil => simp [runTails]
  | cons c s ih =>
      rw [runTails]
      split
      · rename_i hc
        constructor
        · intro h
          exact ⟨[], List.not_mem_nil, (List.mem_singleton.mp h).symm⟩
        · rintro ⟨u, hu, heq⟩
          cases u with
          | nil => exact List.mem_singleton.mpr heq.symm
          | cons d u =>
              rw [List.cons_append, List.cons.injEq] at heq
              exact absurd (hc ▸ heq.1 ▸ List.mem_cons_self) hu
      · rename_i hc
        rw [List.mem_cons, ih]
        constructor
        · rintro (rfl | ⟨u, hu, rfl⟩)
          · exact ⟨[], List.not_mem_nil, rfl⟩
          · refine ⟨c :: u, ?_, rfl⟩
            rw [List.mem_cons]
            rintro (h | h)
            · exact hc h.symm
            · exact hu h
        · rintro ⟨u, hu, heq⟩
          cases u with
          | nil => exact .inl heq.symm
          | cons d u =>
              rw [List.cons_append, List.cons.injEq] at heq
              exact .inr ⟨u, fun h => hu (List.mem_cons_of_mem _ h), heq.2⟩

/-! ## What is accepted, token by token -/

theorem accepts_nil (ts : List (Token α)) : accepts sep ts [] = ts.all Token.trailing := by
  cases ts with
  | nil => rfl
  | cons t ts => rw [accepts]

theorem accepts_char {d : α} {ts : List (Token α)} {s : List α} :
    accepts sep (.char d :: ts) s = true ↔ ∃ v, s = d :: v ∧ accepts sep ts v = true := by
  cases s with
  | nil => simp [accepts_nil, Token.trailing]
  | cons c s =>
      rw [accepts, Bool.and_eq_true, beq_iff_eq]
      constructor
      · rintro ⟨rfl, h⟩
        exact ⟨s, rfl, h⟩
      · rintro ⟨v, heq, h⟩
        obtain ⟨rfl, rfl⟩ := List.cons.inj heq
        exact ⟨rfl, h⟩

theorem accepts_run {ts : List (Token α)} {s : List α} :
    accepts sep (.run :: ts) s = true ↔
      ∃ u v, s = u ++ v ∧ sep ∉ u ∧ accepts sep ts v = true := by
  cases s with
  | nil =>
      rw [accepts_nil, List.all_cons, Token.trailing, Bool.true_and, ← @accepts_nil _ _ sep]
      constructor
      · intro h
        exact ⟨[], [], rfl, List.not_mem_nil, h⟩
      · rintro ⟨u, v, heq, -, h⟩
        obtain ⟨rfl, rfl⟩ := List.append_eq_nil_iff.mp heq.symm
        exact h
  | cons c s =>
      rw [accepts, List.any_eq_true]
      constructor
      · rintro ⟨v, hv, h⟩
        obtain ⟨u, hu, heq⟩ := mem_runTails.mp hv
        exact ⟨u, v, heq, hu, h⟩
      · rintro ⟨u, v, heq, hu, h⟩
        exact ⟨v, mem_runTails.mpr ⟨u, hu, heq⟩, h⟩

theorem accepts_deep {b : Bool} {ts : List (Token α)} {s : List α} :
    accepts sep (.deep b :: ts) s = true ↔
      (b = true → s ≠ []) ∧ ∃ u v, s = u ++ v ∧ accepts sep ts v = true := by
  cases s with
  | nil =>
      rw [accepts_nil, List.all_cons, Bool.and_eq_true, ← @accepts_nil _ _ sep]
      have hb : (Token.deep b : Token α).trailing = true ↔ (b = true → ([] : List α) ≠ []) := by
        cases b <;> simp [Token.trailing]
      rw [hb]
      refine and_congr_right fun _ => ⟨fun h => ⟨[], [], rfl, h⟩, ?_⟩
      rintro ⟨u, v, heq, h⟩
      obtain ⟨rfl, rfl⟩ := List.append_eq_nil_iff.mp heq.symm
      exact h
  | cons c s =>
      rw [accepts, Bool.or_eq_true, List.any_eq_true]
      constructor
      · rintro (hts | ⟨v, hv, h⟩)
        · rw [List.isEmpty_iff] at hts
          subst hts
          exact ⟨fun _ => List.cons_ne_nil _ _, c :: s, [], (List.append_nil _).symm, rfl⟩
        · obtain ⟨u, heq⟩ := (List.mem_tails _ _).mp hv
          exact ⟨fun _ => List.cons_ne_nil _ _, u, v, heq.symm, h⟩
      · rintro ⟨-, u, v, heq, h⟩
        exact .inr ⟨v, (List.mem_tails _ _).mpr ⟨u, heq.symm⟩, h⟩

/-! ## Acceptance and the language -/

/-- Only texts of the language are accepted; the texts the first tokens take are given. -/
theorem matches_of_accepts {q r : List (Token α)} {s : List α}
    (h : accepts sep (q ++ r) s = true) :
    ∃ x v, s = x ++ v ∧ Matches sep q x ∧ accepts sep r v = true := by
  induction q generalizing s with
  | nil => exact ⟨[], s, rfl, .nil, h⟩
  | cons t q ih =>
      rw [List.cons_append] at h
      cases t with
      | char d =>
          obtain ⟨s, rfl, hs⟩ := accepts_char.mp h
          obtain ⟨x, v, rfl, hx, hv⟩ := ih hs
          exact ⟨d :: x, v, rfl, .char hx, hv⟩
      | run =>
          obtain ⟨u, s, rfl, hu, hs⟩ := accepts_run.mp h
          obtain ⟨x, v, rfl, hx, hv⟩ := ih hs
          exact ⟨u ++ x, v, (List.append_assoc _ _ _).symm, .run hu hx, hv⟩
      | deep b =>
          obtain ⟨-, u, s, rfl, hs⟩ := accepts_deep.mp h
          obtain ⟨x, v, rfl, hx, hv⟩ := ih hs
          exact ⟨u ++ x, v, (List.append_assoc _ _ _).symm, .deep hx, hv⟩

/-- The first tokens take what is theirs, as long as the text goes on behind them. -/
theorem accepts_of_matches {q r : List (Token α)} {x v : List α} (h : Matches sep q x)
    (hv : v ≠ []) (hr : accepts sep r v = true) : accepts sep (q ++ r) (x ++ v) = true := by
  induction h with
  | nil => exact hr
  | char _ ih => exact accepts_char.mpr ⟨_, rfl, ih⟩
  | run hu _ ih => exact accepts_run.mpr ⟨_, _, List.append_assoc _ _ _, hu, ih⟩
  | deep _ ih =>
      refine accepts_deep.mpr ⟨fun _ hnil => ?_, _, _, List.append_assoc _ _ _, ih⟩
      exact hv (List.append_eq_nil_iff.mp hnil).2

theorem accepts_trailing {r : List (Token α)} (h : ∀ t ∈ r, t.trailing = true) {v : List α}
    (hv : Matches sep r v) : accepts sep r v = true := by
  induction hv with
  | nil => rfl
  | @char c _ _ _ _ => cases h (.char c) List.mem_cons_self
  | run hu _ ih =>
      exact accepts_run.mpr ⟨_, _, rfl, hu, ih fun t ht => h t (List.mem_cons_of_mem _ ht)⟩
  | @deep b _ _ _ _ ih =>
      refine accepts_deep.mpr
        ⟨fun hb => ?_, _, _, rfl, ih fun t ht => h t (List.mem_cons_of_mem _ ht)⟩
      have htrailing := h (.deep b) List.mem_cons_self
      rw [hb] at htrailing
      cases htrailing

/-- Wildcards with a `deep true` among them take any text that is not empty. -/
theorem accepts_separated {r : List (Token α)} (h : ∀ t ∈ r, t.wild = true)
    (hdeep : ∃ t ∈ r, t.isSeparated = true) {v : List α} (hv : v ≠ []) :
    accepts sep r v = true := by
  induction r with
  | nil =>
      obtain ⟨t, ht, -⟩ := hdeep
      cases ht
  | cons t r ih =>
      have hr : ∀ t ∈ r, t.wild = true := fun t' ht' => h t' (List.mem_cons_of_mem _ ht')
      by_cases hlater : ∃ t ∈ r, t.isSeparated = true
      · have hrest := ih hr hlater
        cases t with
        | char c => cases h (.char c) List.mem_cons_self
        | run => exact accepts_run.mpr ⟨[], v, rfl, List.not_mem_nil, hrest⟩
        | deep b => exact accepts_deep.mpr ⟨fun _ => hv, [], v, rfl, hrest⟩
      · have hnil : accepts sep r [] = true := by
          rw [accepts_nil, List.all_eq_true]
          intro t' ht'
          rw [Token.trailing_iff (hr t' ht')]
          exact Bool.of_not_eq_true fun hsep => hlater ⟨t', ht', hsep⟩
        obtain ⟨t', ht', hsep⟩ := hdeep
        rcases List.mem_cons.mp ht' with rfl | ht'
        · cases t' with
          | char c => cases hsep
          | run => cases hsep
          | deep b =>
              exact accepts_deep.mpr ⟨fun _ => hv, v, [], (List.append_nil _).symm, hnil⟩
        · exact absurd ⟨t', ht', hsep⟩ hlater

theorem EndsAt.not_accepts {ts : List (Token α)} {s : List α} (h : EndsAt sep ts s) :
    accepts sep ts s = false := by
  obtain ⟨q, r, rfl, hwild, ⟨t, ht, hsep⟩, -, hfirst⟩ := h
  refine Bool.of_not_eq_true fun haccepts => ?_
  obtain ⟨x, v, rfl, hx, hv⟩ := matches_of_accepts haccepts
  refine hfirst x v rfl ?_ hx
  rintro rfl
  rw [accepts_nil, List.all_eq_true] at hv
  rw [(Token.trailing_iff (hwild t ht)).mp (hv t ht)] at hsep
  cases hsep

/-- What is accepted is the language, less the texts that end where a `deep true` of the
last wildcards would be read. -/
theorem accepts_iff {ts : List (Token α)} {s : List α} :
    accepts sep ts s = true ↔ Matches sep ts s ∧ ¬ EndsAt sep ts s := by
  constructor
  · intro h
    refine ⟨?_, fun hends => ?_⟩
    · obtain ⟨x, v, rfl, hx, hv⟩ := matches_of_accepts (q := ts) (r := [])
        (by rwa [List.append_nil])
      rw [accepts, List.isEmpty_iff] at hv
      rwa [hv, List.append_nil]
    · rw [hends.not_accepts] at h
      cases h
  · rintro ⟨hmatches, hends⟩
    obtain ⟨q, r, rfl, hwild, hq⟩ := split_wild ts
    obtain ⟨x, v, rfl, hx, hv⟩ := matches_append.mp hmatches
    by_cases hdeep : ∃ t ∈ r, t.isSeparated = true
    · by_cases hnil : v = []
      · -- the text goes on behind a shorter beginning
        subst hnil
        rw [List.append_nil] at hends ⊢
        by_contra hnot
        refine hends ⟨q, r, rfl, hwild, hdeep, hx, fun x' v' heq hv' hx' => hnot ?_⟩
        rw [heq]
        exact accepts_of_matches hx' hv' (accepts_separated hwild hdeep hv')
      · exact accepts_of_matches hx hnil (accepts_separated hwild hdeep hnil)
    · have hr : accepts sep r v = true := by
        refine accepts_trailing (fun t ht => ?_) hv
        rw [Token.trailing_iff (hwild t ht)]
        exact Bool.of_not_eq_true fun hsep => hdeep ⟨t, ht, hsep⟩
      rcases hq with rfl | ⟨q', c, rfl⟩
      · cases hx
        exact hr
      · obtain ⟨x', w, rfl, hx', hw⟩ := matches_append.mp hx
        cases hw with
        | char hw =>
            cases hw
            rw [List.append_assoc, List.append_assoc]
            exact accepts_of_matches hx' (List.cons_ne_nil _ _)
              (accepts_char.mpr ⟨v, rfl, hr⟩)

end Reading

end Globs
