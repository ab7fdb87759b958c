/-
# `Limceron.Lib.Systems` — what holds along the runs of a system

A system is a step relation with labels.  `Reached` are the states that are
reached by steps that all meet a condition `ok` on the state before the step
and its label; with no condition they are all reachable states.  What holds at
the start and is kept by each such step holds in all of them
(`Reached.invariant`).

If every step has one outcome, a run is the fold of the labels.  There a
condition can be exact: `always_iff` says when a property holds after every
prefix of a run, from what one step does to an invariant that implies it.
-/
import Mathlib.Data.List.Infix

namespace Systems

/-! ## Relations -/

section
variable {σ ι : Type*}

/-- The states that steps lead to which all meet `ok`. -/
inductive Reached (init : σ → Prop) (step : σ → ι → σ → Prop) (ok : σ → ι → Prop) : σ → Prop where
  | start {s : σ} : init s → Reached init step ok s
  | next {s t : σ} {i : ι} : Reached init step ok s → ok s i → step s i t → Reached init step ok t

variable {init : σ → Prop} {step : σ → ι → σ → Prop} {ok : σ → ι → Prop} {I : σ → Prop} {s : σ}

/-- A run that begins where another ends. -/
theorem Reached.trans {t : σ} (hs : Reached init step ok s) (ht : Reached (· = s) step ok t) :
    Reached init step ok t := by
  induction ht with
  | start h => exact h ▸ hs
  | next _ hok hstep ih => exact .next ih hok hstep

/-- What is kept by each step that meets the condition. -/
def Kept (step : σ → ι → σ → Prop) (ok : σ → ι → Prop) (I : σ → Prop) : Prop :=
  ∀ s i t, I s → ok s i → step s i t → I t

theorem Reached.invariant (h : Reached init step ok s) (hstart : ∀ s, init s → I s)
    (hkept : Kept step ok I) : I s := by
  induction h with
  | start h => exact hstart _ h
  | next _ hok hstep ih => exact hkept _ _ _ ih hok hstep

theorem Reached.mono {ok' : σ → ι → Prop} (h : Reached init step ok s)
    (hok : ∀ s i, ok s i → ok' s i) : Reached init step ok' s := by
  induction h with
  | start h => exact .start h
  | next _ hi hstep ih => exact .next ih (hok _ _ hi) hstep

end

/-! ## Functions -/

section
variable {σ ι : Type*} (step : σ → ι → σ)

/-- After every prefix of the run the state has the property. -/
def Always (P : σ → Prop) (s : σ) (is : List ι) : Prop :=
  ∀ before, before <+: is → P (before.foldl step s)

/-- Each step of the run meets the condition, in the state that it is taken in. -/
def EachMeets (ok : σ → ι → Prop) (s : σ) (is : List ι) : Prop :=
  ∀ before i, before ++ [i] <+: is → ok (before.foldl step s) i

variable {step} {P I : σ → Prop} {ok : σ → ι → Prop} {s : σ} {i : ι} {is : List ι}

theorem always_nil : Always step P s [] ↔ P s := by
  constructor
  · intro h
    exact h [] (List.prefix_refl [])
  · rintro h before hb
    rw [List.prefix_nil.1 hb]
    exact h

theorem always_cons : Always step P s (i :: is) ↔ P s ∧ Always step P (step s i) is := by
  constructor
  · intro h
    refine ⟨h [] List.nil_prefix, ?_⟩
    intro before hb
    exact h (i :: before) ((List.prefix_cons_inj i).2 hb)
  · rintro ⟨hs, h⟩ before hb
    cases before with
    | nil => exact hs
    | cons j before =>
        obtain ⟨rfl, hrest⟩ := List.cons_prefix_cons.1 hb
        exact h before hrest

theorem eachMeets_nil : EachMeets step ok s [] := by
  intro before i hb
  have hlength := hb.length_le
  simp at hlength

theorem eachMeets_cons :
    EachMeets step ok s (i :: is) ↔ ok s i ∧ EachMeets step ok (step s i) is := by
  constructor
  · intro h
    refine ⟨h [] i ((List.prefix_cons_inj i).2 List.nil_prefix), ?_⟩
    intro before j hb
    exact h (i :: before) j ((List.prefix_cons_inj i).2 hb)
  · rintro ⟨hi, h⟩ before j hb
    cases before with
    | nil =>
        obtain ⟨rfl, -⟩ := List.cons_prefix_cons.1 hb
        exact hi
    | cons k before =>
        obtain ⟨rfl, hrest⟩ := List.cons_prefix_cons.1 hb
        exact h before j hrest

/-- The steps meet a condition, if and only if the property holds throughout: while an invariant
holds that implies the property, a step that meets the condition keeps it, and one that does
not breaks the property. -/
theorem always_iff (hP : ∀ s, I s → P s) (hkept : ∀ s, ∀ i ∈ is, I s → ok s i → I (step s i))
    (hbroken : ∀ s, ∀ i ∈ is, I s → ¬ ok s i → ¬ P (step s i)) (hs : I s) :
    Always step P s is ↔ EachMeets step ok s is := by
  induction is generalizing s with
  | nil =>
      exact iff_of_true (always_nil.2 (hP s hs)) eachMeets_nil
  | cons i is ih =>
      have ih' : I (step s i) → (Always step P (step s i) is ↔ EachMeets step ok (step s i) is) :=
        ih (fun s j hj => hkept s j (List.mem_cons_of_mem i hj))
          (fun s j hj => hbroken s j (List.mem_cons_of_mem i hj))
      have hi : i ∈ i :: is := List.mem_cons_self
      rw [always_cons, eachMeets_cons]
      constructor
      · rintro ⟨-, h⟩
        have hok : ok s i := by
          by_contra hok
          exact hbroken s i hi hs hok (h [] List.nil_prefix)
        exact ⟨hok, (ih' (hkept s i hi hs hok)).1 h⟩
      · rintro ⟨hok, h⟩
        exact ⟨hP s hs, (ih' (hkept s i hi hs hok)).2 h⟩

/-- Conditions that are the same under an invariant are met by the same runs. -/
theorem eachMeets_congr {ok' : σ → ι → Prop} (hkept : ∀ s i, I s → I (step s i))
    (hok : ∀ s i, I s → (ok s i ↔ ok' s i)) (hs : I s) :
    EachMeets step ok s is ↔ EachMeets step ok' s is := by
  induction is generalizing s with
  | nil => exact iff_of_true eachMeets_nil eachMeets_nil
  | cons i is ih => rw [eachMeets_cons, eachMeets_cons, hok s i hs, ih (hkept s i hs)]

end

end Systems
