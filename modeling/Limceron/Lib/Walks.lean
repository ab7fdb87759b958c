/-
# `Limceron.Lib.Walks` — recursive searches

A search looks at a node and goes on into some of the nodes below it.  Whatever
those are, it finds something exactly if a walk along them gets to a node where
something is found: `search_iff`.  All that is needed is that the recursion ends.
-/
import Mathlib.Logic.Relation
import Mathlib.Order.RelClasses

namespace Walks

variable {α : Type*}

/-- From one node to another by steps of `next`. -/
def Reaches (next : α → List α) : α → α → Prop :=
  Relation.ReflTransGen fun a b => b ∈ next a

theorem Reaches.refl (next : α → List α) (a : α) : Reaches next a a :=
  Relation.ReflTransGen.refl

theorem Reaches.head {next : α → List α} {a b c : α} (h : b ∈ next a) (hbc : Reaches next b c) :
    Reaches next a c :=
  Relation.ReflTransGen.head h hbc

theorem Reaches.trans {next : α → List α} {a b c : α} (hab : Reaches next a b)
    (hbc : Reaches next b c) : Reaches next a c :=
  Relation.ReflTransGen.trans hab hbc

/-- Where a walk with fewer steps gets to, one with more does. -/
theorem Reaches.mono {next next' : α → List α} (hsub : ∀ a, ∀ b ∈ next a, b ∈ next' a) {a b : α}
    (h : Reaches next a b) : Reaches next' a b :=
  Relation.ReflTransGen.mono (fun a b hb => hsub a b hb) a b h

theorem reaches_iff {next : α → List α} {a c : α} :
    Reaches next a c ↔ a = c ∨ ∃ b ∈ next a, Reaches next b c := by
  constructor
  · intro h
    rcases Relation.ReflTransGen.cases_head h with h | ⟨b, hb, hbc⟩
    · exact .inl h
    · exact .inr ⟨b, hb, hbc⟩
  · rintro (rfl | ⟨b, hb, hbc⟩)
    · exact .refl next a
    · exact hbc.head hb

/-- A recursive search for `found` by `next` finds what there is. -/
theorem search_iff {below : α → α → Prop} (hwf : WellFounded below) {next : α → List α}
    (hnext : ∀ a, ∀ b ∈ next a, below b a) {search found : α → Prop}
    (hsearch : ∀ a, search a ↔ found a ∨ ∃ b ∈ next a, search b) (a : α) :
    search a ↔ ∃ c, Reaches next a c ∧ found c := by
  induction a using hwf.induction with
  | _ a ih =>
      rw [hsearch]
      constructor
      · rintro (h | ⟨b, hb, h⟩)
        · exact ⟨a, .refl next a, h⟩
        · obtain ⟨c, hbc, hc⟩ := (ih b (hnext a b hb)).mp h
          exact ⟨c, hbc.head hb, hc⟩
      · rintro ⟨c, hac, hc⟩
        rcases reaches_iff.mp hac with rfl | ⟨b, hb, hbc⟩
        · exact .inl hc
        · exact .inr ⟨b, hb, (ih b (hnext a b hb)).mpr ⟨c, hbc, hc⟩⟩

/-! ## Reports

A search that reports has found something if its report is not empty. -/

theorem append_ne_nil (as bs : List α) : as ++ bs ≠ [] ↔ as ≠ [] ∨ bs ≠ [] := by
  rw [ne_eq, List.append_eq_nil_iff, not_and_or]

theorem flatMap_ne_nil {β : Type*} (as : List α) (f : α → List β) :
    as.flatMap f ≠ [] ↔ ∃ a ∈ as, f a ≠ [] := by
  simp only [ne_eq, List.flatMap_eq_nil_iff, not_forall, exists_prop]

/-! ## Collecting -/

variable {β : Type*}

/-- Everything a recursive search comes across, in its order. -/
def collect {next : α → List α} (hwf : WellFounded fun b a => b ∈ next a) (found : α → List β)
    (a : α) : List β :=
  found a ++ (next a).attach.flatMap fun b => collect hwf found b.1
termination_by hwf.wrap a
decreasing_by exact b.2

theorem mem_collect {next : α → List α} {hwf : WellFounded fun b a => b ∈ next a}
    {found : α → List β} {a : α} {x : β} :
    x ∈ collect hwf found a ↔ ∃ b, Reaches next a b ∧ x ∈ found b := by
  have hstep : ∀ a, x ∈ collect hwf found a ↔
      x ∈ found a ∨ ∃ b ∈ next a, x ∈ collect hwf found b := by
    intro a
    rw [collect, List.mem_append, List.mem_flatMap]
    refine or_congr_right ⟨?_, ?_⟩
    · rintro ⟨b, -, hb⟩
      exact ⟨b.1, b.2, hb⟩
    · rintro ⟨b, hb, hx⟩
      exact ⟨⟨b, hb⟩, List.mem_attach _ _, hx⟩
  exact search_iff hwf (fun _ _ hb => hb) hstep a

end Walks
