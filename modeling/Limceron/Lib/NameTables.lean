/-
# `Limceron.Lib.NameTables` — tables of different names, up to a limit

An entry goes to the end of the table, unless its name is there or the table is
full.  The names of the table are then those of the first entries, as long as these
have no more different names than the table has room for (`mem_fill_iff`).

The first entry of a name can be changed; no other name sees it (`entry_update`).
-/
import Mathlib.Data.List.Induction
import Mathlib.Data.List.Nodup

namespace NameTables

variable {α β : Type*} [DecidableEq α] (limit : Nat) (name : β → α)

/-- Enter `b`, if there is room and its name is new. -/
def enter (table : List β) (b : β) : List β :=
  if limit ≤ table.length then table
  else if name b ∈ table.map name then table
  else table ++ [b]

/-- Enter the elements of a list in order. -/
def fill (l : List β) : List β := l.foldl (enter limit name) []

theorem fill_concat (l : List β) (b : β) :
    fill limit name (l ++ [b]) = enter limit name (fill limit name l) b := by
  rw [fill, List.foldl_append]
  rfl

theorem le_enter (table : List β) (b : β) : table <+: enter limit name table b := by
  rw [enter]
  split
  · exact List.prefix_refl _
  · split
    · exact List.prefix_refl _
    · exact List.prefix_append _ _

theorem fill_append (l l' : List β) : fill limit name l <+: fill limit name (l ++ l') := by
  induction l' using List.reverseRecOn with
  | nil =>
      simp only [List.append_nil, List.prefix_refl]
  | append_singleton l' b ih =>
      rw [← List.append_assoc, fill_concat]
      exact ih.trans (le_enter _ _ _ _)

/-- What a table has of the elements of a list. -/
structure Filled (l table : List β) : Prop where
  entries : table ⊆ l
  nodup : (table.map name).Nodup
  bounded : table.length ≤ limit
  covers : table.length = limit ∨ ∀ b ∈ l, name b ∈ table.map name

variable {limit name}

theorem Filled.enter {l table : List β} (h : Filled limit name l table) (b : β) :
    Filled limit name (l ++ [b]) (enter limit name table b) := by
  have hentries : table ⊆ l ++ [b] := fun b' hb' => List.mem_append_left _ (h.entries hb')
  rw [NameTables.enter]
  split
  · rename_i hfull
    exact ⟨hentries, h.nodup, h.bounded, .inl (Nat.le_antisymm h.bounded hfull)⟩
  · rename_i hroom
    have hall : ∀ b ∈ l, name b ∈ table.map name := h.covers.resolve_left (by omega)
    split
    · rename_i hmem
      refine ⟨hentries, h.nodup, h.bounded, .inr fun b' hb' => ?_⟩
      rcases List.mem_append.mp hb' with hb' | hb'
      · exact hall b' hb'
      · obtain rfl := List.mem_singleton.mp hb'
        exact hmem
    · rename_i hnew
      refine ⟨?_, ?_, ?_, .inr fun b' hb' => ?_⟩
      · intro b' hb'
        rcases List.mem_append.mp hb' with hb' | hb'
        · exact hentries hb'
        · exact List.mem_append_right _ hb'
      · rw [List.map_append, List.nodup_append]
        refine ⟨h.nodup, List.pairwise_singleton _ _, ?_⟩
        rintro a ha a' ha' rfl
        rw [List.map_cons, List.map_nil, List.mem_singleton] at ha'
        exact hnew (ha' ▸ ha)
      · rw [List.length_append, List.length_singleton]
        omega
      · rw [List.map_append]
        rcases List.mem_append.mp hb' with hb' | hb'
        · exact List.mem_append_left _ (hall b' hb')
        · exact List.mem_append_right _ (List.mem_map_of_mem hb')

variable (limit name)

theorem filled (l : List β) : Filled limit name l (fill limit name l) := by
  induction l using List.reverseRecOn with
  | nil =>
      refine ⟨List.Subset.refl _, List.nodup_nil, Nat.zero_le _, .inr fun b hb => ?_⟩
      cases hb
  | append_singleton l b ih =>
      rw [fill_concat]
      exact ih.enter b

/-- The table has the names of the first elements, as long as they are not too many. -/
theorem mem_fill_iff (l : List β) (a : α) : a ∈ (fill limit name l).map name ↔
    ∃ first, first <+: l ∧ a ∈ first.map name ∧
      ∃ names : List α, names.length ≤ limit ∧ ∀ b ∈ first, name b ∈ names := by
  constructor
  · intro ha
    induction l using List.reverseRecOn with
    | nil => cases ha
    | append_singleton l b ih =>
        by_cases hold : a ∈ (fill limit name l).map name
        · obtain ⟨first, hfirst, h⟩ := ih hold
          exact ⟨first, hfirst.trans (List.prefix_append l [b]), h⟩
        · -- a new name: there was room, so the table has all names until now
          have hfilled : Filled limit name (l ++ [b]) (fill limit name (l ++ [b])) := filled _ _ _
          have hlength := hfilled.bounded
          refine ⟨l ++ [b], List.prefix_refl _, ?_, (fill limit name (l ++ [b])).map name, ?_, ?_⟩
          · obtain ⟨b', hb', rfl⟩ := List.mem_map.mp ha
            exact List.mem_map_of_mem (hfilled.entries hb')
          · rwa [List.length_map]
          · rw [fill_concat, NameTables.enter] at ha ⊢
            split at ha
            · exact absurd ha hold
            · rename_i hroom
              have hnotfull : (fill limit name l).length ≠ limit := by omega
              have hall := (filled limit name l).covers.resolve_left hnotfull
              split at ha
              · exact absurd ha hold
              · rename_i hnew
                intro b' hb'
                rw [if_neg hroom, if_neg hnew, List.map_append]
                rcases List.mem_append.mp hb' with hb' | hb'
                · exact List.mem_append_left _ (hall b' hb')
                · exact List.mem_append_right _ (List.mem_map_of_mem hb')
  · rintro ⟨first, ⟨rest, rfl⟩, ha, names, hlength, hnames⟩
    refine ((fill_append limit name first rest).map name).subset ?_
    by_contra hmissing
    have hfilled : Filled limit name first (fill limit name first) := filled _ _ _
    rcases hfilled.covers with hfull | hall
    · -- the names of the table and the missing one are too many
      have hsub : a :: (fill limit name first).map name ⊆ names := by
        intro a' ha'
        have hmem : a' ∈ first.map name := by
          rcases List.mem_cons.mp ha' with rfl | ha'
          · exact ha
          · obtain ⟨b, hb, rfl⟩ := List.mem_map.mp ha'
            exact List.mem_map_of_mem (hfilled.entries hb)
        obtain ⟨b, hb, rfl⟩ := List.mem_map.mp hmem
        exact hnames b hb
      have hle := (List.nodup_cons.mpr ⟨hmissing, hfilled.nodup⟩).length_le_of_subset hsub
      rw [List.length_cons, List.length_map] at hle
      omega
    · obtain ⟨b, hb, rfl⟩ := List.mem_map.mp ha
      exact hmissing (hall b hb)

/-! ## The entry of a name -/

section Entry

variable {α β : Type*} [DecidableEq α] (name : β → α)

/-- The first entry of a name. -/
def entry (table : List β) (a : α) : Option β := table.find? fun b => name b = a

/-- The first entry of a name changed. -/
def update (a : α) (f : β → β) : List β → List β
  | [] => []
  | b :: table => if name b = a then f b :: table else b :: update a f table

variable {name}

theorem entry_cons (b : β) (table : List β) (a : α) :
    entry name (b :: table) a = if name b = a then some b else entry name table a := by
  rw [entry, List.find?_cons]
  by_cases h : name b = a
  · rw [if_pos h, decide_eq_true h]
  · rw [if_neg h, decide_eq_false h]
    rfl

theorem entry_name {table : List β} {a : α} {b : β} (h : entry name table a = some b) :
    name b = a := by
  simpa using List.find?_some h

theorem entry_eq_none_iff {table : List β} {a : α} :
    entry name table a = none ↔ a ∉ table.map name := by
  rw [entry, List.find?_eq_none, List.mem_map]
  refine ⟨?_, ?_⟩
  · rintro h ⟨b, hb, rfl⟩
    exact absurd (decide_eq_true rfl) (h b hb)
  · intro h b hb hname
    exact h ⟨b, hb, of_decide_eq_true hname⟩

theorem entry_mem {table : List β} {a : α} {b : β} (h : entry name table a = some b) :
    b ∈ table := List.mem_of_find?_eq_some h

theorem entry_of_mem {table : List β} {b : β} (hnodup : (table.map name).Nodup)
    (h : b ∈ table) : entry name table (name b) = some b := by
  induction table with
  | nil => cases h
  | cons c table ih =>
      obtain ⟨hc, hnodup⟩ := List.nodup_cons.1 hnodup
      rw [entry_cons]
      rcases List.mem_cons.1 h with rfl | hmem
      · rw [if_pos rfl]
      · have hne : name c ≠ name b := fun heq => hc (heq ▸ List.mem_map_of_mem hmem)
        rw [if_neg hne]
        exact ih hnodup hmem

theorem entry_concat (table : List β) (b : β) (a : α) :
    entry name (table ++ [b]) a =
      (entry name table a).or (if name b = a then some b else none) := by
  rw [entry, List.find?_append]
  refine congrArg _ ?_
  exact entry_cons b [] a

variable {f : β → β}

/-- The change keeps the names. -/
theorem map_update (hf : ∀ b, name (f b) = name b) (a : α) (table : List β) :
    (update name a f table).map name = table.map name := by
  induction table with
  | nil => rfl
  | cons b table ih =>
      rw [update]
      split_ifs
      · rw [List.map_cons, List.map_cons, hf]
      · rw [List.map_cons, List.map_cons, ih]

theorem entry_update (hf : ∀ b, name (f b) = name b) (a a' : α) (table : List β) :
    entry name (update name a f table) a' =
      if a = a' then (entry name table a').map f else entry name table a' := by
  induction table with
  | nil =>
      split_ifs
      · rfl
      · rfl
  | cons b table ih =>
      rw [update]
      by_cases hb : name b = a
      · rw [if_pos hb, entry_cons, entry_cons, hf]
        by_cases ha : a = a'
        · rw [if_pos ha, if_pos (hb.trans ha), if_pos (hb.trans ha)]
          rfl
        · have hne : name b ≠ a' := fun h => ha (hb.symm.trans h)
          rw [if_neg ha, if_neg hne, if_neg hne]
      · rw [if_neg hb, entry_cons, entry_cons, ih]
        by_cases ha : a = a'
        · have hne : name b ≠ a' := fun h => hb (h.trans ha.symm)
          rw [if_neg hne, if_neg hne]
        · rw [if_neg ha, if_neg ha]

end Entry

end NameTables
