/-
# `Limceron.Load.Merging` — each declaration is merged once

A declaration is known by its place: the file and the position in it.  `Merging done t`
says of a target what holds after the places in `done` were gone through: no place is
there twice, and one is missing only if it clashes (`Clash`) with another.
-/
import Limceron.Load.Imports
import Mathlib.Data.List.Basic
import Mathlib.Data.List.Nodup

namespace Limceron.Load

open Parse

variable {fs : Files}

/-! ## Places -/

def declAt (fs : Files) (path : Path) (i : ℕ) : Option Node :=
  match fs.file path with
  | some (.program params) => params[i]?
  | _ => none

def origins (t : Target) : List (Path × ℕ) := t.params.map fun m => (m.file, m.index)

/-- Another declaration of the same kind and name. -/
def Clash (fs : Files) (done : Path → ℕ → Prop) (p : Path) (i : ℕ) : Prop :=
  ∃ q j d e, (q, j) ≠ (p, i) ∧ done q j ∧ declAt fs p i = some d ∧ declAt fs q j = some e ∧
    isDecl e = true ∧ e.kind = d.kind ∧ e.name = d.name ∧ d.name.isSome = true

theorem Clash.mono {done more : Path → ℕ → Prop} (hmore : ∀ q j, done q j → more q j) {p : Path}
    {i : ℕ} (h : Clash fs done p i) : Clash fs more p i := by
  obtain ⟨q, j, d, e, hne, hdone, h⟩ := h
  exact ⟨q, j, d, e, hne, hmore q j hdone, h⟩

structure Merging (fs : Files) (done : Path → ℕ → Prop) (t : Target) : Prop where
  nodup : (origins t).Nodup
  places : ∀ o ∈ origins t, done o.1 o.2
  entries : ∀ e ∈ t.decls, ∃ q j d, done q j ∧ declAt fs q j = some d ∧ isDecl d = true ∧
    d.kind = e.kind ∧ d.name = some e.name
  complete : ∀ p i d, done p i → declAt fs p i = some d → isDecl d = true →
    (p, i) ∈ origins t ∨ Clash fs done p i

theorem Merging.weaken {done more : Path → ℕ → Prop} {t : Target} (h : Merging fs done t)
    (hmore : ∀ q j, done q j → more q j)
    (hnew : ∀ q j, more q j → done q j ∨ declAt fs q j = none) : Merging fs more t where
  nodup := h.nodup
  places := fun o ho => hmore _ _ (h.places o ho)
  entries := by
    intro e he
    obtain ⟨q, j, d, hdone, h⟩ := h.entries e he
    exact ⟨q, j, d, hmore q j hdone, h⟩
  complete := by
    intro p i d hdone hd hdecl
    rcases hnew p i hdone with hdone | hnone
    · rcases h.complete p i d hdone hd hdecl with hmem | hclash
      · exact .inl hmem
      · exact .inr (hclash.mono hmore)
    · rw [hnone] at hd
      cases hd

/-! ## One declaration -/

theorem declSeen_iff {t : DeclTracker} {kind : NodeKind} {name : Option String} :
    declSeen t kind name = true ↔ ∃ e ∈ t, e.kind = kind ∧ name = some e.name := by
  cases name with
  | none => simp [declSeen]
  | some n =>
      simp only [declSeen, List.any_eq_true, decide_eq_true_eq, Option.some.injEq]
      exact exists_congr fun e => and_congr_right fun _ => and_congr_right fun _ => eq_comm

theorem mem_declMarkSeen {t : DeclTracker} {kind : NodeKind} {name : Option String}
    {e : DeclEntry} (h : e ∈ declMarkSeen t kind name) :
    e ∈ t ∨ e.kind = kind ∧ name = some e.name := by
  cases name with
  | none => exact .inl h
  | some n =>
      unfold declMarkSeen at h
      split_ifs at h
      · rcases List.mem_append.1 h with h | h
        · exact .inl h
        · obtain rfl := List.mem_singleton.1 h
          exact .inr ⟨rfl, rfl⟩
      · exact .inl h

/-- The place is one more that was gone through. -/
def Also (done : Path → ℕ → Prop) (p : Path) (i : ℕ) (q : Path) (j : ℕ) : Prop :=
  done q j ∨ (q, j) = (p, i)

theorem Merging.append {done : Path → ℕ → Prop} {t : Target} (h : Merging fs done t) {p : Path}
    {i : ℕ} {d : Node} (hd : declAt fs p i = some d) (hdecl : isDecl d = true)
    (hnew : ¬ done p i) {u : Target} (horigins : origins u = origins t ++ [(p, i)])
    (hdecls : ∀ e ∈ u.decls, e ∈ t.decls ∨ e.kind = d.kind ∧ d.name = some e.name) :
    Merging fs (Also done p i) u where
  nodup := by
    rw [horigins, List.nodup_append]
    refine ⟨h.nodup, List.nodup_singleton _, ?_⟩
    rintro o ho _ hp rfl
    obtain rfl := List.mem_singleton.1 hp
    exact hnew (h.places _ ho)
  places := by
    intro o ho
    rw [horigins] at ho
    rcases List.mem_append.1 ho with ho | ho
    · exact .inl (h.places o ho)
    · exact .inr (List.mem_singleton.1 ho)
  entries := by
    intro e he
    rcases hdecls e he with he | ⟨hkind, hname⟩
    · obtain ⟨q, j, d', hdone, h⟩ := h.entries e he
      exact ⟨q, j, d', .inl hdone, h⟩
    · exact ⟨p, i, d, .inr rfl, hd, hdecl, hkind.symm, hname⟩
  complete := by
    intro q j d' hdone hd' hdecl'
    rw [horigins]
    rcases hdone with hdone | heq
    · rcases h.complete q j d' hdone hd' hdecl' with hmem | hclash
      · exact .inl (List.mem_append_left _ hmem)
      · exact .inr (hclash.mono fun _ _ => .inl)
    · exact .inl (List.mem_append_right _ (heq ▸ List.mem_cons_self))

/-- A declaration that is dropped clashes. -/
theorem Merging.drop {done : Path → ℕ → Prop} {t : Target} (h : Merging fs done t) {p : Path}
    {i : ℕ} {d : Node} (hd : declAt fs p i = some d) (hnew : ¬ done p i)
    (hseen : declSeen t.decls d.kind d.name = true) : Merging fs (Also done p i) t where
  nodup := h.nodup
  places := fun o ho => .inl (h.places o ho)
  entries := by
    intro e he
    obtain ⟨q, j, d', hdone, h⟩ := h.entries e he
    exact ⟨q, j, d', .inl hdone, h⟩
  complete := by
    intro q j d' hdone hd' hdecl'
    rcases hdone with hdone | heq
    · rcases h.complete q j d' hdone hd' hdecl' with hmem | hclash
      · exact .inl hmem
      · exact .inr (hclash.mono fun _ _ => .inl)
    · obtain ⟨rfl, rfl⟩ := Prod.mk.inj heq
      obtain ⟨e, he, hkind, hname⟩ := declSeen_iff.1 hseen
      obtain ⟨q', j', c, hc, hcat, hcdecl, hckind, hcname⟩ := h.entries e he
      refine .inr ⟨q', j', d, c, ?_, .inl hc, hd, hcat, hcdecl, hckind.trans hkind,
        hcname.trans hname.symm, by rw [hname]; rfl⟩
      rintro heq'
      obtain ⟨rfl, rfl⟩ := Prod.mk.inj heq'
      exact hnew hc

theorem Merging.mergeDecl {done : Path → ℕ → Prop} {t : Target} (h : Merging fs done t)
    {p : Path} {i : ℕ} {d : Node} (hd : declAt fs p i = some d) (hnew : ¬ done p i) :
    Merging fs (Also done p i) (Load.mergeDecl p t (d, i)) := by
  unfold Load.mergeDecl
  dsimp only
  split
  · next hdecl =>
      split
      · next hseen =>
          split
          · exact h.append hd hdecl hnew (by simp [origins]) fun e he => .inl he
          · exact h.drop hd hnew hseen
      · exact h.append hd hdecl hnew (by simp [origins]) fun e he => mem_declMarkSeen he
  · next hdecl =>
      constructor
      · exact h.nodup
      · exact fun o ho => .inl (h.places o ho)
      · intro e he
        obtain ⟨q, j, d', hdone, h⟩ := h.entries e he
        exact ⟨q, j, d', .inl hdone, h⟩
      · intro q j d' hdone hd' hdecl'
        rcases hdone with hdone | heq
        · rcases h.complete q j d' hdone hd' hdecl' with hmem | hclash
          · exact .inl hmem
          · exact .inr (hclash.mono fun _ _ => .inl)
        · obtain ⟨rfl, rfl⟩ := Prod.mk.inj heq
          rw [hd] at hd'
          obtain rfl := Option.some.inj hd'
          exact absurd hdecl' hdecl

/-! ## A file -/

/-- The places before `k` of one file are gone through, too. -/
def UpTo (done : Path → ℕ → Prop) (p : Path) (k : ℕ) (q : Path) (j : ℕ) : Prop :=
  done q j ∨ q = p ∧ j < k

theorem Merging.mergeList {done : Path → ℕ → Prop} {p : Path} (hnew : ∀ i, ¬ done p i)
    (params : List Node) {k : ℕ} (hat : ∀ j d, params[j]? = some d → declAt fs p (k + j) = some d)
    {t : Target} (h : Merging fs (UpTo done p k) t) :
    Merging fs (UpTo done p (k + params.length))
      ((params.zipIdx k).foldl (Load.mergeDecl p) t) := by
  induction params generalizing k t with
  | nil => exact h
  | cons d params ih =>
      have hd : declAt fs p k = some d := hat 0 d rfl
      have hfresh : ¬ UpTo done p k p k := by
        rintro (hdone | ⟨-, hlt⟩)
        · exact hnew k hdone
        · exact Nat.lt_irrefl k hlt
      have hstep : Merging fs (UpTo done p (k + 1)) (Load.mergeDecl p t (d, k)) := by
        refine (h.mergeDecl hd hfresh).weaken ?_ ?_
        · rintro q j ((hdone | ⟨rfl, hlt⟩) | heq)
          · exact .inl hdone
          · exact .inr ⟨rfl, Nat.lt_succ_of_lt hlt⟩
          · obtain ⟨rfl, rfl⟩ := Prod.mk.inj heq
            exact .inr ⟨rfl, Nat.lt_succ_self _⟩
        · rintro q j (hdone | ⟨rfl, hlt⟩)
          · exact .inl (.inl (.inl hdone))
          · rcases Nat.lt_succ_iff_lt_or_eq.1 hlt with hlt | rfl
            · exact .inl (.inl (.inr ⟨rfl, hlt⟩))
            · exact .inl (.inr rfl)
      have hrest := ih (k := k + 1) (fun j e he => by
        rw [Nat.add_right_comm]
        exact hat (j + 1) e he) hstep
      rw [List.zipIdx_cons, List.foldl_cons, List.length_cons, Nat.add_comm params.length,
        ← Nat.add_assoc]
      exact hrest

/-- The places of these files are gone through, too. -/
def With (done : Path → ℕ → Prop) (files : List Path) (q : Path) (j : ℕ) : Prop :=
  done q j ∨ q ∈ files

/-- What a file that is finished does to the target. -/
def mergeAt (fs : Files) (t : Target) (path : Path) : Target :=
  match fs.file path with
  | some (.program params) => mergeFile path params t
  | _ => t

theorem Merging.mergeAt {done : Path → ℕ → Prop} {t : Target} (h : Merging fs done t) {p : Path}
    (hnew : ∀ i, ¬ done p i) : Merging fs (With done [p]) (Load.mergeAt fs t p) := by
  have hnone : (∀ params, fs.file p ≠ some (.program params)) → ∀ j, declAt fs p j = none := by
    intro hprogram j
    unfold declAt
    split
    · next params hcontent => exact absurd hcontent (hprogram params)
    · rfl
  unfold Load.mergeAt
  split
  · next params hcontent =>
      have hat : ∀ j, declAt fs p j = params[j]? := by
        intro j
        rw [declAt, hcontent]
      have hstart : Merging fs (UpTo done p 0) t :=
        h.weaken (fun _ _ => .inl) fun q j hdone =>
          .inl (hdone.resolve_right fun hlt => Nat.not_lt_zero j hlt.2)
      have hmerged := hstart.mergeList hnew params (fun j d hd => by
        rw [Nat.zero_add, hat]
        exact hd)
      refine hmerged.weaken ?_ ?_
      · rintro q j (hdone | ⟨rfl, -⟩)
        · exact .inl hdone
        · exact .inr List.mem_cons_self
      · rintro q j (hdone | hq)
        · exact .inl (.inl hdone)
        · obtain rfl := List.mem_singleton.1 hq
          rcases Nat.lt_or_ge j params.length with hlt | hge
          · exact .inl (.inr ⟨rfl, by omega⟩)
          · exact .inr (by rw [hat, List.getElem?_eq_none hge])
  · next hprogram =>
      refine h.weaken (fun _ _ => .inl) ?_
      rintro q j (hdone | hq)
      · exact .inl hdone
      · obtain rfl := List.mem_singleton.1 hq
        exact .inr (hnone (fun params hcontent => hprogram params hcontent) j)

theorem Merging.mergeAll {done : Path → ℕ → Prop} {t : Target} (h : Merging fs done t)
    {files : List Path} (hnodup : files.Nodup) (hnew : ∀ p ∈ files, ∀ i, ¬ done p i) :
    Merging fs (With done files) (files.foldl (Load.mergeAt fs) t) := by
  induction files generalizing done t with
  | nil =>
      exact h.weaken (fun _ _ => .inl) fun q j hdone =>
        .inl (hdone.resolve_right (List.not_mem_nil))
  | cons p files ih =>
      obtain ⟨hp, hnodup⟩ := List.nodup_cons.1 hnodup
      have hstep := ih (h.mergeAt (hnew p List.mem_cons_self)) hnodup (by
        rintro q hq i (hdone | hqp)
        · exact hnew q (List.mem_cons_of_mem _ hq) i hdone
        · exact hp (List.mem_singleton.1 hqp ▸ hq))
      refine hstep.weaken ?_ ?_
      · rintro q j ((hdone | hq) | hq)
        · exact .inl hdone
        · exact .inr (List.mem_singleton.1 hq ▸ List.mem_cons_self)
        · exact .inr (List.mem_cons_of_mem _ hq)
      · rintro q j (hdone | hq)
        · exact .inl (.inl (.inl hdone))
        · rcases List.mem_cons.1 hq with rfl | hq
          · exact .inl (.inl (.inr List.mem_cons_self))
          · exact .inl (.inr hq)

/-! ## The entry file -/

theorem mem_seeds {params : List Node} {t : DeclTracker} {e : DeclEntry}
    (h : e ∈ params.foldl (fun t d => declMarkSeen t d.kind d.name) t) :
    e ∈ t ∨ ∃ d ∈ params, d.kind = e.kind ∧ d.name = some e.name := by
  induction params generalizing t with
  | nil => exact .inl h
  | cons d params ih =>
      rcases ih h with h | ⟨c, hc, hce⟩
      · rcases mem_declMarkSeen h with h | ⟨hkind, hname⟩
        · exact .inl h
        · exact .inr ⟨d, List.mem_cons_self, hkind.symm, hname⟩
      · exact .inr ⟨c, List.mem_cons_of_mem _ hc, hce⟩

theorem origins_start (entry : Path) (params : List Node) :
    origins (Loader.start entry params).target =
      (List.range params.length).map fun i => (entry, i) := by
  rw [List.range_eq_range', ← List.zipIdx_map_snd 0 params, List.map_map]
  simp only [origins, Loader.start, List.map_map]
  rfl

theorem merging_start {entry : Path} {params : List Node}
    (hentry : fs.file entry = some (.program params)) :
    Merging fs (fun q _ => q = entry) (Loader.start entry params).target where
  nodup := by
    rw [origins_start]
    exact List.nodup_range.map fun i j h => (Prod.mk.inj h).2
  places := by
    intro o ho
    rw [origins_start] at ho
    obtain ⟨i, -, rfl⟩ := List.mem_map.1 ho
    rfl
  entries := by
    intro e he
    rcases mem_seeds he with he | ⟨d, hd, hkind, hname⟩
    · cases he
    · obtain ⟨hmem, hdecl⟩ := List.mem_filter.1 hd
      obtain ⟨j, hj⟩ := List.mem_iff_getElem?.1 hmem
      exact ⟨entry, j, d, rfl, by rw [declAt, hentry]; exact hj, hdecl, hkind, hname⟩
  complete := by
    rintro p i d rfl hd hdecl
    rw [declAt, hentry] at hd
    rw [origins_start]
    exact .inl (List.mem_map.2 ⟨i, List.mem_range.2 (List.getElem?_eq_some_iff.1 hd).1, rfl⟩)

end Limceron.Load
