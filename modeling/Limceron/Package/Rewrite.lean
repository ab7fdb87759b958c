/-
# `Limceron.Package.Rewrite` — a manifest that is read, changed and written

`src/package.c`.  The package that is read has keys for the names of its dependencies, and
`add` and `remove` keep it so.  It comes back when it is written as long as each of its
dependencies has nothing but what its kind has, and no string has anything to escape:

| what is lost | where it comes from |
| :-- | :-- |
| a version | the kind is changed to a path or a git repository, or both are given |
| a path, a URL, a revision | the kind is changed to another one |
| a name | it has more bytes than there is room for, and two become one |

`Change.Fits` says of a change that none of this happens.
-/
import Limceron.Lib.Systems
import Limceron.Package.Lock
import Limceron.Package.Reread

namespace Limceron.Package

open Caps (CString)

/-! ## What is read has keys for names -/

/-- The dependencies have keys for names. -/
def Keys (deps : List LcnDependency) : Prop := ∀ dep ∈ deps, IsBare dep.name.text

theorem LcnDependency.assign_name (dep : LcnDependency) (key val : CString) :
    (dep.assign key val).name = dep.name := by
  rw [assign]
  split
  · rfl
  · split
    · rfl
    · split
      · rfl
      · split
        · rfl
        · rfl

theorem inlineTurn_name {dep dep' : LcnDependency} {s t : CString}
    (h : inlineTurn dep s = .inr (dep', t)) : dep'.name = dep.name := by
  rw [inlineTurn, inlineEntry] at h
  split at h
  · cases h
  · split at h
    · cases h
    · rename_i key u hkey
      rw [inlineValue] at h
      split at h
      · split at h
        · cases h
        · cases h
          exact dep.assign_name _ _
      · cases h

theorem inlineLoop_name (dep : LcnDependency) (s : CString) :
    (inlineLoop dep s).1.name = dep.name := by
  induction dep, s using inlineLoop.induct with
  | case1 dep s h => rw [inlineLoop_done h]
  | case2 dep s h t hturn => rw [inlineLoop_breaks h hturn]
  | case3 dep s h dep' t hturn ih =>
      rw [inlineLoop_goesOn h hturn, ih]
      exact inlineTurn_name hturn

theorem depValue_name (dep : LcnDependency) (s : CString) :
    (depValue dep s).1.name = dep.name := by
  rw [depValue]
  split
  · rfl
  · split
    · exact inlineLoop_name _ _
    · rfl

theorem LcnPackage.assign_deps (pkg : LcnPackage) (key val : CString) :
    (pkg.assign key val).deps = pkg.deps := by
  rw [assign]
  split
  · rfl
  · split
    · rfl
    · split
      · rfl
      · rfl

theorem Keys.push {pkg : LcnPackage} (h : Keys pkg.deps) {dep : LcnDependency}
    (hdep : IsBare dep.name.text) : Keys (pkg.push dep).deps := by
  rw [LcnPackage.push]
  split
  · intro d hd
    rcases List.mem_append.1 hd with hd | hd
    · exact h d hd
    · rw [List.mem_singleton.1 hd]
      exact hdep
  · exact h

/-- A key is the name of the dependency it stands for. -/
theorem depValue_bare {key : CString} (hkey : IsBare key) (hroom : key.length ≤ nameRoom)
    (isDev : Bool) (s : CString) :
    IsBare (depValue { blankDep key with isDev := isDev } s).1.name.text := by
  rw [depValue_name]
  show IsBare (key.take nameRoom)
  rw [List.take_of_length_le hroom]
  exact hkey

theorem Reading.value_keys {r : Reading} (h : Keys r.pkg.deps) {key : CString} (hkey : IsBare key)
    (hroom : key.length ≤ nameRoom) (s : CString) : Keys (r.value key s).1.pkg.deps := by
  rw [value]
  split
  · show Keys (r.pkg.assign _ _).deps
    rw [LcnPackage.assign_deps]
    exact h
  · split
    · exact h
    · exact h.push (depValue_bare hkey hroom _ s)
  · split
    · exact h
    · exact h.push (depValue_bare hkey hroom _ s)
  · exact h
  · exact h

theorem Reading.turn_keys {r : Reading} (h : Keys r.pkg.deps) (s : CString) :
    Keys (r.turn s).1.pkg.deps := by
  rcases s with _ | ⟨c, s⟩
  · exact h
  · rw [turn]
    split
    · exact h
    · split
      · exact h
      · split
        · rw [header]
          split
          · exact h
          · exact h
        · rw [keyLine]
          split
          · exact h
          · rename_i key t hkey
            obtain ⟨hne, hchars, hroom, -⟩ := parseBareKey_eq_some hkey
            rw [set]
            split
            · exact value_keys h ⟨hne, hchars⟩ hroom _
            · exact h

theorem Reading.loop_keys {r : Reading} (h : Keys r.pkg.deps) (s : CString) :
    Keys (r.loop s).pkg.deps := by
  induction r, s using Reading.loop.induct with
  | case1 r s hs =>
      rw [loop, dif_pos hs]
      exact h
  | case2 r s hs ih =>
      rw [loop, dif_neg hs]
      exact ih (turn_keys h _)

theorem lcnPackageParse_keyed {toml : CString} {pkg : LcnPackage}
    (h : lcnPackageParse toml = some pkg) : pkg.Keyed := by
  rw [lcnPackageParse] at h
  split at h
  · cases h
  · rename_i hname
    cases h
    have hblank : Keys blankPackage.deps := List.forall_mem_nil _
    exact ⟨hname, Reading.loop_keys (r := ⟨.none, blankPackage⟩) hblank toml⟩

/-! ## Changes -/

inductive Change where
  | add (name : CString) (version : Option CString) (kind : LcnDepKind)
      (pathOrUrl : Option CString) (isDev : Bool)
  | remove (name : CString)

/-- The package behind a change. -/
def Change.apply (pkg : LcnPackage) : Change → LcnPackage
  | add name version kind pathOrUrl isDev =>
      (lcnPackageAddDep pkg name version kind pathOrUrl isDev).2
  | remove name => (lcnPackageRemoveDep pkg name).2

/-- The dependency that a change is made to: the first one of the name, or a new one. -/
def LcnPackage.current (pkg : LcnPackage) (name : CString) : LcnDependency :=
  (pkg.deps.find? (·.name.text = name)).getD (blankDep name)

/-- There is nothing that another kind has: no version where it is not written, and none of the
fields of the other kinds. -/
def LcnDependency.Alone (dep : LcnDependency) (version : Option CString) : LcnDepKind → Prop
  | .registry => dep.path.text = [] ∧ dep.gitUrl.text = [] ∧ dep.gitRev.text = []
  | .path => version.getD dep.version.text = [] ∧ dep.gitUrl.text = [] ∧ dep.gitRev.text = []
  | .git => version.getD dep.version.text = [] ∧ dep.path.text = []

/-- The change leaves nothing that does not come back. -/
def Change.Fits (pkg : LcnPackage) : Change → Prop
  | add name version kind pathOrUrl _ =>
      maxDeps ≤ pkg.deps.length ∨
        (IsBare name ∧ name.length ≤ nameRoom ∧ (∀ v ∈ version, Plain (v.take versionRoom)) ∧
          (∀ u ∈ pathOrUrl, Plain (u.take pathRoom)) ∧ (pkg.current name).Alone version kind)
  | remove _ => True

theorem current_sound {pkg : LcnPackage} (h : pkg.Sound) (name : CString) :
    (pkg.current name).Sound := by
  rw [LcnPackage.current]
  cases hfind : pkg.deps.find? (·.name.text = name) with
  | none => exact ⟨Plain.nil, Plain.nil, Plain.nil, Plain.nil, rfl⟩
  | some dep => exact h.deps dep (List.mem_of_find?_eq_some hfind)

theorem plain_elim {room : ℕ} {old : Field room} (hold : Plain old.text) {new : Option CString}
    (hnew : ∀ v ∈ new, Plain (v.take room)) : Plain (new.elim old (.copy _)).text := by
  cases new with
  | none => exact hold
  | some v => exact hnew v rfl

theorem elim_blank {room : ℕ} {old : Field room} {new : Option CString}
    (h : new.getD old.text = []) : new.elim old (.copy _) = .blank room := by
  cases new with
  | none => exact Field.eq_blank h
  | some v =>
      cases (show v = [] from h)
      exact Field.eq_blank List.take_nil

/-- A dependency that comes back still does when it is set. -/
theorem set_sound {dep : LcnDependency} (h : dep.Sound) {version pathOrUrl : Option CString}
    {kind : LcnDepKind} (hversion : ∀ v ∈ version, Plain (v.take versionRoom))
    (hpath : ∀ u ∈ pathOrUrl, Plain (u.take pathRoom)) (halone : dep.Alone version kind)
    (isDev : Bool) : (dep.set version kind pathOrUrl isDev).Sound := by
  refine ⟨plain_elim h.version hversion, ?_, ?_, h.gitRev, ?_⟩
  · show Plain (ite _ _ _ : Field pathRoom).text
    split
    · exact plain_elim h.path hpath
    · exact h.path
  · show Plain (ite _ _ _ : Field pathRoom).text
    split
    · exact plain_elim h.gitUrl hpath
    · exact h.gitUrl
  · cases kind with
    | registry =>
        obtain ⟨hp, hu, hr⟩ := halone
        simp [LcnDependency.set, LcnDependency.written, Field.eq_blank hp, Field.eq_blank hu,
          Field.eq_blank hr]
    | path =>
        obtain ⟨hv, hu, hr⟩ := halone
        simp [LcnDependency.set, LcnDependency.written, elim_blank hv, Field.eq_blank hu,
          Field.eq_blank hr]
    | git =>
        obtain ⟨hv, hp⟩ := halone
        simp [LcnDependency.set, LcnDependency.written, elim_blank hv, Field.eq_blank hp]

theorem mem_changeFirst {name : CString} {f : LcnDependency → LcnDependency}
    {deps : List LcnDependency} {dep : LcnDependency} (h : dep ∈ changeFirst name f deps) :
    dep ∈ deps ∨ ∃ old, deps.find? (·.name.text = name) = some old ∧ dep = f old := by
  induction deps with
  | nil => cases h
  | cons d deps ih =>
      rw [changeFirst] at h
      split at h
      · rename_i hname
        rcases List.mem_cons.1 h with rfl | h
        · exact .inr ⟨d, List.find?_cons_of_pos (decide_eq_true hname), rfl⟩
        · exact .inl (List.mem_cons_of_mem d h)
      · rename_i hname
        rcases List.mem_cons.1 h with rfl | h
        · exact .inl List.mem_cons_self
        · rcases ih h with h | ⟨old, hold, rfl⟩
          · exact .inl (List.mem_cons_of_mem d h)
          · refine .inr ⟨old, ?_, rfl⟩
            rw [List.find?_cons_of_neg (by simpa using hname)]
            exact hold

theorem map_name_changeFirst {f : LcnDependency → LcnDependency}
    (hf : ∀ dep, (f dep).name = dep.name) (name : CString) (deps : List LcnDependency) :
    (changeFirst name f deps).map (·.name.text) = deps.map (·.name.text) := by
  induction deps with
  | nil => rfl
  | cons dep deps ih =>
      rw [changeFirst]
      split
      · rw [List.map_cons, List.map_cons, hf]
      · rw [List.map_cons, List.map_cons, ih]

/-- What holds of a package that comes back. -/
def LcnPackage.Kept (pkg : LcnPackage) : Prop := pkg.Keyed ∧ pkg.Sound

/-- Other dependencies, in the same package. -/
theorem LcnPackage.Kept.with_deps {pkg new : LcnPackage} (h : pkg.Kept)
    (hname : new.name = pkg.name) (hversion : new.version = pkg.version)
    (hdescription : new.description = pkg.description)
    (hdeps : ∀ dep ∈ new.deps, IsBare dep.name.text ∧ dep.Sound)
    (hdistinct : (new.deps.map (·.name.text)).Nodup) : new.Kept := by
  obtain ⟨hkeyed, hsound⟩ := h
  constructor
  · exact ⟨hname ▸ hkeyed.named, fun dep hdep => (hdeps dep hdep).1⟩
  · exact ⟨hname ▸ hsound.name, hversion ▸ hsound.version, hdescription ▸ hsound.description,
      fun dep hdep => (hdeps dep hdep).2, hdistinct⟩

theorem LcnPackage.Kept.dep {pkg : LcnPackage} (h : pkg.Kept) {dep : LcnDependency}
    (hdep : dep ∈ pkg.deps) : IsBare dep.name.text ∧ dep.Sound :=
  ⟨h.1.bare dep hdep, h.2.deps dep hdep⟩

theorem add_kept {pkg : LcnPackage} (h : pkg.Kept) {name : CString}
    {version pathOrUrl : Option CString} {kind : LcnDepKind} {isDev : Bool} (hbare : IsBare name)
    (hroom : name.length ≤ nameRoom)
    (hset : ((pkg.current name).set version kind pathOrUrl isDev).Sound) :
    (lcnPackageAddDep pkg name version kind pathOrUrl isDev).2.Kept := by
  rw [lcnPackageAddDep]
  split
  · exact h
  · rename_i hfull
    split
    · refine h.with_deps rfl rfl rfl ?_ ?_
      · intro dep hdep
        rcases mem_changeFirst hdep with hdep | ⟨old, hold, rfl⟩
        · exact h.dep hdep
        · have hcurrent : pkg.current name = old := by
            rw [LcnPackage.current, hold]
            rfl
          rw [hcurrent] at hset
          exact ⟨(h.dep (List.mem_of_find?_eq_some hold)).1, hset⟩
      · show ((changeFirst _ _ _).map _).Nodup
        rw [map_name_changeFirst fun dep => (rfl : (dep.set _ _ _ _).name = dep.name)]
        exact h.2.distinct
    · rename_i hnew
      have hcurrent : pkg.current name = blankDep name := by
        have hnone : pkg.deps.find? (·.name.text = name) = none :=
          List.find?_eq_none.2 fun dep hdep hname => hnew ⟨dep, hdep, of_decide_eq_true hname⟩
        rw [LcnPackage.current, hnone]
        rfl
      rw [hcurrent] at hset
      have hname : ((blankDep name).set version kind pathOrUrl isDev).name.text = name :=
        List.take_of_length_le hroom
      have hpush := LcnPackage.push_extends (Nat.lt_of_not_le hfull)
        ((blankDep name).set version kind pathOrUrl isDev)
      refine h.with_deps hpush.name hpush.version hpush.description ?_ ?_
      · intro dep hdep
        rw [hpush.deps] at hdep
        rcases List.mem_append.1 hdep with hdep | hdep
        · exact h.dep hdep
        · rw [List.mem_singleton.1 hdep, hname]
          exact ⟨hbare, hset⟩
      · rw [hpush.deps, List.map_append, List.map_singleton, hname]
        refine List.nodup_append.2 ⟨h.2.distinct, List.pairwise_singleton _ _, ?_⟩
        rintro a ha b hb rfl
        obtain ⟨dep, hdep, hdepName⟩ := List.mem_map.1 ha
        exact hnew ⟨dep, hdep, hdepName.trans (List.mem_singleton.1 hb)⟩

theorem remove_kept {pkg : LcnPackage} (h : pkg.Kept) (name : CString) :
    (lcnPackageRemoveDep pkg name).2.Kept := by
  rw [lcnPackageRemoveDep]
  split
  · have hsub : (pkg.deps.eraseP fun dep => dep.name.text = name).Sublist pkg.deps :=
      List.eraseP_sublist
    refine h.with_deps rfl rfl rfl ?_ ?_
    · intro dep hdep
      exact h.dep (hsub.subset hdep)
    · exact (hsub.map _).nodup h.2.distinct
  · exact h

/-- What a change that fits keeps. -/
theorem Change.apply_kept {pkg : LcnPackage} (h : pkg.Kept) {change : Change}
    (hfits : change.Fits pkg) : (change.apply pkg).Kept := by
  cases change with
  | remove name => exact remove_kept h name
  | add name version kind pathOrUrl isDev =>
      rcases hfits with hfull | ⟨hbare, hroom, hversion, hpath, halone⟩
      · show (lcnPackageAddDep pkg name version kind pathOrUrl isDev).2.Kept
        rw [lcnPackageAddDep, if_pos hfull]
        exact h
      · exact add_kept h hbare hroom
          (set_sound (current_sound h.2 name) hversion hpath halone isDev)

/-! ## Manifests and lock files -/

/-- A package is read that comes back. -/
def Starts (pkg : LcnPackage) : Prop := (∃ toml, lcnPackageParse toml = some pkg) ∧ pkg.Sound

/-- The packages that changes lead to which all fit. -/
def Reached : LcnPackage → Prop :=
  Systems.Reached Starts (fun pkg change new => new = Change.apply pkg change) Change.Fits

theorem Reached.kept {pkg : LcnPackage} (h : Reached pkg) : pkg.Kept := by
  refine Systems.Reached.invariant h ?_ ?_
  · rintro pkg ⟨⟨toml, hparse⟩, hsound⟩
    exact ⟨lcnPackageParse_keyed hparse, hsound⟩
  · rintro pkg change new hkept hfits rfl
    exact change.apply_kept hkept hfits

/-- A manifest comes back behind any changes that fit, and a lock file if no name in it looks
like a comment and there are no paths. -/
theorem manifest_and_lock_come_back {pkg : LcnPackage} (h : Reached pkg) {l : LcnLockFile}
    (hl : ∀ e ∈ l.entries, e.SpaceFree) :
    ((pkg.deps.map (·.name.text)).Nodup ∧
      lcnPackageParse (lcnPackageSerialize pkg) = some pkg.ordered ∧
      pkg.ordered.deps.Perm pkg.deps) ∧
    (lcnLockParse (lcnLockSerialize l) = l ↔
      ∀ e ∈ l.entries, e.hidden = false ∧ e.path.text = []) := by
  obtain ⟨hkeyed, hsound⟩ := h.kept
  exact ⟨⟨hsound.distinct, parse_serialize hkeyed hsound, perm_ordered pkg.deps⟩,
    lcnLockParse_serialize_iff hl⟩

/-- A package with one dependency. -/
def oneDep (dep : LcnDependency) : LcnPackage where
  name := .copy _ "demo".toList
  version := .copy _ "0.1.0".toList
  description := .blank _
  deps := [dep]
  room := Nat.succ_le_succ (Nat.zero_le 63)

theorem oneDep_kept {dep : LcnDependency} (hbare : IsBare dep.name.text) (h : dep.Sound) :
    (oneDep dep).Kept := by
  have hdep : ∀ d ∈ [dep], IsBare d.name.text ∧ d.Sound := by
    intro d hd
    rw [List.mem_singleton.1 hd]
    exact ⟨hbare, h⟩
  have hname : Plain "demo".toList := by decide
  have hversion : Plain "0.1.0".toList := by decide
  constructor
  · exact ⟨List.cons_ne_nil _ _, fun d hd => (hdep d hd).1⟩
  · exact ⟨hname, hversion, Plain.nil, fun d hd => (hdep d hd).2, List.pairwise_singleton _ _⟩

def demo : LcnPackage := oneDep { blankDep "foo".toList with version := .copy _ "1.0".toList }

theorem demo_kept : demo.Kept :=
  oneDep_kept (by decide) ⟨by decide, by decide, by decide, by decide, rfl⟩

theorem demo_starts : Starts demo := by
  refine ⟨⟨lcnPackageSerialize demo, ?_⟩, demo_kept.2⟩
  rw [parse_serialize demo_kept.1 demo_kept.2]
  rfl

/-- An entry of a lock file. -/
def demoEntry : LcnResolvedDep where
  name := .copy _ "foo".toList
  resolvedVersion := .copy _ "1.0".toList
  path := .blank _
  hash := .copy _ "none".toList

/-- Another dependency comes and goes. -/
theorem demo_comes_back :
    lcnPackageParse (lcnPackageSerialize
        (Change.apply demo (.add "bar".toList (some "*".toList) .registry none true))) =
      some (Change.apply demo
        (.add "bar".toList (some "*".toList) .registry none true)).ordered ∧
    lcnLockParse (lcnLockSerialize ⟨[demoEntry], by decide⟩) = ⟨[demoEntry], by decide⟩ := by
  have hfits : Change.Fits demo (.add "bar".toList (some "*".toList) .registry none true) := by
    refine .inr ⟨by decide, by decide, ?_, ?_, by decide, by decide, by decide⟩
    · intro v hv
      cases hv
      decide
    · intro u hu
      cases hu
  have hreached : Reached (Change.apply demo
      (.add "bar".toList (some "*".toList) .registry none true)) :=
    .next (.start demo_starts) hfits rfl
  have hfree : ∀ e ∈ [demoEntry], e.SpaceFree := by
    intro e he
    rw [List.mem_singleton.1 he]
    exact ⟨by decide, by decide, by decide⟩
  obtain ⟨⟨-, hparse, -⟩, hlock⟩ :=
    manifest_and_lock_come_back hreached (l := ⟨[demoEntry], by decide⟩) hfree
  refine ⟨hparse, hlock.2 ?_⟩
  intro e he
  rw [List.mem_singleton.1 he]
  decide

/-- A dependency on a version becomes one on a path. -/
def toPath : Change := .add "foo".toList none .path (some "../foo".toList) false

/-- What is written of it. -/
def demoPath : LcnPackage :=
  oneDep { blankDep "foo".toList with kind := .path, path := .copy _ "../foo".toList }

theorem demoPath_kept : demoPath.Kept :=
  oneDep_kept (by decide) ⟨by decide, by decide, by decide, by decide, rfl⟩

/-- The version that it had is still there, but not written. -/
theorem version_is_lost :
    lcnPackageParse ("[package]\nname = \"demo\"\nversion = \"0.1.0\"\n".toList ++
        "\n[dependencies]\nfoo = \"1.0\"\n".toList) = some demo ∧
      IsBare "foo".toList ∧
      ∃ new, lcnPackageParse (lcnPackageSerialize (Change.apply demo toPath)) = some new ∧
        ¬ new.deps.Perm (Change.apply demo toPath).deps := by
  have htext : lcnPackageSerialize demo =
      "[package]\nname = \"demo\"\nversion = \"0.1.0\"\n".toList ++
        "\n[dependencies]\nfoo = \"1.0\"\n".toList := by decide
  have hwritten : lcnPackageSerialize (Change.apply demo toPath) =
      lcnPackageSerialize demoPath := by decide
  refine ⟨?_, by decide, demoPath.ordered, ?_, by decide⟩
  · rw [← htext, parse_serialize demo_kept.1 demo_kept.2]
    rfl
  · rw [hwritten, parse_serialize demoPath_kept.1 demoPath_kept.2]

end Limceron.Package
