/-
# `Limceron.Load.Loads` — the imports are a depth-first search

While the tables are not full, `resolve_imports` is the search of
`Limceron.Lib.DepthFirst` over the use graph (`resolveImports_follows`): it parses what
can be reached once, merges each declaration once, and reports a cycle if there is one.

The tables are never full, if at most 64 files can be reached.  Beyond that a file that
is used twice may be parsed twice (`parsed_twice`), and the stack loses files that are
being resolved.
-/
import Limceron.Lib.DepthFirst
import Limceron.Load.Merging

namespace Limceron.Load

open DepthFirst (State explore visit Inv Scanned Edge Cyclic)
open Relation Parse

/-! ## The use graph -/

def usesOf (fs : Files) (params : List Node) : List Path := params.filterMap (useTarget fs)

/-- The files a file uses. -/
def uses (fs : Files) (path : Path) : List Path :=
  match fs.file path with
  | some (.program params) => usesOf fs params
  | _ => []

/-- The file is given to the parser, when it is met. -/
def parses (fs : Files) (path : Path) : Bool :=
  match fs.file path with
  | some (.program _) => true
  | some .broken => true
  | _ => false

theorem useTarget_some {fs : Files} {d : Node} {path : Path} (h : useTarget fs d = some path) :
    (fs.file path).isSome ∧ path.length ≤ pathSize := by
  unfold useTarget at h
  dsimp only at h
  split_ifs at h with h₁ h₂ h₃ <;> obtain rfl := Option.some.inj h
  all_goals exact ⟨by assumption, List.length_take_le _ _⟩

/-! ## The loader and the search -/

structure Follows (fs : Files) (initial : Target) (s : Loader) (t : State Path) : Prop where
  paths : s.imports.paths = t.visited
  stack : s.imports.stack = t.path
  errors : s.imports.errors = t.backs
  target : s.target = t.finished.foldl (mergeAt fs) initial
  parsed : s.parsed = t.visited.filter (parses fs)

variable {fs : Files} {initial : Target} {root : Path}

theorem Follows.onStack {s : Loader} {t : State Path} (h : Follows fs initial s t) (path : Path) :
    s.imports.onStack path = true ↔ path ∈ t.path := by
  simp [ImportTracker.onStack, h.stack]

theorem Follows.visited {s : Loader} {t : State Path} (h : Follows fs initial s t) (path : Path) :
    s.imports.visited path = true ↔ path ∈ t.visited := by
  simp [ImportTracker.visited, h.paths]

theorem path_le_visited {t : State Path} (h : Inv (uses fs) root t) :
    t.path.length ≤ t.visited.length := by
  rw [h.perm.length_eq, List.length_append]
  exact Nat.le_add_right _ _

/-- There is room for one more file. -/
theorem Follows.push {s : Loader} {t : State Path} (h : Follows fs initial s t)
    (hinv : Inv (uses fs) root t) {path : Path} (hlength : path.length ≤ pathSize)
    (hroom : t.visited.length < maxImportPaths) :
    (s.push path).imports.paths = (t.enter path).visited ∧
      (s.push path).imports.stack = (t.enter path).path ∧
        (s.push path).imports.errors = (t.enter path).backs := by
  have hstack : t.path.length < maxImportPaths := (path_le_visited hinv).trans_lt hroom
  have hmark : s.imports.markVisited path =
      { s.imports with paths := s.imports.paths ++ [path] } := by
    rw [ImportTracker.markVisited, h.paths, if_pos hroom, List.take_of_length_le hlength]
  have hpush : s.push path =
      { s with
        imports :=
          { s.imports with
            paths := s.imports.paths ++ [path], stack := s.imports.stack ++ [path] } } := by
    rw [Loader.push, hmark, ImportTracker.stackPush, h.stack, if_pos hstack,
      List.take_of_length_le hlength]
  rw [hpush, h.paths, h.stack, h.errors]
  exact ⟨rfl, rfl, rfl⟩

theorem explore_nil {n : ℕ} {v : Path} {t u : State Path} (hnext : uses fs v = [])
    (h : explore (uses fs) n v t = some u) : u = t := by
  cases n with
  | zero => cases h
  | succ n =>
      rw [explore, hnext] at h
      exact (Option.some.inj h).symm

/-- Up to `n` files deep, the loader does what the search does. -/
def Simulates (fs : Files) (initial : Target) (root : Path) (n : ℕ) : Prop :=
  ∀ v params s t u, fs.file v = some (.program params) → Inv (uses fs) root t →
    t.path.getLast? = some v → Follows fs initial s t → explore (uses fs) n v t = some u →
    u.visited.length ≤ maxImportPaths →
    ∃ s', resolveImports fs n params s = some s' ∧ Follows fs initial s' u

/-- A file that was not met before. -/
theorem resolveUse_new {n : ℕ} (hsim : Simulates fs initial root n) {s : Loader}
    {t u : State Path} {v path : Path} {d : Node} (hd : useTarget fs d = some path)
    (hinv : Inv (uses fs) root t) (hv : t.path.getLast? = some v) (hedge : path ∈ uses fs v)
    (h : Follows fs initial s t) (hpath : path ∉ t.path) (hvisited : path ∉ t.visited)
    (hu : explore (uses fs) n path (t.enter path) = some u)
    (hroom : u.visited.length ≤ maxImportPaths) :
    ∃ s', resolveUse fs (resolveImports fs n) s d = some s' ∧
      Follows fs initial s' (u.leave path) := by
  obtain ⟨hfile, hlength⟩ := useTarget_some hd
  have hinv' := hinv.enter hv hedge hvisited
  have hlast : (t.enter path).path.getLast? = some path := by simp [State.enter]
  have hscan := (DepthFirst.explore_spec n path _ _ hu hinv' hlast).2
  have hlt : t.visited.length < maxImportPaths := by
    have hle := hscan.visited.length_le
    simp only [State.enter, List.length_append, List.length_singleton] at hle
    omega
  obtain ⟨hpaths, hstack, herrors⟩ := h.push hinv hlength hlt
  have hnew : s.imports.onStack path = false ∧ s.imports.visited path = false := by
    constructor
    · rw [Bool.eq_false_iff, Ne, h.onStack]
      exact hpath
    · rw [Bool.eq_false_iff, Ne, h.visited]
      exact hvisited
  -- the file is popped with nothing done: the search finds no edges there
  have hleaf : uses fs path = [] → u = t.enter path := fun hnext => explore_nil hnext hu
  simp only [resolveUse, hd, hnew.1, hnew.2, Bool.false_eq_true, if_false]
  cases hcontent : fs.file path with
  | none => simp [hcontent] at hfile
  | some file =>
      cases file with
      | unreadable =>
          obtain rfl := hleaf (by simp [uses, hcontent])
          refine ⟨_, rfl, hpaths, ?_, herrors, ?_, ?_⟩
          · simp [Loader.pop, ImportTracker.stackPop, hstack, State.leave]
          · have htarget : s.target = ((t.enter path).leave path).finished.foldl
                (mergeAt fs) initial := by
              simpa [State.enter, State.leave, mergeAt, hcontent] using h.target
            exact htarget
          · simpa [State.enter, State.leave, parses, hcontent, Loader.push, Loader.pop]
              using h.parsed
      | broken =>
          obtain rfl := hleaf (by simp [uses, hcontent])
          refine ⟨_, rfl, hpaths, ?_, herrors, ?_, ?_⟩
          · simp [Loader.parse, Loader.pop, ImportTracker.stackPop, hstack, State.leave]
          · have htarget : s.target = ((t.enter path).leave path).finished.foldl
                (mergeAt fs) initial := by
              simpa [State.enter, State.leave, mergeAt, hcontent] using h.target
            exact htarget
          · have hparsed := h.parsed
            simp [State.enter, State.leave, parses, hcontent, Loader.push, Loader.pop,
              Loader.parse, hparsed]
      | program params =>
          have hfollows : Follows fs initial ((s.push path).parse path) (t.enter path) := by
            refine ⟨hpaths, hstack, herrors, h.target, ?_⟩
            have hparsed := h.parsed
            simp [State.enter, parses, hcontent, Loader.push, Loader.parse, hparsed]
          obtain ⟨s', hs', h'⟩ := hsim path params _ _ _ hcontent hinv' hlast hfollows hu hroom
          refine ⟨Loader.pop
            { s' with target := mergeFile path params s'.target, resolved := s'.resolved + 1 },
            ?_, h'.paths, ?_, h'.errors, ?_, h'.parsed⟩
          · dsimp only
            rw [hs']
            rfl
          · simp [Loader.pop, ImportTracker.stackPop, h'.stack, State.leave]
          · simp [State.leave, Loader.pop, mergeAt, hcontent, h'.target]

theorem resolveUse_follows {n : ℕ} (hsim : Simulates fs initial root n) {s : Loader}
    {t u : State Path} {v path : Path} {d : Node} (hd : useTarget fs d = some path)
    (hinv : Inv (uses fs) root t) (hv : t.path.getLast? = some v) (hedge : path ∈ uses fs v)
    (h : Follows fs initial s t) (hu : visit (explore (uses fs) n) t path = some u)
    (hroom : u.visited.length ≤ maxImportPaths) :
    ∃ s', resolveUse fs (resolveImports fs n) s d = some s' ∧ Follows fs initial s' u := by
  unfold visit at hu
  split_ifs at hu with hpath hvisited
  · obtain rfl := Option.some.inj hu
    refine ⟨{ s with imports := { s.imports with errors := s.imports.errors + 1 } }, ?_,
      h.paths, h.stack, congrArg (· + 1) h.errors, h.target, h.parsed⟩
    simp [resolveUse, hd, (h.onStack path).2 hpath]
  · obtain rfl := Option.some.inj hu
    refine ⟨s, ?_, h⟩
    have hstack : s.imports.onStack path = false := by
      rw [Bool.eq_false_iff, Ne, h.onStack]
      exact hpath
    simp [resolveUse, hd, hstack, (h.visited path).2 hvisited]
  · obtain ⟨w, hw, rfl⟩ := Option.map_eq_some_iff.1 hu
    exact resolveUse_new hsim hd hinv hv hedge h hpath hvisited hw hroom

theorem scan_follows {n : ℕ} (hsim : Simulates fs initial root n) {v : Path}
    {params : List Node} (hparams : ∀ w ∈ usesOf fs params, w ∈ uses fs v) {s : Loader}
    {t u : State Path} (hinv : Inv (uses fs) root t) (hv : t.path.getLast? = some v)
    (h : Follows fs initial s t)
    (hu : (usesOf fs params).foldlM (visit (explore (uses fs) n)) t = some u)
    (hroom : u.visited.length ≤ maxImportPaths) :
    ∃ s', params.foldlM (resolveUse fs (resolveImports fs n)) s = some s' ∧
      Follows fs initial s' u := by
  induction params generalizing s t with
  | nil =>
      obtain rfl : t = u := by simpa [usesOf] using hu
      exact ⟨s, rfl, h⟩
  | cons d params ih =>
      cases hd : useTarget fs d with
      | none =>
          rw [usesOf, List.filterMap_cons_none hd] at hu hparams
          obtain ⟨s', hs', h'⟩ := ih hparams hinv hv h hu
          refine ⟨s', ?_, h'⟩
          rw [List.foldlM_cons, resolveUse, hd]
          exact hs'
      | some path =>
          rw [usesOf, List.filterMap_cons_some hd] at hu hparams
          have hedge := hparams path List.mem_cons_self
          have hrest : ∀ w ∈ usesOf fs params, w ∈ uses fs v :=
            fun w hw => hparams w (List.mem_cons_of_mem _ hw)
          rw [List.foldlM_cons] at hu
          obtain ⟨t', ht', hu⟩ := Option.bind_eq_some_iff.1 hu
          obtain ⟨hinv', hscan⟩ :=
            DepthFirst.visit_spec (DepthFirst.explore_spec n) ht' hinv hv hedge
          have hv' : t'.path.getLast? = some v := hscan.path ▸ hv
          obtain ⟨-, hscan'⟩ := DepthFirst.scan_spec (DepthFirst.explore_spec n) hrest hu hinv' hv'
          have hroom' : t'.visited.length ≤ maxImportPaths :=
            hscan'.visited.length_le.trans hroom
          obtain ⟨s₁, hs₁, h₁⟩ := resolveUse_follows hsim hd hinv hv hedge h ht' hroom'
          obtain ⟨s', hs', h'⟩ := ih hrest hinv' hv' h₁ hu
          refine ⟨s', ?_, h'⟩
          rw [List.foldlM_cons, hs₁]
          exact hs'

theorem resolveImports_follows (n : ℕ) : Simulates fs initial root n := by
  induction n with
  | zero =>
      intro v params s t u _ _ _ _ hu
      cases hu
  | succ n ih =>
      intro v params s t u hv hinv hlast h hu hroom
      have huses : uses fs v = usesOf fs params := by rw [uses, hv]
      rw [explore, huses] at hu
      exact scan_follows ih (fun w hw => huses ▸ hw) hinv hlast h hu hroom

/-! ## The whole load -/

def Reaches (fs : Files) (entry : Path) : Path → Prop := ReflTransGen (Edge (uses fs)) entry

structure Loaded (fs : Files) (entry : Path) (s : Loader) : Prop where
  parsed_once : ∀ p, Reaches fs entry p → parses fs p = true → s.parsed.count p = 1
  parsed_only : ∀ p ∈ s.parsed, Reaches fs entry p ∧ parses fs p = true
  merged_once : ∀ o, (origins s.target).count o ≤ 1
  merged : ∀ p i d, Reaches fs entry p → declAt fs p i = some d → isDecl d = true →
    ¬ Clash fs (fun q _ => Reaches fs entry q) p i → (p, i) ∈ origins s.target
  merged_only : ∀ o ∈ origins s.target, Reaches fs entry o.1
  circular : 0 < s.imports.errors ↔ Cyclic (uses fs) entry

/-- The load of the entry file returns, and does what it should. -/
def Loads (fs : Files) (entry : Path) (params : List Node) : Prop :=
  ∃ depth, ∀ n ≥ depth, ∃ s,
    resolveImports fs n params (Loader.start entry params) = some s ∧ Loaded fs entry s

/-- What can be reached fits into the tables. -/
def Fits (fs : Files) (entry : Path) : Prop :=
  ∃ all : List Path, all.length ≤ maxImportPaths ∧ ∀ q, Reaches fs entry q → q ∈ all

theorem follows_start {entry : Path} (params : List Node) (hentry : parses fs entry = true)
    (hlength : entry.length ≤ pathSize) :
    Follows fs (Loader.start entry params).target (Loader.start entry params)
      (DepthFirst.start entry) where
  paths := by
    show [entry.take pathSize] = [entry]
    rw [List.take_of_length_le hlength]
  stack := by
    show [entry.take pathSize] = [entry]
    rw [List.take_of_length_le hlength]
  errors := rfl
  target := rfl
  parsed := by simp [Loader.start, DepthFirst.start, hentry]

section Search

variable {n : ℕ} {entry : Path} {params : List Node} {t : State Path}

theorem search_merging (hentry : fs.file entry = some (.program params))
    (ht : explore (uses fs) n entry (DepthFirst.start entry) = some t) :
    Merging fs (fun q _ => Reaches fs entry q)
      (t.finished.foldl (mergeAt fs) (Loader.start entry params).target) := by
  have hnodup : (t.finished ++ [entry]).Nodup :=
    (List.nodup_append.1 (DepthFirst.search_inv ht).1.nodup).2.1
  have hnew : ∀ p ∈ t.finished, ∀ _ : ℕ, ¬ p = entry := by
    rintro p hp - rfl
    exact List.disjoint_of_nodup_append hnodup hp List.mem_cons_self
  have hmem : ∀ q, q ∈ t.finished ++ [entry] ↔ Reaches fs entry q := fun q =>
    (DepthFirst.search_finished ht).symm.trans (DepthFirst.visited_iff ht)
  have hmerging := (merging_start hentry).mergeAll hnodup.of_append_left hnew
  refine hmerging.weaken ?_ ?_
  · rintro q j (rfl | hq)
    · exact .refl
    · exact (hmem q).1 (List.mem_append_left _ hq)
  · intro q j hreach
    rcases List.mem_append.1 ((hmem q).2 hreach) with hq | hq
    · exact .inl (.inr hq)
    · exact .inl (.inl (List.mem_singleton.1 hq))

theorem Follows.loaded (hentry : fs.file entry = some (.program params))
    (ht : explore (uses fs) n entry (DepthFirst.start entry) = some t) {s : Loader}
    (h : Follows fs (Loader.start entry params).target s t) : Loaded fs entry s := by
  have hmerging : Merging fs (fun q _ => Reaches fs entry q) s.target :=
    h.target ▸ search_merging hentry ht
  have hnodup : t.visited.Nodup := (DepthFirst.search_inv ht).1.visited_nodup
  have hvisited : ∀ q, q ∈ t.visited ↔ Reaches fs entry q := fun q => DepthFirst.visited_iff ht
  constructor
  · intro p hp hparses
    rw [h.parsed]
    exact List.count_eq_one_of_mem (hnodup.filter _)
      (List.mem_filter.2 ⟨(hvisited p).2 hp, hparses⟩)
  · intro p hp
    rw [h.parsed] at hp
    obtain ⟨hmem, hparses⟩ := List.mem_filter.1 hp
    exact ⟨(hvisited p).1 hmem, hparses⟩
  · exact List.nodup_iff_count_le_one.1 hmerging.nodup
  · intro p i d hp hd hdecl hclash
    exact (hmerging.complete p i d hp hd hdecl).resolve_right hclash
  · exact hmerging.places
  · rw [h.errors]
    exact DepthFirst.backs_pos_iff ht

theorem search_some (hfits : Fits fs entry) (hn : maxImportPaths < n) :
    ∃ t, explore (uses fs) n entry (DepthFirst.start entry) = some t ∧
      t.visited.length ≤ maxImportPaths := by
  obtain ⟨all, hlength, hall⟩ := hfits
  have hcard : all.toFinset.card ≤ maxImportPaths := (List.toFinset_card_le all).trans hlength
  have hmem : ∀ q, Reaches fs entry q → q ∈ all.toFinset :=
    fun q hq => List.mem_toFinset.2 (hall q hq)
  have hfresh : DepthFirst.fresh all.toFinset (DepthFirst.start entry) < n :=
    (Finset.card_le_card Finset.sdiff_subset).trans_lt (hcard.trans_lt hn)
  obtain ⟨t, ht⟩ := DepthFirst.explore_some hmem (DepthFirst.inv_start entry) rfl hfresh
  have hnodup : t.visited.Nodup := (DepthFirst.search_inv ht).1.visited_nodup
  refine ⟨t, ht, ?_⟩
  rw [← List.toFinset_card_of_nodup hnodup]
  refine (Finset.card_le_card fun q hq => ?_).trans hcard
  exact hmem q ((DepthFirst.visited_iff ht).1 (List.mem_toFinset.1 hq))

end Search

/-- A program of at most 64 files is loaded as it should be. -/
theorem loads_of_fits (fs : Files) (entry : Path) (params : List Node)
    (hentry : fs.file entry = some (.program params)) (hlength : entry.length ≤ pathSize)
    (hfits : Fits fs entry) : Loads fs entry params := by
  refine ⟨maxImportPaths + 1, fun n hn => ?_⟩
  obtain ⟨t, ht, hroom⟩ := search_some hfits hn
  have hparses : parses fs entry = true := by simp [parses, hentry]
  obtain ⟨s, hs, hfollows⟩ := resolveImports_follows n entry params _ _ t hentry
    (DepthFirst.inv_start entry) rfl (follows_start params hparses hlength) ht hroom
  exact ⟨s, hs, hfollows.loaded hentry ht⟩

def useDecl (name : String) : Node := { kind := .use, name := some name }

/-- Each of a list of files, with the modules it uses. -/
def filesOf (sources : List (Path × List String)) : Files where
  file path := (sources.find? fun s => decide (s.1 = path)).map fun s =>
    .program (s.2.map useDecl)
  baseDir := ['p']
  stdlibDir := "std".toList

/-- A diamond, whose end uses its start. -/
def diamond : Files :=
  filesOf [("p/main.lceron".toList, ["left", "right"]), ("p/left.lceron".toList, ["end"]),
    ("p/right.lceron".toList, ["end"]), ("p/end.lceron".toList, ["left"])]

theorem diamond_fits : Fits diamond "p/main.lceron".toList := by
  refine ⟨["p/main.lceron".toList, "p/left.lceron".toList, "p/right.lceron".toList,
    "p/end.lceron".toList], by decide, fun q hq => ?_⟩
  exact DepthFirst.closed_reach (by decide +kernel) List.mem_cons_self hq

/-- A diamond with a cycle is loaded as it should be. -/
theorem loads_diamond :
    Loads diamond "p/main.lceron".toList (["left", "right"].map useDecl) :=
  loads_of_fits diamond _ _ (by rfl) (by decide) diamond_fits

/-! ## Too many files -/

/-- More depth changes nothing in a load that has ended. -/
theorem resolveUse_mono {resolve resolve' : List Node → Loader → Option Loader}
    (hle : ∀ params s s', resolve params s = some s' → resolve' params s = some s') {s s' : Loader}
    {d : Node} (h : resolveUse fs resolve s d = some s') : resolveUse fs resolve' s d = some s' := by
  unfold resolveUse at h ⊢
  split
  · next hnone =>
      rw [hnone] at h
      exact h
  · next path hpath =>
      rw [hpath] at h
      dsimp only at h
      split_ifs at h ⊢
      · exact h
      · exact h
      · split
        · next hcontent =>
            rw [hcontent] at h
            exact h
        · next hcontent =>
            rw [hcontent] at h
            exact h
        · next hcontent =>
            rw [hcontent] at h
            exact h
        · next params hcontent =>
            rw [hcontent] at h
            obtain ⟨t, ht, rfl⟩ := Option.map_eq_some_iff.1 h
            rw [hle _ _ _ ht]
            rfl

theorem scan_mono {resolve resolve' : List Node → Loader → Option Loader}
    (hle : ∀ params s s', resolve params s = some s' → resolve' params s = some s')
    {params : List Node} {s s' : Loader} (h : params.foldlM (resolveUse fs resolve) s = some s') :
    params.foldlM (resolveUse fs resolve') s = some s' := by
  induction params generalizing s with
  | nil => exact h
  | cons d params ih =>
      rw [List.foldlM_cons] at h ⊢
      obtain ⟨t, ht, h⟩ := Option.bind_eq_some_iff.1 h
      rw [resolveUse_mono hle ht]
      exact ih h

/-- Files that use nothing are resolved, others are not. -/
def resolveLeaf : List Node → Loader → Option Loader
  | [], s => some s
  | _ :: _, _ => none

theorem resolveLeaf_le (n : ℕ) (params : List Node) (s s' : Loader)
    (h : resolveLeaf params s = some s') : resolveImports fs (n + 1) params s = some s' := by
  cases params with
  | nil => exact h
  | cons d params => cases h

/-- The last of 64 files is used twice. -/
def mainUses : List String := ((List.range 64).map fun i => "f" ++ toString i) ++ ["f63"]

def leafPath (i : ℕ) : Path := 'p' :: '/' :: 'f' :: (Nat.toDigits 10 i ++ ".lceron".toList)

def crowdEntry : Path := "p/main.lceron".toList

/-- With the entry file, there are 65. -/
def crowd : Files :=
  filesOf ((crowdEntry, mainUses) :: (List.range 64).map fun i => (leafPath i, []))

/-- The program of `crowd`. -/
def crowdParams : List Node := mainUses.map useDecl

/-- At any depth, the last file is parsed at its first use, and again at its second. -/
theorem parsed_twice : ¬ Loads crowd crowdEntry crowdParams := by
  rintro ⟨depth, hloads⟩
  obtain ⟨s, hs, hloaded⟩ := hloads (depth + 2) (by omega)
  have hcount : (crowdParams.foldlM (resolveUse crowd resolveLeaf)
      (Loader.start crowdEntry crowdParams)).map
        (fun s => s.parsed.count (leafPath 63)) = some 2 := by decide +kernel
  obtain ⟨t, ht, htwo⟩ := Option.map_eq_some_iff.1 hcount
  have hle : ∀ params s s', resolveLeaf params s = some s' →
      resolveImports crowd (depth + 1) params s = some s' := resolveLeaf_le depth
  rw [resolveImports, scan_mono hle ht] at hs
  obtain rfl := Option.some.inj hs
  have hmem : leafPath 63 ∈ t.parsed := List.count_pos_iff.1 (htwo ▸ Nat.two_pos)
  obtain ⟨hreach, hparses⟩ := hloaded.parsed_only _ hmem
  rw [hloaded.parsed_once _ hreach hparses] at htwo
  cases htwo

end Limceron.Load
