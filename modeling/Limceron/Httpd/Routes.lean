/-
# `Limceron.Httpd.Routes` — the table of routes, and dispatch

`runtime/httpd.c`.  A pattern and a path are read side by side, one segment a turn, by
`route_match` and again by `lcn_httpd_path_param`.  What they agree on are the names in front
of the slashes at the end (`Segments`):

| | |
| :-- | :-- |
| names | as many on both sides, each equal or a parameter |
| slashes at the end | none on either side; one on one side; one or two on both |
| an empty name elsewhere | no match |

`OPTIONS` is answered before any route is looked at.  The table has room for eight routes,
and thirty-two are taken; a write behind the table has no outcome here.
-/
import Limceron.Httpd.Confine
import Mathlib.Data.Int.Notation
import Mathlib.Data.List.Forall2

namespace Limceron.Httpd

/-! ## Two walks -/

/-- `if (*p == '/') p++;` -/
def skipSlash : Bytes → Bytes
  | [] => []
  | c :: s => if c = slash then s else c :: s

/-- The segment at the beginning, and what is behind it. -/
def segment (s : Bytes) : Bytes := s.takeWhile (· ≠ slash)

def behind (s : Bytes) : Bytes := s.dropWhile (· ≠ slash)

/-- Nothing is left, or one slash. -/
def exhausted (s : Bytes) : Bool := s = [] ∨ s = [slash]

theorem behind_length_le (s : Bytes) : (behind s).length ≤ s.length :=
  (List.dropWhile_suffix _).length_le

theorem behind_skipSlash_lt {s : Bytes} (h : s ≠ []) : (behind (skipSlash s)).length < s.length := by
  rcases s with _ | ⟨c, s⟩
  · exact absurd rfl h
  · have hle := behind_length_le s
    rw [skipSlash]
    split
    · rw [List.length_cons]
      omega
    · next hc =>
        have hdrop : behind (c :: s) = behind s := List.dropWhile_cons_of_pos (decide_eq_true hc)
        rw [hdrop, List.length_cons]
        omega

/-- The loop of `route_match`. -/
def matchLoop (pp ap : Bytes) : Bool :=
  if _h : pp = [] ∨ ap = [] then exhausted pp && exhausted ap
  else
    let pat := segment (skipSlash pp)
    let act := segment (skipSlash ap)
    if pat = [] ∧ act = [] then exhausted (skipSlash pp) && exhausted (skipSlash ap)
    else if pat = [] ∨ act = [] then false
    else if pat.head? ≠ some colon ∧ pat ≠ act then false
    else matchLoop (behind (skipSlash pp)) (behind (skipSlash ap))
termination_by pp.length
decreasing_by exact behind_skipSlash_lt (not_or.1 _h).1

def routeMatch (pattern path : Bytes) : Bool :=
  pattern.head? = some slash && path.head? = some slash && matchLoop pattern path

/-- The loop of `lcn_httpd_path_param`. -/
def paramLoop (paramName pp ap : Bytes) : Option Bytes :=
  if _h : pp = [] ∨ ap = [] then none
  else
    let pat := segment (skipSlash pp)
    if pat.head? = some colon ∧ pat.tail = paramName then some (segment (skipSlash ap))
    else paramLoop paramName (behind (skipSlash pp)) (behind (skipSlash ap))
termination_by pp.length
decreasing_by exact behind_skipSlash_lt (not_or.1 _h).1

def lcnHttpdPathParam (pattern actualPath paramName : Bytes) (outSize : ℕ) : Option Bytes :=
  if outSize = 0 then none
  else (paramLoop paramName pattern actualPath).map (·.take (outSize - 1))

/-! ## The table -/

variable {H : Type}

structure LcnRoute (H : Type) where
  method : Bytes
  pattern : Bytes
  handler : H

/-- `routes` are those that are counted, and `allocated` is how many the table has room for. -/
structure LcnHttpServer (H : Type) where
  port : ℤ
  staticDir : Option Bytes
  routes : List (LcnRoute H)
  allocated : ℕ

def httpdMaxRoutes : ℕ := 32

def httpdInitRoutes : ℕ := 8

def httpdDefaultPort : ℤ := 9090

/-- The room of a pattern. -/
def patternRoom : ℕ := 127

def lcnHttpdInit (port : ℤ) (staticDir : Option Bytes) : LcnHttpServer H where
  port := if 0 < port then port else httpdDefaultPort
  staticDir := staticDir
  routes := []
  allocated := httpdInitRoutes

/-- A route as its fields have room for it. -/
def lcnRoute (method pattern : Bytes) (handler : H) : LcnRoute H :=
  ⟨method.take methodRoom, pattern.take patternRoom, handler⟩

/-- `lcn_httpd_route`; there is no outcome of a write behind the table. -/
def lcnHttpdRoute (server : LcnHttpServer H) (method pattern : Option Bytes) (handler : Option H) :
    Option (LcnHttpServer H) :=
  match method, pattern, handler with
  | some method, some pattern, some handler =>
      if httpdMaxRoutes ≤ server.routes.length then some server
      else if server.allocated ≤ server.routes.length then none
      else some { server with routes := server.routes ++ [lcnRoute method pattern handler] }
  | _, _, _ => some server

inductive Call (H : Type) where
  | init (port : ℤ) (staticDir : Option Bytes)
  | route (method pattern : Option Bytes) (handler : Option H)

def step (server : LcnHttpServer H) : Call H → Option (LcnHttpServer H)
  | .init port staticDir => some (lcnHttpdInit port staticDir)
  | .route method pattern handler => lcnHttpdRoute server method pattern handler

/-- The calls behind the first `lcn_httpd_init`. -/
def run (server : LcnHttpServer H) : List (Call H) → Option (LcnHttpServer H)
  | [] => some server
  | call :: calls => (step server call).bind fun server => run server calls

/-! ## Dispatch -/

inductive Dispatch (H : Type) where
  | preflight
  | ran (handler : H)
  | replied (reply : Reply)

def takes (req : LcnHttpRequest) (r : LcnRoute H) : Bool :=
  r.method = req.method && routeMatch r.pattern req.path

def dispatchRequest (files : Bytes → Option Bytes) (server : LcnHttpServer H)
    (req : LcnHttpRequest) : Dispatch H :=
  if req.method = ascii "OPTIONS" then .preflight
  else
    match server.routes.find? (takes req) with
    | some r => .ran r.handler
    | none =>
        if server.staticDir.isSome ∧ req.method = ascii "GET" then
          .replied (serveStaticFile files server.staticDir req)
        else .replied (.error 404 "not found")

/-! ## What the walks agree on -/

/-- Names, each behind a slash, and slashes at the end. -/
structure Segments (s : Bytes) (names : List Bytes) (slashes : ℕ) : Prop where
  text : s = names.flatMap (slash :: ·) ++ List.replicate slashes slash
  proper : ∀ name ∈ names, name ≠ [] ∧ slash ∉ name

def SegmentMatch (pat act : Bytes) : Prop := pat = act ∨ pat.head? = some colon

/-- Slashes that may stand at the ends of a pattern and a path. -/
def Slashes (i j : ℕ) : Prop := i ≤ 2 ∧ j ≤ 2 ∧ (i = 0 → j ≤ 1) ∧ (j = 0 → i ≤ 1)

/-- The names match, one by one, and the slashes at the end do. -/
def WalkMatch (pattern path : Bytes) : Prop :=
  ∃ pats acts i j, Segments pattern pats i ∧ Segments path acts j ∧
    List.Forall₂ SegmentMatch pats acts ∧ Slashes i j

/-- Both begin with a slash. -/
def RouteMatch (pattern path : Bytes) : Prop :=
  pattern.head? = some slash ∧ path.head? = some slash ∧ WalkMatch pattern path

/-- Between two turns a walk is at a slash or at the end. -/
def Boundary (s : Bytes) : Prop := ∀ c ∈ s.head?, c = slash

theorem Segments.boundary {s : Bytes} {names : List Bytes} {k : ℕ} (h : Segments s names k) :
    Boundary s := by
  rw [h.text]
  rcases names with _ | ⟨name, names⟩
  · cases k with
    | zero => exact fun c hc => nomatch hc
    | succ k =>
        rintro c ⟨⟩
        rfl
  · rintro c ⟨⟩
    rfl

theorem boundary_behind (s : Bytes) : Boundary (behind s) := by
  intro c hc
  have hnot := List.head?_dropWhile_not (fun c : UInt8 => decide (c ≠ slash)) s
  rw [← behind, Option.mem_def.1 hc] at hnot
  exact of_decide_eq_true (by simpa using hnot)

theorem segment_behind (s : Bytes) : segment s ++ behind s = s := List.takeWhile_append_dropWhile

theorem slash_not_mem_segment (s : Bytes) : slash ∉ segment s := fun h =>
  absurd (List.mem_takeWhile_imp (p := fun c => decide (c ≠ slash)) h) (by decide)

/-- A name and what is behind it. -/
theorem segment_append {name t : Bytes} (hname : slash ∉ name) (ht : Boundary t) :
    segment (name ++ t) = name ∧ behind (name ++ t) = t :=
  span_append hname ht

theorem segments_nil_iff {names : List Bytes} {k : ℕ} :
    Segments [] names k ↔ names = [] ∧ k = 0 := by
  constructor
  · intro h
    have htext := h.text.symm
    rw [List.append_eq_nil_iff, List.replicate_eq_nil_iff, List.flatMap_eq_nil_iff] at htext
    refine ⟨List.eq_nil_iff_forall_not_mem.2 fun name hname => ?_, htext.2⟩
    cases htext.1 name hname
  · rintro ⟨rfl, rfl⟩
    exact ⟨rfl, fun _ h => nomatch h⟩

/-- What a name in front leaves. -/
theorem Segments.tail {s name : Bytes} {names : List Bytes} {k : ℕ}
    (h : Segments (slash :: s) (name :: names) k) :
    segment s = name ∧ Segments (behind s) names k := by
  have hproper := fun n hn => h.proper n (List.mem_cons_of_mem name hn)
  have hrest : Segments (names.flatMap (slash :: ·) ++ List.replicate k slash) names k :=
    ⟨rfl, hproper⟩
  have htext := h.text
  rw [List.flatMap_cons, List.append_assoc, List.cons_append] at htext
  injection htext with _ htext
  have hsplit := segment_append (h.proper name List.mem_cons_self).2 hrest.boundary
  rw [htext, hsplit.1, hsplit.2]
  exact ⟨rfl, hrest⟩

theorem Segments.cons {s : Bytes} {names : List Bytes} {k : ℕ} (hne : segment s ≠ [])
    (h : Segments (behind s) names k) : Segments (slash :: s) (segment s :: names) k where
  text := by
    rw [List.flatMap_cons, List.append_assoc, ← h.text, List.cons_append, segment_behind]
  proper name hname := by
    rcases List.mem_cons.1 hname with rfl | hname
    · exact ⟨hne, slash_not_mem_segment s⟩
    · exact h.proper name hname

/-- A slash at the end, or a second one. -/
theorem segments_slash_iff {s : Bytes} (h : segment s = []) {names : List Bytes} {k : ℕ} :
    Segments (slash :: s) names k ↔ names = [] ∧ slash :: s = List.replicate k slash := by
  constructor
  · intro hs
    rcases names with _ | ⟨name, names⟩
    · exact ⟨rfl, hs.text⟩
    · exact absurd (hs.tail.1.symm.trans h) (hs.proper name List.mem_cons_self).1
  · rintro ⟨rfl, hs⟩
    exact ⟨hs, fun _ h => nomatch h⟩

/-- A name behind a slash. -/
theorem segments_name_iff {s : Bytes} (h : segment s ≠ []) {names : List Bytes} {k : ℕ} :
    Segments (slash :: s) names k ↔
      ∃ rest, names = segment s :: rest ∧ Segments (behind s) rest k := by
  constructor
  · intro hs
    rcases names with _ | ⟨name, names⟩
    · have htext := hs.text
      rcases k with _ | k
      · cases htext
      · injection htext with _ htext
        have hslashes : Segments s [] k := ⟨htext, fun _ h => nomatch h⟩
        have hnil : segment ([] ++ s) = [] :=
          (segment_append List.not_mem_nil hslashes.boundary).1
        exact absurd hnil h
    · exact ⟨names, by rw [hs.tail.1], hs.tail.2⟩
  · rintro ⟨rest, rfl, hs⟩
    exact hs.cons h

/-! ## Matching -/

theorem exhausted_iff {s : Bytes} :
    exhausted s = true ↔ ∃ k, k ≤ 1 ∧ s = List.replicate k slash := by
  rw [exhausted, decide_eq_true_iff]
  constructor
  · rintro (rfl | rfl)
    · exact ⟨0, Nat.zero_le _, rfl⟩
    · exact ⟨1, Nat.le_refl _, rfl⟩
  · rintro ⟨k, hk, rfl⟩
    obtain rfl | rfl : k = 0 ∨ k = 1 := by omega
    · exact .inl rfl
    · exact .inr rfl

theorem segments_replicate (k : ℕ) : Segments (List.replicate k slash) [] k :=
  ⟨rfl, fun _ h => nomatch h⟩

/-- One of the two is at its end. -/
theorem walkMatch_end {pp ap : Bytes} (h : pp = [] ∨ ap = []) :
    WalkMatch pp ap ↔ exhausted pp = true ∧ exhausted ap = true := by
  rw [exhausted_iff, exhausted_iff]
  constructor
  · rintro ⟨pats, acts, i, j, hpp, hap, hall, -, -, hi, hj⟩
    rcases h with rfl | rfl
    · rcases segments_nil_iff.1 hpp with ⟨rfl, rfl⟩
      cases hall
      exact ⟨⟨0, Nat.zero_le _, rfl⟩, ⟨j, hi rfl, hap.text⟩⟩
    · rcases segments_nil_iff.1 hap with ⟨rfl, rfl⟩
      cases hall
      exact ⟨⟨i, hj rfl, hpp.text⟩, ⟨0, Nat.zero_le _, rfl⟩⟩
  · rintro ⟨⟨i, hi, rfl⟩, ⟨j, hj, rfl⟩⟩
    exact ⟨[], [], i, j, segments_replicate i, segments_replicate j, .nil, by omega, by omega,
      fun _ => hj, fun _ => hi⟩

/-- Both are at the slashes at their ends. -/
theorem walkMatch_slash {pp ap : Bytes} (hpat : segment pp = []) (hact : segment ap = []) :
    WalkMatch (slash :: pp) (slash :: ap) ↔ exhausted pp = true ∧ exhausted ap = true := by
  rw [exhausted_iff, exhausted_iff]
  constructor
  · rintro ⟨pats, acts, i, j, hpp, hap, -, hi, hj, -, -⟩
    have hp := ((segments_slash_iff hpat).1 hpp).2
    have ha := ((segments_slash_iff hact).1 hap).2
    rcases i with _ | i
    · cases hp
    · rcases j with _ | j
      · cases ha
      · injection hp with _ hp
        injection ha with _ ha
        exact ⟨⟨i, by omega, hp⟩, ⟨j, by omega, ha⟩⟩
  · rintro ⟨⟨i, hi, rfl⟩, ⟨j, hj, rfl⟩⟩
    exact ⟨[], [], i + 1, j + 1, segments_replicate (i + 1), segments_replicate (j + 1), .nil,
      by omega, by omega, fun h => absurd h (Nat.succ_ne_zero i), fun h =>
        absurd h (Nat.succ_ne_zero j)⟩

/-- Only one of the two has a name. -/
theorem not_walkMatch {pp ap : Bytes} (hone : segment pp = [] ∨ segment ap = [])
    (hnil : ¬ (segment pp = [] ∧ segment ap = [])) : ¬ WalkMatch (slash :: pp) (slash :: ap) := by
  rintro ⟨pats, acts, i, j, hpp, hap, hall, -⟩
  rcases hone with hpat | hact
  · rcases (segments_name_iff fun hact => hnil ⟨hpat, hact⟩).1 hap with ⟨rest, rfl, -⟩
    cases ((segments_slash_iff hpat).1 hpp).1
    cases hall
  · rcases (segments_name_iff fun hpat => hnil ⟨hpat, hact⟩).1 hpp with ⟨rest, rfl, -⟩
    cases ((segments_slash_iff hact).1 hap).1
    cases hall

/-- Both have a name. -/
theorem walkMatch_name {pp ap : Bytes} (hpat : segment pp ≠ []) (hact : segment ap ≠ []) :
    WalkMatch (slash :: pp) (slash :: ap) ↔
      SegmentMatch (segment pp) (segment ap) ∧ WalkMatch (behind pp) (behind ap) := by
  constructor
  · rintro ⟨pats, acts, i, j, hpp, hap, hall, hends⟩
    rcases (segments_name_iff hpat).1 hpp with ⟨pats, rfl, hpats⟩
    rcases (segments_name_iff hact).1 hap with ⟨acts, rfl, hacts⟩
    cases hall with
    | cons hfirst hall => exact ⟨hfirst, pats, acts, i, j, hpats, hacts, hall, hends⟩
  · rintro ⟨hfirst, pats, acts, i, j, hpp, hap, hall, hends⟩
    exact ⟨_, _, i, j, hpp.cons hpat, hap.cons hact, .cons hfirst hall, hends⟩

/-- A walk that has not ended is at a slash. -/
theorem Boundary.exists_cons {s : Bytes} (h : Boundary s) (hne : s ≠ []) : ∃ t, s = slash :: t := by
  rcases s with _ | ⟨c, t⟩
  · exact absurd rfl hne
  · exact ⟨t, congrArg (· :: t) (h c rfl)⟩

theorem matchLoop_iff (pp ap : Bytes) (hpp : Boundary pp) (hap : Boundary ap) :
    matchLoop pp ap = true ↔ WalkMatch pp ap := by
  fun_induction matchLoop pp ap with
  | case1 pp ap h => rw [walkMatch_end h, Bool.and_eq_true]
  | case2 pp ap h pat act hnil =>
      rcases hpp.exists_cons (not_or.1 h).1 with ⟨pp, rfl⟩
      rcases hap.exists_cons (not_or.1 h).2 with ⟨ap, rfl⟩
      have hpat : segment pp = [] := hnil.1
      have hact : segment ap = [] := hnil.2
      exact Bool.and_eq_true_iff.trans (walkMatch_slash hpat hact).symm
  | case3 pp ap h pat act hnil hone =>
      rcases hpp.exists_cons (not_or.1 h).1 with ⟨pp, rfl⟩
      rcases hap.exists_cons (not_or.1 h).2 with ⟨ap, rfl⟩
      exact iff_of_false Bool.false_ne_true (not_walkMatch hone hnil)
  | case4 pp ap h pat act hnil hone hdiff =>
      rcases hpp.exists_cons (not_or.1 h).1 with ⟨pp, rfl⟩
      rcases hap.exists_cons (not_or.1 h).2 with ⟨ap, rfl⟩
      have hpat : segment pp ≠ [] := (not_or.1 hone).1
      have hact : segment ap ≠ [] := (not_or.1 hone).2
      rw [walkMatch_name hpat hact]
      exact iff_of_false Bool.false_ne_true fun hmatch => hmatch.1.elim hdiff.2 hdiff.1
  | case5 pp ap h pat act hnil hone hsame ih =>
      rcases hpp.exists_cons (not_or.1 h).1 with ⟨pp, rfl⟩
      rcases hap.exists_cons (not_or.1 h).2 with ⟨ap, rfl⟩
      have hpat : segment pp ≠ [] := (not_or.1 hone).1
      have hact : segment ap ≠ [] := (not_or.1 hone).2
      rw [walkMatch_name hpat hact]
      refine (ih (boundary_behind _) (boundary_behind _)).trans (and_iff_right ?_).symm
      by_cases hcolon : pat.head? = some colon
      · exact .inr hcolon
      · exact .inl (not_not.1 fun hne => hsame ⟨hcolon, hne⟩)

theorem boundary_of_head {s : Bytes} (h : s.head? = some slash) : Boundary s := by
  intro c hc
  rw [h] at hc
  cases hc
  rfl

theorem routeMatch_iff {pattern path : Bytes} :
    routeMatch pattern path = true ↔ RouteMatch pattern path := by
  rw [routeMatch, Bool.and_eq_true, Bool.and_eq_true, decide_eq_true_iff, decide_eq_true_iff,
    RouteMatch, and_assoc]
  refine and_congr_right fun hpattern => and_congr_right fun hpath => ?_
  exact matchLoop_iff pattern path (boundary_of_head hpattern) (boundary_of_head hpath)

/-! ## Parameters -/

theorem Segments.exists_slash {s name : Bytes} {names : List Bytes} {k : ℕ}
    (h : Segments s (name :: names) k) : ∃ t, s = slash :: t :=
  ⟨_, h.text⟩

/-- One turn of the loop, when both have a name. -/
theorem paramLoop_name {pp ap pat act : Bytes} {pats acts : List Bytes} {i j : ℕ}
    (hpp : Segments pp (pat :: pats) i) (hap : Segments ap (act :: acts) j) (paramName : Bytes) :
    ∃ pp' ap', Segments pp' pats i ∧ Segments ap' acts j ∧
      paramLoop paramName pp ap =
        if pat = colon :: paramName then some act else paramLoop paramName pp' ap' := by
  rcases hpp.exists_slash with ⟨pp, rfl⟩
  rcases hap.exists_slash with ⟨ap, rfl⟩
  rcases hpp.tail with ⟨hpat, hpats⟩
  rcases hap.tail with ⟨hact, hacts⟩
  refine ⟨_, _, hpats, hacts, ?_⟩
  have hmore : ¬ (slash :: pp = [] ∨ slash :: ap = []) := by rintro (h | h) <;> cases h
  have hskip : ∀ s : Bytes, skipSlash (slash :: s) = s := fun _ => rfl
  rw [paramLoop, dif_neg hmore]
  simp only [hskip, hpat, hact]
  refine if_congr ?_ rfl rfl
  rcases pat with _ | ⟨c, pat⟩
  · exact iff_of_false (fun h => nomatch h.1) (fun h => nomatch h)
  · rw [List.head?_cons, Option.some.injEq, List.tail_cons, List.cons.injEq]

/-- The parameter is the segment where its name stands first. -/
theorem paramLoop_parameter {pattern path paramName act : Bytes}
    {pats pats' acts acts' : List Bytes} {i j : ℕ}
    (hpattern : Segments pattern (pats ++ (colon :: paramName) :: pats') i)
    (hpath : Segments path (acts ++ act :: acts') j) (hlength : pats.length = acts.length)
    (hfirst : (colon :: paramName) ∉ pats) : paramLoop paramName pattern path = some act := by
  induction pats generalizing pattern path acts with
  | nil =>
      cases List.length_eq_zero_iff.1 hlength.symm
      rcases paramLoop_name hpattern hpath paramName with ⟨_, _, -, -, hturn⟩
      rw [hturn, if_pos rfl]
  | cons pat pats ih =>
      rcases acts with _ | ⟨a, acts⟩
      · cases hlength
      · rcases paramLoop_name hpattern hpath paramName with ⟨pp, ap, hpp, hap, hturn⟩
        rw [List.mem_cons, not_or] at hfirst
        rw [hturn, if_neg (Ne.symm hfirst.1)]
        exact ih hpp hap (Nat.succ.inj hlength) hfirst.2

/-- The segment of the path where the parameter stands first in the pattern. -/
def ParameterAt (pattern path paramName act : Bytes) : Prop :=
  ∃ pats pats' acts acts' i j, Segments pattern (pats ++ (colon :: paramName) :: pats') i ∧
    Segments path (acts ++ act :: acts') j ∧ pats.length = acts.length ∧
    (colon :: paramName) ∉ pats

theorem Segments.unique {s : Bytes} {names names' : List Bytes} {k k' : ℕ}
    (h : Segments s names k) (h' : Segments s names' k') : names = names' := by
  induction names generalizing s names' with
  | nil =>
      rcases names' with _ | ⟨name, names'⟩
      · rfl
      · rcases h'.exists_slash with ⟨t, rfl⟩
        have hne := (h'.proper name List.mem_cons_self).1
        rw [← h'.tail.1] at hne
        rcases (segments_name_iff hne).1 h with ⟨rest, hnil, -⟩
        cases hnil
  | cons name names ih =>
      rcases h.exists_slash with ⟨t, rfl⟩
      have hne := (h.proper name List.mem_cons_self).1
      rw [← h.tail.1] at hne ⊢
      rcases (segments_name_iff hne).1 h' with ⟨rest, rfl, hrest⟩
      rw [ih h.tail.2 hrest]

/-- Each parameter of a pattern that matches has its segment. -/
theorem exists_parameterAt {pattern path paramName : Bytes} (h : RouteMatch pattern path)
    {names : List Bytes} {k : ℕ} (hnames : Segments pattern names k)
    (hparam : (colon :: paramName) ∈ names) : ∃ act, ParameterAt pattern path paramName act := by
  rcases h with ⟨-, -, pats, acts, i, j, hpats, hacts, hall, -⟩
  cases hnames.unique hpats
  rcases List.eq_append_cons_of_mem hparam with ⟨before, after, rfl, hfirst⟩
  have hlength := hall.length_eq
  rw [List.length_append, List.length_cons] at hlength
  rcases hdrop : acts.drop before.length with _ | ⟨act, acts'⟩
  · have hlen := congrArg List.length hdrop
    rw [List.length_drop, List.length_nil] at hlen
    omega
  · refine ⟨act, before, after, acts.take before.length, acts', i, j, hpats, ?_, ?_, hfirst⟩
    · rwa [← hdrop, List.take_append_drop]
    · rw [List.length_take, Nat.min_eq_left (by omega)]

theorem lcnHttpdPathParam_eq {pattern path paramName act : Bytes}
    (h : ParameterAt pattern path paramName act) {outSize : ℕ} (hsize : 0 < outSize) :
    lcnHttpdPathParam pattern path paramName outSize = some (act.take (outSize - 1)) := by
  rcases h with ⟨pats, pats', acts, acts', i, j, hpattern, hpath, hlength, hfirst⟩
  rw [lcnHttpdPathParam, if_neg (Nat.ne_of_gt hsize),
    paramLoop_parameter hpattern hpath hlength hfirst]
  rfl

/-! ## Registration -/

def register (routes : List (LcnRoute H)) : Call H → List (LcnRoute H)
  | .init _ _ => []
  | .route (some method) (some pattern) (some handler) =>
      routes ++ [lcnRoute method pattern handler]
  | .route _ _ _ => routes

/-- The routes that are registered since the last `lcn_httpd_init`. -/
def registered (calls : List (Call H)) : List (LcnRoute H) := calls.foldl register []

theorem step_register {server : LcnHttpServer H} {call : Call H}
    (halloc : server.allocated = httpdInitRoutes)
    (h : (register server.routes call).length ≤ httpdInitRoutes) :
    ∃ server', step server call = some server' ∧ server'.routes = register server.routes call ∧
      server'.allocated = httpdInitRoutes := by
  rcases call with ⟨port, dir⟩ | ⟨method, pattern, handler⟩
  · exact ⟨_, rfl, rfl, rfl⟩
  · rcases method with _ | method
    · exact ⟨server, rfl, rfl, halloc⟩
    rcases pattern with _ | pattern
    · exact ⟨server, rfl, rfl, halloc⟩
    rcases handler with _ | handler
    · exact ⟨server, rfl, rfl, halloc⟩
    have hroom : server.routes.length < httpdInitRoutes := by
      rw [register, List.length_append] at h
      exact h
    have hmax : ¬ httpdMaxRoutes ≤ server.routes.length :=
      Nat.not_le.2 (Nat.lt_of_lt_of_le hroom (by decide))
    refine ⟨{ server with routes := server.routes ++ [lcnRoute method pattern handler] }, ?_, rfl,
      halloc⟩
    rw [step, lcnHttpdRoute, if_neg hmax, halloc, if_neg (Nat.not_le.2 hroom)]

theorem run_register (server : LcnHttpServer H) {calls : List (Call H)}
    (halloc : server.allocated = httpdInitRoutes)
    (h : ∀ calls', calls' <+: calls →
      (calls'.foldl register server.routes).length ≤ httpdInitRoutes) :
    ∃ server', run server calls = some server' ∧
      server'.routes = calls.foldl register server.routes ∧
      server'.allocated = httpdInitRoutes := by
  induction calls generalizing server with
  | nil => exact ⟨server, rfl, rfl, halloc⟩
  | cons call calls ih =>
      rcases step_register halloc (h [call] ⟨calls, rfl⟩) with ⟨next, hstep, hroutes, hnext⟩
      rw [run, hstep, List.foldl_cons, ← hroutes]
      refine ih next hnext fun calls' hprefix => ?_
      have hcons := h (call :: calls') (List.cons_prefix_cons.2 ⟨rfl, hprefix⟩)
      rwa [List.foldl_cons, ← hroutes] at hcons

/-! ## The first route that matches -/

/-- A route takes the request, by a way to match paths. -/
def Takes (M : Bytes → Bytes → Prop) (req : LcnHttpRequest) (r : LcnRoute H) : Prop :=
  r.method = req.method ∧ M r.pattern req.path

/-- The handler that runs is that of the first of these routes that takes the request. -/
structure DispatchedBy (M : Bytes → Bytes → Prop) (server : LcnHttpServer H)
    (routes : List (LcnRoute H)) (req : LcnHttpRequest) : Prop where
  first : ∀ before r after, routes = before ++ r :: after → Takes M req r →
    (∀ r' ∈ before, ¬ Takes M req r') →
    ∀ files, dispatchRequest files server req = .ran r.handler
  none : (∀ r ∈ routes, ¬ Takes M req r) →
    ∀ files handler, dispatchRequest files server req ≠ .ran handler

theorem takes_iff {req : LcnHttpRequest} {r : LcnRoute H} :
    takes req r = true ↔ Takes RouteMatch req r := by
  rw [takes, Bool.and_eq_true, decide_eq_true_iff, routeMatch_iff, Takes]

theorem dispatchedBy_routes (server : LcnHttpServer H) (req : LcnHttpRequest)
    (h : req.method ≠ ascii "OPTIONS") : DispatchedBy RouteMatch server server.routes req where
  first before r after hsplit htakes hbefore files := by
    have hfind : server.routes.find? (takes req) = some r := by
      refine List.find?_eq_some_iff_append.2 ⟨takes_iff.2 htakes, before, after, hsplit, ?_⟩
      intro r' hr'
      rw [Bool.not_eq_true', ← Bool.not_eq_true, takes_iff]
      exact hbefore r' hr'
    rw [dispatchRequest, if_neg h, hfind]
  none hnone files handler := by
    have hfind : server.routes.find? (takes req) = Option.none :=
      List.find?_eq_none.2 fun r hr => mt takes_iff.1 (hnone r hr)
    rw [dispatchRequest, if_neg h, hfind]
    dsimp only
    split
    · exact fun hran => nomatch hran
    · exact fun hran => nomatch hran

/-- With eight routes at most, every route is in the table, and the first that matches is run;
each parameter of its pattern is the segment at its place. -/
theorem routes_dispatched (port : ℤ) (staticDir : Option Bytes) (calls : List (Call H))
    (h : ∀ calls', calls' <+: calls → (registered calls').length ≤ httpdInitRoutes) :
    ∃ server, run (lcnHttpdInit port staticDir) calls = some server ∧
      server.routes = registered calls ∧ server.routes.length ≤ server.allocated ∧
      (∀ req, req.method ≠ ascii "OPTIONS" →
        DispatchedBy RouteMatch server (registered calls) req) ∧
      ∀ pattern path names k paramName, RouteMatch pattern path → Segments pattern names k →
        (colon :: paramName) ∈ names → ∃ act, ParameterAt pattern path paramName act ∧
          ∀ outSize, 0 < outSize →
            lcnHttpdPathParam pattern path paramName outSize = some (act.take (outSize - 1)) := by
  rcases run_register (lcnHttpdInit port staticDir) rfl h with
    ⟨server, hrun, hroutes, halloc⟩
  refine ⟨server, hrun, hroutes, ?_, fun req hreq => ?_, ?_⟩
  · rw [hroutes, halloc]
    exact h calls (List.prefix_refl _)
  · have hdispatched := dispatchedBy_routes server req hreq
    rwa [hroutes] at hdispatched
  · intro pattern path names k paramName hmatch hnames hparam
    rcases exists_parameterAt hmatch hnames hparam with ⟨act, hact⟩
    exact ⟨act, hact, fun outSize hsize => lcnHttpdPathParam_eq hact hsize⟩

/-- A server with one route. -/
def oneRoute (method pattern : String) : List (Call ℕ) :=
  [.route (some (ascii method)) (some (ascii pattern)) (some 1)]

def oneServer (method pattern : String) : LcnHttpServer ℕ :=
  { (lcnHttpdInit 0 none : LcnHttpServer ℕ) with routes := [lcnRoute (ascii method) (ascii pattern) 1] }

theorem run_oneRoute (method pattern : String) :
    run (lcnHttpdInit 0 none) (oneRoute method pattern) = some (oneServer method pattern) := rfl

theorem routes_dispatched_one : ∃ server,
    run (lcnHttpdInit 0 none) (oneRoute "GET" "/a/:id") = some server ∧
      server.routes.length ≤ server.allocated := by
  have hroom : ∀ calls', calls' <+: oneRoute "GET" "/a/:id" →
      (registered calls').length ≤ httpdInitRoutes := by
    intro calls' hprefix
    rcases calls' with _ | ⟨call, calls'⟩
    · decide
    · rcases List.cons_prefix_cons.1 hprefix with ⟨rfl, hnil⟩
      cases List.prefix_nil.1 hnil
      decide
  rcases routes_dispatched 0 none (oneRoute "GET" "/a/:id") hroom with ⟨server, hrun, -, hle, -⟩
  exact ⟨server, hrun, hle⟩

/-! ## By the segments alone -/

/-- As many segments, and each equal or a parameter. -/
def SegmentsMatch (pattern path : Bytes) : Prop :=
  List.Forall₂ SegmentMatch (pattern.splitOn slash) (path.splitOn slash)

/-- A request for this path. -/
def request (method path : String) : LcnHttpRequest := ⟨ascii method, ascii path, [], []⟩

def MeetsSegments (calls : List (Call ℕ)) (req : LcnHttpRequest) : Prop :=
  ∀ server, run (lcnHttpdInit 0 none) calls = some server →
    DispatchedBy SegmentsMatch server (registered calls) req

/-- `OPTIONS` is not dispatched, a slash at the end does not count, and an empty segment
does not match itself. -/
theorem not_meetsSegments :
    ¬ MeetsSegments (oneRoute "OPTIONS" "/a") (request "OPTIONS" "/a") ∧
      ¬ MeetsSegments (oneRoute "GET" "/a/") (request "GET" "/a") ∧
      ¬ MeetsSegments (oneRoute "GET" "/a//b") (request "GET" "/a//b") := by
  have hsame : ∀ s, SegmentsMatch s s := fun s => List.forall₂_same.2 fun _ _ => .inl rfl
  have hget : ascii "GET" ≠ ascii "OPTIONS" := by decide
  refine ⟨fun h => ?_, fun h => ?_, fun h => ?_⟩
  · have hran := (h _ (run_oneRoute _ _)).first [] _ [] rfl ⟨rfl, hsame _⟩
      (fun _ hr => nomatch hr) fun _ => none
    cases hran
  · have hmatch : RouteMatch (ascii "/a/") (ascii "/a") := by
      refine ⟨rfl, rfl, [ascii "a"], [ascii "a"], 1, 0, ⟨rfl, by decide⟩, ⟨rfl, by decide⟩,
        .cons (.inl rfl) .nil, ?_⟩
      exact ⟨by omega, by omega, by omega, by omega⟩
    have hran := (dispatchedBy_routes (oneServer "GET" "/a/") (request "GET" "/a") hget).first
      [] (lcnRoute (ascii "GET") (ascii "/a/") 1) [] rfl ⟨rfl, hmatch⟩ (fun _ hr => nomatch hr)
      fun _ => none
    refine (h _ (run_oneRoute _ _)).none (fun r hr htakes => ?_) _ _ hran
    cases List.mem_singleton.1 hr
    exact absurd htakes.2.length_eq (by decide)
  · have hmatch : ¬ RouteMatch (ascii "/a//b") (ascii "/a//b") := by
      rintro ⟨-, -, pats, acts, i, j, hpats, -⟩
      rcases (segments_name_iff (s := ascii "a//b") (by decide)).1 hpats with ⟨rest, -, hrest⟩
      have hslashes := ((segments_slash_iff (s := ascii "/b") (by decide)).1 hrest).2
      have hmem : (0x62 : UInt8) ∈ List.replicate i slash := by
        rw [← hslashes]
        decide
      exact absurd (List.eq_of_mem_replicate hmem) (by decide)
    have hran := (h _ (run_oneRoute _ _)).first [] _ [] rfl ⟨rfl, hsame _⟩
      (fun _ hr => nomatch hr) fun _ => none
    refine (dispatchedBy_routes (oneServer "GET" "/a//b") (request "GET" "/a//b") hget).none
      (fun r hr htakes => ?_) _ _ hran
    have hr' : r = lcnRoute (ascii "GET") (ascii "/a//b") 1 := List.mem_singleton.1 hr
    rw [hr'] at htakes
    exact hmatch htakes.2

end Limceron.Httpd
