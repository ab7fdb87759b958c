/-
# `Limceron.Package.Manifest` — reading and writing `limceron.toml`

`src/package.c`.  The reader knows tables, keys, strings with escapes and tables on one line;
what it does not know it skips, up to the end of the line.  The writer puts a string between
quotes as it is, and for a dependency it writes what belongs to its kind:

| kind | what is written |
| :-- | :-- |
| registry | the version |
| path | the path |
| git | the URL, and the revision if there is one |

A field of the package has room for so many bytes and no more (`Field`).
-/
import Limceron.Caps.Registry
import Mathlib.Data.List.TakeWhile
import Mathlib.Data.Nat.Notation

namespace Limceron.Package

open Caps (CString)

/-! ## The package -/

/-- `char[room + 1]`. -/
structure Field (room : ℕ) where
  text : CString
  fits : text.length ≤ room
  deriving DecidableEq

/-- `strncpy` into a field of zeros. -/
def Field.copy (room : ℕ) (s : CString) : Field room := ⟨s.take room, List.length_take_le room s⟩

/-- `memset`. -/
def Field.blank (room : ℕ) : Field room := ⟨[], Nat.zero_le room⟩

@[simp] theorem Field.copy_text {room : ℕ} (f : Field room) : Field.copy room f.text = f := by
  obtain ⟨text, fits⟩ := f
  rw [copy, mk.injEq]
  exact List.take_of_length_le fits

theorem Field.eq_blank {room : ℕ} {f : Field room} (h : f.text = []) : f = .blank room := by
  obtain ⟨text, fits⟩ := f
  cases h
  rfl

def maxDeps : ℕ := 64

abbrev nameRoom : ℕ := 127

abbrev versionRoom : ℕ := 31

abbrev descRoom : ℕ := 511

abbrev pathRoom : ℕ := 511

inductive LcnDepKind where
  | registry
  | path
  | git
  deriving DecidableEq

structure LcnDependency where
  name : Field nameRoom
  version : Field versionRoom
  kind : LcnDepKind
  path : Field pathRoom
  gitUrl : Field pathRoom
  gitRev : Field versionRoom
  isDev : Bool
  deriving DecidableEq

@[ext] structure LcnPackage where
  name : Field nameRoom
  version : Field versionRoom
  description : Field descRoom
  deps : List LcnDependency
  room : deps.length ≤ maxDeps
  deriving DecidableEq

/-- `memset`. -/
def blankPackage : LcnPackage :=
  ⟨.blank _, .blank _, .blank _, [], Nat.zero_le _⟩

/-- A dependency of which only the name is set. -/
def blankDep (name : CString) : LcnDependency :=
  ⟨.copy _ name, .blank _, .registry, .blank _, .blank _, .blank _, false⟩

/-- One more, if there is room. -/
def LcnPackage.push (pkg : LcnPackage) (dep : LcnDependency) : LcnPackage :=
  if h : pkg.deps.length < maxDeps then
    { pkg with
      deps := pkg.deps ++ [dep]
      room := by
        rw [List.length_append]
        exact h }
  else pkg

/-! ## The reader -/

inductive TomlSection where
  | none
  | package
  | deps
  | devDeps
  | unknown
  deriving DecidableEq

def isBlank (c : Char) : Bool := c = ' ' || c = '\t'

def skipWs (s : CString) : CString := s.dropWhile isBlank

def skipLine (s : CString) : CString := (s.dropWhile (· ≠ '\n')).tail

/-- What stands for `\` and this character. -/
def unescape (c : Char) : Char :=
  if c = 'n' then '\n' else if c = 't' then '\t' else c

def skipChar (c : Char) : CString → CString
  | [] => []
  | d :: s => if d = c then s else d :: s

/-- The loop of `parse_quoted_string`: the text, and what is left. -/
def quotedText : ℕ → CString → CString × CString
  | 0, s => ([], s)
  | _ + 1, [] => ([], [])
  | _ + 1, [c] => if c = '"' ∨ c = '\n' then ([], [c]) else ([c], [])
  | room + 1, c :: d :: s =>
      if c = '"' ∨ c = '\n' then ([], c :: d :: s)
      else if c = '\\' then (unescape d :: (quotedText room s).1, (quotedText room s).2)
      else (c :: (quotedText room (d :: s)).1, (quotedText room (d :: s)).2)

/-- A string between quotes, or up to the end of the line. -/
def parseQuotedString (room : ℕ) : CString → Option (CString × CString)
  | [] => none
  | c :: s =>
      if c = '"' then some ((quotedText room s).1, skipChar '"' (quotedText room s).2) else none

def isKeyChar (c : Char) : Bool := c.isAlphanum || c = '-' || c = '_'

def parseBareKey (room : ℕ) (s : CString) : Option (CString × CString) :=
  let key := (s.take room).takeWhile isKeyChar
  if key = [] then none else some (key, s.drop key.length)

/-- What a key of a table on one line sets. -/
def LcnDependency.assign (dep : LcnDependency) (key val : CString) : LcnDependency :=
  if key = "path".toList then { dep with kind := .path, path := .copy _ val }
  else if key = "git".toList then { dep with kind := .git, gitUrl := .copy _ val }
  else if key = "rev".toList ∨ key = "tag".toList ∨ key = "branch".toList then
    { dep with gitRev := .copy _ val }
  else if key = "version".toList then { dep with version := .copy _ val }
  else dep

/-- Behind a key of a table on one line.  Where it breaks off, nothing is set. -/
def inlineValue (dep : LcnDependency) (key s : CString) : CString ⊕ (LcnDependency × CString) :=
  if s.head? = some '=' then
    match parseQuotedString pathRoom (skipWs s.tail) with
    | none => .inl (skipWs s.tail)
    | some (val, t) => .inr (dep.assign key val, skipChar ',' (skipWs t))
  else .inl s

/-- Behind the blanks. -/
def inlineEntry (dep : LcnDependency) (s : CString) : CString ⊕ (LcnDependency × CString) :=
  if s.head? = some '\x7d' ∨ s.head? = some '\n' then .inl s
  else
    match parseBareKey 63 s with
    | none => .inl s
    | some (key, t) => inlineValue dep key (skipWs t)

/-- A turn of the loop of `parse_inline_dep`. -/
def inlineTurn (dep : LcnDependency) (s : CString) : CString ⊕ (LcnDependency × CString) :=
  inlineEntry dep (skipWs s)

/-- A word that ends where it ends, and not where the room does. -/
theorem takeWhile_take_append {p : Char → Bool} {w : CString} (h : ∀ c ∈ w, p c = true) {room : ℕ}
    (hroom : w.length ≤ room) {c : Char} (hc : p c = false) (s : CString) :
    ((w ++ c :: s).take room).takeWhile p = w := by
  rw [List.take_append, List.take_of_length_le hroom]
  cases room - w.length with
  | zero => rw [List.take_zero, List.append_nil, List.takeWhile_eq_self_iff.2 h]
  | succ n =>
      rw [List.take_succ_cons, List.takeWhile_append_of_pos h,
        List.takeWhile_cons_of_neg (by simp [hc]), List.append_nil]

theorem skipLine_newline (s : CString) : skipLine ('\n' :: s) = s := rfl

theorem skipLine_append {t : CString} (h : ∀ c ∈ t, c ≠ '\n') (s : CString) :
    skipLine (t ++ '\n' :: s) = s := by
  have hdrop : (t ++ '\n' :: s).dropWhile (· ≠ '\n') = '\n' :: s := by
    rw [List.dropWhile_append_of_pos fun c hc => decide_eq_true (h c hc),
      List.dropWhile_cons_of_neg (by decide)]
  rw [skipLine, hdrop, List.tail_cons]

/-! ### What is left gets shorter -/

theorem skipWs_length_le (s : CString) : (skipWs s).length ≤ s.length :=
  (List.dropWhile_suffix _).length_le

theorem skipChar_length_le (c : Char) (s : CString) : (skipChar c s).length ≤ s.length := by
  rcases s with _ | ⟨d, s⟩
  · exact Nat.le_refl _
  · rw [skipChar]
    split
    · exact Nat.le_succ _
    · exact Nat.le_refl _

theorem quotedText_length_le (room : ℕ) (s : CString) :
    (quotedText room s).2.length ≤ s.length := by
  induction room, s using quotedText.induct with
  | case1 s => exact Nat.le_refl _
  | case2 room => exact Nat.le_refl _
  | case3 room c h =>
      rw [quotedText, if_pos h]
  | case4 room c h =>
      rw [quotedText, if_neg h]
      exact Nat.zero_le _
  | case5 room c d s h =>
      rw [quotedText, if_pos h]
  | case6 room d s h ih =>
      rw [quotedText, if_neg h, if_pos rfl]
      exact Nat.le_succ_of_le (Nat.le_succ_of_le ih)
  | case7 room c d s h hescape ih =>
      rw [quotedText, if_neg h, if_neg hescape]
      exact Nat.le_succ_of_le ih

theorem parseQuotedString_length_le {room : ℕ} {s val t : CString}
    (h : parseQuotedString room s = some (val, t)) : t.length ≤ s.length := by
  rcases s with _ | ⟨c, s⟩
  · cases h
  · rw [parseQuotedString] at h
    split at h
    · cases h
      exact Nat.le_trans (skipChar_length_le _ _) (Nat.le_succ_of_le (quotedText_length_le _ _))
    · cases h

theorem parseBareKey_eq_some {room : ℕ} {s key t : CString}
    (h : parseBareKey room s = some (key, t)) :
    key ≠ [] ∧ (∀ c ∈ key, isKeyChar c = true) ∧ key.length ≤ room ∧ s = key ++ t := by
  rw [parseBareKey] at h
  split at h
  · cases h
  · rename_i hkey
    cases h
    have hprefix : (s.take room).takeWhile isKeyChar <+: s :=
      (List.takeWhile_prefix _).trans (List.take_prefix _ _)
    refine ⟨hkey, fun c hc => List.mem_takeWhile_imp hc, ?_, ?_⟩
    · exact Nat.le_trans (List.takeWhile_prefix _).length_le (List.length_take_le _ _)
    · exact (List.prefix_iff_eq_append.1 hprefix).symm

theorem parseBareKey_length_lt {room : ℕ} {s key t : CString}
    (h : parseBareKey room s = some (key, t)) : t.length < s.length := by
  obtain ⟨hkey, -, -, rfl⟩ := parseBareKey_eq_some h
  rw [List.length_append]
  exact Nat.lt_add_of_pos_left (List.length_pos_iff.2 hkey)

theorem tail_length_le (s : CString) : s.tail.length ≤ s.length := by
  rw [List.length_tail]
  exact Nat.sub_le _ _

/-- Where it stands behind a turn. -/
def leftOf (r : CString ⊕ (LcnDependency × CString)) : CString := r.elim id Prod.snd

theorem inlineValue_length_le (dep : LcnDependency) (key s : CString) :
    (leftOf (inlineValue dep key s)).length ≤ s.length := by
  have hbehind : (skipWs s.tail).length ≤ s.length :=
    Nat.le_trans (skipWs_length_le _) (tail_length_le _)
  rw [inlineValue]
  split
  · split
    · exact hbehind
    · rename_i val t hval
      have ht := parseQuotedString_length_le hval
      have hcomma : (skipChar ',' (skipWs t)).length ≤ t.length :=
        Nat.le_trans (skipChar_length_le _ _) (skipWs_length_le _)
      exact Nat.le_trans hcomma (Nat.le_trans ht hbehind)
  · exact Nat.le_refl _

theorem inlineEntry_length_le (dep : LcnDependency) (s : CString) :
    (leftOf (inlineEntry dep s)).length ≤ s.length := by
  rw [inlineEntry]
  split
  · exact Nat.le_refl _
  · split
    · exact Nat.le_refl _
    · rename_i key t hkey
      exact Nat.le_trans (inlineValue_length_le _ _ _)
        (Nat.le_trans (skipWs_length_le _) (Nat.le_of_lt (parseBareKey_length_lt hkey)))

theorem inlineTurn_length_lt {dep dep' : LcnDependency} {s t : CString}
    (h : inlineTurn dep s = .inr (dep', t)) : t.length < s.length := by
  rw [inlineTurn, inlineEntry] at h
  split at h
  · cases h
  · split at h
    · cases h
    · rename_i key u hkey
      have hvalue := inlineValue_length_le dep key (skipWs u)
      rw [h] at hvalue
      calc
        t.length ≤ (skipWs u).length := hvalue
        _ ≤ u.length := skipWs_length_le u
        _ < (skipWs s).length := parseBareKey_length_lt hkey
        _ ≤ s.length := skipWs_length_le s

/-! ### Lines and tables -/

def atEnd (s : CString) : Bool := s = [] ∨ s.head? = some '\x7d'

/-- The loop of `parse_inline_dep`. -/
def inlineLoop (dep : LcnDependency) (s : CString) : LcnDependency × CString :=
  if atEnd s then (dep, s)
  else
    match _h : inlineTurn dep s with
    | .inl t => (dep, t)
    | .inr (dep, t) => inlineLoop dep t
termination_by s.length
decreasing_by exact inlineTurn_length_lt _h

/-- Behind the opening brace. -/
def parseInlineDep (dep : LcnDependency) (s : CString) : LcnDependency × CString :=
  ((inlineLoop { dep with kind := .registry } s).1,
    skipChar '\x7d' (inlineLoop { dep with kind := .registry } s).2)

/-- A value of `[package]`. -/
def packageValue (s : CString) : CString × CString :=
  match parseQuotedString descRoom s with
  | some r => r
  | none =>
      let val := (s.take descRoom).takeWhile fun c => c ≠ '\n' ∧ c ≠ '#'
      ((val.reverse.dropWhile isBlank).reverse, s.drop val.length)

/-- What a key of `[package]` sets. -/
def LcnPackage.assign (pkg : LcnPackage) (key val : CString) : LcnPackage :=
  if key = "name".toList then { pkg with name := .copy _ val }
  else if key = "version".toList then { pkg with version := .copy _ val }
  else if key = "description".toList then { pkg with description := .copy _ val }
  else pkg

/-- A value of `[dependencies]`. -/
def depValue (dep : LcnDependency) (s : CString) : LcnDependency × CString :=
  match parseQuotedString versionRoom s with
  | some (ver, s) => ({ dep with version := .copy _ ver }, s)
  | none => if s.head? = some '\x7b' then parseInlineDep dep s.tail else (dep, s)

/-- What is read so far, and the table that the next line belongs to. -/
structure Reading where
  table : TomlSection
  pkg : LcnPackage

/-- The value behind a key and `=`. -/
def Reading.value (r : Reading) (key s : CString) : Reading × CString :=
  match r.table with
  | .package =>
      ({ r with pkg := r.pkg.assign key (packageValue s).1 }, (packageValue s).2)
  | .deps | .devDeps =>
      if maxDeps ≤ r.pkg.deps.length then (r, s)
      else
        let dep := depValue { blankDep key with isDev := r.table = .devDeps } s
        ({ r with pkg := r.pkg.push dep.1 }, dep.2)
  | .none | .unknown => (r, s)

def trimSpaces (s : CString) : CString :=
  ((s.dropWhile (· = ' ')).reverse.dropWhile (· = ' ')).reverse

def tableOf (name : CString) : TomlSection :=
  if name = "package".toList then .package
  else if name = "dependencies".toList then .deps
  else if name = "dev-dependencies".toList then .devDeps
  else .unknown

def titleAt (s : CString) : CString := (s.take nameRoom).takeWhile fun c => c ≠ ']' ∧ c ≠ '\n'

/-- Behind a bracket at the start of a line. -/
def Reading.header (r : Reading) (s : CString) : Reading × CString :=
  if s.head? = some '[' then ({ r with table := .unknown }, skipLine s)
  else
    ({ r with table := tableOf (trimSpaces (titleAt s)) },
      skipLine (skipChar ']' (s.drop (titleAt s).length)))

/-- Behind a key. -/
def Reading.set (r : Reading) (key s : CString) : Reading × CString :=
  if s.head? = some '=' then
    ((r.value key (skipWs s.tail)).1, skipLine (r.value key (skipWs s.tail)).2)
  else (r, skipLine s)

def Reading.keyLine (r : Reading) (s : CString) : Reading × CString :=
  match parseBareKey nameRoom s with
  | none => (r, skipLine s)
  | some (key, t) => r.set key (skipWs t)

/-- A turn of the loop of `lcn_package_parse`, behind the blanks. -/
def Reading.turn (r : Reading) : CString → Reading × CString
  | [] => (r, [])
  | c :: s =>
      if c = '\n' then (r, s)
      else if c = '#' then (r, skipLine (c :: s))
      else if c = '[' then r.header s
      else r.keyLine (c :: s)

theorem skipLine_length_le (s : CString) : (skipLine s).length ≤ s.length :=
  Nat.le_trans (tail_length_le _) (List.dropWhile_suffix _).length_le

theorem skipLine_length_lt {s : CString} (h : s ≠ []) : (skipLine s).length < s.length := by
  have hdrop : (s.dropWhile (· ≠ '\n')).length ≤ s.length := (List.dropWhile_suffix _).length_le
  have hpos := List.length_pos_iff.2 h
  rw [skipLine, List.length_tail]
  omega

theorem inlineLoop_done {dep : LcnDependency} {s : CString} (h : atEnd s) :
    inlineLoop dep s = (dep, s) := by
  rw [inlineLoop]
  exact if_pos h

theorem inlineLoop_breaks {dep : LcnDependency} {s t : CString} (hs : ¬ atEnd s)
    (h : inlineTurn dep s = .inl t) : inlineLoop dep s = (dep, t) := by
  rw [inlineLoop, if_neg hs]
  split
  · rename_i u hu
    rw [hu] at h
    cases h
    rfl
  · rename_i dep' u hu
    rw [hu] at h
    cases h

theorem inlineLoop_goesOn {dep dep' : LcnDependency} {s t : CString} (hs : ¬ atEnd s)
    (h : inlineTurn dep s = .inr (dep', t)) : inlineLoop dep s = inlineLoop dep' t := by
  rw [inlineLoop, if_neg hs]
  split
  · rename_i u hu
    rw [hu] at h
    cases h
  · rename_i dep' u hu
    rw [hu] at h
    cases h
    rfl

theorem inlineLoop_length_le (dep : LcnDependency) (s : CString) :
    (inlineLoop dep s).2.length ≤ s.length := by
  induction dep, s using inlineLoop.induct with
  | case1 dep s h =>
      rw [inlineLoop_done h]
  | case2 dep s h t hturn =>
      have hleft := inlineEntry_length_le dep (skipWs s)
      rw [inlineLoop_breaks h hturn]
      rw [inlineTurn] at hturn
      rw [hturn] at hleft
      exact Nat.le_trans hleft (skipWs_length_le s)
  | case3 dep s h dep' t hturn ih =>
      rw [inlineLoop_goesOn h hturn]
      exact Nat.le_trans ih (Nat.le_of_lt (inlineTurn_length_lt hturn))

theorem packageValue_length_le (s : CString) : (packageValue s).2.length ≤ s.length := by
  rw [packageValue]
  split
  · rename_i r h
    exact parseQuotedString_length_le h
  · rw [List.length_drop]
    exact Nat.sub_le _ _

theorem depValue_length_le (dep : LcnDependency) (s : CString) :
    (depValue dep s).2.length ≤ s.length := by
  rw [depValue]
  split
  · rename_i ver t h
    exact parseQuotedString_length_le h
  · split
    · exact Nat.le_trans (skipChar_length_le _ _)
        (Nat.le_trans (inlineLoop_length_le _ _) (tail_length_le _))
    · exact Nat.le_refl _

theorem Reading.value_length_le (r : Reading) (key s : CString) :
    (r.value key s).2.length ≤ s.length := by
  rw [value]
  split
  · exact packageValue_length_le s
  · split
    · exact Nat.le_refl _
    · exact depValue_length_le _ s
  · split
    · exact Nat.le_refl _
    · exact depValue_length_le _ s
  · exact Nat.le_refl _
  · exact Nat.le_refl _

theorem Reading.set_length_le (r : Reading) (key s : CString) :
    (r.set key s).2.length ≤ s.length := by
  rw [set]
  split
  · exact Nat.le_trans (skipLine_length_le _) (Nat.le_trans (r.value_length_le _ _)
      (Nat.le_trans (skipWs_length_le _) (tail_length_le _)))
  · exact skipLine_length_le s

theorem Reading.header_length_le (r : Reading) (s : CString) :
    (r.header s).2.length ≤ s.length := by
  rw [header]
  split
  · exact skipLine_length_le s
  · refine Nat.le_trans (skipLine_length_le _) (Nat.le_trans (skipChar_length_le _ _) ?_)
    rw [List.length_drop]
    exact Nat.sub_le _ _

/-- Each turn reads on. -/
theorem Reading.turn_length_lt (r : Reading) {s : CString} (h : s ≠ []) :
    (r.turn s).2.length < s.length := by
  rcases s with _ | ⟨c, s⟩
  · exact absurd rfl h
  · rw [turn]
    split
    · exact Nat.lt_succ_self _
    · split
      · exact skipLine_length_lt h
      · split
        · exact Nat.lt_succ_of_le (r.header_length_le s)
        · rw [keyLine]
          split
          · exact skipLine_length_lt h
          · rename_i key t hkey
            exact Nat.lt_of_le_of_lt (r.set_length_le key (skipWs t))
              (Nat.lt_of_le_of_lt (skipWs_length_le t) (parseBareKey_length_lt hkey))

/-! ### The whole text -/

/-- The loop of `lcn_package_parse`. -/
def Reading.loop (r : Reading) (s : CString) : Reading :=
  if _h : skipWs s = [] then r
  else (r.turn (skipWs s)).1.loop (r.turn (skipWs s)).2
termination_by s.length
decreasing_by exact Nat.lt_of_lt_of_le (r.turn_length_lt _h) (skipWs_length_le s)

def lcnPackageParse (toml : CString) : Option LcnPackage :=
  let pkg := (Reading.loop ⟨.none, blankPackage⟩ toml).pkg
  if pkg.name.text = [] then none else some pkg

/-! ## The writer -/

def quoted (s : CString) : CString := '"' :: (s ++ ['"'])

/-- What is written of a dependency, by its kind. -/
def LcnDependency.valueText (dep : LcnDependency) : CString :=
  match dep.kind with
  | .registry => quoted dep.version.text
  | .path => "\x7b path = ".toList ++ quoted dep.path.text ++ " \x7d".toList
  | .git =>
      if dep.gitRev.text = [] then
        "\x7b git = ".toList ++ quoted dep.gitUrl.text ++ " \x7d".toList
      else
        "\x7b git = ".toList ++ quoted dep.gitUrl.text ++ ", rev = ".toList ++
          quoted dep.gitRev.text ++ " \x7d".toList

def lineText (key value : CString) : CString := key ++ " = ".toList ++ value ++ ['\n']

/-- A table, if there is something for it. -/
def tableText (title : CString) (deps : List LcnDependency) : CString :=
  if deps = [] then []
  else '\n' :: '[' :: (title ++ "]\n".toList) ++
    deps.flatMap fun dep => lineText dep.name.text dep.valueText

/-- The table of the package. -/
def headText (pkg : LcnPackage) : CString :=
  "[package]\n".toList ++ lineText "name".toList (quoted pkg.name.text) ++
    lineText "version".toList (quoted pkg.version.text) ++
    if pkg.description.text = [] then []
    else lineText "description".toList (quoted pkg.description.text)

def lcnPackageSerialize (pkg : LcnPackage) : CString :=
  headText pkg ++ tableText "dependencies".toList (pkg.deps.filter (!·.isDev)) ++
    tableText "dev-dependencies".toList (pkg.deps.filter (·.isDev))

/-! ## Dependencies that come and go -/

/-- What is set of a dependency, old or new. -/
def LcnDependency.set (dep : LcnDependency) (version : Option CString) (kind : LcnDepKind)
    (pathOrUrl : Option CString) (isDev : Bool) : LcnDependency :=
  { dep with
    version := version.elim dep.version (.copy _)
    kind := kind
    isDev := isDev
    path := if kind = .path then pathOrUrl.elim dep.path (.copy _) else dep.path
    gitUrl := if kind = .git then pathOrUrl.elim dep.gitUrl (.copy _) else dep.gitUrl }

/-- The first one of a name is changed. -/
def changeFirst (name : CString) (f : LcnDependency → LcnDependency) :
    List LcnDependency → List LcnDependency
  | [] => []
  | dep :: deps =>
      if dep.name.text = name then f dep :: deps else dep :: changeFirst name f deps

@[simp] theorem length_changeFirst (name : CString) (f : LcnDependency → LcnDependency)
    (deps : List LcnDependency) : (changeFirst name f deps).length = deps.length := by
  induction deps with
  | nil => rfl
  | cons dep deps ih =>
      rw [changeFirst]
      split
      · rfl
      · rw [List.length_cons, ih, List.length_cons]

/-- Whether it is there now, and the package. -/
def lcnPackageAddDep (pkg : LcnPackage) (name : CString) (version : Option CString)
    (kind : LcnDepKind) (pathOrUrl : Option CString) (isDev : Bool) : Bool × LcnPackage :=
  if maxDeps ≤ pkg.deps.length then (false, pkg)
  else if ∃ dep ∈ pkg.deps, dep.name.text = name then
    (true,
      { pkg with
        deps := changeFirst name (·.set version kind pathOrUrl isDev) pkg.deps
        room := by
          rw [length_changeFirst]
          exact pkg.room })
  else (true, pkg.push ((blankDep name).set version kind pathOrUrl isDev))

/-- Whether it was there, and the package. -/
def lcnPackageRemoveDep (pkg : LcnPackage) (name : CString) : Bool × LcnPackage :=
  if ∃ dep ∈ pkg.deps, dep.name.text = name then
    (true,
      { pkg with
        deps := pkg.deps.eraseP fun dep => dep.name.text = name
        room := Nat.le_trans List.eraseP_sublist.length_le pkg.room })
  else (false, pkg)

end Limceron.Package
