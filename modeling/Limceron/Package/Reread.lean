/-
# `Limceron.Package.Reread` — what is written of a manifest is read

`src/package.c`.  The writer puts strings down as they are, the reader takes `\` for the start
of an escape, and `"` and the end of the line for the end of the string.  What has none of the
three comes back (`Plain`); of a dependency what its kind has comes back (`written`), and the
dependencies for development stand at the end (`ordered`).
-/
import Limceron.Package.Manifest

namespace Limceron.Package

open Caps (CString)

/-! ## Strings that are read as they are written -/

/-- Nothing in it ends a string or begins an escape. -/
def Plain (s : CString) : Prop := ∀ c ∈ s, c ≠ '"' ∧ c ≠ '\\' ∧ c ≠ '\n'

instance (s : CString) : Decidable (Plain s) := List.decidableBAll _ s

/-- A key without quotes. -/
def IsBare (s : CString) : Prop := s ≠ [] ∧ ∀ c ∈ s, isKeyChar c = true

instance (s : CString) : Decidable (IsBare s) :=
  @instDecidableAnd _ _ inferInstance (List.decidableBAll _ s)

theorem Plain.nil : Plain [] := List.forall_mem_nil _

theorem Plain.tail {c : Char} {s : CString} (h : Plain (c :: s)) : Plain s :=
  fun d hd => h d (List.mem_cons_of_mem c hd)

theorem quotedText_plain {t : CString} (h : Plain t) {room : ℕ} (hroom : t.length ≤ room)
    (s : CString) : quotedText room (t ++ '"' :: s) = (t, '"' :: s) := by
  induction t generalizing room with
  | nil =>
      cases room with
      | zero => rfl
      | succ room =>
          rcases s with _ | ⟨d, s⟩
          · exact if_pos (.inl rfl)
          · exact if_pos (.inl rfl)
  | cons c t ih =>
      cases room with
      | zero => exact absurd hroom (Nat.not_succ_le_zero _)
      | succ room =>
          obtain ⟨hquote, hescape, hline⟩ := h c List.mem_cons_self
          obtain ⟨d, u, hu⟩ : ∃ d u, t ++ '"' :: s = d :: u := by
            rcases t with _ | ⟨d, t⟩
            · exact ⟨_, _, rfl⟩
            · exact ⟨_, _, rfl⟩
          have hrest : quotedText room (d :: u) = (t, '"' :: s) := by
            rw [← hu]
            exact ih h.tail (Nat.le_of_succ_le_succ hroom)
          rw [List.cons_append, hu, quotedText, if_neg (not_or.2 ⟨hquote, hline⟩),
            if_neg hescape, hrest]

theorem parseQuotedString_quoted {t : CString} (h : Plain t) {room : ℕ} (hroom : t.length ≤ room)
    (s : CString) : parseQuotedString room (quoted t ++ s) = some (t, s) := by
  have htext : quoted t ++ s = '"' :: (t ++ '"' :: s) := by simp [quoted]
  rw [htext, parseQuotedString, if_pos rfl, quotedText_plain h hroom, skipChar, if_pos rfl]

theorem parseBareKey_bare {key : CString} (h : IsBare key) {room : ℕ} (hroom : key.length ≤ room)
    {c : Char} (hc : isKeyChar c = false) (s : CString) :
    parseBareKey room (key ++ c :: s) = some (key, c :: s) := by
  rw [parseBareKey, takeWhile_take_append h.2 hroom hc, if_neg h.1, List.drop_left]

theorem skipWs_of_not_blank {c : Char} (hc : isBlank c = false) (s : CString) :
    skipWs (c :: s) = c :: s := List.dropWhile_cons_of_neg (by simp [hc])

theorem skipWs_space (s : CString) : skipWs (' ' :: s) = skipWs s :=
  List.dropWhile_cons_of_pos rfl

theorem isKeyChar_not {c : Char} (h : isKeyChar c = true) :
    isBlank c = false ∧ c ≠ '\n' ∧ c ≠ '#' ∧ c ≠ '[' ∧ c ≠ ']' ∧ c ≠ ' ' ∧ c ≠ '\x7d' := by
  refine ⟨?_, ?_, ?_, ?_, ?_, ?_, ?_⟩
  · rw [isBlank, Bool.or_eq_false_iff, decide_eq_false_iff_not, decide_eq_false_iff_not]
    constructor
    · rintro rfl
      cases h
    · rintro rfl
      cases h
  all_goals
    rintro rfl
    cases h

theorem skipWs_bare {key : CString} (h : IsBare key) (s : CString) :
    skipWs (key ++ s) = key ++ s := by
  obtain ⟨hne, hkey⟩ := h
  rcases key with _ | ⟨c, key⟩
  · exact absurd rfl hne
  · exact skipWs_of_not_blank (isKeyChar_not (hkey c List.mem_cons_self)).1 _

theorem skipWs_quoted (t s : CString) : skipWs (quoted t ++ s) = quoted t ++ s :=
  skipWs_of_not_blank rfl _

/-! ## Tables on one line -/

/-- `key = "val"`. -/
def entryText (key val : CString) : CString := key ++ " = ".toList ++ quoted val

theorem equals_toList (s : CString) : " = ".toList ++ s = ' ' :: '=' :: ' ' :: s := rfl

theorem inlineTurn_entry {key val : CString} (hkey : IsBare key) (hroom : key.length ≤ 63)
    (hval : Plain val) (hlength : val.length ≤ pathRoom) (dep : LcnDependency) (s : CString) :
    inlineTurn dep (' ' :: (entryText key val ++ s)) =
      .inr (dep.assign key val, skipChar ',' (skipWs s)) := by
  have htext : entryText key val ++ s = key ++ ' ' :: '=' :: ' ' :: (quoted val ++ s) := by
    simp [entryText]
  have hhead : ¬ ((key ++ ' ' :: '=' :: ' ' :: (quoted val ++ s)).head? = some '\x7d' ∨
      (key ++ ' ' :: '=' :: ' ' :: (quoted val ++ s)).head? = some '\n') := by
    obtain ⟨hne, hchars⟩ := hkey
    rcases key with _ | ⟨c, key⟩
    · exact absurd rfl hne
    · obtain ⟨-, hline, -, -, -, -, hbrace⟩ := isKeyChar_not (hchars c List.mem_cons_self)
      rw [List.cons_append, List.head?_cons, Option.some.injEq, Option.some.injEq]
      exact not_or.2 ⟨hbrace, hline⟩
  rw [inlineTurn, skipWs_space, htext, skipWs_bare hkey, inlineEntry, if_neg hhead,
    parseBareKey_bare hkey hroom rfl]
  have hequals : skipWs (' ' :: '=' :: ' ' :: (quoted val ++ s)) =
      '=' :: ' ' :: (quoted val ++ s) := rfl
  have hvalue : skipWs (' ' :: (quoted val ++ s)) = quoted val ++ s := by
    rw [skipWs_space, skipWs_quoted]
  simp only [hequals, inlineValue, List.head?_cons, if_true, List.tail_cons, hvalue,
    parseQuotedString_quoted hval hlength]

theorem inlineLoop_more {key val : CString} (hkey : IsBare key) (hroom : key.length ≤ 63)
    (hval : Plain val) (hlength : val.length ≤ pathRoom) (dep : LcnDependency) (s : CString) :
    inlineLoop dep (' ' :: (entryText key val ++ ',' :: s)) =
      inlineLoop (dep.assign key val) s := by
  have hturn := inlineTurn_entry hkey hroom hval hlength dep (',' :: s)
  rw [skipWs_of_not_blank rfl, skipChar, if_pos rfl] at hturn
  exact inlineLoop_goesOn (by simp [atEnd]) hturn

theorem inlineLoop_last {key val : CString} (hkey : IsBare key) (hroom : key.length ≤ 63)
    (hval : Plain val) (hlength : val.length ≤ pathRoom) (dep : LcnDependency) (s : CString) :
    inlineLoop dep (' ' :: (entryText key val ++ ' ' :: '\x7d' :: s)) =
      (dep.assign key val, '\x7d' :: s) := by
  have hturn := inlineTurn_entry hkey hroom hval hlength dep (' ' :: '\x7d' :: s)
  rw [skipWs_space, skipWs_of_not_blank rfl, skipChar, if_neg (by decide)] at hturn
  rw [inlineLoop_goesOn (by simp [atEnd]) hturn]
  exact inlineLoop_done (by simp [atEnd])

/-! ## Dependencies -/

/-- What is left of a dependency when it is written. -/
def LcnDependency.written (dep : LcnDependency) : LcnDependency :=
  match dep.kind with
  | .registry => { dep with path := .blank _, gitUrl := .blank _, gitRev := .blank _ }
  | .path => { dep with version := .blank _, gitUrl := .blank _, gitRev := .blank _ }
  | .git => { dep with version := .blank _, path := .blank _ }

/-- A dependency that comes back. -/
structure LcnDependency.Sound (dep : LcnDependency) : Prop where
  version : Plain dep.version.text
  path : Plain dep.path.text
  gitUrl : Plain dep.gitUrl.text
  gitRev : Plain dep.gitRev.text
  written : dep.written = dep

theorem bare_path : IsBare "path".toList := by decide

theorem bare_git : IsBare "git".toList := by decide

theorem bare_rev : IsBare "rev".toList := by decide

/-- `\x7b key = "val" … \x7d`. -/
def inlineText (entries : CString) : CString := '\x7b' :: ' ' :: (entries ++ [' ', '\x7d'])

theorem valueText_path {dep : LcnDependency} (h : dep.kind = .path) :
    dep.valueText = inlineText (entryText "path".toList dep.path.text) := by
  rw [LcnDependency.valueText, h]
  simp [inlineText, entryText]

theorem valueText_git {dep : LcnDependency} (h : dep.kind = .git) (hrev : dep.gitRev.text = []) :
    dep.valueText = inlineText (entryText "git".toList dep.gitUrl.text) := by
  rw [LcnDependency.valueText, h]
  simp [inlineText, entryText, hrev]

theorem valueText_git_rev {dep : LcnDependency} (h : dep.kind = .git)
    (hrev : dep.gitRev.text ≠ []) :
    dep.valueText = inlineText (entryText "git".toList dep.gitUrl.text ++ ',' :: ' ' ::
      entryText "rev".toList dep.gitRev.text) := by
  rw [LcnDependency.valueText, h]
  simp [inlineText, entryText, hrev]

/-- A table on one line is read by the loop. -/
theorem depValue_inline (dep : LcnDependency) (entries s : CString) :
    depValue dep (inlineText entries ++ s) =
      parseInlineDep dep (' ' :: (entries ++ ' ' :: '\x7d' :: s)) := by
  have htext : inlineText entries ++ s = '\x7b' :: ' ' :: (entries ++ ' ' :: '\x7d' :: s) := by
    simp [inlineText]
  rw [htext]
  rfl

/-- What is written of a dependency is read. -/
theorem depValue_valueText {dep : LcnDependency} (h : dep.Sound) (s : CString) :
    depValue { blankDep dep.name.text with isDev := dep.isDev } (dep.valueText ++ s) =
      (dep, s) := by
  obtain ⟨hversion, hpath, hurl, hrev, hwritten⟩ := h
  obtain ⟨name, version, kind, path, url, rev, isDev⟩ := dep
  cases kind with
  | registry =>
      rw [← hwritten]
      have hvalue := parseQuotedString_quoted hversion version.fits s
      simp only [LcnDependency.valueText, depValue, hvalue, LcnDependency.written, blankDep,
        Field.copy_text]
  | path =>
      rw [valueText_path rfl, depValue_inline, parseInlineDep,
        inlineLoop_last bare_path (by decide) hpath path.fits, ← hwritten, skipChar, if_pos rfl]
      simp only [LcnDependency.assign, if_true, LcnDependency.written, blankDep, Field.copy_text]
  | git =>
      by_cases hempty : rev.text = []
      · rw [valueText_git rfl hempty, depValue_inline, parseInlineDep,
          inlineLoop_last bare_git (by decide) hurl url.fits, ← hwritten, skipChar, if_pos rfl]
        simp only [LcnDependency.assign, LcnDependency.written, blankDep, Field.copy_text,
          Field.eq_blank hempty]
        rfl
      · have hroom : rev.text.length ≤ pathRoom := Nat.le_trans rev.fits (by decide)
        rw [valueText_git_rev rfl hempty, depValue_inline, parseInlineDep, List.append_assoc,
          List.cons_append, List.cons_append, inlineLoop_more bare_git (by decide) hurl url.fits,
          inlineLoop_last bare_rev (by decide) hrev hroom, ← hwritten, skipChar, if_pos rfl]
        simp only [LcnDependency.assign, LcnDependency.written, blankDep, Field.copy_text]
        rfl

/-! ## Lines -/

theorem Reading.loop_nil (r : Reading) : r.loop [] = r := by
  rw [loop]
  exact dif_pos rfl

theorem Reading.loop_turn (r : Reading) {c : Char} (hc : isBlank c = false) (s : CString) :
    r.loop (c :: s) = (r.turn (c :: s)).1.loop (r.turn (c :: s)).2 := by
  rw [loop]
  simp only [skipWs_of_not_blank hc, reduceCtorEq, dite_false]

theorem Reading.loop_newline (r : Reading) (s : CString) : r.loop ('\n' :: s) = r.loop s := by
  rw [loop_turn r rfl, turn, if_pos rfl]

/-- A key, `=` and a value that starts with no blank. -/
theorem Reading.loop_line (r : Reading) {key : CString} (hkey : IsBare key)
    (hroom : key.length ≤ nameRoom) {value s : CString}
    (hvalue : skipWs (value ++ '\n' :: s) = value ++ '\n' :: s) :
    r.loop (lineText key value ++ s) =
      (r.value key (value ++ '\n' :: s)).1.loop
        (skipLine (r.value key (value ++ '\n' :: s)).2) := by
  have htext : lineText key value ++ s = key ++ ' ' :: '=' :: ' ' :: (value ++ '\n' :: s) := by
    simp [lineText]
  have hline : r.keyLine (key ++ ' ' :: '=' :: ' ' :: (value ++ '\n' :: s)) =
      ((r.value key (value ++ '\n' :: s)).1,
        skipLine (r.value key (value ++ '\n' :: s)).2) := by
    have hequals : skipWs (' ' :: '=' :: ' ' :: (value ++ '\n' :: s)) =
        '=' :: ' ' :: (value ++ '\n' :: s) := rfl
    rw [keyLine, parseBareKey_bare hkey hroom rfl]
    simp only [hequals, set, List.head?_cons, if_true, List.tail_cons, skipWs_space, hvalue]
  rw [htext]
  obtain ⟨hne, hchars⟩ := hkey
  rcases key with _ | ⟨c, key⟩
  · exact absurd rfl hne
  · obtain ⟨hblank, hnewline, hcomment, hbracket, -⟩ := isKeyChar_not (hchars c List.mem_cons_self)
    rw [List.cons_append, loop_turn r hblank, turn, if_neg hnewline, if_neg hcomment,
      if_neg hbracket, ← List.cons_append, hline]

/-- `key = "val"` below `[package]`. -/
theorem Reading.loop_package (pkg : LcnPackage) {key val : CString} (hkey : IsBare key)
    (hroom : key.length ≤ nameRoom) (hval : Plain val) (hlength : val.length ≤ descRoom)
    (s : CString) :
    Reading.loop ⟨.package, pkg⟩ (lineText key (quoted val) ++ s) =
      Reading.loop ⟨.package, pkg.assign key val⟩ s := by
  rw [loop_line _ hkey hroom (skipWs_quoted _ _)]
  simp only [value, packageValue, parseQuotedString_quoted hval hlength, skipLine_newline]

theorem trimSpaces_bare {title : CString} (h : IsBare title) : trimSpaces title = title := by
  have hspace : ∀ c ∈ title, ¬ decide (c = ' ') = true := by
    intro c hc
    obtain ⟨-, -, -, -, -, hspace, -⟩ := isKeyChar_not (h.2 c hc)
    exact fun heq => hspace (of_decide_eq_true heq)
  have hdrop : ∀ s : CString, (∀ c ∈ s, ¬ decide (c = ' ') = true) →
      s.dropWhile (· = ' ') = s := by
    intro s hs
    rcases s with _ | ⟨c, s⟩
    · rfl
    · exact List.dropWhile_cons_of_neg (hs c List.mem_cons_self)
  rw [trimSpaces, hdrop title hspace, hdrop title.reverse, List.reverse_reverse]
  intro c hc
  exact hspace c (List.mem_reverse.1 hc)

theorem titleAt_bare {title : CString} (h : IsBare title) (hroom : title.length ≤ nameRoom)
    (s : CString) : titleAt (title ++ ']' :: s) = title := by
  have hin : ∀ c ∈ title, decide (c ≠ ']' ∧ c ≠ '\n') = true := by
    intro c hc
    obtain ⟨-, hline, -, -, hbracket, -⟩ := isKeyChar_not (h.2 c hc)
    exact decide_eq_true ⟨hbracket, hline⟩
  exact takeWhile_take_append hin hroom (by decide) s

/-- A line with the name of a table. -/
theorem Reading.loop_header (r : Reading) {title : CString} (h : IsBare title)
    (hroom : title.length ≤ nameRoom) (s : CString) :
    r.loop ('[' :: (title ++ "]\n".toList) ++ s) = Reading.loop ⟨tableOf title, r.pkg⟩ s := by
  have htext : '[' :: (title ++ "]\n".toList) ++ s = '[' :: (title ++ ']' :: '\n' :: s) := by simp
  have hhead : (title ++ ']' :: '\n' :: s).head? ≠ some '[' := by
    obtain ⟨hne, hchars⟩ := h
    rcases title with _ | ⟨c, title⟩
    · exact absurd rfl hne
    · obtain ⟨-, -, -, hbracket, -⟩ := isKeyChar_not (hchars c List.mem_cons_self)
      rw [List.cons_append, List.head?_cons]
      exact fun heq => hbracket (Option.some.inj heq)
  rw [htext, loop_turn r rfl, turn, if_neg (by decide), if_neg (by decide), if_pos rfl, header,
    if_neg hhead, titleAt_bare h hroom, List.drop_left, trimSpaces_bare h, skipChar, if_pos rfl,
    skipLine_newline]

/-! ## Tables of dependencies -/

/-- One after the other, as long as there is room. -/
def LcnPackage.pushAll (pkg : LcnPackage) (deps : List LcnDependency) : LcnPackage :=
  deps.foldl push pkg

/-- `new` is `old` with more dependencies at the end. -/
structure Extends (old : LcnPackage) (deps : List LcnDependency) (new : LcnPackage) : Prop where
  name : new.name = old.name
  version : new.version = old.version
  description : new.description = old.description
  deps : new.deps = old.deps ++ deps

theorem Extends.trans {old mid new : LcnPackage} {deps deps' : List LcnDependency}
    (h : Extends old deps mid) (h' : Extends mid deps' new) : Extends old (deps ++ deps') new where
  name := h'.name.trans h.name
  version := h'.version.trans h.version
  description := h'.description.trans h.description
  deps := by rw [h'.deps, h.deps, List.append_assoc]

theorem Extends.length_eq {old new : LcnPackage} {deps : List LcnDependency}
    (h : Extends old deps new) : new.deps.length = old.deps.length + deps.length := by
  rw [h.deps, List.length_append]

theorem LcnPackage.push_extends {pkg : LcnPackage} (h : pkg.deps.length < maxDeps)
    (dep : LcnDependency) : Extends pkg [dep] (pkg.push dep) := by
  rw [push, dif_pos h]
  exact ⟨rfl, rfl, rfl, rfl⟩

theorem LcnPackage.pushAll_extends {deps : List LcnDependency} {pkg : LcnPackage}
    (h : pkg.deps.length + deps.length ≤ maxDeps) : Extends pkg deps (pkg.pushAll deps) := by
  induction deps generalizing pkg with
  | nil => exact ⟨rfl, rfl, rfl, (List.append_nil _).symm⟩
  | cons dep deps ih =>
      rw [List.length_cons] at h
      have hlt : pkg.deps.length < maxDeps := by omega
      have hpush := pkg.push_extends hlt dep
      have hlength := hpush.length_eq
      rw [List.length_singleton] at hlength
      exact hpush.trans (ih (by omega))

/-- The table for a dependency. -/
def tableFor (isDev : Bool) : TomlSection := if isDev then .devDeps else .deps

theorem skipWs_valueText (dep : LcnDependency) (s : CString) :
    skipWs (dep.valueText ++ s) = dep.valueText ++ s := by
  rcases hkind : dep.kind
  · rw [LcnDependency.valueText, hkind]
    exact skipWs_quoted _ _
  · rw [valueText_path hkind]
    exact skipWs_of_not_blank rfl _
  · by_cases hrev : dep.gitRev.text = []
    · rw [valueText_git hkind hrev]
      exact skipWs_of_not_blank rfl _
    · rw [valueText_git_rev hkind hrev]
      exact skipWs_of_not_blank rfl _

theorem Reading.loop_dep {pkg : LcnPackage} (hroom : pkg.deps.length < maxDeps)
    {dep : LcnDependency} (hname : IsBare dep.name.text) (h : dep.Sound) (s : CString) :
    Reading.loop ⟨tableFor dep.isDev, pkg⟩ (lineText dep.name.text dep.valueText ++ s) =
      Reading.loop ⟨tableFor dep.isDev, pkg.push dep⟩ s := by
  have hvalue := depValue_valueText h ('\n' :: s)
  rw [loop_line _ hname dep.name.fits (skipWs_valueText dep _)]
  cases hdev : dep.isDev with
  | false =>
      rw [hdev] at hvalue
      simp only [tableFor, value, if_neg (Nat.not_le_of_lt hroom), Bool.false_eq_true, if_false,
        reduceCtorEq, decide_false, hvalue, skipLine_newline]
  | true =>
      rw [hdev] at hvalue
      simp only [tableFor, value, if_neg (Nat.not_le_of_lt hroom), if_true, decide_true, hvalue,
        skipLine_newline]

theorem Reading.loop_deps {isDev : Bool} {deps : List LcnDependency} {pkg : LcnPackage}
    (hroom : pkg.deps.length + deps.length ≤ maxDeps)
    (hdeps : ∀ dep ∈ deps, IsBare dep.name.text ∧ dep.Sound ∧ dep.isDev = isDev) (s : CString) :
    Reading.loop ⟨tableFor isDev, pkg⟩
        (deps.flatMap (fun dep => lineText dep.name.text dep.valueText) ++ s) =
      Reading.loop ⟨tableFor isDev, pkg.pushAll deps⟩ s := by
  induction deps generalizing pkg with
  | nil => rfl
  | cons dep deps ih =>
      rw [List.length_cons] at hroom
      have hlt : pkg.deps.length < maxDeps := by omega
      have hpush := (LcnPackage.push_extends hlt dep).length_eq
      rw [List.length_singleton] at hpush
      have hrest : (pkg.push dep).deps.length + deps.length ≤ maxDeps := by omega
      obtain ⟨hname, hsound, hdev⟩ := hdeps dep List.mem_cons_self
      rw [List.flatMap_cons, List.append_assoc, ← hdev, loop_dep hlt hname hsound, hdev,
        ih hrest fun d hd => hdeps d (List.mem_cons_of_mem _ hd)]
      rfl

theorem Reading.loop_table (r : Reading) (isDev : Bool) (title : CString) (htitle : IsBare title)
    (hlength : title.length ≤ nameRoom) (htable : tableOf title = tableFor isDev)
    {deps : List LcnDependency} (hroom : r.pkg.deps.length + deps.length ≤ maxDeps)
    (hdeps : ∀ dep ∈ deps, IsBare dep.name.text ∧ dep.Sound ∧ dep.isDev = isDev) (s : CString) :
    ∃ table, r.loop (tableText title deps ++ s) =
      Reading.loop ⟨table, r.pkg.pushAll deps⟩ s := by
  by_cases hempty : deps = []
  · refine ⟨r.table, ?_⟩
    rw [tableText, if_pos hempty, hempty]
    rfl
  · refine ⟨tableFor isDev, ?_⟩
    rw [tableText, if_neg hempty, List.append_assoc, List.cons_append, loop_newline,
      loop_header r htitle hlength, htable]
    exact loop_deps hroom hdeps s

/-! ## The package -/

/-- A package of which the reader knows the name and its dependencies by keys. -/
structure LcnPackage.Keyed (pkg : LcnPackage) : Prop where
  named : pkg.name.text ≠ []
  bare : ∀ dep ∈ pkg.deps, IsBare dep.name.text

/-- A package that comes back. -/
structure LcnPackage.Sound (pkg : LcnPackage) : Prop where
  name : Plain pkg.name.text
  version : Plain pkg.version.text
  description : Plain pkg.description.text
  deps : ∀ dep ∈ pkg.deps, dep.Sound
  distinct : (pkg.deps.map (·.name.text)).Nodup

theorem perm_ordered (deps : List LcnDependency) :
    (deps.filter (!·.isDev) ++ deps.filter (·.isDev)).Perm deps := by
  have h := List.filter_append_perm (fun dep : LcnDependency => !dep.isDev) deps
  simpa using h

/-- The package with the dependencies for development at the end. -/
def LcnPackage.ordered (pkg : LcnPackage) : LcnPackage :=
  { pkg with
    deps := pkg.deps.filter (!·.isDev) ++ pkg.deps.filter (·.isDev)
    room := by
      rw [(perm_ordered pkg.deps).length_eq]
      exact pkg.room }

theorem assign_name (pkg : LcnPackage) (val : CString) :
    pkg.assign "name".toList val = { pkg with name := .copy _ val } := if_pos rfl

theorem assign_version (pkg : LcnPackage) (val : CString) :
    pkg.assign "version".toList val = { pkg with version := .copy _ val } :=
  (if_neg (by decide)).trans (if_pos rfl)

theorem assign_description (pkg : LcnPackage) (val : CString) :
    pkg.assign "description".toList val = { pkg with description := .copy _ val } :=
  (if_neg (by decide)).trans ((if_neg (by decide)).trans (if_pos rfl))

theorem serialize_eq (pkg : LcnPackage) :
    lcnPackageSerialize pkg =
      headText pkg ++ tableText "dependencies".toList (pkg.deps.filter (!·.isDev)) ++
        tableText "dev-dependencies".toList (pkg.deps.filter (·.isDev)) := rfl

theorem loop_head {pkg : LcnPackage} (h : pkg.Sound) (s : CString) :
    Reading.loop ⟨.none, blankPackage⟩ (headText pkg ++ s) =
      Reading.loop ⟨.package, { pkg with deps := [], room := Nat.zero_le _ }⟩ s := by
  have hheader : "[package]\n".toList = '[' :: ("package".toList ++ "]\n".toList) := rfl
  have hname : pkg.name.text.length ≤ descRoom := Nat.le_trans pkg.name.fits (by decide)
  have hversion : pkg.version.text.length ≤ descRoom := Nat.le_trans pkg.version.fits (by decide)
  unfold headText
  rw [hheader, List.append_assoc, List.append_assoc, List.append_assoc,
    Reading.loop_header _ (by decide) (by decide),
    show tableOf "package".toList = .package from rfl,
    Reading.loop_package _ (by decide) (by decide) h.name hname,
    Reading.loop_package _ (by decide) (by decide) h.version hversion]
  rw [assign_name, assign_version]
  split
  · rename_i hempty
    rw [List.nil_append]
    simp only [Field.copy_text, blankPackage, Field.eq_blank hempty]
  · rw [Reading.loop_package _ (by decide) (by decide) h.description pkg.description.fits,
      assign_description]
    simp only [Field.copy_text, blankPackage]

/-- What is written is read. -/
theorem parse_serialize {pkg : LcnPackage} (hkeyed : pkg.Keyed) (h : pkg.Sound) :
    lcnPackageParse (lcnPackageSerialize pkg) = some pkg.ordered := by
  have hregular : ∀ dep ∈ pkg.deps.filter (!·.isDev),
      IsBare dep.name.text ∧ dep.Sound ∧ dep.isDev = false := by
    intro dep hdep
    obtain ⟨hmem, hflag⟩ := List.mem_filter.1 hdep
    exact ⟨hkeyed.bare dep hmem, h.deps dep hmem, by simpa using hflag⟩
  have hdev : ∀ dep ∈ pkg.deps.filter (·.isDev),
      IsBare dep.name.text ∧ dep.Sound ∧ dep.isDev = true := by
    intro dep hdep
    obtain ⟨hmem, hflag⟩ := List.mem_filter.1 hdep
    exact ⟨hkeyed.bare dep hmem, h.deps dep hmem, hflag⟩
  have hlength := (perm_ordered pkg.deps).length_eq
  have hroom := pkg.room
  rw [List.length_append] at hlength
  -- the tables are read into the package that the head leaves
  obtain ⟨start, hstart⟩ : ∃ start : LcnPackage,
      start = { pkg with deps := [], room := Nat.zero_le _ } := ⟨_, rfl⟩
  have hnone : start.deps = [] := by rw [hstart]
  have hroomRegular : start.deps.length + (pkg.deps.filter (!·.isDev)).length ≤ maxDeps := by
    rw [hnone, List.length_nil]
    omega
  have hextends := LcnPackage.pushAll_extends hroomRegular
  have hroomDev : (start.pushAll (pkg.deps.filter (!·.isDev))).deps.length +
      (pkg.deps.filter (·.isDev)).length ≤ maxDeps := by
    rw [hextends.length_eq, hnone, List.length_nil]
    omega
  have hall := hextends.trans (LcnPackage.pushAll_extends hroomDev)
  obtain ⟨table, hloop⟩ := Reading.loop_table ⟨.package, start⟩ false "dependencies".toList
    (by decide) (by decide) rfl hroomRegular hregular
    (tableText "dev-dependencies".toList (pkg.deps.filter (·.isDev)))
  obtain ⟨table', hloop'⟩ := Reading.loop_table
    ⟨table, start.pushAll (pkg.deps.filter (!·.isDev))⟩ true "dev-dependencies".toList
    (by decide) (by decide) rfl hroomDev hdev []
  rw [List.append_nil, Reading.loop_nil] at hloop'
  have hparse : (Reading.loop ⟨.none, blankPackage⟩ (lcnPackageSerialize pkg)).pkg =
      pkg.ordered := by
    rw [serialize_eq, List.append_assoc, loop_head h, ← hstart, hloop, hloop']
    ext1
    · exact hall.name.trans (by rw [hstart]; rfl)
    · exact hall.version.trans (by rw [hstart]; rfl)
    · exact hall.description.trans (by rw [hstart]; rfl)
    · rw [hall.deps, hnone]
      rfl
  rw [lcnPackageParse, hparse]
  exact if_neg hkeyed.named

end Limceron.Package
