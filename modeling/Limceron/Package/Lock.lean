/-
# `Limceron.Package.Lock` — the lock file

`src/package.c`.  A line of the lock file has the name, the version and the hash of a package,
with blanks between them; lines that start with `#` are comments.  The local path of a package
is not written, and the line of a package whose name starts with `#` is a comment when it is
read.
-/
import Limceron.Package.Manifest

namespace Limceron.Package

open Caps (CString)

/-! ## Entries -/

def maxLockEntries : ℕ := 128

abbrev hashRoom : ℕ := 64

structure LcnResolvedDep where
  name : Field nameRoom
  resolvedVersion : Field versionRoom
  path : Field pathRoom
  hash : Field hashRoom
  deriving DecidableEq

@[ext] structure LcnLockFile where
  entries : List LcnResolvedDep
  room : entries.length ≤ maxLockEntries
  deriving DecidableEq

/-- `memset`. -/
def blankLock : LcnLockFile := ⟨[], Nat.zero_le _⟩

/-! ## The reader -/

def isWordChar (c : Char) : Bool := !isBlank c && c ≠ '\n'

/-- What stands up to the next blank, as much as there is room for. -/
def wordAt (room : ℕ) (s : CString) : CString := (s.take room).takeWhile isWordChar

/-- Behind the word, and behind the blanks. -/
def behindWord (room : ℕ) (s : CString) : CString := skipWs (s.drop (wordAt room s).length)

/-- Behind the name and the version. -/
def hashAt (s : CString) : CString := behindWord versionRoom (behindWord nameRoom s)

/-- The line that starts here, with a name, a version and a hash. -/
def entryAt (s : CString) : LcnResolvedDep :=
  { name := .copy _ (wordAt nameRoom s)
    resolvedVersion := .copy _ (wordAt versionRoom (behindWord nameRoom s))
    path := .blank _
    hash := .copy _ (wordAt hashRoom (hashAt s)) }

/-- The next line: what is left behind the three of them is skipped. -/
def nextLine (s : CString) : CString :=
  skipLine ((hashAt s).drop (wordAt hashRoom (hashAt s)).length)

/-- One more, if it has a name. -/
def LcnLockFile.push (l : LcnLockFile) (e : LcnResolvedDep) : LcnLockFile :=
  if h : e.name.text ≠ [] ∧ l.entries.length < maxLockEntries then
    { entries := l.entries ++ [e]
      room := by
        rw [List.length_append]
        exact h.2 }
  else l

/-- Lines that are passed over. -/
def isComment (s : CString) : Bool := s.head? = some '#' || s.head? = some '\n'

theorem behindWord_length_le (room : ℕ) (s : CString) :
    (behindWord room s).length ≤ s.length := by
  refine Nat.le_trans (skipWs_length_le _) ?_
  rw [List.length_drop]
  exact Nat.sub_le _ _

theorem nextLine_length_le (s : CString) :
    (nextLine s).length ≤ (behindWord nameRoom s).length := by
  refine Nat.le_trans (skipLine_length_le _) (Nat.le_trans ?_ (behindWord_length_le versionRoom _))
  rw [List.length_drop]
  exact Nat.sub_le _ _

/-- Behind the blanks a line starts with a word or is passed over. -/
theorem isWordChar_of_skipWs {s t : CString} {c : Char} (h : skipWs s = c :: t)
    (hcomment : ¬ isComment (c :: t) = true) : isWordChar c = true := by
  have hblank : isBlank c = false := by
    have hhead := List.head?_dropWhile_not isBlank s
    rw [show s.dropWhile isBlank = c :: t from h] at hhead
    simpa using hhead
  have hline : c ≠ '\n' := by
    rintro rfl
    exact hcomment rfl
  simp [isWordChar, hblank, hline]

theorem nextLine_length_lt {s : CString} (hs : skipWs s ≠ [])
    (hcomment : ¬ isComment (skipWs s) = true) : (nextLine (skipWs s)).length < s.length := by
  obtain ⟨c, t, h⟩ := List.exists_cons_of_ne_nil hs
  rw [h] at hcomment
  have hword := isWordChar_of_skipWs h hcomment
  have hpos : 0 < (wordAt nameRoom (c :: t)).length := by
    rw [wordAt, List.take_succ_cons, List.takeWhile_cons_of_pos hword]
    exact Nat.succ_pos _
  have hdrop : (behindWord nameRoom (c :: t)).length ≤
      (c :: t).length - (wordAt nameRoom (c :: t)).length := by
    refine Nat.le_trans (skipWs_length_le _) ?_
    rw [List.length_drop]
  have hlength := skipWs_length_le s
  have hnext := nextLine_length_le (c :: t)
  rw [h] at hlength ⊢
  rw [List.length_cons] at *
  omega

/-- The loop of `lcn_lock_parse`. -/
def lockLoop (l : LcnLockFile) (s : CString) : LcnLockFile :=
  if _hs : skipWs s = [] then l
  else if _hcomment : isComment (skipWs s) = true then lockLoop l (skipLine (skipWs s))
  else if maxLockEntries ≤ l.entries.length then l
  else lockLoop (l.push (entryAt (skipWs s))) (nextLine (skipWs s))
termination_by s.length
decreasing_by
  · exact Nat.lt_of_lt_of_le (skipLine_length_lt _hs) (skipWs_length_le s)
  · exact nextLine_length_lt _hs _hcomment

def lcnLockParse (content : CString) : LcnLockFile := lockLoop blankLock content

/-! ## The writer -/

def LcnResolvedDep.line (e : LcnResolvedDep) : CString :=
  e.name.text ++ ' ' :: (e.resolvedVersion.text ++ ' ' ::
    ((if e.hash.text = [] then "none".toList else e.hash.text) ++ ['\n']))

def lockHeader : CString := "# limceron.lock - auto-generated, do not edit\n".toList

def lcnLockSerialize (l : LcnLockFile) : CString := lockHeader ++ l.entries.flatMap (·.line)

/-! ## What is written is read -/

/-- Without blanks, and not empty. -/
def IsWord (s : CString) : Prop := s ≠ [] ∧ ∀ c ∈ s, isWordChar c = true

instance (s : CString) : Decidable (IsWord s) :=
  @instDecidableAnd _ _ inferInstance (List.decidableBAll _ s)

/-- What there is of an entry is words. -/
structure LcnResolvedDep.SpaceFree (e : LcnResolvedDep) : Prop where
  name : IsWord e.name.text
  resolvedVersion : IsWord e.resolvedVersion.text
  hash : IsWord e.hash.text

/-- An entry as it is read. -/
def LcnResolvedDep.reread (e : LcnResolvedDep) : LcnResolvedDep := { e with path := .blank _ }

/-- Its line is taken for a comment. -/
def LcnResolvedDep.hidden (e : LcnResolvedDep) : Bool := e.name.text.head? = some '#'

theorem isWordChar_not {c : Char} (h : isWordChar c = true) : isBlank c = false ∧ c ≠ '\n' := by
  rw [isWordChar, Bool.and_eq_true, Bool.not_eq_true', decide_eq_true_iff] at h
  exact h

theorem skipWs_word {w : CString} (h : IsWord w) (s : CString) : skipWs (w ++ s) = w ++ s := by
  obtain ⟨hne, hw⟩ := h
  rcases w with _ | ⟨c, w⟩
  · exact absurd rfl hne
  · have hblank := (isWordChar_not (hw c List.mem_cons_self)).1
    exact List.dropWhile_cons_of_neg (by simp [hblank])

theorem behindWord_word {w : CString} (h : IsWord w) {room : ℕ} (hroom : w.length ≤ room)
    {v : CString} (hv : IsWord v) (s : CString) :
    behindWord room (w ++ ' ' :: (v ++ s)) = v ++ s := by
  rw [behindWord, wordAt, takeWhile_take_append h.2 hroom rfl, List.drop_left]
  exact skipWs_word hv s

theorem line_append {e : LcnResolvedDep} (h : e.SpaceFree) (s : CString) :
    e.line ++ s = e.name.text ++ ' ' :: (e.resolvedVersion.text ++ ' ' ::
      (e.hash.text ++ '\n' :: s)) := by
  rw [LcnResolvedDep.line, if_neg h.hash.1]
  simp

theorem wordAt_word {w : CString} (h : IsWord w) {room : ℕ} (hroom : w.length ≤ room) {c : Char}
    (hc : isWordChar c = false) (s : CString) : wordAt room (w ++ c :: s) = w :=
  takeWhile_take_append h.2 hroom hc s

theorem entryAt_line {e : LcnResolvedDep} (h : e.SpaceFree) (s : CString) :
    entryAt (e.line ++ s) = e.reread ∧ nextLine (e.line ++ s) = s := by
  have hline := line_append h s
  obtain ⟨hname, hversion, hhash⟩ := h
  have hbehind := behindWord_word hname e.name.fits hversion (' ' :: (e.hash.text ++ '\n' :: s))
  have hlast : hashAt (e.line ++ s) = e.hash.text ++ '\n' :: s := by
    rw [hashAt, hline, hbehind]
    exact behindWord_word hversion e.resolvedVersion.fits hhash _
  have hword : wordAt hashRoom (e.hash.text ++ '\n' :: s) = e.hash.text :=
    wordAt_word hhash e.hash.fits rfl s
  constructor
  · rw [entryAt, hlast, hword, hline, hbehind, wordAt_word hname e.name.fits rfl,
      wordAt_word hversion e.resolvedVersion.fits rfl]
    simp only [Field.copy_text, LcnResolvedDep.reread]
  · rw [nextLine, hlast, hword, List.drop_left, skipLine_newline]

theorem skipLine_line {e : LcnResolvedDep} (h : e.SpaceFree) (s : CString) :
    skipLine (e.line ++ s) = s := by
  have hbody : e.line ++ s = (e.name.text ++ ' ' :: (e.resolvedVersion.text ++ ' ' ::
      e.hash.text)) ++ '\n' :: s := by
    rw [line_append h]
    simp
  rw [hbody]
  refine skipLine_append ?_ s
  intro c hc
  simp only [List.mem_append, List.mem_cons] at hc
  rcases hc with hc | rfl | hc | rfl | hc
  · exact (isWordChar_not (h.name.2 c hc)).2
  · decide
  · exact (isWordChar_not (h.resolvedVersion.2 c hc)).2
  · decide
  · exact (isWordChar_not (h.hash.2 c hc)).2

theorem skipWs_line {e : LcnResolvedDep} (h : e.SpaceFree) (s : CString) :
    skipWs (e.line ++ s) = e.line ++ s := by
  rw [line_append h]
  exact skipWs_word h.name _

theorem isComment_line {e : LcnResolvedDep} (h : e.SpaceFree) (s : CString) :
    isComment (e.line ++ s) = e.hidden := by
  rw [line_append h, LcnResolvedDep.hidden, isComment]
  obtain ⟨hne, hname⟩ := h.name
  rcases htext : e.name.text with _ | ⟨c, w⟩
  · exact absurd htext hne
  · have hline : c ≠ '\n' :=
      (isWordChar_not (hname c (htext ▸ List.mem_cons_self))).2
    simp [hline]

/-- One after the other. -/
def LcnLockFile.pushAll (l : LcnLockFile) (entries : List LcnResolvedDep) : LcnLockFile :=
  entries.foldl push l

theorem LcnLockFile.push_entries {l : LcnLockFile} {e : LcnResolvedDep}
    (hname : e.name.text ≠ []) (h : l.entries.length < maxLockEntries) :
    (l.push e).entries = l.entries ++ [e] := by
  rw [push, dif_pos ⟨hname, h⟩]

theorem lockLoop_line_hidden {e : LcnResolvedDep} (h : e.SpaceFree) (hhidden : e.hidden = true)
    (l : LcnLockFile) (s : CString) : lockLoop l (e.line ++ s) = lockLoop l s := by
  have hne : skipWs (e.line ++ s) ≠ [] := by
    rw [skipWs_line h, line_append h]
    exact List.append_ne_nil_of_right_ne_nil _ (List.cons_ne_nil _ _)
  rw [lockLoop, dif_neg hne, skipWs_line h, dif_pos (by rw [isComment_line h, hhidden]),
    skipLine_line h]

theorem lockLoop_line {e : LcnResolvedDep} (h : e.SpaceFree) (hhidden : e.hidden = false)
    {l : LcnLockFile} (hroom : l.entries.length < maxLockEntries) (s : CString) :
    lockLoop l (e.line ++ s) = lockLoop (l.push e.reread) s := by
  have hne : skipWs (e.line ++ s) ≠ [] := by
    rw [skipWs_line h, line_append h]
    exact List.append_ne_nil_of_right_ne_nil _ (List.cons_ne_nil _ _)
  obtain ⟨hentry, hnext⟩ := entryAt_line h s
  rw [lockLoop, dif_neg hne, skipWs_line h,
    dif_neg (by rw [isComment_line h, hhidden]; exact Bool.false_ne_true),
    if_neg (Nat.not_le_of_lt hroom), hentry, hnext]

theorem lockLoop_nil (l : LcnLockFile) : lockLoop l [] = l := by
  rw [lockLoop]
  exact dif_pos rfl

/-- The entries that are not hidden are read, without their paths. -/
theorem lockLoop_entries {entries : List LcnResolvedDep} (h : ∀ e ∈ entries, e.SpaceFree)
    {l : LcnLockFile} (hroom : l.entries.length + entries.length ≤ maxLockEntries) :
    (lockLoop l (entries.flatMap (·.line))).entries =
      l.entries ++ (entries.filter (!·.hidden)).map (·.reread) := by
  induction entries generalizing l with
  | nil => rw [List.flatMap_nil, lockLoop_nil, List.filter_nil, List.map_nil, List.append_nil]
  | cons e entries ih =>
      rw [List.length_cons] at hroom
      have he := h e List.mem_cons_self
      have hrest : ∀ d ∈ entries, d.SpaceFree := fun d hd => h d (List.mem_cons_of_mem e hd)
      rw [List.flatMap_cons]
      cases hhidden : e.hidden with
      | true =>
          rw [lockLoop_line_hidden he hhidden, ih hrest (by omega),
            List.filter_cons_of_neg (by simp [hhidden])]
      | false =>
          have hpush : (l.push e.reread).entries = l.entries ++ [e.reread] :=
            LcnLockFile.push_entries he.name.1 (by omega)
          have hlength : (l.push e.reread).entries.length + entries.length ≤ maxLockEntries := by
            rw [hpush, List.length_append, List.length_singleton]
            omega
          rw [lockLoop_line he hhidden (by omega), ih hrest hlength, hpush, List.append_assoc,
            List.filter_cons_of_pos (by simp [hhidden])]
          rfl

/-- A filter and a map leave a list as it is, if they do so with each of its elements. -/
theorem filter_map_eq_self {α : Type} {p : α → Bool} {f : α → α} {l : List α} :
    (l.filter p).map f = l ↔ ∀ a ∈ l, p a = true ∧ f a = a := by
  constructor
  · intro h
    have hlength : (l.filter p).length = l.length := by
      rw [← List.length_map f, h]
    have hall := List.length_filter_eq_length_iff.1 hlength
    rw [List.filter_eq_self.2 hall] at h
    intro a ha
    exact ⟨hall a ha, List.map_inj_left.1 (h.trans (List.map_id l).symm) a ha⟩
  · intro h
    rw [List.filter_eq_self.2 fun a ha => (h a ha).1]
    exact (List.map_congr_left fun a ha => (h a ha).2).trans (List.map_id l)

/-- The header is a comment. -/
theorem lockLoop_header (l : LcnLockFile) (s : CString) :
    lockLoop l (lockHeader ++ s) = lockLoop l s := by
  have hws : skipWs (lockHeader ++ s) = lockHeader ++ s := rfl
  have hne : skipWs (lockHeader ++ s) ≠ [] := List.cons_ne_nil _ _
  have hcomment : isComment (lockHeader ++ s) = true := rfl
  have hskip : skipLine (lockHeader ++ s) = s := rfl
  rw [lockLoop, dif_neg hne, hws, dif_pos hcomment, hskip]

theorem LcnResolvedDep.reread_eq_iff {e : LcnResolvedDep} : e.reread = e ↔ e.path.text = [] := by
  constructor
  · intro h
    rw [← h]
    rfl
  · intro h
    rw [reread, ← Field.eq_blank h]

/-- When the entries of a lock file come back. -/
theorem lcnLockParse_serialize_iff {l : LcnLockFile} (h : ∀ e ∈ l.entries, e.SpaceFree) :
    lcnLockParse (lcnLockSerialize l) = l ↔
      ∀ e ∈ l.entries, e.hidden = false ∧ e.path.text = [] := by
  have hroom : blankLock.entries.length + l.entries.length ≤ maxLockEntries := by
    rw [blankLock, List.length_nil, Nat.zero_add]
    exact l.room
  have hentries := lockLoop_entries h hroom
  rw [LcnLockFile.ext_iff, lcnLockParse, lcnLockSerialize, lockLoop_header, hentries, blankLock,
    List.nil_append, filter_map_eq_self]
  simp only [Bool.not_eq_true', LcnResolvedDep.reread_eq_iff]

end Limceron.Package
