/-
# `Limceron.Access.Patterns` — the language of a path pattern

| written | denotes |
| :-- | :-- |
| `*` | any text without `/` |
| `**`, and `**/` | any text |
| another character | itself |

`acl_glob_match` and `cf_glob_match` read the pattern along the text.  When the text has
ended, what is left of the pattern has to be stars: the `/` of a `**/` is not absorbed
then (`globs_agree_iff`).
-/
import Limceron.Access.Fence
import Limceron.Lib.Globs

namespace Limceron.Access

open Caps (CString)
open Globs

/-- The tokens of a pattern. -/
def tokens : CString → List (Token Char)
  | [] => []
  | '*' :: '*' :: '/' :: p => .deep true :: tokens p
  | '*' :: '*' :: p => .deep false :: tokens p
  | '*' :: p => .run :: tokens p
  | c :: p => .char c :: tokens p

/-- The text is in the language of the pattern. -/
def InLanguage (pattern s : CString) : Prop := Matches '/' (tokens pattern) s

/-! ## The matcher reads tokens -/

theorem starTails_eq (s : CString) : starTails s = runTails '/' s := by
  induction s with
  | nil => rfl
  | cons c s ih => rw [starTails, runTails, ih]

theorem all_tokens (p : CString) : (tokens p).all Token.trailing = p.all (· == '*') := by
  induction p using tokens.induct with
  | case1 => rfl
  | case2 p ih => rfl
  | case3 p hslash ih =>
      rw [tokens, List.all_cons, ih]
      · rfl
      · exact hslash
  | case4 p h₁ h₂ ih =>
      rw [tokens, List.all_cons, ih]
      · rfl
      · exact h₁
      · exact h₂
  | case5 c p h₁ h₂ h₃ ih =>
      have hc : c ≠ '*' := h₃
      simp [tokens, Token.trailing, hc]

theorem tokens_isEmpty (p : CString) : (tokens p).isEmpty = p.isEmpty := by
  induction p using tokens.induct with
  | case1 => rfl
  | case2 p ih => rfl
  | case3 p hslash ih => rw [tokens]; exacts [rfl, hslash]
  | case4 p h₁ h₂ ih => rw [tokens]; exacts [rfl, h₁, h₂]
  | case5 c p h₁ h₂ h₃ ih => rw [tokens]; exacts [rfl, h₁, h₂, h₃]

theorem glob_nil (p : CString) : glob false p [] = accepts '/' (tokens p) [] := by
  rw [accepts_nil, all_tokens]
  cases p with
  | nil => rfl
  | cons c p => rw [glob]

/-- The matcher is the reading of the tokens. -/
theorem glob_tokens (p s : CString) : glob false p s = accepts '/' (tokens p) s := by
  induction p using tokens.induct generalizing s with
  | case1 => cases s <;> rfl
  | case2 p ih =>
      cases s with
      | nil => exact glob_nil _
      | cons c s =>
          rw [glob, if_pos rfl, tokens, accepts, tokens_isEmpty, ← funext ih]
          rfl
  | case3 p hslash ih =>
      cases s with
      | nil => exact glob_nil _
      | cons c s =>
          have htokens : tokens ('*' :: '*' :: p) = .deep false :: tokens p := by
            rw [tokens]
            exact hslash
          rw [htokens, accepts, tokens_isEmpty, ← funext ih]
          cases p with
          | nil => rfl
          | cons r rs =>
              have hr : r ≠ '/' := fun hr => hslash rs (hr ▸ rfl)
              rw [glob, if_pos rfl]
              simp only [if_true, if_neg hr]
              rfl
  | case4 p h₁ h₂ ih =>
      cases s with
      | nil => exact glob_nil _
      | cons c s =>
          have htokens : tokens ('*' :: p) = .run :: tokens p := by
            rw [tokens]
            exacts [h₁, h₂]
          rw [htokens, accepts, ← funext ih, ← starTails_eq]
          cases p with
          | nil => rfl
          | cons q qs =>
              have hq : q ≠ '*' := fun hq => h₂ qs (hq ▸ rfl)
              rw [glob.eq_def]
              simp only [if_true, if_neg hq]
  | case5 d p h₁ h₂ h₃ ih =>
      have hd : d ≠ '*' := h₃
      cases s with
      | nil => exact glob_nil _
      | cons c s =>
          have htokens : tokens (d :: p) = .char d :: tokens p := by
            rw [tokens]
            exacts [h₁, h₂, h₃]
          rw [htokens, accepts, ← ih, glob.eq_def]
          simp only [if_neg hd, Bool.false_and, Bool.false_eq_true, if_false]

/-! ## Agreement with the language -/

/-- The pattern ends in wildcards, one of them `**/`, and what stands before these
matches the text and none of its proper beginnings. -/
def EndsBefore (pattern s : CString) : Prop := EndsAt '/' (tokens pattern) s

theorem aclGlobMatch_iff {p s : CString} :
    aclGlobMatch p s = true ↔ InLanguage p s ∧ ¬ EndsBefore p s := by
  rw [aclGlobMatch, glob_tokens]
  exact accepts_iff

/-- Both matchers decide the language, except where the text ends before a `**/` of the
last wildcards. -/
theorem globs_agree_iff (p s : CString) :
    ((aclGlobMatch p s = true ↔ InLanguage p s) ↔ ¬ EndsBefore p s) ∧
    ((cfGlobMatch p s = true ↔ InLanguage p s) ↔ ¬ EndsBefore p s) := by
  have hagree : (aclGlobMatch p s = true ↔ InLanguage p s) ↔ ¬ EndsBefore p s := by
    rw [aclGlobMatch_iff]
    constructor
    · intro h hends
      exact (h.mpr hends.matches).2 hends
    · intro hends
      exact and_iff_left hends
  exact ⟨hagree, hagree⟩

/-- `docs**/` is for any text that begins with `docs`, and does not match `docs`. -/
theorem docs_unmatched : ¬ ∀ p s, aclGlobMatch p s = true ↔ InLanguage p s := by
  intro h
  have hlanguage : InLanguage ['d', 'o', 'c', 's', '*', '*', '/'] ['d', 'o', 'c', 's'] :=
    .char (.char (.char (.char (.deep (u := []) .nil))))
  exact absurd ((h _ _).mpr hlanguage) (by decide)

end Limceron.Access
