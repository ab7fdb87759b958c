/-
# `Limceron.Parse.Dry` — what each function takes first

A dry run of a function stays at one token.  What the small functions do there is
said by equations; of the others it is enough to know that they are not bad, and
which of them take a token whenever there is one:

| takes a token, if there is one | may take none |
| :-- | :-- |
| `parse_expr`, `parse_prefix`, `parse_block` | `parse_type_primary`, `parse_type_expr` |
| `parse_statement`, `parse_decl_field` | `parse_pattern` |
-/
import Limceron.Parse.Agents

namespace Limceron.Parse

open Readers

variable {α β γ : Type}

/-- The kind of the current token. -/
def kindAt (ts : List Token) : TokenKind := (current ts).kind

@[simp] theorem kindAt_nil : kindAt [] = .eof := rfl

@[simp] theorem kindAt_cons (t : Token) (ts : List Token) : kindAt (t :: ts) = t.kind := rfl

theorem ne_nil_of_kindAt {ts : List Token} {k : TokenKind} (h : kindAt ts = k) (hk : k ≠ .eof) :
    ts ≠ [] := by
  rintro rfl
  exact hk h.symm

/-- `p` is not bad at `ts`, and if it is through then `Q`. -/
def Wp (d : Nat) (p : P α) (ts : List Token) (s : Notes) (Q : α → Notes → Prop) : Prop :=
  (parser.dry d p ts s).All Q

/-- `p` is through at `ts`, without a token. -/
def Stays (d : Nat) (p : P α) (ts : List Token) (s : Notes) : Prop :=
  ∃ a s', parser.dry d p ts s = .still a s'

/-- `p` takes a token, if there is one. -/
def Eats (d : Nat) (p : P α) : Prop := ∀ ts s, Wp d p ts s fun _ _ => kindAt ts = .eof

theorem Wp.mono {d : Nat} {p : P α} {ts : List Token} {s : Notes} {Q Q' : α → Notes → Prop}
    (h : Wp d p ts s Q) (hQ : ∀ a s, Q a s → Q' a s) : Wp d p ts s Q' := Dry.All.mono h hQ

theorem Eats.wp {d : Nat} {p : P α} (h : Eats d p) {ts : List Token} {s : Notes}
    {Q : α → Notes → Prop} (hQ : kindAt ts = .eof → ∀ a s, Q a s) : Wp d p ts s Q :=
  (h ts s).mono fun a s hts => hQ hts a s

/-! ## The small functions -/

section Small

variable {d : Nat} {ts : List Token} {s : Notes}

theorem dry_cur : parser.dry d cur ts s = .still (current ts) s := rfl

theorem dry_check (k : TokenKind) : parser.dry d (check k) ts s = .still (kindAt ts == k) s := rfl

theorem dry_checkName :
    parser.dry d checkName ts s = .still (isIdentOrKeyword (kindAt ts)) s := rfl

theorem dry_advance :
    parser.dry d advance ts s =
      if ts = [] then .still Token.eof (take [] s) else .moved := by
  cases ts with
  | nil => rfl
  | cons t ts => rfl

theorem dry_accept {k : TokenKind} (hk : k ≠ .eof) :
    parser.dry d (accept k) ts s = if kindAt ts = k then .moved else .still false s := by
  unfold accept
  simp only [Prog.bind_def, Reader.dry_bind, dry_check, Dry.still_bind]
  by_cases h : kindAt ts = k
  · simp [h, dry_advance, ne_nil_of_kindAt h hk]
  · simp [h, Prog.pure_def]

/-- What `parser_expect` leaves where the token is missing. -/
def afterMissing (k : TokenKind) (context : String) (ts : List Token) (s : Notes) : Notes :=
  { (s.report (expected k context (current ts).kind)).failed with panicMode := true }

theorem dry_expect {k : TokenKind} (hk : k ≠ .eof) (context : String) :
    parser.dry d (expect k context) ts s =
      if kindAt ts = k then .moved else .still { kind := k } (afterMissing k context ts s) := by
  unfold expect
  simp only [Prog.bind_def, Reader.dry_bind, dry_check, Dry.still_bind]
  by_cases h : kindAt ts = k
  · simp [h, dry_advance, ne_nil_of_kindAt h hk]
  · simp [h, missing, afterMissing]

theorem dry_acceptText (text : String) :
    parser.dry d (acceptText text) ts s =
      if kindAt ts = .ident ∧ (current ts).strVal = some text then .moved else .still false s := by
  unfold acceptText
  simp only [Prog.bind_def, Reader.dry_bind, checkText, Reader.dry_act, Dry.still_bind]
  by_cases h : kindAt ts = .ident ∧ (current ts).strVal = some text
  · have h' : (current ts).kind = .ident := h.1
    have hts := ne_nil_of_kindAt h.1 (by decide)
    simp [h.2, h', dry_advance, hts, h.1]
  · have h' : ((current ts).kind == .ident && (current ts).strVal == some text) = false := by
      rw [← Bool.not_eq_true]
      simpa [kindAt] using h
    simp [h', h, Prog.pure_def]

/-- A loop that has no stalls. -/
theorem dry_repeating (body : β → P (β ⊕ γ)) (b : β) :
    parser.dry d (repeating body b) ts s = (parser.dry d (body b) ts s).leaving := by
  rw [repeating, Reader.dry_loop]
  rfl

theorem dry_skipSemis :
    parser.dry d skipSemis ts s = if kindAt ts = .semicolon then .moved else .still () s := by
  rw [skipSemis, dry_repeating]
  simp only [Prog.bind_def, Reader.dry_bind, dry_accept (show TokenKind.semicolon ≠ .eof by decide)]
  split
  · rfl
  · rfl

theorem dry_separated {sep : TokenKind} (hsep : sep ≠ .eof) (item : P α) (items : List α) :
    parser.dry d (separated sep item items) ts s =
      if kindAt ts = sep then .moved else .still items s := by
  rw [separated, dry_repeating]
  simp only [Prog.bind_def, Reader.dry_bind, dry_accept hsep]
  split
  · rfl
  · rfl

theorem dry_commaList (close : TokenKind) (item : P α) :
    parser.dry d (commaList close item) ts s =
      if kindAt ts = close ∨ kindAt ts = .eof then .still [] s
      else (parser.dry d item ts s).bind fun x s =>
        if kindAt ts = .comma then .moved else .still [x] s := by
  rw [commaList, dry_repeating]
  simp only [Prog.bind_def, Reader.dry_bind, dry_check, Dry.still_bind]
  by_cases h : kindAt ts = close ∨ kindAt ts = .eof
  · have h' : (kindAt ts == close || kindAt ts == .eof) = true := by simpa using h
    simp only [h', h, if_true]
    rfl
  · have h' : (kindAt ts == close || kindAt ts == .eof) = false := by
      rw [← Bool.not_eq_true]
      simpa using h
    simp only [h', h, if_false, Bool.false_eq_true, Reader.dry_bind, Dry.leaving]
    cases parser.dry d item ts s with
    | moved => rfl
    | trapped => rfl
    | bad => rfl
    | still x s =>
        simp only [Dry.still_bind, dry_accept (show TokenKind.comma ≠ .eof by decide)]
        split
        · rfl
        · rfl

/-- The loop over the members of a body. -/
theorem dry_members (stalls : List Token → Option Trap) (item : β → P β) (b : β) :
    parser.dry d (members stalls item b) ts s =
      if (stalls ts).isSome then .trapped
      else if kindAt ts = .rbrace ∨ kindAt ts = .eof then .still b s
      else (parser.dry d (item b) ts s).bind fun _ _ => .bad := by
  rw [members, Reader.dry_loop]
  refine if_congr Iff.rfl rfl ?_
  simp only [Prog.bind_def, Reader.dry_bind, dry_check, Dry.still_bind]
  by_cases h : kindAt ts = .rbrace ∨ kindAt ts = .eof
  · have h' : (kindAt ts == .rbrace || kindAt ts == .eof) = true := by simpa using h
    simp only [h', h, if_true]
    rfl
  · have h' : (kindAt ts == .rbrace || kindAt ts == .eof) = false := by
      rw [← Bool.not_eq_true]
      simpa using h
    simp only [h', h, if_false, Bool.false_eq_true, Reader.dry_bind, Dry.leaving]
    cases parser.dry d (item b) ts s with
    | moved => rfl
    | trapped => rfl
    | bad => rfl
    | still x s => rfl

end Small

/-! ## The rules -/

section Rules

variable {d : Nat} {ts : List Token} {s : Notes} {Q : α → Notes → Prop}

@[simp] theorem wp_pure (a : α) : Wp d (pure a) ts s Q ↔ Q a s := Iff.rfl

@[simp] theorem wp_bind (p : P β) (f : β → P α) :
    Wp d (p >>= f) ts s Q ↔ Wp d p ts s fun b s => Wp d (f b) ts s Q := Dry.all_bind

@[simp] theorem wp_ite {c : Prop} [Decidable c] (p q : P α) :
    Wp d (if c then p else q) ts s Q ↔ (c → Wp d p ts s Q) ∧ (¬ c → Wp d q ts s Q) := by
  by_cases h : c
  · simp [h]
  · simp [h]

@[simp] theorem wp_trap (e : Trap) : Wp d (.trap e) ts s Q := trivial

@[simp] theorem wp_cur (Q : Token → Notes → Prop) : Wp d cur ts s Q ↔ Q (current ts) s := Iff.rfl

@[simp] theorem wp_check (k : TokenKind) (Q : Bool → Notes → Prop) :
    Wp d (check k) ts s Q ↔ Q (kindAt ts == k) s := Iff.rfl

@[simp] theorem wp_checkName (Q : Bool → Notes → Prop) :
    Wp d checkName ts s Q ↔ Q (isIdentOrKeyword (kindAt ts)) s := Iff.rfl

@[simp] theorem wp_fail (msg : String) (Q : Unit → Notes → Prop) :
    Wp d (fail msg) ts s Q ↔ Q () (s.report msg).failed := Iff.rfl

/-- A condition on a dry run that has taken a token or not. -/
theorem all_ite {c : Prop} [Decidable c] (a : α) :
    (if c then .moved else .still a s : Dry Notes α).All Q ↔ (¬ c → Q a s) := by
  by_cases h : c
  · simp [h]
  · simp [h]

@[simp] theorem wp_advance (Q : Token → Notes → Prop) :
    Wp d advance ts s Q ↔ (ts = [] → Q Token.eof (take [] s)) := by
  rw [Wp, dry_advance]
  by_cases h : ts = []
  · simp [h]
  · simp [h]

@[simp] theorem wp_accept {k : TokenKind} (hk : k ≠ .eof) (Q : Bool → Notes → Prop) :
    Wp d (accept k) ts s Q ↔ (kindAt ts ≠ k → Q false s) := by
  rw [Wp, dry_accept hk]
  exact all_ite false

@[simp] theorem wp_expect {k : TokenKind} (hk : k ≠ .eof) (context : String)
    (Q : Token → Notes → Prop) :
    Wp d (expect k context) ts s Q ↔
      (kindAt ts ≠ k → Q { kind := k } (afterMissing k context ts s)) := by
  rw [Wp, dry_expect hk]
  exact all_ite _

@[simp] theorem wp_acceptText (text : String) (Q : Bool → Notes → Prop) :
    Wp d (acceptText text) ts s Q ↔
      (¬ (kindAt ts = .ident ∧ (current ts).strVal = some text) → Q false s) := by
  rw [Wp, dry_acceptText]
  exact all_ite false

@[simp] theorem wp_skipSemis (Q : Unit → Notes → Prop) :
    Wp d skipSemis ts s Q ↔ (kindAt ts ≠ .semicolon → Q () s) := by
  rw [Wp, dry_skipSemis]
  exact all_ite ()

@[simp] theorem wp_separated {sep : TokenKind} (hsep : sep ≠ .eof) (item : P β) (items : List β)
    (Q : List β → Notes → Prop) :
    Wp d (separated sep item items) ts s Q ↔ (kindAt ts ≠ sep → Q items s) := by
  rw [Wp, dry_separated hsep]
  exact all_ite items

theorem wp_ifAccept {k : TokenKind} (hk : k ≠ .eof) (p q : P α) :
    Wp d (accept k >>= fun b => if b = true then p else q) ts s Q ↔
      (kindAt ts ≠ k → Wp d q ts s Q) := by
  rw [wp_bind, wp_accept hk, wp_ite]
  simp only [Bool.false_eq_true, false_implies, not_false_eq_true, true_implies, true_and]

theorem wp_ifAcceptText (text : String) (p q : P α) :
    Wp d (acceptText text >>= fun b => if b = true then p else q) ts s Q ↔
      (¬ (kindAt ts = .ident ∧ (current ts).strVal = some text) → Wp d q ts s Q) := by
  rw [wp_bind, wp_acceptText, wp_ite]
  simp only [Bool.false_eq_true, false_implies, not_false_eq_true, true_implies, true_and]

theorem wp_ifCheck (k : TokenKind) (p q : P α) :
    Wp d (check k >>= fun b => if b = true then p else q) ts s Q ↔
      (kindAt ts = k → Wp d p ts s Q) ∧ (kindAt ts ≠ k → Wp d q ts s Q) := by
  rw [wp_bind, wp_check, wp_ite]
  simp only [beq_iff_eq, ne_eq]

theorem wp_ifCheckName (p q : P α) :
    Wp d (checkName >>= fun b => if b = true then p else q) ts s Q ↔
      (isIdentOrKeyword (kindAt ts) = true → Wp d p ts s Q) ∧
        (isIdentOrKeyword (kindAt ts) = false → Wp d q ts s Q) := by
  rw [wp_bind, wp_checkName, wp_ite]
  simp only [Bool.not_eq_true]

/-- The body is empty, or its first member takes a token. -/
theorem wp_members {stalls : List Token → Option Trap} {item : β → P β} {b : β}
    {Q : β → Notes → Prop} (hend : kindAt ts = .rbrace ∨ kindAt ts = .eof → Q b s)
    (hitem : stalls ts = none → kindAt ts ≠ .rbrace → kindAt ts ≠ .eof →
      Wp d (item b) ts s fun _ _ => False) :
    Wp d (members stalls item b) ts s Q := by
  rw [Wp, dry_members]
  cases hs : stalls ts with
  | some e => exact trivial
  | none =>
      rw [if_neg (by simp)]
      by_cases h : kindAt ts = .rbrace ∨ kindAt ts = .eof
      · rw [if_pos h]
        exact hend h
      · rw [if_neg h, Dry.all_bind]
        rw [not_or] at h
        exact (hitem hs h.1 h.2).mono fun _ _ hf => hf.elim

end Rules

/-! ## The functions that call each other -/

section Calls

variable {ts : List Token} {s : Notes}

theorem wp_call {d : Nat} {c : Fn} {Q : Node → Notes → Prop} (h : Wp d (fnBody c) ts s Q) :
    Wp (d + 1) (.call c) ts s Q := h

/-- What begins with `parser_advance` takes the token that stands there. -/
theorem wp_advance_bind {d : Nat} {f : Token → P α} {Q : α → Notes → Prop} {k : TokenKind}
    (h : kindAt ts = k) (hk : k ≠ .eof) : Wp d (advance >>= f) ts s Q := by
  rw [wp_bind, wp_advance]
  exact fun hts => absurd hts (ne_nil_of_kindAt h hk)

theorem startsType_eq_false {k : TokenKind} :
    startsType k = false ↔ k ≠ .secretK ∧ k ≠ .amp ∧ k ≠ .star ∧ k ≠ .lbracket ∧ k ≠ .lparen ∧
      k ≠ .fnK ∧ k ≠ .ident := by
  cases k <;> decide

theorem wp_typePrimary (d : Nat) :
    Wp (d + 1) (.call .typePrimary) ts s fun _ _ => startsType (kindAt ts) = false := by
  refine wp_call ?_
  simp only [fnBody, parseTypePrimary, wp_ifAccept, wp_ifCheck, ne_eq, reduceCtorEq,
    not_false_eq_true]
  intro hsecret hamp hstar hbracket hparen hfn
  refine ⟨fun hident => ?_, fun hident => ?_⟩
  · exact wp_advance_bind hident (by decide)
  · exact startsType_eq_false.2 ⟨hsecret, hamp, hstar, hbracket, hparen, hfn, hident⟩

/-- What `parse_type_expr` may stay at. -/
def noType (k : TokenKind) : Prop := startsType k = false ∧ k ≠ .question ∧ k ≠ .pipe

theorem wp_typeExpr (d : Nat) :
    Wp (d + 2) (.call .typeExpr) ts s fun _ _ => noType (kindAt ts) := by
  refine wp_call ?_
  rw [fnBody, parseTypeExpr, wp_bind]
  refine (wp_typePrimary d).mono fun ty s hstart => ?_
  rw [wp_bind, optionalType, wp_ifAccept (by decide)]
  intro hquestion
  rw [wp_pure, wp_ifCheck]
  refine ⟨fun hpipe => ?_, fun hpipe => ⟨hstart, hquestion, hpipe⟩⟩
  rw [wp_bind, wp_separated (by decide)]
  exact fun hne => absurd hpipe hne

theorem wp_pattern (d : Nat) (strip : Bool) :
    Wp (d + 1) (.call (.pattern strip)) ts s fun _ _ => True := by
  refine wp_call ?_
  rw [fnBody, parsePatternEx, wp_bind, wp_cur, wp_ite]
  refine ⟨fun h => ?_, fun _ => ?_⟩
  · have hident : kindAt ts = .ident := by
      simp only [isUnderscored, Bool.and_eq_true, beq_iff_eq] at h
      exact h.2.1.1
    exact wp_advance_bind hident (by decide)
  · simp only [wp_ifAccept, wp_ifCheck, wp_ifAcceptText, ne_eq, reduceCtorEq, not_false_eq_true]
    refine fun _ => ⟨fun h => ?_, fun _ => ⟨fun h => ?_, fun _ _ _ _ _ => ⟨fun h => ?_, fun _ => trivial⟩⟩⟩
    · exact wp_advance_bind h (by decide)
    · exact wp_advance_bind h (by decide)
    · exact wp_advance_bind h (by decide)

theorem wp_consumeIdentName {d : Nat} {Q : Option String → Notes → Prop}
    (h : isIdentOrKeyword (kindAt ts) = false → ∀ a s, Q a s) : Wp d consumeIdentName ts s Q := by
  rw [consumeIdentName, wp_bind, wp_cur, wp_ite]
  refine ⟨fun hname => ?_, fun hname => ?_⟩
  · rw [wp_bind, wp_advance]
    rintro rfl
    cases hname
  · rw [wp_bind, wp_expect (by decide)]
    exact fun _ => h ((Bool.not_eq_true _).mp hname) _ _

/-- At `{`, a block takes it. -/
theorem wp_block_lbrace (d : Nat) {Q : Node → Notes → Prop} (h : kindAt ts = .lbrace) :
    Wp (d + 1) (.call .block) ts s Q := by
  refine wp_call ?_
  rw [fnBody, parseBlock, wp_bind, wp_expect (by decide)]
  exact fun hne => absurd h hne

theorem wp_nameOrFail (d : Nat) : Wp d parseNameOrFail ts s fun _ _ => kindAt ts = .eof := by
  rw [parseNameOrFail, wp_ifCheckName]
  refine ⟨fun h => ?_, fun _ => ?_⟩
  · rw [wp_bind]
    exact wp_consumeIdentName fun hne => by rw [h] at hne; cases hne
  · rw [wp_bind, wp_fail, wp_bind, wp_advance]
    rintro rfl
    rfl

theorem eats_parsePrefixRest (d : Nat) : Eats (d + 1) parsePrefixRest := by
  intro ts s
  rw [parsePrefixRest, wp_bind, wp_cur]
  split
  case h_15 h => exact wp_block_lbrace d h
  case h_16 h =>
    rw [wp_ifAcceptText]
    intro _
    rw [wp_ifAcceptText]
    intro _
    exact wp_advance_bind h (by decide)
  case h_17 => exact wp_nameOrFail _
  all_goals
    next h => exact wp_advance_bind h (by decide)

theorem wp_inner {d : Nat} {ι β : Type} {f : List Token → Notes → Notes}
    {subs : Token → List (ι × List Token)} {enter : Notes → Notes} {leave : Notes → Notes → Notes}
    {p : ι → P β} {Q : List β → Notes → Prop} (hts : ts ≠ []) :
    Wp d (.inner f subs enter leave p) ts s Q := by
  cases ts with
  | nil => exact absurd rfl hts
  | cons t ts => exact trivial

theorem eats_parsePrefix (d : Nat) : Eats (d + 1) parsePrefix := by
  intro ts s
  rw [parsePrefix, wp_bind, wp_cur]
  split
  case h_9 h =>
    rw [parseInterp, wp_bind, wp_cur, wp_bind]
    exact wp_inner (ne_nil_of_kindAt h (by decide))
  case h_16 => exact eats_parsePrefixRest d ts s
  all_goals
    next h =>
      try rw [h]
      exact wp_advance_bind h (by decide)

theorem eats_leading (d : Nat) : Eats (d + 2) (.call .leading) := fun ts s =>
  wp_call (eats_parsePrefix d ts s)

theorem eats_expr (d : Nat) (minPrec : Precedence) : Eats (d + 3) (.call (.expr minPrec)) := by
  intro ts s
  refine wp_call ?_
  rw [fnBody, parseExpr, wp_bind]
  refine (eats_leading d).wp fun heof left s => ?_
  have hkind : (current ts).kind = .eof := heof
  rw [Wp, dry_repeating]
  simp only [Prog.bind_def, Reader.dry_bind, dry_cur, Dry.still_bind, hkind]
  exact heof

theorem eats_exprStmt (d : Nat) : Eats (d + 3) parseExprStmt := by
  intro ts s
  rw [parseExprStmt, wp_bind]
  refine (eats_expr d _).wp fun heof e s => ?_
  have hkind : (current ts).kind = .eof := heof
  rw [wp_bind, wp_cur, hkind, wp_ite]
  exact ⟨fun h => absurd h (by decide), fun _ => heof⟩

theorem eats_statement (d : Nat) : Eats (d + 4) (.call .statement) := by
  intro ts s
  refine wp_call ?_
  rw [fnBody, parseStatement, wp_bind, wp_cur]
  split
  case h_12 => exact eats_exprStmt d ts s
  all_goals
    next h => exact wp_advance_bind h (by decide)

/-- A member that begins with what eats, in a body that has not ended. -/
theorem Eats.member {d : Nat} {p : P β} {f : β → P α} (h : Eats d p) (hne : kindAt ts ≠ .eof) :
    Wp d (p >>= f) ts s fun _ _ => False := by
  rw [wp_bind]
  exact h.wp fun heof => absurd heof hne

theorem eats_block (d : Nat) : Eats (d + 5) (.call .block) := by
  intro ts s
  refine wp_call ?_
  rw [fnBody, parseBlock, wp_bind, wp_expect (by decide)]
  intro _
  rw [wp_bind, wp_skipSemis]
  intro _
  rw [wp_bind]
  refine wp_members (fun hend => ?_) fun _ _ hne => (eats_statement d).member hne
  rw [wp_bind, wp_expect (by decide)]
  exact fun hbrace => hend.resolve_left hbrace

theorem eats_fieldValue (d : Nat) : Eats (d + 3) fieldValue := by
  intro ts s
  rw [fieldValue, wp_ifAccept (by decide)]
  intro _
  rw [wp_ifAccept (by decide)]
  intro _
  exact eats_expr d _ ts s

theorem eats_declField (d : Nat) : Eats (d + 4) (.call .declField) := by
  intro ts s
  refine wp_call ?_
  rw [fnBody, parseDeclField, wp_bind]
  refine wp_consumeIdentName fun _ name s => ?_
  rw [wp_bind, wp_expect (by decide)]
  intro _
  rw [wp_bind]
  exact (eats_fieldValue d).wp fun heof _ _ => heof

/-! ## The depth -/

/-- Calls do not follow each other further than this, at one token. -/
def depth : Nat := 8

/-- No call is bad. -/
theorem dryRun_ne_bad (c : Fn) (ts : List Token) (s : Notes) :
    parser.dryRun depth c ts s ≠ .bad := by
  cases c with
  | typePrimary => exact (wp_typePrimary 7).ne_bad
  | typeExpr => exact (wp_typeExpr 6).ne_bad
  | pattern strip => exact (wp_pattern 7 strip).ne_bad
  | expr minPrec => exact (eats_expr 5 minPrec ts s).ne_bad
  | leading => exact (eats_leading 6 ts s).ne_bad
  | block => exact (eats_block 3 ts s).ne_bad
  | statement => exact (eats_statement 4 ts s).ne_bad
  | declField => exact (eats_declField 4 ts s).ne_bad

end Calls

end Limceron.Parse
