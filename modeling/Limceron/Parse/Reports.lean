/-
# `Limceron.Parse.Reports` — what is reported stays reported

No function of the parser takes back an error, or that there was one (`Reports`).  So a
parse of an expression after which nothing is reported, has reported nothing on the way
(`silent_before`).
-/
import Limceron.Lib.Notes
import Limceron.Parse.Agents

namespace Limceron.Parse

open Readers

variable {α β γ : Type}

/-! ## Reports -/

structure Grows (s s' : Notes) : Prop where
  errors : s.errors <+: s'.errors
  hadError : s.hadError = true → s'.hadError = true

theorem Grows.refl (s : Notes) : Grows s s := ⟨List.prefix_refl _, id⟩

theorem Grows.trans (s s' s'' : Notes) (h : Grows s s') (h' : Grows s' s'') : Grows s s'' :=
  ⟨h.errors.trans h'.errors, h'.hadError ∘ h.hadError⟩

theorem grows_report (s : Notes) (msg : String) : Grows s (s.report msg) := by
  unfold Notes.report
  split
  · exact ⟨List.prefix_append _ _, id⟩
  · exact .refl s

theorem grows_failed (s : Notes) : Grows s s.failed := ⟨List.prefix_refl _, fun _ => rfl⟩

theorem grows_foldl {ι : Type} {f : Notes → ι → Notes} (hf : ∀ s i, Grows s (f s i)) (is : List ι)
    (s : Notes) : Grows s (is.foldl f s) := by
  induction is generalizing s with
  | nil => exact .refl s
  | cons i is ih => exact .trans s _ _ (hf s i) (ih _)

theorem grows_diags (s : Notes) (t : Token) : Grows s (t.diags.foldl .report s) :=
  grows_foldl grows_report t.diags s

theorem grows_takeIn (s : Notes) (ts : List Token) : Grows s (s.takeIn ts) := by
  have hskipped : ∀ s (t : Token), Grows s (t.diags.foldl Notes.report s).failed :=
    fun s t => .trans s _ _ (grows_diags s t) (grows_failed _)
  exact .trans s _ _ (grows_foldl hskipped _ s) (grows_foldl grows_diags _ _)

theorem grows_take (ts : List Token) (s : Notes) : Grows s (take ts s) :=
  .trans s { s with previous := current ts } _ ⟨List.prefix_refl _, id⟩ (grows_takeIn _ ts.tail)

/-! ## The rules -/

/-- The program takes back no report. -/
def Reports (p : P α) : Prop := p.Keeps Grows

@[simp] theorem reports_pure (a : α) : Reports (pure a : P α) := trivial

@[simp] theorem reports_bind (p : P β) (f : β → P α) :
    Reports (p >>= f) ↔ Reports p ∧ ∀ b, Reports (f b) := Iff.rfl

@[simp] theorem reports_call (c : Fn) : Reports (.call c) := trivial

@[simp] theorem reports_trap (e : Trap) : Reports (.trap e : P α) := trivial

@[simp] theorem reports_ite {c : Prop} [Decidable c] (p q : P α) :
    Reports (if c then p else q) ↔ (c → Reports p) ∧ (¬ c → Reports q) := by
  by_cases h : c
  · simp [h]
  · simp [h]

/-- A look at the notes. -/
theorem reports_look (f : List Token → Notes → α) : Reports (.act fun ts s => (f ts s, s)) :=
  fun _ s => .refl s

@[simp] theorem reports_cur : Reports cur := reports_look _

@[simp] theorem reports_check (k : TokenKind) : Reports (check k) := reports_look _

@[simp] theorem reports_checkText (text : String) : Reports (checkText text) := reports_look _

@[simp] theorem reports_checkName : Reports checkName := reports_look _

@[simp] theorem reports_afterSemicolon : Reports afterSemicolon := reports_look _

@[simp] theorem reports_panicking : Reports panicking := reports_look _

@[simp] theorem reports_calm : Reports calm := fun _ _ => ⟨List.prefix_refl _, id⟩

@[simp] theorem reports_fail (msg : String) : Reports (fail msg) :=
  fun _ s => .trans s _ _ (grows_report s msg) (grows_failed _)

@[simp] theorem reports_prime : Reports prime := fun _ s => grows_foldl grows_diags _ s

@[simp] theorem reports_advance : Reports advance :=
  ⟨reports_cur, fun _ => ⟨grows_take, fun _ => trivial⟩⟩

@[simp] theorem reports_accept (k : TokenKind) : Reports (accept k) := by
  simp [accept]

@[simp] theorem reports_acceptText (text : String) : Reports (acceptText text) := by
  simp [acceptText]

@[simp] theorem reports_missing (k : TokenKind) (context : String) : Reports (missing k context) :=
  fun _ s => .trans s _ _ (grows_report s _) ⟨List.prefix_refl _, fun _ => rfl⟩

@[simp] theorem reports_expect (k : TokenKind) (context : String) : Reports (expect k context) := by
  simp [expect]

@[simp] theorem reports_repeating (body : β → P (β ⊕ γ)) (b : β) :
    Reports (repeating body b) ↔ ∀ b, Reports (body b) := Iff.rfl

@[simp] theorem reports_members (stalls : List Token → Option Trap) (item : β → P β) (b : β) :
    Reports (members stalls item b) ↔ ∀ b, Reports (item b) := by
  change (∀ b, Reports _) ↔ _
  simp

@[simp] theorem reports_skipSemis : Reports skipSemis := by
  simp [skipSemis]

@[simp] theorem reports_commaList (close : TokenKind) (item : P α) :
    Reports (commaList close item) ↔ Reports item := by
  simp [commaList]

@[simp] theorem reports_separated (sep : TokenKind) (item : P α) (items : List α) :
    Reports (separated sep item items) ↔ Reports item := by
  simp [separated]

@[simp] theorem reports_needName (u : NullUse) (name : Option String) :
    Reports (needName u name) := by
  cases name with
  | none => exact trivial
  | some name => exact trivial

@[simp] theorem reports_consumeIdentName : Reports consumeIdentName := by
  simp [consumeIdentName]

@[simp] theorem reports_identName (context : String) : Reports (identName context) := by
  simp [identName]

@[simp] theorem reports_expectName (context : String) : Reports (expectName context) := by
  simp [expectName]

@[simp] theorem reports_expectString (context : String) : Reports (expectString context) := by
  simp [expectString]

@[simp] theorem reports_parseQualifiedIdent : Reports parseQualifiedIdent := by
  simp [parseQualifiedIdent]

@[simp] theorem reports_recover : Reports recover := by
  simp [recover, synchronize]

/-! ## Types and patterns -/

theorem reports_parseTypePrimary : Reports parseTypePrimary := by
  simp [parseTypePrimary, typePath]

theorem reports_parseTypeExpr : Reports parseTypeExpr := by
  simp [parseTypeExpr, optionalType]

@[simp] theorem reports_typeAnnotation : Reports typeAnnotation := by
  simp [ typeAnnotation]

@[simp] theorem reports_returnType : Reports returnType := by
  simp [returnType]

theorem reports_parsePatternEx (strip : Bool) : Reports (parsePatternEx strip) := by
  simp [parsePatternEx, underscorePattern, intPattern, namePattern, subPatterns, patternPath]

/-! ## Expressions -/

@[simp] theorem reports_exprList (close : TokenKind) : Reports (exprList close) := by
  simp [exprList]

@[simp] theorem reports_parseDot (left : Node) : Reports (parseDot left) := by
  rw [parseDot, reports_bind]
  refine ⟨by simp, fun field => ?_⟩
  rw [reports_bind]
  refine ⟨by simp, fun b => ?_⟩
  rw [reports_ite]
  refine ⟨fun _ => ?_, fun _ => reports_pure _⟩
  split
  · simp
  · simp

@[simp] theorem reports_parsePathTail (left : Node) : Reports (parsePathTail left) := by
  rw [parsePathTail, reports_bind]
  refine ⟨by simp, fun tail => ?_⟩
  split
  · simp
  · simp

@[simp] theorem reports_parseOperator (left : Node) (op : TokenKind) :
    Reports (parseOperator left op) := by
  unfold parseOperator
  split
  all_goals simp [parseInfix]

theorem reports_parseExpr (minPrec : Precedence) : Reports (parseExpr minPrec) := by
  simp [parseExpr]

@[simp] theorem reports_blockOrExpr : Reports blockOrExpr := by
  simp [blockOrExpr]

theorem reports_interpPart (src : String) : Reports (interpPart src) := by
  unfold interpPart
  split
  · simp
  · simp

theorem grows_takeInterp (ts : List Token) (s : Notes) : Grows s (takeInterp ts s) := by
  unfold takeInterp
  dsimp only
  split
  · exact .trans s _ _ (grows_take ts s) (.trans _ _ _ (grows_report _ _) (grows_failed _))
  · exact grows_take ts s

@[simp] theorem reports_parseInterp : Reports parseInterp := by
  rw [parseInterp, reports_bind]
  refine ⟨reports_cur, fun t => ?_⟩
  rw [reports_bind]
  refine ⟨⟨grows_takeInterp, fun s s' h => ⟨h.errors, fun hs => ?_⟩, reports_interpPart⟩,
    fun exprs => ?_⟩
  · simp [leaveInterp, hs]
  · split
    · simp
    · simp

@[simp] theorem reports_parseParen : Reports parseParen := by
  simp [parseParen]

@[simp] theorem reports_parseIf : Reports parseIf := by
  simp [parseIf, parseElse]

@[simp] theorem reports_parseMatch : Reports parseMatch := by
  simp [parseMatch, parseMatchArm, parseMatchGuard]

@[simp] theorem reports_parseClosure : Reports parseClosure := by
  simp [parseClosure, parseClosureParam]

@[simp] theorem reports_parseTry : Reports parseTry := by
  simp [parseTry, parseCatch]

@[simp] theorem reports_commaExpr : Reports commaExpr := by
  simp [commaExpr]

@[simp] theorem reports_parseAsk : Reports parseAsk := by
  simp [parseAsk]

@[simp] theorem reports_parseChan : Reports parseChan := by
  simp [parseChan, chanType, chanSize]

@[simp] theorem reports_parseSelect : Reports parseSelect := by
  simp [parseSelect, parseSelectArm, selectFrom]

@[simp] theorem reports_parseStructLiteral (name : Option String) :
    Reports (parseStructLiteral name) := by
  simp [parseStructLiteral, parseStructEntry, entryValue]

@[simp] theorem reports_parsePrefixRest : Reports parsePrefixRest := by
  rw [parsePrefixRest, reports_bind]
  refine ⟨reports_cur, fun t => ?_⟩
  split
  all_goals simp [parseIdent, parseNameOrFail]

@[simp] theorem reports_parseUnary (op : TokenKind) : Reports (parseUnary op) := by
  unfold parseUnary
  split
  all_goals simp

theorem reports_parsePrefix : Reports parsePrefix := by
  rw [parsePrefix, reports_bind]
  refine ⟨reports_cur, fun t => ?_⟩
  split
  all_goals simp [parseHash, parseMapEntry]

/-! ## Blocks, statements and fields -/

theorem reports_parseBlock : Reports parseBlock := by
  simp [parseBlock, parseBlockStmt]

theorem reports_parseStatement : Reports parseStatement := by
  rw [parseStatement, reports_bind]
  refine ⟨reports_cur, fun t => ?_⟩
  split
  all_goals simp [parseLet, parseExprStmt, exprUnless, parseFor, parseForPattern]

theorem reports_parseDeclField : Reports parseDeclField := by
  simp [parseDeclField, fieldValue, arrayItem, allowlist, fieldItem]

theorem reports_fnBody (c : Fn) : Reports (fnBody c) := by
  cases c with
  | typePrimary => exact reports_parseTypePrimary
  | typeExpr => exact reports_parseTypeExpr
  | pattern strip => exact reports_parsePatternEx strip
  | expr minPrec => exact reports_parseExpr minPrec
  | leading => exact reports_parsePrefix
  | block => exact reports_parseBlock
  | statement => exact reports_parseStatement
  | declField => exact reports_parseDeclField

/-! ## Silence -/

/-- Nothing is reported. -/
structure Silent (s : Notes) : Prop where
  errors : s.errors = []
  hadError : s.hadError = false

theorem Grows.silent {s s' : Notes} (h : Grows s s') (hs : Silent s') : Silent s where
  errors := List.prefix_nil.1 (hs.errors ▸ h.errors)
  hadError := by
    rw [Bool.eq_false_iff]
    intro hhad
    exact Bool.false_ne_true (hs.hadError.symm.trans (h.hadError hhad))

theorem exec_grows {n : ℕ} {p : P α} (hp : Reports p) {ts us : List Token} {s s' : Notes} {a : α}
    (h : parser.exec false n p ts s = .ends a us s') : Grows s s' :=
  parser.exec_keeps Grows.refl Grows.trans reports_fnBody false n p hp ts s a us s' h

end Limceron.Parse
