/-
# `Limceron.Parse.Tight` — where the loops of the parser stall

Every loop takes a token each time around, or leaves, at every token; but for six,
and these stall on exactly the tokens of `Stall.on`.  So a parse comes back
exactly if it meets none of these tokens at the head of its loop, and uses no name
that is missing (`returns_iff`).
-/
import Limceron.Parse.Pauses
import Mathlib.Algebra.Order.BigOperators.Group.List
import Mathlib.Algebra.Order.Monoid.Canonical.Defs
import Mathlib.Algebra.Order.Group.Nat

namespace Limceron.Parse

open Readers

variable {α β γ : Type}

/-- The loops of `p` stall exactly where they say. -/
def Tight (p : P α) : Prop := parser.Tight depth p

/-! ## The rules -/

@[simp] theorem tight_pure (a : α) : Tight (pure a : P α) := trivial

@[simp] theorem tight_bind (p : P β) (f : β → P α) :
    Tight (p >>= f) ↔ Tight p ∧ ∀ b, Tight (f b) := Iff.rfl

@[simp] theorem tight_call (c : Fn) : Tight (.call c) := trivial

@[simp] theorem tight_trap (e : Trap) : Tight (.trap e : P α) := trivial

@[simp] theorem tight_ite {c : Prop} [Decidable c] (p q : P α) :
    Tight (if c then p else q) ↔ (c → Tight p) ∧ (¬ c → Tight q) := by
  by_cases h : c
  · simp [h]
  · simp [h]

@[simp] theorem tight_cur : Tight cur := trivial

@[simp] theorem tight_check (k : TokenKind) : Tight (check k) := trivial

@[simp] theorem tight_checkName : Tight checkName := trivial

@[simp] theorem tight_fail (msg : String) : Tight (fail msg) := trivial

@[simp] theorem tight_advance : Tight advance := ⟨trivial, fun _ => ⟨trivial, fun _ => trivial⟩⟩

@[simp] theorem tight_accept (k : TokenKind) : Tight (accept k) := by
  simp [accept]

@[simp] theorem tight_acceptText (text : String) : Tight (acceptText text) := by
  rw [acceptText, tight_bind]
  refine ⟨trivial, fun b => ?_⟩
  simp

@[simp] theorem tight_expect (k : TokenKind) (context : String) : Tight (expect k context) := by
  rw [expect, tight_bind]
  refine ⟨trivial, fun b => ?_⟩
  rw [tight_ite]
  exact ⟨fun _ => tight_advance, fun _ => trivial⟩

/-- A tight program is nowhere bad. -/
theorem Tight.wp {p : P α} (h : Tight p) (ts : List Token) (s : Notes) :
    Wp depth p ts s fun _ _ => True := h.dry_all dryRun_ne_bad ts s

theorem tight_repeating {body : β → P (β ⊕ γ)}
    (hwp : ∀ b ts s, Wp depth (body b) ts s fun r _ => r.isRight) (hbody : ∀ b, Tight (body b))
    (b : β) : Tight (repeating body b) :=
  ⟨fun b ts s _ => hwp b ts s, fun _ _ _ h => absurd rfl h, hbody⟩

@[simp] theorem tight_skipSemis : Tight skipSemis := by
  refine tight_repeating (fun _ ts s => ?_) (fun _ => by simp) ()
  rw [wp_ifAccept (by decide)]
  exact fun _ => rfl

@[simp] theorem tight_commaList (close : TokenKind) (item : P α) :
    Tight (commaList close item) ↔ Tight item := by
  constructor
  · intro h
    exact ((h.2.2 []).2 false).2 false |>.1
  · intro h
    refine tight_repeating (fun items ts s => ?_) (fun items => by simp [h]) []
    rw [wp_bind, wp_check, wp_bind, wp_check, wp_ite]
    refine ⟨fun _ => rfl, fun _ => ?_⟩
    rw [wp_bind]
    refine (h.wp ts s).mono fun x s _ => ?_
    rw [wp_ifAccept (by decide)]
    exact fun _ => rfl

@[simp] theorem tight_separated {sep : TokenKind} (hsep : sep ≠ .eof) (item : P α)
    (items : List α) : Tight (separated sep item items) ↔ Tight item := by
  constructor
  · intro h
    exact ((h.2.2 []).2 true).1
  · intro h
    refine tight_repeating (fun items ts s => ?_) (fun items => by simp [h]) items
    rw [wp_ifAccept hsep]
    exact fun _ => rfl

/-- A body of members, each of which takes a token unless the loop stalls there. -/
theorem tight_members {stalls : List Token → Option Trap} {item : β → P β}
    (hitem : ∀ b, Tight (item b))
    (heats : ∀ b ts s, stalls ts = none → kindAt ts ≠ .rbrace → kindAt ts ≠ .eof →
      Wp depth (item b) ts s fun _ _ => False)
    (hstays : ∀ b ts s, stalls ts ≠ none →
      kindAt ts ≠ .rbrace ∧ kindAt ts ≠ .eof ∧ Stays depth (item b) ts s)
    (b : β) : Tight (members stalls item b) := by
  refine ⟨fun b ts s hs => ?_, fun b ts s hs => ?_, fun b => ?_⟩
  · change Wp depth _ ts s fun (r : β ⊕ β) _ => r.isRight = true
    rw [wp_bind, wp_check, wp_bind, wp_check, wp_ite]
    refine ⟨fun _ => rfl, fun h => ?_⟩
    simp only [Bool.or_eq_true, beq_iff_eq, not_or] at h
    rw [wp_bind]
    exact (heats b ts s hs h.1 h.2).mono fun _ _ hf => hf.elim
  · obtain ⟨hbrace, heof, b', s', hdry⟩ := hstays b ts s hs
    refine ⟨b', s', ?_⟩
    have hend : (kindAt ts == .rbrace || kindAt ts == .eof) = false := by
      simp [hbrace, heof]
    simp only [Prog.bind_def, Reader.dry_bind, dry_check, Dry.still_bind, hend, Bool.false_eq_true,
      if_false, hdry]
    rfl
  · have := hitem b
    change Tight _
    simp [this]

theorem tight_members_noStall {item : β → P β} (hitem : ∀ b, Tight (item b))
    (heats : ∀ b ts s, kindAt ts ≠ .rbrace → kindAt ts ≠ .eof →
      Wp depth (item b) ts s fun _ _ => False)
    (b : β) : Tight (members noStall item b) :=
  tight_members hitem (fun b ts s _ => heats b ts s) (fun _ _ _ h => absurd rfl h) b

/-! ## Types and patterns -/

@[simp] theorem tight_needName (u : NullUse) (name : Option String) : Tight (needName u name) := by
  cases name with
  | none => exact trivial
  | some name => exact trivial

@[simp] theorem tight_consumeIdentName : Tight consumeIdentName := by
  simp [consumeIdentName]

@[simp] theorem tight_identName (context : String) : Tight (identName context) := by
  simp [identName]

@[simp] theorem tight_expectName (context : String) : Tight (expectName context) := by
  simp [expectName]

@[simp] theorem tight_expectString (context : String) : Tight (expectString context) := by
  simp [expectString]

/-- A loop that goes on after a token, and leaves where it is not there. -/
theorem tight_after {k : TokenKind} (hk : k ≠ .eof) {more : β → P (β ⊕ γ)} {done : β → γ}
    (hmore : ∀ b, Tight (more b)) (b : β) :
    Tight (repeating (fun b => accept k >>= fun c =>
      if c = true then more b else pure (.inr (done b))) b) := by
  refine tight_repeating (fun b ts s => ?_) (fun b => by simp [hmore]) b
  rw [wp_ifAccept hk]
  exact fun _ => rfl

@[simp] theorem tight_parseQualifiedIdent : Tight parseQualifiedIdent := by
  rw [parseQualifiedIdent, tight_bind]
  exact ⟨tight_consumeIdentName, tight_after (by decide) (by simp)⟩

@[simp] theorem tight_typePath (name : String) : Tight (typePath name) :=
  tight_after (by decide) (by simp) name

@[simp] theorem tight_parseTypePrimary : Tight parseTypePrimary := by
  simp [parseTypePrimary]

@[simp] theorem tight_optionalType (ty : Node) : Tight (optionalType ty) := by
  simp [optionalType]

@[simp] theorem tight_parseTypeExpr : Tight parseTypeExpr := by
  simp [parseTypeExpr]

@[simp] theorem tight_typeAnnotation : Tight typeAnnotation := by
  simp [ typeAnnotation]

@[simp] theorem tight_returnType : Tight returnType := by
  simp [returnType]

@[simp] theorem tight_parseBounds : Tight parseBounds := by
  simp [parseBounds]

@[simp] theorem tight_parseGenericParams : Tight parseGenericParams := by
  simp [parseGenericParams, parseGenericParam]

/-- `parser_advance` takes a token that is not the end. -/
theorem wp_advance_of_ne {f : Token → P α} {Q : α → Notes → Prop} {ts : List Token} {s : Notes}
    (hne : kindAt ts ≠ .eof) : Wp depth (advance >>= f) ts s Q :=
  wp_advance_bind rfl hne

@[simp] theorem tight_skipAttributeArgs : Tight skipAttributeArgs := by
  refine tight_repeating (fun n ts s => ?_) (fun n => by simp) 1
  rw [wp_ifCheck]
  refine ⟨fun _ => rfl, fun hne => ?_⟩
  rw [wp_bind, wp_check, wp_bind, wp_check, wp_ite]
  exact ⟨fun _ => rfl, fun _ => wp_advance_of_ne hne⟩

@[simp] theorem tight_attributeArgs : Tight attributeArgs := by
  simp [attributeArgs]

@[simp] theorem tight_parseAttributes : Tight parseAttributes := by
  refine tight_repeating (fun attrs ts s => ?_) (fun attrs => by simp) []
  rw [wp_ifCheck]
  exact ⟨fun h => wp_advance_bind h (by decide), fun _ => rfl⟩

@[simp] theorem tight_patternPath (name : String) : Tight (patternPath name) := by
  refine tight_repeating (fun name ts s => ?_) (fun name => by simp) name
  rw [wp_bind, wp_cur, wp_ite]
  refine ⟨fun h => wp_advance_of_ne fun heof => ?_, fun _ => rfl⟩
  rw [kindAt] at heof
  simp [heof] at h

@[simp] theorem tight_parsePatternEx (strip : Bool) : Tight (parsePatternEx strip) := by
  simp [parsePatternEx, underscorePattern, intPattern, namePattern, subPatterns]

/-! ## Expressions -/

@[simp] theorem tight_exprList (close : TokenKind) : Tight (exprList close) := by
  simp [exprList]

@[simp] theorem tight_parseDot (left : Node) : Tight (parseDot left) := by
  rw [parseDot, tight_bind]
  refine ⟨by simp, fun field => ?_⟩
  rw [tight_bind]
  refine ⟨by simp, fun b => ?_⟩
  rw [tight_ite]
  refine ⟨fun _ => ?_, fun _ => tight_pure _⟩
  split
  · simp
  · simp

@[simp] theorem tight_parsePathTail (left : Node) : Tight (parsePathTail left) := by
  rw [parsePathTail, tight_bind]
  refine ⟨by simp, fun tail => ?_⟩
  split
  · simp
  · simp

@[simp] theorem tight_parseInfix (left : Node) (op : TokenKind) : Tight (parseInfix left op) := by
  simp [parseInfix]

@[simp] theorem tight_parseOperator (left : Node) (op : TokenKind) :
    Tight (parseOperator left op) := by
  unfold parseOperator
  split
  all_goals simp

/-- An operator is taken. -/
theorem wp_parseOperator {left : Node} {op : TokenKind} {Q : Node → Notes → Prop}
    {ts : List Token} {s : Notes} (hne : kindAt ts ≠ .eof) :
    Wp depth (parseOperator left op) ts s Q := by
  unfold parseOperator
  split
  all_goals exact wp_advance_of_ne hne

@[simp] theorem tight_parseExpr (minPrec : Precedence) : Tight (parseExpr minPrec) := by
  rw [parseExpr, tight_bind]
  refine ⟨tight_call _, fun left => ?_⟩
  refine tight_repeating (fun left ts s => ?_) (fun left => by simp) left
  rw [wp_bind, wp_cur, wp_ite]
  refine ⟨fun _ => rfl, fun h => ?_⟩
  rw [wp_bind]
  refine wp_parseOperator fun heof => ?_
  rw [kindAt] at heof
  simp [heof] at h

@[simp] theorem tight_blockOrExpr : Tight blockOrExpr := by
  simp [blockOrExpr]

/-- What stands inside a token is smaller than the token. -/
theorem interpSubs_size {t : Token} {u : String × List Token} (hu : u ∈ interpSubs t) :
    parser.size u.2 < t.weight := by
  unfold interpSubs Token.interpVal at hu
  unfold Token.weight
  cases hval : t.value with
  | interp is =>
      rw [hval] at hu
      obtain ⟨part, hpart, rfl⟩ := List.mem_map.1 hu
      have hlex : parser.size (lex part.2.toList) ≤ part.2.length := by
        have := lex_weight part.2.toList
        rwa [String.length_toList] at this
      have hpart : part.2.length + 1 ≤ (is.parts.map fun part => part.2.length + 1).sum :=
        List.le_sum_of_mem (List.mem_map_of_mem hpart)
      simp only
      omega
  | _ =>
      rw [hval] at hu
      cases hu

@[simp] theorem tight_parseInterp : Tight parseInterp := by
  rw [parseInterp, tight_bind]
  refine ⟨tight_cur, fun t => ?_⟩
  rw [tight_bind]
  refine ⟨⟨fun t u hu => interpSubs_size hu, fun src => ?_⟩, fun exprs => ?_⟩
  · change Tight _
    unfold interpPart
    split
    · simp
    · exact ⟨trivial, fun _ => trivial⟩
  · split
    · simp
    · simp

@[simp] theorem tight_parseParen : Tight parseParen := by
  simp [parseParen]

@[simp] theorem tight_parseIf : Tight parseIf := by
  simp [parseIf, parseElse]

/-- The patterns, guards and bodies of a `match`: every arm takes a token. -/
@[simp] theorem tight_parseMatch : Tight parseMatch := by
  have harms : Tight (members noStall parseMatchArm []) := by
    refine tight_members_noStall (fun arms => by simp [parseMatchArm, parseMatchGuard]) ?_ []
    intro arms ts s _ hne
    rw [parseMatchArm, wp_bind]
    refine (wp_pattern 7 true).mono fun pat s _ => ?_
    rw [wp_bind, parseMatchGuard, wp_ifAccept (by decide)]
    intro _
    rw [wp_pure, wp_bind, wp_expect (by decide)]
    intro _
    rw [wp_bind, blockOrExpr, wp_ifCheck]
    refine ⟨fun h => wp_block_lbrace 7 h, fun _ => ?_⟩
    exact (eats_expr 5 _).wp fun heof => absurd heof hne
  simp [parseMatch, harms]

@[simp] theorem tight_parseClosure : Tight parseClosure := by
  simp [parseClosure, parseClosureParam]

@[simp] theorem tight_parseTry : Tight parseTry := by
  simp [parseTry, parseCatch]

@[simp] theorem tight_parseAsk : Tight parseAsk := by
  simp [parseAsk, commaExpr]

@[simp] theorem tight_parseChan : Tight parseChan := by
  simp [parseChan, chanType, chanSize]

@[simp] theorem tight_parseSelect : Tight parseSelect := by
  have harms : Tight (members noStall parseSelectArm []) := by
    refine tight_members_noStall (fun arms => by simp [parseSelectArm, selectFrom]) ?_ []
    intro arms ts s _ hne
    rw [parseSelectArm, wp_bind, expectName, wp_bind, wp_expect (by decide)]
    intro _
    rw [wp_pure, wp_bind, selectFrom, wp_ifAcceptText]
    intro _
    rw [wp_bind, wp_expect (by decide)]
    intro _
    exact (eats_expr 5 _).member hne
  simp [parseSelect, harms]

theorem stallsOn_eq (l : Stall) (ts : List Token) :
    stallsOn l ts = if l.on (kindAt ts) then some (.stall l) else none := rfl

/-- A loop stalls where its members pause. -/
theorem tight_stallsOn {l : Stall} {item : List Node → P (List Node)} {K : TokenKind → Prop}
    (hitem : ∀ nodes, Tight (item nodes)) (hpauses : ∀ nodes, Pauses depth (item nodes) K)
    (hon : ∀ k, l.on k = true ↔ k ≠ .rbrace ∧ k ≠ .eof ∧ K k) :
    Tight (members (stallsOn l) item []) := by
  refine tight_members hitem ?_ ?_ []
  · intro nodes ts s hs hbrace hne
    have hmoved := (hpauses nodes ts s).2 fun hK => by
      rw [stallsOn_eq, if_pos ((hon _).2 ⟨hbrace, hne, hK⟩)] at hs
      cases hs
    rw [Wp, hmoved]
    trivial
  · intro nodes ts s hs
    have hstall : l.on (kindAt ts) = true := by
      rw [stallsOn_eq] at hs
      by_contra h
      exact hs (if_neg h)
    obtain ⟨hbrace, hne, hK⟩ := (hon _).1 hstall
    exact ⟨hbrace, hne, (hpauses nodes ts s).1 hK⟩

@[simp] theorem tight_parseStructLiteral (name : Option String) :
    Tight (parseStructLiteral name) := by
  have hentries : Tight (members (stallsOn .structLiteral) parseStructEntry []) := by
    refine tight_stallsOn ?_ pauses_parseStructEntry ?_
    · exact fun entries => by simp [parseStructEntry, entryValue]
    · intro k
      cases k <;> decide
  simp [parseStructLiteral, hentries]

@[simp] theorem tight_parsePrefixRest : Tight parsePrefixRest := by
  rw [parsePrefixRest, tight_bind]
  refine ⟨tight_cur, fun t => ?_⟩
  split
  all_goals simp [parseIdent, parseNameOrFail]

@[simp] theorem tight_parseUnary (op : TokenKind) : Tight (parseUnary op) := by
  unfold parseUnary
  split
  all_goals simp

@[simp] theorem tight_parsePrefix : Tight parsePrefix := by
  rw [parsePrefix, tight_bind]
  refine ⟨tight_cur, fun t => ?_⟩
  split
  all_goals simp [parseHash, parseMapEntry]

/-! ## Blocks and statements -/

@[simp] theorem tight_recover : Tight recover := by
  have hloop : Tight synchronize := by
    rw [synchronize, tight_bind]
    refine ⟨trivial, fun _ => tight_repeating (fun _ ts s => ?_) (fun _ => ?_) ()⟩
    · rw [wp_bind, wp_cur, wp_bind]
      change Wp depth (ite _ _ _) ts s _
      rw [wp_ite]
      refine ⟨fun _ => rfl, fun h => wp_advance_of_ne fun heof => ?_⟩
      rw [kindAt] at heof
      simp [heof] at h
    · rw [tight_bind]
      refine ⟨tight_cur, fun t => ?_⟩
      rw [tight_bind]
      refine ⟨trivial, fun b => ?_⟩
      simp
  rw [recover, tight_bind]
  refine ⟨tight_skipSemis, fun _ => ?_⟩
  rw [tight_bind]
  refine ⟨trivial, fun b => ?_⟩
  simp [hloop]

@[simp] theorem tight_parseBlock : Tight parseBlock := by
  have hstmts : Tight (members noStall parseBlockStmt []) :=
    tight_members_noStall (fun stmts => by simp)
      (fun stmts ts s _ hne => (eats_statement 4).member hne) []
  simp [parseBlock, hstmts]

@[simp] theorem tight_exprUnless (ends : List TokenKind) : Tight (exprUnless ends) := by
  simp [exprUnless]

@[simp] theorem tight_parseFor : Tight parseFor := by
  simp [parseFor, parseForPattern]

@[simp] theorem tight_parseStatement : Tight parseStatement := by
  rw [parseStatement, tight_bind]
  refine ⟨tight_cur, fun t => ?_⟩
  split
  all_goals simp [parseLet, parseExprStmt, commaExpr]

/-! ## Functions, types and modules -/

@[simp] theorem tight_paramAfter (isMut : Bool) : Tight (paramAfter isMut) := by
  simp [paramAfter]

@[simp] theorem tight_parseFn (isPub : Bool) : Tight (parseFn isPub) := by
  simp [parseFn, parseFnParam, optionalBlock]

@[simp] theorem tight_parseStruct (isPub : Bool) : Tight (parseStruct isPub) := by
  have hfields : Tight (members (stallsOn .structBody) parseStructField []) := by
    refine tight_stallsOn ?_ pauses_parseStructField ?_
    · exact fun fields => by simp [parseStructField, defaultValue]
    · intro k
      unfold noType
      cases k <;> decide
  simp [parseStruct, hfields]

@[simp] theorem tight_parseEnum (isPub : Bool) : Tight (parseEnum isPub) := by
  have hvariants : Tight (members (stallsOn .enumBody) parseVariant []) := by
    refine tight_stallsOn ?_ pauses_parseVariant ?_
    · exact fun variants => by simp [parseVariant, variantFields, parseVariantField]
    · intro k
      cases k <;> decide
  simp [parseEnum, hvariants]

/-- The methods of a trait, and of an `impl`. -/
theorem tight_methods {l : Stall} {context : String}
    (hon : ∀ k, l.on k = true ↔ k ≠ .rbrace ∧ k ≠ .eof ∧
      k ≠ .hash ∧ k ≠ .pubK ∧ k ≠ .fnK ∧ startsFn k = false ∧ k ≠ .semicolon) :
    Tight (members (stallsOn l) (parseMethod context) []) :=
  tight_stallsOn (fun methods => by simp [parseMethod]) (pauses_parseMethod context) hon

@[simp] theorem tight_parseTrait (isPub : Bool) : Tight (parseTrait isPub) := by
  have hmethods : Tight (members (stallsOn .traitBody) (parseMethod "in trait body") []) :=
    tight_methods fun k => by cases k <;> decide
  simp [parseTrait, superTraits, hmethods]

@[simp] theorem tight_parseInterface (isPub : Bool) : Tight (parseInterface isPub) := by
  have hmethods : Tight (members (stallsOn .interfaceBody) parseInterfaceMethod []) := by
    refine tight_stallsOn ?_ pauses_parseInterfaceMethod ?_
    · exact fun methods => by simp [parseInterfaceMethod]
    · intro k
      cases k <;> decide
  simp [parseInterface, hmethods]

@[simp] theorem tight_parseImpl : Tight parseImpl := by
  have hmethods : Tight (members (stallsOn .implBody) (parseMethod "in impl body") []) :=
    tight_methods fun k => by cases k <;> decide
  simp [parseImpl, implTarget, hmethods]

@[simp] theorem tight_parseModuleDecl : Tight parseModuleDecl := by
  rw [parseModuleDecl, tight_bind]
  refine ⟨tight_expectName _, fun name => ?_⟩
  rw [tight_bind]
  exact ⟨tight_after (by decide) (by simp) name, fun name => tight_pure _⟩

@[simp] theorem tight_usePath (path : Option String) : Tight (usePath path) := by
  refine tight_repeating (fun path ts s => ?_) (fun path => ?_) path
  · rw [wp_ifAccept (by decide)]
    intro _
    rw [wp_ifAccept (by decide)]
    intro _
    rw [wp_bind, usePathEnd, wp_ifAccept (by decide)]
    exact fun _ => rfl
  · simp [usePathStep, usePathEnd, importList]

@[simp] theorem tight_parseUseDecl : Tight parseUseDecl := by
  rw [parseUseDecl, tight_bind]
  refine ⟨tight_expectName _, fun path => ?_⟩
  rw [tight_bind]
  refine ⟨tight_check _, fun b => ?_⟩
  rw [tight_ite]
  refine ⟨fun _ => ?_, fun _ => tight_usePath path⟩
  split
  all_goals simp [useImport, importAlias]

/-! ## Fields and agents -/

@[simp] theorem tight_parseDeclField : Tight parseDeclField := by
  have hitems : Tight (members noStall fieldItem []) :=
    tight_members_noStall (fun items => by simp)
      (fun items ts s _ hne => (eats_declField 4).member hne) []
  simp [parseDeclField, fieldValue, arrayItem, allowlist, hitems]

@[simp] theorem tight_fieldLines (context : String) : Tight (fieldLines context) := by
  have hlines : Tight (members noStall fieldLine []) :=
    tight_members_noStall (fun fields => by simp)
      (fun fields ts s _ hne => (eats_declField 4).member hne) []
  simp [fieldLines, hlines]

@[simp] theorem tight_optionalFields (context : String) : Tight (optionalFields context) := by
  simp [optionalFields]

/-- A field, or a token that is passed over. -/
theorem eats_fieldOrSkip {msg : String} (field : Node → α) (a : α) :
    Eats depth (checkName >>= fun b =>
      if b = true then .call .declField >>= fun node => pure (field node)
      else fail msg >>= fun _ => advance >>= fun _ => pure a) := by
  intro ts s
  rw [wp_ifCheckName]
  refine ⟨fun _ => ?_, fun _ => ?_⟩
  · rw [wp_bind]
    exact (eats_declField 4).wp fun heof _ _ => heof
  · rw [wp_bind, wp_fail, wp_bind, wp_advance]
    rintro rfl
    rfl

/-- A line of a body: a member, and semicolons. -/
theorem tight_lines {item : β → P γ} {f : β → γ → P β} (hitem : ∀ b, Tight (item b))
    (hf : ∀ b c, Tight (f b c)) (heats : ∀ b, Eats depth (item b)) (b : β) :
    Tight (members noStall (fun b => item b >>= f b) b) :=
  tight_members_noStall (fun b => (tight_bind (item b) (f b)).2 ⟨hitem b, hf b⟩)
    (fun b _ _ _ hne => (heats b).member hne) b

@[simp] theorem tight_useNames : Tight useNames := by
  refine tight_repeating (fun elems ts s => ?_) (fun elems => by simp) []
  rw [wp_bind]
  refine (tight_consumeIdentName.wp ts s).mono fun name s _ => ?_
  rw [wp_ifAccept (by decide)]
  exact fun _ => rfl

theorem eats_agentMember (parts : List Node × List Node) : Eats depth (agentMember parts) := by
  intro ts s
  rw [agentMember, wp_bind, wp_cur]
  split
  case h_4 => exact eats_fieldOrSkip _ _ ts s
  all_goals
    next h => exact wp_advance_bind h (by decide)

theorem tight_agentMember (parts : List Node × List Node) : Tight (agentMember parts) := by
  rw [agentMember, tight_bind]
  refine ⟨tight_cur, fun t => ?_⟩
  split
  all_goals simp

@[simp] theorem tight_parseAgent (isPub : Bool) : Tight (parseAgent isPub) := by
  have hlines : Tight (members noStall agentLine ([], [])) :=
    tight_lines tight_agentMember (by simp) eats_agentMember _
  simp [parseAgent, hlines]

/-! ## Capabilities -/

@[simp] theorem tight_ruleNode (kind : NodeKind) (allow : Bool) (context : String) :
    Tight (ruleNode kind allow context) := by
  simp [ruleNode]

@[simp] theorem tight_parseCapAllowRule : Tight parseCapAllowRule := by
  simp [parseCapAllowRule]

@[simp] theorem tight_parseCapDenyRule : Tight parseCapDenyRule := by
  simp [parseCapDenyRule]

@[simp] theorem tight_parseCapDefault : Tight parseCapDefault := by
  simp [parseCapDefault]

@[simp] theorem tight_capabilityItem : Tight capabilityItem := by
  simp [capabilityItem, capRequires]

theorem eats_capabilityItem : Eats depth capabilityItem := by
  intro ts s
  rw [capabilityItem, wp_ifAccept (by decide)]
  intro _
  rw [wp_ifAccept (by decide)]
  intro _
  rw [wp_ifAcceptText]
  intro _
  rw [wp_ifCheckName]
  refine ⟨fun hname => ?_, fun _ => ?_⟩
  · rw [wp_bind]
    exact wp_consumeIdentName fun h => absurd (hname.symm.trans h) (by decide)
  · rw [wp_bind, wp_fail, wp_bind, wp_advance]
    rintro rfl
    rfl

@[simp] theorem tight_parseCapability (isPub : Bool) : Tight (parseCapability isPub) := by
  have hlines : Tight (members noStall capabilityLine []) :=
    tight_lines (fun _ => tight_capabilityItem) (by simp) (fun _ => eats_capabilityItem) _
  simp [parseCapability, hlines]

/-! ## Tools and skills -/

@[simp] theorem tight_typedName {name : P (Option String)} :
    Tight (typedName name) ↔ Tight name := by
  simp [typedName]

@[simp] theorem tight_parseGuard (isPub : Bool) : Tight (parseGuard isPub) := by
  simp [parseGuard, guardParams]

@[simp] theorem tight_fieldsDecl (kind : NodeKind) (isPub : Bool)
    (nameContext openContext closeContext : String) :
    Tight (fieldsDecl kind isPub nameContext openContext closeContext) := by
  simp [fieldsDecl]

theorem tight_toolItem (parts : List Node × List Node) : Tight (toolItem parts) := by
  simp [toolItem, toolFieldValue]

theorem eats_toolItem (parts : List Node × List Node) : Eats depth (toolItem parts) := by
  intro ts s
  rw [toolItem, wp_ifCheckName]
  refine ⟨fun hname => ?_, fun _ => ?_⟩
  · rw [wp_bind, wp_advance]
    rintro rfl
    cases hname
  · rw [wp_bind]
    exact (eats_statement 4).wp fun heof _ _ => heof

@[simp] theorem tight_parseTool (isPub : Bool) : Tight (parseTool isPub) := by
  have hlines : Tight (members noStall toolLine ([], [])) :=
    tight_lines tight_toolItem (by simp) eats_toolItem _
  simp [parseTool, hlines]

@[simp] theorem tight_skillMember : Tight skillMember := by
  rw [skillMember, tight_bind]
  refine ⟨tight_cur, fun t => ?_⟩
  split
  all_goals simp

theorem eats_skillMember : Eats depth skillMember := by
  intro ts s
  rw [skillMember, wp_bind, wp_cur]
  split
  case h_5 => exact eats_fieldOrSkip _ _ ts s
  all_goals
    next h => exact wp_advance_bind h (by decide)

@[simp] theorem tight_parseSkill (isPub : Bool) : Tight (parseSkill isPub) := by
  have hlines : Tight (members noStall skillLine []) :=
    tight_lines (fun _ => tight_skillMember) (by simp) (fun _ => eats_skillMember) _
  simp [parseSkill, hlines]

/-! ## Progress, meshes, routers, metrics, health -/

@[simp] theorem tight_parseProgress : Tight parseProgress := by
  have hlines : Tight (members noStall progressField { kind := .progress }) := by
    refine tight_members_noStall (fun node => by simp [progressField]) ?_ _
    intro node ts s _ hne
    rw [progressField, wp_bind]
    refine wp_consumeIdentName fun _ fname s => ?_
    rw [wp_bind, wp_expect (by decide)]
    exact fun _ => (eats_expr 5 _).member hne
  simp [parseProgress, hlines]

/-- A rule that begins with `route`, a stage, or a field. -/
theorem eats_meshMember : Eats depth meshMember := by
  intro ts s
  rw [meshMember, wp_ifAccept (by decide)]
  intro _
  rw [wp_ifAcceptText]
  exact fun _ => eats_fieldOrSkip _ _ ts s

@[simp] theorem tight_meshMember : Tight meshMember := by
  simp [meshMember, meshRoute, meshStage, parseMeshIdentList]

@[simp] theorem tight_parseMesh (isPub : Bool) : Tight (parseMesh isPub) := by
  have hlines : Tight (members noStall meshLine []) :=
    tight_lines (fun _ => tight_meshMember) (by simp) (fun _ => eats_meshMember) _
  simp [parseMesh, hlines]

theorem eats_routerMember : Eats depth routerMember := by
  intro ts s
  rw [routerMember, wp_ifAccept (by decide)]
  exact fun _ => eats_fieldOrSkip _ _ ts s

@[simp] theorem tight_routerMember : Tight routerMember := by
  simp [routerMember, routeRule]

@[simp] theorem tight_parseRouter (isPub : Bool) : Tight (parseRouter isPub) := by
  have hlines : Tight (members noStall routerLine []) :=
    tight_lines (fun _ => tight_routerMember) (by simp) (fun _ => eats_routerMember) _
  simp [parseRouter, hlines]

theorem eats_metricsMember (parts : List Node × Int) : Eats depth (metricsMember parts) := by
  intro ts s
  rw [metricsMember, wp_bind, wp_cur, wp_ite]
  refine ⟨fun hident => ?_, fun _ => ?_⟩
  · have hne : kindAt ts ≠ .eof := by
      rw [kindAt, hident]
      decide
    rw [wp_ite]
    refine ⟨fun _ => wp_advance_of_ne hne, fun _ => ?_⟩
    rw [wp_ite]
    refine ⟨fun _ => wp_advance_of_ne hne, fun _ => ?_⟩
    rw [wp_bind]
    exact (eats_declField 4).wp fun heof _ _ => heof
  · rw [wp_bind, wp_fail, wp_bind, wp_advance]
    rintro rfl
    rfl

theorem tight_metricsMember (parts : List Node × Int) : Tight (metricsMember parts) := by
  simp [metricsMember, metricsField, metricsPort]

@[simp] theorem tight_parseMetrics : Tight parseMetrics := by
  have hlines : Tight (members noStall metricsLine ([], 9091)) :=
    tight_lines tight_metricsMember (by simp) eats_metricsMember _
  simp [parseMetrics, hlines]

@[simp] theorem tight_parseHealth : Tight parseHealth := by
  have hlines : Tight (members noStall healthLine { kind := .health, val := .int 9090 }) :=
    tight_lines (fun _ => tight_call _) (by simp) (fun _ => eats_declField 4) _
  simp [parseHealth, hlines]

/-! ## Declarations, and the program -/

theorem tight_declOf {isPub : Bool} {t : Token} {parse : P Node} (h : declOf isPub t = some parse) :
    Tight parse := by
  unfold declOf at h
  split at h
  · unfold namedDecl at h
    split at h
    case h_5 => cases h
    all_goals
      cases h
      simp [parseLink, parseExtern]
  · unfold keywordDecl at h
    split at h
    case h_24 => cases h
    all_goals
      cases h
      simp [parseTypeAlias, parseConstDecl, parseTaintDecl, parseBudget, parseSupervisor,
        parseInvariant]

theorem declOf_eof (isPub : Bool) : declOf isPub Token.eof = none := rfl

@[simp] theorem tight_parseDeclaration : Tight parseDeclaration := by
  rw [parseDeclaration, tight_bind]
  refine ⟨tight_parseAttributes, fun attrs => ?_⟩
  rw [tight_bind]
  refine ⟨tight_accept _, fun isPub => ?_⟩
  rw [tight_bind]
  refine ⟨tight_cur, fun t => ?_⟩
  split
  · next parse hparse => simp [tight_declOf hparse]
  · simp [statementDecl]

theorem eats_parseDeclaration : Eats depth parseDeclaration := by
  intro ts s
  rw [parseDeclaration, wp_bind]
  refine (tight_parseAttributes.wp ts s).mono fun attrs s _ => ?_
  rw [wp_bind, wp_accept (by decide)]
  intro _
  rw [wp_bind, wp_cur]
  split
  · next parse hparse =>
      rw [wp_bind, wp_advance]
      rintro rfl
      rw [current, List.headD_nil, declOf_eof] at hparse
      cases hparse
  · rw [statementDecl, wp_ite]
    refine ⟨fun hpub => absurd hpub Bool.false_ne_true, fun _ => ?_⟩
    exact eats_statement 4 ts s

theorem tight_parseProgram : Tight parseProgram := by
  rw [parseProgram, tight_bind]
  refine ⟨tight_skipSemis, fun _ => ?_⟩
  rw [tight_bind]
  refine ⟨tight_repeating (fun decls ts s => ?_) (fun decls => by simp [programDecl]) [],
    fun decls => tight_pure _⟩
  rw [wp_ifCheck]
  refine ⟨fun _ => rfl, fun hne => ?_⟩
  rw [wp_bind, programDecl]
  refine (eats_parseDeclaration.member hne).mono fun _ _ hf => hf.elim

theorem tight_fnBody (c : Fn) : Tight (fnBody c) := by
  cases c with
  | typePrimary => exact tight_parseTypePrimary
  | typeExpr => exact tight_parseTypeExpr
  | pattern strip => exact tight_parsePatternEx strip
  | expr minPrec => exact tight_parseExpr minPrec
  | leading => exact tight_parsePrefix
  | block => exact tight_parseBlock
  | statement => exact tight_parseStatement
  | declField => exact tight_parseDeclField

theorem parser_tight : parser.IsTight depth where
  weight_pos := Token.weight_pos
  tight := tight_fnBody
  dry := dryRun_ne_bad

theorem tight_parseText : Tight parseText := ⟨trivial, fun _ => tight_parseProgram⟩

end Limceron.Parse
