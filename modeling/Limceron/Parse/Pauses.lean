/-
# `Limceron.Parse.Pauses` — the members that stall

`parser_expect` reports a token that is missing and takes nothing, so a member of a
body that begins with it may take nothing as a whole.  Which tokens it is left at
can be told from its parts: those that every one of them is left at.

| member | is left at, besides the end of the body |
| :-- | :-- |
| entry of a struct literal | all but a name, `:`, `,`, `;` |
| field of a struct | all but a type, `#`, `pub`, `priv`, `:`, `?`, `\|`, `=`, `;` |
| variant of an enum | all but a name, `(`, `;` |
| method | all but `fn`, `;` and what `parse_fn` takes without a `fn`; `#`, `pub` |
-/
import Limceron.Parse.Dry

namespace Limceron.Parse

open Readers

variable {α β γ : Type}

/-- The program is through without a token at the tokens in `K`, and takes one at
the others. -/
def Pauses (d : Nat) (p : P α) (K : TokenKind → Prop) : Prop :=
  ∀ ts s, (K (kindAt ts) → Stays d p ts s) ∧ (¬ K (kindAt ts) → parser.dry d p ts s = .moved)

/-! ## The rules -/

section Rules

variable {d : Nat} {K L : TokenKind → Prop}

theorem Pauses.congr {p : P α} (h : Pauses d p K) (hKL : ∀ k, L k ↔ K k) : Pauses d p L :=
  fun ts s => by rw [hKL]; exact h ts s

theorem pauses_pure (a : α) : Pauses d (pure a) fun _ => True := fun _ s =>
  ⟨fun _ => ⟨a, s, rfl⟩, fun h => absurd trivial h⟩

theorem pauses_fail (msg : String) : Pauses d (fail msg) fun _ => True := fun _ _ =>
  ⟨fun _ => ⟨_, _, rfl⟩, fun h => absurd trivial h⟩

theorem Pauses.bind {p : P β} {f : β → P α} (hp : Pauses d p K) (hf : ∀ b, Pauses d (f b) L) :
    Pauses d (p >>= f) fun k => K k ∧ L k := by
  intro ts s
  rw [Stays, Prog.bind_def, Reader.dry_bind]
  by_cases hK : K (kindAt ts)
  · obtain ⟨b, s', hb⟩ := (hp ts s).1 hK
    rw [hb, Dry.still_bind]
    refine ⟨fun h => (hf b ts s').1 h.2, fun h => (hf b ts s').2 fun hL => h ⟨hK, hL⟩⟩
  · rw [(hp ts s).2 hK]
    exact ⟨fun h => absurd h.1 hK, fun _ => rfl⟩

/-- What comes after is left at every token that `p` is left at. -/
theorem Pauses.then {p : P β} {f : β → P α} (hp : Pauses d p K)
    (hf : ∀ b, Pauses d (f b) fun _ => True) : Pauses d (p >>= f) K :=
  (hp.bind hf).congr fun _ => (and_iff_left trivial).symm

theorem pauses_accept {k : TokenKind} (hk : k ≠ .eof) : Pauses d (accept k) (· ≠ k) := by
  intro ts s
  rw [Stays, dry_accept hk]
  exact ⟨fun h => ⟨_, _, if_neg h⟩, fun h => if_pos (not_not.mp h)⟩

theorem pauses_ifAccept {k : TokenKind} (hk : k ≠ .eof) {p q : P α} (hq : Pauses d q K) :
    Pauses d (accept k >>= fun b => if b = true then p else q) fun j => j ≠ k ∧ K j := by
  intro ts s
  rw [Stays, Prog.bind_def, Reader.dry_bind, dry_accept hk]
  by_cases h : kindAt ts = k
  · rw [if_pos h]
    exact ⟨fun hne => absurd h hne.1, fun _ => rfl⟩
  · rw [if_neg h, Dry.still_bind]
    exact ⟨fun hne => (hq ts s).1 hne.2, fun hne => (hq ts s).2 fun hK => hne ⟨h, hK⟩⟩

theorem pauses_ifCheck {k : TokenKind} (hk : k ≠ .eof) {f : Token → P α} {q : P α}
    (hq : Pauses d q K) :
    Pauses d (check k >>= fun b => if b = true then advance >>= f else q)
      fun j => j ≠ k ∧ K j := by
  intro ts s
  rw [Stays, Prog.bind_def, Reader.dry_bind, dry_check, Dry.still_bind]
  by_cases h : kindAt ts = k
  · rw [if_pos (beq_iff_eq.2 h), Prog.bind_def, Reader.dry_bind, dry_advance,
      if_neg (ne_nil_of_kindAt h hk)]
    exact ⟨fun hne => absurd h hne.1, fun _ => rfl⟩
  · rw [if_neg (mt beq_iff_eq.1 h)]
    exact ⟨fun hne => (hq ts s).1 hne.2, fun hne => (hq ts s).2 fun hK => hne ⟨h, hK⟩⟩

theorem pauses_expect {k : TokenKind} (hk : k ≠ .eof) (context : String) :
    Pauses d (expect k context) (· ≠ k) := by
  intro ts s
  rw [Stays, dry_expect hk]
  exact ⟨fun h => ⟨_, _, if_neg h⟩, fun h => if_pos (not_not.mp h)⟩

theorem pauses_expectName (context : String) : Pauses d (expectName context) (· ≠ .ident) :=
  (pauses_expect (by decide) context).then fun t => pauses_pure t.strVal

theorem pauses_skipSemis : Pauses d skipSemis (· ≠ .semicolon) := by
  intro ts s
  rw [Stays, dry_skipSemis]
  exact ⟨fun h => ⟨_, _, if_neg h⟩, fun h => if_pos (not_not.mp h)⟩

theorem pauses_separated {sep : TokenKind} (hsep : sep ≠ .eof) (item : P α) (items : List α) :
    Pauses d (separated sep item items) (· ≠ sep) := by
  intro ts s
  rw [Stays, dry_separated hsep]
  exact ⟨fun h => ⟨_, _, if_neg h⟩, fun h => if_pos (not_not.mp h)⟩

theorem pauses_commaList (close : TokenKind) {item : P α} (hitem : Pauses d item K) :
    Pauses d (commaList close item) fun k => k = close ∨ k = .eof ∨ (K k ∧ k ≠ .comma) := by
  intro ts s
  rw [Stays, dry_commaList]
  simp only [← or_assoc]
  by_cases hend : kindAt ts = close ∨ kindAt ts = .eof
  · rw [if_pos hend]
    exact ⟨fun _ => ⟨_, _, rfl⟩, fun h => absurd (.inl hend) h⟩
  · rw [if_neg hend]
    by_cases hK : K (kindAt ts)
    · obtain ⟨x, s', hx⟩ := (hitem ts s).1 hK
      rw [hx, Dry.still_bind]
      refine ⟨fun h => ?_, fun h => ?_⟩
      · exact ⟨_, _, if_neg (h.resolve_left hend).2⟩
      · exact if_pos (by_contra fun hcomma => h (.inr ⟨hK, hcomma⟩))
    · rw [(hitem ts s).2 hK]
      exact ⟨fun h => absurd (h.resolve_left hend).1 hK, fun _ => rfl⟩

theorem pauses_identName (context : String) :
    Pauses d (identName context) (isIdentOrKeyword · = false) := by
  intro ts s
  rw [Stays, identName, Prog.bind_def, Reader.dry_bind, dry_checkName, Dry.still_bind]
  by_cases hname : isIdentOrKeyword (kindAt ts) = true
  · have hne : ts ≠ [] := by
      rintro rfl
      cases hname
    have hmoved : parser.dry d consumeIdentName ts s = .moved := by
      rw [consumeIdentName, Prog.bind_def, Reader.dry_bind, dry_cur, Dry.still_bind]
      rw [kindAt] at hname
      rw [if_pos hname, Prog.bind_def, Reader.dry_bind, dry_advance, if_neg hne]
      rfl
    rw [if_pos hname]
    exact ⟨fun h => absurd (hname.symm.trans h) (by decide), fun _ => hmoved⟩
  · have hident : kindAt ts ≠ .ident := by
      intro h
      rw [h] at hname
      exact hname rfl
    rw [if_neg hname]
    refine ⟨fun _ => (pauses_expectName context ts s).1 hident, fun h => ?_⟩
    exact absurd (Bool.eq_false_iff.2 hname) h

theorem pauses_call {c : Fn} (h : Pauses d (fnBody c) K) : Pauses (d + 1) (.call c) K := h

end Rules

/-! ## Types and attributes -/

theorem pauses_typePrimary (d : Nat) :
    Pauses (d + 1) (.call .typePrimary) (startsType · = false) := by
  refine (pauses_call ?_).congr fun k => startsType_eq_false
  rw [fnBody, parseTypePrimary]
  refine pauses_ifAccept (by decide) <| pauses_ifAccept (by decide) <|
    pauses_ifAccept (by decide) <| pauses_ifAccept (by decide) <| pauses_ifAccept (by decide) <|
    pauses_ifAccept (by decide) ?_
  refine (pauses_ifCheck (by decide) ((pauses_fail _).then fun _ => pauses_pure _)).congr ?_
  exact fun _ => (and_iff_left trivial).symm

theorem pauses_optionalType {d : Nat} (ty : Node) :
    Pauses d (optionalType ty) (· ≠ .question) :=
  (pauses_ifAccept (by decide) (pauses_pure ty)).congr fun _ => (and_iff_left trivial).symm

theorem pauses_typeExpr (d : Nat) : Pauses (d + 2) (.call .typeExpr) noType := by
  refine pauses_call (d := d + 1) ?_
  rw [fnBody, parseTypeExpr]
  refine (pauses_typePrimary d).bind fun ty => (pauses_optionalType ty).bind fun ty => ?_
  intro ts s
  rw [Stays, Prog.bind_def, Reader.dry_bind, dry_check, Dry.still_bind]
  by_cases h : kindAt ts = .pipe
  · have hmoved : parser.dry (d + 1) (separated .pipe (do
        let variant ← .call .typePrimary
        optionalType variant) [ty]) ts s = .moved :=
      ((pauses_separated (by decide) _ _) ts s).2 (not_not.2 h)
    rw [if_pos (beq_iff_eq.2 h), Prog.bind_def, Reader.dry_bind, hmoved]
    exact ⟨fun hne => absurd h hne, fun _ => rfl⟩
  · rw [if_neg (mt beq_iff_eq.1 h)]
    exact ⟨fun _ => ⟨_, _, rfl⟩, fun hne => absurd h hne⟩

theorem pauses_parseAttributes {d : Nat} : Pauses d parseAttributes (· ≠ .hash) := by
  intro ts s
  rw [Stays, parseAttributes, dry_repeating]
  simp only [Prog.bind_def, Reader.dry_bind, dry_check, Dry.still_bind]
  by_cases h : kindAt ts = .hash
  · rw [if_pos (beq_iff_eq.2 h), Reader.dry_bind, dry_advance,
      if_neg (ne_nil_of_kindAt h (by decide))]
    exact ⟨fun hne => absurd h hne, fun _ => rfl⟩
  · rw [if_neg (mt beq_iff_eq.1 h)]
    exact ⟨fun _ => ⟨_, _, rfl⟩, fun hne => absurd h hne⟩

/-! ## Members -/

/-- Some token, if it is there, and something after it. -/
theorem pauses_optional {d : Nat} {k : TokenKind} (hk : k ≠ .eof) (p : P α) (a : α) :
    Pauses d (accept k >>= fun b => if b = true then p else pure a) (· ≠ k) :=
  (pauses_ifAccept hk (pauses_pure a)).congr fun _ => (and_iff_left trivial).symm

theorem pauses_parseStructEntry (entries : List Node) :
    Pauses depth (parseStructEntry entries) fun k =>
      k ≠ .ident ∧ k ≠ .colon ∧ k ≠ .comma ∧ k ≠ .semicolon := by
  refine (pauses_expectName _).bind fun name => ?_
  refine (pauses_optional (by decide) _ _).bind fun value => ?_
  refine (pauses_accept (by decide)).bind fun _ => ?_
  exact pauses_skipSemis.then fun _ => pauses_pure _

theorem pauses_parseStructField (fields : List Node) :
    Pauses depth (parseStructField fields) fun k =>
      k ≠ .hash ∧ k ≠ .pubK ∧ k ≠ .privK ∧ k ≠ .ident ∧ k ≠ .colon ∧ noType k ∧ k ≠ .eq ∧
        k ≠ .semicolon := by
  refine pauses_parseAttributes.bind fun attrs => ?_
  refine (pauses_accept (by decide)).bind fun pub => ?_
  refine (pauses_accept (by decide)).bind fun priv => ?_
  refine (pauses_expectName _).bind fun name => ?_
  refine (pauses_expect (by decide) _).bind fun _ => ?_
  refine (pauses_typeExpr 6).bind fun ty => ?_
  refine (pauses_optional (by decide) _ _).bind fun default => ?_
  exact pauses_skipSemis.then fun _ => pauses_pure _

theorem pauses_parseVariant (variants : List Node) :
    Pauses depth (parseVariant variants) fun k => k ≠ .ident ∧ k ≠ .lparen ∧ k ≠ .semicolon := by
  refine (pauses_expectName _).bind fun name => ?_
  refine (pauses_optional (by decide) _ _).bind fun fields => ?_
  exact pauses_skipSemis.then fun _ => pauses_pure _

theorem pauses_parseFnParam :
    Pauses depth parseFnParam fun k =>
      k ≠ .amp ∧ isIdentOrKeyword k = false ∧ k ≠ .colon ∧ noType k := by
  refine pauses_ifAccept (by decide) ?_
  refine (pauses_identName _).bind fun name => ?_
  refine (pauses_expect (by decide) _).bind fun _ => ?_
  exact (pauses_typeExpr 6).then fun _ => pauses_pure _

theorem pauses_optionalBlock {d : Nat} : Pauses (d + 1) optionalBlock (· ≠ .lbrace) := by
  intro ts s
  rw [Stays, optionalBlock, Prog.bind_def, Reader.dry_bind, dry_check, Dry.still_bind]
  by_cases h : kindAt ts = .lbrace
  · have hmoved : parser.dry (d + 1) (.call .block) ts s = .moved := by
      rw [Reader.dry_call, Reader.dryRun_succ]
      change parser.dry d parseBlock ts s = .moved
      rw [parseBlock, Prog.bind_def, Reader.dry_bind, dry_expect (by decide), if_pos h]
      rfl
    rw [if_pos (beq_iff_eq.2 h), Prog.bind_def, Reader.dry_bind, hmoved]
    exact ⟨fun hne => absurd h hne, fun _ => rfl⟩
  · rw [if_neg (mt beq_iff_eq.1 h)]
    exact ⟨fun _ => ⟨_, _, rfl⟩, fun hne => absurd h hne⟩

theorem pauses_parseFn (isPub : Bool) : Pauses depth (parseFn isPub) (startsFn · = false) := by
  refine Pauses.congr (K := fun k => k ≠ .ident ∧ k ≠ .lt ∧ k ≠ .lparen ∧
    (k = .rparen ∨ k = .eof ∨
      (k ≠ .amp ∧ isIdentOrKeyword k = false ∧ k ≠ .colon ∧ noType k) ∧ k ≠ .comma) ∧
    k ≠ .rparen ∧ k ≠ .arrow ∧ k ≠ .lbrace) ?_ fun k => ?_
  · refine (pauses_expectName _).bind fun name => ?_
    refine (pauses_optional (by decide) _ _).bind fun generics => ?_
    refine (pauses_expect (by decide) _).bind fun _ => ?_
    refine (pauses_commaList _ pauses_parseFnParam).bind fun params => ?_
    refine (pauses_expect (by decide) _).bind fun _ => ?_
    refine (pauses_optional (by decide) _ _).bind fun result => ?_
    exact pauses_optionalBlock.then fun _ => pauses_pure _
  · unfold noType
    cases k <;> decide

theorem pauses_parseMethod (context : String) (methods : List Node) :
    Pauses depth (parseMethod context methods) fun k =>
      k ≠ .hash ∧ k ≠ .pubK ∧ k ≠ .fnK ∧ startsFn k = false ∧ k ≠ .semicolon := by
  refine pauses_parseAttributes.bind fun attrs => ?_
  refine (pauses_accept (by decide)).bind fun pub => ?_
  refine (pauses_expect (by decide) _).bind fun _ => ?_
  refine (pauses_parseFn pub).bind fun method => ?_
  exact pauses_skipSemis.then fun _ => pauses_pure _

theorem pauses_parseInterfaceMethod (methods : List Node) :
    Pauses depth (parseInterfaceMethod methods) fun k =>
      k ≠ .fnK ∧ startsFn k = false ∧ k ≠ .semicolon := by
  refine (pauses_expect (by decide) _).bind fun _ => ?_
  refine (pauses_parseFn true).bind fun method => ?_
  exact pauses_skipSemis.then fun _ => pauses_pure _

end Limceron.Parse
