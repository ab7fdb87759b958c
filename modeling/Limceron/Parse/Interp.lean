/-
# `Limceron.Parse.Interp` — what the parser reads of a string literal

For each source in a literal `parse_prefix` makes a lexer and a parser of its own, and
calls `parse_expression` once.  It does not look at what stands behind the expression, so
that of `${a b}` only `a` is read, without an error.

`faithful_iff` says which literals come through the lexer and the parser as they are
written.
-/
import Limceron.Parse.Reports
import Limceron.Parse.Strings

namespace Limceron.Parse

open Readers Result

/-! ## One source -/

/-- `parse_expression` reads the source without an error, and leaves `left`. -/
def ReadsUpTo (src : String) (left : List Token) : Prop :=
  ∃ n node s, parser.exec false n (interpPart src) (lex src.toList) .new = .ends node left s ∧
    Silent s

/-- The source is one expression. -/
def Complete (src : String) : Prop := ReadsUpTo src []

theorem ReadsUpTo.unique {src : String} {left left' : List Token} (h : ReadsUpTo src left)
    (h' : ReadsUpTo src left') : left = left' := by
  obtain ⟨n, node, s, hrun, -⟩ := h
  obtain ⟨n', node', s', hrun', -⟩ := h'
  have hmax := parser.exec_mono (Nat.le_max_left n n') (by rw [hrun]; simp)
  have hmax' := parser.exec_mono (Nat.le_max_right n n') (by rw [hrun']; simp)
  rw [hrun] at hmax
  rw [hrun', hmax] at hmax'
  cases hmax'
  rfl

theorem silent_new : Silent .new := ⟨rfl, rfl⟩

theorem enterInterp_silent {s : Notes} (h : Silent s) : enterInterp s = .new := by
  rw [enterInterp, h.errors]
  rfl

theorem leaveInterp_silent {s s' : Notes} (h : Silent s) :
    Silent (leaveInterp s s') ↔ Silent s' := by
  constructor
  · rintro ⟨herrors, hhad⟩
    exact ⟨herrors, by simpa [leaveInterp, h.hadError] using hhad⟩
  · rintro ⟨herrors, hhad⟩
    exact ⟨herrors, by simp [leaveInterp, h.hadError, hhad]⟩

/-! ## All sources -/

/-- The sources, one after the other. -/
def readSources (n : ℕ) (srcs : List String) :
    List Token → Notes → Result Token Notes Trap (List Node) :=
  eachOf enterInterp leaveInterp (fun src => parser.exec false n (interpPart src))
    (srcs.map fun src => (src, lex src.toList))

theorem readSources_grows (n : ℕ) (srcs : List String) : Leads Grows (readSources n srcs) := by
  have hleave : ∀ s s', Grows (enterInterp s) s' → Grows s (leaveInterp s s') :=
    fun s s' h => ⟨h.errors, fun hs => by simp [leaveInterp, hs]⟩
  have hread : ∀ src, Leads Grows (parser.exec false n (interpPart src)) :=
    fun src ts s a us s' h => exec_grows (reports_interpPart src) h
  exact leads_eachOf Grows.refl Grows.trans hleave hread _

/-- In silence, each source was read. -/
theorem reads_of_silent {n : ℕ} {srcs : List String} {ts us : List Token} {s s' : Notes}
    {nodes : List Node} (h : readSources n srcs ts s = .ends nodes us s') (hs' : Silent s') :
    ∀ src ∈ srcs, ∃ left, ReadsUpTo src left := by
  induction srcs generalizing ts s nodes with
  | nil => simp
  | cons src srcs ih =>
      have hs : Silent s := (readSources_grows n _ ts s nodes us s' h).silent hs'
      obtain ⟨node, left, s₁, hs₁, hrest⟩ := bind_eq_ends h
      obtain ⟨nodes', ts', s₂, hs₂, hend⟩ := bind_eq_ends hrest
      cases hend
      have hmid : Silent (leaveInterp s s₁) := (readSources_grows n srcs _ _ _ _ _ hs₂).silent hs'
      rw [enterInterp_silent hs] at hs₁
      intro src' hmem
      rcases List.mem_cons.1 hmem with rfl | hmem
      · exact ⟨left, n, node, s₁, hs₁, (leaveInterp_silent hs).1 hmid⟩
      · exact ih hs₂ src' hmem

theorem readSources_mono {n m : ℕ} (hnm : n ≤ m) {srcs : List String} {ts us : List Token}
    {s s' : Notes} {nodes : List Node} (h : readSources n srcs ts s = .ends nodes us s') :
    readSources m srcs ts s = .ends nodes us s' := by
  have hbelow : Below False (readSources n srcs ts s) (readSources m srcs ts s) :=
    Below.eachOf (fun src ts s => parser.exec_below (.inl rfl) hnm (interpPart src) ts s) _ ts s
  rcases hbelow with heq | hmore | hfalse
  · rw [← heq, h]
  · rw [h] at hmore
    cases hmore
  · exact hfalse.1.elim

/-- If each source can be read, all are read in silence. -/
theorem silent_of_reads {srcs : List String} (h : ∀ src ∈ srcs, ∃ left, ReadsUpTo src left)
    (ts : List Token) {s : Notes} (hs : Silent s) :
    ∃ n nodes s', readSources n srcs ts s = .ends nodes ts s' ∧ Silent s' := by
  induction srcs generalizing s with
  | nil => exact ⟨0, [], s, rfl, hs⟩
  | cons src srcs ih =>
      obtain ⟨left, n₁, node, s₁, hrun, hs₁⟩ := h src List.mem_cons_self
      obtain ⟨n₂, nodes, s', hrest, hs'⟩ := ih (fun src' hmem => h src' (List.mem_cons_of_mem _ hmem))
        ((leaveInterp_silent hs).2 hs₁)
      have hfirst := parser.exec_mono (Nat.le_max_left n₁ n₂) (by rw [hrun]; simp)
      have hlater := readSources_mono (Nat.le_max_right n₁ n₂) hrest
      refine ⟨max n₁ n₂, node :: nodes, s', ?_, hs'⟩
      rw [readSources] at hlater
      rw [readSources, List.map_cons, eachOf, enterInterp_silent hs, hfirst, hrun, ends_bind, hlater,
        ends_bind]

/-! ## The token -/

theorem parsePrefix_interp {t : Token} (hkind : t.kind = .interpString) {is : InterpString}
    (hvalue : t.value = .interp is) (n : ℕ) (ts : List Token) (s : Notes) :
    parser.exec false n parsePrefix (t :: ts) s =
      (readSources n (is.parts.map Prod.snd) (ts.dropWhile parser.skips)
        (takeInterp (t :: ts) s)).bind fun exprs ts s =>
          .ends { kind := .interpString, params := interpParts is exprs } ts s := by
  have hval : t.interpVal = some is := by rw [Token.interpVal, hvalue]
  have hsubs : interpSubs t =
      (is.parts.map Prod.snd).map fun src => (src, lex src.toList) := by
    simp [interpSubs, hval]
  have hparse : parser.exec false n parsePrefix (t :: ts) s =
      parser.exec false n parseInterp (t :: ts) s := by
    rw [parsePrefix, Prog.bind_def, Reader.exec_bind, cur, Reader.exec_act, ends_bind, current,
      List.headD_cons, hkind]
  rw [hparse, parseInterp, Prog.bind_def, Reader.exec_bind, cur, Reader.exec_act, ends_bind,
    Prog.bind_def, Reader.exec_bind, current, List.headD_cons]
  simp only [hval]
  rw [readSources, ← hsubs]
  rfl

theorem takeInterp_nested {t : Token} {is : InterpString} (hvalue : t.value = .interp is)
    {ts : List Token} {s : Notes} (h : Silent (takeInterp (t :: ts) s)) :
    is.nestedDetected = false := by
  have hval : t.interpVal = some is := by rw [Token.interpVal, hvalue]
  rw [Bool.eq_false_iff]
  intro hnested
  have hhad := h.hadError
  simp [takeInterp, current, hval, hnested, Notes.failed] at hhad

theorem takeInterp_silent {t : Token} {is : InterpString} (hvalue : t.value = .interp is)
    (hnested : is.nestedDetected = false) : Silent (takeInterp [t] .new) := by
  have hval : t.interpVal = some is := by rw [Token.interpVal, hvalue]
  have htake : takeInterp [t] .new = take [t] .new := by
    simp [takeInterp, current, hval, hnested]
  rw [htake]
  exact ⟨rfl, rfl⟩

/-- What the parser reads of a token, if it reports nothing. -/
theorem interp_complete_iff {t : Token} (hkind : t.kind = .interpString) {is : InterpString}
    (hvalue : t.value = .interp is) :
    (∀ n ts s node us s', parser.exec false n parsePrefix (t :: ts) s = .ends node us s' →
        Silent s' → ∀ src ∈ is.parts.map Prod.snd, Complete src) ↔
      (is.nestedDetected = false →
        (∀ src ∈ is.parts.map Prod.snd, ∃ left, ReadsUpTo src left) →
          ∀ src ∈ is.parts.map Prod.snd, Complete src) := by
  constructor
  · intro h hnested hreads
    obtain ⟨n, nodes, s', hrun, hs'⟩ :=
      silent_of_reads hreads [] (takeInterp_silent hvalue hnested)
    refine h n [] .new { kind := .interpString, params := interpParts is nodes } [] s' ?_ hs'
    rw [parsePrefix_interp hkind hvalue, List.dropWhile_nil, hrun, ends_bind]
  · intro h n ts s node us s' hrun hs'
    rw [parsePrefix_interp hkind hvalue] at hrun
    obtain ⟨nodes, ts', s₁, hs₁, hend⟩ := bind_eq_ends hrun
    cases hend
    have hstart := (readSources_grows n _ _ _ _ _ _ hs₁).silent hs'
    exact h (takeInterp_nested hvalue hstart) (reads_of_silent hs₁ hs')

/-! ## Literals -/

/-- A literal that is accepted comes through as it is written: the token has the decoded
segments and the sources, and if nothing is reported, each source is one expression. -/
def Faithful (cs : List Char) : Prop :=
  ∀ tok rest, lexRaw ('"' :: cs) = (tok, rest) → tok.kind ≠ .error → tok.diags = [] →
    ∃ lit, Spells cs lit rest ∧ tok.value = lit.value ∧
      ∀ n ts s node us s', parser.exec false n parsePrefix (tok :: ts) s = .ends node us s' →
        Silent s' → ∀ e ∈ lit.sources, Complete (String.ofList e)

/-- The literal fits, and has no source of which a part is left, all being read. -/
structure Literal.Whole (lit : Literal) : Prop where
  fits : lit.Fits
  complete : lit.nested = false →
    (∀ e ∈ lit.sources, ∃ left, ReadsUpTo (String.ofList e) left) →
      ∀ e ∈ lit.sources, Complete (String.ofList e)

theorem lexRaw_spells {cs rest : List Char} {lit : Literal} (h : Spells cs lit rest)
    (hcount : lit.parts.length ≤ 32) :
    ∃ parts buf, Kept [] lit.parts lit.last parts (cstr buf) ∧
      lexRaw ('"' :: cs) = (stringToken parts lit.nested buf [], rest) := by
  have hcount' : ([] : List (String × String)).length + lit.parts.length ≤ 32 := by
    simpa using hcount
  have hnil : ([] : List Char).length ≤ 8191 := by simp
  obtain ⟨parts, buf, hkept, hlex⟩ := lexString_spells h hcount' false hnil
  refine ⟨parts, buf, hkept, ?_⟩
  rw [lexRaw, hlex, List.nil_append, Bool.false_or]

theorem stringToken_kind (parts : List (String × String)) (nested : Bool) (buf : List Char)
    (diags : List String) : (stringToken parts nested buf diags).kind =
      if parts.isEmpty then .stringLit else .interpString := by
  unfold stringToken
  split
  · rfl
  · rfl

/-- The parser's part of it, the token being the literal. -/
theorem complete_iff {tok : Token} {lit : Literal}
    (hkind : tok.kind = if lit.parts.isEmpty then .stringLit else .interpString)
    (hvalue : tok.value = lit.value) :
    (∀ n ts s node us s', parser.exec false n parsePrefix (tok :: ts) s = .ends node us s' →
        Silent s' → ∀ e ∈ lit.sources, Complete (String.ofList e)) ↔
      (lit.nested = false → (∀ e ∈ lit.sources, ∃ left, ReadsUpTo (String.ofList e) left) →
        ∀ e ∈ lit.sources, Complete (String.ofList e)) := by
  cases hparts : lit.parts.isEmpty with
  | true =>
      have hsources : lit.sources = [] := by
        rw [Literal.sources, List.isEmpty_iff.1 hparts, List.map_nil]
      simp [hsources]
  | false =>
      obtain ⟨is, his, hnested, hsources⟩ := Literal.value_of_parts hparts
      rw [hparts] at hkind
      have hiff := interp_complete_iff hkind (hvalue.trans his)
      simpa only [hnested, hsources, List.forall_mem_map] using hiff

/-- A literal comes through, exactly if it fits, and all of it is read. -/
theorem faithful_iff (cs : List Char) :
    Faithful cs ↔ ∀ lit rest, Spells cs lit rest → lit.parts.length ≤ 32 → lit.Whole := by
  constructor
  · intro h lit rest hlit hcount
    obtain ⟨parts, buf, hkept, hlex⟩ := lexRaw_spells hlit hcount
    have hkind := stringToken_kind parts lit.nested buf []
    obtain ⟨lit', hlit', hvalue, hruns⟩ := h _ rest hlex
      (by rw [hkind]; split <;> simp) (stringToken_diags _ _ _ _)
    obtain ⟨rfl, -⟩ := hlit.unique hlit'
    rw [hkept.isEmpty] at hkind
    exact ⟨hkept.value_iff.1 hvalue, (complete_iff hkind hvalue).1 hruns⟩
  · intro h tok rest hlex hkind hdiags
    obtain ⟨lit, hlit, hcount⟩ := spells_of_accepted cs (Nat.zero_le _) hlex hkind hdiags
    rw [List.length_nil, Nat.zero_add] at hcount
    obtain ⟨hfits, hcomplete⟩ := h lit rest hlit hcount
    obtain ⟨parts, buf, hkept, hlex'⟩ := lexRaw_spells hlit hcount
    obtain ⟨rfl, -⟩ := Prod.mk.inj (hlex.symm.trans hlex')
    have hvalue := hkept.value_iff.2 hfits
    have hinterp := stringToken_kind parts lit.nested buf []
    rw [hkept.isEmpty] at hinterp
    exact ⟨lit, hlit, hvalue, (complete_iff hinterp hvalue).2 hcomplete⟩

/-! ## What is ignored -/

/-- What a run leaves and has reported. -/
def leaves {α : Type} : Result Token Notes Trap α → Option (List Token × List String × Bool)
  | .ends _ ts s => some (ts, s.errors, s.hadError)
  | _ => none

theorem readsUpTo_of_leaves {src : String} {n : ℕ} {left : List Token}
    (h : leaves (parser.exec false n (interpPart src) (lex src.toList) .new) =
      some (left, [], false)) : ReadsUpTo src left := by
  cases hrun : parser.exec false n (interpPart src) (lex src.toList) .new with
  | more =>
      rw [hrun] at h
      cases h
  | traps e =>
      rw [hrun] at h
      cases h
  | ends node ts s =>
      rw [hrun] at h
      simp only [leaves, Option.some.injEq, Prod.mk.injEq] at h
      obtain ⟨rfl, herrors, hhad⟩ := h
      exact ⟨n, node, s, hrun, herrors, hhad⟩

/-- The literal `"${a b}"`: nothing is reported of `b`. -/
theorem rest_ignored : ¬ Faithful "$\x7ba b\x7d\"".toList := by
  have hclosing : Braces.closing 0 false "a b\x7d\"".toList = some ("a b".toList, ['"']) := by
    decide +kernel
  have hbody := (Braces.closing_iff.1 hclosing).1
  have hlit : Spells "$\x7ba b\x7d\"".toList ⟨[([], "a b".toList)], []⟩ [] :=
    .site hbody (.close [])
  have hreads : ReadsUpTo "a b" [{ kind := .ident, value := .str "b" }] := by
    refine readsUpTo_of_leaves (n := 8) ?_
    decide +kernel
  intro h
  obtain ⟨parts, buf, hkept, hlex⟩ := lexRaw_spells hlit (by decide)
  have hkind := stringToken_kind parts (Literal.nested ⟨[([], "a b".toList)], []⟩) buf []
  obtain ⟨lit', hlit', hvalue, hruns⟩ := h _ [] hlex
    (by rw [hkind]; split <;> simp) (stringToken_diags _ _ _ _)
  obtain ⟨rfl, -⟩ := hlit.unique hlit'
  rw [hkept.isEmpty] at hkind
  have hcomplete : Complete "a b" := by
    refine (complete_iff hkind hvalue).1 hruns (by decide +kernel) ?_ _ List.mem_cons_self
    intro e he
    obtain rfl := List.mem_singleton.1 he
    exact ⟨_, hreads⟩
  cases hreads.unique hcomplete

end Limceron.Parse
