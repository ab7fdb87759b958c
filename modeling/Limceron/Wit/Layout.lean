/-
# `Limceron.Wit.Layout` — WIT files as they are laid out

A file here is a list of blocks, written with any white space and any comments
between its words.  What the loader is asked to find are the functions of its
interfaces (`fileFuncs`), however the file is laid out.  It finds them when

| in | |
| :-- | :-- |
| an interface | names, types and parameters fit the tables |
| a package | no comment holds a `;` or a brace |
| a world | no comment before its brace holds a `;` or a brace, and none inside holds a brace |
| behind a world | there is white space, or the end |

(`Tidy`, `lcnWitLoad_tidy`).
-/
import Limceron.Wit.Load

namespace Limceron.Wit

open Json (ascii)

/-! ## Gaps -/

/-- White space, or a comment up to the end of its line. -/
inductive GapPiece where
  | space (c : UInt8)
  | comment (t : Bytes)
  deriving DecidableEq

abbrev Gap := List GapPiece

def GapPiece.text : GapPiece → Bytes
  | .space c => [c]
  | .comment t => slash :: slash :: (t ++ [newline])

def gapText (g : Gap) : Bytes := g.flatMap GapPiece.text

def GapPiece.Ok : GapPiece → Prop
  | .space c => isSpace c = true
  | .comment t => newline ∉ t

def GapOk (g : Gap) : Prop := ∀ p ∈ g, p.Ok

theorem skipFrom_comment {t : Bytes} (h : newline ∉ t) (rest : Bytes) :
    skipFrom true (t ++ newline :: rest) = skipWs rest := by
  induction t with
  | nil => rfl
  | cons c t ih =>
      have hc : c ≠ newline := fun heq => h (by simp [heq])
      rw [List.cons_append, skipFrom, decide_eq_true hc]
      exact ih fun ht => h (by simp [ht])

theorem skipWs_space {c : UInt8} (h : isSpace c = true) (s : Bytes) :
    skipWs (c :: s) = skipWs s := by
  rw [skipWs, skipFrom, if_pos h]
  rfl

theorem skipWs_gap {g : Gap} (h : GapOk g) (rest : Bytes) :
    skipWs (gapText g ++ rest) = skipWs rest := by
  induction g with
  | nil => rfl
  | cons p g ih =>
      have hp : p.Ok := h p (by simp)
      have hg := ih fun q hq => h q (by simp [hq])
      rw [gapText, List.flatMap_cons, List.append_assoc, ← gapText]
      cases p with
      | space c => exact (skipWs_space hp _).trans hg
      | comment t =>
          rw [GapPiece.text, List.cons_append, List.cons_append, List.append_assoc, skipWs,
            skipFrom, if_neg (by decide), if_pos ⟨rfl, rfl⟩, skipFrom, decide_eq_true (by decide)]
          exact (skipFrom_comment hp _).trans hg

/-- A character that `skip_ws` stops at. -/
def Mark (c : UInt8) : Prop := isSpace c = false ∧ c ≠ slash

theorem skipWs_mark {c : UInt8} (h : Mark c) (s : Bytes) : skipWs (c :: s) = c :: s := by
  rw [skipWs, skipFrom, if_neg (by simp [h.1]), if_neg (fun hc => h.2 hc.1)]

theorem matchChar_gap {g : Gap} (hg : GapOk g) {c : UInt8} (hc : Mark c) (rest : Bytes) :
    matchChar c (gapText g ++ c :: rest) = some rest := by
  rw [matchChar, skipWs_gap hg, skipWs_mark hc, List.head?_cons, if_pos rfl, List.tail_cons]

/-! ## Words -/

/-- An identifier. -/
def Ident (name : Bytes) : Prop := name ≠ [] ∧ ∀ c ∈ name, isIdent c = true

/-- A text in front of which an identifier ends. -/
def Stops (s : Bytes) : Prop := ∀ c, s.head? = some c → isIdent c = false

theorem mark_of_isIdent {c : UInt8} (h : isIdent c = true) : Mark c := by
  constructor
  · by_contra hspace
    simp only [isSpace, isIdent, dash, Bool.not_eq_false, Bool.or_eq_true, Bool.and_eq_true,
      decide_eq_true_eq, UInt8.le_iff_toNat_le, ← UInt8.toNat_inj] at h hspace
    simp at h hspace
    omega
  · rintro rfl
    cases h

theorem Ident.skipWs {name : Bytes} (h : Ident name) (rest : Bytes) :
    Wit.skipWs (name ++ rest) = name ++ rest := by
  obtain ⟨hne, hall⟩ := h
  cases name with
  | nil => exact absurd rfl hne
  | cons c name => exact skipWs_mark (mark_of_isIdent (hall c (by simp))) _

theorem takeWhile_append_stops {name rest : Bytes} (h : ∀ c ∈ name, isIdent c = true)
    (hrest : Stops rest) : (name ++ rest).takeWhile isIdent = name := by
  rw [List.takeWhile_append_of_pos h]
  cases rest with
  | nil => simp
  | cons c rest => rw [List.takeWhile_cons_of_neg (by simp [hrest c rfl]), List.append_nil]

theorem dropWhile_append_stops {name rest : Bytes} (h : ∀ c ∈ name, isIdent c = true)
    (hrest : Stops rest) : (name ++ rest).dropWhile isIdent = rest := by
  rw [List.dropWhile_append_of_pos h]
  cases rest with
  | nil => rfl
  | cons c rest => rw [List.dropWhile_cons_of_neg (by simp [hrest c rfl])]

theorem readIdent_ident {name rest : Bytes} (h : Ident name) (hlength : name.length ≤ 63)
    (hrest : Stops rest) : readIdent (name ++ rest) = some (name, rest) := by
  rw [readIdent, takeWhile_append_stops h.2 hrest, dropWhile_append_stops h.2 hrest,
    if_neg h.1, List.take_of_length_le hlength]

theorem stops_gap {g : Gap} (hg : GapOk g) {s : Bytes} (hs : Stops s) :
    Stops (gapText g ++ s) := by
  cases g with
  | nil => exact hs
  | cons p g =>
      have hp : p.Ok := hg p (by simp)
      intro c hc
      cases p with
      | space d =>
          obtain rfl : d = c := by simpa [gapText, GapPiece.text] using hc
          by_contra hident
          have hmark := mark_of_isIdent (by simpa using hident)
          exact absurd hmark.1 (by simp [show isSpace d = true from hp])
      | comment t =>
          obtain rfl : slash = c := by simpa [gapText, GapPiece.text] using hc
          decide

theorem stops_cons {c : UInt8} (h : isIdent c = false) (s : Bytes) : Stops (c :: s) := by
  rintro d hd
  obtain rfl : c = d := by simpa using hd
  exact h

/-! ## Types -/

/-- The angle brackets of a text are closed at its end, and not before. -/
def closes : Nat → Bytes → Bool
  | depth, [] => depth == 0
  | depth, c :: s => depth != 0 && closes (angleDepth depth c) s

/-- A type: `_`, a name, or a name with arguments. -/
inductive TypeText : Bytes → Prop
  | blank : TypeText [0x5F]
  | name {t : Bytes} : Ident t → t.head? ≠ some 0x5F → TypeText t
  | generic {t body : Bytes} : Ident t → t.head? ≠ some 0x5F → closes 1 body = true →
      TypeText (t ++ less :: body)

theorem readAngles_closes {depth : Nat} {body : Bytes} (h : closes depth body = true)
    (rest : Bytes) : readAngles depth (body ++ rest) = (body, rest) := by
  induction body generalizing depth with
  | nil =>
      obtain rfl : depth = 0 := by simpa [closes] using h
      cases rest <;> rfl
  | cons c body ih =>
      simp only [closes, Bool.and_eq_true, bne_iff_ne] at h
      rw [List.cons_append, readAngles, if_neg h.1, ih h.2]

/-- A text in front of which a type ends. -/
def Behind (s : Bytes) : Prop := Stops s ∧ s.head? ≠ some less

theorem readTypeToken_type {t rest : Bytes} (h : TypeText t) (hlength : t.length ≤ 31)
    (hrest : Behind rest) : readTypeToken (t ++ rest) = some (t, rest) := by
  have hhead {t : Bytes} (ht : Ident t) (hne : t.head? ≠ some 0x5F) (s : Bytes) :
      (t ++ s).head? ≠ some 0x5F := by
    cases t with
    | nil => exact absurd rfl ht.1
    | cons c t => exact hne
  cases h with
  | blank => rfl
  | name ht hne =>
      rw [readTypeToken, if_neg (hhead ht hne rest), takeWhile_append_stops ht.2 hrest.1,
        dropWhile_append_stops ht.2 hrest.1, readGeneric, if_neg hrest.2]
      simp only [List.append_nil]
      rw [if_neg ht.1, List.take_of_length_le hlength]
  | generic ht hne hbody =>
      rename_i t body
      have hstops : Stops (less :: body ++ rest) := stops_cons (by decide) _
      rw [List.append_assoc, readTypeToken, if_neg (hhead ht hne _),
        takeWhile_append_stops ht.2 hstops, dropWhile_append_stops ht.2 hstops, List.cons_append,
        readGeneric, List.head?_cons, if_pos rfl, List.tail_cons, readAngles_closes hbody]
      simp only
      rw [if_neg (by simp), List.take_of_length_le hlength]

theorem TypeText.mark {t : Bytes} (h : TypeText t) :
    ∃ c s, t = c :: s ∧ isIdent c = true := by
  have hident {t : Bytes} (ht : Ident t) : ∃ c s, t = c :: s ∧ isIdent c = true := by
    cases t with
    | nil => exact absurd rfl ht.1
    | cons c s => exact ⟨c, s, rfl, ht.2 c (by simp)⟩
  cases h with
  | blank => exact ⟨_, _, rfl, by decide⟩
  | name ht _ => exact hident ht
  | generic ht _ _ =>
      obtain ⟨c, s, rfl, hc⟩ := hident ht
      exact ⟨c, _, rfl, hc⟩

theorem TypeText.skipWs {t : Bytes} (h : TypeText t) (rest : Bytes) :
    Wit.skipWs (t ++ rest) = t ++ rest := by
  obtain ⟨c, s, rfl, hc⟩ := h.mark
  exact skipWs_mark (mark_of_isIdent hc) _

theorem behind_gap {g : Gap} (hg : GapOk g) {c : UInt8} (hc : isIdent c = false)
    (hless : c ≠ less) (s : Bytes) : Behind (gapText g ++ c :: s) := by
  refine ⟨stops_gap hg (stops_cons hc s), ?_⟩
  cases g with
  | nil => simpa [gapText] using hless
  | cons p g =>
      have hp : p.Ok := hg p (by simp)
      cases p with
      | space d =>
          rintro heq
          obtain rfl : d = less := by simpa [gapText, GapPiece.text] using heq
          cases hp
      | comment t =>
          simp [gapText, GapPiece.text, slash, less]

/-! ## Functions as they are laid out -/

structure ParamText where
  before : Gap
  name : Bytes
  beforeColon : Gap
  beforeType : Gap
  type : Bytes
  behind : Gap

structure RetText where
  beforeArrow : Gap
  beforeType : Gap
  type : Bytes

structure FuncText where
  before : Gap
  name : Bytes
  beforeColon : Gap
  beforeWord : Gap
  beforeParen : Gap
  params : List ParamText
  /-- Between the parentheses, when there is no parameter. -/
  inner : Gap
  ret : Option RetText
  beforeEnd : Gap

def ParamText.text (p : ParamText) : Bytes :=
  gapText p.before ++ (p.name ++ (gapText p.beforeColon ++
    colonChar :: (gapText p.beforeType ++ (p.type ++ gapText p.behind))))

def paramsText (inner : Gap) : List ParamText → Bytes
  | [] => gapText inner
  | [p] => p.text
  | p :: q :: ps => p.text ++ comma :: paramsText inner (q :: ps)

def retText : Option RetText → Bytes
  | none => []
  | some r => gapText r.beforeArrow ++ dash :: greater :: (gapText r.beforeType ++ r.type)

def FuncText.text (f : FuncText) : Bytes :=
  gapText f.before ++ (f.name ++ (gapText f.beforeColon ++ colonChar :: (gapText f.beforeWord ++
    (funcWord ++ (gapText f.beforeParen ++ openParen :: (paramsText f.inner f.params ++
      closeParen :: (retText f.ret ++ (gapText f.beforeEnd ++ [semicolon]))))))))

def ParamText.value (p : ParamText) : WitParam := ⟨p.name, p.type⟩

/-- The function that is laid out, of an interface `ns`. -/
def FuncText.value (ns : Bytes) (f : FuncText) : WitFunc :=
  ⟨ns ++ dot :: f.name, f.params.map ParamText.value,
    match f.ret with
    | none => [0x5F]
    | some r => r.type⟩

structure ParamText.Ok (p : ParamText) : Prop where
  before : GapOk p.before
  name : Ident p.name
  beforeColon : GapOk p.beforeColon
  beforeType : GapOk p.beforeType
  type : TypeText p.type
  behind : GapOk p.behind

structure RetText.Ok (r : RetText) : Prop where
  beforeArrow : GapOk r.beforeArrow
  beforeType : GapOk r.beforeType
  type : TypeText r.type

structure FuncText.Ok (f : FuncText) : Prop where
  before : GapOk f.before
  name : Ident f.name
  beforeColon : GapOk f.beforeColon
  beforeWord : GapOk f.beforeWord
  beforeParen : GapOk f.beforeParen
  params : ∀ p ∈ f.params, p.Ok
  inner : GapOk f.inner
  ret : ∀ r ∈ f.ret, r.Ok
  beforeEnd : GapOk f.beforeEnd

/-- The buffers hold a parameter. -/
def ParamText.Fits (p : ParamText) : Prop := p.name.length ≤ 63 ∧ p.type.length ≤ 31

/-- The buffers and the table of parameters hold a function of an interface `ns`. -/
structure FuncText.Fits (ns : Bytes) (f : FuncText) : Prop where
  name : (ns ++ dot :: f.name).length ≤ 63
  params : ∀ p ∈ f.params, p.Fits
  count : f.params.length ≤ 8
  ret : ∀ r ∈ f.ret, r.type.length ≤ 31

/-! ## Functions are read -/

/-- One parameter, up to the comma or the parenthesis behind it. -/
theorem paramLoop_param {p : ParamText} (hp : p.Ok) (hfits : p.Fits) {c : UInt8}
    (hc : c = comma ∨ c = closeParen) {n : Nat} (params : List WitParam) (rest : Bytes) :
    paramLoop (n + 1) params (p.text ++ c :: rest) =
      if c = comma then paramLoop n (pushParam params p.name p.type) rest
      else some (pushParam params p.name p.type, rest) := by
  have hmark : Mark c := by rcases hc with rfl | rfl <;> exact ⟨by decide, by decide⟩
  have hident : isIdent c = false := by rcases hc with rfl | rfl <;> decide
  have hless : c ≠ less := by rcases hc with rfl | rfl <;> decide
  have hstops (s : Bytes) : Stops (gapText p.beforeColon ++ colonChar :: s) :=
    stops_gap hp.beforeColon (stops_cons (by decide) s)
  have hclose (s : Bytes) : (p.name ++ s).head? ≠ some closeParen := by
    obtain ⟨hne, hall⟩ := hp.name
    cases hname : p.name with
    | nil => exact absurd hname hne
    | cons d t =>
        rw [hname] at hall
        rintro heq
        obtain rfl : d = closeParen := by simpa using heq
        exact absurd (hall closeParen (by simp)) (by decide)
  simp only [ParamText.text, List.append_assoc, List.cons_append]
  rw [paramLoop, skipWs_gap hp.before, hp.name.skipWs]
  simp only
  rw [if_neg (hclose _), readIdent_ident hp.name hfits.1 (hstops _)]
  simp only
  rw [matchChar_gap hp.beforeColon ⟨by decide, by decide⟩]
  simp only
  rw [skipWs_gap hp.beforeType, hp.type.skipWs,
    readTypeToken_type hp.type hfits.2 (behind_gap hp.behind hident hless _)]
  simp only
  rw [skipWs_gap hp.behind, skipWs_mark hmark, List.head?_cons, List.tail_cons]
  rcases hc with rfl | rfl
  · rw [if_pos rfl, if_pos rfl]
  · rw [if_neg (by decide), if_pos rfl, if_neg (by decide)]

theorem paramLoop_params {ps : List ParamText} (hps : ∀ p ∈ ps, p.Ok ∧ p.Fits) {inner : Gap}
    (hinner : GapOk inner) {n : Nat} (hn : ps.length < n) (params : List WitParam)
    (hcount : params.length + ps.length ≤ 8) (rest : Bytes) :
    paramLoop n params (paramsText inner ps ++ closeParen :: rest) =
      some (params ++ ps.map ParamText.value, rest) := by
  induction ps generalizing n params with
  | nil =>
      obtain ⟨n, rfl⟩ : ∃ m, n = m + 1 := ⟨n - 1, by simp at hn; omega⟩
      rw [paramsText, paramLoop, skipWs_gap hinner, skipWs_mark ⟨by decide, by decide⟩]
      simp
  | cons p ps ih =>
      obtain ⟨n, rfl⟩ : ∃ m, n = m + 1 := ⟨n - 1, by simp at hn; omega⟩
      obtain ⟨hp, hfits⟩ := hps p (by simp)
      rw [List.length_cons] at hn hcount
      have hpush : pushParam params p.name p.type = params ++ [p.value] := by
        rw [pushParam, if_pos (by omega)]
        rfl
      cases ps with
      | nil =>
          rw [paramsText, paramLoop_param hp hfits (.inr rfl), if_neg (by decide), hpush]
          rfl
      | cons q ps =>
          rw [paramsText, List.append_assoc, List.cons_append,
            paramLoop_param hp hfits (.inl rfl), if_pos rfl, hpush,
            ih (fun r hr => hps r (by simp [hr])) (by omega) _
              (by rw [List.length_append, List.length_singleton]; omega)]
          simp

theorem length_paramsText {ps : List ParamText} {inner : Gap} :
    ps.length ≤ (paramsText inner ps).length + 1 := by
  induction ps with
  | nil => exact Nat.zero_le _
  | cons p ps ih =>
      cases ps with
      | nil => simp
      | cons q ps =>
          rw [paramsText, List.length_append, List.length_cons (a := comma), List.length_cons]
          omega

theorem returnType_text {f : FuncText} (h : f.Ok) (hfits : ∀ r ∈ f.ret, r.type.length ≤ 31)
    (ns rest : Bytes) :
    ∃ s, returnType (retText f.ret ++ (gapText f.beforeEnd ++ semicolon :: rest)) =
      ((f.value ns).retType, s) ∧ skipWs s = semicolon :: rest := by
  have hmark : Mark semicolon := ⟨by decide, by decide⟩
  cases hret : f.ret with
  | none =>
      have hskip := (skipWs_gap h.beforeEnd (semicolon :: rest)).trans (skipWs_mark hmark _)
      refine ⟨semicolon :: rest, ?_, skipWs_mark hmark _⟩
      have hno : ¬ [dash, greater] <+: semicolon :: rest := by
        rintro ⟨t, ht⟩
        cases ht
      rw [retText, List.nil_append, returnType, hskip, if_neg hno, FuncText.value, hret]
  | some r =>
      have hr : r.Ok := h.ret r hret
      refine ⟨gapText f.beforeEnd ++ semicolon :: rest, ?_,
        (skipWs_gap h.beforeEnd _).trans (skipWs_mark hmark _)⟩
      have hdash : Mark dash := ⟨by decide, by decide⟩
      simp only [retText, List.append_assoc, List.cons_append]
      rw [returnType, skipWs_gap hr.beforeArrow, skipWs_mark hdash, if_pos ⟨_, rfl⟩]
      simp only [List.drop_succ_cons, List.drop_zero]
      rw [skipWs_gap hr.beforeType, hr.type.skipWs, readTypeToken_type hr.type (hfits r hret)
        (behind_gap h.beforeEnd (by decide) (by decide) _), FuncText.value, hret]
      rfl

theorem funcHead_text {f : FuncText} (h : f.Ok) (rest : Bytes) :
    funcHead (gapText f.beforeColon ++ colonChar :: (gapText f.beforeWord ++
      (funcWord ++ (gapText f.beforeParen ++ openParen :: rest)))) = .ok rest := by
  have hword : Ident funcWord := ⟨by decide, by decide⟩
  have hparen : Stops (gapText f.beforeParen ++ openParen :: rest) :=
    stops_gap h.beforeParen (stops_cons (by decide) rest)
  rw [funcHead, matchChar_gap h.beforeColon ⟨by decide, by decide⟩]
  simp only
  rw [skipWs_gap h.beforeWord, hword.skipWs, readIdent_ident hword (by decide) hparen]
  simp only
  rw [if_neg (by simp), matchChar_gap h.beforeParen ⟨by decide, by decide⟩]

/-- One function of an interface. -/
theorem interfaceLoop_func {ns : Bytes} {f : FuncText} (h : f.Ok) (hfits : f.Fits ns) {n : Nat}
    (funcs : List WitFunc) (rest : Bytes) :
    interfaceLoop ns (n + 1) funcs (f.text ++ rest) =
      interfaceLoop ns n (contractPush funcs (f.value ns)) rest := by
  have hname : f.name.length ≤ 63 := by
    have hlength := hfits.name
    rw [List.length_append, List.length_cons] at hlength
    omega
  obtain ⟨hne, hall⟩ := h.name
  have hstops (s : Bytes) : Stops (gapText f.beforeColon ++ colonChar :: s) :=
    stops_gap h.beforeColon (stops_cons (by decide) s)
  have hclose (s : Bytes) : (f.name ++ s).head? ≠ some closeBrace := by
    cases heq : f.name with
    | nil => exact absurd heq hne
    | cons d t =>
        rw [heq] at hall
        rintro hd
        obtain rfl : d = closeBrace := by simpa using hd
        exact absurd (hall closeBrace (by simp)) (by decide)
  simp only [FuncText.text, List.append_assoc, List.cons_append, List.nil_append]
  rw [interfaceLoop, skipWs_gap h.before, h.name.skipWs]
  simp only
  rw [if_neg (by simp [hne]), if_neg (hclose _), readIdent_ident h.name hname (hstops _)]
  simp only
  rw [funcHead_text h]
  simp only
  have hcount : f.params.length < (paramsText f.inner f.params ++ closeParen ::
      (retText f.ret ++ (gapText f.beforeEnd ++ semicolon :: rest))).length + 1 := by
    have hlength : f.params.length ≤ (paramsText f.inner f.params).length + 1 := length_paramsText
    rw [List.length_append, List.length_cons]
    omega
  obtain ⟨s, hret, hs⟩ := returnType_text h hfits.ret ns rest
  rw [paramLoop_params (fun p hp => ⟨h.params p hp, hfits.params p hp⟩) h.inner hcount []
    (by simpa using hfits.count)]
  simp only
  rw [hret]
  simp only
  rw [hs, List.head?_cons, if_pos rfl, List.tail_cons, List.nil_append,
    List.take_of_length_le hfits.name]
  rfl

/-- The functions of an interface, and the brace behind them. -/
theorem interfaceLoop_funcs {ns : Bytes} {fs : List FuncText} (h : ∀ f ∈ fs, f.Ok ∧ f.Fits ns)
    {g : Gap} (hg : GapOk g) {n : Nat} (hn : fs.length < n) (funcs : List WitFunc)
    (hcount : funcs.length + fs.length ≤ 128) (rest : Bytes) :
    interfaceLoop ns n funcs (fs.flatMap FuncText.text ++ (gapText g ++ closeBrace :: rest)) =
      some (funcs ++ fs.map (FuncText.value ns), rest) := by
  induction fs generalizing n funcs with
  | nil =>
      obtain ⟨n, rfl⟩ : ∃ m, n = m + 1 := ⟨n - 1, by simp at hn; omega⟩
      rw [List.flatMap_nil, List.nil_append, interfaceLoop, skipWs_gap hg,
        skipWs_mark ⟨by decide, by decide⟩]
      simp
  | cons f fs ih =>
      obtain ⟨n, rfl⟩ : ∃ m, n = m + 1 := ⟨n - 1, by simp at hn; omega⟩
      obtain ⟨hf, hfits⟩ := h f (by simp)
      rw [List.length_cons] at hn hcount
      have hpush : contractPush funcs (f.value ns) = funcs ++ [f.value ns] := by
        rw [contractPush, if_pos (by omega)]
      rw [List.flatMap_cons, List.append_assoc, interfaceLoop_func hf hfits, hpush,
        ih (fun f' hf' => h f' (by simp [hf'])) (by omega) _
          (by rw [List.length_append, List.length_singleton]; omega)]
      simp

/-! ## Blocks as they are laid out -/

/-- What stands in a world. -/
inductive BodyText where
  /-- Words and punctuation. -/
  | code (t : Bytes)
  /-- A comment or a string. -/
  | aside (t : Bytes)
  | braces (body : List BodyText)

mutual

def BodyText.text : BodyText → Bytes
  | .code t => t
  | .aside t => t
  | .braces body => openBrace :: (bodyText body ++ [closeBrace])

def bodyText : List BodyText → Bytes
  | [] => []
  | b :: bs => b.text ++ bodyText bs

end

/-- A block; `before` is the gap in front of its word. -/
inductive BlockText where
  | interface (before beforeName : Gap) (name : Bytes) (beforeOpen : Gap) (funcs : List FuncText)
      (beforeClose : Gap)
  | package (before beforeName : Gap) (name : Bytes) (beforeEnd : Gap)
  | world (before beforeName : Gap) (name : Bytes) (beforeOpen : Gap) (body : List BodyText)

def packageWord : Bytes := ascii "package"

def worldWord : Bytes := ascii "world"

def BlockText.text : BlockText → Bytes
  | .interface before beforeName name beforeOpen funcs beforeClose =>
      gapText before ++ (interfaceWord ++ (gapText beforeName ++ (name ++ (gapText beforeOpen ++
        openBrace :: (funcs.flatMap FuncText.text ++ (gapText beforeClose ++ [closeBrace]))))))
  | .package before beforeName name beforeEnd =>
      gapText before ++ (packageWord ++ (gapText beforeName ++ (name ++
        (gapText beforeEnd ++ [semicolon]))))
  | .world before beforeName name beforeOpen body =>
      gapText before ++ (worldWord ++ (gapText beforeName ++ (name ++ (gapText beforeOpen ++
        openBrace :: (bodyText body ++ [closeBrace])))))

/-- A file: blocks, and a gap behind the last. -/
def fileText (blocks : List BlockText) (behind : Gap) : Bytes :=
  blocks.flatMap BlockText.text ++ gapText behind

def BlockText.funcs : BlockText → List WitFunc
  | .interface _ _ name _ funcs _ => funcs.map (FuncText.value name)
  | .package .. => []
  | .world .. => []

def fileFuncs (blocks : List BlockText) : List WitFunc := blocks.flatMap BlockText.funcs

/-- No brace and no `;`. -/
def Quiet (t : Bytes) : Prop := ∀ c ∈ t, c ≠ semicolon ∧ c ≠ openBrace ∧ c ≠ closeBrace

def NoBrace (t : Bytes) : Prop := ∀ c ∈ t, c ≠ openBrace ∧ c ≠ closeBrace

mutual

def BodyText.Ok : BodyText → Prop
  | .code t => NoBrace t
  | .aside _ => True
  | .braces body => BodyOk body

def BodyOk : List BodyText → Prop
  | [] => True
  | b :: bs => b.Ok ∧ BodyOk bs

end

def BlockText.Ok : BlockText → Prop
  | .interface before beforeName name beforeOpen funcs beforeClose =>
      GapOk before ∧ GapOk beforeName ∧ beforeName ≠ [] ∧ Ident name ∧ GapOk beforeOpen ∧
        (∀ f ∈ funcs, f.Ok) ∧ GapOk beforeClose
  | .package before beforeName name beforeEnd =>
      GapOk before ∧ GapOk beforeName ∧ beforeName ≠ [] ∧ Quiet name ∧ GapOk beforeEnd
  | .world before beforeName name beforeOpen body =>
      GapOk before ∧ GapOk beforeName ∧ beforeName ≠ [] ∧ Ident name ∧ GapOk beforeOpen ∧
        BodyOk body

def FileOk (blocks : List BlockText) (behind : Gap) : Prop :=
  (∀ b ∈ blocks, b.Ok) ∧ GapOk behind

/-! ## What the loader can skip -/

mutual

def BodyText.Tidy : BodyText → Prop
  | .code _ => True
  | .aside t => NoBrace t
  | .braces body => BodyTidy body

def BodyTidy : List BodyText → Prop
  | [] => True
  | b :: bs => b.Tidy ∧ BodyTidy bs

end

/-- What stands behind a world does not lose its first character to it. -/
def Loose (s : Bytes) : Prop := ∀ c, s.head? = some c → isSpace c = true

/-- The block can be read or skipped, in front of `rest`. -/
def BlockText.Tidy (rest : Bytes) : BlockText → Prop
  | .interface _ _ name _ funcs _ => name.length ≤ 63 ∧ ∀ f ∈ funcs, f.Fits name
  | .package _ beforeName _ beforeEnd => Quiet (gapText beforeName) ∧ Quiet (gapText beforeEnd)
  | .world _ beforeName _ beforeOpen body =>
      Quiet (gapText beforeName) ∧ Quiet (gapText beforeOpen) ∧ BodyTidy body ∧ Loose rest

def Tidy (behind : Gap) : List BlockText → Prop
  | [] => True
  | b :: bs => b.Tidy (fileText bs behind) ∧ Tidy behind bs

/-! ## Skipping -/

theorem skipBlock_quiet {t : Bytes} (h : Quiet t) (rest : Bytes) :
    skipBlock (t ++ rest) = skipBlock rest := by
  induction t with
  | nil => rfl
  | cons c t ih =>
      obtain ⟨hsemi, hopen, hclose⟩ := h c (by simp)
      rw [List.cons_append, skipBlock, if_neg (by simp [hsemi, hclose]), if_neg hopen]
      exact ih fun d hd => h d (by simp [hd])

theorem skipBraces_noBrace {t : Bytes} (h : NoBrace t) (depth : Nat) (rest : Bytes) :
    skipBraces (depth + 1) (t ++ rest) = skipBraces (depth + 1) rest := by
  induction t with
  | nil => rfl
  | cons c t ih =>
      obtain ⟨hopen, hclose⟩ := h c (by simp)
      rw [List.cons_append, skipBraces, if_neg (Nat.succ_ne_zero _), braceDepth, if_neg hopen,
        if_neg hclose]
      exact ih fun d hd => h d (by simp [hd])

theorem skipBraces_open (depth : Nat) (rest : Bytes) :
    skipBraces (depth + 1) (openBrace :: rest) = skipBraces (depth + 2) rest := rfl

theorem skipBraces_close (depth : Nat) (rest : Bytes) :
    skipBraces (depth + 1) (closeBrace :: rest) = skipBraces depth rest := rfl

theorem skipBraces_zero (rest : Bytes) : skipBraces 0 rest = rest := by
  cases rest <;> rfl

mutual

theorem BodyText.skipBraces_text {b : BodyText} (h : b.Ok) (htidy : b.Tidy) (depth : Nat)
    (rest : Bytes) : skipBraces (depth + 1) (b.text ++ rest) = skipBraces (depth + 1) rest := by
  cases b with
  | code t => exact skipBraces_noBrace h depth rest
  | aside t => exact skipBraces_noBrace htidy depth rest
  | braces body =>
      rw [BodyText.text, List.cons_append, List.append_assoc, List.singleton_append,
        skipBraces_open, skipBraces_bodyText h htidy, skipBraces_close]

theorem skipBraces_bodyText {bs : List BodyText} (h : BodyOk bs) (htidy : BodyTidy bs)
    (depth : Nat) (rest : Bytes) :
    skipBraces (depth + 1) (bodyText bs ++ rest) = skipBraces (depth + 1) rest := by
  cases bs with
  | nil => rfl
  | cons b bs =>
      rw [bodyText, List.append_assoc, BodyText.skipBraces_text h.1 htidy.1,
        skipBraces_bodyText h.2 htidy.2]

end

/-! ## Blocks are read -/

theorem Ident.quiet {name : Bytes} (h : Ident name) : Quiet name := by
  intro c hc
  have hident := h.2 c hc
  refine ⟨?_, ?_, ?_⟩
  all_goals
    rintro rfl
    cases hident

theorem stops_of_ne_nil {g : Gap} (hg : GapOk g) (hne : g ≠ []) (s : Bytes) :
    Stops (gapText g ++ s) := by
  cases g with
  | nil => exact absurd rfl hne
  | cons p g =>
      have hp : Stops (p.text ++ (gapText g ++ s)) := by
        intro c hc
        have hfirst := stops_gap (g := [p]) (s := []) (fun q hq => hg q (by simp_all))
          (by simp [Stops]) c
        cases p <;> simp_all [gapText, GapPiece.text]
      simpa [gapText] using hp

/-- The word of a block is read, and then what stands behind it. -/
theorem loadLoop_word {before : Gap} (hbefore : GapOk before) {word rest : Bytes}
    (hword : Ident word) (hlength : word.length ≤ 63) (hrest : Stops rest) {n : Nat}
    (funcs : List WitFunc) :
    loadLoop (n + 1) funcs (gapText before ++ (word ++ rest)) =
      if word = interfaceWord then
        (readInterface funcs rest).bind fun r => loadLoop n r.1 r.2
      else loadLoop n funcs (skipBlock rest) := by
  rw [loadLoop, skipWs_gap hbefore, hword.skipWs, if_neg (by simp [hword.1]),
    readIdent_ident hword hlength hrest]
  simp only
  congr 1
  cases readInterface funcs rest <;> rfl

theorem loadLoop_tail {s : Bytes} (h : Loose s) (n : Nat) (funcs : List WitFunc) :
    loadLoop n funcs s.tail = loadLoop n funcs s := by
  cases s with
  | nil => rfl
  | cons c s =>
      cases n with
      | zero => rfl
      | succ n => rw [List.tail_cons, loadLoop, loadLoop, skipWs_space (h c rfl)]

theorem readInterface_text {beforeName beforeOpen beforeClose : Gap} {name : Bytes}
    {fs : List FuncText} (hbefore : GapOk beforeName) (hname : Ident name)
    (hlength : name.length ≤ 63) (hopen : GapOk beforeOpen) (hfs : ∀ f ∈ fs, f.Ok ∧ f.Fits name)
    (hclose : GapOk beforeClose) (funcs : List WitFunc)
    (hcount : funcs.length + fs.length ≤ 128) (rest : Bytes) :
    readInterface funcs (gapText beforeName ++ (name ++ (gapText beforeOpen ++
      openBrace :: (fs.flatMap FuncText.text ++ (gapText beforeClose ++ closeBrace :: rest))))) =
      some (funcs ++ fs.map (FuncText.value name), rest) := by
  have hstops (s : Bytes) : Stops (gapText beforeOpen ++ openBrace :: s) :=
    stops_gap hopen (stops_cons (by decide) s)
  have hfuel : fs.length < (fs.flatMap FuncText.text ++
      (gapText beforeClose ++ closeBrace :: rest)).length + 1 := by
    have hpos : fs.length ≤ (fs.flatMap FuncText.text).length := by
      clear hfs hcount
      induction fs with
      | nil => exact Nat.le_refl _
      | cons f fs ih =>
          have hf : 0 < f.text.length := by simp [FuncText.text]
          rw [List.flatMap_cons, List.length_append, List.length_cons]
          omega
    rw [List.length_append]
    omega
  rw [readInterface, skipWs_gap hbefore, hname.skipWs, readIdent_ident hname hlength (hstops _)]
  simp only
  rw [matchChar_gap hopen ⟨by decide, by decide⟩]
  exact interfaceLoop_funcs hfs hclose hfuel funcs hcount rest

/-- One block of a file. -/
theorem loadLoop_block {b : BlockText} (h : b.Ok) {rest : Bytes} (htidy : b.Tidy rest) {n : Nat}
    (funcs : List WitFunc) (hcount : funcs.length + b.funcs.length ≤ 128) :
    loadLoop (n + 1) funcs (b.text ++ rest) = loadLoop n (funcs ++ b.funcs) rest := by
  cases b with
  | interface before beforeName name beforeOpen fs beforeClose =>
      obtain ⟨hbefore, hgap, hne, hname, hopen, hfs, hclose⟩ := h
      obtain ⟨hlength, hfits⟩ := htidy
      simp only [BlockText.text, List.append_assoc, List.cons_append, List.nil_append]
      rw [loadLoop_word hbefore ⟨by decide, by decide⟩ (by decide) (stops_of_ne_nil hgap hne _),
        if_pos rfl, readInterface_text hgap hname hlength hopen
          (fun f hf => ⟨hfs f hf, hfits f hf⟩) hclose funcs
          (by simpa [BlockText.funcs] using hcount)]
      rfl
  | package before beforeName name beforeEnd =>
      obtain ⟨hbefore, hgap, hne, hname, -⟩ := h
      obtain ⟨hquiet, hquiet'⟩ := htidy
      simp only [BlockText.text, List.append_assoc, List.cons_append, List.nil_append]
      rw [loadLoop_word hbefore ⟨by decide, by decide⟩ (by decide) (stops_of_ne_nil hgap hne _),
        if_neg (by decide), skipBlock_quiet hquiet, skipBlock_quiet hname, skipBlock_quiet hquiet',
        BlockText.funcs, List.append_nil]
      rfl
  | world before beforeName name beforeOpen body =>
      obtain ⟨hbefore, hgap, hne, hname, -, hbody⟩ := h
      obtain ⟨hquiet, hquiet', hbodyTidy, hloose⟩ := htidy
      have hskip : skipBlock (openBrace :: (bodyText body ++ closeBrace :: rest)) = rest.tail := by
        rw [skipBlock, if_neg (by decide), if_pos rfl, skipBraces_bodyText hbody hbodyTidy,
          skipBraces_close, skipBraces_zero]
      simp only [BlockText.text, List.append_assoc, List.cons_append, List.nil_append]
      rw [loadLoop_word hbefore ⟨by decide, by decide⟩ (by decide) (stops_of_ne_nil hgap hne _),
        if_neg (by decide), skipBlock_quiet hquiet, skipBlock_quiet hname.quiet,
        skipBlock_quiet hquiet', hskip, loadLoop_tail hloose, BlockText.funcs, List.append_nil]

theorem loadLoop_blocks {blocks : List BlockText} {behind : Gap} (h : FileOk blocks behind)
    (htidy : Tidy behind blocks) {n : Nat} (hn : blocks.length < n) (funcs : List WitFunc)
    (hcount : funcs.length + (fileFuncs blocks).length ≤ 128) :
    loadLoop n funcs (fileText blocks behind) = some (funcs ++ fileFuncs blocks) := by
  induction blocks generalizing n funcs with
  | nil =>
      obtain ⟨n, rfl⟩ : ∃ m, n = m + 1 := ⟨n - 1, by simp at hn; omega⟩
      have hskip : skipWs (gapText behind) = [] := by
        have hgap := skipWs_gap h.2 []
        rwa [List.append_nil] at hgap
      rw [fileText, List.flatMap_nil, List.nil_append, loadLoop, hskip]
      simp [fileFuncs]
  | cons b blocks ih =>
      obtain ⟨n, rfl⟩ : ∃ m, n = m + 1 := ⟨n - 1, by simp at hn; omega⟩
      obtain ⟨hblocks, hbehind⟩ := h
      rw [fileFuncs, List.flatMap_cons, ← fileFuncs, List.length_append] at hcount
      rw [List.length_cons] at hn
      have hb := loadLoop_block (hblocks b (by simp)) htidy.1 (n := n) funcs (by omega)
      rw [fileText, List.flatMap_cons, List.append_assoc, ← fileText, hb,
        ih ⟨fun b' hb' => hblocks b' (by simp [hb']), hbehind⟩ htidy.2 (by omega) _
          (by rw [List.length_append]; omega), List.append_assoc]
      rfl

/-- A file that is tidy is read as what it lays out. -/
theorem lcnWitLoad_tidy {blocks : List BlockText} {behind : Gap} (h : FileOk blocks behind)
    (htidy : Tidy behind blocks) (hcount : (fileFuncs blocks).length ≤ 128) :
    lcnWitLoad (fileText blocks behind) = some (fileFuncs blocks) := by
  have hlength : blocks.length ≤ (blocks.flatMap BlockText.text).length := by
    clear h htidy hcount
    induction blocks with
    | nil => exact Nat.le_refl _
    | cons b blocks ih =>
        have hb : 0 < b.text.length := by cases b <;> simp [BlockText.text]
        rw [List.flatMap_cons, List.length_append, List.length_cons]
        omega
  have hload := loadLoop_blocks h htidy (n := (fileText blocks behind).length + 1)
    (by rw [fileText, List.length_append]; omega) [] (by simpa using hcount)
  rwa [List.nil_append] at hload

end Limceron.Wit
