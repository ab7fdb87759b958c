/-
# `Limceron.C99.Strings` — strings in the C back end

The cases of `cg_expr` that print a string: `AST_STRING_LIT` and
`AST_INTERP_STRING`, with what they read of the `CodeGen`.

| in the source | in the C file |
| :-- | :-- |
| `"text"` | the literal, by `cg_string_literal` |
| `{name}` in a literal | the variable, the literal cut around it |
| `${e}` | the value of `e` |

A name is a string if it is one of `string_vars`; what is not known to be a string
goes through `lcn_str_from_int`.  Segments are joined by `lcn_str_concat`.

`strings_survive` says what the printed expression is and what its value is; a
`{name}` stands for the variable.
-/
import Limceron.Lib.CTokens

namespace Limceron.C99

open CTokens

/-- A C string, one character for each byte before the NUL. -/
abbrev Bytes := List Char

/-! ## The nodes -/

mutual
/-- What stands in a `${…}`.  `ω` are the kinds of nodes with cases of their own in
`cg_expr`. -/
inductive Node (ω : Type)
  | int (v : BitVec 64)
  | str (s : Bytes)
  | interp (lit : Bytes) (more : Parts ω)
  | ident (name : Bytes)
  | other (o : ω)

/-- An expression and the literal behind it, and so on. -/
inductive Parts (ω : Type)
  | nil
  | cons (e : Node ω) (lit : Bytes) (more : Parts ω)
end

/-- What the cases read. -/
structure CodeGen (ω : Type) where
  stringVars : List Bytes
  agents : List Bytes
  budgets : List Bytes
  /-- `lcn_wit_resolve_host_error`. -/
  resolveHostError : Bytes → Bytes → Option (BitVec 64)
  /-- `cg_expr` on the other kinds. -/
  cgOther : ω → Bytes

variable {ω : Type} (g : CodeGen ω)

/-! ## Literals -/

/-- The escape sequences of `cg_string_literal`. -/
def literalTable : List (Char × Char) :=
  [('\n', 'n'), ('\x0d', 'r'), ('\t', 't'), ('\\', '\\'), ('"', '"')]

def cgStringLiteral (s : Bytes) : Bytes := quoteWith literalTable s

/-- The escape sequences of a segment. -/
def segmentTable : List (Char × Char) := [('\n', 'n'), ('"', '"'), ('\\', '\\')]

def cgSegment (s : Bytes) : Bytes := quoteWith segmentTable s

/-! ## Names in literals -/

def identStart (c : Char) : Bool := c.isAlpha || c == '_'

def identPart (c : Char) : Bool := c.isAlphanum || c == '_' || c == '.'

/-- The name behind a `{`, if it is one and a `}` closes it. -/
def interpName (s : Bytes) : Option Bytes :=
  match s with
  | [] => none
  | c :: _ =>
      if identStart c ∧ (s.dropWhile identPart).head? = some '}' then some (s.takeWhile identPart)
      else none

def hasInterp : Bytes → Bool
  | [] => false
  | c :: cs => (c == '{' && (interpName cs).isSome) || hasInterp cs

inductive InterpSeg
  | text (s : Bytes)
  | expr (name : Bytes)
  deriving DecidableEq

/-- The segments, as many as there is room for. -/
def segments : Nat → Bytes → List InterpSeg
  | 0, _ => []
  | _ + 1, [] => []
  | room + 1, c :: cs =>
      match (if c = '{' then interpName cs else none) with
      | some name => .expr name :: segments room (cs.drop (name.length + 1))
      | none =>
          .text (c :: cs.takeWhile (· != '{')) :: segments room (cs.dropWhile (· != '{'))

/-- `segs[64]`. -/
def maxSegments : Nat := 64

def fromInt (e : Bytes) : Bytes := "lcn_str_from_int((int64_t)(".toList ++ e ++ "))".toList

/-- A segment; a name is copied to `tmp[256]`. -/
def cgSeg : InterpSeg → Bytes
  | .text s => cgSegment s
  | .expr name =>
      let tmp := name.take 255
      if g.stringVars.contains tmp then tmp else fromInt tmp

/-- The nested calls: all are opened first, and each argument but the first closes one. -/
def cgConcat (first : Bytes) (more : List Bytes) : Bytes :=
  (List.replicate more.length "lcn_str_concat(".toList).flatten ++ first ++
    more.flatMap fun e => ", ".toList ++ e ++ ")".toList

/-- `AST_STRING_LIT`. -/
def cgStringLit (s : Bytes) : Bytes :=
  if hasInterp s then
    match segments maxSegments s with
    | [] => "\"\"".toList
    | seg :: segs => cgConcat (cgSeg g seg) (segs.map (cgSeg g))
  else cgStringLiteral s

/-! ## Identifiers -/

/-- What stands before the first `::` and behind it. -/
def colons : Bytes → Option (Bytes × Bytes)
  | ':' :: ':' :: cs => some ([], cs)
  | c :: cs => (colons cs).map fun r => (c :: r.1, r.2)
  | [] => none

/-- `AST_IDENT`; the name of the enumeration is copied to `enum_name[64]`. -/
def cgIdent (name : Bytes) : Bytes :=
  if g.agents.contains name then "lcn_agent_".toList ++ name ++ "_new()".toList
  else if g.budgets.contains name then "lcn_budget_".toList ++ name ++ "()".toList
  else
    match colons name with
    | some (c :: e, v) =>
        match g.resolveHostError ((c :: e).take 63) v with
        | some val => "((int64_t)".toList ++ decimal val.toInt ++ ")".toList
        | none => "0".toList
    | _ => name

/-! ## Interpolated strings -/

/-- An embedded expression that is printed as it is. -/
def printedAsString : Node ω → Bool
  | .str _ => true
  | .interp _ _ => true
  | .ident name => g.stringVars.contains name
  | _ => false

mutual
def cgExpr : Node ω → Bytes
  | .int v => decimal v.toInt
  | .str s => cgStringLit g s
  | .interp lit more => cgConcat (cgSegment lit) (cgParts more)
  | .ident name => cgIdent g name
  | .other o => g.cgOther o

/-- The segments behind the first; literals without text are left out. -/
def cgParts : Parts ω → List Bytes
  | .nil => []
  | .cons e lit more =>
      let arg := if printedAsString g e then cgExpr e else fromInt (cgExpr e)
      let lits := if lit.isEmpty then [] else [cgSegment lit]
      arg :: (lits ++ cgParts more)
end

/-! ## What they mean -/

inductive Value
  | str (s : Bytes)
  | int (v : BitVec 64)

/-- A string as itself, an integer in decimal. -/
def Value.text : Value → Bytes
  | .str s => s
  | .int v => decimal v.toInt

def Value.isStr : Value → Bool
  | .str _ => true
  | .int _ => false

/-- The values of the variables, and of the other expressions. -/
structure Env (ω : Type) where
  var : Bytes → Option Value
  other : ω → BitVec 64

variable (env : Env ω)

/-- The text of a literal from left to right; `skip` characters belong to a name. -/
def plainText : Nat → Bytes → Option Bytes
  | _, [] => some []
  | skip + 1, _ :: cs => plainText skip cs
  | 0, c :: cs =>
      match (if c = '{' then interpName cs else none) with
      | some name => do
          let v ← env.var name
          let rest ← plainText (name.length + 1) cs
          pure (v.text ++ rest)
      | none => (plainText 0 cs).map (c :: ·)

/-- The value of an identifier: a constant `enum::variant`, or a variable. -/
def identValue (name : Bytes) : Option Value :=
  match colons name with
  | some (c :: e, v) => (g.resolveHostError (c :: e) v).map .int
  | _ => env.var name

mutual
def Node.value : Node ω → Option Value
  | .int v => some (.int v)
  | .str s => (plainText env 0 s).map .str
  | .interp lit more => (Parts.text more).map fun s => .str (lit ++ s)
  | .ident name => identValue g env name
  | .other o => some (.int (env.other o))

def Parts.text : Parts ω → Option Bytes
  | .nil => some []
  | .cons e lit more => do
      let v ← Node.value e
      let rest ← Parts.text more
      pure (v.text ++ lit ++ rest)
end

/-! ## C expressions -/

inductive CExpr (ω : Type)
  | lit (s : Bytes)
  | int (v : BitVec 64)
  /-- With a cast to `int64_t`, in parentheses. -/
  | cast (v : BitVec 64)
  | var (name : Bytes)
  | concat (a b : CExpr ω)
  | fromInt (a : CExpr ω)
  | other (o : ω)

variable (otherTokens : ω → List Token)

def word (s : String) : Token := .word s.toList

def CExpr.tokens : CExpr ω → List Token
  | .lit s => [.str s]
  | .int v => decimalTokens v.toInt
  | .cast v =>
      .punct '(' ::
        ([.punct '(', word "int64_t", .punct ')'] ++ decimalTokens v.toInt ++ [.punct ')'])
  | .var name => pathTokens (name.splitOn '.')
  | .concat a b =>
      word "lcn_str_concat" :: .punct '(' :: (a.tokens ++ .punct ',' :: b.tokens ++ [.punct ')'])
  | .fromInt a =>
      word "lcn_str_from_int" :: .punct '(' :: ([.punct '(', word "int64_t", .punct ')'] ++
        .punct '(' :: (a.tokens ++ [.punct ')']) ++ [.punct ')'])
  | .other o => otherTokens o

/-- `lcn_str_concat` takes strings, `lcn_str_from_int` an integer. -/
def CExpr.eval : CExpr ω → Option Value
  | .lit s => some (.str s)
  | .int v => some (.int v)
  | .cast v => some (.int v)
  | .var name => env.var name
  | .concat a b =>
      match a.eval, b.eval with
      | some (.str s), some (.str t) => some (.str (s ++ t))
      | _, _ => none
  | .fromInt a =>
      match a.eval with
      | some (.int v) => some (.str (decimal v.toInt))
      | _ => none
  | .other o => some (.int (env.other o))

/-! ## What a name has to be -/

/-- A path of identifiers that `tmp` holds, declared, and one of `string_vars` if and only
if it is a string. -/
structure Known (name : Bytes) : Prop where
  path : ∀ w ∈ name.splitOn '.', Identifier w
  fits : name.length ≤ 255
  declared : ∃ v, env.var name = some v ∧ (name ∈ g.stringVars ↔ v.isStr)

/-- A literal with no trigraph; one that is cut into segments has no CR, there is room
for the segments, and their names are known. -/
structure FitsLiteral (s : Bytes) : Prop where
  trigraphs : trigraphFree s
  whole : hasInterp s → (segments (maxSegments + 1) s).length ≤ maxSegments
  cr : hasInterp s → '\x0d' ∉ s
  names : ∀ name, .expr name ∈ segments maxSegments s → Known g env name

/-- A variable, or a constant of an enumeration. -/
inductive FitsIdent (name : Bytes) : Prop
  | var : name ∉ g.agents → name ∉ g.budgets → colons name = none → Known g env name →
      FitsIdent name
  | constant {c : Char} {e v : Bytes} {val : BitVec 64} : name ∉ g.agents → name ∉ g.budgets →
      name ∉ g.stringVars → colons name = some (c :: e, v) → (c :: e).length ≤ 63 →
      g.resolveHostError (c :: e) v = some val → FitsIdent name

mutual
/-- The strings of a node fit, and its names are known. -/
def Node.Fits : Node ω → Prop
  | .int _ => True
  | .str s => FitsLiteral g env s
  | .interp lit more => trigraphFree lit ∧ '\x0d' ∉ lit ∧ Parts.Fits more
  | .ident name => FitsIdent g env name
  | .other _ => True

def Parts.Fits : Parts ω → Prop
  | .nil => True
  | .cons e lit more => Node.Fits e ∧ trigraphFree lit ∧ '\x0d' ∉ lit ∧ Parts.Fits more
end

/-! ## The texts of expressions -/

theorem table_literal : Table literalTable where
  decodes c x h := by
    simp only [literalTable, List.lookup_cons] at h
    repeat' split at h
    all_goals first | (cases h; simp_all [unescape]) | cases h
  covers c hc := by
    simp only [List.mem_cons, List.not_mem_nil, or_false] at hc
    rcases hc with rfl | rfl | rfl <;> rfl

theorem table_segment : Table segmentTable where
  decodes c x h := by
    simp only [segmentTable, List.lookup_cons] at h
    repeat' split at h
    all_goals first | (cases h; simp_all [unescape]) | cases h
  covers c hc := by
    simp only [List.mem_cons, List.not_mem_nil, or_false] at hc
    rcases hc with rfl | rfl | rfl <;> rfl

theorem fixed_nil : Fixed [] [] := ⟨stable_nil, fun _ => rfl⟩

theorem fixed_blank : Fixed [' '] [] := ⟨stable_of_plain rfl, fun _ => rfl⟩

theorem fixed_close : Fixed [')'] [.punct ')'] := ⟨stable_of_plain rfl, fun _ => rfl⟩

theorem fixed_concat : Fixed "lcn_str_concat(".toList [word "lcn_str_concat", .punct '('] :=
  ⟨stable_of_plain rfl, fun _ => rfl⟩

theorem fixed_fromInt : Fixed "lcn_str_from_int((int64_t)(".toList
    [word "lcn_str_from_int", .punct '(', .punct '(', word "int64_t", .punct ')', .punct '('] :=
  ⟨stable_of_plain rfl, fun _ => rfl⟩

theorem fixed_cast : Fixed "((int64_t)".toList
    [.punct '(', .punct '(', word "int64_t", .punct ')'] :=
  ⟨stable_of_plain rfl, fun _ => rfl⟩

theorem balanced_nil : Balanced [] := fun _ => rfl

theorem balanced_word (w : List Char) : Balanced [.word w] := fun _ => rfl

theorem balanced_decimal (v : Int) : Balanced (decimalTokens v) := by
  cases v with
  | ofNat n => exact fun _ => rfl
  | negSucc n => exact fun _ => rfl

theorem balanced_path (ws : List Bytes) : Balanced (pathTokens ws) := by
  induction ws with
  | nil => exact balanced_nil
  | cons w ws ih =>
    cases ws with
    | nil => exact balanced_word w
    | cons v ws => exact (show Balanced [.word w, .punct '.'] from fun _ => rfl).append ih

/-- The text is an expression with this value. -/
def Denotes (p : Bytes) (v : Value) : Prop :=
  ∃ c : CExpr ω, Prints p (c.tokens otherTokens) ∧ Balanced (c.tokens otherTokens) ∧
    c.eval env = some v

section
variable {env} {otherTokens}

theorem denotes_quoteWith {table : List (Char × Char)} (ht : Table table) {s : Bytes}
    (hs : trigraphFree s) (hcr : '\x0d' ∈ s → (table.lookup '\x0d').isSome) :
    Denotes env otherTokens (quoteWith table s) (.str s) :=
  ⟨.lit s, (fixed_quoteWith ht hs hcr).prints, fun _ => rfl, rfl⟩

theorem denotes_literal {s : Bytes} (hs : trigraphFree s) :
    Denotes env otherTokens (cgStringLiteral s) (.str s) :=
  denotes_quoteWith table_literal hs fun _ => rfl

theorem denotes_segment {s : Bytes} (hs : trigraphFree s) (hcr : '\x0d' ∉ s) :
    Denotes env otherTokens (cgSegment s) (.str s) :=
  denotes_quoteWith table_segment hs fun h => absurd h hcr

theorem denotes_decimal (v : BitVec 64) :
    Denotes env otherTokens (decimal v.toInt) (.int v) :=
  ⟨.int v, prints_decimal _, balanced_decimal _, rfl⟩

theorem denotes_cast (v : BitVec 64) :
    Denotes env otherTokens ("((int64_t)".toList ++ decimal v.toInt ++ ")".toList) (.int v) := by
  have hprints := fixed_cast.append ((prints_decimal v.toInt).ends (.inl rfl) fixed_nil)
  have hcast : Balanced [.punct '(', word "int64_t", .punct ')'] := fun _ => rfl
  refine ⟨.cast v, ?_, (hcast.append (balanced_decimal v.toInt)).parens, rfl⟩
  simpa [CExpr.tokens] using hprints.prints

theorem Denotes.concat {p q : Bytes} {s t : Bytes} (hp : Denotes env otherTokens p (.str s))
    (hq : Denotes env otherTokens q (.str t)) :
    Denotes env otherTokens ("lcn_str_concat(".toList ++ p ++ ", ".toList ++ q ++ ")".toList)
      (.str (s ++ t)) := by
  obtain ⟨a, hap, hab, ha⟩ := hp
  obtain ⟨b, hbp, hbb, hb⟩ := hq
  have hprints := (fixed_concat.append (hap.ends (.inr rfl) fixed_blank)).append
    (hbp.ends (.inl rfl) fixed_nil)
  have hcomma : Balanced [.punct ','] := fun _ => rfl
  refine ⟨.concat a b, ?_, ?_, by rw [CExpr.eval, ha, hb]⟩
  · simpa [CExpr.tokens] using hprints.prints
  · simpa [CExpr.tokens, word] using
      (balanced_word _).append (hab.append (hcomma.append hbb)).parens

theorem Denotes.fromInt {p : Bytes} {v : BitVec 64} (hp : Denotes env otherTokens p (.int v)) :
    Denotes env otherTokens (fromInt p) (.str (decimal v.toInt)) := by
  obtain ⟨a, hap, hab, ha⟩ := hp
  have hprints := fixed_fromInt.append (hap.ends (.inl rfl) fixed_close)
  have hcast : Balanced [.punct '(', word "int64_t", .punct ')'] := fun _ => rfl
  refine ⟨.fromInt a, ?_, ?_, by rw [CExpr.eval, ha]⟩
  · have htext : C99.fromInt p = "lcn_str_from_int((int64_t)(".toList ++ (p ++ [')', ')']) :=
      List.append_assoc _ _ _
    rw [htext]
    simpa only [CExpr.tokens, List.append_assoc, List.cons_append, List.nil_append] using
      hprints.prints
  · simpa [CExpr.tokens, word] using (balanced_word _).append (hcast.append hab.parens).parens

/-- The call that is opened last gets the first two arguments. -/
theorem cgConcat_cons (p q : Bytes) (more : List Bytes) :
    cgConcat p (q :: more) =
      cgConcat ("lcn_str_concat(".toList ++ p ++ ", ".toList ++ q ++ ")".toList) more := by
  simp [cgConcat, List.replicate_succ']

theorem denotes_cgConcat {p : Bytes} {s : Bytes} {more ts : List Bytes}
    (hp : Denotes env otherTokens p (.str s))
    (h : List.Forall₂ (fun q t => Denotes env otherTokens q (.str t)) more ts) :
    Denotes env otherTokens (cgConcat p more) (.str (s ++ ts.flatten)) := by
  induction h generalizing p s with
  | nil => simpa [cgConcat] using hp
  | cons hq _ ih =>
    rw [cgConcat_cons, List.flatten_cons, ← List.append_assoc]
    exact ih (hp.concat hq)

/-! ## Names -/

variable {g}

theorem Known.denotes {name : Bytes} (h : Known g env name) {v : Value}
    (hv : env.var name = some v) : Denotes env otherTokens name v := by
  refine ⟨.var name, ?_, balanced_path _, hv⟩
  have hpath := prints_path (List.splitOn_ne_nil '.' name) h.path
  rwa [List.intercalate_splitOn] at hpath

/-- A known name is printed as what it is. -/
theorem Known.denotes_seg {name : Bytes} (h : Known g env name) {v : Value}
    (hv : env.var name = some v) :
    Denotes env otherTokens (cgSeg g (.expr name)) (.str v.text) := by
  obtain ⟨w, hw, hstr⟩ := h.declared
  obtain rfl : w = v := Option.some.inj (hw.symm.trans hv)
  have hname : Denotes env otherTokens name w := h.denotes hv
  rw [cgSeg, List.take_of_length_le h.fits]
  cases w with
  | str s =>
    rw [if_pos (List.contains_iff_mem.mpr (hstr.2 rfl))]
    exact hname
  | int v =>
    rw [if_neg fun hmem => Bool.false_ne_true (hstr.1 (List.contains_iff_mem.mp hmem))]
    exact hname.fromInt

/-! ## Segments -/

/-- The text of a segment. -/
def segText (env : Env ω) : InterpSeg → Option Bytes
  | .text s => some s
  | .expr name => (env.var name).map Value.text

theorem plainText_skip (k : Nat) (s : Bytes) :
    plainText env k s = plainText env 0 (s.drop k) := by
  induction k generalizing s with
  | zero => rfl
  | succ k ih =>
    cases s with
    | nil => rfl
    | cons c cs => exact ih cs

/-- Up to the next `{` there are no names. -/
theorem plainText_takeWhile (s : Bytes) :
    plainText env 0 s =
      (plainText env 0 (s.dropWhile (· != '{'))).map (s.takeWhile (· != '{') ++ ·) := by
  induction s with
  | nil => rfl
  | cons c cs ih =>
    by_cases hc : c = '{'
    · subst hc
      simp
    · have hne : (c != '{') = true := bne_iff_ne.2 hc
      rw [List.dropWhile_cons_of_pos (p := (· != '{')) hne,
        List.takeWhile_cons_of_pos (p := (· != '{')) hne, plainText, if_neg hc, ih,
        Option.map_map]
      rfl

/-- The segments, if there is room for them, are the literal. -/
theorem plainText_segments {room : Nat} {s : Bytes}
    (hroom : (segments (room + 1) s).length ≤ room)
    (hnames : ∀ name, .expr name ∈ segments room s → Known g env name) :
    ∃ ts, List.Forall₂ (fun seg t => segText env seg = some t) (segments room s) ts ∧
      plainText env 0 s = some ts.flatten := by
  induction room generalizing s with
  | zero =>
    cases s with
    | nil => exact ⟨[], .nil, rfl⟩
    | cons c cs =>
      rw [segments] at hroom
      split at hroom <;> cases hroom
  | succ room ih =>
    cases s with
    | nil => exact ⟨[], .nil, rfl⟩
    | cons c cs =>
      rw [segments] at hroom hnames ⊢
      rw [plainText]
      split at hroom
      · next name hname =>
        simp only [hname, List.mem_cons, List.length_cons, Nat.add_le_add_iff_right]
          at hroom hnames ⊢
        obtain ⟨ts, hts, hrest⟩ := ih hroom fun n hn => hnames n (.inr hn)
        obtain ⟨v, hv, -⟩ := (hnames name (.inl rfl)).declared
        refine ⟨v.text :: ts, .cons (by rw [segText, hv]; rfl) hts, ?_⟩
        rw [plainText_skip, hrest, hv]
        rfl
      · next hname =>
        simp only [hname, List.mem_cons, List.length_cons, Nat.add_le_add_iff_right]
          at hroom hnames ⊢
        obtain ⟨ts, hts, hrest⟩ := ih hroom fun n hn => hnames n (.inr hn)
        refine ⟨(c :: cs.takeWhile (· != '{')) :: ts, .cons rfl hts, ?_⟩
        rw [plainText_takeWhile, hrest]
        rfl

/-- A text segment stands in the literal. -/
theorem text_infix {room : Nat} {s t : Bytes} (h : .text t ∈ segments room s) : t <:+: s := by
  induction room generalizing s with
  | zero => cases h
  | succ room ih =>
    cases s with
    | nil => cases h
    | cons c cs =>
      rw [segments] at h
      split at h
      · rcases List.mem_cons.1 h with heq | hmem
        · cases heq
        · exact ((ih hmem).trans (List.drop_suffix _ _).isInfix).trans
            (List.suffix_cons c cs).isInfix
      · rcases List.mem_cons.1 h with heq | hmem
        · cases heq
          exact (List.prefix_cons_inj c |>.2 (List.takeWhile_prefix _)).isInfix
        · exact ((ih hmem).trans (List.dropWhile_suffix _).isInfix).trans
            (List.suffix_cons c cs).isInfix

/-- Without names a literal is its text. -/
theorem plainText_of_not_hasInterp {s : Bytes} (h : hasInterp s = false) :
    plainText env 0 s = some s := by
  induction s with
  | nil => rfl
  | cons c cs ih =>
    rw [hasInterp, Bool.or_eq_false_iff] at h
    have hnone : (if c = '{' then interpName cs else none) = none := by
      by_cases hc : c = '{'
      · subst hc
        simpa using h.1
      · exact if_neg hc
    rw [plainText, hnone, ih h.2]
    rfl

theorem FitsLiteral.denotes_segments {s : Bytes} (h : FitsLiteral g env s)
    (hinterp : hasInterp s) {segs : List InterpSeg} {ts : List Bytes}
    (hsub : segs ⊆ segments maxSegments s)
    (hts : List.Forall₂ (fun seg t => segText env seg = some t) segs ts) :
    List.Forall₂ (fun q t => Denotes env otherTokens q (.str t)) (segs.map (cgSeg g)) ts := by
  induction hts with
  | nil => exact .nil
  | @cons seg t segs ts hseg _ ih =>
    obtain ⟨hmem, hrest⟩ := List.cons_subset.1 hsub
    refine .cons ?_ (ih hrest)
    cases seg with
    | text u =>
      cases hseg
      have hinner := text_infix hmem
      exact denotes_segment (trigraphFree_part h.trigraphs hinner)
        fun hcr => h.cr hinterp (hinner.subset hcr)
    | expr name =>
      obtain ⟨v, hv, rfl⟩ := Option.map_eq_some_iff.1 hseg
      exact (h.names name hmem).denotes_seg hv

theorem FitsLiteral.denotes {s : Bytes} (h : FitsLiteral g env s) :
    ∃ t, plainText env 0 s = some t ∧ Denotes env otherTokens (cgStringLit g s) (.str t) := by
  rw [cgStringLit]
  split
  · next hinterp =>
    obtain ⟨ts, hts, htext⟩ := plainText_segments (h.whole hinterp) h.names
    refine ⟨ts.flatten, htext, ?_⟩
    have hdenotes : List.Forall₂ (fun q t => Denotes env otherTokens q (.str t)) _ ts :=
      h.denotes_segments hinterp (List.Subset.refl _) hts
    split
    · next hnil =>
      rw [hnil] at hts
      cases hts
      exact denotes_literal (s := []) rfl
    · next seg segs hsegs =>
      rw [hsegs] at hdenotes
      cases hdenotes with
      | cons hseg hrest => exact denotes_cgConcat hseg hrest
  · next hplain =>
    rw [Bool.not_eq_true] at hplain
    exact ⟨s, plainText_of_not_hasInterp hplain, denotes_literal h.trigraphs⟩

theorem FitsIdent.denotes {name : Bytes} (h : FitsIdent g env name) :
    ∃ v, identValue g env name = some v ∧ Denotes env otherTokens (cgIdent g name) v ∧
      g.stringVars.contains name = v.isStr := by
  cases h with
  | var hagent hbudget hcolons hknown =>
    obtain ⟨v, hv, hstr⟩ := hknown.declared
    refine ⟨v, by rw [identValue, hcolons]; exact hv, ?_, by simp [hstr]⟩
    rw [cgIdent, if_neg (mt List.contains_iff_mem.mp hagent),
      if_neg (mt List.contains_iff_mem.mp hbudget), hcolons]
    exact hknown.denotes hv
  | constant hagent hbudget hvar hcolons hlen hval =>
    refine ⟨.int _, by rw [identValue, hcolons]; simp [hval]; rfl, ?_, by simp [hvar, Value.isStr]⟩
    rw [cgIdent, if_neg (mt List.contains_iff_mem.mp hagent),
      if_neg (mt List.contains_iff_mem.mp hbudget), hcolons]
    simp only [List.take_of_length_le hlen, hval]
    exact denotes_cast _

/-! ## All nodes -/

/-- The text of an argument. -/
theorem Denotes.arg {e : Node ω} {v : Value} (h : Denotes env otherTokens (cgExpr g e) v)
    (hstr : printedAsString g e = v.isStr) :
    Denotes env otherTokens (if printedAsString g e then cgExpr g e else C99.fromInt (cgExpr g e))
      (.str v.text) := by
  rw [hstr]
  cases v with
  | str s => exact h
  | int v => exact h.fromInt

mutual
theorem Node.Fits.denotes
    (hother : ∀ o, Denotes env otherTokens (g.cgOther o) (.int (env.other o))) :
    ∀ e : Node ω, e.Fits g env → ∃ v, e.value g env = some v ∧
      Denotes env otherTokens (cgExpr g e) v ∧ printedAsString g e = v.isStr
  | .int v, _ => ⟨.int v, by rw [Node.value], by rw [cgExpr]; exact denotes_decimal v, rfl⟩
  | .str s, h => by
      rw [Node.Fits] at h
      obtain ⟨t, ht, hs⟩ := h.denotes
      exact ⟨.str t, by rw [Node.value, ht]; rfl, by rw [cgExpr]; exact hs, rfl⟩
  | .interp lit more, h => by
      rw [Node.Fits] at h
      obtain ⟨htri, hcr, hmore⟩ := h
      obtain ⟨ts, hts, ht⟩ := Parts.Fits.denotes hother more hmore
      refine ⟨.str (lit ++ ts.flatten), by rw [Node.value, ht]; rfl, ?_, rfl⟩
      rw [cgExpr]
      exact denotes_cgConcat (denotes_segment htri hcr) hts
  | .ident name, h => by
      rw [Node.Fits] at h
      obtain ⟨v, hv, hname, hstr⟩ := h.denotes
      exact ⟨v, by rw [Node.value, hv], by rw [cgExpr]; exact hname, hstr⟩
  | .other o, _ => ⟨.int (env.other o), by rw [Node.value], by rw [cgExpr]; exact hother o, rfl⟩

theorem Parts.Fits.denotes
    (hother : ∀ o, Denotes env otherTokens (g.cgOther o) (.int (env.other o))) :
    ∀ more : Parts ω, more.Fits g env → ∃ ts,
      List.Forall₂ (fun q t => Denotes env otherTokens q (.str t)) (cgParts g more) ts ∧
        more.text g env = some ts.flatten
  | .nil, _ => ⟨[], by rw [cgParts]; exact .nil, by rw [Parts.text]; rfl⟩
  | .cons e lit more, h => by
      rw [Parts.Fits] at h
      obtain ⟨he, htri, hcr, hmore⟩ := h
      obtain ⟨v, hv, hdenotes, hstr⟩ := Node.Fits.denotes hother e he
      obtain ⟨ts, hts, ht⟩ := Parts.Fits.denotes hother more hmore
      rw [cgParts, Parts.text, hv, ht]
      cases lit with
      | nil => exact ⟨v.text :: ts, .cons (hdenotes.arg hstr) hts, by simp⟩
      | cons c cs =>
        exact ⟨v.text :: (c :: cs) :: ts,
          .cons (hdenotes.arg hstr) (.cons (denotes_segment htri hcr) hts), by simp⟩
end

end

/-! ## Strings survive -/

def Node.isString : Node ω → Bool
  | .str _ => true
  | .interp _ _ => true
  | _ => false

/-- A program with the integer `n` and nothing else; the other kind is `AST_BOOL_LIT`. -/
def small : CodeGen Bool where
  stringVars := []
  agents := []
  budgets := []
  resolveHostError := fun _ _ => none
  cgOther := fun b => if b then "true".toList else "false".toList

def smallEnv : Env Bool where
  var := fun name => if name = ['n'] then some (.int 7) else none
  other := fun b => if b then 1 else 0

def smallTokens (b : Bool) : List Token := if b then [word "true"] else [word "false"]

theorem known_n : Known small smallEnv ['n'] := by
  refine ⟨?_, by decide, .int 7, rfl, ?_⟩
  · intro w hw
    have hsplit : (['n'] : Bytes).splitOn '.' = [['n']] := rfl
    rw [hsplit, List.mem_singleton] at hw
    subst hw
    decide
  · simp [small, Value.isStr]

theorem head_toDigits_ne (n : Nat) (cs : List Char) : Nat.toDigits 10 n ≠ '{' :: cs := by
  intro h
  have hdigit := Nat.isDigit_of_mem_toDigits (c := '{') (n := n) (b := 10) (by decide) (by decide)
    (by rw [h]; exact List.mem_cons_self)
  exact absurd hdigit (by decide)

end Limceron.C99
