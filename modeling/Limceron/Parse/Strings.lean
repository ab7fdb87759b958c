/-
# `Limceron.Parse.Strings` — what a string literal spells

`Spells` reads a literal as it is written: escapes stand for characters, and between
`${` and the brace that closes it stands the source of an expression.  `lexString` keeps
each segment in a buffer of 8191 bytes, and gives it away as a string of C.

| in the literal                      | in the token        |
|-------------------------------------|---------------------|
| a segment of more than 8191 bytes   | it is cut, silently |
| a NUL, from `\0` or from the source | nothing behind it   |

All other literals are kept as they are (`value_iff`).
-/
import Limceron.Lib.Braces
import Limceron.Parse.Lexer
import Mathlib.Data.List.TakeWhile

namespace Limceron.Parse

open Braces

/-! ## Literals as they are written -/

/-- What a backslash and `esc` stand for. -/
def unescape : Char → List Char
  | 'n' => ['\n']
  | 't' => ['\t']
  | 'r' => ['\r']
  | '0' => ['\x00']
  | '\\' => ['\\']
  | '"' => ['"']
  | '{' => ['{']
  | '$' => ['$']
  | esc => ['\\', esc]

/-- Each source with the segment before it, and the last segment. -/
structure Literal where
  parts : List (List Char × List Char)
  last : List Char

namespace Literal

/-- With text in front. -/
def push (t : List Char) : Literal → Literal
  | ⟨[], last⟩ => ⟨[], t ++ last⟩
  | ⟨(l, e) :: parts, last⟩ => ⟨(t ++ l, e) :: parts, last⟩

def segments (lit : Literal) : List (List Char) := lit.parts.map Prod.fst ++ [lit.last]

def sources (lit : Literal) : List (List Char) := lit.parts.map Prod.snd

@[simp] theorem push_parts_length (t : List Char) (lit : Literal) :
    (lit.push t).parts.length = lit.parts.length := by
  rcases lit with ⟨_ | ⟨⟨l, e⟩, parts⟩, last⟩
  · rfl
  · rfl

@[simp] theorem push_sources (t : List Char) (lit : Literal) :
    (lit.push t).sources = lit.sources := by
  rcases lit with ⟨_ | ⟨⟨l, e⟩, parts⟩, last⟩
  · rfl
  · rfl

end Literal

/-- `Spells cs lit rest`: after its first quote, `cs` spells `lit`, and `rest` is behind the
last quote. -/
inductive Spells : List Char → Literal → List Char → Prop
  | close (rest : List Char) : Spells ('"' :: rest) ⟨[], []⟩ rest
  | escape (esc : Char) {cs rest : List Char} {lit : Literal} : Spells cs lit rest →
      Spells ('\\' :: esc :: cs) (lit.push (unescape esc)) rest
  | site {body cs rest : List Char} {lit : Literal} : Balanced body → Spells cs lit rest →
      Spells ('$' :: '{' :: (body ++ '}' :: cs)) ⟨([], body) :: lit.parts, lit.last⟩ rest
  | plain {c : Char} {cs rest : List Char} {lit : Literal} : c ∉ ['"', '\\', '\n'] →
      ¬ (c = '$' ∧ cs.head? = some '{') → Spells cs lit rest →
      Spells (c :: cs) (lit.push [c]) rest

/-- An expression has a `${` of its own, which no backslash takes. -/
def nests : Bool → List Char → Bool
  | true, '\\' :: _ :: cs => nests true cs
  | _, '$' :: '{' :: _ => true
  | inStr, c :: cs => nests (if c = '"' then !inStr else inStr) cs
  | _, [] => false

def Literal.nested (lit : Literal) : Bool := lit.sources.any (nests false)

/-- The token that has all of it. -/
def Literal.value (lit : Literal) : TokenValue :=
  if lit.parts.isEmpty then .str (String.ofList lit.last)
  else
    .interp
      { parts := lit.parts.map fun (l, e) => (String.ofList l, String.ofList e)
        last := String.ofList lit.last
        nestedDetected := lit.nested }

theorem Literal.value_of_parts {lit : Literal} (h : lit.parts.isEmpty = false) :
    ∃ is : InterpString, lit.value = .interp is ∧ is.nestedDetected = lit.nested ∧
      is.parts.map Prod.snd = lit.sources.map String.ofList := by
  refine ⟨_, by rw [Literal.value, h, if_neg Bool.false_ne_true], rfl, ?_⟩
  rw [Literal.sources, List.map_map, List.map_map]
  rfl

/-! ## The sources -/

/-- `lexString` in an expression looks for the brace that closes it. -/
def Closes (parts : List (String × String)) (l : String) (d : ℕ) (inStr : Bool) (cs : List Char) :
    Prop :=
  ∀ nested src,
    (∀ e rest, closing d inStr cs = some (e, rest) →
      lexString parts nested (.expr l src (d + 1) inStr) cs =
        lexString (parts ++ [(l, cstr (src ++ e))]) (nested || nests inStr e) (.lit []) rest) ∧
    (closing d inStr cs = none →
      (lexString parts nested (.expr l src (d + 1) inStr) cs).1.kind = .error)

variable {parts : List (String × String)} {l : String} {d d' : ℕ} {inStr inStr' : Bool}
  {cs cs' : List Char}

/-- Some text is passed over. -/
theorem Closes.step (h : Closes parts l d' inStr' cs') (t : List Char)
    (hclosing : closing d inStr cs = (closing d' inStr' cs').map (before t))
    (hlex : ∀ nested src, lexString parts nested (.expr l src (d + 1) inStr) cs =
      lexString parts nested (.expr l (src ++ t) (d' + 1) inStr') cs')
    (hnests : ∀ e rest, closing d' inStr' cs' = some (e, rest) →
      nests inStr (t ++ e) = nests inStr' e) :
    Closes parts l d inStr cs := by
  intro nested src
  obtain ⟨hsome, hnone⟩ := h nested (src ++ t)
  rw [hclosing, hlex]
  refine ⟨fun e rest hfound => ?_, fun hfound => hnone (Option.map_eq_none_iff.1 hfound)⟩
  obtain ⟨⟨e, rest⟩, he, heq⟩ := Option.map_eq_some_iff.1 hfound
  obtain ⟨rfl, rfl⟩ := Prod.mk.inj heq
  rw [hsome _ _ he, hnests _ _ he, List.append_assoc]

/-- A `${`: the flag is set. -/
theorem Closes.nest (h : Closes parts l d inStr ('{' :: cs)) :
    Closes parts l d inStr ('$' :: '{' :: cs) := by
  have hclosing : closing d inStr ('$' :: '{' :: cs) =
      (closing d inStr ('{' :: cs)).map (before ['$']) := by
    rw [closing]
    all_goals simp
  intro nested src
  obtain ⟨hsome, hnone⟩ := h true (src ++ ['$'])
  have hlex : lexString parts nested (.expr l src (d + 1) inStr) ('$' :: '{' :: cs) =
      lexString parts true (.expr l (src ++ ['$']) (d + 1) inStr) ('{' :: cs) := by
    cases inStr with
    | false => simp [lexString]
    | true => simp [lexString]
  rw [hclosing, hlex]
  refine ⟨fun e rest hfound => ?_, fun hfound => hnone (Option.map_eq_none_iff.1 hfound)⟩
  obtain ⟨⟨e, rest⟩, he, heq⟩ := Option.map_eq_some_iff.1 hfound
  obtain ⟨rfl, rfl⟩ := Prod.mk.inj heq
  obtain ⟨e', rfl⟩ : ∃ e', e = '{' :: e' := by
    cases inStr with
    | false =>
        rw [closing] at he
        obtain ⟨r, -, hr⟩ := Option.map_eq_some_iff.1 he
        exact ⟨r.1, congrArg Prod.fst hr.symm⟩
    | true =>
        rw [closing] at he
        · obtain ⟨r, -, hr⟩ := Option.map_eq_some_iff.1 he
          exact ⟨r.1, congrArg Prod.fst hr.symm⟩
        all_goals simp
  rw [hsome _ _ he]
  simp [nests]

theorem lexString_expr (parts : List (String × String)) (l : String) (d : ℕ) (inStr : Bool)
    (cs : List Char) : Closes parts l d inStr cs := by
  fun_induction closing d inStr cs with
  | case1 d inStr =>
      refine fun nested src => ⟨fun e rest he => by simp [closing] at he, fun _ => ?_⟩
      simp [lexString, errorToken]
  | case2 d inStr cs =>
      refine fun nested src => ⟨fun e rest he => by simp [closing] at he, fun _ => ?_⟩
      simp [lexString, errorToken]
  | case3 d cs ih =>
      refine ih.step ['"'] (by rw [closing]) (fun nested src => by rw [lexString]) fun e rest _ => ?_
      simp [nests]
  | case4 d cs ih =>
      refine ih.step ['{'] (by rw [closing]) (fun nested src => by rw [lexString]) fun e rest _ => ?_
      simp [nests]
  | case5 cs =>
      refine fun nested src => ⟨fun e rest he => ?_, fun he => by simp [closing] at he⟩
      obtain ⟨rfl, rfl⟩ : [] = e ∧ cs = rest := by simpa [closing] using he
      simp [lexString, nests]
  | case6 d cs ih =>
      refine ih.step ['}'] (by rw [closing]) (fun nested src => by simp [lexString])
        fun e rest _ => ?_
      simp [nests]
  | case7 d c cs ih =>
      refine ih.step ['\\', c] (by rw [closing]) (fun nested src => by rw [lexString])
        fun e rest _ => ?_
      simp [nests]
  | case8 d cs ih =>
      refine ih.step ['"'] (by rw [closing]) (fun nested src => by rw [lexString]) fun e rest _ => ?_
      simp [nests]
  | case9 d inStr c cs hnewline hquote hopen hclose hcloses hescape hquoted ih =>
      by_cases hnest : c = '$' ∧ ∃ cs', cs = '{' :: cs'
      · obtain ⟨rfl, cs', rfl⟩ := hnest
        exact ih.nest
      · have hdollar : ∀ tail, c = '$' → cs = '{' :: tail → False :=
          fun tail hc htail => hnest ⟨hc, tail, htail⟩
        have hbrace : inStr = false → c = '}' → False := by
          cases d with
          | zero => exact hclose rfl
          | succ d => exact hcloses d rfl
        refine ih.step [c] ?_ (fun nested src => ?_) fun e rest he => ?_
        · rw [closing]
          all_goals assumption
        · rw [lexString]
          all_goals first | assumption | exact fun tail _ => hdollar tail
        · obtain ⟨-, rfl⟩ := closing_within he
          rw [List.singleton_append, nests]
          · have hquotes : c ≠ '"' := by
              cases inStr with
              | false => exact hquote rfl
              | true => exact hquoted rfl
            rw [if_neg hquotes]
          · exact fun tail hc htail => hdollar (tail ++ '}' :: rest) hc (by rw [htail]; rfl)
          · exact fun a tail hs hc htail => hescape a (tail ++ '}' :: rest) hs hc (by rw [htail]; rfl)

/-! ## The buffer -/

/-- What the buffer is given away as, if it had `buf` and then `t` was put in. -/
def Segment (buf t : List Char) (s : String) : Prop :=
  s.length ≤ 8191 ∧ (buf.length + t.length ≤ 8191 → s = cstr (buf ++ t))

theorem pushChar_spec (room : ℕ) {buf t : List Char} (ht : room + t.length = 8192) :
    (buf.length ≤ 8191 → (pushChar room buf t).length ≤ 8191) ∧
      (buf.length + t.length ≤ 8191 → pushChar room buf t = buf ++ t) := by
  unfold pushChar
  split_ifs with hroom
  · rw [List.length_append]
    exact ⟨fun _ => by omega, fun _ => rfl⟩
  · exact ⟨fun h => h, fun h => by omega⟩

theorem pushEscape_spec (buf : List Char) (esc : Char) :
    (buf.length ≤ 8191 → (pushEscape buf esc).length ≤ 8191) ∧
      (buf.length + (unescape esc).length ≤ 8191 → pushEscape buf esc = buf ++ unescape esc) := by
  unfold pushEscape
  split
  case h_9 =>
    rw [unescape]
    · exact pushChar_spec 8190 rfl
    all_goals assumption
  all_goals exact pushChar_spec 8191 rfl

/-- The strings of the token, if the buffer had `buf`. -/
def Kept : List Char → List (List Char × List Char) → List Char → List (String × String) →
    String → Prop
  | buf, [], last, [], s => Segment buf last s
  | buf, (l, e) :: parts, last, (l', e') :: parts', s =>
      Segment buf l l' ∧ e' = cstr e ∧ Kept [] parts last parts' s
  | _, _, _, _, _ => False

/-- What was put in, was not kept or is in the buffer. -/
theorem Segment.push {buf buf' t u : List Char} {s : String} (h : Segment buf' u s)
    (hbuf : buf.length + t.length ≤ 8191 → buf' = buf ++ t) : Segment buf (t ++ u) s := by
  refine ⟨h.1, fun hroom => ?_⟩
  rw [List.length_append] at hroom
  obtain rfl := hbuf (by omega)
  rw [h.2 (by rw [List.length_append]; omega), List.append_assoc]

theorem Kept.push {buf buf' t : List Char} {lit : Literal} {parts : List (String × String)}
    {s : String} (h : Kept buf' lit.parts lit.last parts s)
    (hbuf : buf.length + t.length ≤ 8191 → buf' = buf ++ t) :
    Kept buf (lit.push t).parts (lit.push t).last parts s := by
  rcases lit with ⟨_ | ⟨⟨l, e⟩, ps⟩, last⟩
  · cases parts with
    | nil => exact Segment.push h hbuf
    | cons part parts => exact h.elim
  · cases parts with
    | nil => exact h.elim
    | cons part parts =>
        obtain ⟨hl, he, h⟩ := h
        exact ⟨Segment.push hl hbuf, he, h⟩

theorem segment_self {buf : List Char} (h : buf.length ≤ 8191) : Segment buf [] (cstr buf) :=
  ⟨Nat.le_trans (length_cstr_le buf) h, fun _ => by rw [List.append_nil]⟩

/-! ## Reading -/

theorem lexString_close (parts : List (String × String)) (nested : Bool) (buf cs : List Char) :
    lexString parts nested (.lit buf) ('"' :: cs) = (stringToken parts nested buf [], cs) := by
  rw [lexString]

theorem lexString_escape (parts : List (String × String)) (nested : Bool) (buf : List Char)
    (esc : Char) (cs : List Char) : lexString parts nested (.lit buf) ('\\' :: esc :: cs) =
      lexString parts nested (.lit (pushEscape buf esc)) cs := by
  rw [lexString]

theorem lexString_site (parts : List (String × String)) (nested : Bool) (buf cs : List Char) :
    lexString parts nested (.lit buf) ('$' :: '{' :: cs) =
      if 32 ≤ parts.length then (errorToken "too many interpolation segments", '$' :: '{' :: cs)
      else lexString parts nested (.expr (cstr buf) [] 1 false) cs := by
  rw [lexString]

theorem lexString_plain (parts : List (String × String)) (nested : Bool) (buf : List Char)
    {c : Char} {cs : List Char} (hc : c ∉ ['"', '\\', '\n'])
    (hsite : ¬ (c = '$' ∧ cs.head? = some '{')) : lexString parts nested (.lit buf) (c :: cs) =
      lexString parts nested (.lit (pushChar 8191 buf [c])) cs := by
  simp only [List.mem_cons, List.not_mem_nil, or_false, not_or] at hc
  rw [lexString]
  · exact fun h _ => hc.2.1 h
  · exact hc.1
  · exact fun _ _ h _ => hc.2.1 h
  · exact fun tail h htail => hsite ⟨h, by rw [htail]; rfl⟩
  · exact hc.2.2

/-- The lexer reads what the literal spells. -/
theorem lexString_spells {cs rest : List Char} {lit : Literal} (h : Spells cs lit rest)
    {parts : List (String × String)} (hcount : parts.length + lit.parts.length ≤ 32)
    (nested : Bool) {buf : List Char} (hbuf : buf.length ≤ 8191) :
    ∃ parts' buf', Kept buf lit.parts lit.last parts' (cstr buf') ∧
      lexString parts nested (.lit buf) cs =
        (stringToken (parts ++ parts') (nested || lit.nested) buf' [], rest) := by
  induction h generalizing parts nested buf with
  | close rest =>
      refine ⟨[], buf, segment_self hbuf, ?_⟩
      rw [lexString_close]
      simp [Literal.nested, Literal.sources]
  | @escape esc cs rest lit _ ih =>
      rw [Literal.push_parts_length] at hcount
      obtain ⟨hlength, hpush⟩ := pushEscape_spec buf esc
      obtain ⟨parts', buf', hkept, hlex⟩ := ih hcount nested (hlength hbuf)
      refine ⟨parts', buf', hkept.push hpush, ?_⟩
      rw [lexString_escape, hlex, Literal.nested, Literal.nested, Literal.push_sources]
  | @site body cs rest lit hbody _ ih =>
      rw [List.length_cons] at hcount
      have hclosing : closing 0 false (body ++ '}' :: cs) = some (body, cs) :=
        closing_iff.2 ⟨hbody, rfl⟩
      have hexpr := (lexString_expr parts (cstr buf) 0 false _ nested []).1 _ _ hclosing
      have hcount' : (parts ++ [(cstr buf, cstr body)]).length + lit.parts.length ≤ 32 := by
        rw [List.length_append, List.length_singleton]
        omega
      have hnil : ([] : List Char).length ≤ 8191 := by simp
      obtain ⟨parts', buf', hkept, hlex⟩ := ih hcount' (nested || nests false body) hnil
      refine ⟨(cstr buf, cstr body) :: parts', buf', ⟨segment_self hbuf, rfl, hkept⟩, ?_⟩
      rw [lexString_site, if_neg (by omega), hexpr, List.nil_append, hlex]
      simp [Literal.nested, Literal.sources, Bool.or_assoc]
  | @plain c cs rest lit hc hsite _ ih =>
      rw [Literal.push_parts_length] at hcount
      have hroom : 8191 + [c].length = 8192 := rfl
      obtain ⟨hlength, hpush⟩ := pushChar_spec 8191 hroom
      obtain ⟨parts', buf', hkept, hlex⟩ := ih hcount nested (hlength hbuf)
      refine ⟨parts', buf', hkept.push hpush, ?_⟩
      rw [lexString_plain parts nested buf hc hsite, hlex, Literal.nested, Literal.nested,
        Literal.push_sources]

theorem stringToken_diags (parts : List (String × String)) (nested : Bool) (buf : List Char)
    (diags : List String) : (stringToken parts nested buf diags).diags = diags := by
  unfold stringToken
  split
  · rfl
  · rfl

/-- What the lexer accepts is spelled. -/
theorem spells_of_accepted (cs : List Char) {parts : List (String × String)} {nested : Bool}
    {buf rest : List Char} {tok : Token} (hcount : parts.length ≤ 32)
    (h : lexString parts nested (.lit buf) cs = (tok, rest)) (hkind : tok.kind ≠ .error)
    (hdiags : tok.diags = []) :
    ∃ lit, Spells cs lit rest ∧ parts.length + lit.parts.length ≤ 32 := by
  have hreports : ∀ {cs'}, lexString parts nested (.lit buf) cs =
      (stringToken parts nested buf ["unterminated string literal"], cs') → False := by
    intro cs' hlex
    rw [hlex] at h
    rw [← (Prod.mk.inj h).1, stringToken_diags] at hdiags
    cases hdiags
  match cs with
  | [] => exact (hreports (by rw [lexString])).elim
  | c :: cs =>
      by_cases hsite : c = '$' ∧ cs.head? = some '{'
      · obtain ⟨rfl, htail⟩ := hsite
        obtain ⟨cs, rfl⟩ := List.head?_eq_some_iff.1 htail
        rw [lexString_site] at h
        split_ifs at h with hfull
        · exact absurd (congrArg Token.kind (Prod.mk.inj h).1).symm hkind
        obtain ⟨hsome, hnone⟩ := lexString_expr parts (cstr buf) 0 false cs nested []
        cases hclosing : closing 0 false cs with
        | none =>
            have herror := hnone hclosing
            rw [h] at herror
            exact absurd herror hkind
        | some r =>
            obtain ⟨body, cs'⟩ := r
            rw [hsome _ _ hclosing] at h
            obtain ⟨hbody, rfl⟩ := closing_iff.1 hclosing
            obtain ⟨lit, hlit, hle⟩ := spells_of_accepted cs' (by simp; omega) h hkind hdiags
            refine ⟨_, hlit.site hbody, ?_⟩
            simp only [List.length_append, List.length_cons, List.length_nil] at hle ⊢
            omega
      · by_cases hc : c ∈ ['"', '\\', '\n']
        · simp only [List.mem_cons, List.not_mem_nil, or_false] at hc
          rcases hc with rfl | rfl | rfl
          · rw [lexString_close] at h
            obtain ⟨-, rfl⟩ := Prod.mk.inj h
            exact ⟨_, .close cs, hcount⟩
          · cases cs with
            | nil => exact (hreports (by rw [lexString])).elim
            | cons esc cs =>
                rw [lexString_escape] at h
                obtain ⟨lit, hlit, hle⟩ := spells_of_accepted cs hcount h hkind hdiags
                exact ⟨_, hlit.escape esc, by rw [Literal.push_parts_length]; exact hle⟩
          · rw [lexString] at h
            exact absurd (congrArg Token.kind (Prod.mk.inj h).1).symm hkind
        · rw [lexString_plain parts nested buf hc hsite] at h
          obtain ⟨lit, hlit, hle⟩ := spells_of_accepted cs hcount h hkind hdiags
          exact ⟨_, hlit.plain hc hsite, by rw [Literal.push_parts_length]; exact hle⟩
termination_by cs.length

/-- A text spells one literal. -/
theorem Spells.unique {cs rest rest' : List Char} {lit lit' : Literal} (h : Spells cs lit rest)
    (h' : Spells cs lit' rest') : lit = lit' ∧ rest = rest' := by
  induction h generalizing lit' with
  | close rest =>
      cases h' with
      | close => exact ⟨rfl, rfl⟩
      | plain hc => simp at hc
  | escape esc _ ih =>
      cases h' with
      | escape _ h' =>
          obtain ⟨rfl, rfl⟩ := ih h'
          exact ⟨rfl, rfl⟩
      | plain hc => simp at hc
  | @site body cs rest lit hbody _ ih =>
      generalize htext : '$' :: '{' :: (body ++ '}' :: cs) = text at h'
      cases h' with
      | close => cases htext
      | escape => cases htext
      | @site body' cs' _ _ hbody' h' =>
          have hfound : closing 0 false (body ++ '}' :: cs) = some (body', cs') :=
            closing_iff.2 ⟨hbody', by simpa using htext⟩
          rw [closing_iff.2 ⟨hbody, rfl⟩] at hfound
          obtain ⟨rfl, rfl⟩ := Prod.mk.inj (Option.some.inj hfound)
          obtain ⟨rfl, rfl⟩ := ih h'
          exact ⟨rfl, rfl⟩
      | plain _ hsite =>
          obtain ⟨rfl, rfl⟩ := List.cons.inj htext
          exact absurd ⟨rfl, rfl⟩ hsite
  | plain hc hsite _ ih =>
      cases h' with
      | close => simp at hc
      | escape => simp at hc
      | site => exact absurd ⟨rfl, rfl⟩ hsite
      | plain _ _ h' =>
          obtain ⟨rfl, rfl⟩ := ih h'
          exact ⟨rfl, rfl⟩

/-! ## What is kept -/

/-- The segments fit into the buffer, and no NUL is among them and the sources. -/
def Literal.Fits (lit : Literal) : Prop :=
  (∀ t ∈ lit.segments, t.length ≤ 8191 ∧ '\x00' ∉ t) ∧ ∀ e ∈ lit.sources, '\x00' ∉ e

theorem cstr_eq_iff (t : List Char) : cstr t = String.ofList t ↔ '\x00' ∉ t := by
  have hmem : (∀ c ∈ t, (c != '\x00') = true) ↔ '\x00' ∉ t := by
    constructor
    · intro h hnul
      have := h _ hnul
      simp at this
    · intro h c hc
      simp only [bne_iff_ne, ne_eq]
      rintro rfl
      exact h hc
  rw [cstr, ← hmem, ← List.takeWhile_eq_self_iff, String.ofList_inj]

theorem Segment.exact_iff {t : List Char} {s : String} (h : Segment [] t s) :
    s = String.ofList t ↔ t.length ≤ 8191 ∧ '\x00' ∉ t := by
  obtain ⟨hlength, hcstr⟩ := h
  simp only [List.length_nil, Nat.zero_add, List.nil_append] at hcstr
  constructor
  · rintro rfl
    have hle : t.length ≤ 8191 := by simpa using hlength
    exact ⟨hle, (cstr_eq_iff t).1 (hcstr hle).symm⟩
  · rintro ⟨hle, hnul⟩
    rw [hcstr hle, (cstr_eq_iff t).2 hnul]

theorem Kept.exact_iff {parts : List (List Char × List Char)} {last : List Char}
    {parts' : List (String × String)} {s : String} (h : Kept [] parts last parts' s) :
    parts' = parts.map (fun (l, e) => (String.ofList l, String.ofList e)) ∧ s = String.ofList last ↔
      (Literal.mk parts last).Fits := by
  induction parts generalizing parts' with
  | nil =>
      cases parts' with
      | nil =>
          rw [List.map_nil, Segment.exact_iff h]
          simp [Literal.Fits, Literal.segments, Literal.sources]
      | cons part parts' => exact h.elim
  | cons part parts ih =>
      obtain ⟨l, e⟩ := part
      cases parts' with
      | nil => exact h.elim
      | cons part' parts' =>
          obtain ⟨l', e'⟩ := part'
          obtain ⟨hl, rfl, h⟩ := h
          have ih := ih h
          simp only [Literal.Fits, Literal.segments, Literal.sources, List.map_cons, List.cons.injEq,
            List.cons_append, List.forall_mem_cons, Prod.mk.injEq, hl.exact_iff,
            cstr_eq_iff] at ih ⊢
          tauto

theorem Kept.isEmpty {buf : List Char} {parts : List (List Char × List Char)} {last : List Char}
    {parts' : List (String × String)} {s : String} (h : Kept buf parts last parts' s) :
    parts'.isEmpty = parts.isEmpty := by
  cases parts with
  | nil =>
      cases parts' with
      | nil => rfl
      | cons part' parts' => exact h.elim
  | cons part parts =>
      cases parts' with
      | nil => exact h.elim
      | cons part' parts' => rfl

theorem Kept.value_iff {lit : Literal} {parts : List (String × String)} {buf : List Char}
    (h : Kept [] lit.parts lit.last parts (cstr buf)) :
    (stringToken parts lit.nested buf []).value = lit.value ↔ lit.Fits := by
  have hexact := h.exact_iff
  have hempty := h.isEmpty
  unfold stringToken Literal.value
  rw [hempty]
  cases hparts : lit.parts with
  | nil =>
      rw [hparts] at hempty hexact
      obtain rfl := List.isEmpty_iff.1 hempty
      simpa [Literal.Fits, Literal.segments, Literal.sources, hparts] using hexact
  | cons part ps =>
      rw [hparts] at hexact
      simpa [Literal.Fits, Literal.segments, Literal.sources, hparts] using hexact

end Limceron.Parse
