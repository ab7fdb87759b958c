/-
# `Limceron.Lib.CTokens` — the tokens of a C text

A C compiler replaces the trigraphs of a text, joins the lines that end in a
backslash, and cuts what is left into tokens.  The text of an expression has
words, numbers, quoted strings and punctuators; `tokens` has no result for
anything else, a comment or a character constant for example.

| state | |
| :-- | :-- |
| `between` | at the start of a token |
| `word`, `number` | inside one |
| `slash` | behind a `/`, which may open a comment |
| `quoted` | inside quotes |
| `escape` | behind the backslash of an escape sequence |

`Prints p ts` says that the text `p` is the tokens `ts` wherever it stands
before a comma, a closing parenthesis or the end.  It is closed under what
expressions are built with.
-/
import Mathlib.Data.List.Basic

namespace CTokens

/-! ## The first two phases -/

/-- What `??c` stands for. -/
def trigraph : Char → Option Char
  | '=' => some '#'
  | '(' => some '['
  | '/' => some '\\'
  | ')' => some ']'
  | '\'' => some '^'
  | '<' => some '\x7b'
  | '!' => some '|'
  | '>' => some '\x7d'
  | '-' => some '~'
  | _ => none

def trigraphs : List Char → List Char
  | '?' :: '?' :: c :: cs =>
      match trigraph c with
      | some d => d :: trigraphs cs
      | none => '?' :: trigraphs ('?' :: c :: cs)
  | c :: cs => c :: trigraphs cs
  | [] => []

/-- Lines that end in a backslash are joined to the next. -/
def joined : List Char → List Char
  | '\\' :: '\n' :: cs => joined cs
  | c :: cs => c :: joined cs
  | [] => []

/-- No phase changes the text, whatever stands behind it. -/
structure Stable (p : List Char) : Prop where
  trigraphs : ∀ rest, trigraphs (p ++ rest) = p ++ CTokens.trigraphs rest
  joined : ∀ rest, joined (p ++ rest) = p ++ CTokens.joined rest

theorem stable_nil : Stable [] := ⟨fun _ => rfl, fun _ => rfl⟩

theorem Stable.append {p q : List Char} (hp : Stable p) (hq : Stable q) : Stable (p ++ q) := by
  constructor
  · intro rest
    rw [List.append_assoc, hp.trigraphs, hq.trigraphs, List.append_assoc]
  · intro rest
    rw [List.append_assoc, hp.joined, hq.joined, List.append_assoc]

theorem trigraphs_cons {c : Char} (h : c ≠ '?') (cs : List Char) :
    trigraphs (c :: cs) = c :: trigraphs cs := by
  rw [trigraphs]
  rintro _ _ rfl
  exact absurd rfl h

theorem joined_cons {c : Char} (h : c ≠ '\\') (cs : List Char) :
    joined (c :: cs) = c :: joined cs := by
  rw [joined]
  rintro _ rfl
  exact absurd rfl h

/-- A character without a part in the first two phases. -/
def plain (c : Char) : Bool := c != '?' && c != '\\'

theorem stable_of_plain {p : List Char} (h : p.all plain) : Stable p := by
  induction p with
  | nil => exact stable_nil
  | cons c cs ih =>
    rw [List.all_cons, Bool.and_eq_true] at h
    obtain ⟨hc, hcs⟩ := h
    simp only [plain, Bool.and_eq_true, bne_iff_ne] at hc
    constructor
    · intro rest
      rw [List.cons_append, trigraphs_cons hc.1, (ih hcs).trigraphs, List.cons_append]
    · intro rest
      rw [List.cons_append, joined_cons hc.2, (ih hcs).joined, List.cons_append]

theorem Stable.phases {p : List Char} (h : Stable p) : CTokens.joined (CTokens.trigraphs p) = p := by
  have ht := h.trigraphs []
  have hj := h.joined []
  rw [List.append_nil] at ht hj
  rw [ht, CTokens.trigraphs, List.append_nil, hj, CTokens.joined, List.append_nil]

/-! ## Tokens -/

inductive Token
  | word (w : List Char)
  | number (ds : List Char)
  | str (s : List Char)
  | punct (c : Char)
  deriving DecidableEq, Repr

inductive Mode
  | between
  | word (w : List Char)
  | number (ds : List Char)
  | slash
  | quoted (s : List Char)
  | escape (s : List Char)

/-- The tokens before, the last one first, and where the text is. -/
structure State where
  done : List Token
  mode : Mode

def isBlank (c : Char) : Bool := c == ' ' || c == '\t' || c == '\n'

def isWord (c : Char) : Bool := c.isAlphanum || c == '_'

def puncts : List Char :=
  ['(', ')', '[', ']', '\x7b', '\x7d', ',', '.', ';', ':', '?', '+', '-', '*', '%', '&', '|', '^',
    '~', '!', '<', '>', '=']

/-- The character an escape sequence stands for. -/
def unescape : Char → Option Char
  | 'n' => some '\n'
  | 'r' => some '\x0d'
  | 't' => some '\t'
  | '"' => some '"'
  | '\\' => some '\\'
  | _ => none

/-- A token begins. -/
def start (done : List Token) (c : Char) : Option State :=
  if isBlank c then some ⟨done, .between⟩
  else if c.isDigit then some ⟨done, .number [c]⟩
  else if isWord c then some ⟨done, .word [c]⟩
  else if c = '"' then some ⟨done, .quoted []⟩
  else if c = '/' then some ⟨done, .slash⟩
  else if c ∈ puncts then some ⟨.punct c :: done, .between⟩
  else none

/-- The tokens, if one may end here. -/
def State.flush : State → Option (List Token)
  | ⟨done, .between⟩ => some done
  | ⟨done, .word w⟩ => some (.word w.reverse :: done)
  | ⟨done, .number ds⟩ => some (.number ds.reverse :: done)
  | ⟨done, .slash⟩ => some (.punct '/' :: done)
  | ⟨_, .quoted _⟩ => none
  | ⟨_, .escape _⟩ => none

def feed (st : State) (c : Char) : Option State :=
  match st with
  | ⟨done, .between⟩ => start done c
  | ⟨done, .word w⟩ =>
      if isWord c then some ⟨done, .word (c :: w)⟩ else start (.word w.reverse :: done) c
  | ⟨done, .number ds⟩ =>
      if isWord c || c = '.' then some ⟨done, .number (c :: ds)⟩
      else start (.number ds.reverse :: done) c
  | ⟨done, .slash⟩ => if c = '/' ∨ c = '*' then none else start (.punct '/' :: done) c
  | ⟨done, .quoted s⟩ =>
      if c = '"' then some ⟨.str s.reverse :: done, .between⟩
      else if c = '\\' then some ⟨done, .escape s⟩
      else if c = '\n' ∨ c = '\x0d' then none
      else some ⟨done, .quoted (c :: s)⟩
  | ⟨done, .escape s⟩ => (unescape c).map fun d => ⟨done, .quoted (d :: s)⟩

/-- The tokens of a text. -/
def tokens (p : List Char) : Option (List Token) :=
  (((joined (trigraphs p)).foldlM feed ⟨[], .between⟩).bind State.flush).map List.reverse

/-! ## Balance -/

/-- The parentheses that are open behind the tokens, if none closes too early. -/
def depth : List Token → Nat → Option Nat
  | [], d => some d
  | .punct c :: ts, d =>
      if c = '(' then depth ts (d + 1)
      else if c = ')' then
        match d with
        | 0 => none
        | d + 1 => depth ts d
      else depth ts d
  | _ :: ts, d => depth ts d

/-- Each parenthesis has its own. -/
def Balanced (ts : List Token) : Prop := ∀ d, depth ts d = some d

theorem depth_append (ts us : List Token) (d : Nat) :
    depth (ts ++ us) d = (depth ts d).bind (depth us) := by
  induction ts generalizing d with
  | nil => rfl
  | cons t ts ih =>
    cases t with
    | word | number | str => exact ih d
    | punct c =>
      simp only [List.cons_append, depth]
      split
      · exact ih _
      · split
        · cases d with
          | zero => rfl
          | succ d => exact ih d
        · exact ih d

theorem Balanced.append {ts us : List Token} (ht : Balanced ts) (hu : Balanced us) :
    Balanced (ts ++ us) := by
  intro d
  rw [depth_append, ht, Option.bind_some, hu]

theorem Balanced.parens {ts : List Token} (h : Balanced ts) :
    Balanced (.punct '(' :: (ts ++ [.punct ')'])) := by
  intro d
  simp only [depth, if_pos, depth_append, h (d + 1), Option.bind_some]
  rfl

/-! ## Texts that are tokens -/

/-- What may stand behind a text that `Prints`. -/
def Ends (c : Char) : Prop := c = ')' ∨ c = ','

/-- The text is these tokens, before a comma, a closing parenthesis or the end. -/
structure Prints (p : List Char) (ts : List Token) : Prop where
  stable : Stable p
  reads : ∀ done, ∃ st, p.foldlM feed ⟨done, .between⟩ = some st ∧
    st.flush = some (ts.reverse ++ done)

theorem feed_ends {st : State} {done : List Token} {c : Char} (h : st.flush = some done)
    (hc : Ends c) : feed st c = some ⟨.punct c :: done, .between⟩ := by
  obtain ⟨done', mode⟩ := st
  cases mode with
  | between | word | number | slash =>
    cases h
    rcases hc with rfl | rfl <;> rfl
  | quoted | escape => cases h

theorem Prints.tokens {p : List Char} {ts : List Token} (h : Prints p ts) :
    tokens p = some ts := by
  obtain ⟨st, hst, hflush⟩ := h.reads []
  rw [CTokens.tokens, h.stable.phases, hst, Option.bind_some, hflush, Option.map_some,
    List.append_nil, List.reverse_reverse]

/-- A fixed text that is read between tokens, and leaves the reader there. -/
structure Fixed (p : List Char) (ts : List Token) : Prop where
  stable : Stable p
  reads : ∀ done, p.foldlM feed ⟨done, .between⟩ = some ⟨ts.reverse ++ done, .between⟩

theorem Prints.ends {p q : List Char} {ts us : List Token} {c : Char} (h : Prints p ts)
    (hc : Ends c) (hq : Fixed q us) : Fixed (p ++ c :: q) (ts ++ .punct c :: us) := by
  constructor
  · refine h.stable.append (.append (p := [c]) (stable_of_plain ?_) hq.stable)
    rcases hc with rfl | rfl <;> rfl
  · intro done
    obtain ⟨st, hst, hflush⟩ := h.reads done
    rw [List.foldlM_append, hst]
    simp [feed_ends hflush hc, hq.reads]

theorem Fixed.append {p q : List Char} {ts us : List Token} (hp : Fixed p ts) (hq : Fixed q us) :
    Fixed (p ++ q) (ts ++ us) := by
  refine ⟨hp.stable.append hq.stable, ?_⟩
  intro done
  rw [List.foldlM_append, hp.reads]
  simp [hq.reads]

theorem Fixed.before {p q : List Char} {ts us : List Token} (hp : Fixed p ts) (hq : Prints q us) :
    Prints (p ++ q) (ts ++ us) := by
  refine ⟨hp.stable.append hq.stable, ?_⟩
  intro done
  obtain ⟨st, hst, hflush⟩ := hq.reads (ts.reverse ++ done)
  refine ⟨st, ?_, by simpa using hflush⟩
  rw [List.foldlM_append, hp.reads]
  simpa using hst

theorem Fixed.prints {p : List Char} {ts : List Token} (h : Fixed p ts) : Prints p ts :=
  ⟨h.stable, fun done => ⟨_, h.reads done, rfl⟩⟩

/-! ## Words and numbers -/

def Identifier (w : List Char) : Prop :=
  w.all isWord ∧ ∃ c, w.head? = some c ∧ ¬ c.isDigit

instance (w : List Char) : Decidable (Identifier w) :=
  match w with
  | [] => .isFalse fun ⟨_, _, h, _⟩ => by cases h
  | c :: cs => decidable_of_iff ((c :: cs).all isWord ∧ ¬ c.isDigit) (by simp [Identifier])

theorem plain_of_isWord {c : Char} (h : isWord c) : plain c := by
  simp only [plain, Bool.and_eq_true, bne_iff_ne]
  constructor
  · rintro rfl
    exact absurd h (by decide)
  · rintro rfl
    exact absurd h (by decide)

theorem stable_of_isWord {w : List Char} (h : w.all isWord) : Stable w := by
  refine stable_of_plain ?_
  rw [List.all_eq_true] at h ⊢
  exact fun c hc => plain_of_isWord (h c hc)

theorem isBlank_of_isWord {c : Char} (h : isWord c) : isBlank c = false := by
  rw [Bool.eq_false_iff]
  intro hb
  simp only [isBlank, Bool.or_eq_true, beq_iff_eq] at hb
  rcases hb with (rfl | rfl) | rfl <;> exact absurd h (by decide)

theorem feed_word {w v : List Char} (hw : w.all isWord) (done : List Token) :
    w.foldlM feed ⟨done, .word v⟩ = some ⟨done, .word (w.reverse ++ v)⟩ := by
  induction w generalizing v with
  | nil => rfl
  | cons c cs ih =>
    rw [List.all_cons, Bool.and_eq_true] at hw
    rw [List.foldlM_cons, feed, if_pos hw.1]
    simpa using ih hw.2

theorem Identifier.feed {w : List Char} (h : Identifier w) (done : List Token) :
    w.foldlM feed ⟨done, .between⟩ = some ⟨done, .word w.reverse⟩ := by
  obtain ⟨hall, c, hhead, hdigit⟩ := h
  cases w with
  | nil => cases hhead
  | cons c cs =>
    cases hhead
    rw [List.all_cons, Bool.and_eq_true] at hall
    rw [List.foldlM_cons, CTokens.feed, start, isBlank_of_isWord hall.1, if_neg Bool.false_ne_true,
      if_neg hdigit, if_pos hall.1]
    simpa using feed_word hall.2 done

theorem Identifier.prints {w : List Char} (h : Identifier w) : Prints w [.word w] := by
  refine ⟨stable_of_isWord h.1, ?_⟩
  intro done
  refine ⟨_, h.feed done, ?_⟩
  rw [State.flush, List.reverse_reverse]
  rfl

/-- The words of a path, with dots between them. -/
def pathTokens : List (List Char) → List Token
  | [] => []
  | [w] => [.word w]
  | w :: ws => .word w :: .punct '.' :: pathTokens ws

theorem Identifier.dot {w : List Char} (h : Identifier w) :
    Fixed (w ++ ['.']) [.word w, .punct '.'] := by
  refine ⟨(stable_of_isWord h.1).append (stable_of_plain rfl), ?_⟩
  intro done
  rw [List.foldlM_append, h.feed]
  simp [CTokens.feed, start, isBlank, isWord, puncts]

theorem prints_path {ws : List (List Char)} (hne : ws ≠ []) (h : ∀ w ∈ ws, Identifier w) :
    Prints (List.intercalate ['.'] ws) (pathTokens ws) := by
  induction ws with
  | nil => exact absurd rfl hne
  | cons w ws ih =>
    rw [List.forall_mem_cons] at h
    cases ws with
    | nil => simpa [List.intercalate, pathTokens] using h.1.prints
    | cons v ws =>
      have hrest := h.1.dot.before (ih (List.cons_ne_nil v ws) h.2)
      simpa [List.intercalate, List.intersperse, pathTokens] using hrest

theorem isWord_of_isDigit {c : Char} (h : c.isDigit) : isWord c := by
  simp [isWord, Char.isAlphanum, h]

theorem feed_number {ds es : List Char} (h : ds.all Char.isDigit) (done : List Token) :
    ds.foldlM feed ⟨done, .number es⟩ = some ⟨done, .number (ds.reverse ++ es)⟩ := by
  induction ds generalizing es with
  | nil => rfl
  | cons d ds ih =>
    rw [List.all_cons, Bool.and_eq_true] at h
    rw [List.foldlM_cons, feed, if_pos (by simp [isWord_of_isDigit h.1])]
    simpa using ih h.2

theorem prints_number {ds : List Char} (hne : ds ≠ []) (h : ds.all Char.isDigit) :
    Prints ds [.number ds] := by
  have hword : ds.all isWord := by
    rw [List.all_eq_true] at h ⊢
    exact fun c hc => isWord_of_isDigit (h c hc)
  refine ⟨stable_of_isWord hword, ?_⟩
  intro done
  cases ds with
  | nil => exact absurd rfl hne
  | cons d ds =>
    rw [List.all_cons, Bool.and_eq_true] at h hword
    refine ⟨⟨done, .number (d :: ds).reverse⟩, ?_, by simp [State.flush]⟩
    rw [List.foldlM_cons, feed, start, isBlank_of_isWord hword.1, if_neg Bool.false_ne_true,
      if_pos h.1]
    simpa using feed_number h.2 done

/-- The text of an integer in decimal. -/
def decimal : Int → List Char
  | .ofNat n => Nat.toDigits 10 n
  | .negSucc n => '-' :: Nat.toDigits 10 (n + 1)

def decimalTokens : Int → List Token
  | .ofNat n => [.number (Nat.toDigits 10 n)]
  | .negSucc n => [.punct '-', .number (Nat.toDigits 10 (n + 1))]

theorem prints_toDigits (n : Nat) : Prints (Nat.toDigits 10 n) [.number (Nat.toDigits 10 n)] := by
  refine prints_number Nat.toDigits_ne_nil ?_
  rw [List.all_eq_true]
  exact fun c hc => Nat.isDigit_of_mem_toDigits (by decide) (by decide) hc

theorem fixed_minus : Fixed ['-'] [.punct '-'] := ⟨stable_of_plain rfl, fun _ => rfl⟩

theorem prints_decimal (v : Int) : Prints (decimal v) (decimalTokens v) := by
  cases v with
  | ofNat n => exact prints_toDigits n
  | negSucc n => exact fixed_minus.before (prints_toDigits (n + 1))

/-! ## Quoted strings -/

/-- No trigraph begins in the text. -/
def trigraphFree : List Char → Bool
  | '?' :: '?' :: c :: cs => (trigraph c).isNone && trigraphFree ('?' :: c :: cs)
  | _ :: cs => trigraphFree cs
  | [] => true

/-- A character with its escape sequence, if the table has one. -/
def escapeWith (table : List (Char × Char)) (c : Char) : List Char :=
  match table.lookup c with
  | some x => ['\\', x]
  | none => [c]

def quoteWith (table : List (Char × Char)) (s : List Char) : List Char :=
  '"' :: (s.flatMap (escapeWith table) ++ ['"'])

/-- The escape sequences are right, and what has to have one has one. -/
structure Table (table : List (Char × Char)) : Prop where
  decodes : ∀ c x, table.lookup c = some x → unescape x = some c
  covers : ∀ c ∈ ['"', '\\', '\n'], (table.lookup c).isSome

theorem trigraphFree_tail {c : Char} {cs : List Char} (h : trigraphFree (c :: cs)) :
    trigraphFree cs := by
  unfold trigraphFree at h
  split at h
  · next heq =>
    cases heq
    rw [Bool.and_eq_true] at h
    exact h.2
  · next heq =>
    cases heq
    exact h
  · next heq => cases heq

theorem trigraphFree_append {s t : List Char} (h : trigraphFree (s ++ t)) :
    trigraphFree s ∧ trigraphFree t := by
  induction s with
  | nil => exact ⟨rfl, h⟩
  | cons c s ih =>
    obtain ⟨hs, ht⟩ := ih (trigraphFree_tail h)
    refine ⟨?_, ht⟩
    rw [trigraphFree.eq_def]
    split
    · next heq =>
      cases heq
      simp only [List.cons_append, trigraphFree, Bool.and_eq_true] at h
      rw [Bool.and_eq_true]
      exact ⟨h.1, hs⟩
    · next heq =>
      cases heq
      exact hs
    · rfl

theorem trigraphFree_part {s t : List Char} (h : trigraphFree s) (hts : t <:+: s) :
    trigraphFree t := by
  obtain ⟨a, b, rfl⟩ := hts
  exact (trigraphFree_append (trigraphFree_append h).1).2

theorem trigraphs_question {cs : List Char}
    (h : ∀ c ds, cs = '?' :: c :: ds → trigraph c = none) :
    trigraphs ('?' :: cs) = '?' :: trigraphs cs := by
  rw [trigraphs.eq_def]
  split
  · next heq =>
    cases heq
    rw [h _ _ rfl]
  · next heq =>
    cases heq
    rfl
  · next heq => cases heq

theorem unescape_ne {x c : Char} (h : unescape x = some c) : x ≠ '\n' ∧ c ≠ '?' := by
  constructor
  · rintro rfl
    cases h
  · rintro rfl
    unfold unescape at h
    split at h <;> cases h

section
variable {table : List (Char × Char)} (ht : Table table)
include ht

/-- A character stands for itself, or it has an escape sequence. -/
theorem Table.cases (c : Char) :
    (escapeWith table c = [c] ∧ c ∉ ['"', '\\', '\n'] ∧ table.lookup c = none) ∨
      ∃ x, escapeWith table c = ['\\', x] ∧ unescape x = some c ∧ c ≠ '?' ∧ x ≠ '\n' := by
  rw [escapeWith]
  cases h : table.lookup c with
  | none =>
    refine .inl ⟨rfl, ?_, rfl⟩
    intro hc
    have hsome := ht.covers c hc
    rw [h] at hsome
    cases hsome
  | some x =>
    have hx := ht.decodes c x h
    exact .inr ⟨x, rfl, hx, (unescape_ne hx).2, (unescape_ne hx).1⟩

/-- What stands in the place of a character after a `?`. -/
theorem Table.head {c d : Char} {q ds : List Char} (h : escapeWith table c ++ q = d :: ds) :
    (d = c ∧ ds = q) ∨ (d ≠ '?' ∧ trigraph d = none) := by
  rcases ht.cases c with ⟨hc, -, -⟩ | ⟨x, hx, -⟩
  · rw [hc] at h
    cases h
    exact .inl ⟨rfl, rfl⟩
  · rw [hx] at h
    cases h
    exact .inr ⟨by decide, rfl⟩

/-- The text in quotes has a trigraph only if the string has. -/
theorem Table.trigraphs {s : List Char} (hs : trigraphFree s) (rest : List Char) :
    trigraphs (s.flatMap (escapeWith table) ++ '"' :: rest) =
      s.flatMap (escapeWith table) ++ '"' :: CTokens.trigraphs rest := by
  induction s with
  | nil => exact trigraphs_cons (by decide) rest
  | cons c s ih =>
    have htail := ih (trigraphFree_tail hs)
    rw [List.flatMap_cons, List.append_assoc, List.append_assoc]
    rcases ht.cases c with ⟨hc, -, -⟩ | ⟨x, hx, hdecode, -, -⟩
    · rw [hc, List.singleton_append, List.singleton_append, ← htail]
      by_cases hq : c = '?'
      · subst hq
        refine trigraphs_question ?_
        -- the two characters behind the `?` are read off the string
        intro e es heq
        cases s with
        | nil => cases heq
        | cons d s =>
          rw [List.flatMap_cons, List.append_assoc] at heq
          rcases ht.head heq with ⟨rfl, hes⟩ | ⟨hne, -⟩
          · cases s with
            | nil =>
              cases hes
              rfl
            | cons d s =>
              rw [List.flatMap_cons, List.append_assoc] at hes
              rcases ht.head hes.symm with ⟨rfl, -⟩ | ⟨-, hnone⟩
              · rw [trigraphFree, Bool.and_eq_true, Option.isNone_iff_eq_none] at hs
                exact hs.1
              · exact hnone
          · exact absurd rfl hne
      · exact trigraphs_cons hq _
    · have hxq : x ≠ '?' := by
        rintro rfl
        cases hdecode
      rw [hx, List.cons_append, List.singleton_append, trigraphs_cons (by decide),
        trigraphs_cons hxq, htail]
      rfl

theorem Table.no_newline (s : List Char) : '\n' ∉ s.flatMap (escapeWith table) := by
  rw [List.mem_flatMap]
  rintro ⟨c, -, hc⟩
  rcases ht.cases c with ⟨heq, hmem, -⟩ | ⟨x, heq, -, -, hne⟩
  · rw [heq, List.mem_singleton] at hc
    subst hc
    exact hmem (by decide)
  · rw [heq] at hc
    rcases List.mem_cons.1 hc with h | h
    · cases h
    · exact hne (List.mem_singleton.1 h).symm

/-- Between the quotes the string is read. -/
theorem Table.feed {s : List Char} (hcr : '\x0d' ∈ s → (table.lookup '\x0d').isSome)
    (done : List Token) (v : List Char) :
    (s.flatMap (escapeWith table)).foldlM feed ⟨done, .quoted v⟩ =
      some ⟨done, .quoted (s.reverse ++ v)⟩ := by
  induction s generalizing v with
  | nil => rfl
  | cons c s ih =>
    have htail := ih (fun h => hcr (List.mem_cons_of_mem c h)) (c :: v)
    rw [List.reverse_cons, List.append_assoc, List.singleton_append, ← htail, List.flatMap_cons,
      List.foldlM_append]
    rcases ht.cases c with ⟨heq, hmem, hnone⟩ | ⟨x, heq, hdecode, -⟩
    · have hline : ¬ (c = '\n' ∨ c = '\x0d') := by
        rintro (rfl | rfl)
        · exact hmem (by decide)
        · rw [hnone] at hcr
          cases hcr List.mem_cons_self
      simp only [List.mem_cons, not_or] at hmem
      rw [heq, List.foldlM_cons, CTokens.feed, if_neg hmem.1, if_neg hmem.2.1, if_neg hline]
      rfl
    · rw [heq, List.foldlM_cons]
      simp [CTokens.feed, hdecode]

end

/-- A text that no line of a join can end in. -/
theorem joined_append {p : List Char} (h : '\n' ∉ p) (rest : List Char) :
    joined (p ++ '"' :: rest) = p ++ '"' :: joined rest := by
  induction p with
  | nil => exact joined_cons (by decide) rest
  | cons c p ih =>
    rw [List.mem_cons, not_or] at h
    rw [List.cons_append, joined, ih h.2]
    · rfl
    · rintro cs rfl heq
      cases p with
      | nil => cases heq
      | cons d p =>
        cases heq
        exact h.2 List.mem_cons_self

/-- A string in quotes is one token, the string itself. -/
theorem fixed_quoteWith {table : List (Char × Char)} (ht : Table table) {s : List Char}
    (hs : trigraphFree s) (hcr : '\x0d' ∈ s → (table.lookup '\x0d').isSome) :
    Fixed (quoteWith table s) [.str s] := by
  have happend : ∀ rest, quoteWith table s ++ rest =
      '"' :: (s.flatMap (escapeWith table) ++ '"' :: rest) := by
    intro rest
    simp [quoteWith]
  refine ⟨⟨?_, ?_⟩, ?_⟩
  · intro rest
    rw [happend, happend, trigraphs_cons (by decide), ht.trigraphs hs]
  · intro rest
    rw [happend, happend, joined_cons (by decide), joined_append (ht.no_newline s)]
  · intro done
    have hquote : feed ⟨done, .between⟩ '"' = some ⟨done, .quoted []⟩ := rfl
    rw [quoteWith, List.foldlM_cons, hquote]
    simp [List.foldlM_append, ht.feed hcr, feed]

end CTokens
