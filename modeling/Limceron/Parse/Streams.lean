/-
# `Limceron.Parse.Streams` — a text that is read from the front

The tokens that the parser still has are those of a rest of the text, whatever the lexer has
seen before it (`Stream`).  So a program of the parser can be followed on the text:

| | |
| :-- | :-- |
| `Reads p cs a rest` | `p` takes the text up to `rest`, gives `a`, and nothing is reported |
| `Leads p cs q rest` | what `p` does at `cs` is what `q` does at `rest` |
-/
import Limceron.Parse.Reports
import Limceron.Parse.ToolBody

namespace Limceron.Parse

open Readers Readers.Reader

variable {α β γ : Type}

/-! ## Texts and tokens -/

/-- The tokens of the text that is still to be read. -/
def Stream (cs : List Char) (ts : List Token) : Prop :=
  ∃ n prev, cs.length < n ∧ ts = lexFrom n prev cs

/-- The text begins with a token of which nothing is reported. -/
structure Lexeme (cs : List Char) (tok : Token) (rest : List Char) : Prop where
  next : lexerNextRaw cs = (tok, rest)
  silent : tok.diags = []
  plain : tok.kind ≠ .eof ∧ tok.kind ≠ .newline ∧ tok.kind ≠ .error

/-- It begins with such a token, or there is nothing. -/
def Head (cs : List Char) : Prop := cs = [] ∨ ∃ tok rest, Lexeme cs tok rest

def kindOf (cs : List Char) : TokenKind := (lexerNextRaw cs).1.kind

theorem stream_lex (cs : List Char) : Stream cs (lex cs) :=
  ⟨cs.length + 1, .intLit, Nat.lt_succ_self _, rfl⟩

theorem Stream.nil {ts : List Token} (h : Stream [] ts) : ts = [] := by
  obtain ⟨n, prev, hn, rfl⟩ := h
  cases n with
  | zero => exact absurd hn (Nat.not_lt_zero _)
  | succ n => rfl

theorem Lexeme.head {cs rest : List Char} {tok : Token} (h : Lexeme cs tok rest) : Head cs :=
  .inr ⟨tok, rest, h⟩

theorem Lexeme.kindOf {cs rest : List Char} {tok : Token} (h : Lexeme cs tok rest) :
    kindOf cs = tok.kind := by
  rw [Parse.kindOf, h.next]

theorem Lexeme.stream {cs rest : List Char} {tok : Token} {ts : List Token}
    (h : Lexeme cs tok rest) (hts : Stream cs ts) : ∃ us, ts = tok :: us ∧ Stream rest us := by
  obtain ⟨n, prev, hn, rfl⟩ := hts
  obtain ⟨hnext, -, heof, hnewline, -⟩ := h
  cases n with
  | zero => exact absurd hn (Nat.not_lt_zero _)
  | succ n =>
      have hweight := @lexerNextRaw_weight cs
      rw [hnext] at hweight
      have hpos := tok.weight_pos
      have hlength : tok.weight + rest.length ≤ cs.length := hweight heof
      refine ⟨lexFrom n tok.kind rest, ?_, n, tok.kind, by omega, rfl⟩
      rw [lexFrom, hnext]
      simp only [heof, hnewline, if_false]

theorem Head.behind {cs : List Char} {us : List Token} (h : Head cs) (hus : Stream cs us)
    (tok : Token) : behind (tok :: us) = us ∧
      ∀ s, take (tok :: us) s = { s with previous := tok } := by
  rcases h with rfl | ⟨tok', rest, hlexeme⟩
  · rw [hus.nil]
    exact ⟨rfl, fun _ => rfl⟩
  · obtain ⟨vs, rfl, -⟩ := hlexeme.stream hus
    have herror : (tok'.kind == .error) = false := beq_eq_false_iff_ne.2 hlexeme.plain.2.2
    have hskips : parser.skips tok' = false := herror
    constructor
    · rw [Parse.behind, List.tail_cons, List.dropWhile_cons_of_neg (by simp [hskips])]
    · intro s
      rw [take, Notes.takeIn, List.tail_cons, List.span_eq_takeWhile_dropWhile]
      simp [herror, hlexeme.silent, current]

theorem Head.kind {cs : List Char} {ts : List Token} (h : Head cs) (hts : Stream cs ts) :
    (current ts).kind = kindOf cs := by
  rcases h with rfl | ⟨tok, rest, hlexeme⟩
  · rw [hts.nil]
    rfl
  · obtain ⟨us, rfl, -⟩ := hlexeme.stream hts
    exact hlexeme.kindOf.symm

theorem Silent.previous {s : Notes} (h : Silent s) (tok : Token) :
    Silent { s with previous := tok } := ⟨h.errors, h.hadError⟩

/-! ## What a program does with a text -/

/-- The text up to `rest` is read, and nothing is reported. -/
def Reads (p : P α) (cs : List Char) (a : α) (rest : List Char) : Prop :=
  ∀ ts s, Stream cs ts → Silent s →
    ∃ us s', Ends p ts s a us s' ∧ Stream rest us ∧ Silent s'

/-- What `p` does with `cs` is what `q` does with `rest`. -/
def Leads (p : P α) (cs : List Char) (q : P α) (rest : List Char) : Prop :=
  ∀ ts s, Stream cs ts → Silent s → ∃ us s', Stream rest us ∧ Silent s' ∧
    ∀ a vs s'', Ends p ts s a vs s'' ↔ Ends q us s' a vs s''

section Rules

variable {cs mid rest : List Char} {p q r : P α} {a : α}

theorem Leads.trans (h : Leads p cs q mid) (h' : Leads q mid r rest) : Leads p cs r rest := by
  intro ts s hts hs
  obtain ⟨us, s', hus, hs', hiff⟩ := h ts s hts hs
  obtain ⟨vs, s'', hvs, hs'', hiff'⟩ := h' us s' hus hs'
  exact ⟨vs, s'', hvs, hs'', fun a ws s₃ => (hiff a ws s₃).trans (hiff' a ws s₃)⟩

theorem Leads.reads (h : Leads p cs q mid) (hq : Reads q mid a rest) : Reads p cs a rest := by
  intro ts s hts hs
  obtain ⟨us, s', hus, hs', hiff⟩ := h ts s hts hs
  obtain ⟨vs, s'', hends, hvs, hs''⟩ := hq us s' hus hs'
  exact ⟨vs, s'', (hiff a vs s'').2 hends, hvs, hs''⟩

theorem reads_pure (a : α) (cs : List Char) : Reads (pure a) cs a cs :=
  fun ts s hts hs => ⟨ts, s, ends_pure, hts, hs⟩

theorem Reads.leads {p : P β} {b : β} {f : β → P α} (h : Reads p cs b mid) :
    Leads (p >>= f) cs (f b) mid := by
  intro ts s hts hs
  obtain ⟨us, s', hends, hus, hs'⟩ := h ts s hts hs
  refine ⟨us, s', hus, hs', ?_⟩
  intro a vs s''
  constructor
  · intro h
    obtain ⟨b', us', s₁, hb, hf⟩ := Reader.bind_ends_iff.1 h
    obtain ⟨rfl, rfl, rfl⟩ := hb.unique hends
    exact hf
  · intro h
    exact hends.bind h

theorem Reads.bind {p : P β} {b : β} {f : β → P α} (h : Reads p cs b mid)
    (h' : Reads (f b) mid a rest) : Reads (p >>= f) cs a rest := h.leads.reads h'

theorem leads_call (c : Fn) (cs : List Char) : Leads (.call c) cs (fnBody c) cs :=
  fun ts s hts hs => ⟨ts, s, hts, hs, fun _ _ _ => ends_call⟩

end Rules

/-! ## Tokens that are taken or not -/

section Tokens

variable {cs rest : List Char} {tok : Token} {k : TokenKind}

theorem reads_check (h : Head cs) (k : TokenKind) : Reads (check k) cs (kindOf cs == k) cs := by
  intro ts s hts hs
  refine ⟨ts, s, ?_, hts, hs⟩
  rw [← h.kind hts]
  exact ends_check k

theorem Lexeme.reads_cur (h : Lexeme cs tok rest) : Reads cur cs tok cs := by
  intro ts s hts hs
  obtain ⟨us, rfl, hus⟩ := h.stream hts
  exact ⟨tok :: us, s, ends_act _, hts, hs⟩

theorem Lexeme.reads_prime (h : Lexeme cs tok rest) : Reads prime cs () cs := by
  intro ts s hts hs
  obtain ⟨us, rfl, hus⟩ := h.stream hts
  have hends : Ends prime (tok :: us) s () (tok :: us) (tok.diags.foldl .report s) := ends_act _
  rw [h.silent] at hends
  exact ⟨tok :: us, s, hends, hts, hs⟩

theorem Lexeme.reads_advance (h : Lexeme cs tok rest) (hrest : Head rest) :
    Reads advance cs tok rest := by
  intro ts s hts hs
  obtain ⟨us, rfl, hus⟩ := h.stream hts
  obtain ⟨hbehind, htake⟩ := hrest.behind hus tok
  have hends : Ends advance (tok :: us) s _ _ _ := ends_advance
  rw [hbehind, htake] at hends
  exact ⟨us, _, hends, hus, hs.previous tok⟩

theorem Lexeme.reads_accept (h : Lexeme cs tok rest) (hrest : Head rest) (hk : tok.kind = k) :
    Reads (accept k) cs true rest := by
  have hcheck := reads_check h.head k
  rw [h.kindOf, hk, beq_self_eq_true] at hcheck
  exact hcheck.bind ((h.reads_advance hrest).bind (reads_pure true rest))

theorem reads_decline (h : Head cs) (hk : kindOf cs ≠ k) : Reads (accept k) cs false cs := by
  have hcheck := reads_check h k
  rw [beq_eq_false_iff_ne.2 hk] at hcheck
  exact hcheck.bind (reads_pure false cs)

theorem Lexeme.reads_expect (h : Lexeme cs tok rest) (hrest : Head rest) (hk : tok.kind = k)
    (context : String) : Reads (expect k context) cs tok rest := by
  have hcheck := reads_check h.head k
  rw [h.kindOf, hk, beq_self_eq_true] at hcheck
  exact hcheck.bind (h.reads_advance hrest)

/-- A branch that is not taken. -/
theorem leads_decline (h : Head cs) (hk : kindOf cs ≠ k) (p q : P α) :
    Leads (accept k >>= fun b => if b = true then p else q) cs q cs :=
  (reads_decline h hk).leads

/-- A branch that is taken. -/
theorem Lexeme.leads_accept (h : Lexeme cs tok rest) (hrest : Head rest) (hk : tok.kind = k)
    (p q : P α) : Leads (accept k >>= fun b => if b = true then p else q) cs p rest :=
  (h.reads_accept hrest hk).leads

end Tokens

/-! ## Loops -/

section Loops

variable {cs mid rest : List Char} {body : β → P (β ⊕ γ)} {b : β}

theorem reads_leave {c : γ} (h : Reads (body b) cs (.inr c) mid) :
    Reads (repeating body b) cs c mid := by
  intro ts s hts hs
  obtain ⟨us, s', hends, hus, hs'⟩ := h ts s hts hs
  exact ⟨us, s', hends.loop_inr, hus, hs'⟩

theorem leads_goOn {b' : β} (h : Reads (body b) cs (.inl b') mid) :
    Leads (repeating body b) cs (repeating body b') mid := by
  intro ts s hts hs
  obtain ⟨us, s', hends, hus, hs'⟩ := h ts s hts hs
  refine ⟨us, s', hus, hs', ?_⟩
  intro c vs s''
  constructor
  · intro hloop
    rcases ends_loop.1 hloop with hinr | ⟨b'', ws, s₁, hinl, hrest⟩
    · cases (hinr.unique hends).1
    · obtain ⟨heq, rfl, rfl⟩ := hinl.unique hends
      cases heq
      exact hrest
  · intro hloop
    exact hends.loop_inl hloop

end Loops

/-! ## Lists -/

/-- Whether the list goes on. -/
def commaNext (items : List α) : P (List α ⊕ List α) := do
  if ← accept .comma then pure (.inl items) else pure (.inr items)

/-- One turn of `commaList`. -/
def commaStep (close : TokenKind) (item : P α) (items : List α) : P (List α ⊕ List α) := do
  if (← check close) || (← check .eof) then pure (.inr items)
  else
    let x ← item
    commaNext (items ++ [x])

end Limceron.Parse
