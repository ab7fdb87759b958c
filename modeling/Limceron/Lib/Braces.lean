/-
# `Limceron.Lib.Braces` — the brace that closes

A text is balanced, if its braces are, those in quotes not counting (`Balanced`).
`closing` looks for the brace that closes the one before the text: it counts the open
braces, and knows whether it is inside quotes.

| in quotes          | outside             |
|--------------------|---------------------|
| `\` takes the next | `"` opens quotes    |
| `"` leaves them    | a brace is counted  |

Neither goes on behind a newline, unless a backslash takes it.
-/
import Mathlib.Data.List.Basic

namespace Braces

/-! ## Balanced texts -/

/-- What may stand between quotes. -/
inductive Quoted : List Char → Prop
  | nil : Quoted []
  | escape (c : Char) {cs : List Char} : Quoted cs → Quoted ('\\' :: c :: cs)
  | plain {c : Char} {cs : List Char} : c ∉ ['"', '\\', '\n'] → Quoted cs → Quoted (c :: cs)

inductive Balanced : List Char → Prop
  | nil : Balanced []
  | plain {c : Char} {cs : List Char} :
      c ∉ ['"', '{', '}', '\n'] → Balanced cs → Balanced (c :: cs)
  | quote {s cs : List Char} : Quoted s → Balanced cs → Balanced ('"' :: (s ++ '"' :: cs))
  | braces {b cs : List Char} : Balanced b → Balanced cs → Balanced ('{' :: (b ++ '}' :: cs))

/-! ## The search -/

/-- With text before what was found. -/
def before (t : List Char) (r : List Char × List Char) : List Char × List Char :=
  (t ++ r.1, r.2)

/-- The text before the brace that closes `d + 1` of them, and the text behind it. -/
def closing : ℕ → Bool → List Char → Option (List Char × List Char)
  | _, _, [] => none
  | _, _, '\n' :: _ => none
  | d, false, '"' :: cs => (closing d true cs).map (before ['"'])
  | d, false, '{' :: cs => (closing (d + 1) false cs).map (before ['{'])
  | 0, false, '}' :: cs => some ([], cs)
  | d + 1, false, '}' :: cs => (closing d false cs).map (before ['}'])
  | d, true, '\\' :: c :: cs => (closing d true cs).map (before ['\\', c])
  | d, true, '"' :: cs => (closing d false cs).map (before ['"'])
  | d, inStr, c :: cs => (closing d inStr cs).map (before [c])

theorem before_before (s t : List Char) (r : List Char × List Char) :
    before s (before t r) = before (s ++ t) r := by
  simp [before]

theorem map_before (s t : List Char) (r : Option (List Char × List Char)) :
    (r.map (before t)).map (before s) = r.map (before (s ++ t)) := by
  cases r with
  | none => rfl
  | some r => exact congrArg some (before_before s t r)

theorem closing_quoted {s : List Char} (h : Quoted s) (d : ℕ) (cs : List Char) :
    closing d true (s ++ '"' :: cs) = (closing d false cs).map (before (s ++ ['"'])) := by
  induction h with
  | nil => simp [closing]
  | escape c _ ih =>
      rw [List.cons_append, List.cons_append, closing, ih, map_before]
      rfl
  | @plain c s hc _ ih =>
      simp only [List.mem_cons, List.not_mem_nil, or_false, not_or] at hc
      rw [List.cons_append, closing, ih, map_before]
      · rfl
      all_goals simp_all

/-- A balanced text is passed over. -/
theorem closing_balanced {b : List Char} (h : Balanced b) (d : ℕ) (cs : List Char) :
    closing d false (b ++ cs) = (closing d false cs).map (before b) := by
  induction h generalizing d cs with
  | nil => cases h : closing d false cs <;> simp [before, h]
  | @plain c b hc _ ih =>
      simp only [List.mem_cons, List.not_mem_nil, or_false, not_or] at hc
      rw [List.cons_append, closing, ih, map_before]
      · rfl
      all_goals simp_all
  | @quote s b hs _ ih =>
      rw [List.cons_append, List.append_assoc, List.cons_append, closing, closing_quoted hs, ih,
        map_before, map_before]
      simp
  | @braces b c _ _ ihb ihc =>
      rw [List.cons_append, List.append_assoc, List.cons_append, closing, ihb, closing, ihc,
        map_before, map_before, map_before]
      simp

/-! ## What the search finds -/

/-- Balanced texts, with `d` closing braces between them. -/
def Nest : ℕ → List Char → Prop
  | 0, e => Balanced e
  | d + 1, e => ∃ b e', Balanced b ∧ Nest d e' ∧ e = b ++ '}' :: e'

/-- Inside quotes, they are closed first. -/
def Within (d : ℕ) : Bool → List Char → Prop
  | false, e => Nest d e
  | true, e => ∃ s e', Quoted s ∧ Nest d e' ∧ e = s ++ '"' :: e'

/-- What may stand before a balanced text, may stand before a nest. -/
theorem Nest.map {t : List Char} (ht : ∀ b, Balanced b → Balanced (t ++ b)) {d : ℕ} {e : List Char}
    (h : Nest d e) : Nest d (t ++ e) := by
  cases d with
  | zero => exact ht e h
  | succ d =>
      obtain ⟨b, e', hb, he', rfl⟩ := h
      exact ⟨t ++ b, e', ht b hb, he', by simp⟩

theorem Nest.quote {s : List Char} (hs : Quoted s) {d : ℕ} {e : List Char} (h : Nest d e) :
    Nest d ('"' :: (s ++ '"' :: e)) := by
  have hmap := h.map (t := '"' :: (s ++ ['"'])) fun b hb => by
    simpa using Balanced.quote hs hb
  simpa using hmap

theorem Nest.opened {d : ℕ} {e : List Char} (h : Nest (d + 1) e) : Nest d ('{' :: e) := by
  obtain ⟨b, e', hb, he', rfl⟩ := h
  have hmap := he'.map (t := '{' :: (b ++ ['}'])) fun c hc => by
    simpa using Balanced.braces hb hc
  simpa using hmap

theorem closing_within {d : ℕ} {inStr : Bool} {cs : List Char} {r : List Char × List Char}
    (h : closing d inStr cs = some r) : Within d inStr r.1 ∧ cs = r.1 ++ '}' :: r.2 := by
  fun_induction closing d inStr cs generalizing r with
  | case1 => cases h
  | case2 => cases h
  | case3 d cs ih =>
      obtain ⟨r, hr, rfl⟩ := Option.map_eq_some_iff.1 h
      obtain ⟨⟨s, e, hs, he, heq⟩, rfl⟩ := ih hr
      refine ⟨?_, rfl⟩
      show Nest d ('"' :: r.1)
      rw [heq]
      exact he.quote hs
  | case4 d cs ih =>
      obtain ⟨r, hr, rfl⟩ := Option.map_eq_some_iff.1 h
      obtain ⟨hnest, rfl⟩ := ih hr
      exact ⟨Nest.opened hnest, rfl⟩
  | case5 cs =>
      obtain rfl := Option.some.inj h
      exact ⟨Balanced.nil, rfl⟩
  | case6 cs d ih =>
      obtain ⟨r, hr, rfl⟩ := Option.map_eq_some_iff.1 h
      obtain ⟨hnest, rfl⟩ := ih hr
      exact ⟨⟨[], r.1, .nil, hnest, rfl⟩, rfl⟩
  | case7 d c cs ih =>
      obtain ⟨r, hr, rfl⟩ := Option.map_eq_some_iff.1 h
      obtain ⟨⟨s, e, hs, he, heq⟩, rfl⟩ := ih hr
      exact ⟨⟨'\\' :: c :: s, e, hs.escape c, he, by simp [before, heq]⟩, rfl⟩
  | case8 d cs ih =>
      obtain ⟨r, hr, rfl⟩ := Option.map_eq_some_iff.1 h
      obtain ⟨hnest, rfl⟩ := ih hr
      exact ⟨⟨[], r.1, .nil, hnest, rfl⟩, rfl⟩
  | case9 d inStr c cs hnewline hquote hopen hclose hcloses hescape hquoted ih =>
      obtain ⟨r, hr, rfl⟩ := Option.map_eq_some_iff.1 h
      obtain ⟨hwithin, rfl⟩ := ih hr
      refine ⟨?_, rfl⟩
      cases inStr with
      | false =>
          have hbrace : c ≠ '}' := by
            cases d with
            | zero => exact hclose rfl rfl
            | succ d => exact hcloses d rfl rfl
          refine Nest.map (t := [c]) (fun b hb => .plain ?_ hb) hwithin
          simpa using ⟨hquote rfl, hopen rfl, hbrace, hnewline⟩
      | true =>
          obtain ⟨s, e, hs, he, heq⟩ := hwithin
          -- a backslash at the end of the text is nothing that is closed
          have hslash : c ≠ '\\' := by
            rintro rfl
            rw [heq] at hescape
            cases s with
            | nil => exact hescape _ _ rfl rfl rfl
            | cons a s => exact hescape _ _ rfl rfl rfl
          refine ⟨c :: s, e, hs.plain ?_, he, by simp [before, heq]⟩
          simpa using ⟨hquoted rfl, hslash, hnewline⟩

/-- What is found is the balanced text before a closing brace. -/
theorem closing_iff {cs b rest : List Char} :
    closing 0 false cs = some (b, rest) ↔ Balanced b ∧ cs = b ++ '}' :: rest := by
  constructor
  · exact closing_within
  · rintro ⟨hb, rfl⟩
    rw [closing_balanced hb]
    simp [closing, before]

end Braces
