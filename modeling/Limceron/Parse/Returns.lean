/-
# `Limceron.Parse.Returns` — which texts the parser comes back from

`parser_expect` takes nothing where a token is missing, so a body whose members all
begin with it goes around forever at a token that none of its parts takes; and of
the name of a token that it made up, `strlen` and `strcmp` are called on NULL.
From all other texts the parser comes back.
-/
import Limceron.Parse.Tight

namespace Limceron.Parse

open Readers

/-- The parse of a text comes to a loop that stalls at the token standing there, or
to the use of a name that is missing. -/
def Meets (source : List Char) (e : Trap) : Prop := parser.Trapped parseText (lex source) .new e

/-- The parser comes back exactly from the texts on which it meets nothing of this. -/
theorem returns_iff (source : List Char) : Returns source ↔ ∀ e, ¬ Meets source e :=
  Reader.returns_iff_meets_none parser_tight parseText tight_parseText (lex source) .new

/-- The trap a run ends with. -/
def trapOf {α : Type} : Result Token Notes Trap α → Option Trap
  | .traps e => some e
  | _ => none

theorem eq_traps_of_trapOf {α : Type} {r : Result Token Notes Trap α} {e : Trap}
    (h : trapOf r = some e) : r = .traps e := by
  cases r with
  | traps e' =>
      cases h
      rfl
  | more => cases h
  | ends a ts s => cases h

/-- An entry of a struct literal that is not a name: `1` is never taken. -/
theorem structLiteral_stalls : ¬ Returns "let x = Foo { 1 }".toList := by
  have hrun : trapOf (parser.exec true 14 parseText (lex "let x = Foo { 1 }".toList) .new) =
      some (.stall .structLiteral) := by decide +kernel
  intro h
  have hfree := (Reader.returns_iff_meets_none parser_tight parseText tight_parseText _ _).1 h
  exact hfree _ ⟨14, eq_traps_of_trapOf hrun⟩

end Limceron.Parse
