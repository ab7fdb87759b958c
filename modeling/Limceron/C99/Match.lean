/-
# `Limceron.C99.Match` — a match in the C back end

`cg_match` looks at the patterns of the arms and prints one of six shapes:

| emitter | the temporary | the arms |
| :-- | :-- | :-- |
| `cg_match_result` | the `Result` type | `if (_match.ok)`, `if (!_match.ok)`, `else` |
| `cg_match_option` | the `Option` type | `if (_match.has_value)`, … |
| `cg_match_int` | `int64_t` | `if (_match == …)`, `if (_match >= … && …)` |
| `cg_match_string` | `LcnString` | `if (strcmp(_match, …) == 0)` |
| an enum | the enum | `switch (_match._kind)` |
| the rest | `LcnLlmOutput` | `switch (_match.kind)` |

What is printed is a list of pieces, each brace one of them; `parse` reads it as C
does.  Guards are read by none of the six.
-/
import Mathlib.Data.List.Basic
import Mathlib.Data.List.Dedup

namespace Limceron.C99.Match

/-! ## The match -/

inductive Sep
  | dot
  | colons
  deriving DecidableEq

/-- A name with what stands before the `.` or `::`, the parser having joined them. -/
structure Path where
  qual : Option (String × Sep)
  name : String
  deriving DecidableEq

inductive Lit
  | int (v : BitVec 64)
  | str (s : String)
  | bool (b : Bool)

/-- A pattern; a range has its right end if that is a literal.  The fields of a variant
are names or wildcards. -/
inductive Pat
  | wildcard
  | ident (p : Path)
  | lit (l : Lit)
  | range (lo : BitVec 64) (hi : Option (BitVec 64)) (incl : Bool)
  | enum (p : Path) (fields : List (Option String))

/-- An arm: whether there is a guard, and whether its body has a `break` for the loop
around. -/
structure Arm where
  pat : Pat
  guarded : Bool
  breaks : Bool

/-- What is matched on; of a variable the type that `var_types` has for it. -/
inductive Subject
  | intLit
  | boolLit
  | stringLit
  | var (recorded : Option String)
  | other

structure MatchNode where
  subject : Subject
  arms : List Arm

/-- A registered enum: `variants` with the number of their fields. -/
structure EnumInfo where
  hasData : Bool
  variants : List (String × Nat)

/-- What `cg_match` reads of the code generator. -/
structure CodeGen where
  enums : String → Option EnumInfo
  inAgentMethod : Bool

variable (g : CodeGen)

/-! ## What is printed -/

/-- The type of the temporary. -/
inductive CType
  | result
  | option
  | int64
  | string
  | enum (e : String)
  | llmOutput
  deriving DecidableEq

/-- A condition on the temporary. -/
inductive Test
  | isOk
  | notOk
  | hasValue
  | noValue
  | eqInt (v : BitVec 64)
  | inRange (lo hi : BitVec 64) (incl : Bool)
  | eqStr (s : String)
  /-- `!lcn_capability_check_tool(…)`. -/
  | toolDenied

inductive Piece
  | lbrace
  | rbrace
  /-- The temporary, with the subject evaluated into it. -/
  | subject (t : CType)
  /-- `if (…)`. -/
  | ifTest (t : Test)
  | else_
  | switch
  | case (p : Path)
  | default_
  /-- A variable of the arm. -/
  | bind (p : Path)
  | body (i : Nat)
  /-- `lcn_capability_violation(…);` -/
  | violation
  | break_

/-- A name as it is. -/
def plain (x : String) : Path := ⟨none, x⟩

/-! ## Which emitter -/

inductive Kind
  | neither
  | result
  | option
  deriving DecidableEq

def Arm.isEnum (a : Arm) (x : String) : Bool :=
  match a.pat with
  | .enum p _ => p = plain x
  | _ => false

def Arm.isIdent (a : Arm) (x : String) : Bool :=
  match a.pat with
  | .ident p => p = plain x
  | _ => false

def isResultType (t : String) : Bool :=
  "Result_".toList.isPrefixOf t.toList || t = "LcnResult" || t = "Result"

def Subject.isResult : Subject → Bool
  | .var (some t) => isResultType t
  | _ => false

/-- `cg_match_detect_result_option`. -/
def detectResultOption (m : MatchNode) : Kind :=
  if m.arms.any fun a => a.isEnum "Text" || a.isEnum "ToolCall" then .neither
  else if m.arms.any fun a => a.isEnum "Ok" || a.isEnum "Error" || a.isEnum "Err" then
    if m.subject.isResult then .result else .neither
  else if m.arms.any fun a => a.isEnum "Some" || a.isEnum "None" || a.isIdent "None" then .option
  else .neither

inductive ValueKind
  | none
  | int
  | string
  deriving DecidableEq

def Pat.isLiteral : Pat → Bool
  | .lit _ => true
  | .range _ _ _ => true
  | _ => false

/-- A literal read as a pointer is above 4096. -/
def Pat.looksLikeString : Pat → Bool
  | .lit (.int v) => decide (4096 < v.toNat)
  | .lit (.str _) => true
  | _ => false

/-- `cg_match_detect_value_kind`. -/
def detectValueKind (m : MatchNode) : ValueKind :=
  match m.subject with
  | .intLit => .int
  | .boolLit => .int
  | .stringLit => .string
  | _ =>
      if m.arms.any fun a => a.pat.isLiteral then
        if m.arms.any fun a => a.pat.looksLikeString then .string else .int
      else .none

/-- The enum a pattern names before its dot. -/
def enumOf (a : Arm) : Option String :=
  match a.pat with
  | .enum ⟨some (e, .dot), _⟩ _ =>
      match g.enums e with
      | some info => if info.hasData then some e else none
      | none => none
  | .ident ⟨some (e, .dot), _⟩ => if (g.enums e).isSome then some e else none
  | _ => none

/-- `cg_match_detect_enum`. -/
def detectEnum (m : MatchNode) : Option String := m.arms.findSome? (enumOf g)

/-- The emitter that is called, by the type of its temporary. -/
def emitter (m : MatchNode) : CType :=
  match detectResultOption m with
  | .result => .result
  | .option => .option
  | .neither =>
      match detectValueKind m with
      | .int => .int64
      | .string => .string
      | .none =>
          match detectEnum g m with
          | some e => .enum e
          | none => .llmOutput

/-! ## If chains -/

/-- An arm as it is printed: its condition, none for a catch-all, and its variables. -/
structure Head where
  test : Option Test
  binds : List Path

/-- What an emitter makes of a pattern. -/
inductive Print
  | arm (h : Head)
  /-- Nothing is printed. -/
  | dropped
  /-- A number is read as a pointer. -/
  | crash

/-- The variable for the payload. -/
def payload (fields : List (Option String)) : List Path :=
  match fields with
  | some x :: _ => [plain x]
  | _ => []

/-- The cases of `cg_match_result`. -/
def printResult : Pat → Print
  | .enum p fields =>
      if p = plain "Ok" then .arm ⟨some .isOk, payload fields⟩
      else if p = plain "Error" ∨ p = plain "Err" then .arm ⟨some .notOk, payload fields⟩
      else .dropped
  | .wildcard => .arm ⟨none, []⟩
  | .ident p => if p = plain "_" then .arm ⟨none, []⟩ else .dropped
  | _ => .dropped

/-- The cases of `cg_match_option`. -/
def printOption : Pat → Print
  | .enum p fields =>
      if p = plain "Some" then .arm ⟨some .hasValue, payload fields⟩
      else if p = plain "None" then .arm ⟨some .noValue, []⟩
      else .dropped
  | .wildcard => .arm ⟨none, []⟩
  | .ident p =>
      if p = plain "None" then .arm ⟨some .noValue, []⟩
      else if p = plain "_" then .arm ⟨none, []⟩
      else .dropped
  | _ => .dropped

/-- The cases of `cg_match_int`. -/
def printInt : Pat → Print
  | .lit (.int v) => .arm ⟨some (.eqInt v), []⟩
  | .lit (.bool b) => .arm ⟨some (.eqInt (if b then 1 else 0)), []⟩
  | .lit (.str _) => .crash
  | .range lo hi incl => .arm ⟨some (.inRange lo (hi.getD 0) incl), []⟩
  | .wildcard => .arm ⟨none, []⟩
  | .ident p => if p = plain "_" then .arm ⟨none, []⟩ else .arm ⟨none, [p]⟩
  | .enum _ _ => .dropped

/-- The cases of `cg_match_string`; a literal that is zero is no string. -/
def printString : Pat → Print
  | .lit (.str s) => .arm ⟨some (.eqStr s), []⟩
  | .lit (.int v) => if v = 0 then .dropped else .crash
  | .lit (.bool b) => if b then .crash else .dropped
  | .wildcard => .arm ⟨none, []⟩
  | .ident p => if p = plain "_" then .arm ⟨none, []⟩ else .arm ⟨none, [p]⟩
  | .range _ _ _ => .dropped
  | .enum _ _ => .dropped

/-- A printed arm with its body. -/
structure Item where
  head : Head
  body : Nat

/-- The arms that are printed; `k` is the number of the first. -/
def items (print : Pat → Print) : Nat → List Arm → Option (List Item)
  | _, [] => some []
  | k, a :: as =>
      match print a.pat with
      | .arm h => (items print (k + 1) as).map (⟨h, k⟩ :: ·)
      | .dropped => items print (k + 1) as
      | .crash => none

/-- An arm is printed or dropped. -/
theorem items_cons {print : Pat → Print} {k : Nat} {a : Arm} {as : List Arm} {is : List Item}
    (h : items print k (a :: as) = some is) :
    (∃ hd js, print a.pat = .arm hd ∧ items print (k + 1) as = some js ∧ is = ⟨hd, k⟩ :: js) ∨
      print a.pat = .dropped ∧ items print (k + 1) as = some is := by
  rw [items] at h
  split at h
  · next hd hprint =>
    obtain ⟨js, hjs, rfl⟩ := Option.map_eq_some_iff.mp h
    exact Or.inl ⟨hd, js, hprint, hjs, rfl⟩
  · next hprint => exact Or.inr ⟨hprint, h⟩
  · cases h

/-- The condition of an arm and its body. -/
def Item.open_ (i : Item) : List Piece :=
  (match i.head.test with
    | some t => [.ifTest t]
    | none => []) ++ .lbrace :: (i.head.binds.map .bind ++ [.body i.body])

/-- The loop over the arms.  With `elseFirst` a catch-all is printed as `} else {` even
if it is the first. -/
def chain (elseFirst : Bool) : Bool → List Item → List Piece
  | first, [] => if first then [] else [.rbrace]
  | first, i :: is =>
      (if first ∧ ¬ (elseFirst ∧ i.head.test.isNone) then [] else [.rbrace, .else_]) ++ i.open_ ++
        chain elseFirst false is

def chainMatch (t : CType) (elseFirst : Bool) (is : List Item) : List Piece :=
  [.lbrace, .subject t] ++ chain elseFirst true is ++ [.rbrace]

/-! ## Switches -/

/-- The label of an arm, none for `default`, and what is bound. -/
structure Label where
  case : Option Path
  binds : List Path
  /-- The capability fence. -/
  fence : Bool

/-- What is bound of the fields, as many as the variant has. -/
def boundFields (e v : String) (fields : List (Option String)) : List Path :=
  match g.enums e with
  | some info => ((fields.take ((info.variants.lookup v).getD 0)).filterMap id).map plain
  | none => []

/-- An arm of a match on the enum `e`; what stands before the dot is cut off. -/
def labelEnum (e : String) : Pat → Option Label
  | .enum ⟨some (_, .dot), v⟩ fields => some ⟨some (plain v), boundFields g e v fields, false⟩
  | .enum p fields =>
      some ⟨some p, if p.qual.isNone then boundFields g e p.name fields else [], false⟩
  | .ident ⟨some (_, .dot), v⟩ => some ⟨some (plain v), [], false⟩
  | .ident p => if p = plain "_" then some ⟨none, [], false⟩ else some ⟨none, [p], false⟩
  | .wildcard => some ⟨none, [], false⟩
  | _ => none

/-- An arm of a match on what `ask` returns. -/
def labelLlm : Pat → Option Label
  | .enum p fields =>
      if p = plain "Ok" then some ⟨some (plain "LCN_LLM_OUTPUT_OK"), payload fields, false⟩
      else if p = plain "Text" then
        some ⟨some (plain "LCN_LLM_OUTPUT_TEXT"), payload fields, false⟩
      else if p = plain "ToolCall" then
        some ⟨some (plain "LCN_LLM_OUTPUT_TOOL_CALL"),
          ((fields.take 2).filterMap id).map plain, !fields.isEmpty && g.inAgentMethod⟩
      else if p = plain "Error" then
        some ⟨some (plain "LCN_LLM_OUTPUT_ERROR"), payload fields, false⟩
      else none
  | .ident p => if p = plain "_" then some ⟨none, [], false⟩ else some ⟨none, [p], false⟩
  | .wildcard => some ⟨none, [], false⟩
  | _ => none

/-- `case …: {`, the variables, the body and `break; }`. -/
def Label.pieces (l : Label) (k : Nat) : List Piece :=
  (match l.case with
    | some p => Piece.case p
    | none => .default_) :: .lbrace :: (l.binds.map .bind ++
      (if l.fence then [.ifTest .toolDenied, .lbrace, .violation, .break_, .rbrace] else []) ++
        [.body k, .break_, .rbrace])

def cases (label : Pat → Option Label) : Nat → List Arm → List Piece
  | _, [] => []
  | k, a :: as =>
      (match label a.pat with
        | some l => l.pieces k
        | none => []) ++ cases label (k + 1) as

def switchMatch (t : CType) (cs : List Piece) : List Piece :=
  [.lbrace, .subject t, .switch, .lbrace] ++ cs ++ [.rbrace, .rbrace]

/-- `cg_match`. -/
def cgMatch (m : MatchNode) : Option (List Piece) :=
  match emitter g m with
  | .result => (items printResult 0 m.arms).map (chainMatch .result true)
  | .option => (items printOption 0 m.arms).map (chainMatch .option true)
  | .int64 => (items printInt 0 m.arms).map (chainMatch .int64 false)
  | .string => (items printString 0 m.arms).map (chainMatch .string false)
  | .enum e => some (switchMatch (.enum e) (cases (labelEnum g e) 0 m.arms))
  | .llmOutput => some (switchMatch .llmOutput (cases (labelLlm g) 0 m.arms))

/-! ## C -/

mutual
inductive CStmt
  | subject (t : CType)
  | bind (p : Path)
  | body (i : Nat)
  | violation
  | break_
  | block (ss : List CStmt)
  /-- What is behind `else` is one statement or none. -/
  | ifte (t : Test) (a : CStmt) (e : List CStmt)
  | switch (cs : List CCase)

/-- A label and the statements up to the next. -/
inductive CCase
  | mk (label : Option Path) (ss : List CStmt)
end

/-- No statement begins here. -/
def ends : List Piece → Bool
  | [] => true
  | .rbrace :: _ => true
  | .else_ :: _ => true
  | .case _ :: _ => true
  | .default_ :: _ => true
  | _ => false

mutual
/-- One statement, and the pieces behind it. -/
def parseStmt : Nat → List Piece → Option (CStmt × List Piece)
  | 0, _ => none
  | _ + 1, .subject t :: ps => some (.subject t, ps)
  | _ + 1, .bind p :: ps => some (.bind p, ps)
  | _ + 1, .body i :: ps => some (.body i, ps)
  | _ + 1, .violation :: ps => some (.violation, ps)
  | _ + 1, .break_ :: ps => some (.break_, ps)
  | n + 1, .lbrace :: ps =>
      match parseStmts n ps with
      | some (ss, .rbrace :: ps) => some (.block ss, ps)
      | _ => none
  | n + 1, .ifTest t :: ps =>
      match parseStmt n ps with
      | some (a, .else_ :: ps) =>
          match parseStmt n ps with
          | some (e, ps) => some (.ifte t a [e], ps)
          | none => none
      | some (a, ps) => some (.ifte t a [], ps)
      | none => none
  | n + 1, .switch :: .lbrace :: ps =>
      match parseCases n ps with
      | some (cs, .rbrace :: ps) => some (.switch cs, ps)
      | _ => none
  | _ + 1, _ => none

/-- Statements, up to where none begins. -/
def parseStmts : Nat → List Piece → Option (List CStmt × List Piece)
  | 0, _ => none
  | n + 1, ps =>
      if ends ps then some ([], ps)
      else
        match parseStmt n ps with
        | some (s, ps) =>
            match parseStmts n ps with
            | some (ss, ps) => some (s :: ss, ps)
            | none => none
        | none => none

/-- The cases of a `switch`. -/
def parseCases : Nat → List Piece → Option (List CCase × List Piece)
  | 0, _ => none
  | n + 1, .case p :: ps =>
      match parseStmts n ps with
      | some (ss, ps) =>
          match parseCases n ps with
          | some (cs, ps) => some (.mk (some p) ss :: cs, ps)
          | none => none
      | none => none
  | n + 1, .default_ :: ps =>
      match parseStmts n ps with
      | some (ss, ps) =>
          match parseCases n ps with
          | some (cs, ps) => some (.mk none ss :: cs, ps)
          | none => none
      | none => none
  | _ + 1, ps => some ([], ps)
end

/-- The pieces as one statement. -/
def parse (ps : List Piece) : Option CStmt :=
  match parseStmt (2 * ps.length) ps with
  | some (c, []) => some c
  | _ => none

/-- The braces that are open behind the pieces. -/
def depth : List Piece → Nat → Option Nat
  | [], d => some d
  | .lbrace :: ps, d => depth ps (d + 1)
  | .rbrace :: ps, d =>
      match d with
      | 0 => none
      | d + 1 => depth ps d
  | _ :: ps, d => depth ps d

theorem depth_lbrace (ps : List Piece) (d : Nat) : depth (.lbrace :: ps) d = depth ps (d + 1) := rfl

theorem depth_subject (t : CType) (ps : List Piece) (d : Nat) :
    depth (.subject t :: ps) d = depth ps d := rfl

theorem depth_else (ps : List Piece) (d : Nat) : depth (.else_ :: ps) d = depth ps d := rfl

/-! ## Values -/

inductive Val
  | int (v : BitVec 64)
  | bool (b : Bool)
  | str (s : String)
  | ok
  | err
  | some_
  | none_
  | variant (v : String)

/-- The word of an `int` or `bool`. -/
def Val.word : Val → Option (BitVec 64)
  | .int v => some v
  | .bool b => some (if b then 1 else 0)
  | _ => none

def within (lo hi : BitVec 64) (incl : Bool) (v : BitVec 64) : Bool :=
  lo.sle v && (if incl then v.sle hi else v.slt hi)

def Test.eval (v : Val) : Test → Bool
  | .isOk => match v with | .ok => true | _ => false
  | .notOk => match v with | .err => true | _ => false
  | .hasValue => match v with | .some_ => true | _ => false
  | .noValue => match v with | .none_ => true | _ => false
  | .eqInt w => v.word = some w
  | .inRange lo hi incl =>
      match v.word with
      | some w => within lo hi incl w
      | none => false
  | .eqStr s => match v with | .str t => t = s | _ => false
  | .toolDenied => false

/-! ## Runs -/

inductive Exit
  | next
  | brk
  | cont
  | ret
  deriving DecidableEq

inductive Event
  | subject
  | body (i : Nat)
  deriving DecidableEq

def CCase.label : CCase → Option Path
  | .mk l _ => l

/-- The label that is jumped to: that of the variant, or `default`. -/
def target (v : Val) (labels : List (Option Path)) : Option (Option Path) :=
  match v with
  | .variant x =>
      if some (plain x) ∈ labels then some (some (plain x))
      else if none ∈ labels then some none
      else none
  | _ => none

theorem target_variant (x : String) (labels : List (Option Path)) :
    target (.variant x) labels =
      if some (plain x) ∈ labels then some (some (plain x))
      else if none ∈ labels then some none
      else none := rfl

/-- What is evaluated, and how it ends. -/
abbrev Result := List Event × Exit

/-- Statements one after the other, until one leaves. -/
def Result.andThen (r r' : Result) : Result :=
  match r.2 with
  | .next => (r.1 ++ r'.1, r'.2)
  | x => (r.1, x)

mutual
/-- What a statement does for the value `v`; the body `i` ends by `exits i`. -/
def CStmt.run (v : Val) (exits : Nat → Exit) : CStmt → Result
  | .subject _ => ([.subject], .next)
  | .bind _ => ([], .next)
  | .body i => ([.body i], exits i)
  | .violation => ([], .next)
  | .break_ => ([], .brk)
  | .block ss => runAll v exits ss
  | .ifte t a e => if t.eval v then a.run v exits else runAll v exits e
  | .switch cs =>
      let r := runCases v exits (target v (cs.map CCase.label)) false cs
      (r.1, if r.2 = .brk then .next else r.2)

def runAll (v : Val) (exits : Nat → Exit) : List CStmt → Result
  | [] => ([], .next)
  | s :: ss => (s.run v exits).andThen (runAll v exits ss)

/-- The cases from the label `goal` on; `on` is whether it is behind. -/
def runCases (v : Val) (exits : Nat → Exit) (goal : Option (Option Path)) :
    Bool → List CCase → Result
  | _, [] => ([], .next)
  | on, .mk l ss :: cs =>
      if on ∨ goal = some l then (runAll v exits ss).andThen (runCases v exits goal true cs)
      else runCases v exits goal false cs
end

section
variable {v : Val} {exits : Nat → Exit}

theorem CStmt.run_subject (t : CType) : (CStmt.subject t).run v exits = ([.subject], .next) := rfl

theorem CStmt.run_bind (p : Path) : (CStmt.bind p).run v exits = ([], .next) := rfl

theorem CStmt.run_body (i : Nat) : (CStmt.body i).run v exits = ([.body i], exits i) := rfl

theorem CStmt.run_block (ss : List CStmt) : (CStmt.block ss).run v exits = runAll v exits ss := rfl

theorem CStmt.run_ifte (t : Test) (a : CStmt) (e : List CStmt) :
    (CStmt.ifte t a e).run v exits = if t.eval v then a.run v exits else runAll v exits e := rfl

theorem CStmt.run_break : CStmt.break_.run v exits = ([], .brk) := rfl

theorem CStmt.run_switch (cs : List CCase) :
    (CStmt.switch cs).run v exits =
      ((runCases v exits (target v (cs.map CCase.label)) false cs).1,
        if (runCases v exits (target v (cs.map CCase.label)) false cs).2 = .brk then .next
        else (runCases v exits (target v (cs.map CCase.label)) false cs).2) := rfl

theorem runCases_cons (goal : Option (Option Path)) (on : Bool) (l : Option Path)
    (ss : List CStmt) (cs : List CCase) :
    runCases v exits goal on (.mk l ss :: cs) =
      if on ∨ goal = some l then (runAll v exits ss).andThen (runCases v exits goal true cs)
      else runCases v exits goal false cs := rfl

theorem runAll_nil : runAll v exits [] = ([], .next) := rfl

theorem runAll_cons (s : CStmt) (ss : List CStmt) :
    runAll v exits (s :: ss) = (s.run v exits).andThen (runAll v exits ss) := rfl

end

/-! ## What is meant -/

/-- The types that are matched on. -/
inductive Ty
  | int
  | bool
  | string
  | result
  | option
  | enum (e : String)

/-- The type of a temporary for it. -/
def Ty.ctype : Ty → CType
  | .int => .int64
  | .bool => .int64
  | .string => .string
  | .result => .result
  | .option => .option
  | .enum e => .enum e

/-- The values of a type. -/
def HasType : Ty → Val → Prop
  | .int, .int _ => True
  | .bool, .bool _ => True
  | .string, .str _ => True
  | .result, .ok => True
  | .result, .err => True
  | .option, .some_ => True
  | .option, .none_ => True
  | .enum e, .variant x => ∃ info, g.enums e = some info ∧ x ∈ info.variants.map Prod.fst
  | _, _ => False

/-- The name of a variant of `e`, with the name of the type before it or without. -/
def Path.names (p : Path) (e x : String) : Prop :=
  p.name = x ∧ ∀ q sep, p.qual = some (q, sep) → q = e

/-- The patterns for a type. -/
inductive PatOk : Ty → Pat → Prop
  | wildcard {t : Ty} : PatOk t .wildcard
  /-- A name of its own. -/
  | binding {t : Ty} {x : String} : PatOk t (.ident (plain x))
  | int {v : BitVec 64} : PatOk .int (.lit (.int v))
  | range {lo hi : BitVec 64} {incl : Bool} : PatOk .int (.range lo (some hi) incl)
  | bool {b : Bool} : PatOk .bool (.lit (.bool b))
  | string {s : String} : PatOk .string (.lit (.str s))
  | ok {p : Path} {fields : List (Option String)} : p.names "Result" "Ok" →
      PatOk .result (.enum p fields)
  | err {p : Path} {fields : List (Option String)} :
      p.names "Result" "Err" ∨ p.names "Result" "Error" → PatOk .result (.enum p fields)
  | some {p : Path} {fields : List (Option String)} : p.names "Option" "Some" →
      PatOk .option (.enum p fields)
  | none {p : Path} : p.names "Option" "None" → PatOk .option (.ident p)
  | noneEnum {p : Path} {fields : List (Option String)} : p.names "Option" "None" →
      PatOk .option (.enum p fields)
  | unit {e x : String} {sep : Sep} : HasType g (.enum e) (.variant x) →
      PatOk (.enum e) (.ident ⟨.some (e, sep), x⟩)
  | variant {e : String} {p : Path} {x : String} {fields : List (Option String)} :
      p.names e x → HasType g (.enum e) (.variant x) → PatOk (.enum e) (.enum p fields)

/-- Whether a value has the pattern.  An identifier is a binding, but for `None` of an
option and for a variant with its enum before it. -/
def Pat.matches (v : Val) : Pat → Bool
  | .wildcard => true
  | .ident p =>
      match v with
      | .some_ => p.name != "None"
      | .variant x => p.qual.isNone || p.name = x
      | _ => true
  | .lit (.int w) => v.word = some w
  | .lit (.bool b) => v.word = some (if b then 1 else 0)
  | .lit (.str s) => match v with | .str t => t = s | _ => false
  | .range lo hi incl =>
      match v.word, hi with
      | some w, some hi => within lo hi incl w
      | _, _ => false
  | .enum p _ =>
      match v with
      | .ok => p.name = "Ok"
      | .err => p.name = "Err" || p.name = "Error"
      | .some_ => p.name = "Some"
      | .none_ => p.name = "None"
      | .variant x => p.name = x
      | _ => false

/-- The first arm with a pattern of the value and a guard that is true. -/
def firstArm (v : Val) (guards : Nat → Bool) : Nat → List Arm → Option Nat
  | _, [] => none
  | k, a :: as =>
      if a.pat.matches v ∧ (a.guarded → guards k) then some k else firstArm v guards (k + 1) as

theorem firstArm_step (v : Val) (guards : Nat → Bool) (k : Nat) (a : Arm) (as : List Arm) :
    firstArm v guards k (a :: as) =
      if a.pat.matches v ∧ (a.guarded → guards k) then some k
      else firstArm v guards (k + 1) as := rfl

/-- What a match does. -/
def MatchNode.run (m : MatchNode) (v : Val) (guards : Nat → Bool) (exits : Nat → Exit) : Result :=
  match firstArm v guards 0 m.arms with
  | some i => ([.subject, .body i], exits i)
  | none => ([.subject], .next)

/-! ## When they agree -/

/-- The label of a piece. -/
def Piece.label : Piece → Option (Option Path)
  | .case p => some (some p)
  | .default_ => some none
  | _ => none

/-- What a C compiler checks: the type of the temporary, one case for each label, and that
labels and variables are identifiers. -/
structure Checks (t : Ty) (ps : List Piece) : Prop where
  temporary : ∀ c, .subject c ∈ ps → c = t.ctype
  labels : (ps.filterMap Piece.label).Nodup
  cases : ∀ p, .case p ∈ ps → p.qual = none
  binds : ∀ p, .bind p ∈ ps → p.qual = none

/-- The printed match is C, its braces are balanced, and for every value of the type it
does what the match does, whatever the guards are and however the bodies end; a body
ends by `break` only if it has one. -/
def Right (t : Ty) (m : MatchNode) : Prop :=
  ∃ ps c, cgMatch g m = some ps ∧ depth ps 0 = some 0 ∧ Checks t ps ∧ parse ps = some c ∧
    ∀ v, HasType g t v → ∀ guards exits,
      (∀ (i : Nat) (a : Arm), m.arms[i]? = some a → exits i = .brk → a.breaks = true) →
        c.run v exits = m.run v guards exits

/-- The first arm with a pattern of the value. -/
def MatchNode.first (m : MatchNode) (v : Val) : Option Arm := m.arms.find? (·.pat.matches v)

/-- An `if` chain: a catch-all is the last arm that is printed, and the first arm for a
value is printed and has no guard.  With `elseFirst` another arm is printed before. -/
structure FitsChain (t : Ty) (print : Pat → Print) (elseFirst : Bool) (m : MatchNode) : Prop where
  catchAll : ∀ is, items print 0 m.arms = some is →
    is.Pairwise (fun i _ => i.head.test.isSome) ∧
      (elseFirst → ∀ i, is.head? = some i → i.head.test.isSome)
  first : ∀ v, HasType g t v → ∀ a, m.first v = some a →
    a.guarded = false ∧ print a.pat ≠ .dropped

/-- A `switch`: no name has `::`, no variant has two arms, a catch-all is the last arm, and
the first arm for a value has no guard and no `break`. -/
structure FitsSwitch (e : String) (m : MatchNode) : Prop where
  names : ∀ a ∈ m.arms, ∀ l, labelEnum g e a.pat = some l →
    (∀ p, l.case = some p → p.qual = none) ∧ ∀ p ∈ l.binds, p.qual = none
  labels : (m.arms.filterMap fun a => (labelEnum g e a.pat).map Label.case).Nodup
  catchAll : (m.arms.filterMap fun a => (labelEnum g e a.pat).map Label.case).Pairwise
    fun l _ => l.isSome
  first : ∀ v, HasType g (.enum e) v → ∀ a, m.first v = some a →
    a.guarded = false ∧ a.breaks = false

/-- The emitter for the type is called, and the arms fit it. -/
def Fits (t : Ty) (m : MatchNode) : Prop :=
  emitter g m = t.ctype ∧
    match t with
    | .int => FitsChain g t printInt false m
    | .bool => FitsChain g t printInt false m
    | .string => FitsChain g t printString false m
    | .result => FitsChain g t printResult true m
    | .option => FitsChain g t printOption true m
    | .enum e => FitsSwitch g e m

end Limceron.C99.Match
