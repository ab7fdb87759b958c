/-
# `Limceron.Parse.ToolBody` — the body of a tool

A body is a list of fields `name: value` and statements (`Body`): where a name and a
colon stand a field is read, and elsewhere `parse_statement`, as in a block.

`parse_tool` has one token to look at.  It takes the name to see whether a colon
follows; if none does, it calls `parse_statement` behind the name.

| the statement begins with | `parse_tool` reads it |
| :-- | :-- |
| `let`, `return`, `if`, …, a literal, `(` | as `parse_block` does |
| a name, or a keyword that may be one | without its first token |

`tool_body_as_block` is the first line.
-/
import Limceron.Lib.Endings
import Limceron.Parse.Agents

namespace Limceron.Parse

open Readers Readers.Reader

/-! ## Bodies -/

/-- The program ends with `a`. -/
abbrev Ends {α : Type} (p : P α) (ts : List Token) (s : Notes) (a : α) (us : List Token)
    (s' : Notes) : Prop := parser.Ends p ts s a us s'

/-- `}` or the end of the file. -/
def atEnd (ts : List Token) : Bool := (current ts).kind == .rbrace || (current ts).kind == .eof

/-- The tokens behind the first. -/
def behind (ts : List Token) : List Token := ts.tail.dropWhile parser.skips

/-- `name:`. -/
def startsField (ts : List Token) : Bool :=
  isIdentOrKeyword (current ts).kind && (current (behind ts)).kind == .colon

/-- A field and the semicolons behind it. -/
def readField : P Node := do
  let saved ← advance
  let _ ← accept .colon
  let value ← toolFieldValue
  skipSemis
  pure { kind := .field, name := tokenName saved, right := [value] }

/-- A part of a body; of a statement also its first token, and whether the parser panics
behind it. -/
inductive Item
  | field (node : Node)
  | stmt (first : TokenKind) (panics : Bool) (node : Node)

/-- A body is read, each statement from its first token. -/
inductive Body : List Token → Notes → List Item → List Token → Notes → Prop
  | stop {ts : List Token} {s : Notes} : atEnd ts = true → Body ts s [] ts s
  | field {ts us vs : List Token} {s s' s'' : Notes} {node : Node} {items : List Item} :
      atEnd ts = false → startsField ts = true → Ends readField ts s node us s' →
        Body us s' items vs s'' → Body ts s (.field node :: items) vs s''
  | stmt {ts us vs ws xs : List Token} {s s₁ s₂ s₃ s₄ : Notes} {node : Node} {items : List Item} :
      atEnd ts = false → startsField ts = false → Ends (.call .statement) ts s node us s₁ →
        Ends skipSemis us s₁ () vs s₂ →
          Ends (if s₂.panicMode then synchronize else pure ()) vs s₂ () ws s₃ →
            Body ws s₃ items xs s₄ →
              Body ts s (.stmt (current ts).kind s₂.panicMode node :: items) xs s₄

def fieldsOf : List Item → List Node
  | [] => []
  | .field node :: items => node :: fieldsOf items
  | .stmt _ _ _ :: items => fieldsOf items

def stmtsOf : List Item → List Node
  | [] => []
  | .field _ :: items => stmtsOf items
  | .stmt _ _ node :: items => node :: stmtsOf items

/-- A statement begins with no name, and the parser does not panic. -/
def Item.Fits : Item → Prop
  | .field _ => True
  | .stmt first panics _ => isIdentOrKeyword first = false ∧ panics = false

/-- The statements and fields of the body are stored as such. -/
structure Stored (items : List Item) (node : Node) : Prop where
  fields : node.right = fieldsOf items
  stmts : node.left.flatMap Node.params = stmtsOf items

/-! ## Steps of the parser -/

variable {α β : Type} {ts us vs : List Token} {s s' s'' : Notes}

theorem ends_advance : Ends advance ts s (current ts) (behind ts) (take ts s) :=
  (ends_act _).bind ((ends_next take).bind ends_pure)

theorem ends_check (k : TokenKind) : Ends (check k) ts s ((current ts).kind == k) ts s :=
  ends_act _

theorem ends_accept {k : TokenKind} (h : (current ts).kind = k) :
    Ends (accept k) ts s true (behind ts) (take ts s) := by
  refine (ends_check k).bind ?_
  rw [beq_iff_eq.mpr h, if_pos rfl]
  exact ends_advance.bind ends_pure

theorem ends_expect {k : TokenKind} (context : String) (h : (current ts).kind = k) :
    Ends (expect k context) ts s (current ts) (behind ts) (take ts s) := by
  refine (ends_check k).bind ?_
  rw [beq_iff_eq.mpr h, if_pos rfl]
  exact ends_advance

/-- At the end of a body. -/
theorem ends_members_stop {stalls : List Token → Option Trap} {item : β → P β} {b : β}
    (h : atEnd ts = true) : Ends (members stalls item b) ts s b ts s := by
  refine Ends.loop_inr ((ends_check .rbrace).bind ((ends_check .eof).bind ?_))
  change Ends (if atEnd ts = true then _ else _) ts s _ ts s
  rw [if_pos h]
  exact ends_pure

/-- An item, and the others. -/
theorem ends_members_item {stalls : List Token → Option Trap} {item : β → P β} {b b' c : β}
    (h : atEnd ts = false) (hitem : Ends (item b) ts s b' us s')
    (hrest : Ends (members stalls item b') us s' c vs s'') :
    Ends (members stalls item b) ts s c vs s'' := by
  refine Ends.loop_inl ((ends_check .rbrace).bind ((ends_check .eof).bind ?_)) hrest
  change Ends (if atEnd ts = true then _ else _) ts s _ us s'
  rw [if_neg (by simp [h])]
  exact hitem.bind ends_pure

/-! ## A line of the body -/

theorem toolLine_field {node : Node} (hstarts : startsField ts = true)
    (h : Ends readField ts s node us s') (parts : List Node × List Node) :
    Ends (toolLine parts) ts s (parts.1 ++ [node], parts.2) us s' := by
  obtain ⟨hname, hcolon⟩ : isIdentOrKeyword (current ts).kind = true ∧
      (current (behind ts)).kind = .colon := by
    simpa [startsField] using hstarts
  obtain ⟨saved, ts₁, s₁, hadvance, h⟩ := Reader.bind_ends_iff.mp h
  obtain ⟨rfl, rfl, rfl⟩ := hadvance.unique ends_advance
  obtain ⟨colon, ts₂, s₂, haccept, h⟩ := Reader.bind_ends_iff.mp h
  obtain ⟨rfl, rfl, rfl⟩ := haccept.unique (ends_accept hcolon)
  obtain ⟨value, ts₃, s₃, hvalue, h⟩ := Reader.bind_ends_iff.mp h
  obtain ⟨u, ts₄, s₄, hsemis, h⟩ := Reader.bind_ends_iff.mp h
  obtain ⟨rfl, rfl, rfl⟩ := h.unique ends_pure
  refine Reader.Ends.bind ?_ (hsemis.bind ends_pure)
  refine (ends_act _).bind ?_
  rw [if_pos hname]
  refine ends_advance.bind ((ends_accept hcolon).bind ?_)
  rw [if_pos rfl]
  exact hvalue.bind ends_pure

theorem toolLine_stmt {node : Node} (hname : isIdentOrKeyword (current ts).kind = false)
    (hstmt : Ends (.call .statement) ts s node us s') (hsemis : Ends skipSemis us s' () vs s'')
    (parts : List Node × List Node) :
    Ends (toolLine parts) ts s (parts.1, parts.2 ++ [node]) vs s'' := by
  refine Reader.Ends.bind ?_ (hsemis.bind ends_pure)
  refine (ends_act _).bind ?_
  rw [if_neg (by simp [hname])]
  exact hstmt.bind ends_pure

/-- What `parse_tool` reads of a body. -/
theorem ends_toolBody {items : List Item} (h : Body ts s items us s')
    (hfits : ∀ i ∈ items, i.Fits) (parts : List Node × List Node) :
    Ends (members noStall toolLine parts) ts s
      (parts.1 ++ fieldsOf items, parts.2 ++ stmtsOf items) us s' := by
  induction h generalizing parts with
  | stop hend =>
    rw [fieldsOf, stmtsOf, List.append_nil, List.append_nil]
    exact ends_members_stop hend
  | @field _ _ _ _ _ _ node items hend hstarts hread _ ih =>
    refine ends_members_item hend (toolLine_field hstarts hread parts) ?_
    have hrest := ih (fun i hi => hfits i (List.mem_cons_of_mem _ hi)) (parts.1 ++ [node], parts.2)
    rwa [List.append_assoc] at hrest
  | @stmt _ _ _ _ _ _ _ _ _ _ node items hend hstarts hstmt hsemis hsync _ ih =>
    obtain ⟨hname, hcalm⟩ := hfits _ List.mem_cons_self
    rw [hcalm, if_neg Bool.false_ne_true] at hsync
    obtain ⟨-, rfl, rfl⟩ := hsync.unique ends_pure
    refine ends_members_item hend (toolLine_stmt hname hstmt hsemis parts) ?_
    have hrest := ih (fun i hi => hfits i (List.mem_cons_of_mem _ hi)) (parts.1, parts.2 ++ [node])
    rwa [List.append_assoc] at hrest

/-- What `parse_block` reads of a body without fields. -/
theorem ends_blockBody {items : List Item} (h : Body ts s items us s')
    (hfields : fieldsOf items = []) (stmts : List Node) :
    Ends (members noStall parseBlockStmt stmts) ts s (stmts ++ stmtsOf items) us s' := by
  induction h generalizing stmts with
  | stop hend =>
    rw [stmtsOf, List.append_nil]
    exact ends_members_stop hend
  | field => cases hfields
  | @stmt ts us vs ws _ s s₁ s₂ s₃ _ node items hend hstarts hstmt hsemis hsync _ ih =>
    have hrecover : Ends recover us s₁ () ws s₃ := hsemis.bind ((ends_act _).bind hsync)
    have hline : Ends (parseBlockStmt stmts) ts s (stmts ++ [node]) ws s₃ :=
      hstmt.bind (hrecover.bind ends_pure)
    refine ends_members_item hend hline ?_
    have hrest := ih hfields (stmts ++ [node])
    rwa [List.append_assoc] at hrest

/-! ## Tools and blocks -/

/-- What stands before the body. -/
def toolHead : P (Option String × List Node × List Node) := do
  let name ← expectName "after 'tool'"
  let _ ← expect .lparen "after tool name"
  let params ← commaList .rparen (typedName (identName "in tool parameter"))
  let _ ← expect .rparen "after tool parameters"
  let result ← returnType
  pure (name, params, result)

/-- `{` and the semicolons behind it. -/
def openBody (context : String) : P Unit := do
  let _ ← expect .lbrace context
  skipSemis

theorem ends_openBody {context : String} (hbrace : (current ts).kind = .lbrace)
    (hopen : Ends (openBody context) ts s () us s') :
    Ends skipSemis (behind ts) (take ts s) () us s' := by
  obtain ⟨t, ts₁, s₁, hexpect, h⟩ := Reader.bind_ends_iff.mp hopen
  obtain ⟨rfl, rfl, rfl⟩ := hexpect.unique (ends_expect context hbrace)
  exact h

theorem parseTool_stores {items : List Item} {ts₀ ts₁ ts₂ : List Token} {s₀ s₁ s₂ : Notes}
    {head : Option String × List Node × List Node} (isPub : Bool)
    (hhead : Ends toolHead ts s head ts₀ s₀)
    (hopen : Ends (openBody "after tool signature") ts₀ s₀ () ts₁ s₁)
    (hbody : Body ts₁ s₁ items ts₂ s₂) (hclose : (current ts₂).kind = .rbrace)
    (hfits : ∀ i ∈ items, i.Fits) :
    ∃ node us s', Ends (parseTool isPub) ts s node us s' ∧ Stored items node := by
  obtain ⟨name, _, _, hname, hhead⟩ := Reader.bind_ends_iff.mp hhead
  obtain ⟨_, _, _, hlparen, hhead⟩ := Reader.bind_ends_iff.mp hhead
  obtain ⟨params, _, _, hparams, hhead⟩ := Reader.bind_ends_iff.mp hhead
  obtain ⟨_, _, _, hrparen, hhead⟩ := Reader.bind_ends_iff.mp hhead
  obtain ⟨result, _, _, hresult, hhead⟩ := Reader.bind_ends_iff.mp hhead
  obtain ⟨rfl, rfl, rfl⟩ := hhead.unique ends_pure
  obtain ⟨_, _, _, hlbrace, hsemis⟩ := Reader.bind_ends_iff.mp hopen
  have hbody := ends_toolBody hbody hfits ([], [])
  refine ⟨_, _, _, hname.bind (hlparen.bind (hparams.bind (hrparen.bind (hresult.bind
    (hlbrace.bind (hsemis.bind (hbody.bind ((ends_expect _ hclose).bind ends_pure)))))))), rfl, ?_⟩
  simp only [List.nil_append]
  cases stmtsOf items with
  | nil => rfl
  | cons node nodes => simp

theorem parseBlock_lists {items : List Item} {ts₁ ts₂ : List Token} {s₁ s₂ : Notes}
    {context : String} (hbrace : (current ts).kind = .lbrace)
    (hopen : Ends (openBody context) ts s () ts₁ s₁) (hbody : Body ts₁ s₁ items ts₂ s₂)
    (hclose : (current ts₂).kind = .rbrace) (hfields : fieldsOf items = []) :
    ∃ us s', Ends (.call .block) ts s { kind := .block, params := stmtsOf items } us s' := by
  have hsemis := ends_openBody hbrace hopen
  have hstmts := ends_blockBody hbody hfields []
  exact ⟨_, _, ends_call.mpr ((ends_expect _ hbrace).bind (hsemis.bind (hstmts.bind
    ((ends_expect _ hclose).bind ends_pure))))⟩

/-- Every field of the body is stored as a field, and the statements that are stored are
those of the body, as `parse_block` lists them if there are no fields: where no statement
begins with a name and the parser does not panic. -/
theorem tool_body_as_block {items : List Item} {ts₀ ts₁ ts₂ : List Token} {s₀ s₁ s₂ : Notes}
    {head : Option String × List Node × List Node} (isPub : Bool)
    (hhead : Ends toolHead ts s head ts₀ s₀) (hbrace : (current ts₀).kind = .lbrace)
    (hopen : Ends (openBody "after tool signature") ts₀ s₀ () ts₁ s₁)
    (hbody : Body ts₁ s₁ items ts₂ s₂) (hclose : (current ts₂).kind = .rbrace)
    (hfits : ∀ i ∈ items, i.Fits) :
    (∃ node us s', Ends (parseTool isPub) ts s node us s' ∧ Stored items node) ∧
      (fieldsOf items = [] → ∃ us s',
        Ends (.call .block) ts₀ s₀ { kind := .block, params := stmtsOf items } us s') :=
  ⟨parseTool_stores isPub hhead hopen hbody hclose hfits,
    fun hfields => parseBlock_lists hbrace hopen hbody hclose hfields⟩

/-! ## Two tools -/

def nameToken (x : String) : Token := { kind := .ident, value := .str x }

def sign (k : TokenKind) : Token := { kind := k }

/-- `tool t() { key: k; return v; }`, behind `tool`. -/
def returning : List Token :=
  [nameToken "t", sign .lparen, sign .rparen, sign .lbrace, nameToken "key", sign .colon,
    nameToken "k", sign .semicolon, sign .returnK, nameToken "v", sign .semicolon, sign .rbrace]

/-- Its field and its statement. -/
def returningItems : List Item :=
  [.field { kind := .field, name := some "key", right := [{ kind := .ident, name := some "k" }] },
    .stmt .returnK false { kind := .returnS, left := [{ kind := .ident, name := some "v" }] }]

/-- The notes behind a token, nothing being reported. -/
def past (t : Token) : Notes := { Notes.new with previous := t }

theorem returning_head :
    Ends toolHead returning .new (some "t", [], []) (returning.drop 3) (past (sign .rparen)) :=
  ⟨20, rfl⟩

theorem returning_open : Ends (openBody "after tool signature") (returning.drop 3)
    (past (sign .rparen)) () (returning.drop 4) (past (sign .lbrace)) := ⟨20, rfl⟩

theorem returning_body : Body (returning.drop 4) (past (sign .lbrace)) returningItems
    (returning.drop 11) (past (sign .semicolon)) := by
  have hfield : Ends readField (returning.drop 4) (past (sign .lbrace))
      { kind := .field, name := some "key", right := [{ kind := .ident, name := some "k" }] }
      (returning.drop 8) (past (sign .semicolon)) := ⟨20, rfl⟩
  have hstmt : Ends (.call .statement) (returning.drop 8) (past (sign .semicolon))
      { kind := .returnS, left := [{ kind := .ident, name := some "v" }] }
      (returning.drop 10) (past (nameToken "v")) := ⟨20, rfl⟩
  have hsemis : Ends skipSemis (returning.drop 10) (past (nameToken "v")) ()
      (returning.drop 11) (past (sign .semicolon)) := ⟨20, rfl⟩
  exact .field rfl rfl hfield (.stmt rfl rfl hstmt hsemis ends_pure (.stop rfl))

theorem returning_fits : ∀ i ∈ returningItems, i.Fits := by
  intro i hi
  rcases List.mem_pair.mp hi with rfl | rfl
  · exact trivial
  · exact ⟨rfl, rfl⟩

theorem tool_body_returning :
    (∃ node us s', Ends (parseTool false) returning .new node us s' ∧ Stored returningItems node) ∧
      (fieldsOf returningItems = [] → ∃ us s', Ends (.call .block) (returning.drop 3)
        (past (sign .rparen)) { kind := .block, params := stmtsOf returningItems } us s') :=
  tool_body_as_block false returning_head rfl returning_open returning_body rfl returning_fits

/-- `tool t() { exec(c); }`, behind `tool`. -/
def calling : List Token :=
  [nameToken "t", sign .lparen, sign .rparen, sign .lbrace, nameToken "exec", sign .lparen,
    nameToken "c", sign .rparen, sign .semicolon, sign .rbrace]

def execCall : Node :=
  { kind := .call, left := [identNode (some "exec")], params := [identNode (some "c")] }

def stmtNode (e : Node) : Node := { kind := .exprStmt, left := [e] }

/-- The call. -/
def callingItems : List Item := [.stmt .ident false (stmtNode execCall)]

theorem calling_body : Body (calling.drop 4) (past (sign .lbrace)) callingItems
    (calling.drop 9) (past (sign .semicolon)) := by
  have hstmt : Ends (.call .statement) (calling.drop 4) (past (sign .lbrace)) (stmtNode execCall)
      (calling.drop 8) (past (sign .rparen)) := ⟨20, rfl⟩
  have hsemis : Ends skipSemis (calling.drop 8) (past (sign .rparen)) ()
      (calling.drop 9) (past (sign .semicolon)) := ⟨20, rfl⟩
  exact .stmt rfl rfl hstmt hsemis ends_pure (.stop rfl)

/-- The name is lost: what is stored is no call. -/
theorem callee_lost :
    ¬ ∀ (isPub : Bool) (ts ts₀ ts₁ ts₂ : List Token) (s s₀ s₁ s₂ : Notes) (items : List Item)
      (head : Option String × List Node × List Node), Ends toolHead ts s head ts₀ s₀ →
        (current ts₀).kind = .lbrace → Ends (openBody "after tool signature") ts₀ s₀ () ts₁ s₁ →
          Body ts₁ s₁ items ts₂ s₂ → (current ts₂).kind = .rbrace →
            ∃ node us s', Ends (parseTool isPub) ts s node us s' ∧ Stored items node := by
  intro h
  have hhead : Ends toolHead calling .new (some "t", [], []) (calling.drop 3)
      (past (sign .rparen)) := ⟨20, rfl⟩
  have hopen : Ends (openBody "after tool signature") (calling.drop 3) (past (sign .rparen)) ()
      (calling.drop 4) (past (sign .lbrace)) := ⟨20, rfl⟩
  obtain ⟨node, us, s', hnode, hstored⟩ :=
    h false _ _ _ _ _ _ _ _ _ _ hhead rfl hopen calling_body rfl
  have hreal : ∃ us s', Ends (parseTool false) calling .new
      { kind := .tool, name := some "t", left := [{
          kind := .block, params := [stmtNode (identNode (some "c"))] }] } us s' := ⟨_, _, 20, rfl⟩
  obtain ⟨us', s'', hreal⟩ := hreal
  obtain ⟨rfl, -, -⟩ := hnode.unique hreal
  have hlost : [stmtNode (identNode (some "c"))] = [stmtNode execCall] := hstored.stmts
  cases hlost

end Limceron.Parse
