/-
# `Limceron.Typecheck.ToolUseSeen` — which tool calls are seen

An agent may call the tools whose requirements it lists, and if it calls any it
needs a budget.  The passes hold it to that for the calls they see:

| | calls there are | calls that are seen |
| :-- | :-- | :-- |
| where | anywhere in a method | where the walk goes |
| how | by name, or by a pipe into the name | by name |
| of | every tool | the first 256 |
| against | all entries of the lists | the first 64 of the tool, the first 128 of the agent |

The walk goes into no guard, takes an arm or a closure that is a bare call for a
statement and looks past the call, and stops at a block that stands as an
expression.  `toolsVerified_iff` says when that does no harm.
-/
import Limceron.Typecheck.ToolUse
import Mathlib.Data.List.Nodup

namespace Limceron.Typecheck

open AstNode

/-! ## Calls -/

/-- A call of `t`, by its name or by a pipe into it. -/
def CallsTool (n : AstNode) (t : String) : Prop :=
  n.callIdent = some t ∨ n.kind = .pipe ∧ ∃ c, n.right = some c ∧ c.IsVar t

/-- The agent calls `t` somewhere in a method. -/
def Calls (agent : Decl) (t : String) : Prop :=
  ∃ m ∈ agent.methods, ∃ body, m.body = some body ∧ ∃ n, Within n body ∧ CallsTool n t

section
variable (decls : List Decl)

/-- `T` declares the tool `t`. -/
def DeclaresTool (t : String) (T : Decl) : Prop :=
  T ∈ decls ∧ T.kind = some .tool ∧ T.name = some t

/-- An agent calls a tool that requires what the agent does not list. -/
def Offends : Prop :=
  ∃ agent ∈ agents decls, ∃ t T, Calls agent t ∧ DeclaresTool decls t T ∧
    ∃ cap ∈ fieldEntries "requires" T.fields, cap ∉ fieldEntries "capabilities" agent.fields

/-- An agent calls a tool and has no budget. -/
def Unbudgeted : Prop :=
  ∃ agent ∈ agents decls, ∃ t T, Calls agent t ∧ DeclaresTool decls t T ∧
    agentHasBudgetField agent = false

/-- Every offence is an error, and the program is rejected. -/
def ToolsVerified (others : Pass → List Diagnostic) : Prop :=
  Offends decls ∨ Unbudgeted decls →
    EnforcedError (toolRaises decls others) ∧
      (typecheckProgram (toolRaises decls others) .new).1 = false

/-! ## What is seen -/

/-- The first 256 tools. -/
def knownTools : List String :=
  ((decls.filter fun d => d.kind = some .tool).filterMap fun d => d.name).take 256

/-- The walk over a method comes across a call of a known tool. -/
def SeenCall (agent : Decl) (t : String) : Prop :=
  t ∈ knownTools decls ∧ ∃ m ∈ agent.methods, ∃ body, m.body = some body ∧
    ∃ n, Walks.Reaches walkNext (.stmt, body) (.expr, n) ∧ n.callIdent = some t

/-- A symbol is declared twice, or there are too many. -/
def DeclError : Prop := (registerDeclarations decls).2 ≠ []

/-- A capability is unknown that an agent lists or a tool it calls requires, or the
agent does not list it. -/
def SeenOffence : Prop :=
  knownTools decls ≠ [] ∧ ∃ agent ∈ agents decls,
    (∃ cap ∈ collectAgentCaps agent, cap ∉ buildCapRegistry decls) ∨
      ∃ t T, SeenCall decls agent t ∧ DeclaresTool decls t T ∧ ∃ cap ∈ collectToolRequires T,
        cap ∉ buildCapRegistry decls ∨ cap ∉ collectAgentCaps agent

def SeenUnbudgeted : Prop :=
  ∃ agent ∈ agents decls, ∃ t, SeenCall decls agent t ∧ agentHasBudgetField agent = false

end

/-- An enforced pass that is not about tools raises an error. -/
def OtherError (others : Pass → List Diagnostic) : Prop :=
  ∃ p, p ≠ .declarations ∧ p ≠ .capabilities ∧ p ≠ .budgets ∧ p.advisory = false ∧
    ∃ d ∈ others p, d.isWarning = false

/-! ## The symbol table -/

/-- The symbol of a tool. -/
def toolSymbol (d : Decl) : Option Symbol :=
  if d.kind = some .tool then d.name.map fun name => ⟨name, .tool, d⟩ else none

/-- The tools of the table. -/
def SymbolTable.tools (st : SymbolTable) : List Symbol := st.entries.filter fun s => s.kind = .tool

section
variable {st : SymbolTable × List Diagnostic}

/-- A symbol that is added without an error is new, and comes last. -/
theorem symtabAdd_cases {name : Option String} {kind : SymKind} {decl : Decl}
    (h : (symtabAdd st name kind decl).2 = []) :
    st.2 = [] ∧ (name = none ∧ symtabAdd st name kind decl = st ∨
      ∃ x, name = some x ∧ st.1.findKind x kind = none ∧
        (symtabAdd st name kind decl).1.entries = st.1.entries ++ [⟨x, kind, decl⟩]) := by
  cases name with
  | none => exact ⟨h, .inl ⟨rfl, rfl⟩⟩
  | some x =>
      rw [symtabAdd] at h ⊢
      split at h
      · exact absurd h (List.append_ne_nil_of_right_ne_nil _ (List.cons_ne_nil _ _))
      · rename_i hnew
        split at h
        · exact absurd h (List.append_ne_nil_of_right_ne_nil _ (List.cons_ne_nil _ _))
        · rename_i hroom
          rw [if_neg hnew, dif_neg hroom]
          exact ⟨h, .inr ⟨x, rfl, Option.not_isSome_iff_eq_none.mp hnew, rfl⟩⟩

theorem symtabAdd_errors {name : Option String} {kind : SymKind} {decl : Decl}
    (h : ∀ d ∈ st.2, d.isWarning = false) :
    ∀ d ∈ (symtabAdd st name kind decl).2, d.isWarning = false := by
  cases name with
  | none => exact h
  | some x =>
      rw [symtabAdd]
      intro d hd
      split at hd
      · rcases List.mem_append.mp hd with hd | hd
        · exact h d hd
        · cases List.mem_singleton.mp hd
          rfl
      · split at hd
        · rcases List.mem_append.mp hd with hd | hd
          · exact h d hd
          · cases List.mem_singleton.mp hd
            rfl
        · exact h d hd

theorem registerMethod_cases (st : SymbolTable × List Diagnostic) (m : Method) :
    registerMethod st m = st ∨ ∃ x decl, registerMethod st m = symtabAdd st (some x) .fn decl := by
  rw [registerMethod]
  split
  · exact .inl rfl
  · rename_i x _
    split
    · exact .inl rfl
    · exact .inr ⟨x, _, rfl⟩

/-- A function of an agent is no tool. -/
theorem registerMethod_tools {m : Method} (h : (registerMethod st m).2 = []) :
    st.2 = [] ∧ (registerMethod st m).1.tools = st.1.tools := by
  rcases registerMethod_cases st m with hr | ⟨x, decl, hr⟩
  · rw [hr] at h ⊢
    exact ⟨h, rfl⟩
  · rw [hr] at h ⊢
    obtain ⟨hst, ⟨hname, -⟩ | ⟨x, -, -, hentries⟩⟩ := symtabAdd_cases h
    · cases hname
    · refine ⟨hst, ?_⟩
      rw [SymbolTable.tools, hentries, List.filter_append]
      exact List.append_nil _

theorem registerMethods_tools {ms : List Method} (h : (ms.foldl registerMethod st).2 = []) :
    st.2 = [] ∧ (ms.foldl registerMethod st).1.tools = st.1.tools := by
  induction ms generalizing st with
  | nil => exact ⟨h, rfl⟩
  | cons m ms ih =>
      obtain ⟨hm, htools⟩ := ih h
      obtain ⟨hst, hmethod⟩ := registerMethod_tools hm
      exact ⟨hst, htools.trans hmethod⟩

theorem findKind_tool_eq_none {t : SymbolTable} {x : String} :
    t.findKind x .tool = none ↔ ∀ s ∈ t.tools, s.name ≠ x := by
  simp only [SymbolTable.findKind, SymbolTable.tools, List.find?_eq_none, List.mem_filter,
    decide_eq_true_eq, not_and, and_imp]

end

/-- What a table without errors holds of the tools. -/
structure ToolTable (decls : List Decl) (st : SymbolTable) : Prop where
  tools : st.tools = decls.filterMap toolSymbol
  distinct : (st.tools.map fun s => s.name).Nodup

theorem registerDecl_tools {decls : List Decl} {st : SymbolTable × List Diagnostic} {d : Decl}
    (hst : st.2 = [] → ToolTable decls st.1) (h : (registerDecl st d).2 = []) :
    ToolTable (decls ++ [d]) (registerDecl st d).1 := by
  have hlast : (decls ++ [d]).filterMap toolSymbol =
      decls.filterMap toolSymbol ++ (toolSymbol d).toList := by
    rw [List.filterMap_append]
    cases htool : toolSymbol d <;> simp [htool]
  cases hkind : d.kind with
  | none =>
      simp only [registerDecl, hkind] at h ⊢
      have ht := hst h
      refine ⟨?_, ht.distinct⟩
      rw [hlast, toolSymbol, if_neg (by simp [hkind]), ht.tools]
      exact (List.append_nil _).symm
  | some kind =>
      have hadd : (symtabAdd st d.name kind d).2 = [] ∧
          (registerDecl st d).1.tools = (symtabAdd st d.name kind d).1.tools := by
        simp only [registerDecl, hkind] at h ⊢
        split
        · rename_i hagent
          rw [if_pos hagent] at h
          exact registerMethods_tools h
        · rename_i hagent
          rw [if_neg hagent] at h
          exact ⟨h, rfl⟩
      have hnone : kind ≠ .tool → toolSymbol d = none := by
        intro hne
        rw [toolSymbol, hkind, if_neg (by simpa using hne)]
      obtain ⟨hempty, ⟨hname, hsame⟩ | ⟨x, hname, hnew, hentries⟩⟩ := symtabAdd_cases hadd.1
      · have ht := hst hempty
        have htool : toolSymbol d = none := by
          rw [toolSymbol, hname]
          exact ite_self none
        rw [hsame] at hadd
        refine ⟨?_, by rw [hadd.2]; exact ht.distinct⟩
        rw [hadd.2, ht.tools, hlast, htool]
        exact (List.append_nil _).symm
      · have ht := hst hempty
        by_cases htool : kind = .tool
        · subst htool
          have htools : (registerDecl st d).1.tools = st.1.tools ++ [⟨x, .tool, d⟩] := by
            rw [hadd.2, SymbolTable.tools, hentries, List.filter_append]
            rfl
          have hsym : toolSymbol d = some ⟨x, .tool, d⟩ := by
            rw [toolSymbol, if_pos hkind, hname]
            rfl
          refine ⟨?_, ?_⟩
          · rw [htools, ht.tools, hlast, hsym]
            rfl
          · rw [htools, List.map_append, List.nodup_append]
            refine ⟨ht.distinct, List.nodup_cons.mpr ⟨List.not_mem_nil, List.nodup_nil⟩, ?_⟩
            rintro a ha b hb rfl
            obtain ⟨s, hs, rfl⟩ := List.mem_map.mp ha
            exact findKind_tool_eq_none.mp hnew s hs (List.mem_singleton.mp hb)
        · have htools : (registerDecl st d).1.tools = st.1.tools := by
            rw [hadd.2, SymbolTable.tools, hentries, List.filter_append]
            simp [htool, SymbolTable.tools]
          refine ⟨?_, by rw [htools]; exact ht.distinct⟩
          rw [htools, ht.tools, hlast, hnone htool]
          exact (List.append_nil _).symm

theorem registerDeclarations_tools {decls : List Decl}
    (h : (registerDeclarations decls).2 = []) :
    ToolTable decls (registerDeclarations decls).1 := by
  have hrun : ∀ ds done (st : SymbolTable × List Diagnostic),
      (st.2 = [] → ToolTable done st.1) → (ds.foldl registerDecl st).2 = [] →
        ToolTable (done ++ ds) (ds.foldl registerDecl st).1 := by
    intro ds
    induction ds with
    | nil =>
        intro done st hst h
        rw [List.append_nil]
        exact hst h
    | cons d ds ih =>
        intro done st hst h
        rw [List.append_cons]
        exact ih _ _ (registerDecl_tools hst) h
  exact hrun decls [] ({}, []) (fun _ => ⟨rfl, List.nodup_nil⟩) h

theorem registerMethods_errors {ms : List Method} {st : SymbolTable × List Diagnostic}
    (h : ∀ d ∈ st.2, d.isWarning = false) :
    ∀ d ∈ (ms.foldl registerMethod st).2, d.isWarning = false := by
  induction ms generalizing st with
  | nil => exact h
  | cons m ms ih =>
      refine ih ?_
      rcases registerMethod_cases st m with hr | ⟨x, decl, hr⟩
      · rw [hr]
        exact h
      · rw [hr]
        exact symtabAdd_errors h

theorem registerDeclarations_errors (decls : List Decl) :
    ∀ d ∈ (registerDeclarations decls).2, d.isWarning = false := by
  have hrun : ∀ (ds : List Decl) (st : SymbolTable × List Diagnostic), (∀ d ∈ st.2, d.isWarning = false) →
      ∀ d ∈ (ds.foldl registerDecl st).2, d.isWarning = false := by
    intro ds
    induction ds with
    | nil => exact fun st h => h
    | cons d ds ih =>
        intro st h
        refine ih _ ?_
        rw [registerDecl]
        split
        · exact h
        · simp only
          split
          · exact registerMethods_errors (symtabAdd_errors h)
          · exact symtabAdd_errors h
  exact hrun decls ({}, []) fun d hd => nomatch hd

section
variable {decls : List Decl} {st : SymbolTable}

/-- The tools that the walk knows are the first ones declared. -/
theorem ToolTable.known (h : ToolTable decls st) : buildToolCtx st = knownTools decls := by
  have hnames : (decls.filterMap toolSymbol).map (fun s => s.name) =
      (decls.filter fun d => d.kind = some .tool).filterMap fun d => d.name := by
    rw [List.map_filterMap, List.filterMap_filter]
    refine List.filterMap_congr fun d _ => ?_
    rw [toolSymbol]
    by_cases hkind : d.kind = some .tool
    · cases hname : d.name <;> simp [hkind]
    · simp [hkind]
  rw [buildToolCtx, knownTools, ← hnames, ← h.tools, SymbolTable.tools]

theorem ToolTable.mem_tools (h : ToolTable decls st) {s : Symbol} :
    s ∈ st.tools ↔ DeclaresTool decls s.name s.decl ∧ s.kind = .tool := by
  rw [h.tools, List.mem_filterMap]
  constructor
  · rintro ⟨d, hd, hs⟩
    rw [toolSymbol] at hs
    split at hs
    · rename_i hkind
      obtain ⟨x, hx, rfl⟩ := Option.map_eq_some_iff.mp hs
      exact ⟨⟨hd, hkind, hx⟩, rfl⟩
    · cases hs
  · rintro ⟨⟨hd, hkind, hname⟩, htool⟩
    refine ⟨s.decl, hd, ?_⟩
    rw [toolSymbol, if_pos hkind, hname]
    obtain ⟨name, kind, decl⟩ := s
    cases htool
    rfl

/-- The tool that a name stands for. -/
theorem ToolTable.findKind_iff (h : ToolTable decls st) {t : String} {T : Decl} :
    (∃ s, st.findKind t .tool = some s ∧ s.decl = T) ↔ DeclaresTool decls t T := by
  have hfound : ∀ s, st.findKind t .tool = some s → s ∈ st.tools ∧ s.name = t := by
    intro s hs
    have hprop := List.find?_some hs
    rw [decide_eq_true_eq] at hprop
    refine ⟨List.mem_filter.mpr ⟨List.mem_of_find?_eq_some hs, ?_⟩, hprop.2⟩
    rw [decide_eq_true_eq]
    exact hprop.1
  constructor
  · rintro ⟨s, hs, rfl⟩
    obtain ⟨hmem, rfl⟩ := hfound s hs
    exact (h.mem_tools.mp hmem).1
  · intro hT
    have hmem : (⟨t, .tool, T⟩ : Symbol) ∈ st.tools := h.mem_tools.mpr ⟨hT, rfl⟩
    cases hs : st.findKind t .tool with
    | none => exact absurd rfl (findKind_tool_eq_none.mp hs _ hmem)
    | some s =>
        obtain ⟨hs', hname⟩ := hfound s hs
        have hsame := List.inj_on_of_nodup_map h.distinct hs' hmem hname
        exact ⟨s, rfl, by rw [hsame]⟩

end

/-! ## The walk -/

theorem mem_toolCallAt {tools : List String} {p : Mode × AstNode} {t : String} :
    t ∈ toolCallAt tools p ↔ p.1 = .expr ∧ p.2.callIdent = some t ∧ t ∈ tools := by
  obtain ⟨m, n⟩ := p
  cases m with
  | expr => simp [toolCallAt]
  | stmt => simp [toolCallAt]

theorem mem_findToolCallsInAgent {decls : List Decl} {agent : Decl} {t : String} :
    t ∈ findToolCallsInAgent (knownTools decls) agent ↔ SeenCall decls agent t := by
  simp only [findToolCallsInAgent, List.mem_flatMap, Option.mem_toList,
    findToolCalls, Walks.mem_collect, mem_toolCallAt, SeenCall]
  constructor
  · rintro ⟨m, hm, body, hbody, ⟨mode, n⟩, hreach, hmode, hcall, ht⟩
    cases hmode
    exact ⟨ht, m, hm, body, hbody, n, hreach, hcall⟩
  · rintro ⟨ht, m, hm, body, hbody, n, hreach, hcall⟩
    exact ⟨m, hm, body, hbody, (.expr, n), hreach, rfl, hcall, ht⟩

/-! ## The passes -/

/-- One error, unless the entry is in the list. -/
theorem unlisted_ne_nil {l : List String} {c : String} {d : Diagnostic} :
    (if l.contains c then [] else [d]) ≠ [] ↔ c ∉ l := by
  by_cases h : c ∈ l <;> simp [h]

section
variable {decls : List Decl} {st : SymbolTable} (h : ToolTable decls st)
include h

theorem ToolTable.onCapCheck_ne_nil {registry : List String} {agent : Decl} {t : String} :
    onCapCheckToolCall st registry agent t ≠ [] ↔ ∃ T, DeclaresTool decls t T ∧
      ∃ cap ∈ collectToolRequires T, cap ∉ registry ∨ cap ∉ collectAgentCaps agent := by
  simp only [← h.findKind_iff]
  rw [onCapCheckToolCall]
  cases hs : st.findKind t .tool with
  | none => simp
  | some s =>
      simp only [Walks.flatMap_ne_nil, Walks.append_ne_nil, unlisted_ne_nil, Option.some.injEq, exists_eq_left']

theorem ToolTable.capabilities_ne_nil :
    checkCapabilities st (buildCapRegistry decls) decls ≠ [] ↔ SeenOffence decls := by
  rw [checkCapabilities, h.known, SeenOffence]
  by_cases hknown : knownTools decls = []
  · simp [hknown]
  · rw [if_neg hknown, Walks.flatMap_ne_nil]
    simp only [checkAgentCapabilities, Walks.append_ne_nil, Walks.flatMap_ne_nil, unlisted_ne_nil, h.known,
      mem_findToolCallsInAgent, h.onCapCheck_ne_nil, ne_eq, hknown, not_false_eq_true, true_and,
      exists_and_left]

theorem ToolTable.budgets_ne_nil : checkBudgets st decls ≠ [] ↔ SeenUnbudgeted decls := by
  have hseen : ∀ agent : Decl, findToolCallsInAgent (knownTools decls) agent ≠ [] ↔
      ∃ t, SeenCall decls agent t := by
    intro agent
    simp only [← mem_findToolCallsInAgent]
    exact ⟨List.exists_mem_of_ne_nil _, fun ⟨t, ht⟩ => List.ne_nil_of_mem ht⟩
  rw [checkBudgets, h.known]
  split
  · rename_i hknown
    refine ⟨fun hne => absurd rfl hne, ?_⟩
    rintro ⟨agent, -, t, ⟨ht, -⟩, -⟩
    rw [hknown] at ht
    cases ht
  · rw [Walks.flatMap_ne_nil, SeenUnbudgeted]
    refine exists_congr fun agent => and_congr_right fun _ => ?_
    split
    · rename_i hboth
      obtain ⟨t, ht⟩ := (hseen agent).mp hboth.1
      exact ⟨fun _ => ⟨t, ht, hboth.2⟩, fun _ => List.cons_ne_nil _ _⟩
    · rename_i hnot
      refine ⟨fun hne => absurd rfl hne, ?_⟩
      rintro ⟨t, ht, hbudget⟩
      exact absurd ⟨(hseen agent).mpr ⟨t, ht⟩, hbudget⟩ hnot

end

theorem capabilities_errors {st : SymbolTable} {registry : List String} {decls : List Decl} :
    ∀ d ∈ checkCapabilities st registry decls, d.isWarning = false := by
  intro d hd
  rw [checkCapabilities] at hd
  split at hd
  · cases hd
  · simp only [List.mem_flatMap, checkAgentCapabilities, List.mem_append] at hd
    obtain ⟨agent, -, ⟨cap, -, hd⟩ | ⟨t, -, hd⟩⟩ := hd
    · split at hd
      · cases hd
      · cases List.mem_singleton.mp hd
        rfl
    · rw [onCapCheckToolCall] at hd
      split at hd
      · cases hd
      · obtain ⟨cap, -, hd⟩ := List.mem_flatMap.mp hd
        rcases List.mem_append.mp hd with hd | hd
        · split at hd
          · cases hd
          · cases List.mem_singleton.mp hd
            rfl
        · split at hd
          · cases hd
          · cases List.mem_singleton.mp hd
            rfl

theorem budgets_errors {st : SymbolTable} {decls : List Decl} :
    ∀ d ∈ checkBudgets st decls, d.isWarning = false := by
  intro d hd
  rw [checkBudgets] at hd
  split at hd
  · cases hd
  · obtain ⟨agent, -, hd⟩ := List.mem_flatMap.mp hd
    split at hd
    · cases List.mem_singleton.mp hd
      rfl
    · cases hd

/-! ## The verdict -/

/-- The passes about tools raise something for what they see. -/
theorem raised_iff (decls : List Decl) :
    ((registerDeclarations decls).2 ≠ [] ∨
      checkCapabilities (registerDeclarations decls).1 (buildCapRegistry decls) decls ≠ [] ∨
        checkBudgets (registerDeclarations decls).1 decls ≠ []) ↔
      DeclError decls ∨ SeenOffence decls ∨ SeenUnbudgeted decls := by
  by_cases herr : (registerDeclarations decls).2 = []
  · have ht := registerDeclarations_tools herr
    rw [ht.capabilities_ne_nil, ht.budgets_ne_nil, DeclError]
  · exact ⟨fun _ => .inl herr, fun _ => .inl herr⟩

/-- All of it is errors. -/
theorem exists_error_iff {ds : List Diagnostic} (h : ∀ d ∈ ds, d.isWarning = false) :
    (∃ d ∈ ds, d.isWarning = false) ↔ ds ≠ [] := by
  constructor
  · rintro ⟨d, hd, -⟩
    exact List.ne_nil_of_mem hd
  · intro hne
    obtain ⟨d, hd⟩ := List.exists_mem_of_ne_nil ds hne
    exact ⟨d, hd, h d hd⟩

theorem toolRaises_of_other {decls : List Decl} {others : Pass → List Diagnostic} {p : Pass}
    (hdecl : p ≠ .declarations) (hcap : p ≠ .capabilities) (hbudget : p ≠ .budgets) :
    toolRaises decls others p = others p := by
  cases p with
  | declarations => exact absurd rfl hdecl
  | capabilities => exact absurd rfl hcap
  | budgets => exact absurd rfl hbudget
  | _ => rfl

theorem enforcedError_iff (decls : List Decl) (others : Pass → List Diagnostic) :
    EnforcedError (toolRaises decls others) ↔
      (DeclError decls ∨ SeenOffence decls ∨ SeenUnbudgeted decls) ∨ OtherError others := by
  rw [← raised_iff, ← exists_error_iff (registerDeclarations_errors decls),
    ← exists_error_iff capabilities_errors, ← exists_error_iff budgets_errors]
  constructor
  · rintro ⟨p, hp, hd⟩
    by_cases hdecl : p = .declarations
    · subst hdecl
      exact .inl (.inl hd)
    · by_cases hcap : p = .capabilities
      · subst hcap
        exact .inl (.inr (.inl hd))
      · by_cases hbudget : p = .budgets
        · subst hbudget
          exact .inl (.inr (.inr hd))
        · rw [toolRaises_of_other hdecl hcap hbudget] at hd
          exact .inr ⟨p, hdecl, hcap, hbudget, hp, hd⟩
  · rintro ((hd | hd | hd) | ⟨p, hdecl, hcap, hbudget, hp, hd⟩)
    · exact ⟨.declarations, rfl, hd⟩
    · exact ⟨.capabilities, rfl, hd⟩
    · exact ⟨.budgets, rfl, hd⟩
    · refine ⟨p, hp, ?_⟩
      rw [toolRaises_of_other hdecl hcap hbudget]
      exact hd

/-- The checker verifies the tools exactly if, where an agent offends, something of
the kind is seen (or an error found by another pass), before the reporter is full. -/
theorem toolsVerified_iff (decls : List Decl) (others : Pass → List Diagnostic) :
    ToolsVerified decls others ↔
      (Offends decls ∨ Unbudgeted decls →
        ((DeclError decls ∨ SeenOffence decls ∨ SeenUnbudgeted decls) ∨ OtherError others) ∧
          advisoryBefore (toolRaises decls others) < maxErrors) := by
  rw [ToolsVerified, rejected_iff, ← enforcedError_iff]
  refine imp_congr_right fun _ => ⟨fun h => ⟨h.1, h.2.2⟩, fun h => ⟨h.1, h.1.entry, h.2⟩⟩

/-! ## A call in a guard -/

/-- `pay()` -/
def payCall : AstNode where
  kind := .call
  left := some { kind := .ident, name := some "pay" }

/-- `{ match 1 { _ if pay() => 2 } }` -/
def guardBody : AstNode where
  kind := .block
  params :=
    [{ kind := .exprStmt
       left := some
        { kind := .matchS
          left := some { kind := .intLit, val := some "1" }
          params :=
            [{ kind := .matchArm
               left := some { kind := .other }
               right := some { kind := .intLit, val := some "2" }
               params := [payCall] }] } }]

/-- `requires: [bank.pay]` -/
def payTool : Decl where
  kind := some .tool
  name := some "pay"
  fields :=
    [{ name := some "requires"
       value := some { kind := .array, params := [{ kind := .ident, name := some "bank.pay" }] } }]

def guardAgent : Decl where
  kind := some .agent
  name := some "A"
  methods := [{ name := some "run", body := some guardBody }]

/-- A tool, and an agent that calls it in a guard and lists nothing. -/
def guardProgram : List Decl := [payTool, guardAgent]

theorem offends_guardProgram : Offends guardProgram := by
  refine ⟨guardAgent, by simp [agents, guardProgram, guardAgent, payTool], "pay", payTool, ?_,
    ⟨List.mem_cons_self, rfl, rfl⟩, "bank.pay", by simp [fieldEntries, payTool, entryName],
    by simp [fieldEntries, guardAgent]⟩
  refine ⟨_, List.mem_singleton.mpr rfl, guardBody, rfl, payCall, ?_, .inl rfl⟩
  refine AstNode.Within.child ?_ (params_mem_children (List.mem_singleton.mpr rfl))
  refine AstNode.Within.child ?_ (left_mem_children rfl)
  refine AstNode.Within.child ?_ (params_mem_children (List.mem_singleton.mpr rfl))
  exact (AstNode.Within.refl payCall).child (params_mem_children (List.mem_singleton.mpr rfl))

/-- Where the walk over the body goes. -/
theorem walk_guardBody {p : Mode × AstNode} (h : Walks.Reaches walkNext (.stmt, guardBody) p) :
    p.1 = .expr → p.2.callIdent = none := by
  rcases Walks.reaches_iff.mp h with rfl | ⟨p₁, h₁, h⟩
  · exact nofun
  cases List.mem_singleton.mp h₁
  rcases Walks.reaches_iff.mp h with rfl | ⟨p₂, h₂, h⟩
  · exact nofun
  cases List.mem_singleton.mp h₂
  rcases Walks.reaches_iff.mp h with rfl | ⟨p₃, h₃, h⟩
  · exact fun _ => rfl
  rcases List.mem_cons.mp h₃ with rfl | h₃
  · rcases Walks.reaches_iff.mp h with rfl | ⟨p₄, h₄, -⟩
    · exact fun _ => rfl
    · cases h₄
  · cases List.mem_singleton.mp h₃
    rcases Walks.reaches_iff.mp h with rfl | ⟨p₄, h₄, -⟩
    · exact nofun
    · cases h₄

theorem not_seenCall_guardAgent (t : String) : ¬ SeenCall guardProgram guardAgent t := by
  rintro ⟨-, m, hm, body, hbody, n, hreach, hcall⟩
  cases List.mem_singleton.mp hm
  cases hbody
  have hnone := walk_guardBody hreach rfl
  rw [hcall] at hnone
  cases hnone

/-- A call in a guard goes unseen, and the program is accepted. -/
theorem tool_unseen :
    ¬ ∀ (decls : List Decl) (others : Pass → List Diagnostic), ToolsVerified decls others := by
  intro h
  obtain ⟨herr, -⟩ := h guardProgram (fun _ => []) (.inl offends_guardProgram)
  have hagents : agents guardProgram = [guardAgent] := by
    simp [agents, guardProgram, guardAgent, payTool]
  rcases (enforcedError_iff guardProgram fun _ => []).mp herr with (hd | hd | hd) | hd
  · exact hd (by decide)
  · obtain ⟨-, agent, hagent, ⟨cap, hcap, -⟩ | ⟨t, T, hseen, -⟩⟩ := hd
    · rw [hagents] at hagent
      cases List.mem_singleton.mp hagent
      simp [collectAgentCaps, fieldEntries, guardAgent] at hcap
    · rw [hagents] at hagent
      cases List.mem_singleton.mp hagent
      exact not_seenCall_guardAgent t hseen
  · obtain ⟨agent, hagent, t, hseen, -⟩ := hd
    rw [hagents] at hagent
    cases List.mem_singleton.mp hagent
    exact not_seenCall_guardAgent t hseen
  · obtain ⟨p, -, -, -, -, d, hd, -⟩ := hd
    cases hd

end Limceron.Typecheck
