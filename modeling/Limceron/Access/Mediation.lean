/-
# `Limceron.Access.Mediation` — the policy that the generated code checks

An agent with a `use` list is fenced twice from the same blocks:

| | checker | generated code |
| :-- | :-- | :-- |
| groups | all of the first `use` list | the first of the first list that starts with a name |
| blocks | the first 32 with rules | all with rules |
| rules | the first 64 of a kind | all, printed row by row into a buffer of 4096 |
| port | 443 where there is none | 0 where there is none, which stands for any |
| default | open where there is none | deny where there is none |

The code of a method is generated with the policy of its agent, and nothing that is
generated on the way (a closure, a `spawn`) changes it, so what a call becomes does
not depend on where it stands.  `cc` is the C compiler's reading of what stands
between two quotes.
-/
import Limceron.Access.Agree
import Limceron.Lang.Node

namespace Limceron.Access

open Caps (CString)

/-! ## Agents -/

/-- An entry of a list, with its name if it has one. -/
structure UseElem where
  isIdent : Bool
  name : Option String

/-- A field of an agent; `elems` is there if the value is an array. -/
structure AgentField where
  name : String
  elems : Option (List UseElem)

structure Method where
  name : Option String
  body : Option AstNode

structure Agent where
  name : String
  params : List AgentField
  methods : List Method

/-- The declarations that matter here; `tools` are those of skills too, in the order in
which they are generated. -/
structure Program where
  capabilities : List Capability
  tools : List String
  agents : List Agent

/-- `collect_agent_policies`. -/
def collectAgentPolicies (A : Agent) : List String :=
  match A.params.find? fun f => f.name == "use" with
  | some f => ((f.elems.getD []).filterMap fun e => if e.isIdent then e.name else none).take
      maxPolicies
  | none => []

/-- The policy of the agent, as `cg_agent` resolves it. -/
def cgPolicyName (A : Agent) : Option String :=
  A.params.findSome? fun f =>
    if f.name == "use" then f.elems.bind fun es => es.head?.bind UseElem.name else none

/-! ## The tables that are generated -/

/-- Host and port of an endpoint rule, as `cg_access_policies` splits them. -/
def cgHostPort (spec : CString) : CString × Int :=
  match splitLast ':' spec with
  | some (host, port) => (host.take 255, atoi port)
  | none => (spec.take 255, 0)

def quoted (s : CString) : CString := '"' :: s ++ ['"']

def boolText (b : Bool) : CString := if b then "true".toList else "false".toList

def commas : List CString → CString
  | [] => []
  | [s] => s
  | s :: ss => s ++ ", ".toList ++ commas ss

/-- A row of a table. -/
def cgRow (cells : List CString) : CString :=
  "    \x7b ".toList ++ commas cells ++ " \x7d,\n".toList

/-- The buffer of `cg_fmt` holds the row. -/
def RowFits (cells : List CString) : Prop := (cgRow cells).length < 4096

instance (cells : List CString) : Decidable (RowFits cells) := inferInstanceAs (Decidable (_ < _))

namespace CapItem

def endpointCells (i : CapItem) : List CString :=
  [quoted (cgHostPort i.name).1, (toString (cgHostPort i.name).2).toList, boolText i.isMut,
    match i.pathGlob with
    | some g => quoted g
    | none => "NULL".toList]

def binaryCells (i : CapItem) : List CString := [quoted i.name, boolText i.isMut]

def pathCells (i : CapItem) : List CString :=
  [quoted i.name, boolText i.isMut, boolText (i.mode "read"), boolText (i.mode "write")]

end CapItem

/-- What a C compiler makes of the text between two quotes, if it accepts it. -/
structure CReader where
  read : CString → Option CString
  read_nil : read [] = some []

section
variable (cc : CReader)

/-- An optional text, as C reads it back. -/
def readGlob : Option CString → Option (Option CString)
  | none => some none
  | some g => (cc.read g).map some

/-- The row of an endpoint rule, as C reads it back. -/
def cgEndpoint (i : CapItem) : Option EndpointRule :=
  if RowFits i.endpointCells then do
    let host ← cc.read (cgHostPort i.name).1
    let glob ← readGlob cc i.pathGlob
    return { host := host, port := (cgHostPort i.name).2, allow := i.isMut, pathGlob := glob }
  else none

def cgBinary (i : CapItem) : Option BinaryRule :=
  if RowFits i.binaryCells then do
    let path ← cc.read i.name
    return { path := path, allow := i.isMut }
  else none

def cgPath (i : CapItem) : Option PathRule :=
  if RowFits i.pathCells then do
    let pattern ← cc.read i.name
    return { pattern := pattern, allow := i.isMut
             canRead := i.mode "read", canWrite := i.mode "write" }
  else none

/-- The default of the tables: deny, unless the block says otherwise. -/
def Capability.cgDefaultDeny (cap : Capability) : Bool := cap.default?.all fun i => !i.isMut

/-- `cg_access_policies`. -/
def cgAccessPolicy (cap : Capability) : Option LcnAccessPolicy :=
  if cap.hasRules then do
    let endpoints ← (cap.ofKind .endpointRule).mapM (cgEndpoint cc)
    let binaries ← (cap.ofKind .binaryRule).mapM (cgBinary cc)
    let paths ← (cap.ofKind .pathRule).mapM (cgPath cc)
    return { endpoints := some endpoints, binaries := some binaries, paths := some paths
             denyPrivate := cap.denyPrivate, defaultDeny := cap.cgDefaultDeny }
  else none

/-- The block behind the name `lcn_policy_G`. -/
def Program.policyBlock (P : Program) (G : String) : Option Capability :=
  (P.capabilities.filter Capability.hasRules).find? fun cap => cap.name == G

/-- The block behind the name for the checker, which keeps 32. -/
def Program.checkedBlock (P : Program) (G : String) : Option Capability :=
  ((P.capabilities.filter Capability.hasRules).take maxPolicies).find? fun cap => cap.name == G

/-! ## What a call becomes -/

def AccessCall.name : AccessCall → String
  | .fetch => "fetch"
  | .exec => "exec"
  | .readFile => "read_file"
  | .writeFile => "write_file"

/-- The function that is called in C. -/
inductive Callee where
  | checked (fn policy : String)
  | unchecked (fn : String)
  | tool (name : String)
  | method (agent name : String)
  deriving DecidableEq

def AccessCall.uncheckedFn : AccessCall → String
  | .fetch => "lcn_http_get"
  | .exec => "system"
  | .readFile => "lcn_read_file"
  | .writeFile => "lcn_write_file"

def AccessCall.checkedFn : AccessCall → String
  | .fetch => "lcn_fetch_checked"
  | .exec => "lcn_exec_checked"
  | .readFile => "lcn_read_file_checked"
  | .writeFile => "lcn_write_file_checked"

/-- A builtin that the check is made before tools and methods are looked for. -/
def AccessCall.isBuiltin : AccessCall → Bool
  | .readFile | .writeFile => true
  | .fetch | .exec => false

/-- `g->tools`. -/
def Program.cgTools (P : Program) : List String := P.tools.take 256

/-- `g->agent_methods`. -/
def Program.cgMethods (P : Program) : List (String × String) :=
  (P.agents.flatMap fun A => A.methods.filterMap fun m => m.name.map (A.name, ·)).take 256

/-- `cg_expr` on a call of one of the four, in a method of the agent. -/
def cgCallee (P : Program) (A : Agent) (c : AccessCall) : Callee :=
  if !c.isBuiltin && P.cgTools.contains c.name then .tool c.name
  else if !c.isBuiltin && P.cgMethods.contains (A.name, c.name) then .method A.name c.name
  else
    match cgPolicyName A with
    | some G => .checked c.checkedFn G
    | none => .unchecked c.uncheckedFn

/-! ## Mediation -/

/-- What a policy permits is given by its rules, in their order, and its settings. -/
structure RuleTables where
  endpoints : List EndpointRule
  binaries : List BinaryRule
  paths : List PathRule
  denyPrivate : Bool
  denyDefault : Bool

def ConcretePolicy.tables (p : ConcretePolicy) : RuleTables where
  endpoints := p.endpoints
  binaries := p.binaries
  paths := p.paths
  denyPrivate := p.denyPrivate
  denyDefault := p.hasDefault && p.defaultDeny

def LcnAccessPolicy.tables (p : LcnAccessPolicy) : RuleTables where
  endpoints := p.endpoints.getD []
  binaries := p.binaries.getD []
  paths := p.paths.getD []
  denyPrivate := p.denyPrivate
  denyDefault := p.defaultDeny

/-- The policies that the checker has for the agent. -/
def staticPolicies (P : Program) (A : Agent) : List ConcretePolicy :=
  (collectAgentPolicies A).filterMap (findPolicy (buildAccessPolicies P.capabilities))

/-- The call goes through the checked function, under a policy that is the checker's. -/
def MediatedCall (P : Program) (A : Agent) (c : AccessCall) : Prop :=
  ∃ G cap p, cgCallee P A c = .checked c.checkedFn G ∧ P.policyBlock G = some cap ∧
    cgAccessPolicy cc cap = some p ∧ staticPolicies P A ≠ [] ∧
      ∀ q ∈ staticPolicies P A, q.tables = p.tables

/-- In the methods of agents with a `use` list every call has the property. -/
def Program.EveryCall (P : Program) (R : Agent → AccessCall → Prop) : Prop :=
  ∀ A ∈ P.agents, collectAgentPolicies A ≠ [] → ∀ m ∈ A.methods, ∀ body, m.body = some body →
    ∀ n c, AstNode.Within n body → n.callIdent = some (AccessCall.name c) → R A c

/-! ## When the call is mediated -/

/-- The rules of `B`, as the checker reads them, are those of `G`, as C reads them. -/
structure Capability.KeptAs (B G : Capability) : Prop where
  endpoints : (G.ofKind .endpointRule).map (cgEndpoint cc) =
    ((B.ofKind .endpointRule).take maxEndpointRules).map fun i => some i.endpoint
  binaries : (G.ofKind .binaryRule).map (cgBinary cc) =
    ((B.ofKind .binaryRule).take maxBinaryRules).map fun i => some i.binary
  paths : (G.ofKind .pathRule).map (cgPath cc) =
    ((B.ofKind .pathRule).take maxPathRules).map fun i => some i.path
  denyPrivate : B.denyPrivate = G.denyPrivate
  denyDefault : B.deniesByDefault = G.cgDefaultDeny

/-- No tool and no method takes the place of the call, the first group has a block, some
group has one for the checker, and those that do are kept. -/
def MediationKept (P : Program) (A : Agent) (c : AccessCall) : Prop :=
  (c.isBuiltin = false → c.name ∉ P.cgTools ∧ (A.name, c.name) ∉ P.cgMethods) ∧
    ∃ G cap, cgPolicyName A = some G ∧ P.policyBlock G = some cap ∧
      (∃ N ∈ collectAgentPolicies A, P.checkedBlock N ≠ none) ∧
        ∀ N ∈ collectAgentPolicies A, ∀ B, P.checkedBlock N = some B → B.KeptAs cc cap

variable {cc}

theorem mapM_eq_some_iff {α β : Type} {f : α → Option β} {as : List α} {bs : List β} :
    as.mapM f = some bs ↔ as.map f = bs.map some := by
  induction as generalizing bs with
  | nil => cases bs <;> simp
  | cons a as ih =>
      rw [List.mapM_cons, List.map_cons]
      cases hf : f a with
      | none => cases bs <;> simp
      | some b =>
          cases bs with
          | nil => cases as.mapM f <;> simp
          | cons b' bs =>
              have h : as.mapM f = some bs ↔ as.map f = bs.map some := ih
              cases hm : as.mapM f with
              | none =>
                  rw [hm] at h
                  simpa using fun _ => h
              | some cs =>
                  rw [hm] at h
                  simpa using fun _ => h

theorem findPolicy_build (P : Program) (N : String) :
    findPolicy (buildAccessPolicies P.capabilities) N = (P.checkedBlock N).map (·.concrete) := by
  rw [findPolicy, buildAccessPolicies, List.find?_map]
  rfl

theorem mem_staticPolicies_iff {P : Program} {A : Agent} {q : ConcretePolicy} :
    q ∈ staticPolicies P A ↔
      ∃ N ∈ collectAgentPolicies A, ∃ B, P.checkedBlock N = some B ∧ B.concrete = q := by
  simp only [staticPolicies, List.mem_filterMap, findPolicy_build, Option.map_eq_some_iff]

theorem policyBlock_hasRules {P : Program} {G : String} {cap : Capability}
    (h : P.policyBlock G = some cap) : cap.hasRules = true :=
  (List.mem_filter.mp (List.mem_of_find?_eq_some h)).2

theorem cgAccessPolicy_eq_some_iff {cap : Capability} (hrules : cap.hasRules = true)
    {p : LcnAccessPolicy} :
    cgAccessPolicy cc cap = some p ↔ ∃ es bs ps,
      (cap.ofKind .endpointRule).map (cgEndpoint cc) = es.map some ∧
        (cap.ofKind .binaryRule).map (cgBinary cc) = bs.map some ∧
          (cap.ofKind .pathRule).map (cgPath cc) = ps.map some ∧
            p = ⟨some es, some bs, some ps, cap.denyPrivate, cap.cgDefaultDeny⟩ := by
  rw [cgAccessPolicy, if_pos hrules]
  simp only [Option.bind_eq_bind, Option.bind_eq_some_iff, mapM_eq_some_iff, Option.pure_def,
    Option.some.injEq]
  constructor
  · rintro ⟨es, hes, bs, hbs, ps, hps, rfl⟩
    exact ⟨es, bs, ps, hes, hbs, hps, rfl⟩
  · rintro ⟨es, bs, ps, hes, hbs, hps, rfl⟩
    exact ⟨es, hes, bs, hbs, ps, hps, rfl⟩

theorem concrete_tables (B : Capability) :
    B.concrete.tables =
      { endpoints := ((B.ofKind .endpointRule).take maxEndpointRules).map CapItem.endpoint
        binaries := ((B.ofKind .binaryRule).take maxBinaryRules).map CapItem.binary
        paths := ((B.ofKind .pathRule).take maxPathRules).map CapItem.path
        denyPrivate := B.denyPrivate
        denyDefault := B.deniesByDefault } := by
  rw [ConcretePolicy.tables, deniesByDefault_eq]
  simp only [Capability.concrete, Capability.endpoints, Capability.binaries, Capability.paths,
    List.map_take]

/-- The tables of the code are there and are those of `B` exactly if `B` is kept. -/
theorem keptAs_iff {B cap : Capability} (hrules : cap.hasRules = true) :
    B.KeptAs cc cap ↔ ∃ p, cgAccessPolicy cc cap = some p ∧ B.concrete.tables = p.tables := by
  simp only [cgAccessPolicy_eq_some_iff hrules, concrete_tables]
  constructor
  · rintro ⟨hes, hbs, hps, hprivate, hdefault⟩
    refine ⟨_, ⟨((B.ofKind .endpointRule).take maxEndpointRules).map CapItem.endpoint,
      ((B.ofKind .binaryRule).take maxBinaryRules).map CapItem.binary,
      ((B.ofKind .pathRule).take maxPathRules).map CapItem.path, ?_, ?_, ?_, rfl⟩, ?_⟩
    · rw [hes, List.map_map]
      rfl
    · rw [hbs, List.map_map]
      rfl
    · rw [hps, List.map_map]
      rfl
    · rw [LcnAccessPolicy.tables, hprivate, hdefault]
      rfl
  · rintro ⟨p, ⟨es, bs, ps, hes, hbs, hps, rfl⟩, htables⟩
    simp only [LcnAccessPolicy.tables, RuleTables.mk.injEq, Option.getD_some] at htables
    obtain ⟨rfl, rfl, rfl, hprivate, hdefault⟩ := htables
    refine ⟨?_, ?_, ?_, hprivate, hdefault⟩
    · rw [hes, List.map_map]
      rfl
    · rw [hbs, List.map_map]
      rfl
    · rw [hps, List.map_map]
      rfl

theorem cgCallee_checked_iff {P : Program} {A : Agent} {c : AccessCall} {G : String} :
    cgCallee P A c = .checked c.checkedFn G ↔
      (c.isBuiltin = false → c.name ∉ P.cgTools ∧ (A.name, c.name) ∉ P.cgMethods) ∧
        cgPolicyName A = some G := by
  rw [cgCallee]
  cases hbuiltin : c.isBuiltin with
  | true => cases cgPolicyName A <;> simp
  | false =>
      by_cases htool : c.name ∈ P.cgTools
      · simp [htool]
      · by_cases hmethod : (A.name, c.name) ∈ P.cgMethods
        · simp [htool, hmethod]
        · cases cgPolicyName A <;> simp [htool, hmethod]

theorem mediatedCall_iff {P : Program} {A : Agent} {c : AccessCall} :
    MediatedCall cc P A c ↔ MediationKept cc P A c := by
  constructor
  · rintro ⟨G, cap, p, hcallee, hblock, hp, hne, hall⟩
    obtain ⟨hfree, hname⟩ := cgCallee_checked_iff.mp hcallee
    refine ⟨hfree, G, cap, hname, hblock, ?_, fun N hN B hB => ?_⟩
    · obtain ⟨q, hq⟩ := List.exists_mem_of_ne_nil _ hne
      obtain ⟨N, hN, B, hB, -⟩ := mem_staticPolicies_iff.mp hq
      exact ⟨N, hN, by rw [hB]; exact Option.some_ne_none B⟩
    · refine (keptAs_iff (policyBlock_hasRules hblock)).mpr ⟨p, hp, ?_⟩
      exact hall _ (mem_staticPolicies_iff.mpr ⟨N, hN, B, hB, rfl⟩)
  · rintro ⟨hfree, G, cap, hname, hblock, ⟨N, hN, hne⟩, hall⟩
    obtain ⟨B, hB⟩ := Option.ne_none_iff_exists'.mp hne
    obtain ⟨p, hp, -⟩ := (keptAs_iff (policyBlock_hasRules hblock)).mp (hall N hN B hB)
    refine ⟨G, cap, p, cgCallee_checked_iff.mpr ⟨hfree, hname⟩, hblock, hp, ?_, fun q hq => ?_⟩
    · exact List.ne_nil_of_mem (mem_staticPolicies_iff.mpr ⟨N, hN, B, hB, rfl⟩)
    · obtain ⟨N', hN', B', hB', rfl⟩ := mem_staticPolicies_iff.mp hq
      obtain ⟨p', hp', htables⟩ :=
        (keptAs_iff (policyBlock_hasRules hblock)).mp (hall N' hN' B' hB')
      cases hp.symm.trans hp'
      exact htables

/-! ## One group -/

/-- C reads the text back as it is. -/
def CReader.Keeps (cc : CReader) (s : CString) : Prop := cc.read s = some s

/-- A host and a port. -/
def HasPort (spec : CString) : Prop :=
  ∃ host port, splitLast ':' spec = some (host, port) ∧ host ≠ [] ∧ 0 < atoi port

/-- A block that the tables render: not too long, a port in every endpoint rule, texts that
C reads as they are, and a default. -/
structure Capability.Rendered (cc : CReader) (B : Capability) : Prop where
  few : (B.ofKind .endpointRule).length ≤ maxEndpointRules ∧
    (B.ofKind .binaryRule).length ≤ maxBinaryRules ∧ (B.ofKind .pathRule).length ≤ maxPathRules
  endpoints : ∀ i ∈ B.ofKind .endpointRule, RowFits i.endpointCells ∧ HasPort i.name ∧
    cc.Keeps (cgHostPort i.name).1 ∧ ∀ g ∈ i.pathGlob, cc.Keeps g
  binaries : ∀ i ∈ B.ofKind .binaryRule, RowFits i.binaryCells ∧ cc.Keeps i.name
  paths : ∀ i ∈ B.ofKind .pathRule, RowFits i.pathCells ∧ cc.Keeps i.name
  default : B.default? ≠ none

/-- Both sides split the rule alike exactly if it has a port. -/
theorem read_hostPort_iff (spec : CString) :
    cc.read (cgHostPort spec).1 = some (parseHostPort spec).1 ∧
        (cgHostPort spec).2 = (parseHostPort spec).2 ↔
      HasPort spec ∧ cc.Keeps (cgHostPort spec).1 := by
  rw [cgHostPort, parseHostPort, HasPort, CReader.Keeps]
  cases hsplit : splitLast ':' spec with
  | none => simp
  | some r =>
      obtain ⟨host, port⟩ := r
      by_cases hhost : host = []
      · subst hhost
        have hspec : spec.take 255 ≠ [] := by
          cases spec with
          | nil => cases hsplit
          | cons c cs => exact List.cons_ne_nil c _
        simp [cc.read_nil, Ne.symm hspec]
      · have hport : atoi port = portOr443 (atoi port) ↔ 0 < atoi port := by
          rw [portOr443]
          split <;> omega
        simp [hhost, hport, and_comm]

theorem readGlob_iff (g : Option CString) :
    readGlob cc g = some g ↔ ∀ t ∈ g, cc.Keeps t := by
  cases g with
  | none => simp [readGlob]
  | some t => simp [readGlob, CReader.Keeps]

theorem cgEndpoint_iff (i : CapItem) :
    cgEndpoint cc i = some i.endpoint ↔ RowFits i.endpointCells ∧ HasPort i.name ∧
      cc.Keeps (cgHostPort i.name).1 ∧ ∀ g ∈ i.pathGlob, cc.Keeps g := by
  rw [cgEndpoint]
  by_cases hfits : RowFits i.endpointCells
  · rw [if_pos hfits, and_iff_right hfits, ← readGlob_iff, ← and_assoc, ← read_hostPort_iff]
    simp only [Option.bind_eq_bind, Option.bind_eq_some_iff, Option.pure_def, Option.some.injEq,
      CapItem.endpoint, EndpointRule.mk.injEq]
    constructor
    · rintro ⟨host, hhost, glob, hglob, rfl, hport, -, rfl⟩
      exact ⟨⟨hhost, hport⟩, hglob⟩
    · rintro ⟨⟨hhost, hport⟩, hglob⟩
      exact ⟨_, hhost, _, hglob, rfl, hport, trivial, rfl⟩
  · simp [hfits]

theorem cgBinary_iff (i : CapItem) :
    cgBinary cc i = some i.binary ↔ RowFits i.binaryCells ∧ cc.Keeps i.name := by
  rw [cgBinary]
  by_cases hfits : RowFits i.binaryCells
  · rw [if_pos hfits, and_iff_right hfits, CReader.Keeps, CapItem.binary]
    cases cc.read i.name <;> simp
  · simp [hfits]

theorem cgPath_iff (i : CapItem) :
    cgPath cc i = some i.path ↔ RowFits i.pathCells ∧ cc.Keeps i.name := by
  rw [cgPath]
  by_cases hfits : RowFits i.pathCells
  · rw [if_pos hfits, and_iff_right hfits, CReader.Keeps, CapItem.path]
    cases cc.read i.name <;> simp
  · simp [hfits]

/-- The items rendered one by one are the first `n`: there are no more, and each is kept. -/
theorem map_eq_take_iff {α β : Type} {f : α → Option β} {g : α → β} {as : List α} {n : Nat} :
    (as.map f = (as.take n).map fun a => some (g a)) ↔
      as.length ≤ n ∧ ∀ a ∈ as, f a = some (g a) := by
  constructor
  · intro h
    have hlen : as.length ≤ n := by
      have := congrArg List.length h
      rw [List.length_map, List.length_map, List.length_take] at this
      omega
    rw [List.take_of_length_le hlen] at h
    exact ⟨hlen, List.map_inj_left.mp h⟩
  · rintro ⟨hlen, h⟩
    rw [List.take_of_length_le hlen]
    exact List.map_inj_left.mpr h

theorem deniesByDefault_iff (B : Capability) :
    B.deniesByDefault = B.cgDefaultDeny ↔ B.default? ≠ none := by
  rw [Capability.deniesByDefault, Capability.cgDefaultDeny]
  cases B.default? <;> simp

/-- A block is kept as itself exactly if the tables render it. -/
theorem keptAs_self_iff (B : Capability) : B.KeptAs cc B ↔ B.Rendered cc := by
  constructor
  · rintro ⟨hes, hbs, hps, -, hdefault⟩
    obtain ⟨helen, hes⟩ := map_eq_take_iff.mp hes
    obtain ⟨hblen, hbs⟩ := map_eq_take_iff.mp hbs
    obtain ⟨hplen, hps⟩ := map_eq_take_iff.mp hps
    exact ⟨⟨helen, hblen, hplen⟩, fun i hi => (cgEndpoint_iff i).mp (hes i hi),
      fun i hi => (cgBinary_iff i).mp (hbs i hi), fun i hi => (cgPath_iff i).mp (hps i hi),
      (deniesByDefault_iff B).mp hdefault⟩
  · rintro ⟨⟨helen, hblen, hplen⟩, hes, hbs, hps, hdefault⟩
    exact ⟨map_eq_take_iff.mpr ⟨helen, fun i hi => (cgEndpoint_iff i).mpr (hes i hi)⟩,
      map_eq_take_iff.mpr ⟨hblen, fun i hi => (cgBinary_iff i).mpr (hbs i hi)⟩,
      map_eq_take_iff.mpr ⟨hplen, fun i hi => (cgPath_iff i).mpr (hps i hi)⟩, rfl,
      (deniesByDefault_iff B).mpr hdefault⟩

end

/-! ## Two groups -/

/-- `allow binary`, `deny binary`, with `default: allow` -/
def shellBlock (name : String) (rule : CapItem) : Capability where
  name := name
  params := [rule, { kind := .default, name := [], isMut := true }]

/-- `allow binary "/bin/ls"` -/
def listBlock : Capability :=
  shellBlock "list" { kind := .binaryRule, name := "/bin/ls".toList, isMut := true }

/-- `deny binary "/bin/rm"` -/
def keepBlock : Capability :=
  shellBlock "keep" { kind := .binaryRule, name := "/bin/rm".toList, isMut := false }

/-- `exec(cmd)` -/
def execCall : AstNode where
  kind := .call
  left := some { kind := .ident, name := some "exec" }
  params := [{ kind := .ident, name := some "cmd" }]

/-- `use list, keep` -/
def useTwo : AgentField where
  name := "use"
  elems := some [⟨true, some "list"⟩, ⟨true, some "keep"⟩]

/-- `agent A { use list, keep  fn run(cmd: string) { exec(cmd) } }` -/
def twoGroups : Program where
  capabilities := [listBlock, keepBlock]
  tools := []
  agents :=
    [{ name := "A", params := [useTwo]
       methods := [⟨some "run", some { kind := .block, params :=
        [{ kind := .exprStmt, left := some execCall }] }⟩] }]

end Limceron.Access
