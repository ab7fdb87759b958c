/-
# `Limceron.Gen.Resolve` — names of functions and targets of calls

A function gets the symbol `lcn_` followed by a label, cut to 255 characters:

| declared in | label |
| :-- | :-- |
| the main file | `<name>` |
| an imported module | `__<stem>_<name>` |
| an agent | `__<agent in snake case>_<name>` |
| the trampoline of the first agent with a `main` | `main` |

Different declarations may have one label (`fn f` of module `a_b`, `fn b_f` of
module `a`), and `irgen_call` never looks for a sibling in an imported module.
`callsResolve_iff` says exactly when names are distinct and calls go where they
should.
-/
import Limceron.Gen.Steps
import Mathlib.Data.List.Forall2
import Mathlib.Data.List.Nodup

namespace Limceron.Gen

/-! ## What a call refers to -/

/-- The functions of the declarations from the `k`-th agent on; `b` says whether
there is a trampoline already. -/
def originsFrom : Nat → Bool → List Decl → List Origin
  | _, _, [] => []
  | k, b, .fn d :: ds => FnDecl.origin d :: originsFrom k b ds
  | k, b, .agent a :: ds =>
      a.fns.map (fun d => .ofAgent k a.name d.name) ++
        ((if a.fns.any (·.name == "main") && !b then [.trampoline] else []) ++
          originsFrom (k + 1) (b || a.fns.any (·.name == "main")) ds)
  | k, b, .other :: ds => originsFrom k b ds

/-- The functions of a program. -/
def origins (p : Program) : List Origin := originsFrom 0 false p.decls

/-- What an unqualified name may refer to, nearest first. -/
def Origin.candidates (f : String) : Origin → List Origin
  | .ofModule stem _ => [.ofModule stem f, .main f]
  | .ofAgent k agent _ => [.ofAgent k agent f, .main f]
  | _ => [.main f]

/-- The declared function that a call in `caller` refers to. -/
def refersTo (p : Program) (caller : Origin) : CallRef → Option Origin
  | .plain f => (caller.candidates f).find? (· ∈ origins p)
  | .qualified stem f => [Origin.ofModule stem f].find? (· ∈ origins p)
  | .computed => none

/-- All names differ, and every `IR_CALL` lowered from a call of a declared
function names the function lowered from that declaration. -/
structure CallsResolve (wit : HostErrors) (p : Program) : Prop where
  distinct : ((lowerProgram wit p).map (·.fn.name)).Nodup
  calls : ∀ l ∈ lowerProgram wit p, ∀ c ∈ l.calls, ∀ o, refersTo p l.origin c.1 = some o →
    ∃ l' ∈ lowerProgram wit p, l'.origin = o ∧ c.2 = l'.fn.name

/-! ## Labels -/

/-- What stands behind `lcn_` in a symbol. -/
def Origin.label : Origin → List Char
  | .main name => name.toList.take 251
  | .ofModule stem name => ("__" ++ stem ++ "_" ++ name).toList.take 251
  | .ofAgent _ agent name => ("__" ++ kebabCase agent ++ "_" ++ name).toList.take 251
  | .trampoline => "main".toList

/-- The name of the `IrFunction`. -/
def Origin.symbol : Origin → String
  | .main name => mainSymbol name
  | .ofModule stem name => scopedSymbol stem name
  | .ofAgent _ agent name => scopedSymbol (kebabCase agent) name
  | .trampoline => "lcn_main"

theorem Origin.symbol_eq (o : Origin) : o.symbol = String.ofList ("lcn_".toList ++ o.label) := by
  cases o with
  | main name => simp [symbol, mainSymbol, snprintf256, label]
  | ofModule stem name => simp [symbol, scopedSymbol, snprintf256, label]
  | ofAgent k agent name => simp [symbol, scopedSymbol, snprintf256, label]
  | trampoline => decide

theorem Origin.symbol_inj {o o' : Origin} : o.symbol = o'.symbol ↔ o.label = o'.label := by
  rw [symbol_eq, symbol_eq, String.ofList_inj, List.append_cancel_left_eq]

/-! ## The record of calls -/

/-- In a function lowered with the registries `r`: the recorded calls have the
symbols that `r` gives, and every `IR_CALL` is recorded. -/
structure Recorded (r : Registries) (s : GenState) : Prop where
  names : s.names = r
  symbols : ∀ c ∈ s.calls, r.resolve c.1 = some c.2
  insts : ∀ i ∈ s.blocks.flatMap (·.insts), i.op = .call → ∃ c ∈ s.calls, i.fnName = some c.2

theorem mem_appendInst {blocks : List IrBasicBlock} {k : Nat} {i j : IrInst}
    (h : j ∈ (appendInst blocks k i).flatMap (·.insts)) :
    j ∈ blocks.flatMap (·.insts) ∨ j = i := by
  obtain ⟨bb, hbb, hj⟩ := List.mem_flatMap.mp h
  obtain ⟨n, hn⟩ := List.mem_iff_getElem?.mp hbb
  rw [appendInst, List.getElem?_modify] at hn
  obtain ⟨bb₀, hbb₀, rfl⟩ := Option.map_eq_some_iff.mp hn
  have hmem : bb₀ ∈ blocks := List.mem_of_getElem? hbb₀
  split at hj
  · rcases List.mem_append.mp hj with hj | hj
    · exact .inl (List.mem_flatMap.mpr ⟨bb₀, hmem, hj⟩)
    · exact .inr (List.mem_singleton.mp hj)
  · exact .inl (List.mem_flatMap.mpr ⟨bb₀, hmem, hj⟩)

theorem Recorded.step {r : Registries} {s t : GenState} (h : EmitStep s t) (hs : Recorded r s) :
    Recorded r t := by
  cases h with
  | block label =>
      refine ⟨hs.names, hs.symbols, fun i hi => hs.insts i ?_⟩
      simpa [bbNew] using hi
  | move bb => exact ⟨hs.names, hs.symbols, hs.insts⟩
  | inst i hop =>
      refine ⟨hs.names, hs.symbols, fun j hj hcall => ?_⟩
      rcases mem_appendInst hj with hj | rfl
      · exact hs.insts j hj hcall
      · exact absurd hcall hop
  | call ref symbol retType args hsym =>
      refine ⟨hs.names, fun c hc => ?_, fun j hj hcall => ?_⟩
      · rcases List.mem_append.mp hc with hc | hc
        · exact hs.symbols c hc
        · obtain rfl := List.mem_singleton.mp hc
          exact hs.names ▸ hsym
      · rcases mem_appendInst hj with hj | rfl
        · obtain ⟨c, hc, hn⟩ := hs.insts j hj hcall
          exact ⟨c, List.mem_append_left _ hc, hn⟩
        · exact ⟨(ref, symbol), List.mem_append_right _ (List.mem_singleton_self _), rfl⟩
  | nesting scope loops catches => exact ⟨hs.names, hs.symbols, hs.insts⟩

/-- A function is lowered: its origin, its name, its record of calls. -/
structure LoweredFrom (r : Registries) (o : Origin) (l : Lowered) : Prop where
  origin : l.origin = o
  name : l.fn.name = o.symbol
  symbols : ∀ c ∈ l.calls, r.resolve c.1 = some c.2
  insts : o ≠ .trampoline → ∀ i ∈ l.fn.insts, i.op = .call → ∃ c ∈ l.calls, i.fnName = some c.2

/-- Lowering a body from a state without blocks, and wrapping it up. -/
theorem LoweredFrom.of_body (wit : HostErrors) {o : Origin} {symbol : String}
    (hsym : symbol = o.symbol) (body : List Stmt) (retType : IrType) {s : GenState}
    (hb : s.blocks = []) (hc : s.calls = []) :
    let t := ((do
      scopePush
      let _ ← bbNew "entry"
      irgenFnBody wit body retType
      scopePop : GenM Unit) s).2
    LoweredFrom s.names o (functionDone o symbol retType t).1 ∧ t.names = s.names := by
  have hinit : Recorded s.names s := ⟨rfl, by simp [hc], by simp [hb]⟩
  have hrec := (Emits.scopedBody wit body retType).invariant (I := Recorded s.names)
    (fun _ _ h => .step h) s hinit
  exact ⟨⟨rfl, hsym, hrec.symbols, fun _ => hrec.insts⟩, hrec.names⟩

theorem fnSymbol_eq (d : FnDecl) : fnSymbol d = (FnDecl.origin d).symbol := by
  unfold fnSymbol FnDecl.origin
  cases d.stem with
  | none => rfl
  | some stem =>
      by_cases h : stem = ""
      · simp [h, Origin.symbol]
      · simp [h, Origin.symbol]

theorem irgenFunction_lowered (wit : HostErrors) (d : FnDecl) (s : GenState) :
    LoweredFrom (s.names.registerFn d.name (astTypeToIr d.returnType)) (FnDecl.origin d)
      (irgenFunction wit d s).1 ∧
    (irgenFunction wit d s).2.names = s.names.registerFn d.name (astTypeToIr d.returnType) :=
  LoweredFrom.of_body wit (fnSymbol_eq d) d.body (astTypeToIr d.returnType)
    (s := { s with
      params := addParams d.params, blocks := [], currentBb := 0
      nextValue := (addParams d.params).length, calls := []
      names := s.names.registerFn d.name (astTypeToIr d.returnType) }) rfl rfl

theorem irgenAgentFunctionNamed_lowered (wit : HostErrors) {o : Origin} {symbol : String}
    (hsym : symbol = o.symbol) (d : FnDecl) (s : GenState) :
    LoweredFrom s.names o (irgenAgentFunctionNamed wit o d symbol s).1 ∧
    (irgenAgentFunctionNamed wit o d symbol s).2.names = s.names :=
  LoweredFrom.of_body wit hsym d.body (astTypeToIr d.returnType)
    (s := { s with
      params := addParams d.params, blocks := [], currentBb := 0
      nextValue := (addParams d.params).length, calls := [] }) rfl rfl

/-- The trampoline has no call of the source. -/
theorem irgenEmitMainTrampoline_lowered (r : Registries) (d : FnDecl) (mangled : String)
    (s : GenState) :
    LoweredFrom r .trampoline (irgenEmitMainTrampoline d mangled s).1 ∧
    (irgenEmitMainTrampoline d mangled s).2.names = s.names := by
  have hcalls : (irgenEmitMainTrampoline d mangled s).1.calls = [] := by
    unfold irgenEmitMainTrampoline emitRetOf
    split <;> rfl
  refine ⟨⟨rfl, rfl, by simp [hcalls], fun h => absurd rfl h⟩, ?_⟩
  unfold irgenEmitMainTrampoline emitRetOf
  split <;> rfl

/-! ## The registries along a program -/

/-- The functions of the agents from the `k`-th on. -/
def agentFnsFrom : Nat → List Decl → List (Nat × String × FnDecl)
  | _, [] => []
  | k, .agent a :: ds => a.fns.map (fun d => (k, a.name, d)) ++ agentFnsFrom (k + 1) ds
  | k, _ :: ds => agentFnsFrom k ds

/-- The entry of the registry for a function of an agent. -/
def agentEntry (e : Nat × String × FnDecl) : AgentFn where
  agentKebab := kebabCase e.2.1
  fnName := e.2.2.name
  irSymbol := scopedSymbol (kebabCase e.2.1) e.2.2.name
  retType := astTypeToIr e.2.2.returnType

/-- When the function `o` is lowered, the module functions are `mods`, the
current agent is that of `o`, and the agent functions are those of `fns` up to
that agent, as far as the table holds them. -/
structure TablesFor (mods : List ModuleFn) (fns : List (Nat × String × FnDecl)) (o : Origin)
    (r : Registries) : Prop where
  modules : r.moduleFnRegistry = mods
  outside : (∀ k a n, o ≠ .ofAgent k a n) → r.currentAgentKebab = none
  inside : ∀ k a n, o = .ofAgent k a n → r.currentAgentKebab = some (kebabCase a) ∧
    ∀ e, e ∈ r.agentFnRegistry ↔ ∃ x ∈ fns.take maxAgentFns, x.1 ≤ k ∧ agentEntry x = e

theorem registerAgentFns_eq (a : String) (k : Nat) : ∀ (ds : List FnDecl) (r : Registries),
    r.agentFnRegistry.length ≤ maxAgentFns →
    r.registerAgentFns (kebabCase a) ds = { r with agentFnRegistry :=
      (r.agentFnRegistry ++ ds.map (fun d => agentEntry (k, a, d))).take maxAgentFns }
  | [], r, h => by simp [Registries.registerAgentFns, List.take_of_length_le h]
  | d :: ds, r, h => by
      unfold Registries.registerAgentFns
      split
      · rename_i hfull
        have hlen : r.agentFnRegistry.length = maxAgentFns := Nat.le_antisymm h hfull
        simp [← hlen]
      · rename_i hroom
        rw [registerAgentFns_eq a k ds _ (by simp; omega)]
        simp [agentEntry]

/-- What holds of the registries between two declarations, when the agents so
far had the functions `pre`. -/
structure Between (mods : List ModuleFn) (pre : List (Nat × String × FnDecl)) (k : Nat)
    (r : Registries) : Prop where
  modules : r.moduleFnRegistry = mods
  outside : r.currentAgentKebab = none
  entries : r.agentFnRegistry = (pre.map agentEntry).take maxAgentFns
  indices : ∀ x ∈ pre, x.1 < k

theorem agentFnSymbol_eq {r : Registries} {kebab : String} (d : FnDecl)
    (hcur : r.currentAgentKebab = some kebab)
    (hent : ∀ e ∈ r.agentFnRegistry, e.irSymbol = scopedSymbol e.agentKebab e.fnName) :
    agentFnSymbol r kebab d = scopedSymbol kebab d.name := by
  unfold agentFnSymbol
  cases h : r.lookupAgentLocal d.name with
  | none => rfl
  | some e =>
      simp only [Registries.lookupAgentLocal, hcur] at h
      have hkey := List.find?_some h
      simp only [Bool.and_eq_true, beq_iff_eq] at hkey
      show e.irSymbol = _
      rw [hent e (List.mem_of_find?_eq_some h), hkey.1, hkey.2]

/-- The registry while an agent is lowered, as a part of the whole list. -/
theorem mem_take_agents {pre own later : List (Nat × String × FnDecl)} {k n : Nat}
    (hpre : ∀ x ∈ pre, x.1 < k) (hown : ∀ x ∈ own, x.1 = k) (hlater : ∀ x ∈ later, k < x.1)
    (e : AgentFn) :
    e ∈ ((pre ++ own).map agentEntry).take n ↔
      ∃ x ∈ (pre ++ own ++ later).take n, x.1 ≤ k ∧ agentEntry x = e := by
  have hsplit : (pre ++ own ++ later).take n = _ := List.take_append
  rw [← List.map_take, List.mem_map, hsplit]
  constructor
  · rintro ⟨x, hx, rfl⟩
    refine ⟨x, List.mem_append_left _ hx, ?_, rfl⟩
    rcases List.mem_append.mp (List.mem_of_mem_take hx) with h | h
    · exact Nat.le_of_lt (hpre x h)
    · exact Nat.le_of_eq (hown x h)
  · rintro ⟨x, hx, hk, rfl⟩
    rcases List.mem_append.mp hx with h | h
    · exact ⟨x, h, rfl⟩
    · exact absurd (hlater x (List.mem_of_mem_take h)) (Nat.not_lt.mpr hk)

/-- Pass B of an agent. -/
theorem irgenAgentFns_lowered (wit : HostErrors) (k : Nat) (agent : String) {r : Registries}
    (hcur : r.currentAgentKebab = some (kebabCase agent))
    (hent : ∀ e ∈ r.agentFnRegistry, e.irSymbol = scopedSymbol e.agentKebab e.fnName) :
    ∀ (ds : List FnDecl) (s : GenState), s.names = r →
      List.Forall₂ (LoweredFrom r) (ds.map (fun d => .ofAgent k agent d.name))
        (irgenAgentFns wit k agent ds s).1 ∧
      (irgenAgentFns wit k agent ds s).2.names = r
  | [], _, h => ⟨.nil, h⟩
  | d :: ds, s, h => by
      obtain ⟨hl, hn⟩ := irgenAgentFunctionNamed_lowered wit (o := .ofAgent k agent d.name)
        (agentFnSymbol_eq d (h ▸ hcur) (h ▸ hent)) d s
      obtain ⟨hls, hns⟩ := irgenAgentFns_lowered wit k agent hcur hent ds _ (hn.trans h)
      exact ⟨.cons (h ▸ hl) hls, hns⟩

@[simp] theorem registerFn_tables (r : Registries) (name : String) (t : IrType) :
    (r.registerFn name t).moduleFnRegistry = r.moduleFnRegistry ∧
    (r.registerFn name t).agentFnRegistry = r.agentFnRegistry ∧
    (r.registerFn name t).currentAgentKebab = r.currentAgentKebab ∧
    (r.registerFn name t).hasUnmangledMain = r.hasUnmangledMain := by
  unfold Registries.registerFn
  split <;> exact ⟨rfl, rfl, rfl, rfl⟩

/-- Pass C of an agent: the trampoline, and what it leaves of the registries. -/
theorem irgenAgentMain_lowered (kebab : String) (fns : List FnDecl) (s : GenState) :
    (∀ R : Origin → Lowered → Prop, (∀ l, (∀ r, LoweredFrom r .trampoline l) → R .trampoline l) →
      List.Forall₂ R
        (if fns.any (·.name == "main") && !s.names.hasUnmangledMain then [.trampoline] else [])
        (irgenAgentMain s.names kebab fns s).1) ∧
    ∃ r, (irgenAgentMain s.names kebab fns s).2.names = r ∧
      r.moduleFnRegistry = s.names.moduleFnRegistry ∧
      r.agentFnRegistry = s.names.agentFnRegistry ∧
      r.currentAgentKebab = s.names.currentAgentKebab ∧
      r.hasUnmangledMain = (s.names.hasUnmangledMain || fns.any (·.name == "main")) := by
  have hany : fns.any (·.name == "main") = (fns.find? (fun d => d.name == "main")).isSome := by
    rw [Bool.eq_iff_iff, List.find?_isSome, List.any_eq_true]
  rw [hany]
  unfold irgenAgentMain
  cases hf : fns.find? (fun d => d.name == "main") with
  | none => exact ⟨fun _ _ => .nil, s.names, rfl, rfl, rfl, rfl, by simp⟩
  | some d =>
      cases hm : s.names.hasUnmangledMain with
      | true => exact ⟨fun _ _ => .nil, s.names, rfl, rfl, rfl, rfl, by simp [hm]⟩
      | false =>
          let mangled := agentFnSymbol { s.names with currentAgentKebab := some kebab } kebab d
          have hn : (irgenEmitMainTrampoline d mangled s).2.names = s.names :=
            (irgenEmitMainTrampoline_lowered s.names d mangled s).2
          obtain ⟨h₁, h₂, h₃, h₄⟩ := registerFn_tables
            { (irgenEmitMainTrampoline d mangled s).2.names with hasUnmangledMain := true } "main"
            (astTypeToIr d.returnType)
          have hl : ∀ r, LoweredFrom r .trampoline (irgenEmitMainTrampoline d mangled s).1 :=
            fun r => (irgenEmitMainTrampoline_lowered r d mangled s).1
          exact ⟨fun R hR => .cons (hR _ hl) .nil, _, rfl,
            h₁.trans (by rw [hn]), h₂.trans (by rw [hn]), h₃.trans (by rw [hn]), h₄.trans (by simp)⟩

theorem take_take_append {α : Type} (xs ys : List α) (n : Nat) :
    (xs.take n ++ ys).take n = (xs ++ ys).take n := by
  rw [List.take_append, List.take_append, List.take_take, Nat.min_self, List.length_take]
  congr 2
  omega

/-- One agent: its functions, and the trampoline if it is due. -/
theorem irgenAgent_lowered (wit : HostErrors) {mods : List ModuleFn}
    {pre : List (Nat × String × FnDecl)} {k : Nat} (a : AgentDecl) (s : GenState)
    (later : List (Nat × String × FnDecl)) (hs : Between mods pre k s.names) (hlater : ∀ x ∈ later, k < x.1) :
    let own := a.fns.map (fun d => (k, a.name, d))
    let out := irgenAgent wit k a s
    List.Forall₂ (fun o l => ∃ r, LoweredFrom r o l ∧
        TablesFor mods (pre ++ own ++ later) o r)
      (a.fns.map (fun d => .ofAgent k a.name d.name) ++
        (if a.fns.any (·.name == "main") && !s.names.hasUnmangledMain then [.trampoline] else []))
      out.1 ∧
    Between mods (pre ++ own) (k + 1) out.2.names ∧
    out.2.names.hasUnmangledMain = (s.names.hasUnmangledMain || a.fns.any (·.name == "main")) := by
  intro own out
  have hroom : s.names.agentFnRegistry.length ≤ maxAgentFns := by
    rw [hs.entries, List.length_take]
    exact Nat.min_le_left _ _
  have hreg := registerAgentFns_eq a.name k a.fns s.names hroom
  -- the registries while the functions of the agent are lowered
  let r : Registries := { s.names.registerAgentFns (kebabCase a.name) a.fns with
    currentAgentKebab := some (kebabCase a.name) }
  have hr : r = { s.names with
      agentFnRegistry := ((pre ++ own).map agentEntry).take maxAgentFns
      currentAgentKebab := some (kebabCase a.name) } := by
    simp only [r, hreg, hs.entries, own, List.map_append, List.map_map, Function.comp_def]
    congr 1
    exact take_take_append _ _ _
  have hent : ∀ e ∈ r.agentFnRegistry, e.irSymbol = scopedSymbol e.agentKebab e.fnName := by
    rw [hr]
    intro e he
    obtain ⟨x, -, rfl⟩ := List.mem_map.mp (List.mem_of_mem_take he)
    rfl
  obtain ⟨hfns, hn⟩ := irgenAgentFns_lowered wit k a.name (r := r) rfl hent a.fns
    { s with names := r } rfl
  let mid := (irgenAgentFns wit k a.name a.fns { s with names := r }).2
  let after : GenState := { mid with names := { mid.names with currentAgentKebab := none } }
  have hafter : after.names = { r with currentAgentKebab := none } :=
    congrArg (fun t : Registries => { t with currentAgentKebab := none }) hn
  have hflag : after.names.hasUnmangledMain = s.names.hasUnmangledMain := by rw [hafter, hr]
  obtain ⟨htr, r', hr', hmods', hfns', hcur', hmain'⟩ :=
    irgenAgentMain_lowered (kebabCase a.name) a.fns after
  have hrun : out = ((irgenAgentFns wit k a.name a.fns { s with names := r }).1 ++
      (irgenAgentMain after.names (kebabCase a.name) a.fns after).1,
      (irgenAgentMain after.names (kebabCase a.name) a.fns after).2) := rfl
  have hown : ∀ x ∈ own, x.1 = k := by
    intro x hx
    obtain ⟨d, -, rfl⟩ := List.mem_map.mp hx
    rfl
  rw [hrun, hr', hmain', hflag]
  refine ⟨List.rel_append ?_ ?_, ⟨?_, ?_, ?_, ?_⟩, rfl⟩
  · -- the functions see the agents up to this one
    refine List.forall₂_map_left_iff.mpr ((List.forall₂_map_left_iff.mp hfns).imp ?_)
    refine fun d l hl => ⟨r, hl, by rw [hr]; exact hs.modules, fun h => absurd rfl (h _ _ _), ?_⟩
    rintro k' a' n' h
    obtain ⟨rfl, rfl, -⟩ := Origin.ofAgent.inj h
    refine ⟨rfl, fun e => ?_⟩
    rw [hr]
    exact mem_take_agents hs.indices hown hlater e
  · rw [hflag] at htr
    refine htr _ fun l hl => ⟨s.names, hl s.names, hs.modules, fun _ => hs.outside, ?_⟩
    rintro _ _ _ ⟨⟩
  · rw [hmods', hafter, hr]
    exact hs.modules
  · rw [hcur', hafter]
  · rw [hfns', hafter, hr]
  · intro x hx
    rcases List.mem_append.mp hx with h | h
    · exact Nat.lt_succ_of_lt (hs.indices x h)
    · exact Nat.lt_succ_of_le (Nat.le_of_eq (hown x h))

theorem FnDecl.origin_ne_ofAgent (d : FnDecl) (k : Nat) (a n : String) :
    FnDecl.origin d ≠ .ofAgent k a n := by
  unfold FnDecl.origin
  split
  · split <;> rintro ⟨⟩
  · rintro ⟨⟩

theorem agentFnsFrom_index : ∀ (ds : List Decl) (k : Nat), ∀ x ∈ agentFnsFrom k ds, k ≤ x.1
  | [], _, _, h => nomatch h
  | .agent a :: ds, k, x, h => by
      rcases List.mem_append.mp h with h | h
      · obtain ⟨d, -, rfl⟩ := List.mem_map.mp h
        exact Nat.le_refl k
      · exact Nat.le_of_succ_le (agentFnsFrom_index ds (k + 1) x h)
  | .fn _ :: ds, k, x, h => agentFnsFrom_index ds k x h
  | .other :: ds, k, x, h => agentFnsFrom_index ds k x h

/-- The functions of a list of declarations, each with the registries it was
lowered with. -/
theorem irgenDecls_lowered (wit : HostErrors) {mods : List ModuleFn}
    {fns : List (Nat × String × FnDecl)} : ∀ (ds : List Decl) (k : Nat)
    (pre : List (Nat × String × FnDecl)) (s : GenState), fns = pre ++ agentFnsFrom k ds →
      Between mods pre k s.names →
      List.Forall₂ (fun o l => ∃ r, LoweredFrom r o l ∧ TablesFor mods fns o r)
        (originsFrom k s.names.hasUnmangledMain ds) (irgenDecls wit k ds s).1
  | [], _, _, _, _, _ => .nil
  | .fn d :: ds, k, pre, s, hfns, hs => by
      obtain ⟨hl, hn⟩ := irgenFunction_lowered wit d s
      obtain ⟨h₁, h₂, h₃, h₄⟩ := registerFn_tables s.names d.name (astTypeToIr d.returnType)
      have hrest := irgenDecls_lowered wit ds k pre (irgenFunction wit d s).2 hfns (by
        rw [hn]
        exact ⟨h₁.trans hs.modules, h₃.trans hs.outside, h₂.trans hs.entries, hs.indices⟩)
      rw [hn, h₄] at hrest
      refine .cons ⟨_, hl, h₁.trans hs.modules, fun _ => h₃.trans hs.outside, ?_⟩ hrest
      intro k' a' n' h
      exact absurd h (FnDecl.origin_ne_ofAgent d k' a' n')
  | .agent a :: ds, k, pre, s, hfns, hs => by
      obtain ⟨hl, hb, hm⟩ := irgenAgent_lowered wit a s (agentFnsFrom (k + 1) ds) hs
        (fun x hx => agentFnsFrom_index ds (k + 1) x hx)
      have hfns' : fns = pre ++ a.fns.map (fun d => (k, a.name, d)) ++ agentFnsFrom (k + 1) ds := by
        rw [hfns, List.append_assoc]
        rfl
      have hrest := irgenDecls_lowered wit ds (k + 1) _ (irgenAgent wit k a s).2 hfns' hb
      rw [hm] at hrest
      rw [← hfns'] at hl
      have happ : originsFrom k s.names.hasUnmangledMain (.agent a :: ds) = _ :=
        (List.append_assoc _ _ _).symm
      rw [happ]
      exact List.rel_append hl hrest
  | .other :: ds, k, pre, s, hfns, hs => irgenDecls_lowered wit ds k pre s hfns hs

/-- Every entry of the module registry has the symbol of its key. -/
def ModulesKeyed (mods : List ModuleFn) : Prop :=
  ∀ e ∈ mods, e.irSymbol = scopedSymbol e.moduleStem e.fnName

theorem preRegister_between {r : Registries} (d : Decl)
    (h : Between r.moduleFnRegistry [] 0 r ∧ ModulesKeyed r.moduleFnRegistry ∧
      r.hasUnmangledMain = false) :
    Between (r.preRegister d).moduleFnRegistry [] 0 (r.preRegister d) ∧
    ModulesKeyed (r.preRegister d).moduleFnRegistry ∧
    (r.preRegister d).hasUnmangledMain = false := by
  obtain ⟨hb, hk, hm⟩ := h
  cases d with
  | fn d =>
      obtain ⟨h₁, h₂, h₃, h₄⟩ := registerFn_tables r d.name (astTypeToIr d.returnType)
      have hfn : Between (r.registerFn d.name (astTypeToIr d.returnType)).moduleFnRegistry [] 0
          (r.registerFn d.name (astTypeToIr d.returnType)) :=
        ⟨rfl, h₃.trans hb.outside, h₂.trans hb.entries, nofun⟩
      have hkfn := h₁ ▸ hk
      simp only [Registries.preRegister]
      split
      · split
        · refine ⟨⟨rfl, hfn.outside, hfn.entries, nofun⟩, ?_, h₄.trans hm⟩
          intro e he
          rcases List.mem_append.mp he with he | he
          · exact hkfn e he
          · obtain rfl := List.mem_singleton.mp he
            rfl
        · exact ⟨hfn, hkfn, h₄.trans hm⟩
      · exact ⟨hfn, hkfn, h₄.trans hm⟩
  | agent a => exact ⟨hb, hk, hm⟩
  | other => exact ⟨hb, hk, hm⟩

theorem firstPass_between (p : Program) :
    Between (firstPass p).moduleFnRegistry [] 0 (firstPass p) ∧
    ModulesKeyed (firstPass p).moduleFnRegistry ∧ (firstPass p).hasUnmangledMain = false := by
  have run : ∀ (ds : List Decl) (r : Registries),
      (Between r.moduleFnRegistry [] 0 r ∧ ModulesKeyed r.moduleFnRegistry ∧
        r.hasUnmangledMain = false) →
      Between (ds.foldl Registries.preRegister r).moduleFnRegistry [] 0
          (ds.foldl Registries.preRegister r) ∧
        ModulesKeyed (ds.foldl Registries.preRegister r).moduleFnRegistry ∧
        (ds.foldl Registries.preRegister r).hasUnmangledMain = false := by
    intro ds
    induction ds with
    | nil => exact fun _ h => h
    | cons d ds ih => exact fun r h => ih _ (preRegister_between d h)
  exact run p.decls {} ⟨⟨rfl, rfl, rfl, nofun⟩, nofun, rfl⟩

/-! ## Symbols of a program -/

/-- The functions of a program, each with the registries it was lowered with. -/
theorem lowerProgram_lowered (wit : HostErrors) (p : Program) :
    List.Forall₂ (fun o l => ∃ r, LoweredFrom r o l ∧
      TablesFor (firstPass p).moduleFnRegistry (agentFnsFrom 0 p.decls) o r)
      (origins p) (lowerProgram wit p) := by
  obtain ⟨hb, -, hm⟩ := firstPass_between p
  have h := irgenDecls_lowered wit p.decls 0 [] { names := firstPass p } rfl hb
  rw [hm] at h
  exact h

theorem lowerProgram_names (wit : HostErrors) (p : Program) :
    (lowerProgram wit p).map (·.fn.name) = (origins p).map Origin.symbol := by
  have h := lowerProgram_lowered wit p
  generalize origins p = os at h ⊢
  generalize lowerProgram wit p = ls at h ⊢
  induction h with
  | nil => rfl
  | cons hl _ ih =>
      obtain ⟨r, hl, -⟩ := hl
      rw [List.map_cons, List.map_cons, ih, hl.name]

/-- What is known of one function of a program. -/
theorem lowerProgram_mem {wit : HostErrors} {p : Program} {l : Lowered}
    (hl : l ∈ lowerProgram wit p) : l.origin ∈ origins p ∧ ∃ r, LoweredFrom r l.origin l ∧
      TablesFor (firstPass p).moduleFnRegistry (agentFnsFrom 0 p.decls) l.origin r := by
  have h := lowerProgram_lowered wit p
  generalize origins p = os at h ⊢
  generalize lowerProgram wit p = ls at h hl
  induction h with
  | nil => cases hl
  | cons hr _ ih =>
      rcases List.mem_cons.mp hl with rfl | hl
      · obtain ⟨r, hlow, htab⟩ := hr
        obtain rfl := hlow.origin
        exact ⟨List.mem_cons_self, r, hlow, htab⟩
      · exact ⟨List.mem_cons_of_mem _ (ih hl).1, (ih hl).2⟩

theorem origins_mem (wit : HostErrors) {p : Program} {o : Origin} (ho : o ∈ origins p) :
    ∃ l ∈ lowerProgram wit p, l.origin = o ∧ l.fn.name = o.symbol := by
  have h := lowerProgram_lowered wit p
  generalize origins p = os at h ho
  generalize lowerProgram wit p = ls at h ⊢
  induction h with
  | nil => cases ho
  | cons hr _ ih =>
      rcases List.mem_cons.mp ho with rfl | ho
      · obtain ⟨r, hlow, -⟩ := hr
        exact ⟨_, List.mem_cons_self, hlow.origin, hlow.name⟩
      · obtain ⟨l, hl, h⟩ := ih ho
        exact ⟨l, List.mem_cons_of_mem _ hl, h⟩

/-- When agent `k` is lowered, the table has an entry for `f` under its name in
snake case: a function of this agent, or of an earlier one of that name. -/
def Registered (p : Program) (k : Nat) (agent f : String) : Prop :=
  ∃ x ∈ (agentFnsFrom 0 p.decls).take maxAgentFns,
    x.1 ≤ k ∧ kebabCase x.2.1 = kebabCase agent ∧ x.2.2.name = f

section
variable {p : Program} {mods : List ModuleFn} {o : Origin} {r : Registries} {f sym : String}
  (ht : TablesFor mods (agentFnsFrom 0 p.decls) o r)
include ht

/-- Outside agents an unqualified name means the main file. -/
theorem resolve_plain_outside (ho : ∀ k a n, o ≠ .ofAgent k a n)
    (h : r.resolve (.plain f) = some sym) : sym = (Origin.main f).symbol := by
  have hnone : r.lookupAgentLocal f = none := by
    simp [Registries.lookupAgentLocal, ht.outside ho]
  simp only [Registries.resolve, Registries.callTarget, hnone, Option.some.injEq] at h
  exact h.symm

/-- In an agent the table comes first. -/
theorem resolve_plain_inside {k : Nat} {a n : String} (ho : o = .ofAgent k a n)
    (h : r.resolve (.plain f) = some sym) :
    (Registered p k a f → sym = (Origin.ofAgent k a f).symbol) ∧
    (¬ Registered p k a f → sym = (Origin.main f).symbol) := by
  obtain ⟨hcur, hent⟩ := ht.inside k a n ho
  simp only [Registries.resolve, Registries.callTarget, Option.some.injEq] at h
  cases hf : r.lookupAgentLocal f with
  | none =>
      simp only [hf] at h
      refine ⟨?_, fun _ => h.symm⟩
      rintro ⟨x, hx, hk, hkebab, hname⟩
      simp only [Registries.lookupAgentLocal, hcur, List.find?_eq_none, Bool.and_eq_true,
        beq_iff_eq, not_and] at hf
      exact absurd hname (hf _ ((hent _).mpr ⟨x, hx, hk, rfl⟩) hkebab)
  | some e =>
      simp only [hf] at h
      simp only [Registries.lookupAgentLocal, hcur] at hf
      have hkey := List.find?_some hf
      simp only [Bool.and_eq_true, beq_iff_eq] at hkey
      obtain ⟨x, hx, hk, rfl⟩ := (hent e).mp (List.mem_of_find?_eq_some hf)
      refine ⟨fun _ => ?_, fun hno => absurd ⟨x, hx, hk, hkey⟩ hno⟩
      rw [← h]
      show scopedSymbol (kebabCase x.2.1) x.2.2.name = scopedSymbol (kebabCase a) f
      rw [show kebabCase x.2.1 = kebabCase a from hkey.1, show x.2.2.name = f from hkey.2]

/-- A qualified name means the function of the module. -/
theorem resolve_qualified (hm : ModulesKeyed mods) {stem : String}
    (h : r.resolve (.qualified stem f) = some sym) : sym = (Origin.ofModule stem f).symbol := by
  obtain ⟨e, he, rfl⟩ := Option.map_eq_some_iff.mp h
  have hkey := List.find?_some he
  simp only [Bool.and_eq_true, beq_iff_eq] at hkey
  have hmem : e ∈ mods := ht.modules ▸ List.mem_of_find?_eq_some he
  rw [hm e hmem, hkey.1, hkey.2]
  rfl

end

/-- The condition: labels differ, and the unqualified calls that are lowered
mean what the registries say.

* In a module no call names a sibling, unless the label of the sibling is the
  one its name has in the main file.
* In an agent the sibling that a call names is in the table, with the same
  exception; and a name that the agent does not declare, but the main file does,
  is not in the table for an earlier agent. -/
structure NamesClear (wit : HostErrors) (p : Program) : Prop where
  labels : ((origins p).map Origin.label).Nodup
  modules : ∀ l ∈ lowerProgram wit p, ∀ stem n f sym, l.origin = .ofModule stem n →
    (CallRef.plain f, sym) ∈ l.calls → .ofModule stem f ∈ origins p →
    (Origin.main f).label = (Origin.ofModule stem f).label
  siblings : ∀ l ∈ lowerProgram wit p, ∀ k a n f sym, l.origin = .ofAgent k a n →
    (CallRef.plain f, sym) ∈ l.calls → .ofAgent k a f ∈ origins p →
    Registered p k a f ∨ (Origin.main f).label = (Origin.ofAgent k a f).label
  mainFile : ∀ l ∈ lowerProgram wit p, ∀ k a n f sym, l.origin = .ofAgent k a n →
    (CallRef.plain f, sym) ∈ l.calls → .ofAgent k a f ∉ origins p → .main f ∈ origins p →
    ¬ Registered p k a f

theorem refersTo_mem {p : Program} {caller o : Origin} {ref : CallRef}
    (h : refersTo p caller ref = some o) : o ∈ origins p := by
  cases ref with
  | plain f => simpa using List.find?_some h
  | qualified stem f => simpa using List.find?_some h
  | computed => cases h

/-- Calls go where they should exactly if every recorded symbol is that of the
declaration the call refers to. -/
theorem callsResolve_iff_symbols (wit : HostErrors) (p : Program) :
    CallsResolve wit p ↔ ((origins p).map Origin.label).Nodup ∧
      ∀ l ∈ lowerProgram wit p, ∀ c ∈ l.calls, ∀ o, refersTo p l.origin c.1 = some o →
        c.2 = o.symbol := by
  have hnames : ((lowerProgram wit p).map (·.fn.name)).Nodup ↔
      ((origins p).map Origin.label).Nodup := by
    rw [lowerProgram_names, List.Nodup, List.Nodup, List.pairwise_map, List.pairwise_map]
    exact ⟨fun h => h.imp fun hne => mt Origin.symbol_inj.mpr hne,
      fun h => h.imp fun hne => mt Origin.symbol_inj.mp hne⟩
  constructor
  · intro h
    refine ⟨hnames.mp h.distinct, fun l hl c hc o ho => ?_⟩
    obtain ⟨l', hl', rfl, hsym⟩ := h.calls l hl c hc o ho
    obtain ⟨-, r, hlow, -⟩ := lowerProgram_mem hl'
    rw [hsym, hlow.name]
  · rintro ⟨hlab, hcalls⟩
    refine ⟨hnames.mpr hlab, fun l hl c hc o ho => ?_⟩
    obtain ⟨l', hl', horigin, hname⟩ := origins_mem wit (refersTo_mem ho)
    exact ⟨l', hl', horigin, (hcalls l hl c hc o ho).trans hname.symm⟩

theorem agentFns_origins : ∀ (ds : List Decl) (k : Nat) (b : Bool), ∀ x ∈ agentFnsFrom k ds,
    .ofAgent x.1 x.2.1 x.2.2.name ∈ originsFrom k b ds
  | [], _, _, _, h => nomatch h
  | .fn _ :: ds, k, b, x, h => List.mem_cons_of_mem _ (agentFns_origins ds k b x h)
  | .agent a :: ds, k, b, x, h => by
      rcases List.mem_append.mp h with h | h
      · obtain ⟨d, hd, rfl⟩ := List.mem_map.mp h
        exact List.mem_append_left _ (List.mem_map.mpr ⟨d, hd, rfl⟩)
      · exact List.mem_append_right _ (List.mem_append_right _ (agentFns_origins ds _ _ x h))
  | .other :: ds, k, b, x, h => agentFns_origins ds k b x h

/-- A name in the table is the name of a declared function with the same label. -/
theorem Registered.declared {p : Program} {k : Nat} {a f : String} (h : Registered p k a f) :
    ∃ j b, .ofAgent j b f ∈ origins p ∧
      (Origin.ofAgent j b f).label = (Origin.ofAgent k a f).label := by
  obtain ⟨x, hx, -, hkebab, rfl⟩ := h
  refine ⟨x.1, x.2.1, agentFns_origins p.decls 0 false x (List.mem_of_mem_take hx), ?_⟩
  simp only [Origin.label, hkebab]

theorem refersTo_module {p : Program} {stem n f : String} (h : .ofModule stem f ∈ origins p) :
    refersTo p (.ofModule stem n) (.plain f) = some (.ofModule stem f) := by
  simp [refersTo, Origin.candidates, h]

theorem refersTo_agent {p : Program} {k : Nat} {a n f : String}
    (h : .ofAgent k a f ∈ origins p) :
    refersTo p (.ofAgent k a n) (.plain f) = some (.ofAgent k a f) := by
  simp [refersTo, Origin.candidates, h]

/-- A name that is not declared next to the caller means the main file. -/
theorem refersTo_main {p : Program} {caller o : Origin} {f : String}
    (h : refersTo p caller (.plain f) = some o)
    (hno : ∀ c ∈ caller.candidates f, c ∈ origins p → c = .main f) : o = .main f := by
  exact hno o (List.mem_of_find?_eq_some h) (refersTo_mem h)

/-- Names are distinct and calls go to the function they refer to, exactly
under the condition `NamesClear`. -/
theorem callsResolve_iff (wit : HostErrors) (p : Program) :
    CallsResolve wit p ↔ NamesClear wit p := by
  rw [callsResolve_iff_symbols]
  constructor
  · rintro ⟨hlab, hcalls⟩
    refine ⟨hlab, ?_, ?_, ?_⟩
    · intro l hl stem n f sym ho hc hdecl
      obtain ⟨-, r, hlow, ht⟩ := lowerProgram_mem hl
      have hright := hcalls l hl _ hc _ (ho ▸ refersTo_module hdecl)
      have hgot := resolve_plain_outside ht (ho ▸ nofun) (hlow.symbols _ hc)
      exact Origin.symbol_inj.mp (hgot.symm.trans hright)
    · intro l hl k a n f sym ho hc hdecl
      obtain ⟨-, r, hlow, ht⟩ := lowerProgram_mem hl
      have hright := hcalls l hl _ hc _ (ho ▸ refersTo_agent hdecl)
      by_cases hreg : Registered p k a f
      · exact .inl hreg
      · have hgot := (resolve_plain_inside ht ho (hlow.symbols _ hc)).2 hreg
        exact .inr (Origin.symbol_inj.mp (hgot.symm.trans hright))
    · intro l hl k a n f sym ho hc hown hmain hreg
      obtain ⟨-, r, hlow, ht⟩ := lowerProgram_mem hl
      have hmeans : refersTo p l.origin (.plain f) = some (.main f) := by
        simp [ho, refersTo, Origin.candidates, hown, hmain]
      have hright := hcalls l hl _ hc _ hmeans
      have hgot := (resolve_plain_inside ht ho (hlow.symbols _ hc)).1 hreg
      obtain ⟨j, b, hjb, hlabel⟩ := hreg.declared
      have hsame : (Origin.main f).label = (Origin.ofAgent j b f).label :=
        (Origin.symbol_inj.mp (hright.symm.trans hgot)).trans hlabel.symm
      exact nomatch List.inj_on_of_nodup_map hlab hmain hjb hsame
  · intro h
    refine ⟨h.labels, fun l hl c hc o ho => ?_⟩
    obtain ⟨-, r, hlow, ht⟩ := lowerProgram_mem hl
    obtain ⟨ref, sym⟩ := c
    have hsym := hlow.symbols _ hc
    cases ref with
    | computed => cases ho
    | qualified stem f =>
        have hfind : [Origin.ofModule stem f].find? (· ∈ origins p) = some o := ho
        obtain rfl := List.mem_singleton.mp (List.mem_of_find?_eq_some hfind)
        exact resolve_qualified ht (firstPass_between p).2.1 hsym
    | plain f =>
        have outside : (∀ k a n, l.origin ≠ .ofAgent k a n) → sym = (Origin.main f).symbol :=
          fun hno => resolve_plain_outside ht hno hsym
        cases horigin : l.origin with
        | main n =>
            rw [refersTo_main ho (by simp [horigin, Origin.candidates])]
            exact outside (horigin ▸ nofun)
        | trampoline =>
            rw [refersTo_main ho (by simp [horigin, Origin.candidates])]
            exact outside (horigin ▸ nofun)
        | ofModule stem n =>
            rw [outside (horigin ▸ nofun)]
            by_cases hdecl : .ofModule stem f ∈ origins p
            · obtain rfl := Option.some.inj ((horigin ▸ refersTo_module hdecl).symm.trans ho)
              exact Origin.symbol_inj.mpr (h.modules l hl stem n f sym horigin hc hdecl)
            · rw [refersTo_main ho (by simp [horigin, Origin.candidates, hdecl])]
        | ofAgent k a n =>
            obtain ⟨hin, hout⟩ := resolve_plain_inside ht horigin hsym
            by_cases hdecl : .ofAgent k a f ∈ origins p
            · obtain rfl := Option.some.inj ((horigin ▸ refersTo_agent hdecl).symm.trans ho)
              by_cases hreg : Registered p k a f
              · exact hin hreg
              · have hlabel := (h.siblings l hl k a n f sym horigin hc hdecl).resolve_left hreg
                exact (hout hreg).trans (Origin.symbol_inj.mpr hlabel)
            · obtain rfl := refersTo_main ho (by simp [horigin, Origin.candidates, hdecl])
              exact hout (h.mainFile l hl k a n f sym horigin hc hdecl (refersTo_mem ho))

/-- Module `helpers` with `fn shout() { pad() }` and `fn pad() { }`, and a main
file that does not declare `pad`. -/
def siblingProgram : Program where
  decls := [.fn { name := "shout", stem := some "helpers"
                  body := [.expr (.call (.ident "pad") [])] },
    .fn { name := "pad", stem := some "helpers" }]

/-- `pad()` in the module becomes a call of `lcn_pad`; `pad` is
`lcn___helpers_pad`. -/
theorem callsResolve_sibling : ¬ ∀ (wit : HostErrors) (p : Program), CallsResolve wit p := by
  intro h
  have hcalls := ((callsResolve_iff_symbols .empty siblingProgram).mp (h .empty siblingProgram)).2
  have hmem : ∃ l ∈ lowerProgram .empty siblingProgram,
      l.origin = .ofModule "helpers" "shout" ∧ (CallRef.plain "pad", "lcn_pad") ∈ l.calls := by
    decide +kernel
  obtain ⟨l, hl, horigin, hc⟩ := hmem
  have hright := hcalls l hl _ hc (.ofModule "helpers" "pad") (by rw [horigin]; decide)
  exact absurd hright (by decide)

end Limceron.Gen
