/-
# `Limceron.Wasm.Fences` — the budget fences of a host call

An emitted module has three counters, initialised from the first agent that
declares them.  Every host call whose capability costs something is preceded by
three fences, each of which tests one counter and decrements it:

| fence | counter | width | on refusal |
| :-- | :-- | --: | --: |
| entropy | `$entropy_remaining` | 32 | -9 |
| tokens | `$tokens_remaining` | 32 | -10 |
| cost | `$cost_micro_usd_remaining` | 64 | -10 |

Behind the fences the arguments are marshalled, and then the host is called.  A
fence that refuses returns from the function and does not undo the decrements of
the fences before it; nor does a load that traps while a string argument is
marshalled.  `fences_iff` says which runs keep the books nevertheless.

A run is a sequence of visits to host-call sites of the module, in any order:
nothing else in the emitted code names the counters, and behind the call a site
does not touch them, so a re-entry from the host comes after the call it came
from.
-/
import Limceron.IR.Semantics
import Limceron.Lang.Ast
import Limceron.Lib.Ledger
import Limceron.Wasm.Layout

namespace Limceron.Wasm

/-! ## Counters and costs -/

inductive Counter where
  | entropy | tokens | cost
  deriving DecidableEq, Repr

/-- The width of the global. -/
def Counter.bits : Counter → Nat
  | .entropy | .tokens => 32
  | .cost => 64

/-- The values of the three globals. -/
abbrev Counters := (g : Counter) → BitVec g.bits

def entropyCostFor (qname : String) : Int :=
  if qname = "llm.classify" then 1
  else if qname = "llm.chat" then 4
  else 0

def tokenCostFor (qname : String) : Int :=
  if qname = "llm.classify" then 100
  else if qname = "llm.chat" then 1000
  else 0

def costMicroUsdFor (qname : String) : Int :=
  if qname = "llm.classify" then 500
  else if qname = "llm.chat" then 30000
  else 0

/-- What a call to `qname` costs. -/
def callCost (qname : String) : Counter → Int
  | .entropy => entropyCostFor qname
  | .tokens => tokenCostFor qname
  | .cost => costMicroUsdFor qname

/-! ## The declared budgets -/

def entropyUnbounded : BitVec 64 := 2147483647
def tokensUnbounded : BitVec 32 := 2147483647
def costUnbounded : BitVec 64 := 9223372036854775807

/-- `agent_entropy_budget_bits`; `none` is `-1`. -/
def agentEntropyBudgetBits (fields : List AgentField) : Option (BitVec 32) :=
  match fields.find? (fun f => f.name == "entropy_budget") with
  | some ⟨_, .lit (.int v)⟩ =>
      if v.slt 0 then some 0
      else if entropyUnbounded.slt v then some (entropyUnbounded.setWidth 32)
      else some (v.setWidth 32)
  | _ => none

/-- `scan_entropy_budget` over the fields of each agent. -/
def scanEntropyBudget (agents : List (List AgentField)) : BitVec 32 :=
  (agents.findSome? agentEntropyBudgetBits).getD (entropyUnbounded.setWidth 32)

section
variable (fa : FloatArith)

/-- `budget_field_value`: a `double`. -/
def budgetFieldValue : Option FieldLit → Option (BitVec 64)
  | some (.int v) => some (fa.ofInt v)
  | some (.float bits) => some bits
  | _ => none

/-- The doubles `0`, `2147483647`, `1000000`, `2^63` (which is what
`9223372036854775807` rounds to) and `0.5`. -/
def double0 : BitVec 64 := 0
def doubleIntMax : BitVec 64 := 0x41DFFFFFFFC00000
def doubleMillion : BitVec 64 := 0x412E848000000000
def doubleCostMax : BitVec 64 := 0x43E0000000000000
def doubleHalf : BitVec 64 := 0x3FE0000000000000

/-- The case `max_tokens`. -/
def maxTokens (v : BitVec 64) : BitVec 32 :=
  let v := if fa.lt v double0 then double0 else v
  let v := if fa.lt doubleIntMax v then doubleIntMax else v
  (fa.toInt v).setWidth 32

/-- The case `max_cost`. -/
def maxCost (v : BitVec 64) : BitVec 64 :=
  let micro := fa.mul v doubleMillion
  let micro := if fa.lt micro double0 then double0 else micro
  let micro := if fa.lt doubleCostMax micro then doubleCostMax else micro
  fa.toInt (fa.add micro doubleHalf)

/-- `agent_token_cost_budget`: the tokens and the cost, where found. -/
def agentTokenCostBudget (fields : List AgentField) :
    Option (BitVec 32) × Option (BitVec 64) :=
  match fields.find? (fun f => f.name == "budget") with
  | some ⟨_, .block bfs⟩ =>
      bfs.foldl (fun found bf =>
        match budgetFieldValue fa bf.2 with
        | none => found
        | some v =>
            if bf.1 = "max_tokens" then (some (maxTokens fa v), found.2)
            else if bf.1 = "max_cost" then (found.1, some (maxCost fa v))
            else found) (none, none)
  | _ => (none, none)

/-- `scan_budget`: the first agent that declares either. -/
def scanBudget (agents : List (List AgentField)) : BitVec 32 × BitVec 64 :=
  match agents.find? (fun fields =>
    (agentTokenCostBudget fa fields).1.isSome || (agentTokenCostBudget fa fields).2.isSome) with
  | none => (tokensUnbounded, costUnbounded)
  | some fields =>
      ((agentTokenCostBudget fa fields).1.getD tokensUnbounded,
        (agentTokenCostBudget fa fields).2.getD costUnbounded)

/-- The globals of the module as it is instantiated. -/
def initialCounters (agents : List (List AgentField)) : Counters
  | .entropy => scanEntropyBudget agents
  | .tokens => (scanBudget fa agents).1
  | .cost => (scanBudget fa agents).2

end

/-! ## The instructions around a host call -/

/-- The value a fence returns, in the type of the function. -/
inductive Sentinel where
  | i32 (c : Int)
  | i64 (c : Int)
  | f64 (c : Int)
  deriving DecidableEq, Repr

inductive Instr where
  | localGet (id : Int)
  | localSet (id : Int)
  | drop
  | globalGet (g : Counter)
  | globalSet (g : Counter)
  /-- `i32.const`, `i64.const` and so on, by width. -/
  | const (bits : Nat) (c : Int)
  | sub (bits : Nat)
  | ltS (bits : Nat)
  | i32Load
  | i32WrapI64
  | i64ExtendI32S
  /-- `if`, push the sentinel unless void, `return`, `end`. -/
  | ifReturn (sentinel : Option Sentinel)
  | callImport (site : HostCallSite)
  deriving DecidableEq, Repr

def emitGetValue (vid : Int) : Instr := if vid < 0 then .const 64 0 else .localGet vid

def emitSetValue (vid : Int) : Instr := if vid < 0 then .drop else .localSet vid

/-- The sentinel in the return type of the enclosing function. -/
def sentinel (code : Int) : IrType → Option Sentinel
  | .f64 => some (.f64 code)
  | .bool | .ptr | .string | .struct => some (.i32 code)
  | .void => none
  | .i64 => some (.i64 code)

/-- The shape the three fences share. -/
def emitFence (g : Counter) (code cost : Int) (retType : IrType) : List Instr :=
  if cost ≤ 0 then []
  else
    [.globalGet g, .const g.bits cost, .ltS g.bits, .ifReturn (sentinel code retType),
      .globalGet g, .const g.bits cost, .sub g.bits, .globalSet g]

def emitEntropyFence (cost : Int) (retType : IrType) : List Instr :=
  emitFence .entropy (-9) cost retType

def emitTokenFence (cost : Int) (retType : IrType) : List Instr :=
  emitFence .tokens (-10) cost retType

def emitCostFence (cost : Int) (retType : IrType) : List Instr :=
  emitFence .cost (-10) cost retType

/-- What is pushed for the host. -/
inductive Operand where
  /-- A string argument: its pointer, and its length from the four bytes before. -/
  | str (k : Nat)
  /-- An `i64` argument narrowed to `i32`. -/
  | wrap (k : Nat)
  | value (k : Nat)
  | outBuf
  | outMax
  | confOff
  deriving DecidableEq, Repr

/-- A row of the marshalling cascade: for these names and at least so many
arguments, what is pushed, and whether the `i32` result is sign-extended. -/
structure MarshalRow where
  names : List String
  arity : Nat
  operands : List Operand
  extend : Bool := true
  deriving DecidableEq, Repr

def marshalRows : List MarshalRow :=
  [{ names := ["llm.classify"], arity := 1, operands := [.str 0, .outBuf, .outMax, .confOff] },
   { names := ["llm.chat"], arity := 2, operands := [.str 0, .str 1, .outBuf, .outMax] },
   { names := ["kb.search"], arity := 3, operands := [.str 0, .str 1, .wrap 2, .outBuf, .outMax] },
   { names := ["data.read"], arity := 2, operands := [.str 0, .str 1, .outBuf, .outMax] },
   { names := ["http.fetch"], arity := 3
     operands := [.str 0, .str 1, .str 2, .outBuf, .outMax, .confOff] },
   { names := ["json.parse"], arity := 1, operands := [.str 0, .outBuf, .outMax] },
   { names := ["json.field"], arity := 2, operands := [.wrap 0, .str 1, .outBuf, .outMax] },
   { names := ["json.array_index"], arity := 2
     operands := [.wrap 0, .wrap 1, .outBuf, .outMax] },
   { names := ["json.length"], arity := 1, operands := [.wrap 0] },
   { names := ["json.string_value"], arity := 1, operands := [.wrap 0, .outBuf, .outMax] },
   { names := ["json.int_value"], arity := 1, operands := [.wrap 0], extend := false },
   { names := ["json.bool_value"], arity := 1, operands := [.wrap 0] },
   { names := ["json.is_null"], arity := 1, operands := [.wrap 0] },
   { names := ["json.stringify"], arity := 1, operands := [.wrap 0, .outBuf, .outMax] },
   { names := ["json.field_get", "json.field_get_safe"], arity := 2
     operands := [.wrap 0, .str 1, .outBuf, .outMax] },
   { names := ["json.as_int"], arity := 1, operands := [.wrap 0], extend := false },
   { names := ["json.as_string"], arity := 1, operands := [.wrap 0, .outBuf, .outMax] },
   { names := ["json.as_bool"], arity := 1, operands := [.wrap 0] },
   { names := ["json.array_get"], arity := 2, operands := [.wrap 0, .wrap 1, .outBuf, .outMax] },
   { names := ["json.array_len"], arity := 1, operands := [.wrap 0] },
   { names := ["string.concat"], arity := 2
     operands := [.str 0, .str 1, .outBuf, .outMax], extend := false },
   { names := ["string.from_int", "string.from_bool", "string.from_float"], arity := 1
     operands := [.value 0, .outBuf, .outMax], extend := false },
   { names := ["string.length"], arity := 1, operands := [.str 0] },
   { names := ["math.sqrt", "math.sin", "math.cos", "math.tan", "math.log", "math.exp"]
     arity := 1, operands := [.value 0], extend := false },
   { names := ["math.pow"], arity := 2, operands := [.value 0, .value 1], extend := false },
   { names := ["string.trim", "string.to_upper", "string.to_lower"], arity := 1
     operands := [.str 0, .outBuf, .outMax] },
   { names := ["string.contains", "string.starts_with", "string.ends_with"], arity := 2
     operands := [.str 0, .str 1], extend := false },
   { names := ["string.split", "string.join"], arity := 2, operands := [.str 0, .str 1] },
   { names := ["time.now", "time.now_millis"], arity := 0, operands := [], extend := false },
   { names := ["time.format"], arity := 2, operands := [.value 0, .str 1, .outBuf, .outMax] },
   { names := ["time.parse"], arity := 2, operands := [.str 0, .str 1], extend := false }]

/-- The row that applies; failing all, the arguments as they are. -/
def marshalRow (qname : String) (argc : Nat) : MarshalRow :=
  (marshalRows.find? (fun r => decide (qname ∈ r.names) && decide (r.arity ≤ argc))).getD
    { names := [qname], arity := argc, operands := (List.range argc).map .value }

/-- `inst->call_args[k]`. -/
def callArg (inst : IrInst) (k : Nat) : Int := inst.callArgs.getD k (-1)

def emitOperand (s : HostCallSite) (inst : IrInst) : Operand → List Instr
  | .str k =>
      [emitGetValue (callArg inst k), emitGetValue (callArg inst k), .const 32 4, .sub 32,
        .i32Load]
  | .wrap k => [emitGetValue (callArg inst k), .i32WrapI64]
  | .value k => [emitGetValue (callArg inst k)]
  | .outBuf => [.const 32 s.scratchOff]
  | .outMax => [.const 32 hostOutbufMax]
  | .confOff => [.const 32 (s.scratchOff + hostOutbufMax : Nat)]

/-- Marshal, call, store the result. -/
def emitDispatch (s : HostCallSite) (inst : IrInst) (row : MarshalRow) : List Instr :=
  row.operands.flatMap (emitOperand s inst) ++
    (.callImport s :: (if row.extend then [.i64ExtendI32S] else [])) ++ [emitSetValue inst.id]

def hostCallLookup (ctx : EmitCtx) (qualified : String) : Option HostCallSite :=
  ctx.hostCalls.find? (fun s => s.qualified == qualified)

/-- `emit_instruction`, case `IR_HOST_CALL`. -/
def emitHostCall (ctx : EmitCtx) (fn : IrFunction) (inst : IrInst) : List Instr :=
  let qname := inst.fnName.getD "?"
  match hostCallLookup ctx qname with
  | none => [.const 64 (-1), emitSetValue inst.id]
  | some s =>
      emitEntropyFence (entropyCostFor qname) fn.returnType ++
        (emitTokenFence (tokenCostFor qname) fn.returnType ++
          (emitCostFence (costMicroUsdFor qname) fn.returnType ++
            emitDispatch s inst (marshalRow qname inst.callArgs.length)))

/-! ## Running them

A module is validated before it runs, so operand types are not tracked: a cell
of the stack is 64 bits and an `i32` is its low half. -/

structure Machine where
  globals : Counters
  locals : Int → BitVec 64
  stack : List (BitVec 64)
  /-- The names of the calls that reached the host, oldest first. -/
  dispatched : List String

/-- What a visit finds outside the module's own state: the size of the memory,
its contents, and the answer of the host. -/
structure Outside where
  memBytes : Nat
  load32 : Nat → BitVec 32
  answer : List (BitVec 64) → BitVec 64

inductive Result where
  | next (st : Machine)
  | returned (sentinel : Option Sentinel) (st : Machine)
  | trapped (st : Machine)

namespace Result

/-- The machine, however the code was left. -/
def machine : Result → Machine
  | .next st | .returned _ st | .trapped st => st

def andThen (r : Result) (k : Machine → Result) : Result :=
  match r with
  | .next st => k st
  | .returned v st => .returned v st
  | .trapped st => .trapped st

@[simp] theorem andThen_next (st : Machine) (k : Machine → Result) : (next st).andThen k = k st :=
  rfl

@[simp] theorem andThen_returned (v : Option Sentinel) (st : Machine) (k : Machine → Result) :
    (returned v st).andThen k = returned v st := rfl

@[simp] theorem andThen_trapped (st : Machine) (k : Machine → Result) :
    (trapped st).andThen k = trapped st := rfl

end Result

namespace Machine

def push (st : Machine) (v : BitVec 64) : Machine := { st with stack := v :: st.stack }

def top (st : Machine) : BitVec 64 := st.stack.headD 0

def below (st : Machine) : BitVec 64 := st.stack.tail.headD 0

end Machine

/-- A binary operation on the two topmost cells, at a width. -/
def Machine.binop (st : Machine) (bits : Nat) (f : BitVec bits → BitVec bits → BitVec 64) :
    Machine :=
  { st with stack := f (st.below.setWidth bits) (st.top.setWidth bits) :: st.stack.tail.tail }

def exec (out : Outside) (i : Instr) (st : Machine) : Result :=
  match i with
  | .localGet id => .next (st.push (st.locals id))
  | .localSet id =>
      .next { st with locals := Function.update st.locals id st.top, stack := st.stack.tail }
  | .drop => .next { st with stack := st.stack.tail }
  | .globalGet g => .next (st.push ((st.globals g).setWidth 64))
  | .globalSet g =>
      .next { st with
        globals := Function.update st.globals g (st.top.setWidth g.bits)
        stack := st.stack.tail }
  | .const bits c => .next (st.push ((BitVec.ofInt bits c).setWidth 64))
  | .sub bits => .next (st.binop bits (fun a b => (a - b).setWidth 64))
  | .ltS bits => .next (st.binop bits (fun a b => if a.slt b then 1 else 0))
  | .i32Load =>
      let a := (st.top.setWidth 32).toNat
      let st := { st with stack := st.stack.tail }
      if a + 4 ≤ out.memBytes then .next (st.push ((out.load32 a).setWidth 64)) else .trapped st
  | .i32WrapI64 =>
      .next { st with stack := (st.top.setWidth 32).setWidth 64 :: st.stack.tail }
  | .i64ExtendI32S =>
      .next { st with stack := (st.top.setWidth 32).signExtend 64 :: st.stack.tail }
  | .ifReturn v =>
      let st' := { st with stack := st.stack.tail }
      if st.top.setWidth 32 = 0#32 then .next st' else .returned v st'
  | .callImport s =>
      -- The operands of the call are all there is on the stack.
      .next { st with
        stack := [out.answer st.stack], dispatched := st.dispatched ++ [s.qualified] }

def execAll (out : Outside) : List Instr → Machine → Result
  | [], st => .next st
  | i :: is, st => (exec out i st).andThen (execAll out is)

/-! ## Runs of the module -/

/-- A host-call instruction of the module, in its function. -/
structure CallSite (m : IrModule) where
  fn : IrFunction
  inst : IrInst
  fn_mem : fn ∈ m.functions
  inst_mem : inst ∈ fn.insts
  isHostCall : inst.op = .hostCall

/-- The name the site is looked up by. -/
def CallSite.qname {m : IrModule} (c : CallSite m) : String := c.inst.fnName.getD "?"

/-- Control reaches a call site, with these values in the locals. -/
structure Visit (m : IrModule) where
  site : CallSite m
  locals : Int → BitVec 64
  outside : Outside

/-- What lasts from one visit to the next. -/
structure Totals where
  counters : Counters
  dispatched : List String

def Visit.start {m : IrModule} (v : Visit m) (s : Totals) : Machine where
  globals := s.counters
  locals := v.locals
  stack := []
  dispatched := s.dispatched

def Visit.result {m : IrModule} (v : Visit m) (s : Totals) : Result :=
  execAll v.outside (emitHostCall (emitCtx m) v.site.fn v.site.inst) (v.start s)

def Result.totals (r : Result) : Totals := ⟨r.machine.globals, r.machine.dispatched⟩

def Visit.after {m : IrModule} (v : Visit m) (s : Totals) : Totals := (v.result s).totals

/-- The totals after a run. -/
def runVisits {m : IrModule} (s : Totals) (visits : List (Visit m)) : Totals :=
  visits.foldl (fun s v => v.after s) s

theorem runVisits_append {m : IrModule} (s : Totals) (vs : List (Visit m)) (v : Visit m) :
    runVisits s (vs ++ [v]) = v.after (runVisits s vs) := by
  simp [runVisits]

/-! ## What the fences are for -/

/-- The totals as books, an account for each counter. -/
def Totals.ledger (s : Totals) : Ledger Counter String where
  balance g := (s.counters g).toInt
  paid := s.dispatched

def openingTotals (c : Counters) : Totals := ⟨c, []⟩

/-- The fences keep the books along a run. -/
structure FencesSound {m : IrModule} (init : Counters) (visits : List (Visit m)) : Prop where
  /-- At any time no counter is negative and each is its initial value less the
  costs of the calls dispatched. -/
  balanced : ∀ vs, vs <+: visits →
    (runVisits (openingTotals init) vs).ledger.Balanced callCost (fun g => (init g).toInt)
  /-- A visit that a fence ends leaves the counters. -/
  refused : ∀ vs v, vs ++ [v] <+: visits → ∀ c st,
    v.result (runVisits (openingTotals init) vs) = .returned c st →
      st.globals = (runVisits (openingTotals init) vs).counters
  /-- What is dispatched was covered by all three counters. -/
  passed : ∀ vs v, vs ++ [v] <+: visits →
    (runVisits (openingTotals init) (vs ++ [v])).dispatched ≠
      (runVisits (openingTotals init) vs).dispatched →
      (runVisits (openingTotals init) vs).ledger.Covers callCost v.site.qname

/-! ## Costs -/

theorem callCost_nonneg (q : String) (g : Counter) : 0 ≤ callCost q g := by
  cases g <;> simp only [callCost, entropyCostFor, tokenCostFor, costMicroUsdFor] <;>
    split_ifs <;> omega

theorem callCost_lt (q : String) (g : Counter) : callCost q g < 2 ^ 31 := by
  cases g <;> simp only [callCost, entropyCostFor, tokenCostFor, costMicroUsdFor] <;>
    split_ifs <;> omega

/-- A call that costs anything costs entropy. -/
theorem callCost_entropy_pos {q : String} {g : Counter} (h : 0 < callCost q g) :
    0 < callCost q .entropy := by
  revert h
  cases g <;> simp only [callCost, entropyCostFor, tokenCostFor, costMicroUsdFor] <;>
    split_ifs <;> omega

theorem Counter.bits_pos (g : Counter) : 31 < g.bits := by
  cases g <;> decide

theorem Counter.bits_le (g : Counter) : g.bits ≤ 64 := by
  cases g <;> decide

theorem two_pow_pred {w : Nat} (hw : 0 < w) : 2 * (2 : Int) ^ (w - 1) = 2 ^ w := by
  have h := Nat.two_pow_pred_mul_two hw
  rw [Int.mul_comm]
  exact_mod_cast h

theorem toInt_ofInt_cost {w : Nat} (hw : 31 < w) {c : Int} (h0 : 0 ≤ c) (h : c < 2 ^ 31) :
    (BitVec.ofInt w c).toInt = c := by
  have hpow : (2 : Int) ^ 31 ≤ 2 ^ (w - 1) := by
    exact_mod_cast Nat.pow_le_pow_right (by decide) (by omega)
  have hw' := two_pow_pred (w := w) (by omega)
  rw [BitVec.toInt_ofInt]
  apply Int.bmod_eq_of_le
  · push_cast
    omega
  · push_cast
    omega

/-- A decrement that is covered does not wrap. -/
theorem toInt_sub_cost {w : Nat} (hw : 31 < w) {c : Int} (h0 : 0 ≤ c) (h : c < 2 ^ 31)
    {x : BitVec w} (hx : c ≤ x.toInt) : (x - BitVec.ofInt w c).toInt = x.toInt - c := by
  have hlt := BitVec.toInt_lt (x := x)
  have hpow := two_pow_pred (w := w) (by omega)
  rw [BitVec.toInt_sub, toInt_ofInt_cost hw h0 h]
  apply Int.bmod_eq_of_le
  · push_cast
    omega
  · push_cast
    omega

/-! ## The code of one fence -/

theorem execAll_append (out : Outside) (is js : List Instr) (st : Machine) :
    execAll out (is ++ js) st = (execAll out is st).andThen (execAll out js) := by
  induction is generalizing st with
  | nil => rfl
  | cons i is ih =>
      show (exec out i st).andThen (execAll out (is ++ js)) = _
      show _ = ((exec out i st).andThen (execAll out is)).andThen (execAll out js)
      cases exec out i st with
      | next st' => exact ih st'
      | returned v st' => rfl
      | trapped st' => rfl

/-- Take a cost off one counter. -/
def Counters.charge (c : Counters) (g : Counter) (cost : Int) : Counters :=
  if cost ≤ 0 then c else Function.update c g (c g - BitVec.ofInt g.bits cost)

/-- The fence of this counter lets a cost through. -/
def Counters.Covers (c : Counters) (g : Counter) (cost : Int) : Prop :=
  cost ≤ 0 ∨ cost ≤ (c g).toInt

instance (c : Counters) (g : Counter) (cost : Int) : Decidable (c.Covers g cost) :=
  inferInstanceAs (Decidable (_ ∨ _))

theorem Counters.charge_of_ne (c : Counters) {g g' : Counter} (h : g' ≠ g) (cost : Int) :
    c.charge g cost g' = c g' := by
  unfold Counters.charge
  split
  · rfl
  · exact Function.update_of_ne h _ _

theorem Counters.charge_toInt {c : Counters} {g : Counter} {cost : Int} (h0 : 0 ≤ cost)
    (h : cost < 2 ^ 31) (hc : c.Covers g cost) : (c.charge g cost g).toInt = (c g).toInt - cost := by
  unfold Counters.charge
  split
  · omega
  · rw [Function.update_self]
    have hle : cost ≤ (c g).toInt := by
      rcases hc with hc | hc
      · omega
      · exact hc
    exact toInt_sub_cost g.bits_pos h0 h hle

/-- The counter of a fence that tested and passed has changed. -/
theorem Counters.charge_ne {c : Counters} {g : Counter} {cost : Int} (h0 : 0 < cost)
    (h : cost < 2 ^ 31) (hc : c.Covers g cost) : (c.charge g cost g).toInt ≠ (c g).toInt := by
  rw [Counters.charge_toInt (by omega) h hc]
  omega

/-- A fence refuses and changes nothing, or takes its cost off its counter. -/
theorem execAll_fence (out : Outside) (g : Counter) (code : Int) {cost : Int} (h : cost < 2 ^ 31)
    (retType : IrType) (st : Machine) :
    execAll out (emitFence g code cost retType) st =
      if st.globals.Covers g cost then .next { st with globals := st.globals.charge g cost }
      else .returned (sentinel code retType) st := by
  by_cases hcost : cost ≤ 0
  · have hcov : st.globals.Covers g cost := .inl hcost
    rw [emitFence, if_pos hcost, if_pos hcov, Counters.charge, if_pos hcost]
    rfl
  · have hc : (BitVec.ofInt g.bits cost).toInt = cost :=
      toInt_ofInt_cost g.bits_pos (by omega) h
    have hset : ∀ x : BitVec g.bits, (x.setWidth 64).setWidth g.bits = x :=
      fun x => by rw [BitVec.setWidth_setWidth_of_le x g.bits_le, BitVec.setWidth_eq]
    have hslt : (st.globals g).slt (BitVec.ofInt g.bits cost) = true ↔
        ¬ st.globals.Covers g cost := by
      rw [BitVec.slt_iff_toInt_lt, hc, Counters.Covers]
      omega
    rw [emitFence, if_neg hcost]
    by_cases hcov : st.globals.Covers g cost
    · have hfalse : (st.globals g).slt (BitVec.ofInt g.bits cost) = false := by
        rw [Bool.eq_false_iff, ne_eq, hslt, not_not]
        exact hcov
      rw [if_pos hcov, Counters.charge, if_neg hcost]
      simp [execAll, exec, Machine.push, Machine.binop, Machine.top, Machine.below, hset, hfalse]
    · have htrue := hslt.mpr hcov
      rw [if_neg hcov]
      simp [execAll, exec, Machine.push, Machine.binop, Machine.top, Machine.below, hset, htrue]

/-! ## The code of the dispatch -/

/-- The value `emit_get_value` pushes. -/
def getValue (locals : Int → BitVec 64) (vid : Int) : BitVec 64 :=
  if vid < 0 then 0 else locals vid

theorem execAll_setValue (out : Outside) (vid : Int) (st : Machine) :
    ∃ st', execAll out [emitSetValue vid] st = .next st' ∧ st'.globals = st.globals ∧
      st'.dispatched = st.dispatched := by
  unfold emitSetValue
  split <;> exact ⟨_, rfl, rfl, rfl⟩

/-- The length prefix of a string argument lies in memory. -/
def Operand.InMemory (out : Outside) (locals : Int → BitVec 64) (inst : IrInst) :
    Operand → Prop
  | .str k =>
      ((getValue locals (callArg inst k)).setWidth 32 - 4#32).toNat + 4 ≤ out.memBytes
  | _ => True

theorem exec_getValue (out : Outside) (vid : Int) (st : Machine) :
    exec out (emitGetValue vid) st = .next (st.push (getValue st.locals vid)) := by
  unfold emitGetValue getValue
  split <;> rfl

theorem exec_i32Load (out : Outside) (a : BitVec 32) (st : Machine) :
    exec out .i32Load (st.push (a.setWidth 64)) =
      if a.toNat + 4 ≤ out.memBytes then .next (st.push ((out.load32 a.toNat).setWidth 64))
      else .trapped st := by
  have hset : (a.setWidth 64).setWidth 32 = a := by
    rw [BitVec.setWidth_setWidth_of_le a (by decide), BitVec.setWidth_eq]
  simp only [exec, Machine.push, Machine.top, List.headD_cons, hset, List.tail_cons]

/-- Pushing an operand moves the stack only; it traps when a length prefix is
out of memory. -/
theorem execAll_operand (out : Outside) (s : HostCallSite) (inst : IrInst) (o : Operand)
    (st : Machine) :
    (o.InMemory out st.locals inst ∧
      ∃ stack, execAll out (emitOperand s inst o) st = .next { st with stack := stack }) ∨
    (¬ o.InMemory out st.locals inst ∧
      ∃ stack, execAll out (emitOperand s inst o) st = .trapped { st with stack := stack }) := by
  cases o with
  | str k =>
      have hrun : execAll out (emitOperand s inst (.str k)) st =
          (exec out .i32Load ((st.push (getValue st.locals (callArg inst k))).push
            (((getValue st.locals (callArg inst k)).setWidth 32 - 4#32).setWidth 64))).andThen
              .next := by
        simp only [emitOperand, execAll, exec_getValue, Result.andThen_next]
        rfl
      rw [hrun, exec_i32Load]
      show (_ ≤ _ ∧ _) ∨ (¬ _ ≤ _ ∧ _)
      split
      · rename_i hin
        exact .inl ⟨hin, _, rfl⟩
      · rename_i hout
        exact .inr ⟨hout, _, rfl⟩
  | wrap k =>
      refine .inl ⟨trivial, ?_⟩
      simp only [emitOperand, execAll, exec_getValue, Result.andThen_next]
      exact ⟨_, rfl⟩
  | value k =>
      refine .inl ⟨trivial, ?_⟩
      simp only [emitOperand, execAll, exec_getValue, Result.andThen_next]
      exact ⟨_, rfl⟩
  | outBuf => exact .inl ⟨trivial, _, rfl⟩
  | outMax => exact .inl ⟨trivial, _, rfl⟩
  | confOff => exact .inl ⟨trivial, _, rfl⟩

theorem execAll_operands (out : Outside) (s : HostCallSite) (inst : IrInst) (os : List Operand)
    (st : Machine) :
    ((∀ o ∈ os, o.InMemory out st.locals inst) ∧
      ∃ stack, execAll out (os.flatMap (emitOperand s inst)) st =
        .next { st with stack := stack }) ∨
    (¬ (∀ o ∈ os, o.InMemory out st.locals inst) ∧
      ∃ stack, execAll out (os.flatMap (emitOperand s inst)) st =
        .trapped { st with stack := stack }) := by
  induction os generalizing st with
  | nil => exact .inl ⟨by simp, st.stack, rfl⟩
  | cons o os ih =>
      rw [List.flatMap_cons, execAll_append]
      rcases execAll_operand out s inst o st with ⟨hin, stack, hrun⟩ | ⟨hout, stack, hrun⟩
      · rw [hrun, Result.andThen_next]
        rcases ih { st with stack := stack } with ⟨hins, hrest⟩ | ⟨houts, hrest⟩
        · exact .inl ⟨List.forall_mem_cons.mpr ⟨hin, hins⟩, hrest⟩
        · exact .inr ⟨fun h => houts (List.forall_mem_cons.mp h).2, hrest⟩
      · rw [hrun, Result.andThen_trapped]
        exact .inr ⟨fun h => hout (List.forall_mem_cons.mp h).1, stack, rfl⟩

/-- Behind the fences the call reaches the host, unless a string argument is out
of memory; the counters stay. -/
theorem execAll_dispatch (out : Outside) (s : HostCallSite) (inst : IrInst) (row : MarshalRow)
    (st : Machine) :
    ((∀ o ∈ row.operands, o.InMemory out st.locals inst) ∧
      ∃ st', execAll out (emitDispatch s inst row) st = .next st' ∧ st'.globals = st.globals ∧
        st'.dispatched = st.dispatched ++ [s.qualified]) ∨
    (¬ (∀ o ∈ row.operands, o.InMemory out st.locals inst) ∧
      ∃ st', execAll out (emitDispatch s inst row) st = .trapped st' ∧
        st'.globals = st.globals ∧ st'.dispatched = st.dispatched) := by
  unfold emitDispatch
  rw [List.append_assoc, execAll_append]
  rcases execAll_operands out s inst row.operands st with ⟨hin, stack, hrun⟩ | ⟨hout, stack, hrun⟩
  · refine .inl ⟨hin, ?_⟩
    rw [hrun, Result.andThen_next]
    cases row.extend with
    | false => exact execAll_setValue out inst.id _
    | true => exact execAll_setValue out inst.id _
  · refine .inr ⟨hout, ?_⟩
    rw [hrun, Result.andThen_trapped]
    exact ⟨_, rfl, rfl, rfl⟩

/-! ## One visit -/

section
variable {m : IrModule}

theorem hostCallLookup_qualified {ctx : EmitCtx} {q : String} {s : HostCallSite}
    (h : hostCallLookup ctx q = some s) : s.qualified = q := by
  simpa using List.find?_some h

/-- Is the name in the table of host calls? -/
def Visit.Resolved (v : Visit m) : Prop :=
  (hostCallLookup (emitCtx m) v.site.qname).isSome

instance (v : Visit m) : Decidable v.Resolved :=
  inferInstanceAs (Decidable ((hostCallLookup (emitCtx m) v.site.qname).isSome = true))

/-- The string arguments of the visit, with their lengths, lie in memory. -/
def Visit.Marshals (v : Visit m) : Prop :=
  ∀ o ∈ (marshalRow v.site.qname v.site.inst.callArgs.length).operands,
    o.InMemory v.outside v.locals v.site.inst

/-- The fence of this counter lets the visit through. -/
def Visit.Passes (v : Visit m) (c : Counters) (g : Counter) : Prop :=
  c.Covers g (callCost v.site.qname g)

instance (v : Visit m) (c : Counters) (g : Counter) : Decidable (v.Passes c g) :=
  inferInstanceAs (Decidable (c.Covers g (callCost v.site.qname g)))

/-- The counters with the cost of the visit taken off one of them. -/
def Visit.charge (v : Visit m) (c : Counters) (g : Counter) : Counters :=
  c.charge g (callCost v.site.qname g)

/-- Everything a visit can do. -/
inductive Visit.Outcome (v : Visit m) (s : Totals) : Result → Prop where
  | unresolved (r : Result) : ¬ v.Resolved → r.totals = s → (∀ c st, r ≠ .returned c st) →
      Outcome v s r
  | entropyRefused (c : Option Sentinel) (st : Machine) : v.Resolved →
      ¬ v.Passes s.counters .entropy →
      st.globals = s.counters → st.dispatched = s.dispatched → Outcome v s (.returned c st)
  | tokensRefused (c : Option Sentinel) (st : Machine) : v.Resolved →
      v.Passes s.counters .entropy → ¬ v.Passes s.counters .tokens →
      st.globals = v.charge s.counters .entropy → st.dispatched = s.dispatched →
      Outcome v s (.returned c st)
  | costRefused (c : Option Sentinel) (st : Machine) : v.Resolved →
      v.Passes s.counters .entropy → v.Passes s.counters .tokens →
      ¬ v.Passes s.counters .cost →
      st.globals = v.charge (v.charge s.counters .entropy) .tokens →
      st.dispatched = s.dispatched → Outcome v s (.returned c st)
  | trapped (st : Machine) : v.Resolved → (∀ g, v.Passes s.counters g) → ¬ v.Marshals →
      st.globals = v.charge (v.charge (v.charge s.counters .entropy) .tokens) .cost →
      st.dispatched = s.dispatched → Outcome v s (.trapped st)
  | dispatched (st : Machine) : v.Resolved → (∀ g, v.Passes s.counters g) → v.Marshals →
      st.globals = v.charge (v.charge (v.charge s.counters .entropy) .tokens) .cost →
      st.dispatched = s.dispatched ++ [v.site.qname] → Outcome v s (.next st)

/-- A charge to one counter is not seen by the fence of another. -/
theorem Visit.passes_charge (v : Visit m) (c : Counters) {g d : Counter} (h : d ≠ g) :
    v.Passes (v.charge c g) d ↔ v.Passes c d := by
  unfold Visit.Passes Visit.charge Counters.Covers
  rw [Counters.charge_of_ne c h]

theorem Visit.result_unresolved (v : Visit m) (s : Totals)
    (h : hostCallLookup (emitCtx m) v.site.qname = none) :
    v.result s = execAll v.outside [.const 64 (-1), emitSetValue v.site.inst.id] (v.start s) := by
  have h' : hostCallLookup (emitCtx m) (v.site.inst.fnName.getD "?") = none := h
  simp only [Visit.result, emitHostCall, h']

/-- The chain of fences and what comes after it. -/
theorem Visit.result_resolved (v : Visit m) (s : Totals) {site : HostCallSite}
    (h : hostCallLookup (emitCtx m) v.site.qname = some site) :
    v.result s =
      (execAll v.outside (emitFence .entropy (-9) (callCost v.site.qname .entropy)
        v.site.fn.returnType) (v.start s)).andThen (fun st =>
      (execAll v.outside (emitFence .tokens (-10) (callCost v.site.qname .tokens)
        v.site.fn.returnType) st).andThen (fun st =>
      (execAll v.outside (emitFence .cost (-10) (callCost v.site.qname .cost)
        v.site.fn.returnType) st).andThen (fun st =>
      execAll v.outside (emitDispatch site v.site.inst
        (marshalRow v.site.qname v.site.inst.callArgs.length)) st))) := by
  have h' : hostCallLookup (emitCtx m) (v.site.inst.fnName.getD "?") = some site := h
  simp only [Visit.result, emitHostCall, h', emitEntropyFence, emitTokenFence, emitCostFence]
  rw [execAll_append]
  congr 1
  funext st
  rw [execAll_append]
  congr 1
  funext st
  rw [execAll_append]
  rfl

theorem Visit.outcome (v : Visit m) (s : Totals) : v.Outcome s (v.result s) := by
  cases hl : hostCallLookup (emitCtx m) v.site.qname with
  | none =>
      have hnot : ¬ v.Resolved := by simp [Visit.Resolved, hl]
      rw [v.result_unresolved s hl]
      obtain ⟨st, hrun, hg, hd⟩ := execAll_setValue v.outside v.site.inst.id
        ((v.start s).push ((BitVec.ofInt 64 (-1)).setWidth 64))
      have hrun' : execAll v.outside [.const 64 (-1), emitSetValue v.site.inst.id] (v.start s) =
          .next st := hrun
      rw [hrun']
      refine .unresolved _ hnot ?_ (fun _ _ => Result.noConfusion)
      show (⟨st.globals, st.dispatched⟩ : Totals) = s
      rw [hg, hd]
      rfl
  | some site =>
      have hres : v.Resolved := by simp [Visit.Resolved, hl]
      have hq := hostCallLookup_qualified hl
      rw [v.result_resolved s hl, execAll_fence _ _ _ (callCost_lt _ _)]
      by_cases he : v.Passes s.counters .entropy
      case neg =>
        rw [if_neg, Result.andThen_returned]
        · exact .entropyRefused _ _ hres he rfl rfl
        · exact he
      rw [if_pos, Result.andThen_next, execAll_fence _ _ _ (callCost_lt _ _)]
      case hc => exact he
      have htok := v.passes_charge s.counters (g := .entropy) (d := .tokens) (by decide)
      by_cases ht : v.Passes s.counters .tokens
      case neg =>
        rw [if_neg, Result.andThen_returned]
        · exact .tokensRefused _ _ hres he ht rfl rfl
        · exact fun h => ht (htok.mp h)
      rw [if_pos, Result.andThen_next, execAll_fence _ _ _ (callCost_lt _ _)]
      case hc => exact htok.mpr ht
      have hcost := (v.passes_charge (v.charge s.counters .entropy) (g := .tokens)
        (d := .cost) (by decide)).trans
          (v.passes_charge s.counters (g := .entropy) (d := .cost) (by decide))
      by_cases hc : v.Passes s.counters .cost
      case neg =>
        rw [if_neg, Result.andThen_returned]
        · exact .costRefused _ _ hres he ht hc rfl rfl
        · exact fun h => hc (hcost.mp h)
      rw [if_pos, Result.andThen_next]
      case hc => exact hcost.mpr hc
      have hall : ∀ g, v.Passes s.counters g := by
        intro g
        cases g with
        | entropy => exact he
        | tokens => exact ht
        | cost => exact hc
      rcases execAll_dispatch v.outside site v.site.inst
        (marshalRow v.site.qname v.site.inst.callArgs.length) _ with
        ⟨hin, st, hrun, hg, hd⟩ | ⟨hout, st, hrun, hg, hd⟩
      · rw [hrun]
        exact .dispatched st hres hall hin hg (by rw [hd, hq]; rfl)
      · rw [hrun]
        exact .trapped st hres hall hout hg hd

/-- The three decrements of a visit that passes all fences. -/
theorem Visit.charges_toInt (v : Visit m) {c : Counters} (h : ∀ g, v.Passes c g) (g : Counter) :
    (v.charge (v.charge (v.charge c .entropy) .tokens) .cost g).toInt =
      (c g).toInt - callCost v.site.qname g := by
  have hself : (v.charge c g g).toInt = (c g).toInt - callCost v.site.qname g :=
    Counters.charge_toInt (callCost_nonneg _ _) (callCost_lt _ _) (h g)
  rw [← hself]
  cases g <;> simp [Visit.charge, Counters.charge] <;> split_ifs <;> rfl

/-! ## Runs that keep the books -/

/-- Either the first fence of the chain refuses, or nothing behind it does. -/
def Visit.AllOrNone (v : Visit m) (c : Counters) : Prop :=
  v.Resolved → (∃ g, 0 < callCost v.site.qname g) → v.Passes c .entropy →
    v.Passes c .tokens ∧ v.Passes c .cost ∧ v.Marshals

/-- A call with a cost on some counter that this counter does not cover. -/
theorem Visit.tagged_of_not_passes {v : Visit m} {c : Counters} {g : Counter}
    (h : ¬ v.Passes c g) : ∃ g, 0 < callCost v.site.qname g := by
  refine ⟨g, ?_⟩
  by_contra hle
  exact h (.inl (by omega))

theorem Totals.ledger_eq {s t : Totals} (hg : t.counters = s.counters)
    (hd : t.dispatched = s.dispatched) : t.ledger = s.ledger := by
  unfold Totals.ledger
  rw [hg, hd]

/-- The books after a visit that passed all fences. -/
theorem Visit.ledger_charges {v : Visit m} {s t : Totals} (hall : ∀ g, v.Passes s.counters g)
    (hg : t.counters =
      v.charge (v.charge (v.charge s.counters .entropy) .tokens) .cost) :
    t.ledger.balance = fun g => s.ledger.balance g - callCost v.site.qname g := by
  funext g
  show (t.counters g).toInt = (s.counters g).toInt - callCost v.site.qname g
  rw [hg, v.charges_toInt hall]

/-- What the fences let through is covered. -/
theorem Visit.covers_of_passes {v : Visit m} {s : Totals} (hnn : ∀ g, 0 ≤ (s.counters g).toInt)
    (hall : ∀ g, v.Passes s.counters g) : s.ledger.Covers callCost v.site.qname := by
  intro g
  show callCost v.site.qname g ≤ (s.counters g).toInt
  rcases hall g with h | h
  · exact Int.le_trans h (hnn g)
  · exact h

/-- A visit that goes through as a whole is a step of the ledger. -/
theorem Visit.ledgerStep {v : Visit m} {s : Totals} (hnn : ∀ g, 0 ≤ (s.counters g).toInt)
    (ha : v.AllOrNone s.counters) : Ledger.Step callCost s.ledger (v.after s).ledger := by
  have hout := v.outcome s
  show Ledger.Step callCost s.ledger (v.result s).totals.ledger
  generalize v.result s = r at hout
  cases hout with
  | unresolved _ _ hs _ =>
      rw [hs]
      exact .refuse
  | entropyRefused c st _ _ hg hd =>
      rw [Totals.ledger_eq (t := (Result.returned c st).totals) hg hd]
      exact .refuse
  | tokensRefused _ _ hres he ht _ _ =>
      exact absurd (ha hres (tagged_of_not_passes ht) he).1 ht
  | costRefused _ _ hres he _ hc _ _ =>
      exact absurd (ha hres (tagged_of_not_passes hc) he).2.1 hc
  | trapped st hres hall hmar hg hd =>
      -- Only a call that costs nothing may trap, and its charges are zero.
      have hfree : ∀ g, callCost v.site.qname g = 0 := by
        intro g
        by_contra hne
        have hpos : 0 < callCost v.site.qname g := by
          have := callCost_nonneg v.site.qname g
          omega
        exact hmar (ha hres ⟨g, hpos⟩ (hall .entropy)).2.2
      have hbal := ledger_charges (t := (Result.trapped st).totals) hall hg
      have heq : (Result.trapped st).totals.ledger = s.ledger := by
        show (⟨(Result.trapped st).totals.ledger.balance, st.dispatched⟩ : Ledger _ _) = _
        rw [hbal, hd]
        simp only [hfree, Int.sub_zero]
        rfl
      rw [heq]
      exact .refuse
  | dispatched st _ hall _ hg hd =>
      have hbal := ledger_charges (t := (Result.next st).totals) hall hg
      have heq : (Result.next st).totals.ledger = s.ledger.pay callCost v.site.qname := by
        show (⟨(Result.next st).totals.ledger.balance, st.dispatched⟩ : Ledger _ _) = _
        rw [hbal, hd]
        rfl
      rw [heq]
      exact .pay _ (covers_of_passes hnn hall)

/-- A visit that stops half-way through the chain breaks the books. -/
theorem Visit.allOrNone_of_balanced {v : Visit m} {s : Totals} {opening : Counter → Int}
    (hs : s.ledger.Balanced callCost opening)
    (hs' : (v.after s).ledger.Balanced callCost opening) : v.AllOrNone s.counters := by
  intro hres ⟨g, hg⟩ he
  have hpos : 0 < callCost v.site.qname .entropy := callCost_entropy_pos hg
  have charged : ∀ {st : Machine},
      st.globals .entropy = v.charge s.counters .entropy .entropy →
      (st.globals .entropy).toInt ≠ (s.counters .entropy).toInt := by
    intro st hst
    rw [hst]
    exact Counters.charge_ne hpos (callCost_lt _ _) he
  have hout := v.outcome s
  have hafter : v.after s = (v.result s).totals := rfl
  rw [hafter] at hs'
  generalize v.result s = r at hout hs'
  cases hout with
  | unresolved _ hnot _ _ => exact absurd hres hnot
  | entropyRefused _ _ _ hne _ _ => exact absurd he hne
  | tokensRefused _ _ _ _ _ hst hd =>
      refine absurd hs' (Ledger.not_balanced_of_charge hs hd (i := .entropy) ?_)
      exact charged (congrFun hst .entropy)
  | costRefused _ _ _ _ _ _ hst hd =>
      refine absurd hs' (Ledger.not_balanced_of_charge hs hd (i := .entropy) ?_)
      exact charged ((congrFun hst .entropy).trans
        (Counters.charge_of_ne _ (by decide) _))
  | trapped st _ hall _ hst hd =>
      refine absurd hs' (Ledger.not_balanced_of_charge hs hd (i := .entropy) ?_)
      exact charged ((congrFun hst .entropy).trans
        ((Counters.charge_of_ne _ (by decide) _).trans (Counters.charge_of_ne _ (by decide) _)))
  | dispatched _ _ hall hmar _ _ => exact ⟨hall .tokens, hall .cost, hmar⟩

/-! ## The theorem about runs -/

/-- When a run keeps the books: the declared token and cost budgets did not come
out negative, and no visit of the run stops half-way through the chain. -/
structure FencesMeet (fa : FloatArith) (agents : List (List AgentField)) (visits : List (Visit m)) :
    Prop where
  tokens : 0 ≤ (scanBudget fa agents).1.toInt
  cost : 0 ≤ (scanBudget fa agents).2.toInt
  chain : ∀ vs v, vs ++ [v] <+: visits →
    v.AllOrNone (runVisits (openingTotals (initialCounters fa agents)) vs).counters

/-- The entropy budget is clamped to what an `i32` holds. -/
theorem agentEntropyBudgetBits_nonneg {fields : List AgentField} {b : BitVec 32}
    (h : agentEntropyBudgetBits fields = some b) : 0 ≤ b.toInt := by
  unfold agentEntropyBudgetBits at h
  split at h
  · rename_i v _
    split at h
    · cases h
      decide
    · rename_i hneg
      split at h
      · cases h
        decide
      · rename_i hle
        cases h
        have h0 : 0 ≤ v.toInt := by
          have := mt BitVec.slt_iff_toInt_lt.mpr hneg
          simpa using this
        have h1 : v.toInt ≤ 2147483647 := by
          have := mt BitVec.slt_iff_toInt_lt.mpr hle
          have hu : entropyUnbounded.toInt = 2147483647 := by decide
          omega
        have hnat : (v.toNat : Int) = v.toInt := by
          have := v.isLt
          rw [BitVec.toInt_eq_toNat_cond] at h0 ⊢
          omega
        rw [BitVec.toInt_setWidth, hnat, Int.bmod_eq_of_le (by omega) (by omega)]
        exact h0
  · cases h

theorem scanEntropyBudget_nonneg (agents : List (List AgentField)) :
    0 ≤ (scanEntropyBudget agents).toInt := by
  unfold scanEntropyBudget
  cases h : agents.findSome? agentEntropyBudgetBits with
  | none => decide
  | some b =>
      obtain ⟨fields, _, hb⟩ := List.exists_of_findSome?_eq_some h
      exact agentEntropyBudgetBits_nonneg hb

/-- A run that meets the condition is a run of the ledger. -/
theorem FencesMeet.balanced {fa : FloatArith} {agents : List (List AgentField)}
    {visits : List (Visit m)} (h : FencesMeet fa agents visits) {vs : List (Visit m)}
    (hvs : vs <+: visits) :
    (runVisits (openingTotals (initialCounters fa agents)) vs).ledger.Balanced callCost
      (fun g => (initialCounters fa agents g).toInt) := by
  induction vs using List.reverseRecOn with
  | nil =>
      apply Ledger.Balanced.start
      intro g
      cases g with
      | entropy => exact scanEntropyBudget_nonneg agents
      | tokens => exact h.tokens
      | cost => exact h.cost
  | append_singleton vs v ih =>
      have hb := ih ((List.prefix_append vs [v]).trans hvs)
      rw [runVisits_append]
      exact hb.step (Visit.ledgerStep (fun g => (hb g).1) (h.chain vs v hvs))

theorem FencesMeet.sound {fa : FloatArith} {agents : List (List AgentField)}
    {visits : List (Visit m)} (h : FencesMeet fa agents visits) :
    FencesSound (initialCounters fa agents) visits where
  balanced _ hvs := h.balanced hvs
  refused vs v hvs c st hr := by
    have hout := v.outcome (runVisits (openingTotals (initialCounters fa agents)) vs)
    rw [hr] at hout
    have ha := h.chain vs v hvs
    cases hout with
    | unresolved _ _ _ hne => exact absurd rfl (hne c st)
    | entropyRefused _ _ _ _ hg _ => exact hg
    | tokensRefused _ _ hres he ht _ _ =>
        exact absurd (ha hres (Visit.tagged_of_not_passes ht) he).1 ht
    | costRefused _ _ hres he _ hc _ _ =>
        exact absurd (ha hres (Visit.tagged_of_not_passes hc) he).2.1 hc
  passed vs v hvs hne := by
    have hb := h.balanced ((List.prefix_append vs [v]).trans hvs)
    rw [runVisits_append] at hne
    revert hne hb
    generalize runVisits (openingTotals (initialCounters fa agents)) vs = s
    intro hne hb
    have hout := v.outcome s
    have hafter : v.after s = (v.result s).totals := rfl
    rw [hafter] at hne
    generalize v.result s = r at hout hne
    cases hout with
    | unresolved _ _ hs _ => exact absurd (congrArg Totals.dispatched hs) hne
    | entropyRefused _ _ _ _ _ hd => exact absurd hd hne
    | tokensRefused _ _ _ _ _ _ hd => exact absurd hd hne
    | costRefused _ _ _ _ _ _ _ hd => exact absurd hd hne
    | trapped _ _ _ _ _ hd => exact absurd hd hne
    | dispatched _ _ hall _ _ _ => exact Visit.covers_of_passes (fun g => (hb g).1) hall

theorem FencesSound.meet {fa : FloatArith} {agents : List (List AgentField)}
    {visits : List (Visit m)} (h : FencesSound (initialCounters fa agents) visits) :
    FencesMeet fa agents visits where
  tokens := (h.balanced [] List.nil_prefix .tokens).1
  cost := (h.balanced [] List.nil_prefix .cost).1
  chain vs v hvs := by
    have hs' := h.balanced _ hvs
    rw [runVisits_append] at hs'
    exact Visit.allOrNone_of_balanced
      (h.balanced vs ((List.prefix_append vs [v]).trans hvs)) hs'

/-- The fences keep the books of a run exactly when no visit stops half-way. -/
theorem fences_iff (fa : FloatArith) (agents : List (List AgentField)) (m : IrModule)
    (visits : List (Visit m)) :
    FencesSound (initialCounters fa agents) visits ↔ FencesMeet fa agents visits :=
  ⟨FencesSound.meet, FencesMeet.sound⟩

end

/-! ## A call that the token fence refuses -/

/-- `agent { entropy_budget: 10  budget: { max_tokens: 0 } … }` -/
def noTokensAgent : List AgentField :=
  [⟨"entropy_budget", .lit (.int 10)⟩, ⟨"budget", .block [("max_tokens", some (.int 0))]⟩]

/-- `fn main() -> int { llm.classify("x") }` -/
def classifyModule : IrModule where
  functions :=
    [{ name := "lcn_main", returnType := .i64
       blocks := [{ label := some "entry", insts :=
         [{ id := 0, op := .constString, type := .string, immStr := some "x" },
          { id := 1, op := .hostCall, type := .i64, fnName := some "llm.classify",
            callArgs := [0] },
          { id := -1, op := .ret, type := .void, operands := [1] }] }] }]

def classifyVisit : Visit classifyModule where
  site :=
    { fn := classifyModule.functions.head!
      inst :=
        { id := 1, op := .hostCall, type := .i64, fnName := some "llm.classify", callArgs := [0] }
      fn_mem := by decide
      inst_mem := by decide
      isHostCall := rfl }
  locals := fun _ => 1028
  outside := { memBytes := memorySize, load32 := fun _ => 1, answer := fun _ => 0 }

/-- The call is refused for want of tokens; its entropy is gone all the same. -/
theorem fences_noTokens :
    ¬ FencesSound (initialCounters .unused [noTokensAgent]) [classifyVisit] := by
  intro h
  have hpass := h.meet.chain [] classifyVisit (List.prefix_refl _) (by decide)
    ⟨.entropy, by decide⟩ (by decide)
  exact absurd hpass.1 (by decide)

end Limceron.Wasm
