/-
# `Limceron.Wasm.Machine` — structured WebAssembly code and its runs

The instructions that function bodies are made of, with blocks, loops and
branches to labels, and a module instance they run on.  Fences and marshalling
are the `Instr` of `Wasm.Fences`, embedded by `simple`.

| code ends by | result |
| :-- | :-- |
| falling off its end | `next` |
| `br` to a label that encloses it | `br` |
| `return`, or a fence that refuses | `ret` |
| an access out of memory, a division that traps | `trap` |
| running out of fuel | `timeout` |

**Fuel** is spent by entering a function and by going round a loop, never by an
instruction, so every finite piece of straight code is run to its end.  The
store carries the list of what has happened to it; a run that is cut short
leaves what happened so far.

**Cells** are 64 bits wide and an `i32` is the low half, as in `Wasm.Fences`.
-/
import Limceron.Wasm.Fences

namespace Limceron.Wasm

/-! ## Code -/

inductive Label where
  | exit
  | dispatch
  | bb (k : Nat)
  deriving DecidableEq, Repr

/-- Operators on two integers of the same width. -/
inductive WBin where
  | add | sub | mul | divS | remS
  | and | or
  | eq | ne | ltS | gtS | leS | geS
  deriving DecidableEq, Repr

inductive WFloat where
  | add | sub | mul | div
  | eq | ne | lt | gt | le | ge
  deriving DecidableEq, Repr

inductive WInstr where
  | simple (i : Instr)
  /-- `local.set $rN` that leaves the value on the stack. -/
  | localTee (id : Int)
  | bin (bits : Nat) (op : WBin)
  | float (op : WFloat)
  | eqz (bits : Nat)
  | f64Const (bits : BitVec 64)
  | f64ConvertI64S
  | i64TruncF64S
  | bumpGet
  | bumpSet
  | load (bits : Nat)
  | store (bits : Nat)
  | call (symbol : String) (argc : Nat) (result : Bool)
  /-- `local.get $bb` and `local.set $bb`. -/
  | bbGet
  | bbSet
  | nop
  | ret
  | br (l : Label)
  | brTable (targets : List Label) (default : Label)
  | block (l : Label) (body : List WInstr)
  | loop (l : Label) (body : List WInstr)
  | ifElse (thn els : List WInstr)

/-! ## The instance -/

abbrev Memory := Nat → UInt8

/-- What happens to an instance. -/
inductive StoreEvent where
  /-- The bump pointer was read for a slot. -/
  | slot (a : BitVec 32)
  | stored (a : Nat) (after : Memory)
  | host (site : HostCallSite) (args : List (BitVec 64)) (result : BitVec 64)
      (before after : Memory)
  /-- The dispatcher branched on `$bb`, with these values in the locals. -/
  | visit (bb : BitVec 32) (locals : Int → BitVec 64)

structure Store where
  mem : Memory
  bump : BitVec 32
  counters : Counters
  events : List StoreEvent := []

/-- A host function: from the past and its arguments to a result and the memory. -/
abbrev WasmHost :=
  List StoreEvent → HostCallSite → List (BitVec 64) → Memory → BitVec 64 × Memory

/-- An activation on an instance. -/
structure St where
  locals : Int → BitVec 64
  bb : BitVec 32
  stack : List (BitVec 64)
  store : Store

inductive Res where
  | next (st : St)
  | br (l : Label) (st : St)
  | ret (stack : List (BitVec 64)) (store : Store)
  | trap (store : Store)
  | timeout (store : Store)

namespace Res

def store : Res → Store
  | .next st | .br _ st => st.store
  | .ret _ s | .trap s | .timeout s => s

def andThen (r : Res) (k : St → Res) : Res :=
  match r with
  | .next st => k st
  | r => r

@[simp] theorem andThen_next (st : St) (k : St → Res) : (next st).andThen k = k st := rfl

@[simp] theorem andThen_br (l : Label) (st : St) (k : St → Res) : (br l st).andThen k = br l st :=
  rfl

@[simp] theorem andThen_ret (vs : List (BitVec 64)) (s : Store) (k : St → Res) :
    (ret vs s).andThen k = ret vs s := rfl

@[simp] theorem andThen_trap (s : Store) (k : St → Res) : (trap s).andThen k = trap s := rfl

@[simp] theorem andThen_timeout (s : Store) (k : St → Res) :
    (timeout s).andThen k = timeout s := rfl

end Res

namespace St

def push (st : St) (v : BitVec 64) : St := { st with stack := v :: st.stack }

def top (st : St) : BitVec 64 := st.stack.headD 0

def below (st : St) : BitVec 64 := st.stack.tail.headD 0

def pop (st : St) : St := { st with stack := st.stack.tail }

def setLocal (st : St) (id : Int) (v : BitVec 64) : St :=
  { st with locals := Function.update st.locals id v }

def log (st : St) (e : StoreEvent) : St :=
  { st with store := { st.store with events := st.store.events ++ [e] } }

end St

/-! ## Straight code -/

/-- The little-endian word of `n` bytes at `a`. -/
def Memory.read (mem : Memory) (a : Nat) : Nat → BitVec 64
  | 0 => 0
  | n + 1 => ((mem a).toBitVec.setWidth 64) ||| (mem.read (a + 1) n <<< 8)

def Memory.write (mem : Memory) (a : Nat) (v : BitVec 64) : Nat → Memory
  | 0 => mem
  | n + 1 => Function.update (Memory.write mem (a + 1) (v >>> 8) n) a ⟨v.setWidth 8⟩

/-- `none` is a trap; comparisons give 0 or 1. -/
def WBin.eval {w : Nat} (a b : BitVec w) : WBin → Option (BitVec 64)
  | .add => some ((a + b).setWidth 64)
  | .sub => some ((a - b).setWidth 64)
  | .mul => some ((a * b).setWidth 64)
  | .divS =>
      if b = 0 ∨ (a = BitVec.intMin w ∧ b = -1) then none else some ((a.sdiv b).setWidth 64)
  | .remS => if b = 0 then none else some ((a.srem b).setWidth 64)
  | .and => some ((a &&& b).setWidth 64)
  | .or => some ((a ||| b).setWidth 64)
  | .eq => some (boolWord (a == b))
  | .ne => some (boolWord (a != b))
  | .ltS => some (boolWord (a.slt b))
  | .gtS => some (boolWord (b.slt a))
  | .leS => some (boolWord (a.sle b))
  | .geS => some (boolWord (b.sle a))

def WFloat.eval (fa : FloatArith) (a b : BitVec 64) : WFloat → BitVec 64
  | .add => fa.add a b
  | .sub => fa.sub a b
  | .mul => fa.mul a b
  | .div => fa.div a b
  | .eq => boolWord (fa.eq a b)
  | .ne => boolWord (!fa.eq a b)
  | .lt => boolWord (fa.lt a b)
  | .gt => boolWord (fa.lt b a)
  | .le => boolWord (fa.le a b)
  | .ge => boolWord (fa.le b a)

/-- Replace the two topmost cells. -/
def St.pop2 (st : St) (v : BitVec 64) : St := { st with stack := v :: st.stack.tail.tail }

/-- The two topmost cells are an address and, above it, the value to store. -/
def execStore (bits : Nat) (st : St) : Res :=
  let a := (st.below.setWidth 32).toNat
  let mem := st.store.mem.write a st.top (bits / 8)
  let st' : St := { st with stack := st.stack.tail.tail }
  if a + bits / 8 ≤ memorySize then
    .next ({ st' with store := { st'.store with mem := mem } }.log (.stored a mem))
  else .trap st.store

def execLoad (bits : Nat) (st : St) : Res :=
  let a := (st.top.setWidth 32).toNat
  if a + bits / 8 ≤ memorySize then
    .next { st with stack := st.store.mem.read a (bits / 8) :: st.stack.tail }
  else .trap st.store

/-- The operands of a host call are all there is on the stack. -/
def execImport (host : WasmHost) (site : HostCallSite) (st : St) : Res :=
  let args := st.stack.reverse
  let (r, mem) := host st.store.events site args st.store.mem
  .next ({ st with stack := [r], store := { st.store with mem := mem } }.log
    (.host site args r st.store.mem mem))

def Sentinel.cell : Sentinel → BitVec 64
  | .i32 c => (BitVec.ofInt 32 c).setWidth 64
  | .i64 c => BitVec.ofInt 64 c
  | .f64 c => BitVec.ofInt 64 c

/-- The instructions of `Wasm.Fences`, on an instance. -/
def execSimple (host : WasmHost) (i : Instr) (st : St) : Res :=
  match i with
  | .localGet id => .next (st.push (st.locals id))
  | .localSet id => .next (st.pop.setLocal id st.top)
  | .drop => .next st.pop
  | .globalGet g => .next (st.push ((st.store.counters g).setWidth 64))
  | .globalSet g =>
      .next { st.pop with
        store := { st.store with
          counters := Function.update st.store.counters g (st.top.setWidth g.bits) } }
  | .const bits c => .next (st.push ((BitVec.ofInt bits c).setWidth 64))
  | .sub bits => .next (st.pop2 ((st.below.setWidth bits - st.top.setWidth bits).setWidth 64))
  | .ltS bits =>
      .next (st.pop2 (boolWord ((st.below.setWidth bits).slt (st.top.setWidth bits))))
  | .i32Load => execLoad 32 st
  | .i32WrapI64 => .next { st with stack := (st.top.setWidth 32).setWidth 64 :: st.stack.tail }
  | .i64ExtendI32S =>
      .next { st with stack := (st.top.setWidth 32).signExtend 64 :: st.stack.tail }
  | .ifReturn v =>
      if st.top.setWidth 32 = 0#32 then .next st.pop
      else .ret (v.map Sentinel.cell).toList st.store
  | .callImport site => execImport host site st

/-! ## Structured code -/

section
variable (fa : FloatArith) (host : WasmHost)
  (callee : String → List (BitVec 64) → Store → Res)
  (again : Label → List WInstr → St → Res)

/-- Back in the caller: the result of the callee, if it has one, on the stack. -/
def St.afterCall (st : St) (argc : Nat) (result : Bool) (r : Res) : Res :=
  match r with
  | .ret vs s =>
      .next { st with
        stack := (if result then [vs.headD 0] else []) ++ st.stack.drop argc
        store := s }
  | .timeout s => .timeout s
  | r => .trap r.store

/-- Leave a block: a branch to its label goes on behind it, on the stack it was
entered with. -/
def St.leave (st : St) (l : Label) (r : Res) : Res :=
  match r with
  | .br l' st' => if l' = l then .next { st' with stack := st.stack } else .br l' st'
  | r => r

mutual

/-- One instruction; `again` is what a branch back to the head of a loop does. -/
def execInstr (i : WInstr) (st : St) : Res :=
  match i with
  | .simple i => execSimple host i st
  | .localTee id => .next (st.setLocal id st.top)
  | .bin bits op =>
      match op.eval (st.below.setWidth bits) (st.top.setWidth bits) with
      | some v => .next (st.pop2 v)
      | none => .trap st.store
  | .float op => .next (st.pop2 (op.eval fa st.below st.top))
  | .eqz bits =>
      .next { st with stack := boolWord (st.top.setWidth bits == 0) :: st.stack.tail }
  | .f64Const bits => .next (st.push bits)
  | .f64ConvertI64S => .next { st with stack := fa.ofInt st.top :: st.stack.tail }
  | .i64TruncF64S => .next { st with stack := fa.toInt st.top :: st.stack.tail }
  | .bumpGet => .next ((st.push (st.store.bump.setWidth 64)).log (.slot st.store.bump))
  | .bumpSet => .next { st.pop with store := { st.store with bump := st.top.setWidth 32 } }
  | .load bits => execLoad bits st
  | .store bits => execStore bits st
  | .call symbol argc result =>
      st.afterCall argc result (callee symbol (st.stack.take argc).reverse st.store)
  | .bbGet => .next (st.push (st.bb.setWidth 64))
  | .bbSet => .next { st.pop with bb := st.top.setWidth 32 }
  | .nop => .next st
  | .ret => .ret st.stack st.store
  | .br l => .br l st
  | .brTable targets default =>
      let k := st.top.setWidth 32
      .br (targets.getD k.toNat default) (st.pop.log (.visit k st.locals))
  | .block l body => st.leave l (execSeq body st)
  | .loop l body =>
      match execSeq body st with
      | .br l' st' =>
          if l' = l then again l body { st' with stack := st.stack } else .br l' st'
      | r => r
  | .ifElse thn els =>
      if st.top.setWidth 32 = 0#32 then execSeq els st.pop else execSeq thn st.pop

def execSeq (is : List WInstr) (st : St) : Res :=
  match is with
  | [] => .next st
  | i :: is => (execInstr i st).andThen (execSeq is)

end

end

/-! ## Modules -/

/-- An emitted function. -/
structure WFunc where
  params : List Int
  body : List WInstr

abbrev WModule := String → Option WFunc

/-- The activation a function starts with. -/
def WFunc.start (f : WFunc) (args : List (BitVec 64)) (s : Store) : St where
  locals := (f.params.zip args).foldl (fun l pa => Function.update l pa.1 pa.2) (fun _ => 0)
  bb := 0
  stack := []
  store := s

/-- The end of the body of a function returns what is on the stack. -/
def Res.atEnd : Res → Res
  | .next st | .br _ st => .ret st.stack st.store
  | r => r

section
variable (fa : FloatArith) (host : WasmHost) (m : WModule)

/-- Run code: `n` bounds how often loops and functions are entered. -/
def runCode : Nat → List WInstr → St → Res
  | 0, _, st => .timeout st.store
  | n + 1, is, st =>
      execSeq fa host
        (fun symbol args s =>
          match m symbol with
          | some f => (runCode n f.body (f.start args s)).atEnd
          | none => .trap s)
        (fun l body st => runCode n [.loop l body] st) is st

/-- Call a function of the instance. -/
def callFunc (n : Nat) (symbol : String) (args : List (BitVec 64)) (s : Store) : Res :=
  match m symbol with
  | some f => (runCode fa host m n f.body (f.start args s)).atEnd
  | none => .trap s

/-- Going round the loop `l` again. -/
def loopAgain (n : Nat) (l : Label) (body : List WInstr) (st : St) : Res :=
  runCode fa host m n [.loop l body] st

theorem runCode_succ (n : Nat) (is : List WInstr) (st : St) :
    runCode fa host m (n + 1) is st =
      execSeq fa host (callFunc fa host m n) (loopAgain fa host m n) is st := rfl

end

/-! ## Sequences -/

section
variable {fa : FloatArith} {host : WasmHost} {callee : String → List (BitVec 64) → Store → Res}
  {again : Label → List WInstr → St → Res}

@[simp] theorem execSeq_nil (st : St) : execSeq fa host callee again [] st = .next st := rfl

theorem execSeq_cons (i : WInstr) (is : List WInstr) (st : St) :
    execSeq fa host callee again (i :: is) st =
      (execInstr fa host callee again i st).andThen (execSeq fa host callee again is) := by
  rw [execSeq]

theorem andThen_execSeq_nil (r : Res) : r.andThen (execSeq fa host callee again []) = r := by
  cases r <;> rfl

theorem execSeq_singleton (i : WInstr) (st : St) :
    execSeq fa host callee again [i] st = execInstr fa host callee again i st := by
  rw [execSeq_cons, andThen_execSeq_nil]

theorem execSeq_append (is js : List WInstr) (st : St) :
    execSeq fa host callee again (is ++ js) st =
      (execSeq fa host callee again is st).andThen (execSeq fa host callee again js) := by
  induction is generalizing st with
  | nil => rfl
  | cons i is ih =>
      rw [List.cons_append, execSeq_cons, execSeq_cons]
      cases execInstr fa host callee again i st with
      | next st' => exact ih st'
      | br l st' => rfl
      | ret vs s => rfl
      | trap s => rfl
      | timeout s => rfl

end

/-! ## Invariants of the store

Code is put together from pieces by sequence, blocks, loops and conditionals.
If every piece keeps a property of the store, so does every run of the code. -/

/-- `C` says what the pieces are. -/
inductive BuiltFrom (C : List WInstr → Prop) : List WInstr → Prop
  | nil : BuiltFrom C []
  | piece {is : List WInstr} : C is → BuiltFrom C is
  | append {is js : List WInstr} : BuiltFrom C is → BuiltFrom C js → BuiltFrom C (is ++ js)
  | block {body : List WInstr} (l : Label) : BuiltFrom C body → BuiltFrom C [.block l body]
  | loop {body : List WInstr} (l : Label) : BuiltFrom C body → BuiltFrom C [.loop l body]
  | ifElse {thn els : List WInstr} : BuiltFrom C thn → BuiltFrom C els →
      BuiltFrom C [.ifElse thn els]

namespace BuiltFrom

variable {C : List WInstr → Prop}

theorem cons {i : WInstr} {is : List WInstr} (hi : C [i]) (his : BuiltFrom C is) :
    BuiltFrom C (i :: is) :=
  .append (.piece hi) his

theorem pieces {is : List WInstr} (h : ∀ i ∈ is, C [i]) : BuiltFrom C is := by
  induction is with
  | nil => exact .nil
  | cons i is ih =>
      exact .cons (h i List.mem_cons_self) (ih fun j hj => h j (List.mem_cons_of_mem i hj))

theorem flatMap {α : Type*} {f : α → List WInstr} {xs : List α}
    (h : ∀ x ∈ xs, BuiltFrom C (f x)) : BuiltFrom C (xs.flatMap f) := by
  induction xs with
  | nil => exact .nil
  | cons x xs ih =>
      rw [List.flatMap_cons]
      exact .append (h x List.mem_cons_self) (ih fun y hy => h y (List.mem_cons_of_mem x hy))

end BuiltFrom

section
variable (fa : FloatArith) (host : WasmHost)

/-- A piece keeps `I`, if the functions it calls do. -/
def KeepsStore (I : Store → Prop) (is : List WInstr) : Prop :=
  ∀ callee again, (∀ f args s, I s → I (callee f args s : Res).store) →
    ∀ st : St, I st.store → I (execSeq fa host callee again is st).store

variable {fa host}

theorem Res.andThen_store {I : Store → Prop} {r : Res} {k : St → Res} (hr : I r.store)
    (hk : ∀ st, I st.store → I (k st).store) : I (r.andThen k).store := by
  cases r with
  | next st => exact hk st hr
  | br l st => exact hr
  | ret vs s => exact hr
  | trap s => exact hr
  | timeout s => exact hr

theorem Res.atEnd_store (r : Res) : r.atEnd.store = r.store := by
  cases r <;> rfl

theorem St.leave_store (st : St) (l : Label) (r : Res) : (st.leave l r).store = r.store := by
  cases r with
  | br l' st' =>
      rw [St.leave]
      split <;> rfl
  | next st' => rfl
  | ret vs s => rfl
  | trap s => rfl
  | timeout s => rfl

/-- One round: the loops of the code start over by `again`. -/
theorem BuiltFrom.keeps_execSeq {C : List WInstr → Prop} {I : Store → Prop}
    (hC : ∀ is, C is → KeepsStore fa host I is)
    {callee : String → List (BitVec 64) → Store → Res} {again : Label → List WInstr → St → Res}
    (hcallee : ∀ f args s, I s → I (callee f args s).store)
    (hagain : ∀ l body st, BuiltFrom C body → I st.store → I (again l body st).store)
    {is : List WInstr} (h : BuiltFrom C is) :
    ∀ st : St, I st.store → I (execSeq fa host callee again is st).store := by
  induction h with
  | nil => exact fun st hst => hst
  | piece hc => exact fun st hst => hC _ hc callee again hcallee st hst
  | append _ _ ih₁ ih₂ =>
      intro st hst
      rw [execSeq_append]
      exact Res.andThen_store (ih₁ st hst) ih₂
  | block l _ ih =>
      intro st hst
      rw [execSeq_singleton, execInstr, St.leave_store]
      exact ih st hst
  | @loop body l hbody ih =>
      intro st hst
      have hround := ih st hst
      rw [execSeq_singleton, execInstr]
      split
      case h_1 l' st' hr =>
        rw [hr] at hround
        split
        · exact hagain l body _ hbody hround
        · exact hround
      case h_2 => exact hround
  | ifElse _ _ iht ihe =>
      intro st hst
      rw [execSeq_singleton, execInstr]
      split
      · exact ihe st.pop hst
      · exact iht st.pop hst

/-- Runs of a module all of whose functions are built from such pieces. -/
theorem BuiltFrom.keeps_runCode {C : List WInstr → Prop} {I : Store → Prop}
    (hC : ∀ is, C is → KeepsStore fa host I is) {m : WModule}
    (hm : ∀ symbol f, m symbol = some f → BuiltFrom C f.body) (n : Nat) {is : List WInstr}
    (h : BuiltFrom C is) :
    ∀ st : St, I st.store → I (runCode fa host m n is st).store := by
  induction n generalizing is with
  | zero => exact fun st hst => hst
  | succ n ih =>
      intro st hst
      rw [runCode_succ]
      refine h.keeps_execSeq hC ?_ ?_ st hst
      · intro symbol args s hs
        rw [callFunc]
        split
        case h_1 f hf =>
          rw [Res.atEnd_store]
          exact ih (hm symbol f hf) _ hs
        case h_2 => exact hs
      · exact fun l body st' hbody hst' => ih (.loop l hbody) st' hst'

theorem BuiltFrom.keeps_callFunc {C : List WInstr → Prop} {I : Store → Prop}
    (hC : ∀ is, C is → KeepsStore fa host I is) {m : WModule}
    (hm : ∀ symbol f, m symbol = some f → BuiltFrom C f.body) (n : Nat) (symbol : String)
    (args : List (BitVec 64)) {s : Store} (hs : I s) :
    I (callFunc fa host m n symbol args s).store := by
  rw [callFunc]
  split
  case h_1 f hf =>
    rw [Res.atEnd_store]
    exact (hm symbol f hf).keeps_runCode hC hm n _ hs
  case h_2 => exact hs

end

/-! ## Runs of an instance -/

/-- A call from the outside: function, arguments and how far it is followed. -/
structure OuterCall where
  symbol : String
  args : List (BitVec 64)
  fuel : Nat

/-- The store after the calls, each on the store the one before left. -/
def runCalls (fa : FloatArith) (host : WasmHost) (m : WModule) (s : Store)
    (calls : List OuterCall) : Store :=
  calls.foldl (fun s c => (callFunc fa host m c.fuel c.symbol c.args s).store) s

theorem runCalls_singleton (fa : FloatArith) (host : WasmHost) (m : WModule) (s : Store)
    (c : OuterCall) :
    runCalls fa host m s [c] = (callFunc fa host m c.fuel c.symbol c.args s).store := rfl

theorem BuiltFrom.keeps_runCalls {fa : FloatArith} {host : WasmHost} {C : List WInstr → Prop}
    {I : Store → Prop} (hC : ∀ is, C is → KeepsStore fa host I is) {m : WModule}
    (hm : ∀ symbol f, m symbol = some f → BuiltFrom C f.body) (calls : List OuterCall) {s : Store}
    (hs : I s) : I (runCalls fa host m s calls) := by
  induction calls generalizing s with
  | nil => exact hs
  | cons c cs ih => exact ih (BuiltFrom.keeps_callFunc hC hm c.fuel c.symbol c.args hs)

end Limceron.Wasm
