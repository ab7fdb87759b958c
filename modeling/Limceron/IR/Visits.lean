/-
# `Limceron.IR.Visits` — which blocks a run goes through

The log of a run has an entry for every block it enters, with the values its
phis take for the edge it came by, and one for every alloca it executes, callees
included and in the order of the run.  It is read off the run: the log steps
through a block by `execInst`, as `InstsMeet` does.
-/
import Limceron.IR.Semantics

namespace Limceron

inductive RunEvent where
  /-- A block is entered; its phis with the values of their pairs. -/
  | visit (b : Int) (phis : List (Int × Val))
  | slot

/-- The phis of a block entered from `prev` in an environment. -/
def phiValues (entry : Int → Val) (prev : Int) (is : List IrInst) : List (Int × Val) :=
  (is.filter (·.op == .phi)).map fun i => (i.id, phiValue entry prev i.phiArgs)

/-- The allocas of a log. -/
def slotCount : List RunEvent → Nat
  | [] => 0
  | .visit _ _ :: l => slotCount l
  | .slot :: l => slotCount l + 1

@[simp] theorem slotCount_append (l l' : List RunEvent) :
    slotCount (l ++ l') = slotCount l + slotCount l' := by
  induction l with
  | nil => exact (Nat.zero_add _).symm
  | cons e l ih =>
      cases e with
      | visit b phis => exact ih
      | slot =>
          rw [List.cons_append, slotCount, slotCount, ih]
          omega

section
variable (fa : FloatArith) (host : Host) (callee : String → List Val → Trace → Outcome)
  (calleeLog : String → List Val → Trace → List RunEvent)

/-- What one instruction adds. -/
def instLog (i : IrInst) (fr : Frame) (tr : Trace) : List RunEvent :=
  match i.op with
  | .alloca => [.slot]
  | .call =>
      let args := i.callArgs.map fr.env
      let name := i.fnName.getD "unknown"
      calleeLog name args (tr ++ [.call name args])
  | _ => []

/-- What the rest of a block adds. -/
def instsLog (entry : Int → Val) (prev : Int) : List IrInst → Frame → Trace → List RunEvent
  | [], _, _ => []
  | i :: is, fr, tr =>
      instLog calleeLog i fr tr ++
        match execInst fa host callee entry prev i fr tr with
        | .next fr' tr' => instsLog entry prev is fr' tr'
        | _ => []

end

section
variable (fa : FloatArith) (host : Host) (m : IrModule)

/-- The log of `runBlock`. -/
def blockLog : Nat → IrFunction → Int → Int → Frame → Trace → List RunEvent
  | 0, _, _, _, _, _ => []
  | n + 1, fn, b, prev, fr, tr =>
      match fn.blockInsts b with
      | none => []
      | some is =>
          let calleeLog := fun name args tr' =>
            match m.lookup name with
            | none => []
            | some g => blockLog n g 0 (-1) (Frame.init g args) tr'
          .visit b (phiValues fr.env prev is) ::
            (instsLog fa host (runFn fa host m n) calleeLog fr.env prev is fr tr ++
              match execInsts fa host (runFn fa host m n) fr.env prev is fr tr with
              | .jump t fr' tr' => blockLog n fn t b fr' tr'
              | _ => [])

/-- The log of `runFn`. -/
def runLog (n : Nat) (name : String) (args : List Val) (tr : Trace) : List RunEvent :=
  match m.lookup name with
  | none => []
  | some g => blockLog fa host m n g 0 (-1) (Frame.init g args) tr

theorem blockLog_succ (n : Nat) (fn : IrFunction) (b prev : Int) (fr : Frame) (tr : Trace) :
    blockLog fa host m (n + 1) fn b prev fr tr =
      match fn.blockInsts b with
      | none => []
      | some is =>
          .visit b (phiValues fr.env prev is) ::
            (instsLog fa host (runFn fa host m n) (runLog fa host m n) fr.env prev is fr tr ++
              match execInsts fa host (runFn fa host m n) fr.env prev is fr tr with
              | .jump t fr' tr' => blockLog fa host m n fn t b fr' tr'
              | _ => []) := rfl

end

end Limceron
