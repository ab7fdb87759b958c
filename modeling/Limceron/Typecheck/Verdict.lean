/-
# `Limceron.Typecheck.Verdict` — the verdict of the type checker

`typecheck_program` runs its passes one after the other on one `ErrorReporter`
and decides by counting:

| | counted |
| :-- | :-- |
| total | the entries of the reporter at the end, at most `MAX_ERRORS` |
| advisory | what the count went up by over the three advisory passes |
| verdict | accepted, if total and advisory are the same |

A pass reads the reporter only to report, so what it raises depends on the
program alone; `raises` is that, for each pass.  An entry is an entry, whether
error or warning, and what does not fit into the reporter is not counted:
`verdictSound_iff` says when the verdict is right all the same.
-/
import Mathlib.Data.List.Basic

namespace Limceron.Typecheck

/-! ## The first entries of a list -/

section
variable {α : Type*}

/-- What has been cut off makes no difference to what is kept. -/
theorem take_append_of_take (l m : List α) (n : Nat) : (l.take n ++ m).take n = (l ++ m).take n := by
  rw [List.take_append, List.take_append, List.take_take, Nat.min_self, List.length_take]
  by_cases h : l.length ≤ n
  · rw [Nat.min_eq_right h]
  · rw [Nat.min_eq_left (by omega), Nat.sub_self, Nat.sub_eq_zero_of_le (by omega)]

/-- An entry without the property is among the first `n` if fewer than `n` with it
come before. -/
theorem exists_mem_take_iff (p : α → Bool) (l : List α) (n : Nat) :
    (∃ a ∈ l.take n, p a = false) ↔ (∃ a ∈ l, p a = false) ∧ (l.takeWhile p).length < n := by
  induction l generalizing n with
  | nil => simp
  | cons a l ih =>
      cases n with
      | zero => simp
      | succ n =>
          rw [List.take_succ_cons]
          cases ha : p a with
          | false => simp [ha]
          | true => simp [ha, ih]

end

/-! ## The reporter -/

/-- `CompileError`. -/
structure Diagnostic where
  message : String
  hint : Option String := none
  isWarning : Bool
  deriving DecidableEq, Repr

def maxErrors : Nat := 100

structure ErrorReporter where
  errors : List Diagnostic
  bounded : errors.length ≤ maxErrors

namespace ErrorReporter

/-- A reporter with no entries. -/
def new : ErrorReporter := ⟨[], Nat.zero_le maxErrors⟩

def count (r : ErrorReporter) : Nat := r.errors.length

/-- `emit_diagnostic`. -/
def emit (r : ErrorReporter) (d : Diagnostic) : ErrorReporter :=
  if h : maxErrors ≤ r.count then r
  else
    { errors := r.errors ++ [d]
      bounded := by
        rw [List.length_append, List.length_singleton]
        exact Nat.lt_of_not_le h }

def emitAll (r : ErrorReporter) (ds : List Diagnostic) : ErrorReporter := ds.foldl emit r

theorem emit_errors (r : ErrorReporter) (d : Diagnostic) :
    (r.emit d).errors = (r.errors ++ [d]).take maxErrors := by
  have hb := r.bounded
  unfold emit
  split
  · rename_i h
    have hlen : r.errors.length = maxErrors := Nat.le_antisymm hb h
    rw [List.take_append_of_le_length (Nat.le_of_eq hlen.symm), List.take_of_length_le hb]
  · rename_i h
    have hlt : r.errors.length < maxErrors := Nat.lt_of_not_le h
    rw [List.take_of_length_le]
    rw [List.length_append, List.length_singleton]
    exact hlt

/-- The reporter keeps the first entries. -/
theorem emitAll_errors (r : ErrorReporter) (ds : List Diagnostic) :
    (r.emitAll ds).errors = (r.errors ++ ds).take maxErrors := by
  induction ds generalizing r with
  | nil => exact (List.append_nil r.errors).symm ▸ (List.take_of_length_le r.bounded).symm
  | cons d ds ih =>
      show ((r.emit d).emitAll ds).errors = _
      rw [ih, emit_errors, take_append_of_take, List.append_assoc, List.singleton_append]

end ErrorReporter

/-! ## The passes -/

inductive Pass where
  | declarations | capabilities | allowlists | hostCalls | access | guards | taint | secrets
  | budgets | types | interp | enums | visibility | ownership | infer
  deriving DecidableEq, Repr

namespace Pass

/-- Suggestions only. -/
def advisory : Pass → Bool
  | guards | enums | ownership => true
  | _ => false

/-- The passes as `typecheck_program` calls them. -/
def order : List Pass :=
  [declarations, capabilities, allowlists, hostCalls, access, guards, taint, secrets, budgets,
    types, interp, enums, visibility, ownership, infer]

theorem mem_order (p : Pass) : p ∈ order := by
  cases p <;> decide

end Pass

/-- One pass; `st.2` is the number of advisory entries so far. -/
def runPass (raises : Pass → List Diagnostic) (st : ErrorReporter × Nat) (p : Pass) :
    ErrorReporter × Nat :=
  let r := st.1.emitAll (raises p)
  (r, if p.advisory then st.2 + (r.count - st.1.count) else st.2)

/-- `typecheck_program`. -/
def typecheckProgram (raises : Pass → List Diagnostic) (r : ErrorReporter) :
    Bool × ErrorReporter :=
  let st := Pass.order.foldl (runPass raises) (r, 0)
  let enforced : Int := st.1.count - st.2
  (enforced == 0, st.1)

/-! ## What is counted -/

section
variable (raises : Pass → List Diagnostic)

/-- The entries the passes raise, each with its pass. -/
def raisedBy (ps : List Pass) : List (Pass × Diagnostic) :=
  ps.flatMap fun p => (raises p).map fun d => (p, d)

/-- What the reporter and the counter hold after some passes. -/
structure Counted (ps : List Pass) (st : ErrorReporter × Nat) : Prop where
  errors : st.1.errors = ((raisedBy raises ps).take maxErrors).map (·.2)
  advisory : st.2 = ((raisedBy raises ps).take maxErrors).countP fun e => e.1.advisory

variable {raises}

theorem Counted.step {ps : List Pass} {st : ErrorReporter × Nat} (h : Counted raises ps st)
    (p : Pass) : Counted raises (ps ++ [p]) (runPass raises st p) := by
  have hraised : raisedBy raises (ps ++ [p]) =
      raisedBy raises ps ++ (raises p).map fun d => (p, d) := by
    simp [raisedBy]
  have herrors : (st.1.emitAll (raises p)).errors =
      ((raisedBy raises (ps ++ [p])).take maxErrors).map (·.2) := by
    rw [ErrorReporter.emitAll_errors, h.errors, List.map_take, take_append_of_take, hraised,
      List.map_take, List.map_append, List.map_map]
    congr 2
    exact (List.map_id (raises p)).symm
  refine ⟨herrors, ?_⟩
  -- The entries of `p` that are kept stand behind those kept before.
  have hkept : (raisedBy raises (ps ++ [p])).take maxErrors =
      (raisedBy raises ps).take maxErrors ++
        ((raises p).map fun d => (p, d)).take (maxErrors - (raisedBy raises ps).length) := by
    rw [hraised, List.take_append]
  have hsame : (((raises p).map fun d => (p, d)).take
      (maxErrors - (raisedBy raises ps).length)).countP (fun e => e.1.advisory) =
        if p.advisory then (raises p |>.take (maxErrors - (raisedBy raises ps).length)).length
        else 0 := by
    rw [← List.map_take, List.countP_map]
    cases hp : p.advisory
    · simp [Function.comp_def, hp]
    · simp [Function.comp_def, hp, List.countP_true]
  show (if p.advisory then st.2 + ((st.1.emitAll (raises p)).count - st.1.count) else st.2) = _
  rw [hkept, List.countP_append, ← h.advisory, hsame, ErrorReporter.count, ErrorReporter.count,
    herrors, h.errors, hkept]
  split
  · simp
  · rw [Nat.add_zero]

theorem counted_order (raises : Pass → List Diagnostic) :
    Counted raises Pass.order (Pass.order.foldl (runPass raises) (.new, 0)) := by
  have hrun : ∀ ps done st, Counted raises done st →
      Counted raises (done ++ ps) (ps.foldl (runPass raises) st) := by
    intro ps
    induction ps with
    | nil =>
        intro done st h
        rwa [List.append_nil]
    | cons p ps ih =>
        intro done st h
        rw [List.append_cons]
        exact ih _ _ (h.step p)
  exact hrun Pass.order [] _ ⟨rfl, rfl⟩

/-- The verdict is negative if some entry of an enforced pass is kept. -/
theorem typecheckProgram_false_iff :
    (typecheckProgram raises .new).1 = false ↔
      ∃ e ∈ (raisedBy raises Pass.order).take maxErrors, e.1.advisory = false := by
  have hc := counted_order raises
  have hlen := congrArg List.length hc.errors
  rw [List.length_map] at hlen
  simp only [typecheckProgram, beq_eq_false_iff_ne, ne_eq, ErrorReporter.count, hlen, hc.advisory]
  rw [Int.sub_eq_zero, Int.natCast_inj, eq_comm, List.countP_eq_length]
  simp

end

/-! ## The verdict -/

section
variable (raises : Pass → List Diagnostic)

/-- An enforced pass raises an error. -/
def EnforcedError : Prop := ∃ p, p.advisory = false ∧ ∃ d ∈ raises p, d.isWarning = false

/-- An enforced pass raises something. -/
def EnforcedEntry : Prop := ∃ p, p.advisory = false ∧ raises p ≠ []

/-- How many advisory entries come before the first one of an enforced pass. -/
def advisoryBefore : Nat :=
  ((raisedBy raises Pass.order).takeWhile fun e => e.1.advisory).length

/-- The checker rejects exactly the programs with an enforced error. -/
def VerdictSound : Prop := (typecheckProgram raises .new).1 = false ↔ EnforcedError raises

variable {raises}

theorem EnforcedError.entry (h : EnforcedError raises) : EnforcedEntry raises := by
  obtain ⟨p, hp, d, hd, -⟩ := h
  exact ⟨p, hp, List.ne_nil_of_mem hd⟩

/-- A program is rejected for the first entry of an enforced pass, if the reporter
has room for it. -/
theorem rejected_iff :
    (typecheckProgram raises .new).1 = false ↔
      EnforcedEntry raises ∧ advisoryBefore raises < maxErrors := by
  refine typecheckProgram_false_iff.trans
    ((exists_mem_take_iff (fun e : Pass × Diagnostic => e.1.advisory) _ _).trans
      (and_congr_left fun _ => ?_))
  simp only [raisedBy, List.mem_flatMap, List.mem_map, EnforcedEntry]
  constructor
  · rintro ⟨_, ⟨p, -, d, hd, rfl⟩, hp⟩
    exact ⟨p, hp, List.ne_nil_of_mem hd⟩
  · rintro ⟨p, hp, hne⟩
    obtain ⟨d, hd⟩ := List.exists_mem_of_ne_nil _ hne
    exact ⟨(p, d), ⟨p, p.mem_order, d, hd, rfl⟩, hp⟩

/-- The verdict is right if no enforced pass raises warnings alone, and an enforced
error is not behind a reporter full of suggestions. -/
theorem verdictSound_iff (raises : Pass → List Diagnostic) :
    VerdictSound raises ↔
      (EnforcedEntry raises → advisoryBefore raises < maxErrors → EnforcedError raises) ∧
        (EnforcedError raises → advisoryBefore raises < maxErrors) := by
  rw [VerdictSound, rejected_iff]
  constructor
  · intro h
    exact ⟨fun he hroom => h.mp ⟨he, hroom⟩, fun he => (h.mpr he).2⟩
  · rintro ⟨hwarn, hroom⟩
    exact ⟨fun h => hwarn h.1 h.2, fun he => ⟨he.entry, hroom he⟩⟩

end

/-- The warning of `walk_for_host_calls` at a call that the contract does not list. -/
def undeclaredHostCall (name : String) : Diagnostic where
  message := s!"host call '{name}' is not declared in the canonical " ++
    "include/vdag.wit contract -- falling back to emit-WIT advertisement"
  hint := some "add the function to include/vdag.wit or remove the call"
  isWarning := true

/-- `fn main() { let x = llm.summarise(1) }` -/
def warnedProgram : Pass → List Diagnostic
  | .hostCalls => [undeclaredHostCall "llm.summarise"]
  | _ => []

/-- A single warning, and the program is rejected. -/
theorem verdict_of_warning : ¬ ∀ raises : Pass → List Diagnostic, VerdictSound raises := by
  intro h
  have hrejected : (typecheckProgram warnedProgram .new).1 = false := by rfl
  obtain ⟨p, -, d, hd, hwarn⟩ := (h warnedProgram).mp hrejected
  cases p <;> simp [warnedProgram, undeclaredHostCall] at hd
  rw [hd] at hwarn
  cases hwarn

end Limceron.Typecheck
