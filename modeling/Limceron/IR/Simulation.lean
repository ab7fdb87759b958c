/-
# `Limceron.IR.Simulation` — when a rewritten module runs the same

The optimization passes replace or drop single instructions and leave the shape
of the control flow alone.  So their correctness is one argument, made here
once: relate the two activations at every program point, and show that each
instruction, kept or dropped, preserves the relation.

    StepSim   one instruction against its replacement, or against nothing
    ListSim   a block against its rewritten self
    FnSim     a function: a relation that holds on entry and is preserved
    ModSim    the modules, function by function

The result is equality of `runFn` for every fuel, so traces of diverging runs
are covered too.

A pass that is right only on some runs is simulated under a `Guard`: a condition
on each instruction the run executes, given the frame and the path the
activation has taken.  `RunMeets` says that a run meets it, callees included.

A program point is a block with a position in it; `Succ` is the control flow
between points, and `¬ Avoids d p` says that `d` strictly dominates `p`.
-/
import Limceron.IR.Semantics
import Limceron.Lib.Paths

namespace Limceron

/-! ## Program points -/

/-- Position `idx` of block `bb`. -/
structure Point where
  bb : Int
  idx : Nat
  deriving DecidableEq, Repr

namespace Point

def next (p : Point) : Point := ⟨p.bb, p.idx + 1⟩

/-- The start of a block. -/
def start (b : Int) : Point := ⟨b, 0⟩

end Point

namespace IrFunction

variable (fn : IrFunction)

/-- The instruction at a point. -/
def instAt (p : Point) : Option IrInst :=
  (fn.blockInsts p.bb).bind (·[p.idx]?)

/-- The positions of a function in textual order, as the passes visit them. -/
def points : List Point :=
  fn.blocks.zipIdx.flatMap (fun bb =>
    (List.range bb.1.insts.length).map (fun k => ⟨bb.2, k⟩))

/-- Control can pass from `p` to `q`. -/
def Succ (p q : Point) : Prop :=
  ∃ i, fn.instAt p = some i ∧
    (((i.op = .jmp ∨ i.op = .br) ∧ q = .start i.targetBb) ∨
     (i.op = .br ∧ q = .start i.falseBb) ∨
     (i.isTerminator = false ∧ q = p.next))

/-- Some path from the entry reaches `p` without having executed `d`. -/
def Avoids (d p : Point) : Prop := Paths.Avoid fn.Succ (· = .start 0) (· = d) p

/-- Control can reach `p`. -/
def Reaches (p : Point) : Prop :=
  Paths.Avoid fn.Succ (· = .start 0) (fun _ => False) p

theorem instAt_next {p : Point} {i : IrInst} {is : List IrInst} {full : List IrInst}
    (hb : fn.blockInsts p.bb = some full) (hd : full.drop p.idx = i :: is) :
    fn.instAt p = some i ∧ full.drop p.next.idx = is := by
  have hi : full[p.idx]? = some i := by
    rw [← List.head?_drop, hd]; rfl
  refine ⟨by simp [instAt, hb, hi], ?_⟩
  rw [Point.next, ← List.drop_drop, hd]; rfl

end IrFunction

/-! ## Executing the instruction at a point follows `Succ` -/

section
variable {fa : FloatArith} {host : Host} {callee : String → List Val → Trace → Outcome}
  {entry : Int → Val} {prev : Int} {i : IrInst} {fr fr' : Frame} {tr tr' : Trace}

/-- The instructions that hand control to their successor in the block. -/
theorem execInst_next (h : execInst fa host callee entry prev i fr tr = .next fr' tr') :
    i.isTerminator = false := by
  have : ∀ op, i.op = op → i.isTerminator = false := by
    intro op hop
    cases op <;> simp only [IrInst.isTerminator, hop] <;> first | rfl | skip
    all_goals exfalso; simp only [execInst, hop] at h
    all_goals revert h
    case ret | br => split <;> simp
    case jmp => simp
  exact this i.op rfl

/-- A jump goes to one of the targets of a `br` or `jmp` and changes nothing. -/
theorem execInst_jump {t : Int}
    (h : execInst fa host callee entry prev i fr tr = .jump t fr' tr') :
    (((i.op = .jmp ∨ i.op = .br) ∧ t = i.targetBb) ∨ (i.op = .br ∧ t = i.falseBb)) ∧
      fr' = fr ∧ tr' = tr := by
  have assign_ne : ∀ id (o : Option Val), Flow.assign fr tr id o ≠ .jump t fr' tr' := by
    intro id o; cases o <;> simp [Flow.assign]
  have call_ne : ∀ id (o : Outcome), Flow.afterCall fr id o ≠ .jump t fr' tr' := by
    intro id o; cases o <;> simp [Flow.afterCall]
  cases hop : i.op <;> simp only [execInst, hop] at h <;>
    first
    | exact absurd h (assign_ne _ _)
    | exact absurd h (call_ne _ _)
    | (exfalso; revert h; split <;> simp; done)
    | (exfalso; revert h; simp; done)
    | skip
  case jmp =>
    obtain ⟨rfl, rfl, rfl⟩ := Flow.jump.inj h
    exact ⟨.inl ⟨.inl rfl, rfl⟩, rfl, rfl⟩
  case br =>
    split at h
    · rename_i c _
      obtain ⟨rfl, rfl, rfl⟩ := Flow.jump.inj h
      refine ⟨?_, rfl, rfl⟩
      cases hc : (c != 0)
      · exact .inr ⟨rfl, if_neg (by simp)⟩
      · exact .inl ⟨.inr rfl, if_pos rfl⟩
    · exact absurd h (by simp)

end

/-! ## Conditions on a run -/

/-- The points an activation has executed, the latest first. -/
abbrev Path := List Point

/-- A condition on executing an instruction at a point, after a path, in a frame. -/
abbrev Guard := Path → Point → IrInst → Frame → Prop

section
variable (G : Guard) (fa : FloatArith) (host : Host)
  (callee : String → List Val → Trace → Outcome)
  (calleeMeets : String → List Val → Trace → Prop)

/-- Every instruction executed in the rest of a block meets `G`, so do the
callees, and `cont` holds of the jump at its end. -/
def InstsMeet (cont : Path → Int → Frame → Trace → Prop) (entry : Int → Val) (prev : Int) :
    Path → Point → List IrInst → Frame → Trace → Prop
  | _, _, [], _, _ => True
  | h, p, i :: is, fr, tr =>
      G h p i fr ∧
      (i.op = .call →
        let args := i.callArgs.map fr.env
        let name := i.fnName.getD "unknown"
        calleeMeets name args (tr ++ [.call name args])) ∧
      match execInst fa host callee entry prev i fr tr with
      | .next fr' tr' => InstsMeet cont entry prev (p :: h) p.next is fr' tr'
      | .jump t fr' tr' => cont (p :: h) t fr' tr'
      | .stop _ => True

end

section
variable (G : IrFunction → Guard) (fa : FloatArith) (host : Host) (m : IrModule)

/-- Every instruction that `runBlock` executes meets the guard of its function. -/
def BlockMeets : Nat → IrFunction → Int → Int → Path → Frame → Trace → Prop
  | 0, _, _, _, _, _, _ => True
  | n + 1, fn, b, prev, h, fr, tr => ∀ is, fn.blockInsts b = some is →
      InstsMeet (G fn) fa host (runFn fa host m n)
        (fun name args tr' => ∀ g, m.lookup name = some g →
          BlockMeets n g 0 (-1) [] (Frame.init g args) tr')
        (fun h' t fr' tr' => BlockMeets n fn t b h' fr' tr') fr.env prev h (.start b) is fr tr

/-- Every instruction that `runFn` executes meets the guard of its function. -/
def RunMeets (n : Nat) (name : String) (args : List Val) (tr : Trace) : Prop :=
  ∀ g, m.lookup name = some g → BlockMeets G fa host m n g 0 (-1) [] (Frame.init g args) tr

variable {G fa host m}

theorem InstsMeet.of_points {fn : IrFunction} {G : Guard}
    {callee : String → List Val → Trace → Outcome} {calleeMeets : String → List Val → Trace → Prop}
    {cont : Path → Int → Frame → Trace → Prop}
    (hG : ∀ h p i fr, fn.instAt p = some i → G h p i fr)
    (hcallee : ∀ name args tr, calleeMeets name args tr)
    (hcont : ∀ h t fr tr, cont h t fr tr) {entry : Int → Val} {prev : Int} {full : List IrInst} :
    ∀ (is : List IrInst) (h : Path) (p : Point) (fr : Frame) (tr : Trace),
      fn.blockInsts p.bb = some full → full.drop p.idx = is →
      InstsMeet G fa host callee calleeMeets cont entry prev h p is fr tr
  | [], _, _, _, _, _, _ => trivial
  | i :: is, h, p, fr, tr, hb, hd => by
      obtain ⟨hi, hd'⟩ := fn.instAt_next hb hd
      refine ⟨hG h p i fr hi, fun _ => hcallee _ _ _, ?_⟩
      cases execInst fa host callee entry prev i fr tr with
      | next fr' tr' => exact InstsMeet.of_points hG hcallee hcont is _ _ _ _ hb hd'
      | jump t fr' tr' => exact hcont _ _ _ _
      | stop o => trivial

/-- A guard that holds at every point of every function is met by every run. -/
theorem RunMeets.of_points
    (hG : ∀ fn ∈ m.functions, ∀ h p i fr, fn.instAt p = some i → G fn h p i fr) (n : Nat)
    (name : String) (args : List Val) (tr : Trace) : RunMeets G fa host m n name args tr := by
  have blocks : ∀ n, ∀ fn ∈ m.functions, ∀ b prev h fr tr,
      BlockMeets G fa host m n fn b prev h fr tr := by
    intro n
    induction n with
    | zero => exact fun _ _ _ _ _ _ _ => trivial
    | succ n ih =>
        exact fun fn hfn b prev h fr tr is his =>
          .of_points (hG fn hfn)
            (fun _ _ _ g hg => ih g (List.mem_of_find?_eq_some hg) _ _ _ _ _)
            (fun _ _ _ _ => ih fn hfn _ _ _ _ _) is _ _ _ _ his (List.drop_zero ..)
  exact fun g hg => blocks n g (List.mem_of_find?_eq_some hg) _ _ _ _ _

end

/-! ## The simulation argument -/

/-- A relation between two activations at a point, after a path of the first.
`entry` and `entry'` are the environments the current block was entered with. -/
abbrev PointRel := Path → Point → (Int → Val) → Frame → (Int → Val) → Frame → Prop

/-- Two instructions did the same and left related activations. -/
def FlowSim (R : PointRel) (h : Path) (p : Point) (entry entry' : Int → Val) :
    Flow → Flow → Prop
  | .next fr tr, .next fr' tr' => tr = tr' ∧ R (p :: h) p.next entry fr entry' fr'
  | .jump t fr tr, .jump t' fr' tr' =>
      t = t' ∧ tr = tr' ∧ R (p :: h) (.start t) fr.env fr fr'.env fr'
  | .stop o, .stop o' => o = o'
  | _, _ => False

section
variable (fa : FloatArith) (G : Guard) (R : PointRel)

/-- The instruction at `p` is simulated by its replacement, or, where it is
dropped, by doing nothing. -/
def StepSim (p : Point) (i : IrInst) : Option IrInst → Prop
  | some i' => ∀ host callee h entry prev fr entry' fr' tr, R h p entry fr entry' fr' →
      G h p i fr → FlowSim R h p entry entry' (execInst fa host callee entry prev i fr tr)
        (execInst fa host callee entry' prev i' fr' tr)
  | none => ∀ host callee h entry prev fr entry' fr' tr, R h p entry fr entry' fr' →
      G h p i fr → ∃ fr₁, execInst fa host callee entry prev i fr tr = .next fr₁ tr ∧
        R (p :: h) p.next entry fr₁ entry' fr'

/-- A block against its rewritten self, from a point on. -/
inductive ListSim : Point → List IrInst → List IrInst → Prop
  | nil {p : Point} : ListSim p [] []
  | keep {p : Point} {i i' : IrInst} {is is' : List IrInst} :
      StepSim fa G R p i (some i') → ListSim p.next is is' →
      ListSim p (i :: is) (i' :: is')
  | drop {p : Point} {i : IrInst} {is is' : List IrInst} :
      StepSim fa G R p i none → ListSim p.next is is' → ListSim p (i :: is) is'

end

/-- The same for whole blocks, which end in a jump or a stop; `cont` is what the
guard asks of the run after the jump. -/
def EndSim (R : PointRel) (cont : Path → Int → Frame → Trace → Prop) : Flow → Flow → Prop
  | .jump t fr tr, .jump t' fr' tr' => t = t' ∧ tr = tr' ∧
      ∃ h, R h (.start t) fr.env fr fr'.env fr' ∧ cont h t fr tr
  | .stop o, .stop o' => o = o'
  | _, _ => False

section
variable {fa : FloatArith} {G : Guard} {R : PointRel} {host : Host}
  {callee callee' : String → List Val → Trace → Outcome}
  {calleeMeets : String → List Val → Trace → Prop} {cont : Path → Int → Frame → Trace → Prop}

/-- An instruction asks its callee only about the call it makes. -/
theorem execInst_callee {entry : Int → Val} {prev : Int} {i : IrInst} {fr : Frame} {tr : Trace}
    (hc : i.op = .call → callee (i.fnName.getD "unknown") (i.callArgs.map fr.env)
        (tr ++ [.call (i.fnName.getD "unknown") (i.callArgs.map fr.env)]) =
      callee' (i.fnName.getD "unknown") (i.callArgs.map fr.env)
        (tr ++ [.call (i.fnName.getD "unknown") (i.callArgs.map fr.env)])) :
    execInst fa host callee entry prev i fr tr = execInst fa host callee' entry prev i fr tr := by
  cases hop : i.op <;> simp only [execInst, hop]
  case call => rw [hc hop]

/-- The rest of a block: same trace and outcome, or the same jump with related
activations. -/
theorem ListSim.exec {p : Point} {is is' : List IrInst} (hl : ListSim fa G R p is is')
    (hc : ∀ name args tr, calleeMeets name args tr → callee name args tr = callee' name args tr) :
    ∀ {h : Path} {entry entry' : Int → Val} {prev : Int} {fr fr' : Frame} {tr : Trace},
      R h p entry fr entry' fr' →
      InstsMeet G fa host callee calleeMeets cont entry prev h p is fr tr →
      EndSim R cont (execInsts fa host callee entry prev is fr tr)
        (execInsts fa host callee' entry' prev is' fr' tr) := by
  induction hl with
  | nil => intros; simp [execInsts, EndSim]
  | @keep p i i' is is' hi _ ih =>
      intro h entry entry' prev fr fr' tr hR ⟨hG, hcall, hrest⟩
      have hs := hi host callee' h entry prev fr entry' fr' tr hR hG
      rw [← execInst_callee (fun hop => hc _ _ _ (hcall hop))] at hs
      simp only [execInsts]
      revert hs hrest
      cases execInst fa host callee entry prev i fr tr <;>
        cases execInst fa host callee' entry' prev i' fr' tr <;>
        simp only [FlowSim, EndSim, false_imp_iff, imp_self, implies_true]
      · rintro hrest ⟨rfl, hR'⟩
        exact ih hR' hrest
      · rintro hrest ⟨rfl, rfl, hR'⟩
        exact ⟨rfl, rfl, _, hR', hrest⟩
  | @drop p i is is' hi _ ih =>
      intro h entry entry' prev fr fr' tr hR ⟨hG, hcall, hrest⟩
      obtain ⟨fr₁, he, hR'⟩ := hi host callee h entry prev fr entry' fr' tr hR hG
      simp only [he] at hrest
      simp only [execInsts, he]
      exact ih hR' hrest

end

/-- The blocks of `fn'` are the blocks of `fn` rewritten. -/
def BlocksSim (fa : FloatArith) (G : Guard) (R : PointRel) (fn fn' : IrFunction) : Prop :=
  (∀ b is, fn.blockInsts b = some is →
    ∃ is', fn'.blockInsts b = some is' ∧ ListSim fa G R (.start b) is is') ∧
  (∀ b, fn.blockInsts b = none → fn'.blockInsts b = none)

/-- If no instruction is dropped, it is enough to look at the points. -/
theorem BlocksSim.of_points {fa : FloatArith} {G : Guard} {R : PointRel} {fn fn' : IrFunction}
    (hblocks : ∀ b, (fn'.blockInsts b).isSome = (fn.blockInsts b).isSome)
    (hnone : ∀ p, fn.instAt p = none → fn'.instAt p = none)
    (hstep : ∀ p i, fn.instAt p = some i →
      ∃ i', fn'.instAt p = some i' ∧ StepSim fa G R p i (some i')) :
    BlocksSim fa G R fn fn' := by
  constructor
  · intro b is hb
    obtain ⟨is', hb'⟩ := Option.isSome_iff_exists.mp ((hblocks b).trans (by simp [hb]))
    refine ⟨is', hb', ?_⟩
    suffices h : ∀ (js : List IrInst) (k : Nat), is.drop k = js →
        ListSim fa G R ⟨b, k⟩ js (is'.drop k) from h is 0 rfl
    intro js
    induction js with
    | nil =>
        intro k hd
        have hno : fn.instAt ⟨b, k⟩ = none := by
          simp [IrFunction.instAt, hb, List.drop_eq_nil_iff.mp hd]
        have := hnone _ hno
        simp only [IrFunction.instAt, hb', Option.bind_some, List.getElem?_eq_none_iff] at this
        rw [List.drop_eq_nil_iff.mpr this]
        exact .nil
    | cons i js ih =>
        intro k hd
        obtain ⟨hi, hd'⟩ := fn.instAt_next (p := ⟨b, k⟩) hb hd
        obtain ⟨i', hi', hs⟩ := hstep _ i hi
        simp only [IrFunction.instAt, hb', Option.bind_some, List.getElem?_eq_some_iff] at hi'
        obtain ⟨hlt, rfl⟩ := hi'
        rw [List.drop_eq_getElem_cons hlt]
        exact .keep hs (ih (k + 1) hd')
  · intro b hb
    have := hblocks b
    simpa [hb] using this

/-- The two functions have the same interface, and some relation holds on entry
and along every block, as long as the guard is met. -/
structure FnSim (fa : FloatArith) (G : Guard) (fn fn' : IrFunction) : Prop where
  name : fn'.name = fn.name
  params : fn'.params = fn.params
  rel : ∃ R : PointRel,
    (∀ args, R [] (.start 0) (Frame.init fn args).env (Frame.init fn args)
      (Frame.init fn args).env (Frame.init fn args)) ∧ BlocksSim fa G R fn fn'

/-- The guard that asks nothing. -/
def Guard.none : Guard := fun _ _ _ _ => True

/-- Function by function. -/
def ModSim (fa : FloatArith) (G : IrFunction → Guard) (m m' : IrModule) : Prop :=
  List.Forall₂ (fun fn fn' => FnSim fa (G fn) fn fn') m.functions m'.functions

theorem find_name_sim {fa : FloatArith} {G : IrFunction → Guard} {fs fs' : List IrFunction}
    (h : List.Forall₂ (fun fn fn' => FnSim fa (G fn) fn fn') fs fs') (name : String) :
    (fs.find? (·.name == name) = none ∧ fs'.find? (·.name == name) = none) ∨
      ∃ g g', fs.find? (·.name == name) = some g ∧ fs'.find? (·.name == name) = some g' ∧
        FnSim fa (G g) g g' := by
  induction h with
  | nil => exact .inl ⟨rfl, rfl⟩
  | @cons f f' fs fs' hf _ ih =>
      by_cases hn : f.name = name
      · exact .inr ⟨f, f', by simp [hn], by simp [hf.name, hn], hf⟩
      · simpa [List.find?_cons, hn, hf.name] using ih

section
variable {fa : FloatArith} {G : IrFunction → Guard} {m m' : IrModule} {host : Host}

/-- One more unit of fuel: if the functions agree at smaller fuel, then so do
blocks of simulated functions, by induction on the blocks still to run. -/
theorem BlocksSim.runBlock_eq {R : PointRel} {fn fn' : IrFunction}
    (hb : BlocksSim fa (G fn) R fn fn') :
    ∀ n, (∀ k < n, ∀ name args tr, RunMeets G fa host m k name args tr →
        runFn fa host m k name args tr = runFn fa host m' k name args tr) →
      ∀ b prev h fr fr' tr, R h (.start b) fr.env fr fr'.env fr' →
        BlockMeets G fa host m n fn b prev h fr tr →
        runBlock fa host m n fn b prev fr tr = runBlock fa host m' n fn' b prev fr' tr
  | 0, _, _, _, _, _, _, _, _, _ => rfl
  | n + 1, hfn, b, prev, h, fr, fr', tr, hR, hmeets => by
      rw [runBlock_succ, runBlock_succ]
      cases hi : fn.blockInsts b with
      | none => simp only [hb.2 b hi]
      | some is =>
          obtain ⟨is', hi', hl⟩ := hb.1 b is hi
          have he := hl.exec (hfn n (Nat.lt_succ_self n)) hR (hmeets is hi)
          simp only [hi']
          revert he
          cases execInsts fa host (runFn fa host m n) fr.env prev is fr tr <;>
            cases execInsts fa host (runFn fa host m' n) fr'.env prev is' fr' tr <;>
            simp only [EndSim, false_imp_iff, imp_self]
          rintro ⟨rfl, rfl, h', hR', hmeets'⟩
          exact BlocksSim.runBlock_eq hb n (fun k hk => hfn k (Nat.lt_succ_of_lt hk))
            _ _ _ _ _ _ hR' hmeets'

/-- Simulated modules run alike, as long as the run meets the guard. -/
theorem ModSim.runFn_eq (hm : ModSim fa G m m') (n : Nat) :
    ∀ name args tr, RunMeets G fa host m n name args tr →
      runFn fa host m n name args tr = runFn fa host m' n name args tr := by
  induction n using Nat.strongRecOn with
  | _ n ih =>
      intro name args tr hmeets
      unfold runFn
      rcases find_name_sim hm name with ⟨h, h'⟩ | ⟨g, g', h, h', hg⟩
      · rw [IrModule.lookup, IrModule.lookup, h, h']
      · obtain ⟨R, hinit, hb⟩ := hg.rel
        have hi : Frame.init g' args = Frame.init g args := by
          simp only [Frame.init, hg.params]
        simp only [IrModule.lookup, h, h', hi]
        exact hb.runBlock_eq n ih _ _ _ _ _ _ (hinit args) (hmeets g h)

end

/-- `m'` behaves as `m`: whatever the host answers and however long the run,
every function gives the same outcome with the same trace of calls, host calls
and prints. -/
def SameRuns (fa : FloatArith) (m m' : IrModule) : Prop :=
  ∀ (host : Host) (n : Nat) (name : String) (args : List Val) (tr : Trace),
    runFn fa host m' n name args tr = runFn fa host m n name args tr

/-- Without a guard: modules simulated at every point run alike. -/
theorem ModSim.sameRuns {fa : FloatArith} {m m' : IrModule}
    (hm : ModSim fa (fun _ => .none) m m') : SameRuns fa m m' :=
  fun _ n name args tr =>
    (hm.runFn_eq n name args tr (.of_points (fun _ _ _ _ _ _ _ => trivial) n name args tr)).symm

end Limceron
