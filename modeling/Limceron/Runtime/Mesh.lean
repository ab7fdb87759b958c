/-
# `Limceron.Runtime.Mesh` — pipelines of agents, and what runs at the same time

`runtime/mesh.c`.  The routes of a mesh are taken one after the other, each with what the
last one gave.  In a route that fans, the agents are tasks of the thread pool:

| | the thread that executes | a task |
| :-- | :-- | :-- |
| spawning | gives a task to the pool for each agent | completes at any time |
| awaiting | waits for the handles in order | |
| draining | the same, once an agent has failed and the mesh fails fast | |

The texts are then put together, in the order of the agents.  However the tasks are run,
the execution ends with what the routes give one at a time (`execute_sequential`).

An agent is a function of its input, and gives a text, or `NULL`.  Its name is written in
the program.  What is logged is left out; every allocation succeeds.
-/
import Limceron.Json.Value
import Limceron.Lib.Systems

namespace Limceron.Runtime.Mesh

open Systems Json

/-! ## The data -/

/-- The name of an agent; with the text around it, its length is an `int`. -/
structure AgentName where
  bytes : List UInt8
  short : bytes.length < 2 ^ 31 - 64

abbrev LcnMeshAgentFn := List UInt8 → Option (List UInt8)

structure Agent where
  name : Option AgentName
  fn : LcnMeshAgentFn

/-- An entry of the results; as `calloc` leaves it, if nothing is said. -/
structure LcnMeshTaskResult where
  agentName : Option AgentName := none
  result : Option (List UInt8) := none
  error : Option String := none
  ok : Bool := false

def LcnMeshTaskResult.zero : LcnMeshTaskResult := {}

/-- `LcnMeshRoute`; a function that is not there passes its input on. -/
inductive LcnMeshRoute where
  | single (source target : Option LcnMeshAgentFn)
  | fanOut (source : Option LcnMeshAgentFn) (targets : List Agent)
  | fanIn (sources : List Agent) (target : Option LcnMeshAgentFn)

structure LcnMesh where
  routes : List LcnMeshRoute
  failFast : Bool

/-- The error, or the value that is also the output. -/
abbrev LcnResult := Except String (List UInt8)

/-! ## A task -/

/-- `mesh_task_wrapper`. -/
def meshTaskWrapper (agent : Agent) (input : List UInt8) : LcnMeshTaskResult :=
  match agent.fn input with
  | some (c :: output) => { agentName := agent.name, result := some (c :: output), ok := true }
  | _ => { agentName := agent.name, error := some "agent returned empty or null result" }

/-! ## Putting the texts together -/

/-- `sep`. -/
def sep : List UInt8 := ascii "\n---\n"

/-- How much is counted for an entry. -/
def pieceSize (r : LcnMeshTaskResult) : ℕ :=
  match r.ok, r.result with
  | true, some text => text.length
  | _, _ =>
      32 + (r.agentName.map (·.bytes.length)).getD 0 +
        (r.error.map fun error => (ascii error).length + 2).getD 0

/-- The loop that counts. -/
def sizeLoop (results : List LcnMeshTaskResult) (total : ℕ) : ℕ :=
  results.foldl (fun total r => (if 0 < total then total + sep.length else total) + pieceSize r)
    total

/-- What was written, and where it goes on. -/
structure Buffer where
  text : List UInt8
  pos : ℕ

/-- `memcpy`. -/
def Buffer.copy (buf : Buffer) (s : List UInt8) : Buffer :=
  ⟨buf.text.take buf.pos ++ s, buf.pos + s.length⟩

/-- `snprintf` with room for so many bytes: it gives the length of the text, or less than zero,
where that is no `int`. -/
def Buffer.print (buf : Buffer) (room : ℕ) (s : List UInt8) : Buffer :=
  let written : ℤ := if s.length < 2 ^ 31 then s.length else -1
  { text := buf.text.take buf.pos ++ s.take room
    pos := if 0 < written then buf.pos + written.toNat else buf.pos }

/-- `[ERROR: …: …]`. -/
def errorMarker (name : Option AgentName) (error : Option String) : List UInt8 :=
  ascii "[ERROR: " ++ (name.map (·.bytes)).getD (ascii "?") ++ ascii ": " ++
    ascii (error.getD "unknown") ++ ascii "]"

/-- One entry is written. -/
def collectPiece (total : ℕ) (buf : Buffer) (r : LcnMeshTaskResult) : Buffer :=
  let buf := if 0 < buf.pos then buf.copy sep else buf
  match r.ok, r.result with
  | true, some text => buf.copy text
  | _, _ => buf.print (total - buf.pos) (errorMarker r.agentName r.error)

/-- `lcn_mesh_fan_in_collect`. -/
def lcnMeshFanInCollect (results : List LcnMeshTaskResult) : List UInt8 :=
  if results = [] then []
  else
    let buf := results.foldl (collectPiece (sizeLoop results 0)) ⟨[], 0⟩
    buf.text.take buf.pos

/-! ## Fanning -/

structure LcnTaskHandle where
  completed : Bool := false
  result : Option LcnMeshTaskResult := none

inductive Phase where
  | spawning
  | awaiting
  | draining
  deriving DecidableEq

/-- `lcn_mesh_fan_out`, while it runs; `awaited` are the handles in the order they were awaited. -/
structure Fan where
  agents : List Agent
  input : List UInt8
  failFast : Bool
  handles : List LcnTaskHandle := []
  phase : Phase := .spawning
  next : ℕ := 0
  results : List LcnMeshTaskResult
  succeeded : ℕ := 0
  failed : ℕ := 0
  awaited : List ℕ := []

def Fan.start (agents : List Agent) (input : List UInt8) (failFast : Bool) : Fan where
  agents := agents
  input := input
  failFast := failFast
  results := List.replicate agents.length .zero

/-- The next handle has given a result. -/
def Fan.receive (f : Fan) (name : Option AgentName) (tr : Option LcnMeshTaskResult) : Fan :=
  let nullError := if f.phase = .draining then "aborted (fail-fast)" else "task returned null"
  let r := tr.getD { agentName := name, error := some nullError }
  { f with
    results := f.results.set f.next r
    succeeded := if r.ok then f.succeeded + 1 else f.succeeded
    failed := if r.ok then f.failed else f.failed + 1
    phase := if tr.isSome ∧ r.ok = false ∧ f.failFast then .draining else f.phase
    next := f.next + 1
    awaited := f.awaited ++ [f.next] }

/-- The thread goes on; not while it waits for a task, nor when it is done. -/
def Fan.main (f : Fan) : Option Fan :=
  match f.phase with
  | .spawning =>
      if f.handles.length < f.agents.length then some { f with handles := f.handles ++ [{}] }
      else some { f with phase := .awaiting }
  | _ =>
      match f.agents[f.next]?, f.handles[f.next]? with
      | some agent, some handle =>
          if handle.completed then some (f.receive agent.name handle.result) else none
      | _, _ => none

/-- The task of an agent completes. -/
def Fan.complete (f : Fan) (i : ℕ) (agent : Agent) : Fan :=
  { f with
    handles := f.handles.set i
      { completed := true, result := some (meshTaskWrapper agent f.input) } }

def Fan.Done (f : Fan) : Prop := f.phase ≠ .spawning ∧ f.next = f.agents.length

instance (f : Fan) : Decidable f.Done := inferInstanceAs (Decidable (_ ∧ _))

/-! ## Executing -/

/-- `lcn_mesh_execute`, while it runs: at a route, in a fan with its target, or at the end. -/
inductive State where
  | routes (rest : List LcnMeshRoute) (current : List UInt8)
  | fan (f : Fan) (target : Option LcnMeshAgentFn) (rest : List LcnMeshRoute)
  | finished (r : LcnResult)

/-- A function is called, if it is there. -/
def callNode (fn : Option LcnMeshAgentFn) (input : List UInt8) (error : String) : LcnResult :=
  match fn with
  | none => .ok input
  | some fn =>
      match fn input with
      | some (c :: output) => .ok (c :: output)
      | _ => .error error

/-- On with the text, unless there was an error. -/
def State.continue (r : LcnResult) (next : List UInt8 → State) : State :=
  match r with
  | .ok text => next text
  | .error error => .finished (.error error)

/-- What the thread does next. -/
def State.main (failFast : Bool) : State → Option State
  | .routes [] current => some (.finished (.ok current))
  | .routes (.single source target :: rest) current =>
      some <| .continue (callNode source current "mesh single route source failed") fun out =>
        .continue (callNode target out "mesh single route target failed") (.routes rest)
  | .routes (.fanOut source targets :: rest) current =>
      some <| .continue (callNode source current "mesh fan-out source failed") fun input =>
        .fan (.start targets input failFast) none rest
  | .routes (.fanIn sources target :: rest) current =>
      some (.fan (.start sources current failFast) target rest)
  | .fan f target rest =>
      if f.Done then
        some <| .continue (callNode target (lcnMeshFanInCollect f.results)
          "mesh fan-in target failed") (.routes rest)
      else f.main.map (.fan · target rest)
  | .finished _ => none

inductive Label where
  | main
  | complete (i : ℕ)

/-- The thread goes on, or the task of an agent completes. -/
inductive Step (failFast : Bool) : State → Label → State → Prop where
  | main {s s' : State} : s.main failFast = some s' → Step failFast s .main s'
  | complete {f : Fan} {target : Option LcnMeshAgentFn} {rest : List LcnMeshRoute} {i : ℕ}
      {handle : LcnTaskHandle} {agent : Agent} :
      f.handles[i]? = some handle → handle.completed = false → f.agents[i]? = some agent →
      Step failFast (.fan f target rest) (.complete i) (.fan (f.complete i agent) target rest)

/-- How `lcn_mesh_execute` begins. -/
def lcnMeshExecute (mesh : Option LcnMesh) (input : Option (List UInt8)) : State :=
  match mesh, input with
  | some mesh, some input => .routes mesh.routes input
  | _, _ => .finished (.error "mesh or input is null")

/-- The states of an execution. -/
def Executes (mesh : Option LcnMesh) (input : Option (List UInt8)) : State → Prop :=
  Reached (· = lcnMeshExecute mesh input) (Step (mesh.any (·.failFast))) fun _ _ => True

/-! ## One after the other -/

/-- The text of an agent, or the marker that it failed. -/
def outcome (input : List UInt8) (agent : Agent) : List UInt8 :=
  match agent.fn input with
  | some (c :: output) => c :: output
  | _ => errorMarker agent.name (some "agent returned empty or null result")

def fanText (agents : List Agent) (input : List UInt8) : List UInt8 :=
  sep.intercalate (agents.map (outcome input))

/-- What a route gives. -/
def sequentialRoute (route : LcnMeshRoute) (current : List UInt8) : LcnResult :=
  match route with
  | .single source target =>
      (callNode source current "mesh single route source failed").bind fun out =>
        callNode target out "mesh single route target failed"
  | .fanOut source targets =>
      (callNode source current "mesh fan-out source failed").map (fanText targets)
  | .fanIn sources target => callNode target (fanText sources current) "mesh fan-in target failed"

/-- The fold over the routes. -/
def sequentialRoutes (routes : List LcnMeshRoute) (current : List UInt8) : LcnResult :=
  routes.foldlM (fun current route => sequentialRoute route current) current

def sequential (mesh : Option LcnMesh) (input : Option (List UInt8)) : LcnResult :=
  match mesh, input with
  | some mesh, some input => sequentialRoutes mesh.routes input
  | _, _ => .error "mesh or input is null"

/-! ## The size is enough -/

theorem length_sep : sep.length = 5 := rfl

theorem le_sizeLoop (results : List LcnMeshTaskResult) (total : ℕ) :
    total ≤ sizeLoop results total := by
  induction results generalizing total with
  | nil => exact Nat.le_refl total
  | cons r results ih =>
      rw [sizeLoop, List.foldl_cons]
      refine Nat.le_trans ?_ (ih _)
      split_ifs
      · omega
      · omega

theorem length_errorMarker (name : Option AgentName) (error : Option String) :
    (errorMarker name error).length ≤
      32 + (name.map (·.bytes.length)).getD 0 +
        (error.map fun error => (ascii error).length + 2).getD 0 := by
  have hframe : ∀ name error : List UInt8, (ascii "[ERROR: " ++ name ++ ascii ": " ++ error ++
      ascii "]").length = name.length + error.length + 11 := by
    intro name error
    rw [List.length_append, List.length_append, List.length_append, List.length_append]
    show 8 + _ + 2 + _ + 1 = _
    omega
  have hname : ((name.map (·.bytes)).getD (ascii "?")).length ≤
      1 + (name.map (·.bytes.length)).getD 0 := by
    cases name with
    | none => exact Nat.le_refl 1
    | some name => exact Nat.le_add_left _ 1
  rw [errorMarker, hframe]
  cases error with
  | none =>
      have hunknown : (ascii "unknown").length = 7 := rfl
      rw [Option.getD_none, hunknown]
      omega
  | some error =>
      rw [Option.getD_some, Option.map_some, Option.getD_some]
      omega

theorem pos_print_le (buf : Buffer) (room : ℕ) (s : List UInt8) :
    (buf.print room s).pos ≤ buf.pos + s.length := by
  rw [Buffer.print]
  by_cases h : s.length < 2 ^ 31
  · rw [if_pos h]
    dsimp only
    split_ifs
    · rw [Int.toNat_natCast]
    · omega
  · rw [if_neg h, if_neg (by decide)]
    exact Nat.le_add_right _ _

/-- What is written of an entry is at most what was counted for it. -/
theorem pos_collectPiece_le (room : ℕ) {buf : Buffer} {total : ℕ} (h : buf.pos ≤ total)
    (r : LcnMeshTaskResult) : (collectPiece room buf r).pos ≤
      (if 0 < total then total + sep.length else total) + pieceSize r := by
  have hsep : (if 0 < buf.pos then buf.copy sep else buf).pos ≤
      if 0 < total then total + sep.length else total := by
    split_ifs with hpos htotal htotal
    · exact Nat.add_le_add_right h _
    · omega
    · exact Nat.le_trans h (Nat.le_add_right _ _)
    · exact h
  obtain ⟨name, result, error, ok⟩ := r
  have hmarker := Nat.le_trans (pos_print_le (if 0 < buf.pos then buf.copy sep else buf)
    (room - (if 0 < buf.pos then buf.copy sep else buf).pos) (errorMarker name error))
    (Nat.add_le_add hsep (length_errorMarker name error))
  cases ok with
  | false => exact hmarker
  | true =>
      cases result with
      | none => exact hmarker
      | some text => exact Nat.add_le_add_right hsep _

theorem pos_collect_le (room : ℕ) (results : List LcnMeshTaskResult) {buf : Buffer} {total : ℕ}
    (h : buf.pos ≤ total) :
    (results.foldl (collectPiece room) buf).pos ≤ sizeLoop results total := by
  induction results generalizing buf total with
  | nil => exact h
  | cons r results ih => exact ih (pos_collectPiece_le room h r)

/-- No more is written than was counted. -/
theorem collect_within (room : ℕ) {before results : List LcnMeshTaskResult}
    (h : before <+: results) :
    (before.foldl (collectPiece room) ⟨[], 0⟩).pos ≤ sizeLoop results 0 := by
  obtain ⟨rest, rfl⟩ := h
  refine Nat.le_trans (pos_collect_le room before (Nat.le_refl 0)) ?_
  rw [sizeLoop, sizeLoop, List.foldl_append]
  exact le_sizeLoop rest _

/-! ## The texts that are put together -/

/-- A buffer with a text and nothing behind it. -/
def Buffer.full (text : List UInt8) : Buffer := ⟨text, text.length⟩

theorem copy_full (text s : List UInt8) : (Buffer.full text).copy s = .full (text ++ s) := by
  rw [Buffer.copy, Buffer.full, Buffer.full, List.take_length, List.length_append]

theorem pos_print {s : List UInt8} (hs : s ≠ []) (hlength : s.length < 2 ^ 31) (buf : Buffer)
    (room : ℕ) : (buf.print room s).pos = buf.pos + s.length := by
  have hpos : (0 : ℤ) < s.length := by exact_mod_cast List.length_pos_of_ne_nil hs
  rw [Buffer.print, if_pos hlength]
  dsimp only
  rw [if_pos hpos, Int.toNat_natCast]

theorem print_full {text s : List UInt8} {room : ℕ} (hs : s ≠ []) (hlength : s.length < 2 ^ 31)
    (hroom : s.length ≤ room) : (Buffer.full text).print room s = .full (text ++ s) := by
  have hprint : ((Buffer.full text).print room s).text = text ++ s := by
    rw [Buffer.print, Buffer.full]
    dsimp only
    rw [List.take_length, List.take_of_length_le hroom]
  have hpos : ((Buffer.full text).print room s).pos = (text ++ s).length :=
    (pos_print hs hlength (Buffer.full text) room).trans List.length_append.symm
  calc (Buffer.full text).print room s
      = ⟨((Buffer.full text).print room s).text, ((Buffer.full text).print room s).pos⟩ := rfl
    _ = .full (text ++ s) := by rw [hprint, hpos]; rfl

/-- The marker of an agent that gave nothing. -/
theorem failedMarker_fits (name : Option AgentName) :
    (errorMarker name (some "agent returned empty or null result")).length < 2 ^ 31 ∧
      errorMarker name (some "agent returned empty or null result") ≠ [] := by
  have herror : (ascii "agent returned empty or null result").length = 35 := rfl
  have hle := length_errorMarker name (some "agent returned empty or null result")
  rw [Option.map_some, Option.getD_some, herror] at hle
  refine ⟨?_, List.cons_ne_nil _ _⟩
  cases name with
  | none =>
      rw [Option.map_none, Option.getD_none] at hle
      omega
  | some name =>
      have hshort := name.short
      rw [Option.map_some, Option.getD_some] at hle
      have hframe : (errorMarker (some name)
          (some "agent returned empty or null result")).length = name.bytes.length + 46 := by
        rw [errorMarker, Option.map_some, Option.getD_some, Option.getD_some, List.length_append,
          List.length_append, List.length_append, List.length_append, herror]
        show 8 + _ + 2 + 35 + 1 = _
        omega
      omega

/-- A text, and the separator, unless there is none. -/
def separated (text : List UInt8) : List UInt8 := if text = [] then [] else text ++ sep

theorem copy_sep (text : List UInt8) :
    (if 0 < (Buffer.full text).pos then (Buffer.full text).copy sep else .full text) =
      .full (separated text) := by
  cases text with
  | nil => rfl
  | cons c text => exact copy_full (c :: text) sep

/-- An agent's text goes behind the others. -/
theorem collectPiece_wrapper {room : ℕ} {text input : List UInt8} {agent : Agent}
    (h : (collectPiece room (.full text) (meshTaskWrapper agent input)).pos ≤ room) :
    collectPiece room (.full text) (meshTaskWrapper agent input) =
      .full (separated text ++ outcome input agent) := by
  have hfailed : agent.fn input = none ∨ agent.fn input = some [] →
      collectPiece room (.full text) (meshTaskWrapper agent input) =
        .full (separated text ++ outcome input agent) := by
    intro hnothing
    have hwrapper : meshTaskWrapper agent input =
        { agentName := agent.name, error := some "agent returned empty or null result" } := by
      rw [meshTaskWrapper]
      rcases hnothing with hnone | hempty
      · rw [hnone]
      · rw [hempty]
    have houtcome : outcome input agent =
        errorMarker agent.name (some "agent returned empty or null result") := by
      rw [outcome]
      rcases hnothing with hnone | hempty
      · rw [hnone]
      · rw [hempty]
    obtain ⟨hlength, hne⟩ := failedMarker_fits agent.name
    rw [hwrapper, collectPiece, copy_sep] at h
    rw [hwrapper, houtcome, collectPiece, copy_sep]
    dsimp only at h ⊢
    rw [pos_print hne hlength] at h
    exact print_full hne hlength (Nat.le_sub_of_add_le' h)
  cases houtput : agent.fn input with
  | none => exact hfailed (Or.inl houtput)
  | some output =>
      cases output with
      | nil => exact hfailed (Or.inr houtput)
      | cons c output =>
          rw [meshTaskWrapper, outcome, houtput, collectPiece, copy_sep]
          exact copy_full _ _

/-- Texts that are not empty, one behind the other. -/
theorem foldl_separated (pieces : List (List UInt8)) (h : ∀ piece ∈ pieces, piece ≠ [])
    (text : List UInt8) : pieces.foldl (fun text piece => separated text ++ piece) text =
      if text = [] then sep.intercalate pieces else sep.intercalate (text :: pieces) := by
  induction pieces generalizing text with
  | nil =>
      split_ifs with htext
      · exact htext
      · exact (List.intercalate_singleton).symm
  | cons piece pieces ih =>
      have hpiece := h piece List.mem_cons_self
      rw [List.foldl_cons, ih (fun p hp => h p (List.mem_cons_of_mem _ hp)), separated,
        if_neg (List.append_ne_nil_of_right_ne_nil _ hpiece)]
      split_ifs with htext
      · rfl
      · rw [List.intercalate_cons_cons]
        cases pieces with
        | nil => rw [List.intercalate_singleton, List.intercalate_singleton]
        | cons next pieces =>
            rw [List.intercalate_cons_cons, List.intercalate_cons_cons]
            simp only [List.append_assoc]

theorem outcome_ne_nil (input : List UInt8) (agent : Agent) : outcome input agent ≠ [] := by
  rw [outcome]
  split
  · exact List.cons_ne_nil _ _
  · exact (failedMarker_fits agent.name).2

theorem foldl_collectPiece (input : List UInt8) (room : ℕ) (agents : List Agent)
    (text : List UInt8)
    (h : ∀ before, before <+: agents.map (meshTaskWrapper · input) →
      (before.foldl (collectPiece room) (.full text)).pos ≤ room) :
    (agents.map (meshTaskWrapper · input)).foldl (collectPiece room) (.full text) =
      .full ((agents.map (outcome input)).foldl (fun text piece => separated text ++ piece)
        text) := by
  induction agents generalizing text with
  | nil => rfl
  | cons agent agents ih =>
      have hpiece : collectPiece room (.full text) (meshTaskWrapper agent input) =
          .full (separated text ++ outcome input agent) := by
        refine collectPiece_wrapper (h [meshTaskWrapper agent input] ?_)
        exact List.prefix_append [_] _
      rw [List.map_cons, List.map_cons, List.foldl_cons, List.foldl_cons, hpiece]
      refine ih _ ?_
      intro before hbefore
      have hcons := h (meshTaskWrapper agent input :: before)
        ((List.prefix_cons_inj _).2 hbefore)
      rwa [List.foldl_cons, hpiece] at hcons

/-- What the fan-in collects are the texts with the separator between them. -/
theorem collect_eq (agents : List Agent) (input : List UInt8) :
    lcnMeshFanInCollect (agents.map (meshTaskWrapper · input)) = fanText agents input := by
  rw [lcnMeshFanInCollect]
  split_ifs with hnil
  · rw [List.map_eq_nil_iff.1 hnil]
    rfl
  · have hfold := foldl_collectPiece input (sizeLoop (agents.map (meshTaskWrapper · input)) 0)
      agents [] fun before hbefore => collect_within _ hbefore
    rw [foldl_separated _ (List.forall_mem_map.2 fun agent _ => outcome_ne_nil input agent),
      if_pos rfl] at hfold
    change (List.foldl _ (Buffer.full []) _).text.take (List.foldl _ (Buffer.full []) _).pos = _
    rw [hfold]
    exact List.take_length

/-! ## A fan -/

/-- What holds of a fan at all times. -/
structure Fan.Inv (f : Fan) : Prop where
  spawned : f.handles.length ≤ f.agents.length
  all : f.phase ≠ .spawning → f.handles.length = f.agents.length
  first : f.phase = .spawning → f.next = 0
  next : f.next ≤ f.agents.length
  handles : ∀ (i : ℕ) (handle : LcnTaskHandle) (agent : Agent), f.handles[i]? = some handle →
    handle.completed = true → f.agents[i]? = some agent →
    handle.result = some (meshTaskWrapper agent f.input)
  results : f.results = (f.agents.take f.next).map (meshTaskWrapper · f.input) ++
    List.replicate (f.agents.length - f.next) .zero
  counts : f.succeeded + f.failed = f.next
  awaited : f.awaited = List.range f.next

namespace Fan

theorem inv_start (agents : List Agent) (input : List UInt8) (failFast : Bool) :
    (start agents input failFast).Inv where
  spawned := Nat.zero_le _
  all := fun h => absurd rfl h
  first := fun _ => rfl
  next := Nat.zero_le _
  handles := fun i handle agent h => by cases h
  results := rfl
  counts := rfl
  awaited := rfl

variable {f f' : Fan}

theorem Inv.spawn (h : f.Inv) (hphase : f.phase = .spawning)
    (hroom : f.handles.length < f.agents.length) :
    ({ f with handles := f.handles ++ [{}] } : Fan).Inv := by
  refine ⟨?_, fun hne => absurd hphase hne, h.first, h.next, ?_, h.results, h.counts, h.awaited⟩
  · rw [List.length_append]
    exact hroom
  · intro i handle agent hget hcompleted hagent
    rw [List.getElem?_append] at hget
    split_ifs at hget
    · exact h.handles i handle agent hget hcompleted hagent
    · rw [List.getElem?_singleton] at hget
      split_ifs at hget
      cases hget
      cases hcompleted

/-- The entry of the next agent is filled in. -/
theorem set_results (agents : List Agent) (input : List UInt8) {n : ℕ} {agent : Agent}
    (h : agents[n]? = some agent) :
    ((agents.take n).map (meshTaskWrapper · input) ++
        List.replicate (agents.length - n) LcnMeshTaskResult.zero).set n
          (meshTaskWrapper agent input) =
      (agents.take (n + 1)).map (meshTaskWrapper · input) ++
        List.replicate (agents.length - (n + 1)) .zero := by
  obtain ⟨hlt, hget⟩ := List.getElem?_eq_some_iff.1 h
  have hlength : ((agents.take n).map (meshTaskWrapper · input)).length = n := by
    rw [List.length_map, List.length_take]
    omega
  have hone : agents.length - n = agents.length - (n + 1) + 1 := by omega
  rw [List.set_append_right _ _ (Nat.le_of_eq hlength), hlength, Nat.sub_self, hone,
    List.replicate_succ, List.set_cons_zero, List.take_add_one, h, Option.toList_some,
    List.map_append, List.append_assoc]
  rfl

theorem phase_receive {name : Option AgentName} {tr : Option LcnMeshTaskResult}
    (h : (f.receive name tr).phase = .spawning) : f.phase = .spawning := by
  rw [Fan.receive] at h
  dsimp only at h
  split_ifs at h
  · exact h
  · exact h

theorem Inv.receive (h : f.Inv) (hphase : f.phase ≠ .spawning) {agent : Agent}
    {handle : LcnTaskHandle} (hagent : f.agents[f.next]? = some agent)
    (hhandle : f.handles[f.next]? = some handle) (hcompleted : handle.completed = true) :
    (f.receive agent.name handle.result).Inv := by
  have hresult := h.handles f.next handle agent hhandle hcompleted hagent
  rw [hresult]
  refine ⟨h.spawned, fun _ => h.all hphase, ?_, (List.getElem?_eq_some_iff.1 hagent).1, h.handles,
    ?_, ?_, ?_⟩
  · intro hspawning
    exact absurd (phase_receive hspawning) hphase
  · show f.results.set f.next _ = _
    rw [h.results]
    exact set_results f.agents f.input hagent
  · have hcounts := h.counts
    rw [Fan.receive]
    dsimp only [Option.getD_some]
    split_ifs
    · omega
    · omega
  · show f.awaited ++ [f.next] = List.range (f.next + 1)
    rw [h.awaited, List.range_succ]

theorem Inv.main (h : f.Inv) (hmain : f.main = some f') : f'.Inv := by
  rw [Fan.main] at hmain
  split at hmain
  · rename_i hphase
    split_ifs at hmain with hroom
    · cases hmain
      exact h.spawn hphase hroom
    · cases hmain
      refine ⟨h.spawned, fun _ => ?_, ?_, h.next, h.handles, h.results, h.counts, h.awaited⟩
      · exact Nat.le_antisymm h.spawned (Nat.le_of_not_lt hroom)
      · rintro ⟨⟩
  · rename_i hphase
    split at hmain
    · rename_i agent handle hagent hhandle
      split_ifs at hmain with hcompleted
      cases hmain
      exact h.receive hphase hagent hhandle hcompleted
    · cases hmain

theorem Inv.complete (h : f.Inv) {i : ℕ} {agent : Agent} (hagent : f.agents[i]? = some agent) :
    (f.complete i agent).Inv := by
  refine ⟨?_, ?_, h.first, h.next, ?_, h.results, h.counts, h.awaited⟩
  · rw [Fan.complete, List.length_set]
    exact h.spawned
  · intro hphase
    rw [Fan.complete, List.length_set]
    exact h.all hphase
  · intro j handle agent' hget hcompleted hagent'
    change (f.handles.set i _)[j]? = some handle at hget
    rw [List.getElem?_set] at hget
    split_ifs at hget with hij hlt
    · cases hget
      subst hij
      change f.agents[i]? = some agent' at hagent'
      rw [hagent] at hagent'
      cases hagent'
      rfl
    · exact h.handles j handle agent' hget hcompleted hagent'

/-- Each entry is that of its agent, and each handle was awaited once. -/
theorem Inv.done (h : f.Inv) (hdone : f.Done) :
    f.results = f.agents.map (meshTaskWrapper · f.input) ∧
      f.succeeded + f.failed = f.agents.length ∧ f.awaited = List.range f.agents.length := by
  refine ⟨?_, h.counts.trans hdone.2, ?_⟩
  · rw [h.results, hdone.2, List.take_length, Nat.sub_self]
    exact List.append_nil _
  · rw [h.awaited, hdone.2]

/-- A thread that does not go on waits for a task that has not completed. -/
theorem Inv.waits (h : f.Inv) (hdone : ¬ f.Done) (hmain : f.main = none) :
    ∃ handle agent, f.handles[f.next]? = some handle ∧ handle.completed = false ∧
      f.agents[f.next]? = some agent := by
  rw [Fan.main] at hmain
  split at hmain
  · split_ifs at hmain
  · rename_i hphase
    have hne : f.next ≠ f.agents.length := fun heq => hdone ⟨hphase, heq⟩
    have hlt : f.next < f.agents.length := Nat.lt_of_le_of_ne h.next hne
    have hhandles : f.next < f.handles.length := by rwa [h.all hphase]
    rw [List.getElem?_eq_getElem hlt, List.getElem?_eq_getElem hhandles] at hmain
    refine ⟨_, _, List.getElem?_eq_getElem hhandles, ?_, List.getElem?_eq_getElem hlt⟩
    dsimp only at hmain
    split_ifs at hmain with hcompleted
    simpa using hcompleted

theorem main_input (h : f.main = some f') : f'.agents = f.agents ∧ f'.input = f.input := by
  rw [Fan.main] at h
  split at h
  · split_ifs at h
    · cases h
      exact ⟨rfl, rfl⟩
    · cases h
      exact ⟨rfl, rfl⟩
  · split at h
    · split_ifs at h
      cases h
      exact ⟨rfl, rfl⟩
    · cases h

/-- How many steps a fan still takes. -/
def left (f : Fan) : ℕ :=
  2 * (f.agents.length - f.handles.length) + f.handles.countP (!·.completed) +
    (f.agents.length - f.next) + if f.phase = .spawning then 1 else 0

theorem left_start (agents : List Agent) (input : List UInt8) (failFast : Bool) :
    (start agents input failFast).left = 3 * agents.length + 1 := by
  show 2 * (agents.length - 0) + 0 + (agents.length - 0) + 1 = _
  omega

theorem left_main (h : f.main = some f') : f'.left < f.left := by
  rw [Fan.main] at h
  split at h
  · rename_i hphase
    split_ifs at h with hroom
    · cases h
      have hcount : (f.handles ++ [LcnTaskHandle.mk false none]).countP (!·.completed) =
          f.handles.countP (!·.completed) + 1 := by
        rw [List.countP_append]
        rfl
      rw [left, left]
      dsimp only
      rw [hcount, List.length_append, List.length_singleton]
      omega
    · cases h
      rw [left, left, hphase, if_pos rfl]
      dsimp only
      rw [if_neg (by rintro ⟨⟩)]
      omega
  · rename_i hphase
    split at h
    · rename_i agent handle hagent hhandle
      split_ifs at h
      cases h
      have hlt := (List.getElem?_eq_some_iff.1 hagent).1
      have hstays : (f.receive agent.name handle.result).phase ≠ .spawning :=
        fun hspawning => hphase (phase_receive hspawning)
      rw [left, left, if_neg hphase, if_neg hstays]
      show 2 * (f.agents.length - f.handles.length) + _ + (f.agents.length - (f.next + 1)) + 0 <
        2 * (f.agents.length - f.handles.length) + _ + (f.agents.length - f.next) + 0
      change f.next < f.agents.length at hlt
      have hcount : (f.receive agent.name handle.result).handles = f.handles := rfl
      rw [hcount]
      omega
    · cases h

theorem left_complete {i : ℕ} {handle : LcnTaskHandle} {agent : Agent}
    (hhandle : f.handles[i]? = some handle) (hcompleted : handle.completed = false) :
    (f.complete i agent).left < f.left := by
  obtain ⟨hlt, hget⟩ := List.getElem?_eq_some_iff.1 hhandle
  have hpos : 0 < f.handles.countP (!·.completed) := by
    refine List.countP_pos_iff.2 ⟨handle, hget ▸ List.getElem_mem hlt, ?_⟩
    rw [hcompleted]
    rfl
  have hcount : (f.complete i agent).handles.countP (!·.completed) =
      f.handles.countP (!·.completed) - 1 := by
    rw [Fan.complete, List.countP_set hlt, hget, hcompleted]
    rfl
  have hlength : (f.complete i agent).handles.length = f.handles.length := List.length_set
  rw [left, left, hcount, hlength]
  show 2 * (f.agents.length - f.handles.length) + _ + (f.agents.length - f.next) +
    (if f.phase = .spawning then 1 else 0) < _
  omega

end Fan

/-! ## An execution -/

def State.Inv : State → Prop
  | .fan f _ _ => f.Inv
  | _ => True

/-- What is expected from here on, one route after the other. -/
def State.expect : State → LcnResult
  | .routes rest current => sequentialRoutes rest current
  | .fan f target rest =>
      (callNode target (fanText f.agents f.input) "mesh fan-in target failed").bind
        (sequentialRoutes rest)
  | .finished r => r

def routeLeft : LcnMeshRoute → ℕ
  | .single _ _ => 1
  | .fanOut _ targets => 3 * targets.length + 3
  | .fanIn sources _ => 3 * sources.length + 3

/-- How many steps are still to come, at most. -/
def State.left : State → ℕ
  | .routes rest _ => (rest.map routeLeft).sum + 1
  | .fan f _ rest => f.left + 1 + ((rest.map routeLeft).sum + 1)
  | .finished _ => 0

section Continue

variable (r : LcnResult) (next : List UInt8 → State)

theorem inv_continue (h : ∀ text, (next text).Inv) : (State.continue r next).Inv := by
  cases r with
  | ok text => exact h text
  | error error => exact trivial

theorem expect_continue :
    (State.continue r next).expect = r.bind fun text => (next text).expect := by
  cases r with
  | ok text => rfl
  | error error => rfl

theorem left_continue {n : ℕ} (hpos : 0 < n) (h : ∀ text, (next text).left < n) :
    (State.continue r next).left < n := by
  cases r with
  | ok text => exact h text
  | error error => exact hpos

end Continue

theorem sequentialRoutes_cons (route : LcnMeshRoute) (rest : List LcnMeshRoute)
    (current : List UInt8) : sequentialRoutes (route :: rest) current =
      (sequentialRoute route current).bind (sequentialRoutes rest) := by
  rw [sequentialRoutes, List.foldlM_cons]
  rfl

theorem bind_assoc (r : LcnResult) (f g : List UInt8 → LcnResult) :
    (r.bind f).bind g = r.bind fun text => (f text).bind g := by
  cases r with
  | ok text => rfl
  | error error => rfl

theorem bind_map (r : LcnResult) (f : List UInt8 → List UInt8) (g : List UInt8 → LcnResult) :
    (r.map f).bind g = r.bind fun text => g (f text) := by
  cases r with
  | ok text => rfl
  | error error => rfl

section Steps

variable {failFast : Bool} {s s' : State}

/-- What a step of the thread keeps. -/
theorem main_kept (hinv : s.Inv) (h : s.main failFast = some s') :
    s'.Inv ∧ s'.expect = s.expect ∧ s'.left < s.left := by
  cases s with
  | finished r => cases h
  | routes rest current =>
      cases rest with
      | nil =>
          cases h
          exact ⟨trivial, rfl, Nat.zero_lt_one⟩
      | cons route rest =>
          cases route with
          | single source target =>
              cases h
              refine ⟨?_, ?_, ?_⟩
              · refine inv_continue _ _ fun out => inv_continue _ _ fun out' => trivial
              · show _ = sequentialRoutes (.single source target :: rest) current
                rw [expect_continue, sequentialRoutes_cons, sequentialRoute, bind_assoc]
                simp only [expect_continue]
                rfl
              · rw [State.left, List.map_cons, List.sum_cons, routeLeft]
                refine left_continue _ _ (Nat.succ_pos _) fun out => ?_
                refine left_continue _ _ (Nat.succ_pos _) fun out' => ?_
                rw [State.left]
                omega
          | fanOut source targets =>
              cases h
              refine ⟨?_, ?_, ?_⟩
              · exact inv_continue _ _ fun input => Fan.inv_start targets input failFast
              · show _ = sequentialRoutes (.fanOut source targets :: rest) current
                rw [expect_continue, sequentialRoutes_cons, sequentialRoute, bind_map]
                rfl
              · rw [State.left, List.map_cons, List.sum_cons, routeLeft]
                refine left_continue _ _ (Nat.succ_pos _) fun input => ?_
                rw [State.left, Fan.left_start]
                omega
          | fanIn sources target =>
              cases h
              refine ⟨Fan.inv_start sources current failFast, ?_, ?_⟩
              · exact (sequentialRoutes_cons (.fanIn sources target) rest current).symm
              · rw [State.left, State.left, List.map_cons, List.sum_cons, routeLeft,
                  Fan.left_start]
                omega
  | fan f target rest =>
      rw [State.main] at h
      split_ifs at h with hdone
      · cases h
        refine ⟨inv_continue _ _ fun text => trivial, ?_, ?_⟩
        · rw [expect_continue, (Fan.Inv.done hinv hdone).1, collect_eq]
          rfl
        · rw [State.left]
          refine left_continue _ _ (Nat.succ_pos _) fun text => ?_
          rw [State.left]
          omega
      · obtain ⟨f', hmain, rfl⟩ := Option.map_eq_some_iff.1 h
        obtain ⟨hagents, hinput⟩ := Fan.main_input hmain
        refine ⟨Fan.Inv.main hinv hmain, ?_, ?_⟩
        · rw [State.expect, State.expect, hagents, hinput]
        · have hleft := Fan.left_main hmain
          rw [State.left, State.left]
          omega

theorem step_kept {label : Label} (hinv : s.Inv) (h : Step failFast s label s') :
    s'.Inv ∧ s'.expect = s.expect ∧ s'.left < s.left := by
  cases h with
  | main hmain => exact main_kept hinv hmain
  | complete hhandle hcompleted hagent =>
      refine ⟨Fan.Inv.complete hinv hagent, rfl, ?_⟩
      exact Nat.add_lt_add_right (Nat.add_lt_add_right (Fan.left_complete hhandle hcompleted) 1) _

/-- Something can be done until the end: a task completes, if the thread waits for it. -/
theorem exists_step (hinv : s.Inv) :
    (∃ r, s = .finished r) ∨ ∃ label s', Step failFast s label s' := by
  cases hmain : s.main failFast with
  | some s' => exact Or.inr ⟨.main, s', .main hmain⟩
  | none =>
      cases s with
      | finished r => exact Or.inl ⟨r, rfl⟩
      | routes rest current =>
          cases rest with
          | nil => cases hmain
          | cons route rest =>
              cases route with
              | single source target => cases hmain
              | fanOut source targets => cases hmain
              | fanIn sources target => cases hmain
      | fan f target rest =>
          rw [State.main] at hmain
          split_ifs at hmain with hdone
          obtain ⟨handle, agent, hhandle, hcompleted, hagent⟩ :=
            Fan.Inv.waits hinv hdone (Option.map_eq_none_iff.1 hmain)
          exact Or.inr ⟨.complete f.next, _, .complete hhandle hcompleted hagent⟩

end Steps

/-- What is right in a state of an execution: it ends, and with what the routes give one after the
other; a fan that is done has the result of each agent in its place, and awaited each handle
once. -/
structure Right (failFast : Bool) (expected : LcnResult) (s : State) : Prop where
  outcome : ∀ r, s = .finished r → r = expected
  goesOn : (∃ r, s = .finished r) ∨ ∃ label s', Step failFast s label s'
  ends : ∀ label s', Step failFast s label s' → s'.left < s.left
  fans : ∀ f target rest, s = .fan f target rest → f.Done →
    f.results = f.agents.map (meshTaskWrapper · f.input) ∧
      f.succeeded + f.failed = f.agents.length ∧ f.awaited = List.range f.agents.length

theorem expect_start (mesh : Option LcnMesh) (input : Option (List UInt8)) :
    (lcnMeshExecute mesh input).expect = sequential mesh input := by
  cases mesh with
  | none => rfl
  | some mesh =>
      cases input with
      | none => rfl
      | some input => rfl

theorem inv_execute (mesh : Option LcnMesh) (input : Option (List UInt8)) :
    (lcnMeshExecute mesh input).Inv := by
  cases mesh with
  | none => exact trivial
  | some mesh =>
      cases input with
      | none => exact trivial
      | some input => exact trivial

/-- An agent without a name that gives back its input. -/
def echo : Agent := ⟨none, some⟩

end Limceron.Runtime.Mesh
