/-
# `Limceron.Runtime.McpClient` — calls over one connection to an MCP server

`mcp_request` writes a request and reads lines until one has its id.  The server
reads the requests in order and writes what it likes: answers, notifications,
requests of its own, blank lines, text that is no JSON.  A call may end by a timeout
at any byte, and its answer come later.

A line carries what the code does not see: which request it answers.

| | |
| :-- | :-- |
| `OwnAnswers` | a response that a call returns answers its request; no line makes a call fail |
| `Unmistakable` | the line read is JSON, and has the id of the call only if it answers it |
| `ownAnswers_iff` | the second, in every step, is the condition for the first |

`mcp_own_answers_iff` puts it beside the server's half.
-/
import Limceron.Runtime.McpServer
import Limceron.Lib.Systems

namespace Limceron.Runtime.Mcp

open Json Binary64 Systems

/-! ## The source -/

/-- The next number towards zero. -/
def truncate (q : ℚ) : ℤ := if 0 ≤ q then ⌊q⌋ else ⌈q⌉

/-- The cast of a `double` to `int`; out of range it is what x86-64 makes of it. -/
def toInt : Double → BitVec 32
  | .finite q _ =>
      if -2 ^ 31 ≤ truncate q ∧ truncate q < 2 ^ 31 then BitVec.ofInt 32 (truncate q)
      else BitVec.intMin 32
  | .infinite _ => BitVec.intMin 32

/-- `mcp_build_request`, for an id. -/
def mcpBuildRequest (id : BitVec 32) (method : List UInt8) (params : Option LcnJsonValue) :
    LcnJsonValue :=
  .object [(ascii "jsonrpc", stringNew (ascii "2.0")), (ascii "id", .number (ofInt id)),
    (ascii "method", stringNew method), (ascii "params", params.getD (.object []))]

/-- `resp_id`, where the message has a number for its id. -/
def respId (v : LcnJsonValue) : Option (BitVec 32) :=
  match get v "id" with
  | some (.number d) => some (toInt d)
  | _ => none

/-! ## The connection -/

/-- A line of the server, with the number of the request that it answers. -/
structure Line where
  text : List UInt8
  answers : Option ℕ

/-- How a call ends. -/
inductive Outcome where
  /-- With a message, from a line that answers this request. -/
  | returned (response : LcnJsonValue) (answers : Option ℕ)
  /-- A line was no JSON. -/
  | unparsed
  /-- By a timeout or an error of the pipe. -/
  | gaveUp

structure Connection where
  /-- `client->next_id`. -/
  nextId : BitVec 32 := 1
  /-- The requests that were written, one for each call. -/
  requests : List LcnJsonValue := []
  /-- How many the server has read. -/
  received : ℕ := 0
  /-- What the server has written and the client has not read. -/
  stdout : List Line := []
  /-- `expected_id` of the call that is under way. -/
  expected : Option (BitVec 32) := none
  /-- How calls have ended. -/
  outcomes : List (ℕ × Outcome) := []

/-- What the two sides do. -/
inductive Action where
  /-- A call begins and writes its request. -/
  | call (method : List UInt8) (params : Option LcnJsonValue)
  /-- The server reads a request. -/
  | receive
  /-- The server writes a line. -/
  | write (text : List UInt8) (answers : Option ℕ)
  /-- The client reads a line. -/
  | read
  /-- The call ends after it has read so many bytes of a line. -/
  | giveUp (bytes : ℕ)

namespace Connection

/-- The number of the call that is under way. -/
def current (s : Connection) : ℕ := s.requests.length - 1

/-- The call that is under way ends. -/
def finish (s : Connection) (o : Outcome) : Connection :=
  { s with expected := none, outcomes := s.outcomes ++ [(s.current, o)] }

/-- One turn of the loop in `mcp_request`, for a line. -/
def readLine (s : Connection) (e : BitVec 32) (l : Line) (rest : List Line) : Connection :=
  let s := { s with stdout := rest }
  if l.text = [] then s
  else
    match lcnJsonParse l.text with
    | none => s.finish .unparsed
    | some v => if respId v = some e then s.finish (.returned v l.answers) else s

/-- What is left of the lines when a call gives up within one. -/
def dropBytes (n : ℕ) : List Line → List Line
  | [] => []
  | l :: rest => ⟨l.text.drop n, if n = 0 then l.answers else none⟩ :: rest

/-- The message is one that a server may send in answer to the request. -/
def isAnswer (request v : LcnJsonValue) : Bool :=
  respId v == respId request && ((get v "result").isSome || (get v "error").isSome)

/-- The server has read this request, and the text is an answer to it. -/
def mayAnswer (s : Connection) (text : List UInt8) (k : ℕ) : Bool :=
  k < s.received && s.requests[k]?.any fun request => (lcnJsonParse text).any (isAnswer request)

/-- One step; what cannot happen changes nothing. -/
def step (s : Connection) : Action → Connection
  | .call method params =>
      if s.expected.isSome then s
      else
        { s with
          nextId := s.nextId + 1
          requests := s.requests ++ [mcpBuildRequest s.nextId method params]
          expected := some (s.nextId + 1 - 1) }
  | .receive => if s.received < s.requests.length then { s with received := s.received + 1 } else s
  | .write text answers =>
      if answers.all (s.mayAnswer text) then { s with stdout := s.stdout ++ [⟨text, answers⟩] }
      else s
  | .read =>
      match s.expected, s.stdout with
      | some e, l :: rest => s.readLine e l rest
      | _, _ => s
  | .giveUp n =>
      if s.expected.isSome then { s with stdout := dropBytes n s.stdout }.finish .gaveUp else s

end Connection

/-! ## What is asked of it -/

/-- The message carries a result or an error. -/
def CarriesAnswer (v : LcnJsonValue) : Prop := (get v "result").isSome ∨ (get v "error").isSome

/-- A call ends with an answer to its own request, or it gives up. -/
def OwnAnswer : ℕ × Outcome → Prop
  | (k, .returned v answers) => answers = some k ∧ CarriesAnswer v
  | (_, .unparsed) => False
  | (_, .gaveUp) => True

structure OwnAnswers (s : Connection) : Prop where
  own : ∀ o ∈ s.outcomes, OwnAnswer o
  /-- A call ends once; so an answer is returned once. -/
  once : (s.outcomes.map Prod.fst).Nodup

/-- The line that is read is blank; or it is JSON, and where it has the id that is expected,
it answers the call. -/
def Unmistakable (s : Connection) : Action → Prop
  | .read => ∀ e l rest, s.expected = some e → s.stdout = l :: rest → l.text ≠ [] →
      ∃ v, lcnJsonParse l.text = some v ∧
        (respId v = some e → l.answers = some s.current)
  | _ => True

/-! ## The invariant -/

structure Inv (s : Connection) : Prop extends OwnAnswers s where
  /-- What is said to answer a request does. -/
  honest : ∀ l ∈ s.stdout, ∀ k v, l.answers = some k → lcnJsonParse l.text = some v →
    CarriesAnswer v
  /-- The call that is under way has not ended. -/
  open_ : s.expected.isSome → s.requests ≠ [] ∧ ∀ o ∈ s.outcomes, o.1 < s.current
  ended : ∀ o ∈ s.outcomes, o.1 < s.requests.length

theorem inv_init : Inv {} where
  own := by rintro _ ⟨⟩
  once := List.nodup_nil
  honest := by rintro _ ⟨⟩
  open_ := by rintro ⟨⟩
  ended := by rintro _ ⟨⟩

variable {s : Connection}

/-- A call ends. -/
theorem Inv.finish {o : Outcome} (h : Inv s) (hopen : s.expected.isSome)
    (ho : OwnAnswer (s.current, o)) : Inv (s.finish o) := by
  obtain ⟨hne, hbefore⟩ := h.open_ hopen
  refine ⟨⟨?_, ?_⟩, h.honest, by rintro ⟨⟩, ?_⟩
  · exact List.forall_mem_append.2 ⟨h.own, List.forall_mem_singleton.2 ho⟩
  · rw [Connection.finish, List.map_append, List.nodup_append]
    refine ⟨h.once, List.nodup_singleton _, ?_⟩
    intro k hk j hj
    obtain ⟨o', ho', rfl⟩ := List.mem_map.1 hk
    rw [List.map_singleton, List.mem_singleton] at hj
    rw [hj]
    exact Nat.ne_of_lt (hbefore o' ho')
  · refine List.forall_mem_append.2 ⟨h.ended, List.forall_mem_singleton.2 ?_⟩
    have hlen := List.length_pos_iff.2 hne
    exact Nat.sub_lt hlen Nat.one_pos

/-- Lines are read, or lost. -/
theorem Inv.lines {lines : List Line} (h : Inv s)
    (hlines : ∀ l ∈ lines, ∀ k v, l.answers = some k → lcnJsonParse l.text = some v →
      CarriesAnswer v) : Inv { s with stdout := lines } :=
  ⟨⟨h.own, h.once⟩, hlines, h.open_, h.ended⟩

theorem Inv.tail {l : Line} {rest : List Line} (h : Inv s) (hout : s.stdout = l :: rest) :
    Inv { s with stdout := rest } := by
  refine h.lines ?_
  intro l' hl'
  exact h.honest l' (by rw [hout]; exact .tail _ hl')

theorem Inv.call (h : Inv s) (method : List UInt8) (params : Option LcnJsonValue) :
    Inv (s.step (.call method params)) := by
  rw [Connection.step]
  split
  next => exact h
  next =>
    refine ⟨⟨h.own, h.once⟩, h.honest, ?_, ?_⟩
    · rintro -
      refine ⟨by simp, ?_⟩
      intro o ho
      simpa [Connection.current] using h.ended o ho
    · intro o ho
      have := h.ended o ho
      simp only [List.length_append, List.length_singleton]
      omega

theorem Inv.write (h : Inv s) (text : List UInt8) (answers : Option ℕ) :
    Inv (s.step (.write text answers)) := by
  rw [Connection.step]
  split
  next hmay =>
    refine h.lines (List.forall_mem_append.2 ⟨h.honest, List.forall_mem_singleton.2 ?_⟩)
    rintro k v rfl hparse
    simp only [Option.all_some, Connection.mayAnswer, hparse, Option.any_some, Bool.and_eq_true,
      Option.any_eq_true] at hmay
    obtain ⟨-, request, -, hanswer⟩ := hmay
    simp only [Connection.isAnswer, Bool.and_eq_true, Bool.or_eq_true] at hanswer
    exact hanswer.2
  next => exact h

theorem Inv.giveUp (h : Inv s) (n : ℕ) : Inv (s.step (.giveUp n)) := by
  rw [Connection.step]
  split
  next hopen =>
    refine Inv.finish (h.lines ?_) hopen trivial
    cases hout : s.stdout with
    | nil => rintro _ ⟨⟩
    | cons l rest =>
      have hhonest := h.honest
      rw [hout, List.forall_mem_cons] at hhonest
      refine List.forall_mem_cons.2 ⟨?_, hhonest.2⟩
      intro k v hk hv
      by_cases hn : n = 0
      · subst hn
        exact hhonest.1 k v hk hv
      · rw [if_neg hn] at hk
        cases hk
  next => exact h

/-- A line that is read and cannot be mistaken. -/
theorem Inv.read (h : Inv s) (hok : Unmistakable s .read) : Inv (s.step .read) := by
  rw [Connection.step]
  split
  next e l rest hexpected hout =>
    have htail := h.tail hout
    have hopen : s.expected.isSome := by rw [hexpected]; rfl
    rw [Connection.readLine]
    split
    next => exact htail
    next hne =>
      obtain ⟨v, hparse, hid⟩ := hok e l rest hexpected hout hne
      rw [hparse]
      dsimp only
      split
      next hmatch =>
        have hcarries := h.honest l (by rw [hout]; exact .head _) s.current v (hid hmatch) hparse
        exact htail.finish hopen ⟨hid hmatch, hcarries⟩
      next => exact htail
  next => exact h

theorem Inv.step (h : Inv s) (i : Action) (hok : Unmistakable s i) : Inv (s.step i) := by
  cases i with
  | call method params => exact h.call method params
  | receive =>
    rw [Connection.step]
    split
    next => exact ⟨⟨h.own, h.once⟩, h.honest, h.open_, h.ended⟩
    next => exact h
  | write text answers => exact h.write text answers
  | read => exact h.read hok
  | giveUp n => exact h.giveUp n

/-- A call that ends as it should not. -/
theorem finish_broken {o : Outcome} (ho : ¬ OwnAnswer (s.current, o)) : ¬ OwnAnswers (s.finish o) :=
  fun h => ho (h.own _ (List.mem_append_right _ (.head _)))

/-- A line that is mistaken shows at once. -/
theorem step_broken (i : Action) (hok : ¬ Unmistakable s i) : ¬ OwnAnswers (s.step i) := by
  cases i with
  | read =>
    simp only [Unmistakable, not_forall] at hok
    obtain ⟨e, l, rest, hexpected, hout, hne, hno⟩ := hok
    rw [Connection.step, hexpected, hout]
    dsimp only
    rw [Connection.readLine, if_neg hne]
    cases hparse : lcnJsonParse l.text with
    | none => exact finish_broken id
    | some v =>
      by_cases hmatch : respId v = some e
      · dsimp only
        rw [if_pos hmatch]
        refine finish_broken ?_
        rintro ⟨hanswers, -⟩
        exact hno ⟨v, hparse, fun _ => hanswers⟩
      · exact absurd ⟨v, hparse, fun h => absurd h hmatch⟩ hno
  | _ => exact absurd trivial hok

/-! ## Own answers -/

/-- In every run: calls get their own answers, if and only if no line that is read can be
mistaken. -/
theorem ownAnswers_iff (run : List Action) :
    Always Connection.step OwnAnswers {} run ↔ EachMeets Connection.step Unmistakable {} run :=
  always_iff (I := Inv) (fun _ h => h.toOwnAnswers) (fun _ i _ h hok => h.step i hok)
    (fun _ i _ _ hok => step_broken i hok) inv_init

/-- `{"id":1,"method":"sampling/createMessage"}`: the server asks the client something. -/
def samplingRequest : LcnJsonValue :=
  .object [(ascii "id", .number (ofInt 1)),
    (ascii "method", .string (ascii "sampling/createMessage"))]

theorem samplingRequest_plain : Plain samplingRequest :=
  ⟨by decide, by decide, ⟨1, by norm_num, _, rfl⟩, by decide, trivial, trivial⟩

end Limceron.Runtime.Mcp
