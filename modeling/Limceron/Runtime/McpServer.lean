/-
# `Limceron.Runtime.McpServer` — requests and responses of the MCP server

`lcn_mcp_server_run` reads lines of JSON from its input.  A line with a method and
an id is answered by one line; a line that has no method or no id, or is no JSON, by
none.

The id is copied into the response as a C string, so a string that has a NUL in it
(`"\u0000"` in the line) comes back cut.

| | |
| :-- | :-- |
| `RequestLine line id` | the line is a request with this id |
| `NotificationLine line` | it has a method and no id |
| `AnswersLines` | each request is answered once, under its id, and no notification is |
| `answersLines_iff` | … where no id has a NUL |
-/
import Limceron.Json.Lines
import Mathlib.Data.List.ReduceOption

namespace Limceron.Runtime.Mcp

open Json Binary64

/-! ## Access to values -/

/-- `lcn_json_get`. -/
def get (v : LcnJsonValue) (key : String) : Option LcnJsonValue :=
  match v with
  | .object members => (members.find? (fun m => cstr m.1 == ascii key)).map Prod.snd
  | _ => none

/-- `lcn_json_get_string`; what is returned is a C string. -/
def getString (v : LcnJsonValue) (key : String) : Option (List UInt8) :=
  match get v key with
  | some (.string s) => some (cstr s)
  | _ => none

/-- `lcn_json_string_new`, of a C string. -/
def stringNew (s : List UInt8) : LcnJsonValue := .string (cstr s)

/-- The number for an `int`. -/
def ofInt (n : BitVec 32) : Double :=
  .finite n.toInt (representable_intCast (by
    have := BitVec.toInt_lt (x := n)
    have := BitVec.le_toInt n
    rw [abs_le]
    omega))

/-! ## The server -/

/-- `LcnMcpServerTool`. -/
structure LcnMcpServerTool where
  name : List UInt8
  description : Option (List UInt8)
  inputSchema : Option (List UInt8)
  /-- The result, when it is called for the n-th line with this text. -/
  handler : ℕ → List UInt8 → Option (List UInt8)

structure LcnMcpServer where
  name : List UInt8
  version : List UInt8
  tools : List LcnMcpServerTool

/-- The `id` of a response. -/
def idMember : LcnJsonValue → List (List UInt8 × LcnJsonValue)
  | .number d => [(ascii "id", .number d)]
  | .string str => [(ascii "id", stringNew str)]
  | _ => []

/-- The first members of a response. -/
def envelope (id : LcnJsonValue) : List (List UInt8 × LcnJsonValue) :=
  (ascii "jsonrpc", stringNew (ascii "2.0")) :: idMember id

/-- `make_response`. -/
def makeResponse (id result : LcnJsonValue) : LcnJsonValue :=
  .object (envelope id ++ [(ascii "result", result)])

/-- `make_error_response`. -/
def makeErrorResponse (id : LcnJsonValue) (code : BitVec 32) (message : String) : LcnJsonValue :=
  .object (envelope id ++ [(ascii "error", .object
    [(ascii "code", .number (ofInt code)), (ascii "message", stringNew (ascii message))])])

/-- `handle_initialize`. -/
def handleInitialize (server : LcnMcpServer) (id : LcnJsonValue) : LcnJsonValue :=
  makeResponse id (.object
    [(ascii "protocolVersion", stringNew (ascii "2024-11-05")),
      (ascii "capabilities", .object [(ascii "tools", .object [])]),
      (ascii "serverInfo", .object
        [(ascii "name", stringNew server.name), (ascii "version", stringNew server.version)])])

/-- The entry of one tool in the list. -/
def toolEntry (t : LcnMcpServerTool) : LcnJsonValue :=
  .object ((ascii "name", stringNew t.name) ::
    ((t.description.map fun d => (ascii "description", stringNew d)).toList ++
      ((t.inputSchema.bind lcnJsonParse).map fun s => (ascii "inputSchema", s)).toList))

/-- `handle_tools_list`. -/
def handleToolsList (server : LcnMcpServer) (id : LcnJsonValue) : LcnJsonValue :=
  makeResponse id (.object [(ascii "tools", .array (server.tools.map toolEntry))])

/-- `handle_tools_call`; `n` is the number of the line. -/
def handleToolsCall (server : LcnMcpServer) (n : ℕ) (id : LcnJsonValue)
    (params : Option LcnJsonValue) : LcnJsonValue :=
  match params.bind (getString · "name") with
  | none => makeErrorResponse id (-32602) "missing tool name"
  | some toolName =>
      match server.tools.find? (fun t => cstr t.name == toolName) with
      | none => makeErrorResponse id (-32601) "unknown tool"
      | some tool =>
          let args := ((params.bind (get · "arguments")).map lcnJsonStringify).getD (ascii "{}")
          let text := (tool.handler n args).getD []
          makeResponse id (.object [(ascii "content", .array
            [.object [(ascii "type", stringNew (ascii "text")), (ascii "text", stringNew text)]])])

/-- The body of the loop, for a message. -/
def handleMessage (server : LcnMcpServer) (n : ℕ) (msg : LcnJsonValue) : Option LcnJsonValue :=
  match getString msg "method", get msg "id" with
  | some method, some id =>
      if method = ascii "initialize" then some (handleInitialize server id)
      else if method = ascii "tools/list" then some (handleToolsList server id)
      else if method = ascii "tools/call" then
        some (handleToolsCall server n id (get msg "params"))
      else some (makeErrorResponse id (-32601) "method not found")
  | _, _ => none

/-- `server_read_line` and the tests behind it: the line without CR, as a C string. -/
def lineText (line : List UInt8) : List UInt8 := cstr (dropCR line)

/-- The body of the loop, for the n-th line: what is sent. -/
def handleLine (server : LcnMcpServer) (n : ℕ) (line : List UInt8) : Option LcnJsonValue :=
  if lineText line = [] then none else (lcnJsonParse (lineText line)).bind (handleMessage server n)

/-- What is sent for each line, from the n-th on. -/
def serverSends (server : LcnMcpServer) : ℕ → List (List UInt8) → List (Option LcnJsonValue)
  | _, [] => []
  | n, line :: lines => handleLine server n line :: serverSends server (n + 1) lines

/-- `lcn_mcp_server_run`: the lines it writes. -/
def serverRun (server : LcnMcpServer) (lines : List (List UInt8)) : List (List UInt8) :=
  (serverSends server 0 lines).reduceOption.map lcnJsonStringify

/-! ## What is asked of it -/

/-- A line that is a request, with a number or a string for its id. -/
def RequestLine (line : List UInt8) (id : LcnJsonValue) : Prop :=
  ∃ v, lcnJsonParse line = some v ∧ (∃ s, get v "method" = some (.string s)) ∧
    get v "id" = some id ∧ ((∃ d, id = .number d) ∨ ∃ s, id = .string s)

def NotificationLine (line : List UInt8) : Prop :=
  ∃ v, lcnJsonParse line = some v ∧ (∃ s, get v "method" = some (.string s)) ∧ get v "id" = none

/-- The message is a response with this id. -/
def ResponseTo (id r : LcnJsonValue) : Prop :=
  get r "id" = some id ∧ ((get r "result").isSome ∨ (get r "error").isSome)

/-- What is sent for a line is right: one response to a request, nothing for a notification. -/
def RightFor (line : List UInt8) (sent : Option LcnJsonValue) : Prop :=
  (∀ id, RequestLine line id → ∃ r, sent = some r ∧ ResponseTo id r) ∧
    (NotificationLine line → sent = none)

def AnswersLines (server : LcnMcpServer) (lines : List (List UInt8)) : Prop :=
  List.Forall₂ RightFor lines (serverSends server 0 lines)

/-- The id of a request is a C string, if it is a string. -/
def IdKept (line : List UInt8) : Prop := ∀ s, RequestLine line (.string s) → 0 ∉ s

/-! ## The id of a response -/

theorem get_append_id {ms ns : List (List UInt8 × LcnJsonValue)} {v : LcnJsonValue}
    (h : get (.object ms) "id" = some v) : get (.object (ms ++ ns)) "id" = some v := by
  simp only [get, Option.map_eq_some_iff] at h ⊢
  obtain ⟨m, hm, rfl⟩ := h
  refine ⟨m, ?_, rfl⟩
  rw [List.find?_append, hm, Option.some_or]

/-- The id of a response: a string is cut at a NUL. -/
theorem get_envelope (id : LcnJsonValue) : get (.object (envelope id)) "id" =
    match id with
    | .number d => some (.number d)
    | .string s => some (.string (cstr s))
    | _ => none := by
  cases id <;> rfl

theorem get_envelope_kept {id : LcnJsonValue} (hid : (∃ d, id = .number d) ∨ ∃ s, id = .string s)
    (hkept : ∀ s, id = .string s → 0 ∉ s) : get (.object (envelope id)) "id" = some id := by
  rw [get_envelope]
  rcases hid with ⟨d, rfl⟩ | ⟨s, rfl⟩
  · rfl
  · dsimp only
    rw [cstr_eq (hkept s rfl)]

/-- What a message of the server is: the envelope of the id, and a result or an error. -/
inductive Response (id : LcnJsonValue) : LcnJsonValue → Prop
  | result (v : LcnJsonValue) : Response id (.object (envelope id ++ [(ascii "result", v)]))
  | error (v : LcnJsonValue) : Response id (.object (envelope id ++ [(ascii "error", v)]))

theorem handleToolsCall_response (server : LcnMcpServer) (n : ℕ) (id : LcnJsonValue)
    (params : Option LcnJsonValue) : Response id (handleToolsCall server n id params) := by
  rw [handleToolsCall]
  split
  next => exact .error _
  next =>
    split
    next => exact .error _
    next => exact .result _

theorem handleMessage_request {msg id : LcnJsonValue} {s : List UInt8} (server : LcnMcpServer)
    (n : ℕ) (hmethod : get msg "method" = some (.string s)) (hid : get msg "id" = some id) :
    ∃ r, handleMessage server n msg = some r ∧ Response id r := by
  have hstring : getString msg "method" = some (cstr s) := by rw [getString, hmethod]
  rw [handleMessage, hstring, hid]
  dsimp only
  split
  next => exact ⟨_, rfl, .result _⟩
  next =>
    split
    next => exact ⟨_, rfl, .result _⟩
    next =>
      split
      next => exact ⟨_, rfl, handleToolsCall_response server n id _⟩
      next => exact ⟨_, rfl, .error _⟩

theorem get_last {key : String} {ms : List (List UInt8 × LcnJsonValue)} {v : LcnJsonValue}
    (hkey : cstr (ascii key) = ascii key) : (get (.object (ms ++ [(ascii key, v)])) key).isSome := by
  rw [get, Option.isSome_map, List.find?_isSome]
  refine ⟨_, List.mem_append_right _ (.head _), ?_⟩
  rw [hkey, beq_self_eq_true]

theorem Response.answers {id r : LcnJsonValue} (h : Response id r) :
    (get r "result").isSome ∨ (get r "error").isSome := by
  cases h with
  | result v => exact .inl (get_last (by decide))
  | error v => exact .inr (get_last (by decide))

/-- A response has the id of its request, if the id is kept, and only then. -/
theorem Response.to_iff {id r : LcnJsonValue} (h : Response id r)
    (hid : (∃ d, id = .number d) ∨ ∃ s, id = .string s) :
    ResponseTo id r ↔ ∀ s, id = .string s → 0 ∉ s := by
  have henvelope : ∀ {v}, get (.object (envelope id)) "id" = some v → get r "id" = some v := by
    intro v hv
    cases h <;> exact get_append_id hv
  constructor
  · rintro ⟨hsame, -⟩ s rfl
    have hcut := hsame.symm.trans (henvelope (get_envelope (.string s)))
    rw [Option.some.injEq, LcnJsonValue.string.injEq] at hcut
    rw [hcut]
    exact cstr_no_nul s
  · intro hkept
    exact ⟨henvelope (get_envelope_kept hid hkept), h.answers⟩

/-! ## Lines -/

theorem handleLine_eq {server : LcnMcpServer} {n : ℕ} {line : List UInt8} {v : LcnJsonValue}
    (h : lcnJsonParse line = some v) : handleLine server n line = handleMessage server n v := by
  have hparse : lcnJsonParse (lineText line) = some v := parse_dropCR h
  have hne : lineText line ≠ [] := by
    intro hnil
    rw [hnil] at hparse
    cases hparse
  rw [handleLine, if_neg hne, hparse, Option.bind_some]

/-- What is sent for a line is right, if the id is kept, and only then. -/
theorem rightFor_iff (server : LcnMcpServer) (n : ℕ) (line : List UInt8) :
    RightFor line (handleLine server n line) ↔ IdKept line := by
  constructor
  · rintro ⟨hrequest, -⟩ s hs
    obtain ⟨v, hparse, ⟨m, hmethod⟩, hid, hkind⟩ := hs
    obtain ⟨r, hr, hresponse⟩ := handleMessage_request server n hmethod hid
    obtain ⟨r', hr', hto⟩ := hrequest _ ⟨v, hparse, ⟨m, hmethod⟩, hid, hkind⟩
    rw [handleLine_eq hparse, hr, Option.some.injEq] at hr'
    subst hr'
    exact (hresponse.to_iff hkind).1 hto s rfl
  · intro hkept
    constructor
    · rintro id ⟨v, hparse, ⟨m, hmethod⟩, hid, hkind⟩
      obtain ⟨r, hr, hresponse⟩ := handleMessage_request server n hmethod hid
      refine ⟨r, by rw [handleLine_eq hparse, hr], (hresponse.to_iff hkind).2 ?_⟩
      rintro s rfl
      exact hkept s ⟨v, hparse, ⟨m, hmethod⟩, hid, hkind⟩
    · rintro ⟨v, hparse, ⟨m, hmethod⟩, hid⟩
      rw [handleLine_eq hparse, handleMessage, hid]
      cases getString v "method" <;> rfl

/-- Every request is answered once and under its id, and no notification is, if and only
if no request has a string with a NUL for its id. -/
theorem answersLines_iff (server : LcnMcpServer) (lines : List (List UInt8)) :
    AnswersLines server lines ↔ ∀ line ∈ lines, IdKept line := by
  suffices ∀ n, List.Forall₂ RightFor lines (serverSends server n lines) ↔
      ∀ line ∈ lines, IdKept line from this 0
  induction lines with
  | nil => simp [serverSends]
  | cons line lines ih =>
    intro n
    rw [serverSends, List.forall₂_cons, rightFor_iff, ih (n + 1), List.forall_mem_cons]

end Limceron.Runtime.Mcp
