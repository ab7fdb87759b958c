/-
# `Limceron.Runtime.Records` — the emitters of structured lines

`runtime/memory.c`, `runtime/stdlib_rt.c`, `runtime/httpd.c`.  Each emitter writes an
object by one format of `printf`, with its strings as they are:

| emitter | members |
| :-- | :-- |
| `jsonl_append` | `agent`, `session_id`, `type`, `key`, `value`, `timestamp_ms` |
| `lcn_log` | `ts`, `level`, `msg` |
| `lcn_trace_begin` | `trace`, `span`, `name` |
| `lcn_trace_end` | `trace`, `span`, `name`, `elapsed_ms` |
| `lcn_trace_tag` | `trace`, `span`, `key`, `value` |
| `lcn_trace_event` | `trace`, `name`, `data`, `ts` |
| `lcn_httpd_respond_error` | `error`, `status` |

The value of `jsonl_append` is JSON of its own; the numbers are `%lld` and `%d`.  What
`gmtime` makes of a time is a parameter.
-/
import Limceron.Json.Records

namespace Limceron.Runtime.Records

open Json

/-! ## The emitters -/

/-- `g_memory_type_names`. -/
def memoryTypeNames : List (List UInt8) :=
  [ascii "message", ascii "fact", ascii "summary", ascii "state", ascii "tool_result"]

/-- The type is an enumeration of C, which is any integer. -/
def lcnMemoryTypeName (type : ℤ) : List UInt8 :=
  if 0 ≤ type then memoryTypeNames.getD type.toNat (ascii "unknown") else ascii "unknown"

/-- What is appended to the mirror, if it has a path and can be opened. -/
def jsonlAppend (jsonlPath : List UInt8) (opens : Bool) (agent sessionId : Option (List UInt8))
    (type : ℤ) (key valueJson : Option (List UInt8)) (timestampMs : ℤ) : Option (List UInt8) :=
  if jsonlPath = [] ∨ opens = false then none
  else some (ascii "\x7b\"agent\":\"" ++ agent.getD [] ++ ascii "\",\"session_id\":\"" ++
    sessionId.getD [] ++ ascii "\",\"type\":\"" ++ lcnMemoryTypeName type ++
    ascii "\",\"key\":\"" ++ key.getD [] ++ ascii "\",\"value\":" ++
    valueJson.getD (ascii "null") ++ ascii ",\"timestamp_ms\":" ++ formatInt timestampMs ++
    ascii "\x7d\n")

/-- `struct tm`. -/
structure Tm where
  tmYear : ℤ
  tmMon : ℤ
  tmMday : ℤ
  tmHour : ℤ
  tmMin : ℤ
  tmSec : ℤ

/-- `%0*d`: the width counts the sign. -/
def formatPadded (width : ℕ) (n : ℤ) : List UInt8 :=
  let sign : List UInt8 := if n < 0 then [0x2D] else []
  sign ++ List.replicate (width - sign.length - (digitBytes n.natAbs).length) 0x30 ++
    digitBytes n.natAbs

/-- The buffer has 64 bytes. -/
def lcnFormatTimestamp (gmtime : ℤ → Option Tm) (epochMs : ℤ) : List UInt8 :=
  match gmtime (epochMs.tdiv 1000) with
  | none => (formatInt epochMs).take 63
  | some tm =>
      (formatPadded 4 (tm.tmYear + 1900) ++ ascii "-" ++ formatPadded 2 (tm.tmMon + 1) ++
        ascii "-" ++ formatPadded 2 tm.tmMday ++ ascii "T" ++ formatPadded 2 tm.tmHour ++
        ascii ":" ++ formatPadded 2 tm.tmMin ++ ascii ":" ++ formatPadded 2 tm.tmSec ++
        ascii "." ++ formatPadded 3 (epochMs.tmod 1000) ++ ascii "Z").take 63

def lcnLog (gmtime : ℤ → Option Tm) (now : ℤ) (level message : List UInt8) : List UInt8 :=
  ascii "\x7b\"ts\":\"" ++ lcnFormatTimestamp gmtime now ++ ascii "\",\"level\":\"" ++ level ++
    ascii "\",\"msg\":\"" ++ message ++ ascii "\"\x7d\n"

structure LcnSpan where
  id : ℤ
  name : List UInt8
  startMs : ℤ

/-- `_spans` and `_next_span_id`. -/
structure Trace where
  spans : List LcnSpan := []
  nextSpanId : ℤ := 1

/-- `MAX_SPANS`. -/
def maxSpans : ℕ := 256

/-- The state behind the call, the id and the line. -/
def lcnTraceBegin (trace : Trace) (now : ℤ) (name : List UInt8) : Trace × ℤ × List UInt8 :=
  let id := trace.nextSpanId
  ({ spans := if trace.spans.length < maxSpans then trace.spans ++ [⟨id, name, now⟩]
      else trace.spans
     nextSpanId := id + 1 },
   id,
   ascii "\x7b\"trace\":\"begin\",\"span\":" ++ formatInt id ++ ascii ",\"name\":\"" ++ name ++
    ascii "\"\x7d\n")

/-- The last span of the id, and the others. -/
def takeSpan (spanId : ℤ) : List LcnSpan → Option (LcnSpan × List LcnSpan)
  | [] => none
  | span :: spans =>
      match takeSpan spanId spans with
      | some (found, rest) => some (found, span :: rest)
      | none => if span.id = spanId then some (span, spans) else none

/-- Nothing is written, where there is no such span. -/
def lcnTraceEnd (trace : Trace) (now spanId : ℤ) : Trace × Option (List UInt8) :=
  match takeSpan spanId trace.spans with
  | none => (trace, none)
  | some (span, rest) =>
      ({ trace with spans := rest },
       some (ascii "\x7b\"trace\":\"end\",\"span\":" ++ formatInt spanId ++ ascii ",\"name\":\"" ++
        span.name ++ ascii "\",\"elapsed_ms\":" ++ formatInt (now - span.startMs) ++
        ascii "\x7d\n"))

def lcnTraceTag (spanId : ℤ) (key value : List UInt8) : List UInt8 :=
  ascii "\x7b\"trace\":\"tag\",\"span\":" ++ formatInt spanId ++ ascii ",\"key\":\"" ++ key ++
    ascii "\",\"value\":\"" ++ value ++ ascii "\"\x7d\n"

def lcnTraceEvent (gmtime : ℤ → Option Tm) (now : ℤ) (name data : List UInt8) : List UInt8 :=
  ascii "\x7b\"trace\":\"event\",\"name\":\"" ++ name ++ ascii "\",\"data\":\"" ++ data ++
    ascii "\",\"ts\":\"" ++ lcnFormatTimestamp gmtime now ++ ascii "\"\x7d\n"

/-- The text of an error. -/
def errorText (message : Option (List UInt8)) (status : ℤ) : List UInt8 :=
  ascii "\x7b\"error\":\"" ++ message.getD (ascii "unknown error") ++ ascii "\",\"status\":" ++
    formatInt status ++ ascii "\x7d"

/-- The body that is sent: the buffer has 512 bytes, and as many are taken as the text has.
`beyond` is what the memory holds behind the end of the text in the buffer. -/
def lcnHttpdRespondError (beyond : List UInt8) (message : Option (List UInt8)) (status : ℤ) :
    List UInt8 :=
  ((errorText message status).take 511 ++ 0 :: beyond).take (errorText message status).length

/-! ## What is spliced in by the code itself -/

theorem literals_append {s t : List UInt8} : Literals (s ++ t) ↔ Literals s ∧ Literals t :=
  List.forall_mem_append

theorem literals_take {s : List UInt8} (hs : Literals s) (n : ℕ) : Literals (s.take n) :=
  fun c hc => hs c (List.mem_of_mem_take hc)

theorem literals_digits {ds : List UInt8} (h : Digits ds) : Literals ds := by
  intro c hc
  have hdigit := h c hc
  simp only [isDigit, Bool.and_eq_true, decide_eq_true_eq] at hdigit
  refine ⟨UInt8.le_trans (by decide) hdigit.1, ?_, ?_⟩
  · rintro rfl
    exact absurd hdigit.1 (by decide)
  · rintro rfl
    exact absurd hdigit.2 (by decide)

theorem literals_sign (n : ℤ) : Literals (if n < 0 then [0x2D] else []) := by
  split
  · decide
  · decide

theorem literals_formatInt (n : ℤ) : Literals (formatInt n) :=
  literals_append.2 ⟨literals_sign n, literals_digits (digitBytes_digits n.natAbs)⟩

theorem literals_formatPadded (width : ℕ) (n : ℤ) : Literals (formatPadded width n) := by
  have hzeros (k : ℕ) : Literals (List.replicate k 0x30) := by
    intro c hc
    rw [List.eq_of_mem_replicate hc]
    decide
  simp only [formatPadded, literals_append]
  exact ⟨⟨literals_sign n, hzeros _⟩, literals_digits (digitBytes_digits n.natAbs)⟩

theorem literals_timestamp (gmtime : ℤ → Option Tm) (epochMs : ℤ) :
    Literals (lcnFormatTimestamp gmtime epochMs) := by
  unfold lcnFormatTimestamp
  split
  · exact literals_take (literals_formatInt epochMs) 63
  · refine literals_take ?_ 63
    simp only [literals_append, literals_formatPadded, and_true, true_and]
    decide

theorem literals_memoryTypeName (type : ℤ) : Literals (lcnMemoryTypeName type) := by
  have hnames : ∀ name ∈ ascii "unknown" :: memoryTypeNames, Literals name := by decide
  refine hnames _ ?_
  unfold lcnMemoryTypeName
  split
  · rw [List.getD_eq_getElem?_getD]
    rcases hname : memoryTypeNames[type.toNat]? with _ | name
    · exact List.mem_cons_self
    · exact List.mem_cons_of_mem _ (List.mem_of_getElem? hname)
  · exact List.mem_cons_self

/-! ## The templates -/

section Templates

variable (agent sessionId key value message : Option (List UInt8)) (type timestampMs : ℤ)
  (ts level msg name tag data : List UInt8) (spanId elapsedMs status : ℤ)

def jsonlFields : List Field :=
  [⟨ascii "agent", .quoted (agent.getD [])⟩, ⟨ascii "session_id", .quoted (sessionId.getD [])⟩,
    ⟨ascii "type", .quoted (lcnMemoryTypeName type)⟩, ⟨ascii "key", .quoted (key.getD [])⟩,
    ⟨ascii "value", .verbatim (value.getD (ascii "null"))⟩,
    ⟨ascii "timestamp_ms", .verbatim (formatInt timestampMs)⟩]

def logFields : List Field :=
  [⟨ascii "ts", .quoted ts⟩, ⟨ascii "level", .quoted level⟩, ⟨ascii "msg", .quoted msg⟩]

def beginFields : List Field :=
  [⟨ascii "trace", .quoted (ascii "begin")⟩, ⟨ascii "span", .verbatim (formatInt spanId)⟩,
    ⟨ascii "name", .quoted name⟩]

def endFields : List Field :=
  [⟨ascii "trace", .quoted (ascii "end")⟩, ⟨ascii "span", .verbatim (formatInt spanId)⟩,
    ⟨ascii "name", .quoted name⟩, ⟨ascii "elapsed_ms", .verbatim (formatInt elapsedMs)⟩]

def tagFields : List Field :=
  [⟨ascii "trace", .quoted (ascii "tag")⟩, ⟨ascii "span", .verbatim (formatInt spanId)⟩,
    ⟨ascii "key", .quoted tag⟩, ⟨ascii "value", .quoted data⟩]

def eventFields : List Field :=
  [⟨ascii "trace", .quoted (ascii "event")⟩, ⟨ascii "name", .quoted name⟩,
    ⟨ascii "data", .quoted data⟩, ⟨ascii "ts", .quoted ts⟩]

def errorFields : List Field :=
  [⟨ascii "error", .quoted (message.getD (ascii "unknown error"))⟩,
    ⟨ascii "status", .verbatim (formatInt status)⟩]

end Templates

/-! ## The lines -/

section Lines

variable (gmtime : ℤ → Option Tm) (now : ℤ)

theorem jsonlAppend_line {jsonlPath : List UInt8} {opens : Bool}
    {agent sessionId key value : Option (List UInt8)} {type timestampMs : ℤ}
    (hvalue : ∀ v ∈ value, (lcnJsonParse v).isSome) {line : List UInt8}
    (h : jsonlAppend jsonlPath opens agent sessionId type key value timestampMs = some line) :
    IsLine (jsonlFields agent sessionId key value type timestampMs) line ↔
      Literals (agent.getD []) ∧ Literals (sessionId.getD []) ∧ Literals (key.getD []) ∧
        0x0A ∉ value.getD (ascii "null") := by
  have haccepted : (lcnJsonParse (value.getD (ascii "null"))).isSome := by
    cases value with
    | none => exact (by decide +kernel : (lcnJsonParse (ascii "null")).isSome)
    | some v => exact hvalue v rfl
  have htemplate : Template (jsonlFields agent sessionId key value type timestampMs) :=
    Template.of_keys [ascii "agent", ascii "session_id", ascii "type", ascii "key",
      ascii "value", ascii "timestamp_ms"] rfl (by decide)
      (by simp [jsonlFields, Slot.Accepted, haccepted, accepted_formatInt])
  have hout : line =
      recordText (jsonlFields agent sessionId key value type timestampMs) ++ [0x0A] := by
    unfold jsonlAppend at h
    split at h
    · cases h
    · rw [← Option.some.inj h]
      simp [jsonlFields, recordText, fieldsText, Field.text, Slot.text, ascii]
      decide
  rw [htemplate.isLine_iff hout]
  simp [jsonlFields, Slot.Clean, literals_memoryTypeName,
    (literals_formatInt timestampMs).no_lineFeed]

theorem lcnLog_line (level msg : List UInt8) :
    IsLine (logFields (lcnFormatTimestamp gmtime now) level msg) (lcnLog gmtime now level msg) ↔
      Literals level ∧ Literals msg := by
  have htemplate : Template (logFields (lcnFormatTimestamp gmtime now) level msg) :=
    Template.of_keys [ascii "ts", ascii "level", ascii "msg"] rfl (by decide)
      (by simp [logFields, Slot.Accepted])
  have hout : lcnLog gmtime now level msg =
      recordText (logFields (lcnFormatTimestamp gmtime now) level msg) ++ [0x0A] := by
    simp [lcnLog, logFields, recordText, fieldsText, Field.text, Slot.text, ascii]
    decide
  rw [htemplate.isLine_iff hout]
  simp [logFields, Slot.Clean, literals_timestamp]

theorem lcnTraceBegin_line (trace : Trace) (name : List UInt8) :
    IsLine (beginFields name trace.nextSpanId) (lcnTraceBegin trace now name).2.2 ↔
      Literals name := by
  have htemplate : Template (beginFields name trace.nextSpanId) :=
    Template.of_keys [ascii "trace", ascii "span", ascii "name"] rfl (by decide)
      (by simp [beginFields, Slot.Accepted, accepted_formatInt])
  have hout : (lcnTraceBegin trace now name).2.2 =
      recordText (beginFields name trace.nextSpanId) ++ [0x0A] := by
    simp [lcnTraceBegin, beginFields, recordText, fieldsText, Field.text, Slot.text, ascii]
    decide
  have hbegin : Literals (ascii "begin") := by decide
  rw [htemplate.isLine_iff hout]
  simp [beginFields, Slot.Clean, hbegin, (literals_formatInt trace.nextSpanId).no_lineFeed]

theorem lcnTraceEnd_line {trace : Trace} {spanId : ℤ} {span : LcnSpan} {rest : List LcnSpan}
    (h : takeSpan spanId trace.spans = some (span, rest)) :
    ∃ line, (lcnTraceEnd trace now spanId).2 = some line ∧
      (IsLine (endFields span.name spanId (now - span.startMs)) line ↔ Literals span.name) := by
  have htemplate : Template (endFields span.name spanId (now - span.startMs)) :=
    Template.of_keys [ascii "trace", ascii "span", ascii "name", ascii "elapsed_ms"] rfl
      (by decide) (by simp [endFields, Slot.Accepted, accepted_formatInt])
  have hout : (lcnTraceEnd trace now spanId).2 =
      some (recordText (endFields span.name spanId (now - span.startMs)) ++ [0x0A]) := by
    rw [lcnTraceEnd, h]
    simp [endFields, recordText, fieldsText, Field.text, Slot.text, ascii]
    decide
  have hend : Literals (ascii "end") := by decide
  refine ⟨_, hout, ?_⟩
  rw [htemplate.isLine_iff rfl]
  simp [endFields, Slot.Clean, hend, (literals_formatInt _).no_lineFeed]

theorem lcnTraceTag_line (spanId : ℤ) (tag data : List UInt8) :
    IsLine (tagFields tag data spanId) (lcnTraceTag spanId tag data) ↔
      Literals tag ∧ Literals data := by
  have htemplate : Template (tagFields tag data spanId) :=
    Template.of_keys [ascii "trace", ascii "span", ascii "key", ascii "value"] rfl (by decide)
      (by simp [tagFields, Slot.Accepted, accepted_formatInt])
  have hout : lcnTraceTag spanId tag data = recordText (tagFields tag data spanId) ++ [0x0A] := by
    simp [lcnTraceTag, tagFields, recordText, fieldsText, Field.text, Slot.text, ascii]
    decide
  have htag : Literals (ascii "tag") := by decide
  rw [htemplate.isLine_iff hout]
  simp [tagFields, Slot.Clean, htag, (literals_formatInt spanId).no_lineFeed]

theorem lcnTraceEvent_line (name data : List UInt8) :
    IsLine (eventFields (lcnFormatTimestamp gmtime now) name data)
        (lcnTraceEvent gmtime now name data) ↔
      Literals name ∧ Literals data := by
  have htemplate : Template (eventFields (lcnFormatTimestamp gmtime now) name data) :=
    Template.of_keys [ascii "trace", ascii "name", ascii "data", ascii "ts"] rfl (by decide)
      (by simp [eventFields, Slot.Accepted])
  have hout : lcnTraceEvent gmtime now name data =
      recordText (eventFields (lcnFormatTimestamp gmtime now) name data) ++ [0x0A] := by
    simp [lcnTraceEvent, eventFields, recordText, fieldsText, Field.text, Slot.text, ascii]
    decide
  have hevent : Literals (ascii "event") := by decide
  rw [htemplate.isLine_iff hout]
  simp [eventFields, Slot.Clean, hevent, literals_timestamp]

end Lines

/-! ## The body of an error -/

theorem errorText_eq (message : Option (List UInt8)) (status : ℤ) :
    errorText message status = recordText (errorFields message status) := by
  simp [errorText, errorFields, recordText, fieldsText, Field.text, Slot.text, ascii]
  decide

theorem errorText_length (message : Option (List UInt8)) (status : ℤ) :
    (errorText message status).length =
      (message.getD (ascii "unknown error")).length + (formatInt status).length + 22 := by
  have hopen : (ascii "\x7b\"error\":\"").length = 10 := by decide
  have hmiddle : (ascii "\",\"status\":").length = 11 := by decide
  have hclose : (ascii "\x7d").length = 1 := by decide
  simp only [errorText, List.length_append, hopen, hmiddle, hclose]
  omega

/-- A text that does not fit is sent with a NUL in it. -/
theorem respondError_nul {beyond : List UInt8} {message : Option (List UInt8)} {status : ℤ}
    (h : 511 < (errorText message status).length) :
    0 ∈ lcnHttpdRespondError beyond message status := by
  have hlength : ((errorText message status).take 511).length = 511 := by
    rw [List.length_take]
    omega
  rw [lcnHttpdRespondError, List.take_append, hlength]
  obtain ⟨k, hk⟩ := Nat.exists_eq_succ_of_ne_zero (Nat.sub_ne_zero_of_lt h)
  rw [hk, List.take_succ_cons]
  exact List.mem_append_right _ List.mem_cons_self

theorem lcnHttpdRespondError_record (beyond : List UInt8) (message : Option (List UInt8))
    (status : ℤ) :
    IsRecord (errorFields message status) (lcnHttpdRespondError beyond message status) ↔
      Literals (message.getD (ascii "unknown error")) ∧
        (message.getD (ascii "unknown error")).length + (formatInt status).length ≤ 489 := by
  have htemplate : Template (errorFields message status) :=
    Template.of_keys [ascii "error", ascii "status"] rfl (by decide)
      (by simp [errorFields, Slot.Accepted, accepted_formatInt])
  have hclean : IsRecord (errorFields message status) (errorText message status) ↔
      Literals (message.getD (ascii "unknown error")) := by
    rw [errorText_eq, htemplate.isRecord_iff]
    simp [errorFields, Slot.Clean, (literals_formatInt status).no_lineFeed]
  have hlength := errorText_length message status
  by_cases hfits : (errorText message status).length ≤ 511
  · have hwhole : lcnHttpdRespondError beyond message status = errorText message status := by
      rw [lcnHttpdRespondError, List.take_of_length_le hfits, List.take_left]
    rw [hwhole, hclean]
    exact (and_iff_left (by omega)).symm
  · constructor
    · intro hrecord
      exact absurd (respondError_nul (Nat.lt_of_not_le hfits)) hrecord.no_nul
    · rintro ⟨-, hshort⟩
      omega

/-! ## All emitters -/

/-- What is written is a record of the emitter's members, if and only if no string that is
spliced in has a quote, a backslash or a control character, the value of `jsonl_append` has
no line feed, and the body of an error fits into its buffer. -/
theorem lines_iff (gmtime : ℤ → Option Tm) (now : ℤ) (jsonlPath : List UInt8) (opens : Bool)
    (agent sessionId key value message : Option (List UInt8))
    (hvalue : ∀ v ∈ value, (lcnJsonParse v).isSome) (type timestampMs spanId status : ℤ)
    (trace : Trace) (level msg name tag data beyond : List UInt8) :
    (∀ line, jsonlAppend jsonlPath opens agent sessionId type key value timestampMs = some line →
        (IsLine (jsonlFields agent sessionId key value type timestampMs) line ↔
          Literals (agent.getD []) ∧ Literals (sessionId.getD []) ∧ Literals (key.getD []) ∧
            0x0A ∉ value.getD (ascii "null"))) ∧
      (IsLine (logFields (lcnFormatTimestamp gmtime now) level msg)
          (lcnLog gmtime now level msg) ↔
        Literals level ∧ Literals msg) ∧
      (IsLine (beginFields name trace.nextSpanId) (lcnTraceBegin trace now name).2.2 ↔
        Literals name) ∧
      (∀ span rest, takeSpan spanId trace.spans = some (span, rest) →
        ∃ line, (lcnTraceEnd trace now spanId).2 = some line ∧
          (IsLine (endFields span.name spanId (now - span.startMs)) line ↔
            Literals span.name)) ∧
      (IsLine (tagFields tag data spanId) (lcnTraceTag spanId tag data) ↔
        Literals tag ∧ Literals data) ∧
      (IsLine (eventFields (lcnFormatTimestamp gmtime now) name data)
          (lcnTraceEvent gmtime now name data) ↔
        Literals name ∧ Literals data) ∧
      (IsRecord (errorFields message status) (lcnHttpdRespondError beyond message status) ↔
        Literals (message.getD (ascii "unknown error")) ∧
          (message.getD (ascii "unknown error")).length + (formatInt status).length ≤ 489) :=
  ⟨fun _ hline => jsonlAppend_line hvalue hline, lcnLog_line gmtime now level msg,
    lcnTraceBegin_line now trace name, fun _ _ hspan => lcnTraceEnd_line now hspan,
    lcnTraceTag_line spanId tag data, lcnTraceEvent_line gmtime now name data,
    lcnHttpdRespondError_record beyond message status⟩

/-- An entry of plain strings, in the first second of the clock. -/
theorem lines_plain :
    IsLine (logFields (ascii "1970-01-01T00:00:00.007Z") (ascii "info") (ascii "ready"))
      (lcnLog (fun _ => some ⟨70, 0, 1, 0, 0, 0⟩) 7 (ascii "info") (ascii "ready")) :=
  ((lines_iff (fun _ => some ⟨70, 0, 1, 0, 0, 0⟩) 7 (ascii "a.jsonl") true
      (some (ascii "planner")) none none (some (ascii "1")) none (by decide +kernel) 1 0 1 404
      ⟨[], 1⟩ (ascii "info") (ascii "ready") (ascii "plan") (ascii "k") (ascii "v") []).2.1).2
    (by decide)

/-- A quote in a message ends its string: it adds a second level. -/
theorem log_injects :
    ¬ ∀ level msg : List UInt8, 0 ∉ level → 0 ∉ msg →
      IsLine (logFields (ascii "1970-01-01T00:00:00.007Z") level msg)
        (lcnLog (fun _ => some ⟨70, 0, 1, 0, 0, 0⟩) 7 level msg) := by
  intro h
  have hline := h (ascii "info") (ascii "a\",\"level\":\"debug") (by decide) (by decide)
  obtain ⟨-, hmsg⟩ := (lcnLog_line (fun _ => some ⟨70, 0, 1, 0, 0, 0⟩) 7 _ _).1 hline
  exact absurd hmsg (by decide)

end Limceron.Runtime.Records
