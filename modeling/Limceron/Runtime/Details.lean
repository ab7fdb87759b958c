/-
# `Limceron.Runtime.Details` — the details of events, as they are recorded and rendered

`runtime/event.c`.  An emitter writes its strings into an object by one format, cuts the
text at 511 bytes and records it; `lcn_event_to_json` parses the text and renders what it
found under `detail`.  `Intact` is what that is for: an object of the keys of the emitter,
in its text and as rendered, with a prefix of each string.

| the text | is intact |
| :-- | :-- |
| fits into the buffer | if the strings decode to prefixes of themselves |
| is cut | if the part that is kept ends the object by itself |

The first holds of every string without quotes, backslashes and control characters; the
second only of a string that closes its own quotes, and the object.
-/
import Limceron.Json.Decimals
import Limceron.Json.Records
import Limceron.Runtime.Agents

namespace Limceron.Runtime.Details

open Json Events Agents Binary64

/-! ## Emitting -/

/-- `lcn_emit_log`. -/
def lcnEmitLog (g : Globals) (agent : List UInt8) (message : Option (List UInt8))
    (now : UInt64) : Globals :=
  g.emit .log agent (detailOf [("message", message)]) now

/-- `lcn_emit_tool_call`. -/
def lcnEmitToolCall (g : Globals) (agent : List UInt8) (toolName server : Option (List UInt8))
    (now : UInt64) : Globals :=
  g.emit .toolCall agent (detailOf [("tool", toolName), ("server", server)]) now

/-! ## Rendering -/

/-- `lcn_event_kind_name`. -/
def lcnEventKindName : EventKind → List UInt8
  | .agentStart => ascii "AGENT_START"
  | .agentStop => ascii "AGENT_STOP"
  | .agentFail => ascii "AGENT_FAIL"
  | .llmRequest => ascii "LLM_REQUEST"
  | .llmResponse => ascii "LLM_RESPONSE"
  | .budgetDeduct => ascii "BUDGET_DEDUCT"
  | .budgetExhausted => ascii "BUDGET_EXHAUSTED"
  | .guardCheck => ascii "GUARD_CHECK"
  | .guardTrigger => ascii "GUARD_TRIGGER"
  | .capabilityAccess => ascii "CAPABILITY_ACCESS"
  | .toolCall => ascii "TOOL_CALL"
  | .toolResult => ascii "TOOL_RESULT"
  | .channelSend => ascii "CHANNEL_SEND"
  | .channelRecv => ascii "CHANNEL_RECV"
  | .log => ascii "LOG"
  | .memoryStore => ascii "MEMORY_STORE"
  | .memoryQuery => ascii "MEMORY_QUERY"
  | .memoryCompact => ascii "MEMORY_COMPACT"

/-- The detail: parsed, where it looks like an object or an array and is one. -/
def detailValue (detailJson : List UInt8) : LcnJsonValue :=
  if detailJson.head? = some 0x7B ∨ detailJson.head? = some 0x5B then
    (lcnJsonParse detailJson).getD (.string detailJson)
  else .string detailJson

/-- The members of the object that is rendered. -/
def eventMembers (event : LcnEvent) : List (List UInt8 × LcnJsonValue) :=
  [(ascii "kind", .string (lcnEventKindName event.kind)),
    (ascii "seq", .number (ofRat event.seq.toNat)),
    (ascii "timestamp_ms", .number (ofRat event.timestampMs.toNat)),
    (ascii "agent", .string event.agentName), (ascii "session_id", .string event.sessionId),
    (ascii "detail", detailValue event.detailJson)]

def lcnEventToJson (event : LcnEvent) : List UInt8 := lcnJsonStringify (.object (eventMembers event))

/-! ## Intact details -/

/-- The event that was recorded last. -/
def newest (store : LcnEventStore) : LcnEvent :=
  store.events ((store.head + store.count - 1) % capacity)

theorem newest_emit (store : LcnEventStore) (e : Emission) :
    newest (lcnEventEmit store e) = e.event store.nextSeq := by
  have hslot : ((lcnEventEmit store e).head + (lcnEventEmit store e).count - 1) % capacity =
      (store.head + store.count) % capacity := by
    unfold lcnEventEmit capacity
    dsimp only
    split
    · omega
    · rfl
  rw [newest, hslot]
  exact Function.update_self _ _ _

def quotedField (m : List UInt8 × List UInt8) : Field := ⟨m.1, .quoted m.2⟩

/-- The detail is an object of these keys, each with a prefix of its string: in the text that
is recorded, where nothing is added and nothing comes twice, and in what is rendered. -/
def Intact (event : LcnEvent) (args : List (String × Option (List UInt8))) : Prop :=
  ∃ kept : List (List UInt8 × List UInt8),
    List.Forall₂ (fun k arg => k.1 = ascii arg.1 ∧ k.2 <+: arg.2.getD []) kept args ∧
      (∃ ms, JsonText (.object ms) event.detailJson ∧
        List.Forall₂ Field.Says (kept.map quotedField) ms) ∧
      ∃ members, lcnJsonParse (lcnEventToJson event) = some (.object members) ∧
        (ascii "detail", .object (kept.map fun k => (k.1, .string k.2))) ∈ members

/-! ## What is recorded as an object is rendered as one -/

theorem parse_stringifyValue {v : LcnJsonValue} (h : Plain v) :
    lcnJsonParse (stringifyValue v) = some v := by
  have hparse := reparse_of_plain h
  have hzero := stringifyValue_ne_zero (fun _ hd => SmallInt.numberText hd |>.ne_zero) h.shaped
  rwa [lcnJsonStringify, cstr_eq hzero] at hparse

/-- An object of strings. -/
def stringsOf (kept : List (List UInt8 × List UInt8)) : LcnJsonValue :=
  .object (kept.map fun k => (k.1, .string k.2))

theorem plain_stringsOf {kept : List (List UInt8 × List UInt8)}
    (hkeys : (kept.map Prod.fst).Nodup) (hplain : ∀ k ∈ kept, Literals k.1) :
    Plain (stringsOf kept) := by
  refine ⟨by simpa [Function.comp_def] using hkeys, ?_⟩
  clear hkeys
  induction kept with
  | nil => trivial
  | cons k kept ih =>
      obtain ⟨hk, hkept⟩ := List.forall_mem_cons.1 hplain
      exact ⟨fun hzero => absurd (hk 0 hzero).1 (by decide), trivial, ih hkept⟩

theorem members_of_holds {kept : List (List UInt8 × List UInt8)}
    {members : List (List UInt8 × LcnJsonValue)}
    (h : List.Forall₂ Field.Holds (kept.map quotedField) members) :
    members = kept.map fun k => (k.1, .string k.2) := by
  induction kept generalizing members with
  | nil =>
      cases h
      rfl
  | cons k kept ih =>
      rw [List.map_cons] at h
      cases h with
      | @cons _ m _ members hm hmembers =>
          obtain ⟨key, v⟩ := m
          obtain ⟨rfl, rfl⟩ : key = k.1 ∧ v = .string k.2 := hm
          rw [ih hmembers]
          rfl

theorem exists_holds {fields : List Field} {members : List (List UInt8 × LcnJsonValue)}
    (h : List.Forall₂ Field.Holds fields members) {f : Field} (hf : f ∈ fields) :
    ∃ m ∈ members, f.Holds m := by
  induction h with
  | nil => cases hf
  | @cons g m _ _ hg _ ih =>
      rcases List.mem_cons.1 hf with rfl | hf
      · exact ⟨m, List.mem_cons_self, hg⟩
      · obtain ⟨m', hm', hholds⟩ := ih hf
        exact ⟨m', List.mem_cons_of_mem m hm', hholds⟩

theorem rendered_detail {event : LcnEvent} {kept : List (List UInt8 × List UInt8)}
    {ms : List (List Piece × Tree)} (hhead : event.detailJson.head? = some 0x7B)
    (hne : kept ≠ []) (hkeys : (kept.map Prod.fst).Nodup) (hplain : ∀ k ∈ kept, Literals k.1)
    (htext : JsonText (.object ms) event.detailJson)
    (hspelled : List.Forall₂ Field.Says (kept.map quotedField) ms) :
    ∃ members, lcnJsonParse (lcnEventToJson event) = some (.object members) ∧
      (ascii "detail", stringsOf kept) ∈ members := by
  have hinner : Template (kept.map quotedField) :=
    { some_field := fun hnil => hne (List.map_eq_nil_iff.1 hnil)
      keys := by simpa [Function.comp_def, quotedField] using hkeys
      plain := List.forall_mem_map.2 hplain
      accepted := List.forall_mem_map.2 fun _ _ => trivial }
  obtain ⟨members, hparse, hholds⟩ := hinner.parsed htext hspelled
  obtain rfl := members_of_holds hholds
  have hdetail : detailValue event.detailJson = stringsOf kept := by
    rw [detailValue, if_pos (.inl hhead), hparse]
    rfl
  have hstring (str : List UInt8) : (lcnJsonParse (stringifyValue (.string str))).isSome := by
    rw [parse_stringifyValue (v := .string str) trivial]
    rfl
  have hnumber (n : UInt64) :
      (lcnJsonParse (stringifyValue (.number (ofRat n.toNat)))).isSome :=
    accepted_ofRat n.toNat_lt
  have hinside := parse_stringifyValue (plain_stringsOf hkeys hplain)
  have houter : Template ((eventMembers event).map memberField) := by
    refine Template.of_keys [ascii "kind", ascii "seq", ascii "timestamp_ms", ascii "agent",
      ascii "session_id", ascii "detail"] rfl (by decide) (List.forall_mem_map.2 ?_)
    simp [eventMembers, memberField, Slot.Accepted, hstring, hnumber, hdetail, hinside]
  have hliterals : ∀ m ∈ eventMembers event, Literals m.1 := fun m hm =>
    houter.plain _ (List.mem_map_of_mem hm)
  obtain ⟨outer, houtertext, houtersays⟩ :=
    houter.written (List.forall_mem_map.2 fun _ _ => trivial)
  obtain ⟨members, hmembers, hall⟩ := houter.parsed houtertext houtersays
  rw [← stringifyObject_eq hliterals] at hmembers
  refine ⟨members, hmembers, ?_⟩
  have hlast : memberField (ascii "detail", detailValue event.detailJson) ∈
      (eventMembers event).map memberField := List.mem_map_of_mem (by simp [eventMembers])
  obtain ⟨⟨key, v⟩, hmem, hkey, hv⟩ := exists_holds hall hlast
  have hvalue : lcnJsonParse (stringifyValue (detailValue event.detailJson)) = some v := hv
  rw [hdetail, hinside] at hvalue
  obtain rfl := Option.some.inj hvalue
  obtain rfl : key = ascii "detail" := hkey
  exact hmem

theorem keys_of_prefixes {kept : List (List UInt8 × List UInt8)}
    {args : List (String × Option (List UInt8))}
    (h : List.Forall₂ (fun k arg => k.1 = ascii arg.1 ∧ k.2 <+: arg.2.getD []) kept args) :
    kept.map Prod.fst = args.map fun arg => ascii arg.1 := by
  induction h with
  | nil => rfl
  | cons hk _ ih => rw [List.map_cons, List.map_cons, hk.1, ih]

/-- A detail is intact, if it is where it is recorded. -/
theorem intact_iff {event : LcnEvent} {args : List (String × Option (List UInt8))}
    (hhead : event.detailJson.head? = some 0x7B)
    (hargs : args ≠ [] ∧ (args.map fun arg => ascii arg.1).Nodup ∧
      ∀ key ∈ args.map fun arg => ascii arg.1, Literals key) :
    Intact event args ↔ ∃ kept : List (List UInt8 × List UInt8),
      List.Forall₂ (fun k arg => k.1 = ascii arg.1 ∧ k.2 <+: arg.2.getD []) kept args ∧
        ∃ ms, JsonText (.object ms) event.detailJson ∧
          List.Forall₂ Field.Says (kept.map quotedField) ms := by
  refine exists_congr fun kept => and_congr_right fun hkept => ?_
  constructor
  · exact fun h => h.1
  · rintro ⟨ms, htext, hspelled⟩
    obtain ⟨hne, hkeys, hplain⟩ := hargs
    have hsame := keys_of_prefixes hkept
    have hne' : kept ≠ [] := by
      rintro rfl
      cases hkept
      exact hne rfl
    rw [← hsame] at hkeys hplain
    exact ⟨⟨ms, htext, hspelled⟩,
      rendered_detail hhead hne' hkeys (List.forall_mem_map.1 hplain) htext hspelled⟩

/-! ## One string -/

/-- Between quotes, the text decodes to a prefix of the string. -/
def PrefixText (u str : List UInt8) : Prop := ∃ ps, Chars ps u ∧ decode ps <+: str

/-- The text decodes to a prefix of the string, up to a quote, and then ends the object. -/
def Closes (str text : List UInt8) : Prop :=
  ∃ u w w', PrefixText u str ∧ Space w ∧ Space w' ∧ text = u ++ 0x22 :: (w ++ 0x7D :: w')

/-- A buffer with so much room keeps the string intact. -/
def Kept (room : ℕ) (str : List UInt8) : Prop :=
  (str.length + 2 ≤ room ∧ PrefixText str str) ∨
    (room ≤ str.length ∧ Closes str (str.take room))

theorem closes_iff {key str text : List UInt8} (hkey : Literals key) :
    (∃ m p, p <+: str ∧
      JsonText (.object [m]) (0x7B :: 0x22 :: (key ++ 0x22 :: 0x3A :: 0x22 :: text)) ∧
      (quotedField (key, p)).Says m) ↔ Closes str text := by
  constructor
  · rintro ⟨m, p, hp, htext, hspelled⟩
    obtain ⟨ps, u, rest, rfl, hu, rfl, hrest⟩ := (jsonText_first hkey).1 htext
    obtain ⟨-, qs, hqs, rfl⟩ := hspelled
    obtain rfl := Tree.string.inj hqs
    cases hrest with
    | @last w w' hw hw' => exact ⟨u, w, w', ⟨ps, hu, hp⟩, hw, hw', rfl⟩
    | more _ hv => cases hv
  · rintro ⟨u, w, w', ⟨ps, hu, hp⟩, hw, hw', rfl⟩
    exact ⟨(key.map .raw, .string ps), decode ps, hp,
      (jsonText_first hkey).2 ⟨ps, u, _, rfl, hu, rfl, .last hw hw'⟩, decode_raw key, ps, rfl, rfl⟩

theorem snoc_inj {s t : List UInt8} {c d : UInt8} (h : s ++ [c] = t ++ [d]) : s = t ∧ c = d := by
  obtain ⟨hs, hc⟩ := List.append_inj' h rfl
  exact ⟨hs, (List.cons.inj hc).1⟩

theorem Space.not_mem {w : List UInt8} (h : Space w) {c : UInt8} (hc : isSpace c = false) :
    c ∉ w := by
  intro hmem
  rw [h c hmem] at hc
  cases hc

/-- A text that ends an object does not end with a quote. -/
theorem Closes.ends {str s : List UInt8} (h : Closes str (s ++ [0x22])) : False := by
  obtain ⟨u, w, w', -, -, hw', hsplit⟩ := h
  rcases List.eq_nil_or_concat w' with rfl | ⟨w', c, rfl⟩
  · have hlast : s ++ [0x22] = (u ++ 0x22 :: w) ++ [0x7D] := by simpa using hsplit
    exact absurd (snoc_inj hlast).2 (by decide)
  · have hlast : s ++ [0x22] = (u ++ 0x22 :: (w ++ 0x7D :: w')) ++ [c] := by simpa using hsplit
    obtain ⟨-, rfl⟩ := snoc_inj hlast
    exact Space.not_mem hw' (c := 0x22) (by decide) (by simp)

theorem closes_whole {str : List UInt8} :
    Closes str (str ++ [0x22, 0x7D]) ↔ PrefixText str str := by
  constructor
  · rintro ⟨u, w, w', hu, hw, hw', hsplit⟩
    rcases List.eq_nil_or_concat w' with rfl | ⟨w', c, rfl⟩
    · have hbrace : (str ++ [0x22]) ++ [0x7D] = (u ++ 0x22 :: w) ++ [0x7D] := by
        simpa using hsplit
      have hquote := (snoc_inj hbrace).1
      rcases List.eq_nil_or_concat w with rfl | ⟨w, c, rfl⟩
      · obtain ⟨rfl, -⟩ := snoc_inj hquote
        exact hu
      · have hlast : str ++ [0x22] = (u ++ 0x22 :: w) ++ [c] := by simpa using hquote
        obtain ⟨-, rfl⟩ := snoc_inj hlast
        exact absurd (show (0x22 : UInt8) ∈ w.concat 0x22 by simp) (Space.not_mem hw (by decide))
    · have hlast : (str ++ [0x22]) ++ [0x7D] = (u ++ 0x22 :: (w ++ 0x7D :: w')) ++ [c] := by
        simpa using hsplit
      obtain ⟨-, rfl⟩ := snoc_inj hlast
      exact absurd (show (0x7D : UInt8) ∈ w'.concat 0x7D by simp) (Space.not_mem hw' (by decide))
  · exact fun h => ⟨str, [], [], h, space_nil, space_nil, rfl⟩

theorem closes_cut (str : List UInt8) (room : ℕ) :
    Closes str ((str ++ [0x22, 0x7D]).take room) ↔ Kept room str := by
  unfold Kept
  rcases Nat.lt_trichotomy room (str.length + 1) with hlong | hedge | hfits
  · rw [List.take_append_of_le_length (by omega)]
    constructor
    · exact fun h => .inr ⟨by omega, h⟩
    · rintro (⟨hfits, -⟩ | ⟨-, h⟩)
      · omega
      · exact h
  · constructor
    · intro h
      rw [hedge, List.take_append, List.take_of_length_le (by omega), Nat.add_sub_cancel_left] at h
      exact h.ends.elim
    · rintro (⟨hfits, -⟩ | ⟨hlong, -⟩) <;> omega
  · have hlength : (str ++ [0x22, 0x7D]).length = str.length + 2 := List.length_append
    rw [List.take_of_length_le (by omega), closes_whole]
    constructor
    · exact fun h => .inl ⟨by omega, h⟩
    · rintro (⟨-, h⟩ | ⟨hlong, -⟩)
      · exact h
      · omega

/-! ## The emitters of one string -/

theorem take_cut {s t : List UInt8} {n : ℕ} (h : s.length ≤ n) :
    (s ++ t).take n = s ++ t.take (n - s.length) := by
  rw [List.take_append, List.take_of_length_le h]

theorem detailJson_emit (g : Globals) (kind : EventKind) (agent : List UInt8)
    (members : List (String × Option (List UInt8))) (now : UInt64) :
    (newest (g.emit kind agent (detailOf members) now).eventStore).detailJson =
      detailOf members := by
  rw [Globals.emit, newest_emit, Emission.event, safeCopy, detailOf]
  exact (List.take_take ..).trans rfl

theorem detailOf_one {key : String} (hkey : (ascii key).length ≤ 506)
    (str : Option (List UInt8)) :
    detailOf [(key, str)] = 0x7B :: 0x22 :: (ascii key ++ 0x22 :: 0x3A :: 0x22 ::
      (str.getD [] ++ [0x22, 0x7D]).take (506 - (ascii key).length)) := by
  have hfull : 0x7B :: (ascii ",").intercalate ([(key, str)].map stringMember) ++ [0x7D] =
      (0x7B :: 0x22 :: (ascii key ++ [0x22, 0x3A, 0x22])) ++ (str.getD [] ++ [0x22, 0x7D]) := by
    simp [stringMember, show ascii "\"" = [0x22] from rfl,
      show ascii "\":\"" = [0x22, 0x3A, 0x22] from rfl]
  have hlength : (0x7B :: 0x22 :: (ascii key ++ [0x22, 0x3A, 0x22])).length =
      (ascii key).length + 5 := by simp
  have hroom : 511 - ((ascii key).length + 5) = 506 - (ascii key).length := by omega
  rw [detailOf, hfull, take_cut (by omega), hlength, hroom]
  simp

/-- What one string is recorded as is intact, if and only if the buffer keeps it intact. -/
theorem emit_one_iff (g : Globals) (kind : EventKind) (agent : List UInt8) {key : String}
    (hkey : Literals (ascii key)) (hlength : (ascii key).length ≤ 506) (str : Option (List UInt8))
    (now : UInt64) :
    Intact (newest (g.emit kind agent (detailOf [(key, str)]) now).eventStore) [(key, str)] ↔
      Kept (506 - (ascii key).length) (str.getD []) := by
  have hdetail := (detailJson_emit g kind agent [(key, str)] now).trans (detailOf_one hlength str)
  rw [intact_iff (by rw [hdetail]; rfl) ⟨List.cons_ne_nil _ _, by simp, by simpa using hkey⟩,
    ← closes_cut, ← closes_iff hkey, hdetail]
  constructor
  · rintro ⟨kept, hkept, ms, htext, hspelled⟩
    cases hkept with
    | @cons k _ _ _ hk hnil =>
        cases hnil
        obtain ⟨k₁, k₂⟩ := k
        obtain ⟨rfl, hprefix⟩ := hk
        cases hspelled with
        | @cons _ m _ _ hm hrest =>
            cases hrest
            exact ⟨m, k₂, hprefix, htext, hm⟩
  · rintro ⟨m, p, hp, htext, hm⟩
    exact ⟨[(ascii key, p)], .cons ⟨rfl, hp⟩ .nil, [m], htext, .cons hm .nil⟩

/-! ## The emitter of two strings -/

/-- The text decodes to a prefix of the first string, up to a quote, goes on with a member of
the key with a prefix of the second, and ends the object. -/
def ClosesWith (key str₁ str₂ text : List UInt8) : Prop :=
  ∃ u w v w' m p, PrefixText u str₁ ∧ Space w ∧ MemberText m v ∧ Space w' ∧ p <+: str₂ ∧
    (quotedField (key, p)).Says m ∧ text = u ++ 0x22 :: (w ++ 0x2C :: (v ++ 0x7D :: w'))

theorem closesWith_iff {key₁ key₂ str₁ str₂ text : List UInt8} (hkey : Literals key₁) :
    (∃ m₁ m₂ p₁ p₂, p₁ <+: str₁ ∧ p₂ <+: str₂ ∧
      JsonText (.object [m₁, m₂]) (0x7B :: 0x22 :: (key₁ ++ 0x22 :: 0x3A :: 0x22 :: text)) ∧
      (quotedField (key₁, p₁)).Says m₁ ∧ (quotedField (key₂, p₂)).Says m₂) ↔
    ClosesWith key₂ str₁ str₂ text := by
  constructor
  · rintro ⟨m₁, m₂, p₁, p₂, hp₁, hp₂, htext, hspelled₁, hspelled₂⟩
    obtain ⟨ps, u, rest, rfl, hu, rfl, hrest⟩ := (jsonText_first hkey).1 htext
    obtain ⟨-, qs, hqs, rfl⟩ := hspelled₁
    obtain rfl := Tree.string.inj hqs
    cases hrest with
    | @more _ w v w' hw hv hw' =>
        cases hv with
        | one hm => exact ⟨u, w, v, w', m₂, p₂, ⟨ps, hu, hp₁⟩, hw, hm, hw', hp₂, hspelled₂, rfl⟩
        | more _ hnone => cases hnone
  · rintro ⟨u, w, v, w', m, p, ⟨ps, hu, hp₁⟩, hw, hm, hw', hp₂, hspelled, rfl⟩
    exact ⟨(key₁.map .raw, .string ps), m, decode ps, p, hp₁, hp₂,
      (jsonText_first hkey).2 ⟨ps, u, _, rfl, hu, rfl, .more hw (.one hm) hw'⟩,
      ⟨decode_raw key₁, ps, rfl, rfl⟩, hspelled⟩

/-- A key of letters. -/
structure PlainKey (key : List UInt8) : Prop where
  nonempty : key ≠ []
  literals : Literals key
  bytes : ∀ c ∈ key, isSpace c = false ∧ c ≠ 0x2C ∧ c ≠ 0x7D

/-- What the format has behind the quote of the first string, cut somewhere: a comma, a quote
and the second key. -/
inductive Between : List UInt8 → Prop
  | nil : Between []
  | comma : Between [0x2C]
  | quote {t : List UInt8} : (∀ c ∈ t.head?, isSpace c = false ∧ c ≠ 0x2C ∧ c ≠ 0x7D) →
      Between (0x2C :: 0x22 :: t)

theorem between_take {t : List UInt8}
    (h : ∀ c ∈ t.head?, isSpace c = false ∧ c ≠ 0x2C ∧ c ≠ 0x7D) (n : ℕ) :
    Between ((0x2C :: 0x22 :: t).take n) := by
  rcases n with _ | _ | n
  · exact .nil
  · exact .comma
  · refine .quote fun c hc => h c ?_
    cases t with
    | nil => simp at hc
    | cons d t =>
        cases n with
        | zero => simp at hc
        | succ n => exact hc

/-- It is no white space, colon or brace. -/
theorem Between.ne {t w s : List UInt8} {c : UInt8} (h : Between t) (hw : Space w)
    (hc : c ≠ 0x2C) : t ≠ w ++ c :: s := by
  rintro rfl
  cases w with
  | nil =>
      generalize hs : [] ++ c :: s = t at h
      cases h with
      | nil => cases hs
      | comma => exact hc (List.cons.inj hs).1
      | quote => exact hc (List.cons.inj hs).1
  | cons d w =>
      have hspace := hw d List.mem_cons_self
      generalize hs : d :: w ++ c :: s = t at h
      have hcomma : d = 0x2C := by
        cases h with
        | nil => cases hs
        | comma => exact (List.cons.inj hs).1
        | quote => exact (List.cons.inj hs).1
      rw [hcomma] at hspace
      cases hspace

/-- As part of a string it is a comma, and the key stands behind the string. -/
theorem Between.chars {t u s : List UInt8} {ps : List Piece} (h : Between t) (hu : Chars ps u)
    (hsplit : t = u ++ 0x22 :: s) :
    u = [0x2C] ∧ ∀ c ∈ s.head?, isSpace c = false ∧ c ≠ 0x2C ∧ c ≠ 0x7D := by
  cases h with
  | nil => cases u <;> cases hsplit
  | comma =>
      rcases u with _ | ⟨a, u⟩
      · cases hsplit
      · have hnil := (List.cons.inj hsplit).2
        cases u <;> cases hnil
  | @quote t ht =>
      rcases u with _ | ⟨a, _ | ⟨b, u⟩⟩
      · cases hsplit
      · obtain ⟨rfl, hrest⟩ := List.cons.inj hsplit
        obtain ⟨-, rfl⟩ := List.cons.inj hrest
        exact ⟨rfl, ht⟩
      · obtain ⟨rfl, hrest⟩ := List.cons.inj hsplit
        obtain ⟨rfl, -⟩ := List.cons.inj hrest
        obtain ⟨y, -, -, hy, -⟩ := hu.quote (x := [0x2C])
        rcases y with _ | ⟨_, y⟩
        · cases hy
        · simp at hy

/-- So what stands behind that string is no white space, comma or brace. -/
theorem Between.behind {t u w s : List UInt8} {ps : List Piece} {c : UInt8} (h : Between t)
    (hu : Chars ps u) (hw : Space w) (hc : c = 0x2C ∨ c = 0x7D) :
    t ≠ u ++ 0x22 :: (w ++ c :: s) := by
  intro hsplit
  obtain ⟨-, hhead⟩ := h.chars hu hsplit
  cases w with
  | nil =>
      obtain ⟨-, hcomma, hbrace⟩ := hhead c rfl
      exact hc.elim hcomma hbrace
  | cons d w =>
      have hspace := hw d List.mem_cons_self
      rw [(hhead d rfl).1] at hspace
      cases hspace

/-- A quote behind a text without quotes is the next one, or a later one. -/
theorem quote_behind {p q r t : List UInt8} (hp : 0x22 ∉ p)
    (h : r ++ 0x22 :: t = p ++ 0x22 :: q) :
    t = q ∨ ∃ r', r' ++ 0x22 :: t = q := by
  rcases List.append_eq_append_iff.1 h with ⟨w, rfl, hw⟩ | ⟨w, rfl, hw⟩
  · cases w with
    | nil => exact .inl (List.cons.inj hw).2
    | cons c w =>
        obtain ⟨rfl, -⟩ := List.cons.inj hw
        exact absurd (List.mem_append_right r List.mem_cons_self) hp
  · cases w with
    | nil => exact .inl (List.cons.inj hw).2.symm
    | cons c w =>
        obtain ⟨rfl, rfl⟩ := List.cons.inj hw
        exact .inr ⟨w, rfl⟩

/-- A quote in a string or behind it: it is escaped, or the closing one, or a later one. -/
theorem quote_string {ps : List Piece} {u q r t : List UInt8} (hu : Chars ps u)
    (h : r ++ 0x22 :: t = u ++ 0x22 :: q) :
    (∃ rs u', .short 0x22 ∈ ps ∧ Chars rs u' ∧ t = u' ++ 0x22 :: q) ∨ t = q ∨
      ∃ r', r' ++ 0x22 :: t = q := by
  rcases List.append_eq_append_iff.1 h with ⟨w, rfl, hw⟩ | ⟨w, rfl, hw⟩
  · cases w with
    | nil => exact .inr (.inl (List.cons.inj hw).2)
    | cons c w =>
        obtain ⟨rfl, rfl⟩ := List.cons.inj hw
        obtain ⟨z, qs, rs, -, rfl, hrs⟩ := hu.quote
        exact .inl ⟨rs, w, by simp, hrs, rfl⟩
  · cases w with
    | nil => exact .inr (.inl (List.cons.inj hw).2.symm)
    | cons c w =>
        obtain ⟨rfl, rfl⟩ := List.cons.inj hw
        exact .inr (.inr ⟨w, rfl⟩)

theorem mem_decode {ps : List Piece} {b : UInt8} (h : Piece.short b ∈ ps) : b ∈ decode ps :=
  List.mem_flatMap.2 ⟨_, h, List.mem_cons_self⟩

/-- No member of the key ends in what the format has behind the first string. -/
theorem Between.not_member {t r w v w' key p : List UInt8} {m : List Piece × Tree}
    (h : Between t) (hkey : PlainKey key) (hw : Space w) (hm : MemberText m v) (hw' : Space w')
    (hspelled : (quotedField (key, p)).Says m) :
    r ++ 0x22 :: t ≠ w ++ 0x2C :: (v ++ 0x7D :: w') := by
  intro hsplit
  obtain ⟨hdecode, ps, hvalue, -⟩ := hspelled
  have hquote : 0x22 ∉ key := fun hmem => (hkey.literals 0x22 hmem).2.1 rfl
  cases hm with
  | @mk ks s w₁ k w₂ w₃ u w₄ hw₁ hk hw₂ hw₃ hu hw₄ =>
      have hks : decode ks = key := hdecode
      obtain rfl : s = .string ps := hvalue
      cases hu with
      | @string _ u hchars =>
          have hopen : 0x22 ∉ w ++ 0x2C :: w₁ := by
            simp [Space.not_mem hw (show isSpace 0x22 = false by decide),
              Space.not_mem hw₁ (show isSpace 0x22 = false by decide)]
          have hcolon : 0x22 ∉ w₂ ++ 0x3A :: w₃ := by
            simp [Space.not_mem hw₂ (show isSpace 0x22 = false by decide),
              Space.not_mem hw₃ (show isSpace 0x22 = false by decide)]
          have hclose : 0x22 ∉ w₄ ++ 0x7D :: w' := by
            simp [Space.not_mem hw₄ (show isSpace 0x22 = false by decide),
              Space.not_mem hw' (show isSpace 0x22 = false by decide)]
          have htext : r ++ 0x22 :: t = (w ++ 0x2C :: w₁) ++ 0x22 :: (k ++ 0x22 ::
              ((w₂ ++ 0x3A :: w₃) ++ 0x22 :: (u ++ 0x22 :: (w₄ ++ 0x7D :: w')))) := by
            rw [hsplit]
            simp
          -- Before the key, in it, before the string, in it, or behind it.
          rcases quote_behind hopen htext with ht | ⟨r, htext⟩
          · obtain ⟨rfl, -⟩ := h.chars hk ht
            rw [hk.comma] at hks
            exact (hkey.bytes 0x2C (hks ▸ List.mem_singleton.2 rfl)).2.1 rfl
          rcases quote_string hk htext with ⟨rs, u', hmem, -, -⟩ | ht | ⟨r, htext⟩
          · exact hquote (hks ▸ mem_decode hmem)
          · exact h.ne hw₂ (c := 0x3A) (by decide) (by simpa using ht)
          rcases quote_behind hcolon htext with ht | ⟨r, htext⟩
          · exact h.behind hchars hw₄ (.inr rfl) ht
          rcases quote_string hchars htext with ⟨rs, u', -, hrs, ht⟩ | ht | ⟨r, htext⟩
          · exact h.behind hrs hw₄ (.inr rfl) ht
          · exact h.ne hw₄ (by decide) ht
          · exact hclose (htext ▸ by simp)

/-- The format between the two strings. -/
def second (key str : List UInt8) : List UInt8 :=
  0x22 :: (key ++ 0x22 :: 0x3A :: 0x22 :: (str ++ [0x22, 0x7D]))

theorem between_second {key : List UInt8} (hkey : PlainKey key) (str : List UInt8) (n : ℕ) :
    Between ((0x2C :: second key str).take n) := by
  refine between_take (fun c hc => hkey.bytes c ?_) n
  cases hcons : key with
  | nil => exact absurd hcons hkey.nonempty
  | cons d ds =>
      rw [hcons, List.cons_append, List.head?_cons] at hc
      obtain rfl := Option.some.inj hc
      exact List.mem_cons_self

/-- Behind the comma: the second member, and the end of the object. -/
theorem second_member {key str : List UInt8} (hkey : PlainKey key) {n : ℕ} :
    (∃ v w' m p, MemberText m v ∧ Space w' ∧ p <+: str ∧ (quotedField (key, p)).Says m ∧
      (second key str).take n = v ++ 0x7D :: w') ↔
    key.length + 4 ≤ n ∧ Kept (n - (key.length + 4)) str := by
  have hfull : second key str = 0x22 :: (key ++ [0x22, 0x3A, 0x22]) ++ (str ++ [0x22, 0x7D]) := by
    simp [second]
  have hlength : (0x22 :: (key ++ [0x22, 0x3A, 0x22])).length = key.length + 4 := by simp
  rw [hfull]
  by_cases hlong : key.length + 4 ≤ n
  · rw [take_cut (by omega), hlength, ← closes_cut, ← closes_iff hkey.literals]
    generalize (str ++ [0x22, 0x7D]).take (n - (key.length + 4)) = text
    have htext : 0x22 :: (key ++ [0x22, 0x3A, 0x22]) ++ text =
        0x22 :: (key ++ 0x22 :: 0x3A :: 0x22 :: text) := by simp
    rw [htext]
    constructor
    · rintro ⟨v, w', m, p, hm, hw', hp, hspelled, hsplit⟩
      have hjson := JsonText.mk space_nil (.object (.one hm)) hw'
      have heq : [] ++ (0x7B :: v ++ [0x7D]) ++ w' =
          0x7B :: 0x22 :: (key ++ 0x22 :: 0x3A :: 0x22 :: text) := by
        rw [hsplit]
        simp
      rw [heq] at hjson
      exact ⟨hlong, m, p, hp, hjson, hspelled⟩
    · rintro ⟨-, m, p, hp, hjson, hspelled⟩
      obtain ⟨ps, u, rest, rfl, hu, rfl, hrest⟩ := (jsonText_first hkey.literals).1 hjson
      cases hrest with
      | @last w w' hw hw' =>
          have hmember := MemberText.mk space_nil (chars_literals hkey.literals) space_nil space_nil
            (.string hu) hw
          exact ⟨_, w', _, p, hmember, hw', hp, hspelled, by simp⟩
      | more _ hv => cases hv
  · constructor
    · rintro ⟨v, w', m, p, -, -, -, -, hsplit⟩
      rw [List.take_append_of_le_length (by omega)] at hsplit
      have hmem : 0x7D ∈ (0x22 :: (key ++ [0x22, 0x3A, 0x22])).take n := by
        rw [hsplit]
        simp
      have hbrace := List.mem_of_mem_take hmem
      have hkeybrace : 0x7D ∉ key := fun hmem => (hkey.bytes 0x7D hmem).2.2 rfl
      simp [hkeybrace] at hbrace
    · rintro ⟨hlong', -⟩
      exact absurd hlong' hlong

/-- Behind the quote of the first string: a comma, and the second member. -/
theorem second_behind {key str : List UInt8} (hkey : PlainKey key) {n : ℕ} :
    (∃ w v w' m p, Space w ∧ MemberText m v ∧ Space w' ∧ p <+: str ∧
      (quotedField (key, p)).Says m ∧
      (0x2C :: second key str).take n = w ++ 0x2C :: (v ++ 0x7D :: w')) ↔
    key.length + 5 ≤ n ∧ Kept (n - (key.length + 5)) str := by
  constructor
  · rintro ⟨w, v, w', m, p, hw, hm, hw', hp, hspelled, hsplit⟩
    cases n with
    | zero => simp at hsplit
    | succ n =>
        rw [List.take_succ_cons] at hsplit
        cases w with
        | nil =>
            have hsecond := (second_member hkey).1
              ⟨v, w', m, p, hm, hw', hp, hspelled, (List.cons.inj hsplit).2⟩
            rw [show n + 1 - (key.length + 5) = n - (key.length + 4) by omega]
            exact ⟨by omega, hsecond.2⟩
        | cons c w =>
            obtain ⟨rfl, -⟩ := List.cons.inj hsplit
            exact absurd (hw 0x2C List.mem_cons_self) (by decide)
  · rintro ⟨hlong, hkept⟩
    obtain ⟨n, rfl⟩ := Nat.exists_eq_succ_of_ne_zero (show n ≠ 0 by omega)
    rw [show n + 1 - (key.length + 5) = n - (key.length + 4) by omega] at hkept
    obtain ⟨v, w', m, p, hm, hw', hp, hspelled, hsplit⟩ :=
      (second_member hkey).2 ⟨by omega, hkept⟩
    exact ⟨[], v, w', m, p, space_nil, hm, hw', hp, hspelled,
      by rw [List.take_succ_cons, hsplit, List.nil_append]⟩

theorem closesWith_cut {key : List UInt8} (hkey : PlainKey key) (str₁ str₂ : List UInt8)
    (room : ℕ) :
    ClosesWith key str₁ str₂ ((str₁ ++ 0x22 :: 0x2C :: second key str₂).take room) ↔
      (str₁.length + (key.length + 6) ≤ room ∧ PrefixText str₁ str₁ ∧
        Kept (room - (str₁.length + (key.length + 6))) str₂) ∨
      (room ≤ str₁.length ∧ ClosesWith key str₁ str₂ (str₁.take room)) := by
  rcases Nat.lt_or_ge str₁.length room with hshort | hlong
  · obtain ⟨n, rfl⟩ := Nat.exists_eq_add_of_lt hshort
    have hcut : (str₁ ++ 0x22 :: 0x2C :: second key str₂).take (str₁.length + n + 1) =
        str₁ ++ 0x22 :: (0x2C :: second key str₂).take n := by
      rw [take_cut (by omega), show str₁.length + n + 1 - str₁.length = n + 1 by omega,
        List.take_succ_cons]
    have hbetween := between_second hkey str₂ n
    rw [hcut]
    have hroom : str₁.length + n + 1 - (str₁.length + (key.length + 6)) =
        n - (key.length + 5) := by omega
    rw [hroom]
    constructor
    · rintro ⟨u, w, v, w', m, p, hu, hw, hm, hw', hp, hspelled, hsplit⟩
      left
      have hbehind (hsame : (0x2C :: second key str₂).take n = w ++ 0x2C :: (v ++ 0x7D :: w')) :
          str₁.length + (key.length + 6) ≤ str₁.length + n + 1 ∧
            Kept (n - (key.length + 5)) str₂ := by
        obtain ⟨hlong, hkept⟩ :=
          (second_behind hkey).1 ⟨w, v, w', m, p, hw, hm, hw', hp, hspelled, hsame⟩
        exact ⟨by omega, hkept⟩
      rcases List.append_eq_append_iff.1 hsplit with ⟨z, rfl, hz⟩ | ⟨z, rfl, hz⟩
      · rcases z with _ | ⟨c, z⟩
        · obtain ⟨hlong, hkept⟩ := hbehind (List.cons.inj hz).2
          rw [List.append_nil] at hu
          exact ⟨hlong, hu, hkept⟩
        · -- The string goes on behind its quote.
          obtain ⟨rfl, htail⟩ := List.cons.inj hz
          obtain ⟨ps, hps, -⟩ := hu
          obtain ⟨-, -, rs, -, -, hrs⟩ := hps.quote
          exact absurd htail (hbetween.behind hrs hw (.inl rfl))
      · rcases z with _ | ⟨c, z⟩
        · obtain ⟨hlong, hkept⟩ := hbehind (List.cons.inj hz).2.symm
          rw [List.append_nil] at hu hlong ⊢
          exact ⟨hlong, hu, hkept⟩
        · -- It ends before it.
          obtain ⟨rfl, htail⟩ := List.cons.inj hz
          exact absurd htail.symm (hbetween.not_member hkey hw hm hw' hspelled)
    · rintro (⟨hfits, hu, hkept⟩ | ⟨hlong, -⟩)
      · obtain ⟨w, v, w', m, p, hw, hm, hw', hp, hspelled, hsplit⟩ :=
          (second_behind hkey).2 ⟨by omega, hkept⟩
        exact ⟨str₁, w, v, w', m, p, hu, hw, hm, hw', hp, hspelled, by rw [hsplit]⟩
      · omega
  · rw [List.take_append_of_le_length hlong]
    constructor
    · exact fun h => .inr ⟨hlong, h⟩
    · rintro (⟨hfits, -⟩ | ⟨-, h⟩)
      · omega
      · exact h

theorem detailOf_two {key₁ key₂ : String} (hkey : (ascii key₁).length ≤ 506)
    (str₁ str₂ : Option (List UInt8)) :
    detailOf [(key₁, str₁), (key₂, str₂)] = 0x7B :: 0x22 :: (ascii key₁ ++ 0x22 :: 0x3A :: 0x22 ::
      (str₁.getD [] ++ 0x22 :: 0x2C :: second (ascii key₂) (str₂.getD [])).take
        (506 - (ascii key₁).length)) := by
  have hfull : 0x7B :: (ascii ",").intercalate ([(key₁, str₁), (key₂, str₂)].map stringMember) ++
      [0x7D] = (0x7B :: 0x22 :: (ascii key₁ ++ [0x22, 0x3A, 0x22])) ++
        (str₁.getD [] ++ 0x22 :: 0x2C :: second (ascii key₂) (str₂.getD [])) := by
    simp [stringMember, second, show ascii "\"" = [0x22] from rfl,
      show ascii "," = [0x2C] from rfl, show ascii "\":\"" = [0x22, 0x3A, 0x22] from rfl]
  have hlength : (0x7B :: 0x22 :: (ascii key₁ ++ [0x22, 0x3A, 0x22])).length =
      (ascii key₁).length + 5 := by simp
  have hroom : 511 - ((ascii key₁).length + 5) = 506 - (ascii key₁).length := by omega
  rw [detailOf, hfull, take_cut (by omega), hlength, hroom]
  simp

/-- What two strings are recorded as is intact, if and only if the buffer keeps them intact, or
the first ends the object by itself. -/
theorem emit_two_iff (g : Globals) (kind : EventKind) (agent : List UInt8) {key₁ key₂ : String}
    (hkey₁ : Literals (ascii key₁)) (hlength : (ascii key₁).length ≤ 506)
    (hkey₂ : PlainKey (ascii key₂)) (hne : ascii key₁ ≠ ascii key₂)
    (str₁ str₂ : Option (List UInt8)) (now : UInt64) :
    Intact (newest (g.emit kind agent (detailOf [(key₁, str₁), (key₂, str₂)]) now).eventStore)
        [(key₁, str₁), (key₂, str₂)] ↔
      ((str₁.getD []).length + ((ascii key₂).length + 6) ≤ 506 - (ascii key₁).length ∧
        PrefixText (str₁.getD []) (str₁.getD []) ∧
        Kept (506 - (ascii key₁).length - ((str₁.getD []).length + ((ascii key₂).length + 6)))
          (str₂.getD [])) ∨
      (506 - (ascii key₁).length ≤ (str₁.getD []).length ∧
        ClosesWith (ascii key₂) (str₁.getD []) (str₂.getD [])
          ((str₁.getD []).take (506 - (ascii key₁).length))) := by
  have hdetail := (detailJson_emit g kind agent [(key₁, str₁), (key₂, str₂)] now).trans
    (detailOf_two hlength str₁ str₂)
  rw [intact_iff (by rw [hdetail]; rfl)
      ⟨List.cons_ne_nil _ _, by simp [hne], by simp [hkey₁, hkey₂.literals]⟩,
    ← closesWith_cut hkey₂, ← closesWith_iff hkey₁, hdetail]
  constructor
  · rintro ⟨kept, hkept, ms, htext, hspelled⟩
    cases hkept with
    | @cons k _ _ _ hk hrest =>
        cases hrest with
        | @cons l _ _ _ hl hnil =>
            cases hnil
            obtain ⟨k₁, k₂⟩ := k
            obtain ⟨l₁, l₂⟩ := l
            obtain ⟨rfl, hkprefix⟩ := hk
            obtain ⟨rfl, hlprefix⟩ := hl
            cases hspelled with
            | @cons _ m _ _ hm hspelled =>
                cases hspelled with
                | @cons _ n _ _ hn hspelled =>
                    cases hspelled
                    exact ⟨m, n, k₂, l₂, hkprefix, hlprefix, htext, hm, hn⟩
  · rintro ⟨m, n, p, q, hp, hq, htext, hm, hn⟩
    exact ⟨[(ascii key₁, p), (ascii key₂, q)], .cons ⟨rfl, hp⟩ (.cons ⟨rfl, hq⟩ .nil), [m, n],
      htext, .cons hm (.cons hn .nil)⟩

/-! ## The emitters -/

theorem plainKey_server : PlainKey (ascii "server") := ⟨by decide, by decide, by decide⟩

/-- The details of `lcn_emit_log`, `lcn_emit_agent_fail` and `lcn_emit_tool_call`. -/
theorem details_iff (g : Globals) (agent : List UInt8)
    (message error toolName server : Option (List UInt8)) (now : UInt64) :
    (Intact (newest (lcnEmitLog g agent message now).eventStore) [("message", message)] ↔
        Kept 499 (message.getD [])) ∧
      (Intact (newest (lcnEmitAgentFail g agent error now).eventStore) [("error", error)] ↔
        Kept 501 (error.getD [])) ∧
      (Intact (newest (lcnEmitToolCall g agent toolName server now).eventStore)
          [("tool", toolName), ("server", server)] ↔
        ((toolName.getD []).length + 12 ≤ 502 ∧
          PrefixText (toolName.getD []) (toolName.getD []) ∧
          Kept (502 - ((toolName.getD []).length + 12)) (server.getD [])) ∨
        (502 ≤ (toolName.getD []).length ∧
          ClosesWith (ascii "server") (toolName.getD []) (server.getD [])
            ((toolName.getD []).take 502))) :=
  ⟨emit_one_iff g .log agent (by decide) (by decide) message now,
    emit_one_iff g .agentFail agent (by decide) (by decide) error now,
    emit_two_iff g .toolCall agent (by decide) (by decide) plainKey_server (by decide) toolName
      server now⟩

/-- A message with a quote is not recorded as an object. -/
theorem quote_breaks_detail :
    ¬ ∀ message : List UInt8, 0 ∉ message →
      Intact (newest (lcnEmitLog {} (ascii "planner") (some message) 0).eventStore)
        [("message", some message)] := by
  intro h
  have hintact := h (ascii "say \"hi\"") (by decide)
  rcases (emit_one_iff {} .log (ascii "planner") (by decide) (by decide) _ 0).1 hintact with
    ⟨-, ps, hps, -⟩ | ⟨hlong, -⟩
  · obtain ⟨z, -, -, hz, -⟩ := Chars.quote (x := ascii "say ") (y := ascii "hi\"") hps
    have hlast := congrArg List.getLast? hz
    rw [List.getLast?_concat] at hlast
    exact absurd hlast (by decide)
  · exact absurd hlong (by decide)

end Limceron.Runtime.Details
