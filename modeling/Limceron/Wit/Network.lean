/-
# `Limceron.Wit.Network` — the allowlist of `http.fetch`

An agent may pin the hosts of `http.fetch` in its `capabilities`.  The list is
checked, and then goes two ways:

| to | as | of |
| :-- | :-- | :-- |
| a section of the module | JSON in a string literal | the first agent that has hosts, 64 of them |
| the world of the agent | a `hosts` line | its first list |

Neither encoding escapes anything.  A host of plain characters comes through both
(`networkSection_hosts`, `readImport_emitParamCapImport`); what `strrchr` and the
other checks accept in front of the port may hold a quote as well.
-/
import Limceron.Json.Derives
import Limceron.Lib.WatStrings
import Limceron.Wit.Emit

namespace Limceron.Wit

open Json (ascii Tree Piece ValueText ItemsText MemberText MembersText JsonText Space Chars
  PieceText readText readText_iff)

/-! ## The check -/

/-- A message, in its buffer, and the hint that goes with it. -/
structure Report where
  message : Bytes
  hint : Bytes
  deriving DecidableEq

def report (message hint : Bytes) : Report := ⟨message.take 511, hint⟩

def httpFetch : Bytes := ascii "http.fetch"

def colon : UInt8 := 0x3A

def star : UInt8 := 0x2A

def hostPatternIsIpLiteral (host : Bytes) : Bool :=
  host.all (fun c => c = dot ∨ Json.isDigit c) && host.contains dot

/-- What is wrong with the stars of a host, and the hint. -/
def starFault (host : Bytes) : Option (Bytes × Bytes) :=
  let outside := (ascii "has '*' outside the leading position",
    ascii "use \"*.suffix:port\" for subdomain glob (glob only valid as leading '*.')")
  match host with
  | [] => none
  | c :: rest =>
      if c = star then
        if rest.head? = some dot then
          if rest.contains star then
            some (ascii "has multiple '*' wildcards",
              ascii "use \"*.suffix:port\" for subdomain glob")
          else none
        else some outside
      else if rest.contains star then some outside
      else none

/-- What is wrong with a port, of which `port` has been read. -/
def portFault (port : Nat) : Bytes → Option (Bytes × Bytes)
  | [] =>
      if port = 0 then some (ascii "has port 0 (not allowed)", ascii "port must be in (0, 65535]")
      else none
  | c :: s =>
      if ¬ Json.isDigit c then
        some (ascii "has non-numeric port", ascii "port must be a decimal integer in (0, 65535]")
      else
        let port := port * 10 + (c.toNat - 0x30)
        if 65535 < port then some (ascii "port out of range", ascii "port must be in (0, 65535]")
        else portFault port s

/-- What is wrong with an entry that is not empty, and the hint. -/
def specFault (spec : Bytes) : Option (Bytes × Bytes) :=
  let host := (spec.rdropWhile (· ≠ colon)).dropLast
  let port := spec.rtakeWhile (· ≠ colon)
  if spec = ascii "*" ∨ spec = ascii "*:*" then
    some (ascii "is the unrestricted wildcard -- not allowed in parameterised form",
      ascii "for an unrestricted fetch use the bare form `capabilities: [http.fetch]`")
  else if ¬ spec.contains colon ∨ host = [] ∨ port = [] then
    some (ascii "missing host or port", ascii "use \"host:port\" (e.g. \"api.openai.com:443\")")
  else
    match starFault host with
    | some fault => some fault
    | none =>
        if hostPatternIsIpLiteral host then
          some (ascii "looks like an IP literal",
            ascii "use a domain name (IP literals are rejected in v1)")
        else portFault 0 port

def inAgent (agentName : Bytes) : Bytes := ascii "agent '" ++ agentName ++ ascii "': capability '"

def validateHostPortSpec (agentName verb spec : Bytes) : Option Report :=
  if spec = [] then
    some (report (inAgent agentName ++ verb ++ ascii "' allowlist contains empty entry")
      (ascii "use \"host:port\" (e.g. \"api.openai.com:443\")"))
  else
    (specFault spec).map fun (fault, hint) =>
      report (inAgent agentName ++ verb ++ ascii "' allowlist entry '" ++ spec ++ ascii "' " ++
        fault) hint

/-- The reports on one entry of a list of capabilities. -/
def checkEntry (agentName : Bytes) : CapEntry → List Report
  | .ident _ => []
  | .item name hosts =>
      if name = httpFetch then
        if hosts = [] then
          [report (ascii "agent '" ++ agentName ++
              ascii "': capability 'http.fetch' allowlist is empty")
            (ascii "drop the empty parens, or supply at least one \"host:port\" entry")]
        else hosts.filterMap (validateHostPortSpec agentName name)
      else []

def checkCapabilityAllowlists (P : Program) : List Report :=
  P.flatMap fun agent => (capabilityEntries agent).flatMap (checkEntry agent.name)

/-- The check of the lists has nothing to report. -/
def Accepted (P : Program) : Prop := checkCapabilityAllowlists P = []

instance (P : Program) : Decidable (Accepted P) :=
  inferInstanceAs (Decidable (checkCapabilityAllowlists P = []))

/-! ## The custom section -/

/-- The host lists of an agent. -/
def fetchLists (agent : Agent) : List (List Bytes) :=
  (capabilityEntries agent).filterMap fun
    | .item name hosts => if name = httpFetch then some hosts else none
    | .ident _ => none

/-- The hosts an agent declares, in order. -/
def declaredHosts (agent : Agent) : List Bytes := (fetchLists agent).flatten

/-- `scan_capability_network_allowlist`: the table `net_allow_hosts`. -/
def scanCapabilityNetworkAllowlist : Program → List Bytes
  | [] => []
  | agent :: rest =>
      let hosts := (declaredHosts agent).take 64
      if hosts = [] then scanCapabilityNetworkAllowlist rest else hosts

/-- `(@custom "name" literal)`. -/
structure CustomSection where
  name : Bytes
  literal : Bytes
  deriving DecidableEq

def CustomSection.print (s : CustomSection) : Bytes :=
  ascii "  (@custom \"" ++ s.name ++ ascii "\" " ++ s.literal ++ ascii ")\n"

/-- The literal the hosts are printed into, quotes included. -/
def payloadLiteral (hosts : List Bytes) : Bytes :=
  ascii "\"[\x7b\\\"verb\\\":\\\"http.fetch\\\",\\\"hosts\\\":[" ++
    List.intercalate (ascii ",") (hosts.map fun h => ascii "\\\"" ++ h ++ ascii "\\\"") ++
    ascii "]\x7d]\""

def sectionName : Bytes := ascii "vdag.capability.network.allowlist"

/-- The section of a table; none of an empty one. -/
def networkSection (hosts : List Bytes) : Option CustomSection :=
  if hosts = [] then none else some ⟨sectionName, payloadLiteral hosts⟩

def emitCapabilityNetworkCustomSection (hosts : List Bytes) : Bytes :=
  match networkSection hosts with
  | none => []
  | some s =>
      ascii "  ;; --- L12: capability.network compile-time allowlist ---\n" ++
        ascii "  ;; " ++ Json.formatInt hosts.length ++
        ascii " host(s) declared via http.fetch([...])\n" ++ s.print

/-- The section of the module of a program. -/
def moduleSection (P : Program) : Option CustomSection :=
  networkSection (scanCapabilityNetworkAllowlist P)

/-! ## What is read back -/

/-- The strings of a list of strings. -/
def stringItems : Tree → Option (List Bytes)
  | .array items => items.mapM fun
      | .string ps => some (Json.decode ps)
      | _ => none
  | _ => none

/-- The member of an object with a key. -/
def member (key : Bytes) : Tree → Option Tree
  | .object ms => (ms.find? fun m => Json.decode m.1 = key).map (·.2)
  | _ => none

def isFetch (entry : Tree) : Bool :=
  match member (ascii "verb") entry with
  | some (.string ps) => Json.decode ps = httpFetch
  | _ => false

/-- The hosts of the `http.fetch` entries of a list of entries. -/
def fetchHosts : Tree → Option (List Bytes)
  | .array entries =>
      ((entries.filter isFetch).mapM fun entry =>
        (member (ascii "hosts") entry).bind stringItems).map List.flatten
  | _ => none

/-- The payload read as a string literal of the text format and then as JSON. -/
def CustomSection.hosts (s : CustomSection) : Option (List Bytes) :=
  match WatStrings.readLiteral s.literal with
  | some (payload, []) => (readText payload).bind fetchHosts
  | _ => none

def importHead : Bytes := ascii "    import http.fetch \x7b\n        hosts: "

def importTail : Bytes := ascii "\n    \x7d\n"

/-- The strings of the `hosts` line of an import. -/
def readImport (block : Bytes) : Option (List Bytes) :=
  if importHead <+: block ∧ importTail <:+ block then
    (readText ((block.drop importHead.length).take
      (block.length - importHead.length - importTail.length))).bind stringItems
  else none

/-- The imports of `http.fetch` with hosts, in the world of an agent. -/
def fetchImports (agent : Agent) : List Bytes :=
  ((witCollectCaps agent).filter (· = httpFetch)).filterMap (emitParamCapImport agent)

/-! ## Plain strings in both encodings -/

/-- A host that neither encoding would have to escape. -/
def PlainText (s : Bytes) : Prop := ∀ c ∈ s, WatStrings.Plain c

instance : DecidablePred PlainText := fun s =>
  inferInstanceAs (Decidable (∀ c ∈ s, WatStrings.Plain c))

def quoted (s : Bytes) : Bytes := 0x22 :: s ++ [0x22]

/-- The string of a plain text. -/
def rawString (s : Bytes) : Tree := .string (s.map .raw)

def rawStrings (hosts : List Bytes) : Tree := .array (hosts.map rawString)

/-- The payload of a section, before it is written as a literal. -/
def payload (hosts : List Bytes) : Bytes :=
  ascii "[\x7b\"verb\":\"http.fetch\",\"hosts\":[" ++
    List.intercalate (ascii ",") (hosts.map quoted) ++ ascii "]\x7d]"

def payloadTree (hosts : List Bytes) : Tree :=
  .array [.object [((ascii "verb").map .raw, rawString httpFetch),
    ((ascii "hosts").map .raw, rawStrings hosts)]]

theorem chars_raw {s : Bytes} (h : PlainText s) : Chars (s.map .raw) s := by
  induction s with
  | nil => exact .nil
  | cons c s ih =>
      have hc : WatStrings.Plain c := h c (by simp)
      exact .cons (.raw hc.1 hc.2.1 hc.2.2.1) (ih fun d hd => h d (by simp [hd]))

theorem decode_raw (s : Bytes) : Json.decode (s.map .raw) = s := by
  induction s with
  | nil => rfl
  | cons c s ih => exact congrArg (c :: ·) ih

theorem valueText_rawString {s : Bytes} (h : PlainText s) : ValueText (rawString s) (quoted s) :=
  .string (chars_raw h)

theorem itemsText_rawString {w : Bytes} (hw : Space w) {hosts : List Bytes}
    (h : ∀ s ∈ hosts, PlainText s) (hne : hosts ≠ []) :
    ItemsText (hosts.map rawString) (List.intercalate (0x2C :: w) (hosts.map quoted)) := by
  have hitem : ∀ {w : Bytes}, Space w → ∀ s, PlainText s → ∀ ts v,
      ItemsText ts v → ItemsText (rawString s :: ts) (w ++ quoted s ++ 0x2C :: v) := by
    intro w hw s hs ts v hts
    have hnil : Space [] := by simp [Space]
    simpa using ItemsText.more hw (valueText_rawString hs) hnil hts
  have hlast : ∀ {w : Bytes}, Space w → ∀ s, PlainText s →
      ItemsText [rawString s] (w ++ quoted s) := by
    intro w hw s hs
    have hnil : Space [] := by simp [Space]
    simpa using ItemsText.one hw (valueText_rawString hs) hnil
  -- an item behind a comma begins with the white space of the separator
  have hall : ∀ (hosts : List Bytes) {w' : Bytes}, Space w' → (∀ s ∈ hosts, PlainText s) →
      hosts ≠ [] →
      ItemsText (hosts.map rawString) (w' ++ List.intercalate (0x2C :: w) (hosts.map quoted)) := by
    intro hosts
    induction hosts with
    | nil => intro _ _ _ hne; exact absurd rfl hne
    | cons s hosts ih =>
        intro w' hw' h _
        have hs : PlainText s := h s (by simp)
        cases hosts with
        | nil => simpa [List.intercalate] using hlast hw' s hs
        | cons t hosts =>
            have hrest := ih hw (fun u hu => h u (by simp [hu])) (by simp)
            simpa [List.intercalate, List.intersperse] using hitem hw' s hs _ _ hrest
  have hnil : Space [] := by simp [Space]
  simpa using hall hosts hnil h hne

theorem valueText_rawStrings {w : Bytes} (hw : Space w) {hosts : List Bytes}
    (h : ∀ s ∈ hosts, PlainText s) :
    ValueText (rawStrings hosts)
      (0x5B :: List.intercalate (0x2C :: w) (hosts.map quoted) ++ [0x5D]) := by
  rcases eq_or_ne hosts [] with rfl | hne
  · exact .emptyArray (by simp [Space, List.intercalate])
  · exact .array (itemsText_rawString hw h hne)

theorem stringItems_rawStrings (hosts : List Bytes) :
    stringItems (rawStrings hosts) = some hosts := by
  rw [rawStrings, stringItems]
  induction hosts with
  | nil => rfl
  | cons s hosts ih =>
      rw [List.map_cons, List.mapM_cons, ih]
      simp [rawString, decode_raw]

/-! ## The section of plain hosts -/

theorem write_intercalate (sep : Bytes) :
    ∀ xs : List Bytes, WatStrings.write (List.intercalate sep xs) =
      List.intercalate (WatStrings.write sep) (xs.map WatStrings.write)
  | [] => rfl
  | [x] => by simp [List.intercalate]
  | x :: y :: xs => by
      have hrest := write_intercalate sep (y :: xs)
      simp only [List.intercalate, List.intersperse, List.map_cons, List.flatten_cons,
        WatStrings.write_append] at hrest ⊢
      rw [hrest]

theorem payload_chars {hosts : List Bytes} (h : ∀ s ∈ hosts, PlainText s) :
    ∀ c ∈ payload hosts, c = WatStrings.quote ∨ WatStrings.Plain c := by
  have hhead : ∀ c ∈ ascii "[\x7b\"verb\":\"http.fetch\",\"hosts\":[",
      c = WatStrings.quote ∨ WatStrings.Plain c := by decide
  have htail : ∀ c ∈ ascii "]\x7d]", c = WatStrings.quote ∨ WatStrings.Plain c := by decide
  intro c hc
  rw [payload, List.mem_append, List.mem_append] at hc
  rcases hc with (hc | hc) | hc
  · exact hhead c hc
  · rcases mem_intercalate hc with hc | ⟨x, hx, hc⟩
    · rw [show ascii "," = [0x2C] from rfl, List.mem_singleton] at hc
      subst hc
      exact .inr (by decide)
    · obtain ⟨s, hs, rfl⟩ := List.mem_map.mp hx
      simp only [quoted, List.cons_append, List.mem_cons, List.mem_append, List.not_mem_nil,
        or_false] at hc
      rcases hc with rfl | hc | rfl
      · exact .inl rfl
      · exact .inr (h s hs c hc)
      · exact .inl rfl
  · exact htail c hc

theorem payloadLiteral_eq {hosts : List Bytes} (h : ∀ s ∈ hosts, PlainText s) :
    payloadLiteral hosts =
      WatStrings.quote :: WatStrings.write (payload hosts) ++ [WatStrings.quote] := by
  have hquoted : (hosts.map quoted).map WatStrings.write =
      hosts.map fun s => ascii "\\\"" ++ s ++ ascii "\\\"" := by
    rw [List.map_map]
    refine List.map_congr_left fun s hs => ?_
    rw [Function.comp_apply, quoted, WatStrings.write_append, WatStrings.write_cons,
      WatStrings.write_plain (h s hs)]
    rfl
  rw [payload, WatStrings.write_append, WatStrings.write_append, write_intercalate, hquoted,
    payloadLiteral]
  simp only [← List.cons_append, List.append_assoc]
  rfl

theorem payload_text {hosts : List Bytes} (h : ∀ s ∈ hosts, PlainText s) :
    JsonText (payloadTree hosts) (payload hosts) := by
  have hnone : Space [] := by simp [Space]
  have hplain : ∀ s ∈ [ascii "verb", ascii "hosts", httpFetch], PlainText s := by decide
  have hverb := MemberText.mk hnone (chars_raw (hplain (ascii "verb") (by simp))) hnone hnone
    (valueText_rawString (hplain httpFetch (by simp))) hnone
  have hhosts := MemberText.mk hnone (chars_raw (hplain (ascii "hosts") (by simp))) hnone hnone
    (valueText_rawStrings (w := []) hnone h) hnone
  have hentry := ValueText.object (.more hverb (.one hhosts))
  have hlist := JsonText.mk hnone (.array (.one hnone hentry hnone)) hnone
  refine (congrArg (JsonText (payloadTree hosts)) ?_).mpr hlist
  simp only [payload, List.append_assoc, List.nil_append, List.append_nil, List.cons_append]
  rfl

theorem fetchHosts_payloadTree (hosts : List Bytes) :
    fetchHosts (payloadTree hosts) = some hosts := by
  have hverb : member (ascii "verb") (.object [((ascii "verb").map .raw, rawString httpFetch),
      ((ascii "hosts").map .raw, rawStrings hosts)]) = some (rawString httpFetch) := by
    simp [member, decode_raw]
  have hhosts : member (ascii "hosts") (.object [((ascii "verb").map .raw, rawString httpFetch),
      ((ascii "hosts").map .raw, rawStrings hosts)]) = some (rawStrings hosts) := by
    have hne : ascii "verb" ≠ ascii "hosts" := by decide
    simp [member, decode_raw, hne]
  have hfetch : isFetch (.object [((ascii "verb").map .raw, rawString httpFetch),
      ((ascii "hosts").map .raw, rawStrings hosts)]) = true := by
    rw [isFetch, hverb]
    simp [rawString, decode_raw]
  rw [payloadTree, fetchHosts, List.filter_cons_of_pos hfetch, List.filter_nil, List.mapM_cons,
    hhosts, Option.bind_some, stringItems_rawStrings]
  simp

/-- A table of plain hosts is read back from its section as it was. -/
theorem networkSection_hosts {hosts : List Bytes} (h : ∀ s ∈ hosts, PlainText s) :
    (CustomSection.mk sectionName (payloadLiteral hosts)).hosts = some hosts := by
  have hread := WatStrings.readLiteral_write (payload_chars h) []
  rw [CustomSection.hosts, payloadLiteral_eq h, hread]
  simp only
  rw [(payload_text h).readText, Option.bind_some, fetchHosts_payloadTree]

/-- A quote in a host passes the check, and ends the literal. -/
example : Accepted [⟨ascii "A",
      [⟨capabilitiesField, .array [.item httpFetch [ascii "a\"b:443"]]⟩], []⟩] ∧
    (CustomSection.mk sectionName (payloadLiteral [ascii "a\"b:443"])).hosts = none :=
  ⟨by decide, rfl⟩

/-! ## The `hosts` line of plain hosts -/

theorem findParamCapItem_fetch (agent : Agent) :
    findParamCapItem agent httpFetch = (fetchLists agent).head? := by
  rw [findParamCapItem, fetchLists]
  exact List.head?_filterMap.symm

theorem hostsList_eq {hosts : List Bytes} (hlength : ∀ s ∈ hosts, s.length ≤ 1021) :
    hostsList hosts =
      0x5B :: List.intercalate (0x2C :: [0x20]) (hosts.map quoted) ++ [0x5D] := by
  have hquoted : (hosts.map fun s => appendf (ascii "\"" ++ s ++ ascii "\"")) =
      hosts.map quoted := by
    refine List.map_congr_left fun s hs => ?_
    have hs : s.length ≤ 1021 := hlength s hs
    have hshort : (quoted s).length ≤ 1023 := by
      simp only [quoted, List.length_append, List.length_cons, List.length_nil]
      omega
    exact List.take_of_length_le hshort
  rw [hostsList, hquoted]
  rfl

/-- The import of a list of plain hosts lists them. -/
theorem readImport_hostsList {hosts : List Bytes} (h : ∀ s ∈ hosts, PlainText s)
    (hlength : ∀ s ∈ hosts, s.length ≤ 1021) :
    readImport (importHead ++ hostsList hosts ++ importTail) = some hosts := by
  have hspace : Space [0x20] := by
    intro c hc
    rw [List.mem_singleton] at hc
    subst hc
    rfl
  have hnil : Space [] := by simp [Space]
  have htext := JsonText.mk hnil (valueText_rawStrings hspace h) hnil
  rw [List.nil_append, List.append_nil, ← hostsList_eq hlength] at htext
  have hmiddle : ((importHead ++ hostsList hosts ++ importTail).drop importHead.length).take
      ((importHead ++ hostsList hosts ++ importTail).length - importHead.length -
        importTail.length) = hostsList hosts := by
    rw [List.append_assoc, List.drop_left]
    refine List.take_left' ?_
    simp only [List.length_append]
    omega
  rw [readImport, if_pos ⟨⟨_, (List.append_assoc ..).symm⟩, List.suffix_append _ _⟩, hmiddle,
    htext.readText, Option.bind_some, stringItems_rawStrings]

theorem emitParamCapImport_fetch {agent : Agent} {hosts : List Bytes}
    (h : (fetchLists agent).head? = some hosts) :
    emitParamCapImport agent httpFetch = some (importHead ++ hostsList hosts ++ importTail) := by
  rw [emitParamCapImport, findParamCapItem_fetch, h, Option.map_some]
  rfl

/-! ## The table -/

theorem fetchLists_ne_nil {P : Program} (h : Accepted P) {A : Agent} (hA : A ∈ P) :
    [] ∉ fetchLists A := by
  intro hnil
  obtain ⟨entry, hentry, heq⟩ := List.mem_filterMap.mp hnil
  have hreports : checkEntry A.name entry = [] := by
    have hA := List.flatMap_eq_nil_iff.mp h A hA
    exact List.flatMap_eq_nil_iff.mp hA entry hentry
  cases entry with
  | ident name => exact absurd heq (by simp)
  | item name hosts =>
      by_cases hname : name = httpFetch
      · simp only [hname, if_true, Option.some.injEq] at heq
        subst heq
        simp [checkEntry, hname] at hreports
      · simp [hname] at heq

theorem declaredHosts_eq_nil {P : Program} (h : Accepted P) {A : Agent} (hA : A ∈ P) :
    declaredHosts A = [] ↔ fetchLists A = [] := by
  have hne := fetchLists_ne_nil h hA
  rw [declaredHosts, List.flatten_eq_nil_iff]
  refine ⟨fun hall => ?_, fun hnil => by simp [hnil]⟩
  refine List.eq_nil_iff_forall_not_mem.mpr fun hosts hhosts => ?_
  exact hne (hall hosts hhosts ▸ hhosts)

theorem scan_eq_nil {P : Program} :
    scanCapabilityNetworkAllowlist P = [] ↔ ∀ A ∈ P, declaredHosts A = [] := by
  induction P with
  | nil => simp [scanCapabilityNetworkAllowlist]
  | cons A P ih =>
      rw [scanCapabilityNetworkAllowlist, List.forall_mem_cons, ← ih]
      rcases eq_or_ne (declaredHosts A) [] with h | h
      · simp [h]
      · simp [h]

theorem scan_append {before : Program} (h : ∀ B ∈ before, declaredHosts B = []) (P : Program) :
    scanCapabilityNetworkAllowlist (before ++ P) = scanCapabilityNetworkAllowlist P := by
  induction before with
  | nil => rfl
  | cons B before ih =>
      have hB : declaredHosts B = [] := h B (by simp)
      rw [List.cons_append, scanCapabilityNetworkAllowlist, hB, List.take_nil, if_pos rfl]
      exact ih fun C hC => h C (by simp [hC])

theorem scan_cons {A : Agent} (h : declaredHosts A ≠ []) (after : Program) :
    scanCapabilityNetworkAllowlist (A :: after) = (declaredHosts A).take 64 := by
  rw [scanCapabilityNetworkAllowlist, if_neg]
  simpa using h

/-! ## What is carried -/

/-- The world of an agent lists the hosts: it has an import of `http.fetch` with hosts,
and each of them has these. -/
def WorldLists (A : Agent) (hosts : List Bytes) : Prop :=
  fetchImports A ≠ [] ∧ ∀ block ∈ fetchImports A, readImport block = some hosts

/-- The module announces the hosts. -/
def ModuleLists (P : Program) (hosts : List Bytes) : Prop :=
  ∃ s, moduleSection P = some s ∧ s.name = sectionName ∧ s.hosts = some hosts

/-- Each agent finds its own hosts in the module and in its world, and there is a
section when there are any. -/
def Carried (P : Program) : Prop :=
  (∀ A ∈ P, fetchLists A ≠ [] →
    ModuleLists P (declaredHosts A) ∧ WorldLists A (declaredHosts A)) ∧
  (moduleSection P = none ↔ ∀ A ∈ P, fetchLists A = [])

theorem moduleSection_eq_none {P : Program} (h : Accepted P) :
    moduleSection P = none ↔ ∀ A ∈ P, fetchLists A = [] := by
  have hscan : moduleSection P = none ↔ scanCapabilityNetworkAllowlist P = [] := by
    rw [moduleSection, networkSection]
    split <;> simp [*]
  rw [hscan, scan_eq_nil]
  exact forall₂_congr fun A hA => declaredHosts_eq_nil h hA

/-- The first agent that has hosts. -/
theorem moduleLists_first {before after : Program} {A : Agent} (h : Accepted (before ++ A :: after))
    (hbefore : ∀ B ∈ before, fetchLists B = []) (hA : fetchLists A ≠ [])
    (hplain : ∀ s ∈ declaredHosts A, PlainText s) :
    ModuleLists (before ++ A :: after) ((declaredHosts A).take 64) := by
  have hnone : ∀ B ∈ before, declaredHosts B = [] := by
    intro B hB
    exact (declaredHosts_eq_nil h (by simp [hB])).mpr (hbefore B hB)
  have hsome : declaredHosts A ≠ [] := mt (declaredHosts_eq_nil h (by simp)).mp hA
  refine ⟨⟨sectionName, payloadLiteral ((declaredHosts A).take 64)⟩, ?_, rfl, ?_⟩
  · rw [moduleSection, scan_append hnone, scan_cons hsome, networkSection, if_neg]
    simpa using hsome
  · exact networkSection_hosts fun s hs => hplain s (List.mem_of_mem_take hs)

theorem worldLists_single {A : Agent} {hosts : List Bytes} (hA : fetchLists A = [hosts])
    (hmem : httpFetch ∈ witCollectCaps A) (hplain : ∀ s ∈ hosts, PlainText s)
    (hlength : ∀ s ∈ hosts, s.length ≤ 1021) : WorldLists A hosts := by
  have himport := emitParamCapImport_fetch (show (fetchLists A).head? = some hosts by rw [hA]; rfl)
  have hblocks : ∀ block ∈ fetchImports A,
      block = importHead ++ hostsList hosts ++ importTail := by
    intro block hblock
    obtain ⟨q, hq, hblock⟩ := List.mem_filterMap.mp hblock
    obtain rfl : q = httpFetch := by simpa using (List.mem_filter.mp hq).2
    exact Option.some.inj (hblock.symm.trans himport)
  refine ⟨?_, fun block hblock => hblocks block hblock ▸ readImport_hostsList hplain hlength⟩
  refine List.ne_nil_of_mem (List.mem_filterMap.mpr ⟨httpFetch, ?_, himport⟩)
  exact List.mem_filter.mpr ⟨hmem, by simp⟩

/-- An agent whose `capabilities` hold one list of hosts. -/
def fetcher (name : String) (hosts : List Bytes) : Agent :=
  ⟨ascii name, [⟨capabilitiesField, .array [.item httpFetch hosts]⟩], []⟩

/-- Two agents, each with a host of its own. -/
def twoFetchers : Program :=
  [fetcher "First" [ascii "a.com:443"], fetcher "Second" [ascii "b.com:443"]]

end Limceron.Wit
