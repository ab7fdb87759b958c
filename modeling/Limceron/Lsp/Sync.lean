/-
# `Limceron.Lsp.Sync` — the language server keeps the texts of the editor

The editor opens, changes, saves and closes documents.  A message of it is a JSON text
(`Message`); it says which text a document has from then on (`Notice.apply`).

| member | looked for from |
| :-- | :-- |
| `method`, `id`, `params` | the start of the message |
| `textDocument`, the `text` of a save | the value of `params` |
| `uri`, the `text` of an open | the value of `textDocument` |
| `contentChanges`, its `text` | the value of `params`, the first change |

The server follows the editor as long as each member is the first place where its name
stands in quotes, and the strings have plain escapes (`Plain`).
-/
import Limceron.Lsp.Documents

namespace Limceron.Lsp

open Json

/-! ## What the editor says -/

inductive Notice where
  | didOpen (uri text : Bytes)
  /-- The text after all changes of the notification. -/
  | didChange (uri text : Bytes)
  | didSave (uri : Bytes) (text : Option Bytes)
  | didClose (uri : Bytes)

def Notice.method : Notice → String
  | .didOpen _ _ => "textDocument/didOpen"
  | .didChange _ _ => "textDocument/didChange"
  | .didSave _ _ => "textDocument/didSave"
  | .didClose _ => "textDocument/didClose"

def Notice.uri : Notice → Bytes
  | .didOpen uri _ => uri
  | .didChange uri _ => uri
  | .didSave uri _ => uri
  | .didClose uri => uri

/-- The texts of the open documents after a notification. -/
def Notice.apply (isOpen : Bytes → Option Bytes) : Notice → Bytes → Option Bytes
  | .didOpen uri text => Function.update isOpen uri (some text)
  | .didChange uri text =>
      if (isOpen uri).isSome then Function.update isOpen uri (some text) else isOpen
  | .didSave uri (some text) =>
      if (isOpen uri).isSome then Function.update isOpen uri (some text) else isOpen
  | .didSave _ none => isOpen
  | .didClose uri => Function.update isOpen uri none

/-- The member is a string. -/
def StringField (t : Tree) (key : String) (s : Bytes) : Prop :=
  ∃ ps, field t key = some (.string ps) ∧ decode ps = s

/-- A notification: the method and the URI, and no `id`. -/
structure Header (t : Tree) (notice : Notice) (params td : Tree) : Prop where
  method : StringField t "method" (ascii notice.method)
  noId : field t "id" = none
  paramsField : field t "params" = some params
  documentField : field params "textDocument" = some td
  uri : StringField td "uri" notice.uri

/-- What a message tells. -/
inductive Tells (t : Tree) : Notice → Prop
  | didOpen {params td : Tree} {uri text : Bytes} :
      Header t (.didOpen uri text) params td → StringField td "text" text →
      Tells t (.didOpen uri text)
  | didChange {params td change : Tree} {earlier : List Tree} {uri text : Bytes} :
      Header t (.didChange uri text) params td →
      field params "contentChanges" = some (.array (earlier ++ [change])) →
      StringField change "text" text → Tells t (.didChange uri text)
  | didSave {params td : Tree} {uri : Bytes} {text : Option Bytes} :
      Header t (.didSave uri text) params td →
      (∀ s ∈ text, StringField params "text" s) → (text = none → field params "text" = none) →
      Tells t (.didSave uri text)
  | didClose {params td : Tree} {uri : Bytes} : Header t (.didClose uri) params td →
      Tells t (.didClose uri)

/-- A well-formed message. -/
structure Message where
  text : Bytes
  tree : Tree
  notice : Notice
  json : JsonText tree text
  tells : Tells tree notice

/-- The texts of the open documents after messages. -/
def opened (ms : List Message) : Bytes → Option Bytes :=
  ms.foldl (fun isOpen m => m.notice.apply isOpen) fun _ => none

/-- No more than 64 documents are open. -/
def Few (isOpen : Bytes → Option Bytes) : Prop :=
  ∃ uris : List Bytes, uris.length ≤ 64 ∧ ∀ uri, (isOpen uri).isSome → uri ∈ uris

/-! ## Messages the server reads right -/

/-- A plain string that is the first of its name. -/
def ClearText (key : String) (t : Tree) (s : Bytes) : Prop :=
  ∃ ps a, Clear key t (.string ps) s a ∧ PlainText ps

/-- The members of a notification are the first of their names, from where they are looked
for.  The value of `params` starts `p`, that of `textDocument` starts `d`. -/
structure Addressed (s : Bytes) (t : Tree) (notice : Notice) (params td : Tree) (p d : Bytes) :
    Prop where
  size : s.length ≤ maxMsgSize
  uriFits : notice.uri.length ≤ 1023
  method : ClearText "method" t s
  /-- No integer follows the first `"id"`. -/
  noId : ∀ a, afterKey s "id" = some a → startsInt a = false
  paramsAt : Clear "params" t params s p
  documentAt : Clear "textDocument" params td p d
  uri : ClearText "uri" td d

inductive Plain (s : Bytes) (t : Tree) : Notice → Prop
  | didOpen {params td : Tree} {p d uri text : Bytes} :
      Addressed s t (.didOpen uri text) params td p d → ClearText "text" td d →
      Plain s t (.didOpen uri text)
  /-- There is one change. -/
  | didChange {params td change : Tree} {p d w c uri text : Bytes} :
      Addressed s t (.didChange uri text) params td p d → Space w →
      Clear "contentChanges" params (.array [change]) p (0x5B :: (w ++ 0x7B :: c)) →
      ClearText "text" change (0x7B :: c) → Plain s t (.didChange uri text)
  | didSave {params td : Tree} {p d uri text : Bytes} :
      Addressed s t (.didSave uri (some text)) params td p d → ClearText "text" params p →
      Plain s t (.didSave uri (some text))
  /-- No string follows the first `"text"`. -/
  | didSaveOnly {params td : Tree} {p d uri : Bytes} :
      Addressed s t (.didSave uri none) params td p d →
      (∀ a, afterKey p "text" = some a → a.head? ≠ some 0x22) → Plain s t (.didSave uri none)
  | didClose {params td : Tree} {p d uri : Bytes} :
      Addressed s t (.didClose uri) params td p d → Plain s t (.didClose uri)

/-! ## The members are read -/

theorem strstr_suffix {needle s place : Bytes} (h : strstr needle s = some place) :
    place <:+ s := by
  induction s with
  | nil => cases h
  | cons c s ih =>
      rw [strstr] at h
      split at h
      · obtain rfl := Option.some.inj h
        exact List.suffix_refl _
      · exact (ih h).trans (List.suffix_cons c s)

theorem Clear.length_lt {key : String} {t v : Tree} {s after : Bytes}
    (h : Clear key t v s after) : after.length < s.length := by
  obtain ⟨-, -, -, hmember, hfirst⟩ := h
  obtain ⟨w₂, w₃, u, tail, -, -, -, -, rfl⟩ := hmember.text
  have hle := (strstr_suffix hfirst).length_le
  simp only [List.length_append, List.length_cons] at hle
  omega

/-- A plain string is not longer than its text. -/
theorem decode_length_le {ps : List Piece} {u : Bytes} (h : Chars ps u) (hplain : PlainText ps) :
    (decode ps).length ≤ u.length := by
  induction h with
  | nil => exact Nat.le_refl _
  | @cons p ps u v hp _ ih =>
      have hp' := hplain p List.mem_cons_self
      have hle := ih fun q hq => hplain q (List.mem_cons_of_mem _ hq)
      have hsplit : decode (p :: ps) = p.decode ++ decode ps := List.flatMap_cons
      rw [hsplit, List.length_append, List.length_append]
      cases hp with
      | raw => exact Nat.add_le_add_left hle 1
      | short =>
          simp only [Piece.decode, List.length_cons, List.length_nil]
          omega
      | code => cases hp'
      | pair => cases hp'

/-- A string that is clear is read, when the text it is in fits. -/
theorem ClearText.getString {key : String} {t : Tree} {s str : Bytes} (h : ClearText key t s)
    (hfield : StringField t key str) {bufsz : Nat}
    (hfits : s.length ≤ bufsz ∨ str.length < bufsz) :
    lspJsonGetString s key bufsz = some str := by
  obtain ⟨ps, a, hclear, hplain⟩ := h
  obtain ⟨ps', hps', rfl⟩ := hfield
  rw [hclear.field] at hps'
  obtain rfl : ps = ps' := by
    cases hps'
    rfl
  refine hclear.getString hplain ?_
  rcases hfits with hfits | hfits
  · obtain ⟨u, tail, hu, rfl⟩ := hclear.value
    have hlt := hclear.length_lt
    cases hu with
    | string hchars =>
        have hle := decode_length_le hchars hplain
        simp only [List.length_append, List.length_cons] at hlt
        omega
  · exact hfits

section
variable {s : Bytes} {t params td params' td' : Tree} {notice : Notice} {p d : Bytes}

/-- The members are those of the message. -/
theorem Addressed.members (h : Addressed s t notice params td p d)
    (hheader : Header t notice params' td') : params' = params ∧ td' = td := by
  have hparams := hheader.paramsField
  rw [h.paramsAt.field] at hparams
  obtain rfl := Option.some.inj hparams
  have hdocument := hheader.documentField
  rw [h.documentAt.field] at hdocument
  exact ⟨rfl, (Option.some.inj hdocument).symm⟩

theorem Addressed.documentUri (h : Addressed s t notice params td p d)
    (hheader : Header t notice params td) : documentUri p = some (d, notice.uri) := by
  have hobject : jsonFindObject p "textDocument" = some d := by
    obtain ⟨ps, a, hclear, -⟩ := h.uri
    obtain ⟨rfl, -, -, -, -⟩ := hclear
    exact h.documentAt.findObject
  rw [Lsp.documentUri, hobject, Option.bind_some,
    h.uri.getString hheader.uri (.inr (Nat.lt_succ_of_le h.uriFits))]
  rfl

theorem Addressed.readRequest (h : Addressed s t notice params td p d)
    (hheader : Header t notice params td) :
    readRequest s = some ⟨ascii notice.method, -1, some p⟩ := by
  have hshort : (ascii notice.method).length < 256 := by
    cases notice <;> simp only [Notice.method] <;> decide
  have hid : lspJsonGetInt s "id" = -1 := by
    rw [lspJsonGetInt]
    cases hafter : afterKey s "id" with
    | none => rfl
    | some a =>
        dsimp only
        rw [h.noId a hafter]
        rfl
  rw [Lsp.readRequest, h.method.getString hheader.method (.inr hshort), hid, jsonFindParams,
    h.paramsAt.afterKey]
  rfl

end

/-! ## Changes -/

theorem strchr_append {c : UInt8} {u : Bytes} (h : c ∉ u) (s : Bytes) :
    strchr c (u ++ s) = strchr c s := by
  induction u with
  | nil => rfl
  | cons d u ih =>
      rw [List.cons_append, strchr, if_neg, ih fun hu => h (List.mem_cons_of_mem _ hu)]
      rintro rfl
      exact h List.mem_cons_self

theorem strchr_cons (c : UInt8) (s : Bytes) : strchr c (c :: s) = some (c :: s) := by
  rw [strchr, if_pos rfl]

theorem notMem_space {c : UInt8} (hc : isSpace c = false) {w : Bytes} (hw : Space w) : c ∉ w := by
  intro hmem
  rw [hw c hmem] at hc
  cases hc

/-- The change of an array with one change is found. -/
theorem Clear.firstChange {params change : Tree} {p w c : Bytes} (hw : Space w)
    (h : Clear "contentChanges" params (.array [change]) p (0x5B :: (w ++ 0x7B :: c))) :
    firstChange p = some (0x7B :: c) := by
  obtain ⟨-, -, -, hmember, hfirst⟩ := h
  obtain ⟨w₂, w₃, u, tail, hw₂, hw₃, -, -, rfl⟩ := hmember.text
  have hbracket : isSpace 0x5B = false := by decide
  have hbrace : isSpace 0x7B = false := by decide
  rw [Lsp.firstChange, hfirst, Option.bind_some, strchr_append (by decide),
    strchr_append (notMem_space hbracket hw₂), ← List.singleton_append,
    strchr_append (by decide), strchr_append (notMem_space hbracket hw₃), strchr_cons,
    Option.bind_some, ← List.singleton_append, strchr_append (by decide),
    strchr_append (notMem_space hbrace hw), strchr_cons]

/-! ## What a message does -/

/-- Opening one more document needs a place in the table. -/
theorem Holds.room {docs : List LspDocument} {isOpen : Bytes → Option Bytes}
    (h : Holds docs isOpen) {uri text : Bytes}
    (hfew : Few (Function.update isOpen uri (some text))) :
    (isOpen uri).isSome ∨ docs.length < 64 := by
  refine or_iff_not_imp_left.mpr fun hnew => ?_
  obtain ⟨uris, hlength, huris⟩ := hfew
  have hnotMem : uri ∉ docs.map LspDocument.uri := mt h.mem_uris.mp hnew
  have hsub : uri :: docs.map LspDocument.uri ⊆ uris := by
    intro u hu
    refine huris u ?_
    by_cases heq : u = uri
    · rw [heq, Function.update_self]
      rfl
    · rw [Function.update_of_ne heq]
      exact h.mem_uris.mp ((List.mem_cons.mp hu).resolve_left heq)
  have hle := (List.nodup_cons.mpr ⟨hnotMem, h.nodup⟩).length_le_of_subset hsub
  rw [List.length_cons, List.length_map] at hle
  omega

/-- A text is stored for a document that is open, and otherwise nothing changes. -/
theorem Holds.store {docs : List LspDocument} {isOpen : Bytes → Option Bytes}
    (h : Holds docs isOpen) (uri text : Bytes) :
    Holds (if (lspFindDoc docs uri).isNone then docs else Lsp.setContent docs uri text)
      (if (isOpen uri).isSome then Function.update isOpen uri (some text) else isOpen) := by
  have hfind : (lspFindDoc docs uri).isSome ↔ (isOpen uri).isSome := h.find_isSome
  cases hdoc : lspFindDoc docs uri with
  | none =>
      rw [hdoc] at hfind
      rw [Option.isNone_none, if_pos rfl, if_neg fun hopen => Bool.false_ne_true (hfind.mpr hopen)]
      exact h
  | some d =>
      rw [hdoc] at hfind
      have hopen : (isOpen uri).isSome := hfind.mp rfl
      rw [Option.isNone_some, if_neg Bool.false_ne_true, if_pos hopen]
      exact h.setContent hopen text

/-- The handler of a notification. -/
def Notice.handler : Notice → List LspDocument → Bytes → List LspDocument
  | .didOpen _ _ => lspHandleDidOpen
  | .didChange _ _ => lspHandleDidChange
  | .didSave _ _ => lspHandleDidSave
  | .didClose _ => lspHandleDidClose

theorem dispatch_notice (notice : Notice) (docs : List LspDocument) (shutdown : Bool)
    (p : Bytes) : dispatch ⟨docs, true, shutdown⟩ ⟨ascii notice.method, -1, some p⟩ =
      ⟨notice.handler docs p, true, shutdown⟩ := by
  have hsave : 'S'.toUInt8 ≠ 'O'.toUInt8 := by decide
  cases notice <;> simp [dispatch, ascii, Notice.method, Notice.handler, hsave]

section
variable {s : Bytes} {t params td : Tree} {notice : Notice} {p d : Bytes}

theorem Addressed.length_le (h : Addressed s t notice params td p d) :
    p.length ≤ maxMsgSize ∧ d.length ≤ maxMsgSize := by
  have hp := h.paramsAt.length_lt
  have hd := h.documentAt.length_lt
  have hs := h.size
  omega

end

/-- The table follows a plain message. -/
theorem Plain.handle {s : Bytes} {t : Tree} {notice : Notice} (h : Plain s t notice)
    (htells : Tells t notice) {docs : List LspDocument} {isOpen : Bytes → Option Bytes}
    (hholds : Holds docs isOpen) (hfew : Few (notice.apply isOpen)) :
    ∃ p u tail params, readRequest s = some ⟨ascii notice.method, -1, some p⟩ ∧
      field t "params" = some params ∧ ValueText params u ∧ p = u ++ tail ∧
      Holds (notice.handler docs p) (notice.apply isOpen) := by
  cases h with
  | @didOpen params td p d uri text haddr htext =>
      cases htells with
      | didOpen hheader hfield =>
          obtain ⟨rfl, rfl⟩ := haddr.members hheader
          obtain ⟨u, tail, hu, hp⟩ := haddr.paramsAt.value
          refine ⟨p, u, tail, _, haddr.readRequest hheader, hheader.paramsField, hu, hp, ?_⟩
          obtain ⟨docs', hopen, hholds'⟩ := hholds.open haddr.uriFits (hholds.room hfew) text
          show Holds (lspHandleDidOpen docs p) _
          rw [lspHandleDidOpen, haddr.documentUri hheader]
          dsimp only
          rw [htext.getString hfield (.inl haddr.length_le.2)]
          dsimp only [Notice.uri] at hopen ⊢
          rw [hopen]
          exact hholds'
  | @didChange params td change p d w c uri text haddr hw hclear htext =>
      cases htells with
      | @didChange _ _ change' earlier _ _ hheader hchanges hfield =>
          obtain ⟨rfl, rfl⟩ := haddr.members hheader
          obtain ⟨u, tail, hu, hp⟩ := haddr.paramsAt.value
          refine ⟨p, u, tail, _, haddr.readRequest hheader, hheader.paramsField, hu, hp, ?_⟩
          rw [hclear.field] at hchanges
          obtain rfl : change = change' := by
            have hlast := congrArg List.getLast? (Tree.array.inj (Option.some.inj hchanges))
            rw [List.getLast?_concat] at hlast
            exact Option.some.inj hlast
          have hlength : (0x7B :: c).length ≤ maxMsgSize := by
            have hlt := hclear.length_lt
            have hle := haddr.length_le.1
            simp only [List.length_cons, List.length_append] at hlt ⊢
            omega
          show Holds (lspHandleDidChange docs p) _
          rw [lspHandleDidChange, haddr.documentUri hheader]
          dsimp only
          rw [hclear.firstChange hw, Option.bind_some, htext.getString hfield (.inl hlength)]
          exact hholds.store uri text
  | @didSave params td p d uri text haddr htext =>
      cases htells with
      | didSave hheader hfield _ =>
          obtain ⟨rfl, rfl⟩ := haddr.members hheader
          obtain ⟨u, tail, hu, hp⟩ := haddr.paramsAt.value
          refine ⟨p, u, tail, _, haddr.readRequest hheader, hheader.paramsField, hu, hp, ?_⟩
          show Holds (lspHandleDidSave docs p) _
          rw [lspHandleDidSave, haddr.documentUri hheader]
          dsimp only
          rw [htext.getString (hfield text rfl) (.inl haddr.length_le.1)]
          exact hholds.store uri text
  | @didSaveOnly params td p d uri haddr hnone =>
      cases htells with
      | didSave hheader _ _ =>
          obtain ⟨rfl, rfl⟩ := haddr.members hheader
          obtain ⟨u, tail, hu, hp⟩ := haddr.paramsAt.value
          refine ⟨p, u, tail, _, haddr.readRequest hheader, hheader.paramsField, hu, hp, ?_⟩
          have hstring : lspJsonGetString p "text" maxMsgSize = none := by
            rw [lspJsonGetString]
            cases hafter : afterKey p "text" with
            | none => rfl
            | some a =>
                rw [Option.bind_some]
                cases a with
                | nil => rfl
                | cons c a => exact if_neg fun hc => hnone _ hafter (congrArg some hc)
          show Holds (lspHandleDidSave docs p) _
          rw [lspHandleDidSave, haddr.documentUri hheader]
          dsimp only
          rw [hstring, ite_self]
          exact hholds
  | @didClose params td p d uri haddr =>
      cases htells with
      | didClose hheader =>
          obtain ⟨rfl, rfl⟩ := haddr.members hheader
          obtain ⟨u, tail, hu, hp⟩ := haddr.paramsAt.value
          refine ⟨p, u, tail, _, haddr.readRequest hheader, hheader.paramsField, hu, hp, ?_⟩
          show Holds (lspHandleDidClose docs p) _
          rw [lspHandleDidClose, haddr.documentUri hheader]
          exact hholds.close uri

/-! ## Runs -/

theorem Plain.size {s : Bytes} {t : Tree} {notice : Notice} (h : Plain s t notice) :
    s.length ≤ maxMsgSize := by
  cases h with
  | didOpen haddr _ => exact haddr.size
  | didChange haddr _ _ _ => exact haddr.size
  | didSave haddr _ => exact haddr.size
  | didSaveOnly haddr _ => exact haddr.size
  | didClose haddr => exact haddr.size

theorem cmdLsp_notice {m : Message} (hplain : Plain m.text m.tree m.notice)
    {docs : List LspDocument} {isOpen : Bytes → Option Bytes} (hholds : Holds docs isOpen)
    (hfew : Few (m.notice.apply isOpen)) (shutdown : Bool) (rest : List Bytes) :
    ∃ docs', cmdLsp ⟨docs, true, shutdown⟩ (m.text :: rest) = cmdLsp ⟨docs', true, shutdown⟩ rest ∧
      Holds docs' (m.notice.apply isOpen) := by
  obtain ⟨p, u, tail, params, hread, -, -, -, hholds'⟩ := hplain.handle m.tells hholds hfew
  refine ⟨_, ?_, hholds'⟩
  have hbody : ¬ (m.text = [] ∨ maxMsgSize < m.text.length) := by
    rintro (hnil | hlong)
    · rw [hnil] at hread
      cases hread
    · exact absurd hplain.size (Nat.not_le.mpr hlong)
  rw [cmdLsp, if_neg hbody, hread]
  dsimp only
  rw [dispatch_notice]
  exact if_pos rfl

/-- The table follows the messages from any state on. -/
theorem cmdLsp_follows (ms : List Message) (hplain : ∀ m ∈ ms, Plain m.text m.tree m.notice)
    {docs : List LspDocument} {isOpen : Bytes → Option Bytes} (hholds : Holds docs isOpen)
    (hfew : ∀ first, first <+: ms →
      Few (first.foldl (fun isOpen m => m.notice.apply isOpen) isOpen)) (shutdown : Bool) :
    Holds (cmdLsp ⟨docs, true, shutdown⟩ (ms.map Message.text)).docs
      (ms.foldl (fun isOpen m => m.notice.apply isOpen) isOpen) := by
  induction ms generalizing docs isOpen with
  | nil => exact hholds
  | cons m ms ih =>
      have hfirst : Few (m.notice.apply isOpen) := hfew [m] (List.prefix_append [m] ms)
      obtain ⟨docs', hrun, hholds'⟩ := cmdLsp_notice (hplain m List.mem_cons_self) hholds hfirst
        shutdown (ms.map Message.text)
      rw [List.map_cons, hrun, List.foldl_cons]
      refine ih (fun m hm => hplain m (List.mem_cons_of_mem _ hm)) hholds' fun first hpre => ?_
      exact hfew (m :: first) (List.cons_prefix_cons.mpr ⟨rfl, hpre⟩)

/-- Between plain messages, the table holds the texts of the open documents, and each message
is dispatched on its method, no `id` and the value of its `params`. -/
theorem documents_follow (ms : List Message) (hplain : ∀ m ∈ ms, Plain m.text m.tree m.notice)
    (hfew : ∀ first, first <+: ms → Few (opened first)) :
    (∀ first, first <+: ms →
      Holds (cmdLsp .start (first.map Message.text)).docs (opened first)) ∧
    ∀ m ∈ ms, ∃ p u tail params, readRequest m.text = some ⟨ascii m.notice.method, -1, some p⟩ ∧
      field m.tree "params" = some params ∧ ValueText params u ∧ p = u ++ tail := by
  have hfollows : ∀ first, first <+: ms →
      Holds (cmdLsp .start (first.map Message.text)).docs (opened first) := by
    intro first hfirst
    refine cmdLsp_follows first (fun m hm => hplain m (hfirst.subset hm)) Holds.start ?_ false
    exact fun first' hfirst' => hfew first' (hfirst'.trans hfirst)
  refine ⟨hfollows, fun m hm => ?_⟩
  obtain ⟨before, after, rfl⟩ := List.append_of_mem hm
  have hbefore : before ++ [m] <+: before ++ m :: after := by
    refine ⟨after, ?_⟩
    rw [List.append_assoc]
    rfl
  have hholds := hfollows before (List.prefix_append before _)
  have hopen := hfew (before ++ [m]) hbefore
  rw [opened, List.foldl_append] at hopen
  obtain ⟨p, u, tail, params, hread, hfield, hu, hp, -⟩ :=
    (hplain m hm).handle m.tells hholds hopen
  exact ⟨p, u, tail, params, hread, hfield, hu, hp⟩

/-! ## A document that is opened -/

def braces (u : Bytes) : Bytes := 0x7B :: u ++ [0x7D]

def member (key : String) (u : Bytes) : Bytes := quoted key ++ 0x3A :: u

/-- A key or a string without escapes. -/
def raw (key : String) : List Piece := (ascii key).map .raw

/-- The document `file:///a`, whose text is written `u`. -/
def documentText (u : Bytes) : Bytes :=
  braces (member "uri" (quoted "file:///a") ++ 0x2C :: member "text" (0x22 :: u ++ [0x22]))

/-- The message that opens it. -/
def openText (u : Bytes) : Bytes :=
  braces (member "method" (quoted "textDocument/didOpen") ++ 0x2C ::
    member "params" (braces (member "textDocument" (documentText u))))

def documentTree (ps : List Piece) : Tree :=
  .object [(raw "uri", .string (raw "file:///a")), (raw "text", .string ps)]

def openTree (ps : List Piece) : Tree :=
  .object [(raw "method", .string (raw "textDocument/didOpen")),
    (raw "params", .object [(raw "textDocument", documentTree ps)])]

theorem chars_raw {u : Bytes} (h : ∀ c ∈ u, 0x20 ≤ c ∧ c ≠ 0x22 ∧ c ≠ 0x5C) :
    Chars (u.map .raw) u := by
  induction u with
  | nil => exact .nil
  | cons c u ih =>
      obtain ⟨hcontrol, hquote, hbackslash⟩ := h c List.mem_cons_self
      exact .cons (.raw hcontrol hquote hbackslash) (ih fun d hd => h d (List.mem_cons_of_mem _ hd))

theorem string_raw (key : String) (h : ∀ c ∈ ascii key, 0x20 ≤ c ∧ c ≠ 0x22 ∧ c ≠ 0x5C) :
    ValueText (.string (raw key)) (quoted key) :=
  .string (chars_raw h)

theorem memberText (key : String) (hkey : ∀ c ∈ ascii key, 0x20 ≤ c ∧ c ≠ 0x22 ∧ c ≠ 0x5C)
    {v : Tree} {u : Bytes} (hu : ValueText v u) : MemberText (raw key, v) (member key u) := by
  have h := MemberText.mk space_nil (chars_raw hkey) space_nil space_nil hu space_nil
  simpa [member, quoted, raw] using h

theorem documentText_value {ps : List Piece} {u : Bytes} (h : Chars ps u) :
    ValueText (documentTree ps) (documentText u) :=
  .object (.more (memberText _ (by decide +kernel) (string_raw _ (by decide +kernel)))
    (.one (memberText _ (by decide +kernel) (.string h))))

theorem openText_json {ps : List Piece} {u : Bytes} (h : Chars ps u) :
    JsonText (openTree ps) (openText u) := by
  have hvalue : ValueText (openTree ps) (openText u) :=
    .object (.more (memberText _ (by decide +kernel) (string_raw _ (by decide +kernel)))
      (.one (memberText _ (by decide +kernel)
        (.object (.one (memberText _ (by decide +kernel) (documentText_value h)))))))
  simpa using JsonText.mk space_nil hvalue space_nil

/-- The message, with the text written in pieces. -/
def openMessage (ps : List Piece) (u : Bytes) (h : Chars ps u) : Message where
  text := openText u
  tree := openTree ps
  notice := .didOpen (ascii "file:///a") (decode ps)
  json := openText_json h
  tells := .didOpen ⟨⟨_, rfl, decode_raw _⟩, rfl, rfl, rfl, ⟨_, rfl, decode_raw _⟩⟩ ⟨ps, rfl, rfl⟩

theorem memberAt_raw (key : String) {v : Tree} {u : Bytes} (hu : ValueText v u)
    (ms : List (List Piece × Tree)) (rest : Bytes) :
    MemberAt key v ((raw key, v) :: ms) (member key u ++ rest) (member key u ++ rest)
      (u ++ rest) := by
  have htext : member key u ++ rest = quoted key ++ ([] ++ 0x3A :: ([] ++ (u ++ rest))) := by
    simp [member]
  rw [htext]
  exact .here space_nil space_nil space_nil hu

/-- The first member of an object is clear. -/
theorem clear_first (key : String) {v : Tree} {u : Bytes} (hu : ValueText v u)
    (ms : List (List Piece × Tree)) (rest : Bytes) :
    Clear key (.object ((raw key, v) :: ms)) v (0x7B :: (member key u ++ rest)) (u ++ rest) := by
  refine .mk rfl space_nil rfl (memberAt_raw key hu ms rest) ?_
  rw [strstr, if_neg (by simp [quoted])]
  have hprefix : (quoted key).isPrefixOf (member key u ++ rest) = true := by
    rw [List.isPrefixOf_iff_prefix, member, List.append_assoc]
    exact List.prefix_append _ _
  cases hplace : member key u ++ rest with
  | nil => cases hplace
  | cons c s =>
      rw [hplace] at hprefix
      rw [strstr, if_pos hprefix]

/-- The second one, when its name does not stand in the first. -/
theorem clear_second (key : String) {m : List Piece × Tree} {w : Bytes} (hm : MemberText m w)
    (hne : decode m.1 ≠ ascii key) {v : Tree} {u : Bytes} (hu : ValueText v u)
    (ms : List (List Piece × Tree)) (rest : Bytes)
    (hfirst : strstr (quoted key) (0x7B :: (w ++ 0x2C :: (member key u ++ rest))) =
      some (member key u ++ rest)) :
    Clear key (.object (m :: (raw key, v) :: ms)) v
      (0x7B :: (w ++ 0x2C :: (member key u ++ rest))) (u ++ rest) :=
  .mk rfl space_nil rfl (.later hm hne (memberAt_raw key hu ms rest)) hfirst

theorem plain_raw (key : String) : PlainText (raw key) := by
  intro p hp
  obtain ⟨c, -, rfl⟩ := List.mem_map.mp hp
  trivial

/-- The message with the text `a`. -/
def opensA : Message := openMessage (raw "a") (ascii "a") (chars_raw (by decide +kernel))

theorem opensA_plain : Plain opensA.text opensA.tree opensA.notice := by
  have htype := string_raw "textDocument/didOpen" (by decide +kernel)
  have hplace := string_raw "file:///a" (by decide +kernel)
  have htext := string_raw "a" (by decide +kernel)
  have hmethod := memberText "method" (by decide +kernel) htype
  have huri := memberText "uri" (by decide +kernel) hplace
  have hdocument : ValueText (documentTree (raw "a")) (documentText (ascii "a")) :=
    documentText_value (chars_raw (by decide +kernel))
  have hparams := ValueText.object
    (.one (memberText "textDocument" (by decide +kernel) hdocument))
  have haddressed : Addressed opensA.text opensA.tree opensA.notice
      (.object [(raw "textDocument", documentTree (raw "a"))]) (documentTree (raw "a"))
      (braces (member "textDocument" (documentText (ascii "a"))) ++ [0x7D])
      (documentText (ascii "a") ++ [0x7D, 0x7D]) := by
    refine ⟨by decide, by decide, ?_, ?_, ?_, ?_, ?_⟩
    · exact ⟨_, _, clear_first "method" htype _ _, plain_raw _⟩
    · intro a ha
      have hnone : afterKey opensA.text "id" = none := by decide
      rw [hnone] at ha
      cases ha
    · exact clear_second "params" hmethod (by decide) hparams [] [0x7D] (by decide)
    · exact clear_first "textDocument" hdocument [] [0x7D, 0x7D]
    · exact ⟨_, _, clear_first "uri" hplace _ _, plain_raw _⟩
  refine .didOpen haddressed ⟨raw "a", [0x22, 0x61, 0x22, 0x7D, 0x7D, 0x7D], ?_, plain_raw "a"⟩
  exact clear_second "text" huri (by decide) htext [] [0x7D, 0x7D, 0x7D] (by decide)

/-- The server has the document and its text. -/
theorem opensA_follows :
    (∀ first, first <+: [opensA] →
      Holds (cmdLsp .start (first.map Message.text)).docs (opened first)) ∧
    ∀ m ∈ [opensA], ∃ p u tail params,
      readRequest m.text = some ⟨ascii m.notice.method, -1, some p⟩ ∧
      field m.tree "params" = some params ∧ ValueText params u ∧ p = u ++ tail := by
  refine documents_follow [opensA] (fun m hm => ?_) fun first hfirst => ?_
  · obtain rfl := List.mem_singleton.mp hm
    exact opensA_plain
  · refine ⟨[ascii "file:///a"], by decide, fun uri huri => ?_⟩
    rcases List.prefix_cons_iff.mp hfirst with rfl | ⟨rest, rfl, hrest⟩
    · cases huri
    · obtain rfl := List.prefix_nil.mp hrest
      by_contra hne
      have hother : uri ≠ ascii "file:///a" := fun heq => hne (heq ▸ List.mem_cons_self)
      have hopened : opened [opensA] =
          Function.update (fun _ => none) (ascii "file:///a") (some (decode (raw "a"))) := rfl
      rw [hopened, Function.update_of_ne hother] at huri
      cases huri

/-- The message with the text `A`, which is written as an escape of its code. -/
def opensCode : Message :=
  openMessage [.code 0x41] (ascii "\\u0041")
    (.cons (.code (.mk (.digit (n := 0) (by decide)) (.digit (n := 0) (by decide))
      (.digit (n := 4) (by decide)) (.digit (n := 1) (by decide))) (by decide)) .nil)

/-- The server has `u0041` for its text. -/
theorem code_kept : ¬ Holds (cmdLsp .start [opensCode.text]).docs (opened [opensCode]) := by
  intro h
  have hmem : (⟨ascii "file:///a", some (ascii "u0041")⟩ : LspDocument) ∈
      (cmdLsp .start [opensCode.text]).docs := by
    decide
  obtain ⟨text, htext, hcontent⟩ := (h.docs _).mp hmem
  have hopened : opened [opensCode] =
      Function.update (fun _ => none) (ascii "file:///a") (some (decode [.code 0x41])) := rfl
  rw [hopened, Function.update_self] at htext
  rw [← Option.some.inj htext] at hcontent
  exact absurd hcontent (by decide)

end Limceron.Lsp
