/-
# `Limceron.Lsp.Documents` — the open documents of the language server

`cmd_lsp` reads messages until `exit` or a message of a length it does not take, and keeps
the open documents in a table of 64.  The place of a document that is closed is taken by
the last one.

`Holds` is what the table should be: a document for each URI that is open, with its text.
Each operation keeps it (`Holds.open`, `Holds.setContent`, `Holds.close`).
-/
import Limceron.Lsp.Fields
import Mathlib.Data.List.Induction
import Mathlib.Data.List.Nodup
import Mathlib.Logic.Function.Basic

namespace Limceron.Lsp

open Json

/-! ## The source -/

/-- `LspDocument`: its URI and its text. -/
structure LspDocument where
  uri : Bytes
  content : Option Bytes
  deriving DecidableEq

def lspFindDoc (docs : List LspDocument) (uri : Bytes) : Option LspDocument :=
  docs.find? fun d => d.uri = uri

/-- The table with a document for the URI, unless it is full. -/
def lspOpenDoc (docs : List LspDocument) (uri : Bytes) : Option (List LspDocument) :=
  if (lspFindDoc docs uri).isSome then some docs
  else if 64 ≤ docs.length then none
  else some (docs ++ [⟨uri.take 1023, none⟩])

/-- The table after the text of the document that is found was stored. -/
def setContent (docs : List LspDocument) (uri text : Bytes) : List LspDocument :=
  match docs with
  | [] => []
  | d :: docs =>
      if d.uri = uri then { d with content := some text } :: docs
      else d :: setContent docs uri text

/-- The last document takes the place of the one at `i`. -/
def swapOut (docs : List LspDocument) (i : Nat) : List LspDocument :=
  match docs.getLast? with
  | none => docs
  | some last => (docs.set i last).dropLast

def lspCloseDoc (docs : List LspDocument) (uri : Bytes) : List LspDocument :=
  match docs.findIdx? fun d => d.uri = uri with
  | none => docs
  | some i => swapOut docs i

/-- The URI of a notification: the text from its `textDocument` on, and the URI there. -/
def documentUri (params : Bytes) : Option (Bytes × Bytes) :=
  (jsonFindObject params "textDocument").bind fun td =>
    (lspJsonGetString td "uri" 1024).map fun uri => (td, uri)

/-- `LSP_MAX_MSG_SIZE`. -/
def maxMsgSize : Nat := 4 * 1024 * 1024

def lspHandleDidOpen (docs : List LspDocument) (params : Bytes) : List LspDocument :=
  match documentUri params with
  | none => docs
  | some (td, uri) =>
      match lspJsonGetString td "text" maxMsgSize with
      | none => docs
      | some text =>
          match lspOpenDoc docs uri with
          | none => docs
          | some docs => setContent docs uri text

/-- The first change: from the first brace behind the first bracket behind the key. -/
def firstChange (params : Bytes) : Option Bytes :=
  ((strstr (quoted "contentChanges") params).bind (strchr 0x5B)).bind (strchr 0x7B)

def lspHandleDidChange (docs : List LspDocument) (params : Bytes) : List LspDocument :=
  match documentUri params with
  | none => docs
  | some (_, uri) =>
      if (lspFindDoc docs uri).isNone then docs
      else
        match (firstChange params).bind fun obj => lspJsonGetString obj "text" maxMsgSize with
        | none => docs
        | some text => setContent docs uri text

def lspHandleDidSave (docs : List LspDocument) (params : Bytes) : List LspDocument :=
  match documentUri params with
  | none => docs
  | some (_, uri) =>
      if (lspFindDoc docs uri).isNone then docs
      else
        match lspJsonGetString params "text" maxMsgSize with
        | none => docs
        | some text => setContent docs uri text

def lspHandleDidClose (docs : List LspDocument) (params : Bytes) : List LspDocument :=
  match documentUri params with
  | none => docs
  | some (_, uri) => lspCloseDoc docs uri

/-- What a message is dispatched on. -/
structure Request where
  method : Bytes
  id : Int
  params : Option Bytes

def readRequest (msg : Bytes) : Option Request :=
  (lspJsonGetString msg "method" 256).map fun method =>
    ⟨method, lspJsonGetInt msg "id", jsonFindParams msg⟩

structure Server where
  docs : List LspDocument
  running : Bool
  shutdownReceived : Bool

/-- What a message does to the documents and the flags; the answers are left out. -/
def dispatch (s : Server) (r : Request) : Server :=
  if r.method = ascii "shutdown" then { s with shutdownReceived := true }
  else if r.method = ascii "exit" then { s with running := false }
  else
    match r.params with
    | none => s
    | some params =>
        if r.method = ascii "textDocument/didOpen" then
          { s with docs := lspHandleDidOpen s.docs params }
        else if r.method = ascii "textDocument/didChange" then
          { s with docs := lspHandleDidChange s.docs params }
        else if r.method = ascii "textDocument/didSave" then
          { s with docs := lspHandleDidSave s.docs params }
        else if r.method = ascii "textDocument/didClose" then
          { s with docs := lspHandleDidClose s.docs params }
        else s

/-- The loop of `cmd_lsp`, over the bodies of the messages: the state it leaves it in, before
the documents are freed. -/
def cmdLsp (s : Server) : List Bytes → Server
  | [] => s
  | msg :: msgs =>
      if msg = [] ∨ maxMsgSize < msg.length then s
      else
        match readRequest msg with
        | none => cmdLsp s msgs
        | some r => if (dispatch s r).running then cmdLsp (dispatch s r) msgs else dispatch s r

/-- The server as it starts. -/
def Server.start : Server := ⟨[], true, false⟩

/-! ## The table -/

/-- A document for each URI that is open, and no other. -/
structure Holds (docs : List LspDocument) (isOpen : Bytes → Option Bytes) : Prop where
  nodup : (docs.map LspDocument.uri).Nodup
  docs : ∀ d, d ∈ docs ↔ ∃ text, isOpen d.uri = some text ∧ d.content = some text

section
variable {docs : List LspDocument} {isOpen : Bytes → Option Bytes} {uri : Bytes}

theorem Holds.start : Holds [] fun _ => none := by
  refine ⟨List.nodup_nil, fun d => ⟨fun hd => ?_, ?_⟩⟩
  · cases hd
  · rintro ⟨text, htext, -⟩
    cases htext

theorem lspFindDoc_isSome :
    (lspFindDoc docs uri).isSome ↔ uri ∈ docs.map LspDocument.uri := by
  rw [lspFindDoc, List.find?_isSome, List.mem_map]
  exact exists_congr fun d => and_congr_right fun _ => decide_eq_true_iff

theorem Holds.mem_uris (h : Holds docs isOpen) :
    uri ∈ docs.map LspDocument.uri ↔ (isOpen uri).isSome := by
  rw [List.mem_map, Option.isSome_iff_exists]
  constructor
  · rintro ⟨d, hd, rfl⟩
    obtain ⟨text, htext, -⟩ := (h.docs d).mp hd
    exact ⟨text, htext⟩
  · rintro ⟨text, htext⟩
    exact ⟨⟨uri, some text⟩, (h.docs _).mpr ⟨text, htext, rfl⟩, rfl⟩

theorem Holds.find_isSome (h : Holds docs isOpen) :
    (lspFindDoc docs uri).isSome ↔ (isOpen uri).isSome :=
  lspFindDoc_isSome.trans h.mem_uris

theorem setContent_uris (docs : List LspDocument) (uri text : Bytes) :
    (setContent docs uri text).map LspDocument.uri = docs.map LspDocument.uri := by
  induction docs with
  | nil => rfl
  | cons d docs ih =>
      rw [setContent]
      split
      · rfl
      · rw [List.map_cons, ih, List.map_cons]

/-- With one document for a URI, only its text is set. -/
theorem mem_setContent (hnodup : (docs.map LspDocument.uri).Nodup) (text : Bytes)
    (d : LspDocument) : d ∈ setContent docs uri text ↔ d ∈ docs ∧ d.uri ≠ uri ∨
      uri ∈ docs.map LspDocument.uri ∧ d = ⟨uri, some text⟩ := by
  induction docs with
  | nil => simp [setContent]
  | cons e docs ih =>
      rw [List.map_cons, List.nodup_cons] at hnodup
      rw [setContent]
      by_cases he : e.uri = uri
      · subst he
        have hother : ∀ d ∈ docs, d.uri ≠ e.uri := fun d hd heq =>
          hnodup.1 (List.mem_map.mpr ⟨d, hd, heq⟩)
        rw [if_pos rfl, List.mem_cons, List.mem_cons, List.map_cons]
        constructor
        · rintro (rfl | hd)
          · exact .inr ⟨List.mem_cons_self, rfl⟩
          · exact .inl ⟨.inr hd, hother d hd⟩
        · rintro (⟨rfl | hd, hne⟩ | ⟨-, rfl⟩)
          · exact absurd rfl hne
          · exact .inr hd
          · exact .inl rfl
      · rw [if_neg he, List.mem_cons, ih hnodup.2, List.mem_cons, List.map_cons, List.mem_cons]
        constructor
        · rintro (rfl | ⟨hd, hne⟩ | ⟨hmem, rfl⟩)
          · exact .inl ⟨.inl rfl, he⟩
          · exact .inl ⟨.inr hd, hne⟩
          · exact .inr ⟨.inr hmem, rfl⟩
        · rintro (⟨rfl | hd, hne⟩ | ⟨hmem, rfl⟩)
          · exact .inl rfl
          · exact .inr (.inl ⟨hd, hne⟩)
          · rcases hmem with hmem | hmem
            · exact absurd hmem.symm he
            · exact .inr (.inr ⟨hmem, rfl⟩)

/-- A text is stored for a URI that has a document, with or without one. -/
theorem holds_setContent {docs : List LspDocument} {uri : Bytes} {isOpen : Bytes → Option Bytes}
    (hnodup : (docs.map LspDocument.uri).Nodup) (hmem : uri ∈ docs.map LspDocument.uri)
    (hother : ∀ d, d.uri ≠ uri →
      (d ∈ docs ↔ ∃ text, isOpen d.uri = some text ∧ d.content = some text)) (text : Bytes) :
    Holds (setContent docs uri text) (Function.update isOpen uri (some text)) := by
  refine ⟨by rwa [setContent_uris], fun d => ?_⟩
  rw [mem_setContent hnodup]
  by_cases hd : d.uri = uri
  · subst hd
    rw [Function.update_self]
    constructor
    · rintro (⟨-, hne⟩ | ⟨-, heq⟩)
      · exact absurd rfl hne
      · exact ⟨text, rfl, by rw [heq]⟩
    · rintro ⟨text', htext', hcontent⟩
      obtain rfl := Option.some.inj htext'
      refine .inr ⟨hmem, ?_⟩
      rw [← hcontent]
  · rw [Function.update_of_ne hd, ← hother d hd]
    constructor
    · rintro (⟨hmem', -⟩ | ⟨-, rfl⟩)
      · exact hmem'
      · exact absurd rfl hd
    · exact fun hmem' => .inl ⟨hmem', hd⟩

theorem Holds.setContent (h : Holds docs isOpen) (hopen : (isOpen uri).isSome) (text : Bytes) :
    Holds (setContent docs uri text) (Function.update isOpen uri (some text)) :=
  holds_setContent h.nodup (h.mem_uris.mpr hopen) (fun d _ => h.docs d) text

/-- A URI is opened with a text, if there is room. -/
theorem Holds.open (h : Holds docs isOpen) (huri : uri.length ≤ 1023)
    (hroom : (isOpen uri).isSome ∨ docs.length < 64) (text : Bytes) :
    ∃ docs', lspOpenDoc docs uri = some docs' ∧
      Holds (Lsp.setContent docs' uri text) (Function.update isOpen uri (some text)) := by
  rw [lspOpenDoc]
  by_cases hopen : (isOpen uri).isSome
  · rw [if_pos (h.find_isSome.mpr hopen)]
    exact ⟨docs, rfl, h.setContent hopen text⟩
  · rw [if_neg (mt h.find_isSome.mp hopen), if_neg (Nat.not_le.mpr (hroom.resolve_left hopen)),
      List.take_of_length_le huri]
    have hnew : uri ∉ docs.map LspDocument.uri := mt h.mem_uris.mp hopen
    refine ⟨_, rfl, holds_setContent ?_ ?_ (fun d hd => ?_) text⟩
    · rw [List.map_append, List.nodup_append]
      refine ⟨h.nodup, List.pairwise_singleton _ _, ?_⟩
      rintro u hu u' hu' rfl
      obtain rfl : u = uri := List.mem_singleton.mp hu'
      exact hnew hu
    · rw [List.map_append]
      exact List.mem_append_right _ List.mem_cons_self
    · rw [← h.docs d, List.mem_append, List.mem_singleton]
      refine or_iff_left ?_
      rintro rfl
      exact hd rfl

/-- The others stay, in another order. -/
theorem swapOut_perm (front : List LspDocument) (d : LspDocument) (back : List LspDocument) :
    (swapOut (front ++ d :: back) front.length).Perm (front ++ back) := by
  rw [swapOut]
  cases back using List.reverseRecOn with
  | nil =>
      rw [List.getLast?_concat]
      dsimp only
      rw [List.set_append_right _ _ (Nat.le_refl _), Nat.sub_self, List.set_cons_zero,
        List.dropLast_concat, List.append_nil]
  | append_singleton back last =>
      rw [← List.cons_append, ← List.append_assoc, List.getLast?_concat]
      dsimp only
      rw [List.append_assoc, List.set_append_right _ _ (Nat.le_refl _), Nat.sub_self,
        List.cons_append, List.set_cons_zero, ← List.cons_append, ← List.append_assoc,
        List.dropLast_concat]
      exact List.Perm.append_left front (List.perm_append_singleton last back).symm

theorem Holds.close (h : Holds docs isOpen) (uri : Bytes) :
    Holds (lspCloseDoc docs uri) (Function.update isOpen uri none) := by
  rw [lspCloseDoc]
  cases hidx : docs.findIdx? fun d => d.uri = uri with
  | none =>
      have hclosed : isOpen uri = none := by
        by_contra hne
        obtain ⟨d, hd, huri⟩ := List.mem_map.mp
          (h.mem_uris.mpr (Option.isSome_iff_ne_none.mpr hne))
        have hnone := List.findIdx?_eq_none_iff.mp hidx d hd
        rw [decide_eq_true huri] at hnone
        cases hnone
      dsimp only
      rw [Function.update_eq_self_iff.mpr hclosed.symm]
      exact h
  | some i =>
      obtain ⟨hi, hd, -⟩ := List.findIdx?_eq_some_iff_getElem.mp hidx
      have huri : docs[i].uri = uri := of_decide_eq_true hd
      have hlen : (docs.take i).length = i := List.length_take_of_le (Nat.le_of_lt hi)
      have hsplit : docs = docs.take i ++ docs[i] :: docs.drop (i + 1) := by
        rw [List.cons_getElem_drop_succ, List.take_append_drop]
      have hperm : (swapOut docs i).Perm (docs.take i ++ docs.drop (i + 1)) := by
        have hp := swapOut_perm (docs.take i) docs[i] (docs.drop (i + 1))
        rwa [← hsplit, hlen] at hp
      have hmiddle : docs.Perm (docs[i] :: (docs.take i ++ docs.drop (i + 1))) := by
        conv_lhs => rw [hsplit]
        exact List.perm_middle
      have hnodup := (hmiddle.map LspDocument.uri).nodup_iff.mp h.nodup
      rw [List.map_cons, List.nodup_cons] at hnodup
      refine ⟨(hperm.map _).nodup_iff.mpr hnodup.2, fun d => ?_⟩
      rw [hperm.mem_iff]
      have hmem : d ∈ docs ↔ d = docs[i] ∨ d ∈ docs.take i ++ docs.drop (i + 1) := by
        rw [hmiddle.mem_iff, List.mem_cons]
      by_cases hduri : d.uri = uri
      · subst hduri
        rw [Function.update_self]
        refine iff_of_false (fun hd' => hnodup.1 ?_) (by simp)
        rw [huri]
        exact List.mem_map_of_mem hd'
      · rw [Function.update_of_ne hduri, ← h.docs d, hmem]
        refine (or_iff_right ?_).symm
        rintro rfl
        exact hduri huri

end

end Limceron.Lsp
