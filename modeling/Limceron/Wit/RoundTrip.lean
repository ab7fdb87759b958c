/-
# `Limceron.Wit.RoundTrip` — what is emitted is read back

`lcn_emit_wit` writes a file of the kind `Limceron.Wit.Layout` is about, one
interface for each prefix of an agent and a world for the agent (`fileText_emit`),
so the loader finds the capabilities again.  Each has one entry under its own name
when

| | |
| :-- | :-- |
| names | are `prefix.suffix`, the suffix in lower case, and fit the buffers |
| capabilities | occur once in the program, up to `-` and `_`, and fit the tables |
| hosts | hold no brace |

(`Regular`, `contract_loaded`).
-/
import Mathlib.Data.List.Perm.Basic
import Mathlib.Data.List.Dedup
import Limceron.Wit.Layout

namespace Limceron.Wit

open Json (ascii)

/-! ## Signatures -/

/-- A signature, in its parts. -/
structure Signature where
  verb : Bytes
  params : List WitParam
  ret : Bytes
  deriving DecidableEq

def witSignatures : List (Bytes × Signature) := [
  (ascii "llm.classify", ⟨ascii "classify", [⟨ascii "text", ascii "string"⟩],
    ascii "tuple<string, f64>"⟩),
  (ascii "llm.complete", ⟨ascii "complete", [⟨ascii "prompt", ascii "string"⟩],
    ascii "string"⟩),
  (ascii "llm.chat", ⟨ascii "chat", [⟨ascii "messages", ascii "list<string>"⟩],
    ascii "string"⟩),
  (ascii "data.read", ⟨ascii "read", [⟨ascii "query", ascii "string"⟩], ascii "string"⟩),
  (ascii "data.write", ⟨ascii "write", [⟨ascii "key", ascii "string"⟩,
    ⟨ascii "value", ascii "string"⟩], ascii "result<_, string>"⟩),
  (ascii "kb.search", ⟨ascii "search", [⟨ascii "query", ascii "string"⟩,
    ⟨ascii "top-k", ascii "u32"⟩], ascii "list<string>"⟩),
  (ascii "http.fetch", ⟨ascii "fetch", [⟨ascii "url", ascii "string"⟩],
    ascii "result<list<u8>, string>"⟩),
  (ascii "mcp.call", ⟨ascii "call", [⟨ascii "tool", ascii "string"⟩,
    ⟨ascii "args", ascii "string"⟩], ascii "string"⟩)]

/-- The signature that is emitted for a capability. -/
def emittedSignature (qualified : Bytes) : Signature :=
  ((witSignatures.find? (·.1 = qualified)).map (·.2)).getD
    ⟨toKebab (splitQualified qualified).2, [], ascii "string"⟩

def signatureParams (params : List WitParam) : Bytes :=
  List.intercalate (ascii ", ") (params.map fun p => p.name ++ ascii ": " ++ p.type)

def Signature.text (s : Signature) : Bytes :=
  s.verb ++ ascii ": func(" ++ signatureParams s.params ++ ascii ") -> " ++ s.ret

theorem ascii_append (a b : String) : ascii (a ++ b) = ascii a ++ ascii b := by
  rw [ascii, String.toList_append, List.map_append]
  rfl

/-- The table, in its parts. -/
theorem witCapTable_eq : witCapTable = witSignatures.map fun s => (s.1, s.2.text) := by
  -- strings are compared as such: to take their bytes is slow
  simp only [witSignatures, List.map_cons, List.map_nil, Signature.text, signatureParams,
    List.intercalate, List.intersperse, List.flatten_cons, List.flatten_nil, List.append_nil,
    ← ascii_append]
  rfl

theorem witLookupCapSig_eq (qualified : Bytes) :
    witLookupCapSig qualified =
      ((witSignatures.find? (·.1 = qualified)).map (·.2)).map Signature.text := by
  rw [witLookupCapSig, witCapTable_eq, List.find?_map, Option.map_map, Option.map_map]
  rfl

/-! ## Names -/

theorem isIdent_kebabChars (b : Bool) (s : Bytes) : ∀ c ∈ kebabChars b s, isIdent c = true := by
  have hdash : isIdent dash = true := by decide
  induction s generalizing b with
  | nil => simp [kebabChars]
  | cons c s ih =>
      intro d hd
      rw [kebabChars] at hd
      split at hd
      · rename_i hupper
        have hlower : isIdent (c + 0x20) = true := by
          simp only [isIdent, Bool.or_eq_true, Bool.and_eq_true, decide_eq_true_eq,
            UInt8.le_iff_toNat_le, UInt8.toNat_add] at hupper ⊢
          simp at hupper ⊢
          omega
        have hd : d = dash ∨ d = c + 0x20 ∨ d ∈ kebabChars false s := by
          cases b with
          | false => exact .inr (by simpa using hd)
          | true => simpa using hd
        rcases hd with rfl | rfl | hd
        · exact hdash
        · exact hlower
        · exact ih false d hd
      · split at hd
        · rcases List.mem_cons.mp hd with rfl | hd
          · exact hdash
          · exact ih false d hd
        · split at hd
          · rename_i hlower
            rcases List.mem_cons.mp hd with rfl | hd
            · simp only [isIdent, Bool.or_eq_true, Bool.and_eq_true, decide_eq_true_eq]
              tauto
            · exact ih true d hd
          · split at hd
            · rcases List.mem_cons.mp hd with rfl | hd
              · exact hdash
              · exact ih false d hd
            · exact ih b d hd

/-- A kebab name is an identifier that fits a line. -/
theorem toKebab_ident (name : Bytes) : Ident (toKebab name) ∧ (toKebab name).length ≤ 127 := by
  rw [toKebab]
  split
  · exact ⟨⟨by decide, by decide⟩, by decide⟩
  · rename_i hne
    have hsub := List.rdropWhile_prefix (fun c => decide (c = dash))
      (l := (kebabChars false name).take 127)
    refine ⟨⟨hne, fun c hc => ?_⟩, ?_⟩
    · exact isIdent_kebabChars false name c (List.mem_of_mem_take (hsub.subset hc))
    · have hlength := hsub.length_le
      rw [List.length_take] at hlength
      exact hlength.trans (Nat.min_le_left _ _)

/-- Letters in lower case, digits, and `-` or `_` but not at the end. -/
def Suffix (s : Bytes) : Prop :=
  s ≠ [] ∧ (∀ c ∈ s, (0x61 ≤ c ∧ c ≤ 0x7A) ∨ (0x30 ≤ c ∧ c ≤ 0x39) ∨ c = dash ∨ c = 0x5F) ∧
    s.getLast? ≠ some dash ∧ s.getLast? ≠ some 0x5F

/-- A name with a prefix, both parts of which the formats leave as they are. -/
structure RegularName (q : Bytes) : Prop where
  split : ∃ pre suf, q = pre ++ dot :: suf ∧ Ident pre ∧ Suffix suf
  length : q.length ≤ 63

/-- `_` for `-`. -/
def canonical (s : Bytes) : Bytes := s.map fun c => if c = dash then 0x5F else c

theorem qualifiedEqCanonical_iff {a b : Bytes} :
    qualifiedEqCanonical a b = true ↔ canonical a = canonical b := by
  induction a generalizing b with
  | nil => cases b <;> simp [qualifiedEqCanonical, canonical]
  | cons c a ih =>
      cases b with
      | nil => simp [qualifiedEqCanonical, canonical]
      | cons d b =>
          rw [qualifiedEqCanonical, Bool.and_eq_true, ih, beq_iff_eq]
          simp [canonical]

theorem kebabChars_suffix {s : Bytes}
    (h : ∀ c ∈ s, (0x61 ≤ c ∧ c ≤ 0x7A) ∨ (0x30 ≤ c ∧ c ≤ 0x39) ∨ c = dash ∨ c = 0x5F)
    (b : Bool) : kebabChars b s = s.map fun c => if c = 0x5F then dash else c := by
  induction s generalizing b with
  | nil => rfl
  | cons c s ih =>
      have hs := fun b => ih (fun d hd => h d (by simp [hd])) b
      have hc := h c (by simp)
      have hupper : ¬ (0x41 ≤ c ∧ c ≤ 0x5A) := by
        rintro ⟨h₁, h₂⟩
        simp only [dash, UInt8.le_iff_toNat_le, ← UInt8.toNat_inj] at hc h₁ h₂
        simp at hc h₁ h₂
        omega
      rw [kebabChars, if_neg hupper, List.map_cons]
      by_cases hline : c = 0x5F
      · rw [if_pos (.inl hline), if_pos hline, hs]
      · rw [if_neg hline]
        have hnot : ¬ (c = 0x5F ∨ c = 0x20 ∨ c = dot) := by
          rintro (rfl | rfl | rfl)
          · exact hline rfl
          · exact absurd hc (by decide)
          · exact absurd hc (by decide)
        rw [if_neg hnot]
        by_cases hlower : (0x61 ≤ c ∧ c ≤ 0x7A) ∨ (0x30 ≤ c ∧ c ≤ 0x39)
        · rw [if_pos hlower, hs]
        · have hdash : c = dash := by tauto
          rw [if_neg hlower, if_pos hdash, hs, hdash]

theorem toKebab_suffix {s : Bytes} (h : Suffix s) (hlength : s.length ≤ 127) :
    toKebab s = s.map fun c => if c = 0x5F then dash else c := by
  obtain ⟨hne, hall, hdash, hline⟩ := h
  rw [toKebab, kebabChars_suffix hall, List.take_of_length_le (by rwa [List.length_map]),
    List.rdropWhile_eq_self_iff.mpr]
  · rw [if_neg (by simpa using hne)]
  · intro hmap hlast
    rw [List.getLast_map, decide_eq_true_iff] at hlast
    rw [List.getLast?_eq_some_getLast hne] at hdash hline
    split at hlast
    · rename_i hlast'
      exact hline (congrArg some hlast')
    · exact hdash (congrArg some hlast)

theorem canonical_toKebab {s : Bytes} (h : Suffix s) (hlength : s.length ≤ 127) :
    canonical (toKebab s) = canonical s := by
  rw [toKebab_suffix h hlength, canonical, canonical, List.map_map]
  refine List.map_congr_left fun c _ => ?_
  rw [Function.comp_apply]
  split
  · rename_i hc
    rw [hc, if_pos rfl, if_neg (by decide)]
  · rfl

theorem splitQualified_append {pre suf : Bytes} (h : Ident pre) (hlength : pre.length ≤ 63) :
    splitQualified (pre ++ dot :: suf) = (pre, suf) := by
  have hall : ∀ c ∈ pre, decide (c ≠ dot) = true := by
    intro c hc
    have hident := h.2 c hc
    refine decide_eq_true ?_
    rintro rfl
    cases hident
  rw [splitQualified, List.takeWhile_append_of_pos hall, List.dropWhile_append_of_pos hall,
    List.takeWhile_cons_of_neg (by simp), List.dropWhile_cons_of_neg (by simp), List.append_nil,
    List.take_of_length_le hlength]
  rfl

/-- The name of the entry of a capability. -/
def entryName (q : Bytes) : Bytes := (splitQualified q).1 ++ dot :: (emittedSignature q).verb

theorem witSignatures_name :
    ∀ s ∈ witSignatures, (splitQualified s.1).1 ++ dot :: s.2.verb = s.1 := by
  decide

theorem entryName_regular {q : Bytes} (h : RegularName q) :
    canonical (entryName q) = canonical q ∧ (entryName q).length = q.length ∧
      Ident (splitQualified q).1 := by
  obtain ⟨⟨pre, suf, rfl, hpre, hsuf⟩, hlength⟩ := h
  rw [List.length_append, List.length_cons] at hlength
  have hsplit : splitQualified (pre ++ dot :: suf) = (pre, suf) :=
    splitQualified_append hpre (by omega)
  rw [entryName, emittedSignature]
  cases hfind : witSignatures.find? (·.1 = pre ++ dot :: suf) with
  | some s =>
      have heq : s.1 = pre ++ dot :: suf := by simpa using List.find?_some hfind
      have hname := witSignatures_name s (List.mem_of_find?_eq_some hfind)
      rw [heq] at hname
      rw [Option.map_some, Option.getD_some, hname]
      exact ⟨rfl, rfl, by rw [hsplit]; exact hpre⟩
  | none =>
      rw [Option.map_none, Option.getD_none, hsplit]
      refine ⟨?_, ?_, hpre⟩
      · have hkebab := canonical_toKebab hsuf (by omega)
        simp only [canonical, List.map_append, List.map_cons] at hkebab ⊢
        rw [hkebab]
      · rw [toKebab_suffix hsuf (by omega)]
        simp

/-! ## Functions as they are emitted -/

def space : GapPiece := .space 0x20

def lineBreak : GapPiece := .space newline

def noteText : Bytes :=
  ascii " unknown capability " ++ [0xE2, 0x80, 0x94] ++ ascii " placeholder signature"

/-- What stands behind the `;` of a capability. -/
def lineGap (q : Bytes) : Gap :=
  if (witLookupCapSig q).isSome then [lineBreak] else [space, space, .comment noteText]

def sigParam (before : Gap) (p : WitParam) : ParamText := ⟨before, p.name, [], [space], p.type, []⟩

def sigParams : List WitParam → List ParamText
  | [] => []
  | p :: ps => sigParam [] p :: ps.map (sigParam [space])

def sigFunc (before : Gap) (s : Signature) : FuncText :=
  ⟨before, s.verb, [], [space], [], sigParams s.params, [], some ⟨[space], [space], s.ret⟩, []⟩

theorem paramsText_sigParams (ps : List WitParam) :
    paramsText [] (sigParams ps) = signatureParams ps := by
  have hparam (before : Gap) (p : WitParam) :
      (sigParam before p).text = gapText before ++ (p.name ++ ascii ": " ++ p.type) := by
    simp only [sigParam, ParamText.text, gapText, List.flatMap_nil, List.flatMap_cons,
      List.append_nil, List.nil_append, List.append_assoc]
    rfl
  -- behind the first parameter each one has its space in front
  have hrest (ps : List WitParam) (p : WitParam) (before : Gap) :
      paramsText [] (sigParam before p :: ps.map (sigParam [space])) =
        gapText before ++ signatureParams (p :: ps) := by
    induction ps generalizing p before with
    | nil => simp [paramsText, hparam, signatureParams, List.intercalate]
    | cons q ps ih =>
        rw [List.map_cons, paramsText, ih, hparam, signatureParams, signatureParams]
        simp only [List.map_cons, List.intercalate, List.intersperse, List.flatten_cons,
          List.append_assoc]
        rfl
  cases ps with
  | nil => rfl
  | cons p ps => exact hrest ps p []

theorem sigFunc_text (before : Gap) (s : Signature) :
    (sigFunc before s).text = gapText before ++ (s.text ++ [semicolon]) := by
  simp only [sigFunc, FuncText.text, paramsText_sigParams, Signature.text, retText, gapText,
    List.flatMap_nil, List.flatMap_cons, List.nil_append, List.append_nil, List.append_assoc]
  rfl

theorem sigFunc_value (before : Gap) (ns : Bytes) (s : Signature) :
    (sigFunc before s).value ns = ⟨ns ++ dot :: s.verb, s.params, s.ret⟩ := by
  have hparams : (sigParams s.params).map ParamText.value = s.params := by
    cases s.params with
    | nil => rfl
    | cons p ps =>
        rw [sigParams, List.map_cons, List.map_map]
        exact congrArg (p :: ·) (List.map_id'' (fun _ => rfl) ps)
  rw [FuncText.value, sigFunc, hparams]

/-- The types of the table. -/
def witTypes : List Bytes :=
  [ascii "string", ascii "u32", ascii "tuple<string, f64>", ascii "list<string>",
    ascii "result<_, string>", ascii "result<list<u8>, string>"]

theorem typeText_witTypes : ∀ t ∈ witTypes, TypeText t ∧ t.length ≤ 31 := by
  intro t ht
  refine ⟨?_, (by decide : ∀ t ∈ witTypes, t.length ≤ 31) t ht⟩
  simp only [witTypes, List.mem_cons, List.not_mem_nil, or_false] at ht
  rcases ht with rfl | rfl | rfl | rfl | rfl | rfl
  · exact .name ⟨by decide, by decide⟩ (by decide)
  · exact .name ⟨by decide, by decide⟩ (by decide)
  · exact @TypeText.generic (ascii "tuple") (ascii "string, f64>") ⟨by decide, by decide⟩
      (by decide) (by decide)
  · exact @TypeText.generic (ascii "list") (ascii "string>") ⟨by decide, by decide⟩
      (by decide) (by decide)
  · exact @TypeText.generic (ascii "result") (ascii "_, string>") ⟨by decide, by decide⟩
      (by decide) (by decide)
  · exact @TypeText.generic (ascii "result") (ascii "list<u8>, string>")
      ⟨by decide, by decide⟩ (by decide) (by decide)

/-- A signature whose parts are words. -/
structure Signature.Ok (s : Signature) : Prop where
  verb : Ident s.verb
  params : ∀ p ∈ s.params, Ident p.name ∧ p.name.length ≤ 63 ∧ p.type ∈ witTypes
  count : s.params.length ≤ 8
  ret : s.ret ∈ witTypes

instance (s : Bytes) : Decidable (Ident s) :=
  inferInstanceAs (Decidable (s ≠ [] ∧ ∀ c ∈ s, isIdent c = true))

theorem emittedSignature_ok (q : Bytes) : (emittedSignature q).Ok := by
  have htable : ∀ s ∈ witSignatures, Ident s.2.verb ∧
      (∀ p ∈ s.2.params, Ident p.name ∧ p.name.length ≤ 63 ∧ p.type ∈ witTypes) ∧
      s.2.params.length ≤ 8 ∧ s.2.ret ∈ witTypes := by decide
  rw [emittedSignature]
  cases hfind : witSignatures.find? (·.1 = q) with
  | some s =>
      obtain ⟨hverb, hparams, hcount, hret⟩ := htable s (List.mem_of_find?_eq_some hfind)
      exact ⟨hverb, hparams, hcount, hret⟩
  | none => exact ⟨(toKebab_ident _).1, by simp, by simp, by simp [witTypes]⟩

theorem gapOk_space : GapOk [space] := by
  intro p hp
  obtain rfl : p = space := by simpa using hp
  rfl

theorem sigParams_mem {ps : List WitParam} {t : ParamText} (h : t ∈ sigParams ps) :
    ∃ p ∈ ps, ∃ before, GapOk before ∧ t = sigParam before p := by
  cases ps with
  | nil => simp [sigParams] at h
  | cons p ps =>
      rcases List.mem_cons.mp h with rfl | h
      · exact ⟨p, by simp, [], by simp [GapOk], rfl⟩
      · obtain ⟨q, hq, rfl⟩ := List.mem_map.mp h
        exact ⟨q, by simp [hq], [space], gapOk_space, rfl⟩

theorem sigFunc_ok {before : Gap} (hbefore : GapOk before) {s : Signature} (h : s.Ok) :
    (sigFunc before s).Ok := by
  have hnone : GapOk [] := by simp [GapOk]
  refine ⟨hbefore, h.verb, hnone, gapOk_space, hnone, ?_, hnone, ?_, hnone⟩
  · intro t ht
    obtain ⟨p, hp, gap, hgap, rfl⟩ := sigParams_mem ht
    obtain ⟨hname, -, htype⟩ := h.params p hp
    exact ⟨hgap, hname, hnone, gapOk_space, (typeText_witTypes _ htype).1, hnone⟩
  · intro r hr
    obtain rfl : ⟨[space], [space], s.ret⟩ = r := by simpa [sigFunc] using hr
    exact ⟨gapOk_space, gapOk_space, (typeText_witTypes _ h.ret).1⟩

theorem sigFunc_fits {before : Gap} {ns : Bytes} {s : Signature} (h : s.Ok)
    (hlength : (ns ++ dot :: s.verb).length ≤ 63) : (sigFunc before s).Fits ns := by
  refine ⟨hlength, ?_, ?_, ?_⟩
  · intro t ht
    obtain ⟨p, hp, gap, -, rfl⟩ := sigParams_mem ht
    obtain ⟨-, hname, htype⟩ := h.params p hp
    exact ⟨hname, (typeText_witTypes _ htype).2⟩
  · have hcount : (sigParams s.params).length = s.params.length := by
      cases s.params <;> simp [sigParams]
    exact hcount ▸ h.count
  · intro r hr
    obtain rfl : ⟨[space], [space], s.ret⟩ = r := by simpa [sigFunc] using hr
    exact (typeText_witTypes _ h.ret).2

theorem lineGap_ok (q : Bytes) : GapOk (lineGap q) := by
  have hnote : newline ∉ noteText := by decide
  intro p hp
  rw [lineGap] at hp
  split at hp
  · obtain rfl : p = lineBreak := by simpa using hp
    rfl
  · simp only [List.mem_cons, List.not_mem_nil, or_false] at hp
    rcases hp with rfl | rfl | rfl
    · rfl
    · rfl
    · exact hnote

theorem emitCapFunc_eq (q : Bytes) :
    emitCapFunc q =
      ascii "    " ++ ((emittedSignature q).text ++ ([semicolon] ++ gapText (lineGap q))) := by
  have htable : ∀ s ∈ witSignatures, s.2.text.length ≤ 1000 := by decide
  have hnote : gapText [space, space, .comment noteText] = placeholderNote := by decide
  rw [emitCapFunc, lineGap, emittedSignature, witLookupCapSig_eq]
  cases hfind : witSignatures.find? (·.1 = q) with
  | some s =>
      have hlength := htable s (List.mem_of_find?_eq_some hfind)
      simp only [Option.map_some, Option.getD_some, Option.isSome_some, if_true, appendf]
      rw [List.take_of_length_le]
      · rw [List.append_assoc]
        rfl
      · rw [List.length_append, List.length_append, show (ascii "    ").length = 4 from rfl,
          show (ascii ";\n").length = 2 from rfl]
        omega
  | none =>
      have hlength := (toKebab_ident (splitQualified q).2).2
      simp only [Option.map_none, Option.getD_none, Option.isSome_none, Bool.false_eq_true,
        if_false, appendf, hnote]
      rw [List.take_of_length_le]
      · simp only [Signature.text, List.append_assoc]
        rfl
      · have hnoteLength : (ascii ": func() -> string;" ++ placeholderNote).length ≤ 100 := by
          decide
        rw [List.append_assoc, List.length_append, List.length_append,
          show (ascii "    ").length = 4 from rfl]
        omega

/-! ## Files as they are emitted -/

/-- The functions of an interface; `before` stands in front of the next line. -/
def capFuncs (before : Gap) : List Bytes → List FuncText
  | [] => []
  | q :: qs => sigFunc (before ++ List.replicate 4 space) (emittedSignature q) ::
      capFuncs (lineGap q) qs

/-- What stands in front of the brace behind them. -/
def capsEnd (before : Gap) : List Bytes → Gap
  | [] => before
  | q :: qs => capsEnd (lineGap q) qs

@[simp] theorem gapText_append (g g' : Gap) : gapText (g ++ g') = gapText g ++ gapText g' :=
  List.flatMap_append

theorem capFuncs_text (before : Gap) (qs : List Bytes) :
    (capFuncs before qs).flatMap FuncText.text ++ gapText (capsEnd before qs) =
      gapText before ++ qs.flatMap emitCapFunc := by
  induction qs generalizing before with
  | nil => simp [capFuncs, capsEnd]
  | cons q qs ih =>
      have hindent : gapText (List.replicate 4 space) = ascii "    " := rfl
      rw [capFuncs, capsEnd, List.flatMap_cons, List.append_assoc, ih, sigFunc_text,
        List.flatMap_cons, emitCapFunc_eq, gapText_append, hindent]
      simp only [List.append_assoc]

theorem capFuncs_mem {before : Gap} (hbefore : GapOk before) {qs : List Bytes} {f : FuncText}
    (h : f ∈ capFuncs before qs) :
    ∃ q ∈ qs, ∃ gap, GapOk gap ∧ f = sigFunc gap (emittedSignature q) := by
  induction qs generalizing before with
  | nil => simp [capFuncs] at h
  | cons q qs ih =>
      rcases List.mem_cons.mp h with rfl | h
      · refine ⟨q, by simp, _, ?_, rfl⟩
        intro p hp
        rcases List.mem_append.mp hp with hp | hp
        · exact hbefore p hp
        · obtain rfl := List.eq_of_mem_replicate hp
          rfl
      · obtain ⟨q', hq', gap, hgap, rfl⟩ := ih (lineGap_ok q) h
        exact ⟨q', by simp [hq'], gap, hgap, rfl⟩

theorem capsEnd_ok {before : Gap} (hbefore : GapOk before) (qs : List Bytes) :
    GapOk (capsEnd before qs) := by
  induction qs generalizing before with
  | nil => exact hbefore
  | cons q qs ih => exact ih (lineGap_ok q)

theorem capFuncs_value (before : Gap) (ns : Bytes) (qs : List Bytes) :
    (capFuncs before qs).map (FuncText.value ns) =
      qs.map fun q => ⟨ns ++ dot :: (emittedSignature q).verb, (emittedSignature q).params,
        (emittedSignature q).ret⟩ := by
  induction qs generalizing before with
  | nil => rfl
  | cons q qs ih => rw [capFuncs, List.map_cons, List.map_cons, ih, sigFunc_value]

/-- The capabilities of an agent with a prefix. -/
def capsOf (caps : List Bytes) (pre : Bytes) : List Bytes :=
  caps.filter fun q => (splitQualified q).1 = pre

def interfaceBlock (caps : List Bytes) (before : Gap) (pre : Bytes) : BlockText :=
  .interface before [space] pre [space] (capFuncs [lineBreak] (capsOf caps pre))
    (capsEnd [lineBreak] (capsOf caps pre))

theorem interfaceBlock_text (caps : List Bytes) (before : Gap) {pre : Bytes}
    (hlength : pre.length ≤ 63) :
    (interfaceBlock caps before pre).text ++ ascii "\n\n" =
      gapText before ++ emitInterface caps pre := by
  have hline : appendf (ascii "interface " ++ pre ++ ascii " \x7b\n") =
      ascii "interface " ++ pre ++ ascii " \x7b\n" := by
    refine List.take_of_length_le ?_
    rw [List.length_append, List.length_append, show (ascii "interface ").length = 10 from rfl,
      show (ascii " \x7b\n").length = 3 from rfl]
    omega
  have hfuncs := capFuncs_text [lineBreak] (capsOf caps pre)
  rw [interfaceBlock, BlockText.text, emitInterface, hline]
  simp only [List.append_assoc, List.cons_append, List.nil_append]
  rw [← List.append_assoc (List.flatMap _ _), hfuncs]
  simp only [List.append_assoc]
  rfl

/-- The import of a capability with hosts. -/
def importBody (agent : Agent) (q : Bytes) : List BodyText :=
  match findParamCapItem agent q with
  | none => []
  | some hosts =>
      [.code (ascii "    import " ++ q ++ ascii " "),
        .braces [.code (ascii "\n        hosts: " ++ hostsList hosts ++ ascii "\n    ")],
        .code (ascii "\n")]

def worldBody (agent : Agent) : List BodyText :=
  let caps := witCollectCaps agent
  let prefixes := uniquePrefixes caps
  [.code (ascii "\n"),
    .code (prefixes.flatMap fun pre => appendf (ascii "    import " ++ pre ++ ascii ";\n"))] ++
    caps.flatMap (importBody agent) ++
    [.code (if prefixes = [] then [] else ascii "\n"), .code (agent.left.flatMap emitExport)]

def worldBlock (before : Gap) (agent : Agent) : BlockText :=
  .world before [space] (toKebab agent.name) [space] (worldBody agent)

theorem bodyText_append (bs bs' : List BodyText) :
    bodyText (bs ++ bs') = bodyText bs ++ bodyText bs' := by
  induction bs with
  | nil => rfl
  | cons b bs ih => rw [List.cons_append, bodyText, bodyText, ih, List.append_assoc]

theorem importBody_text {agent : Agent} {q : Bytes} (hlength : q.length ≤ 63) :
    bodyText (importBody agent q) = (emitParamCapImport agent q).getD [] := by
  have hline : appendf (ascii "    import " ++ q ++ ascii " \x7b\n") =
      ascii "    import " ++ q ++ ascii " \x7b\n" := by
    refine List.take_of_length_le ?_
    rw [List.length_append, List.length_append, show (ascii "    import ").length = 11 from rfl,
      show (ascii " \x7b\n").length = 3 from rfl]
    omega
  rw [importBody, emitParamCapImport, hline]
  cases findParamCapItem agent q with
  | none => rfl
  | some hosts =>
      simp only [Option.map_some, Option.getD_some, bodyText, BodyText.text,
        List.append_nil, List.append_assoc, List.cons_append, List.nil_append]
      rfl

theorem importBodies_text {agent : Agent} {qs : List Bytes} (h : ∀ q ∈ qs, q.length ≤ 63) :
    bodyText (qs.flatMap (importBody agent)) =
      (qs.filterMap (emitParamCapImport agent)).flatten := by
  induction qs with
  | nil => rfl
  | cons q qs ih =>
      have hq : bodyText (importBody agent q) = _ := importBody_text (h q (by simp))
      rw [List.flatMap_cons, bodyText_append, ih fun q' hq' => h q' (by simp [hq']), hq]
      cases hemit : emitParamCapImport agent q with
      | none => rw [List.filterMap_cons_none hemit]; rfl
      | some t => rw [List.filterMap_cons_some hemit, List.flatten_cons]; rfl

theorem worldBlock_text (before : Gap) {agent : Agent}
    (h : ∀ q ∈ witCollectCaps agent, q.length ≤ 63) :
    (worldBlock before agent).text ++ ascii "\n" = gapText before ++ emitWorld agent := by
  have hline : appendf (ascii "world " ++ toKebab agent.name ++ ascii " \x7b\n") =
      ascii "world " ++ toKebab agent.name ++ ascii " \x7b\n" := by
    have hname := (toKebab_ident agent.name).2
    refine List.take_of_length_le ?_
    rw [List.length_append, List.length_append, show (ascii "world ").length = 6 from rfl,
      show (ascii " \x7b\n").length = 3 from rfl]
    omega
  rw [worldBlock, BlockText.text, worldBody, emitWorld, hline]
  simp only [bodyText_append, importBodies_text h, bodyText, BodyText.text, List.append_nil,
    List.append_assoc, List.cons_append, List.nil_append]
  rfl

/-- In front of each block but the first one there is an empty line. -/
def blockGap : Gap := [lineBreak, lineBreak]

def interfaceBlocks (caps : List Bytes) (before : Gap) : List Bytes → List BlockText
  | [] => []
  | pre :: prefixes => interfaceBlock caps before pre :: interfaceBlocks caps blockGap prefixes

/-- What stands in front of the world. -/
def worldGap (before : Gap) : List Bytes → Gap
  | [] => before
  | _ :: _ => blockGap

def agentBlocks (before : Gap) (agent : Agent) : List BlockText :=
  let caps := witCollectCaps agent
  let prefixes := uniquePrefixes caps
  interfaceBlocks caps before prefixes ++ [worldBlock (worldGap before prefixes) agent]

def programBlocks (before : Gap) : Program → List BlockText
  | [] => []
  | agent :: rest => agentBlocks before agent ++ programBlocks blockGap rest

def headerText : Bytes := ascii " Auto-generated by Limceron " ++ version ++ ascii ". Do not edit."

def packageBlock (first : Agent) : BlockText :=
  .package [.comment headerText] [space] (ascii "limceron:" ++ toKebab first.name) []

/-- The blocks of the file of a program. -/
def fileBlocks : Program → List BlockText
  | [] => []
  | first :: rest => packageBlock first :: programBlocks blockGap (first :: rest)

theorem interfaceBlocks_text (caps : List Bytes) (before : Gap) {prefixes : List Bytes}
    (h : ∀ pre ∈ prefixes, pre.length ≤ 63) :
    (interfaceBlocks caps before prefixes).flatMap BlockText.text ++
        gapText (worldGap before prefixes) =
      gapText before ++ prefixes.flatMap (emitInterface caps) := by
  induction prefixes generalizing before with
  | nil => simp [interfaceBlocks, worldGap]
  | cons pre prefixes ih =>
      have hpre := interfaceBlock_text caps before (h pre (by simp))
      have hrest := ih blockGap fun p hp => h p (by simp [hp])
      have hgap : gapText (worldGap blockGap prefixes) = gapText blockGap := by
        cases prefixes <;> rfl
      rw [hgap] at hrest
      rw [interfaceBlocks, worldGap, List.flatMap_cons, List.append_assoc, hrest, List.flatMap_cons,
        ← List.append_assoc (gapText before), ← hpre]
      simp only [List.append_assoc]
      rfl

theorem mem_uniquePrefixes {caps : List Bytes} {pre : Bytes} (h : pre ∈ uniquePrefixes caps) :
    ∃ q ∈ caps, (splitQualified q).1 = pre := by
  have hall : ∀ (seen : List Bytes),
      pre ∈ caps.foldl (fun seen q =>
        let pre := (splitQualified q).1
        if pre = [] ∨ seen.contains pre ∨ 32 ≤ seen.length then seen else seen ++ [pre]) seen →
      pre ∈ seen ∨ ∃ q ∈ caps, (splitQualified q).1 = pre := by
    clear h
    induction caps with
    | nil => exact fun seen h => .inl h
    | cons q caps ih =>
        intro seen h
        rw [List.foldl_cons] at h
        rcases ih _ h with h | ⟨q', hq', h⟩
        · simp only at h
          split at h
          · exact .inl h
          · rcases List.mem_append.mp h with h | h
            · exact .inl h
            · exact .inr ⟨q, by simp, (List.mem_singleton.mp h).symm⟩
        · exact .inr ⟨q', by simp [hq'], h⟩
  exact (hall [] h).resolve_left (by simp)

theorem length_splitQualified (q : Bytes) : (splitQualified q).1.length ≤ 63 := by
  rw [splitQualified, List.length_take]
  exact Nat.min_le_left _ _

theorem agentBlocks_text (before : Gap) {agent : Agent}
    (h : ∀ q ∈ witCollectCaps agent, q.length ≤ 63) :
    (agentBlocks before agent).flatMap BlockText.text ++ ascii "\n" =
      gapText before ++ emitAgent agent := by
  have hprefixes : ∀ pre ∈ uniquePrefixes (witCollectCaps agent), pre.length ≤ 63 := by
    intro pre hpre
    obtain ⟨q, -, rfl⟩ := mem_uniquePrefixes hpre
    exact length_splitQualified q
  rw [agentBlocks, emitAgent, List.flatMap_append, List.flatMap_cons, List.flatMap_nil,
    List.append_nil, List.append_assoc, worldBlock_text _ h, ← List.append_assoc,
    interfaceBlocks_text _ _ hprefixes, List.append_assoc]

theorem programBlocks_text (before : Gap) {agent : Agent} {rest : Program}
    (h : ∀ A ∈ agent :: rest, ∀ q ∈ witCollectCaps A, q.length ≤ 63) :
    (programBlocks before (agent :: rest)).flatMap BlockText.text ++ ascii "\n" =
      gapText before ++ List.intercalate (ascii "\n") ((agent :: rest).map emitAgent) := by
  induction rest generalizing agent before with
  | nil =>
      have hagent := agentBlocks_text before (h agent (by simp))
      simpa [programBlocks, List.intercalate] using hagent
  | cons B rest ih =>
      have hagent := agentBlocks_text before (h agent (by simp))
      have hrest := @ih blockGap B fun A hA => h A (List.mem_cons_of_mem _ hA)
      rw [programBlocks, List.flatMap_append, List.append_assoc, hrest]
      simp only [List.map_cons, List.intercalate, List.intersperse, List.flatten_cons]
      rw [← List.append_assoc (gapText before), ← hagent]
      simp only [List.append_assoc]
      rfl

/-- What is emitted is a file of the blocks. -/
theorem fileText_emit {P : Program} (hne : P ≠ [])
    (h : ∀ A ∈ P, ∀ q ∈ witCollectCaps A, q.length ≤ 63) :
    lcnEmitWit P = some (fileText (fileBlocks P) [lineBreak]) := by
  cases P with
  | nil => exact absurd rfl hne
  | cons first rest =>
      have hprogram := programBlocks_text blockGap h
      have hname := (toKebab_ident first.name).2
      have hheader : (ascii "// Auto-generated by Limceron " ++ version ++
          ascii ". Do not edit.\npackage limceron:").length ≤ 200 := by decide
      have hfile : fileText (fileBlocks (first :: rest)) [lineBreak] =
          (packageBlock first).text ++ ((programBlocks blockGap (first :: rest)).flatMap
            BlockText.text ++ ascii "\n") := List.append_assoc ..
      rw [lcnEmitWit, hfile, hprogram, appendf, List.take_of_length_le]
      · simp only [packageBlock, BlockText.text, List.append_assoc]
        rfl
      · rw [List.length_append, List.length_append, show (ascii ";\n\n").length = 3 from rfl]
        omega

/-! ## Programs whose files are tidy -/

def CapEntry.hosts : CapEntry → List Bytes
  | .ident _ => []
  | .item _ hosts => hosts

/-- An agent whose capabilities the tables hold and the formats leave as they are. -/
structure RegularAgent (A : Agent) : Prop where
  names : ∀ e ∈ capabilityEntries A, RegularName e.name
  hosts : ∀ e ∈ capabilityEntries A, ∀ h ∈ e.hosts, NoBrace h
  count : (capabilityEntries A).length ≤ 64
  prefixes : ((capabilityEntries A).map fun e => (splitQualified e.name).1).dedup.length ≤ 32

/-- The names of the capabilities of a program. -/
def capabilityNames (P : Program) : List Bytes :=
  P.flatMap fun A => (capabilityEntries A).map CapEntry.name

structure Regular (P : Program) : Prop where
  agents : P ≠ []
  regular : ∀ A ∈ P, RegularAgent A
  once : ((capabilityNames P).map canonical).Nodup
  count : (capabilityNames P).length ≤ 128

theorem witCollectCaps_eq {A : Agent} (h : RegularAgent A) :
    witCollectCaps A = (capabilityEntries A).map CapEntry.name := by
  have hne : ∀ q ∈ (capabilityEntries A).map CapEntry.name, decide (q ≠ []) = true := by
    intro q hq
    obtain ⟨e, he, rfl⟩ := List.mem_map.mp hq
    obtain ⟨⟨pre, suf, heq, -⟩, -⟩ := h.names e he
    simp [heq]
  rw [witCollectCaps, List.filter_eq_self.mpr hne, List.take_of_length_le]
  rw [List.length_map]
  exact h.count

theorem regularName_of_mem {A : Agent} (h : RegularAgent A) {q : Bytes}
    (hq : q ∈ witCollectCaps A) : RegularName q := by
  rw [witCollectCaps_eq h] at hq
  obtain ⟨e, he, rfl⟩ := List.mem_map.mp hq
  exact h.names e he

/-! ## No braces in a world -/

instance (t : Bytes) : Decidable (NoBrace t) :=
  inferInstanceAs (Decidable (∀ c ∈ t, c ≠ openBrace ∧ c ≠ closeBrace))

theorem noBrace_append {s t : Bytes} (hs : NoBrace s) (ht : NoBrace t) : NoBrace (s ++ t) := by
  intro c hc
  rcases List.mem_append.mp hc with hc | hc
  · exact hs c hc
  · exact ht c hc

theorem noBrace_flatMap {α : Type} {f : α → Bytes} {l : List α} (h : ∀ a ∈ l, NoBrace (f a)) :
    NoBrace (l.flatMap f) := by
  intro c hc
  obtain ⟨a, ha, hc⟩ := List.mem_flatMap.mp hc
  exact h a ha c hc

theorem noBrace_intercalate {sep : Bytes} (hsep : NoBrace sep) {l : List Bytes}
    (h : ∀ t ∈ l, NoBrace t) : NoBrace (List.intercalate sep l) := by
  intro c hc
  rcases mem_intercalate hc with hc | ⟨t, ht, hc⟩
  · exact hsep c hc
  · exact h t ht c hc

theorem noBrace_appendf {t : Bytes} (h : NoBrace t) : NoBrace (appendf t) :=
  fun c hc => h c (List.mem_of_mem_take hc)

theorem Ident.noBrace {t : Bytes} (h : Ident t) : NoBrace t :=
  fun c hc => ⟨(h.quiet c hc).2.1, (h.quiet c hc).2.2⟩

theorem RegularName.noBrace {q : Bytes} (h : RegularName q) : NoBrace q := by
  obtain ⟨⟨pre, suf, rfl, hpre, hsuf⟩, -⟩ := h
  have hsuf : NoBrace suf := by
    intro c hc
    have hc := hsuf.2.1 c hc
    constructor
    all_goals
      rintro rfl
      revert hc
      decide
  exact noBrace_append hpre.noBrace (noBrace_append (s := [dot]) (by decide) hsuf)

theorem noBrace_namedToWit (name : Bytes) : NoBrace ((namedToWit name).getD (ascii "string")) := by
  rw [namedToWit]
  repeat' split
  all_goals decide

/-- The second argument of a `Result`, or what stands for it. -/
theorem noBrace_second (rest : List TypeExpr) :
    (∀ t ∈ rest, NoBrace (witTypeStr t)) →
      NoBrace (match rest with
        | [] => ascii "string"
        | err :: _ => witTypeStr err) := by
  intro h
  cases rest with
  | nil =>
      show NoBrace (ascii "string")
      decide
  | cons err rest => exact h err (by simp)

theorem noBrace_wrap {pre t : Bytes} (hpre : NoBrace pre) (ht : NoBrace t) :
    NoBrace (pre ++ t ++ ascii ">") :=
  noBrace_append (noBrace_append hpre ht) (by decide)

mutual

theorem noBrace_witTypeStr : ∀ t : TypeExpr, NoBrace (witTypeStr t)
  | .named name [] => by
      rw [witTypeStr.eq_def]
      exact noBrace_namedToWit name
  | .named name (first :: rest) => by
      have hfirst := noBrace_witTypeStr first
      have hsecond := noBrace_second rest (noBrace_witTypeStrs rest)
      rw [witTypeStr.eq_def]
      simp only
      split
      · exact noBrace_wrap (by decide) hfirst
      · split
        · refine noBrace_wrap (noBrace_append ?_ (by decide)) hsecond
          exact noBrace_append (by decide) hfirst
        · split
          · exact noBrace_wrap (by decide) hfirst
          · exact noBrace_namedToWit name
  | .optional left => by
      rw [witTypeStr.eq_def]
      exact noBrace_wrap (by decide) (noBrace_witTypeStr left)
  | .slice left => by
      rw [witTypeStr.eq_def]
      exact noBrace_wrap (by decide) (noBrace_witTypeStr left)
  | .array left => by
      rw [witTypeStr.eq_def]
      exact noBrace_wrap (by decide) (noBrace_witTypeStr left)
  | .ref left => by
      rw [witTypeStr.eq_def]
      exact noBrace_witTypeStr left
  | .ptr left => by
      rw [witTypeStr.eq_def]
      exact noBrace_witTypeStr left
  | .infer => by
      rw [witTypeStr.eq_def]
      show NoBrace (ascii "string")
      decide
  | .other => by
      rw [witTypeStr.eq_def]
      show NoBrace (ascii "string")
      decide

theorem noBrace_witTypeStrs : ∀ ts : List TypeExpr, ∀ t ∈ ts, NoBrace (witTypeStr t)
  | [], _, h => absurd h (by simp)
  | u :: us, t, h => by
      rcases List.mem_cons.mp h with heq | h
      · exact heq ▸ noBrace_witTypeStr u
      · exact noBrace_witTypeStrs us t h

end

theorem noBrace_emitExport (fn : Fn) : NoBrace (emitExport fn) := by
  have hparam (p : Param) : NoBrace (appendf (toKebab (if p.name = [] then ascii "arg" else p.name)
      ++ ascii ": ") ++ witType p.typeExpr) := by
    refine noBrace_append (noBrace_appendf (noBrace_append (toKebab_ident _).1.noBrace
      (by decide))) ?_
    rw [witType]
    cases p.typeExpr with
    | none => decide
    | some t => exact noBrace_witTypeStr t
  have hhead : NoBrace (appendf (ascii "    export " ++ toKebab fn.name ++ ascii ": func(")) :=
    noBrace_appendf (noBrace_append (noBrace_append (by decide) (toKebab_ident _).1.noBrace)
      (by decide))
  have hparams := @noBrace_intercalate (ascii ", ") (by decide)
    ((fn.params.filter (·.name ≠ selfName)).map fun p =>
      appendf (toKebab (if p.name = [] then ascii "arg" else p.name) ++ ascii ": ") ++
        witType p.typeExpr) fun t ht => by
      obtain ⟨p, -, rfl⟩ := List.mem_map.mp ht
      exact hparam p
  refine noBrace_append (noBrace_append (noBrace_append (noBrace_append hhead hparams) (by decide))
    ?_) (by decide)
  -- the type of the result
  cases fn.typeExpr with
  | none => decide
  | some t => exact noBrace_append (by decide) (noBrace_witTypeStr t)

theorem findParamCapItem_hosts {A : Agent} {q : Bytes} {hosts : List Bytes}
    (h : findParamCapItem A q = some hosts) : .item q hosts ∈ capabilityEntries A := by
  obtain ⟨e, he, heq⟩ := List.exists_of_findSome?_eq_some h
  cases e with
  | ident name => cases heq
  | item name hosts' =>
      by_cases hname : name = q
      · simp only [hname, if_true, Option.some.injEq] at heq
        rw [← hname, ← heq]
        exact he
      · simp [hname] at heq

theorem bodyOk_append {bs bs' : List BodyText} (h : BodyOk bs) (h' : BodyOk bs') :
    BodyOk (bs ++ bs') := by
  induction bs with
  | nil => exact h'
  | cons b bs ih => exact ⟨h.1, ih h.2⟩

theorem bodyOk_flatMap {α : Type} {f : α → List BodyText} {l : List α} (h : ∀ a ∈ l, BodyOk (f a)) :
    BodyOk (l.flatMap f) := by
  induction l with
  | nil => trivial
  | cons a l ih =>
      exact bodyOk_append (h a (by simp)) (ih fun b hb => h b (by simp [hb]))

theorem bodyOk_importBody {A : Agent} (h : RegularAgent A) {q : Bytes}
    (hq : q ∈ witCollectCaps A) : BodyOk (importBody A q) := by
  have hname := (regularName_of_mem h hq).noBrace
  rw [importBody]
  cases hfind : findParamCapItem A q with
  | none => trivial
  | some hosts =>
      have hhosts := h.hosts _ (findParamCapItem_hosts hfind)
      have hlist : NoBrace (hostsList hosts) := by
        refine noBrace_append (noBrace_append (by decide) (noBrace_intercalate (by decide) ?_))
          (by decide)
        intro t ht
        obtain ⟨s, hs, rfl⟩ := List.mem_map.mp ht
        exact noBrace_appendf (noBrace_append (noBrace_append (by decide) (hhosts s hs))
          (by decide))
      refine ⟨noBrace_append (noBrace_append (by decide) hname) (by decide), ⟨?_, trivial⟩, ?_,
        trivial⟩
      · exact noBrace_append (noBrace_append (by decide) hlist) (by decide)
      · show NoBrace _
        decide

theorem bodyOk_worldBody {A : Agent} (h : RegularAgent A) : BodyOk (worldBody A) := by
  have himports : NoBrace ((uniquePrefixes (witCollectCaps A)).flatMap fun pre =>
      appendf (ascii "    import " ++ pre ++ ascii ";\n")) := by
    refine noBrace_flatMap fun pre hpre => ?_
    obtain ⟨q, hq, rfl⟩ := mem_uniquePrefixes hpre
    have hpre := (entryName_regular (regularName_of_mem h hq)).2.2.noBrace
    exact noBrace_appendf (noBrace_append (noBrace_append (by decide) hpre) (by decide))
  have hfirst : NoBrace (ascii "\n") := by decide
  have hgap : NoBrace (if uniquePrefixes (witCollectCaps A) = [] then [] else ascii "\n") := by
    split <;> decide
  have hexports : NoBrace (A.left.flatMap emitExport) :=
    noBrace_flatMap fun fn _ => noBrace_emitExport fn
  refine bodyOk_append (bodyOk_append ⟨hfirst, himports, trivial⟩ ?_) ⟨hgap, hexports, trivial⟩
  exact bodyOk_flatMap fun q hq => bodyOk_importBody h hq

/-! ## The file is well formed and tidy -/

theorem gapOk_breaks : GapOk [lineBreak] ∧ GapOk blockGap := by
  constructor
  all_goals
    intro p hp
    obtain rfl : p = lineBreak := by simpa [blockGap] using hp
    rfl

/-- A block that is read or skipped whatever stands behind it. -/
theorem interfaceBlock_good {A : Agent} (h : RegularAgent A) {before : Gap} (hbefore : GapOk before)
    {pre : Bytes} (hpre : pre ∈ uniquePrefixes (witCollectCaps A)) :
    (interfaceBlock (witCollectCaps A) before pre).Ok ∧
      ∀ rest, (interfaceBlock (witCollectCaps A) before pre).Tidy rest := by
  obtain ⟨q, hq, rfl⟩ := mem_uniquePrefixes hpre
  have hident := (entryName_regular (regularName_of_mem h hq)).2.2
  refine ⟨⟨hbefore, gapOk_space, by simp, hident, gapOk_space, ?_, capsEnd_ok gapOk_breaks.1 _⟩,
    fun rest => ⟨length_splitQualified q, ?_⟩⟩
  · intro f hf
    obtain ⟨q', -, gap, hgap, rfl⟩ := capFuncs_mem gapOk_breaks.1 hf
    exact sigFunc_ok hgap (emittedSignature_ok q')
  · intro f hf
    obtain ⟨q', hq', gap, -, rfl⟩ := capFuncs_mem gapOk_breaks.1 hf
    obtain ⟨hmem, hsame⟩ := List.mem_filter.mp hq'
    have hregular := regularName_of_mem h hmem
    have hlength := (entryName_regular hregular).2.1
    refine sigFunc_fits (emittedSignature_ok q') ?_
    rw [← show (splitQualified q').1 = (splitQualified q).1 by simpa using hsame, ← entryName,
      hlength]
    exact hregular.length

theorem interfaceBlocks_good {A : Agent} (h : RegularAgent A) {before : Gap}
    (hbefore : GapOk before) {prefixes : List Bytes}
    (hsub : ∀ pre ∈ prefixes, pre ∈ uniquePrefixes (witCollectCaps A)) :
    ∀ b ∈ interfaceBlocks (witCollectCaps A) before prefixes, b.Ok ∧ ∀ rest, b.Tidy rest := by
  induction prefixes generalizing before with
  | nil => simp [interfaceBlocks]
  | cons pre prefixes ih =>
      intro b hb
      rcases List.mem_cons.mp hb with rfl | hb
      · exact interfaceBlock_good h hbefore (hsub pre (by simp))
      · exact ih gapOk_breaks.2 (fun p hp => hsub p (by simp [hp])) b hb

theorem worldBlock_ok {A : Agent} (h : RegularAgent A) {before : Gap} (hbefore : GapOk before) :
    (worldBlock before A).Ok :=
  ⟨hbefore, gapOk_space, by simp, (toKebab_ident _).1, gapOk_space, bodyOk_worldBody h⟩

theorem bodyTidy_append {bs bs' : List BodyText} (h : BodyTidy bs) (h' : BodyTidy bs') :
    BodyTidy (bs ++ bs') := by
  induction bs with
  | nil => exact h'
  | cons b bs ih => exact ⟨h.1, ih h.2⟩

/-- The emitter writes no comment and no string with a brace into a world. -/
theorem bodyTidy_worldBody (A : Agent) : BodyTidy (worldBody A) := by
  have himport (q : Bytes) : BodyTidy (importBody A q) := by
    rw [importBody]
    cases findParamCapItem A q with
    | none => trivial
    | some hosts => exact ⟨trivial, ⟨trivial, trivial⟩, trivial, trivial⟩
  have himports (qs : List Bytes) : BodyTidy (qs.flatMap (importBody A)) := by
    induction qs with
    | nil => trivial
    | cons q qs ih => exact bodyTidy_append (himport q) ih
  exact bodyTidy_append (bodyTidy_append ⟨trivial, trivial, trivial⟩ (himports _))
    ⟨trivial, trivial, trivial⟩

theorem worldBlock_tidy {A : Agent} {before : Gap} {rest : Bytes} (h : Loose rest) :
    (worldBlock before A).Tidy rest := by
  have hspace : Quiet (gapText [space]) := by
    intro c hc
    obtain rfl : c = 0x20 := by simpa [gapText, GapPiece.text, space] using hc
    decide
  exact ⟨hspace, hspace, bodyTidy_worldBody A, h⟩

theorem tidy_append {behind : Gap} {bs bs' : List BlockText}
    (h : ∀ b ∈ bs, ∀ rest, b.Tidy rest) (h' : Tidy behind bs') : Tidy behind (bs ++ bs') := by
  induction bs with
  | nil => exact h'
  | cons b bs ih => exact ⟨h b (by simp) _, ih fun b' hb' => h b' (by simp [hb'])⟩

theorem worldGap_ok {before : Gap} (h : GapOk before) (prefixes : List Bytes) :
    GapOk (worldGap before prefixes) := by
  cases prefixes with
  | nil => exact h
  | cons pre prefixes => exact gapOk_breaks.2

theorem programBlocks_ok {P : Program} (h : ∀ A ∈ P, RegularAgent A) {before : Gap}
    (hbefore : GapOk before) : ∀ b ∈ programBlocks before P, b.Ok := by
  induction P generalizing before with
  | nil => simp [programBlocks]
  | cons A P ih =>
      have hA := h A (by simp)
      intro b hb
      rw [programBlocks, agentBlocks, List.mem_append, List.mem_append, List.mem_singleton] at hb
      rcases hb with (hb | rfl) | hb
      · exact (interfaceBlocks_good hA hbefore (fun _ hp => hp) b hb).1
      · exact worldBlock_ok hA (worldGap_ok hbefore _)
      · exact ih (fun B hB => h B (by simp [hB])) gapOk_breaks.2 b hb

theorem loose_break (s : Bytes) : Loose (newline :: s) := by
  intro c hc
  obtain rfl : newline = c := by simpa using hc
  rfl

/-- What stands behind a world begins with a line break. -/
theorem loose_programBlocks {P : Program} (h : ∀ A ∈ P, RegularAgent A) :
    Loose (fileText (programBlocks blockGap P) [lineBreak]) := by
  cases P with
  | nil => exact loose_break []
  | cons A P =>
      have htext := programBlocks_text blockGap fun B hB q hq =>
        (regularName_of_mem (h B hB) hq).length
      rw [fileText, show gapText [lineBreak] = ascii "\n" from rfl, htext]
      exact loose_break _

theorem programBlocks_tidy {P : Program} (h : ∀ A ∈ P, RegularAgent A) {before : Gap}
    (hbefore : GapOk before) : Tidy [lineBreak] (programBlocks before P) := by
  induction P generalizing before with
  | nil => trivial
  | cons A P ih =>
      have hP : ∀ B ∈ P, RegularAgent B := fun B hB => h B (by simp [hB])
      have hblocks := interfaceBlocks_good (h A (by simp)) hbefore (fun _ hp => hp)
      rw [programBlocks, agentBlocks, List.append_assoc]
      refine tidy_append (fun b hb => (hblocks b hb).2) ?_
      exact ⟨worldBlock_tidy (loose_programBlocks hP), ih hP gapOk_breaks.2⟩

theorem fileBlocks_good {P : Program} (h : Regular P) :
    FileOk (fileBlocks P) [lineBreak] ∧ Tidy [lineBreak] (fileBlocks P) := by
  obtain ⟨hne, hregular, -, -⟩ := h
  cases P with
  | nil => exact absurd rfl hne
  | cons first rest =>
      have hheader : GapOk [.comment headerText] := by
        intro p hp
        obtain rfl : p = .comment headerText := by simpa using hp
        show newline ∉ headerText
        decide
      have hname : Quiet (ascii "limceron:" ++ toKebab first.name) := by
        intro c hc
        rcases List.mem_append.mp hc with hc | hc
        · exact (by decide : ∀ c ∈ ascii "limceron:", c ≠ semicolon ∧ c ≠ openBrace ∧
            c ≠ closeBrace) c hc
        · exact (toKebab_ident first.name).1.quiet c hc
      have hspace : Quiet (gapText [space]) := by
        intro c hc
        obtain rfl : c = 0x20 := by simpa [gapText, GapPiece.text, space] using hc
        decide
      refine ⟨⟨?_, gapOk_breaks.1⟩, ⟨hspace, by simp [Quiet, gapText]⟩,
        programBlocks_tidy hregular gapOk_breaks.2⟩
      intro b hb
      rcases List.mem_cons.mp hb with rfl | hb
      · exact ⟨hheader, gapOk_space, by simp, hname, by simp [GapOk]⟩
      · exact programBlocks_ok hregular gapOk_breaks.2 b hb

/-! ## The entries -/

/-- The entry of a capability. -/
def entryOf (q : Bytes) : WitFunc :=
  ⟨entryName q, (emittedSignature q).params, (emittedSignature q).ret⟩

theorem interfaceBlocks_funcs (caps : List Bytes) (before : Gap) (prefixes : List Bytes) :
    (interfaceBlocks caps before prefixes).flatMap BlockText.funcs =
      (prefixes.flatMap (capsOf caps)).map entryOf := by
  induction prefixes generalizing before with
  | nil => rfl
  | cons pre prefixes ih =>
      have hblock : (interfaceBlock caps before pre).funcs = (capsOf caps pre).map entryOf := by
        rw [interfaceBlock, BlockText.funcs, capFuncs_value]
        refine List.map_congr_left fun q hq => ?_
        have hpre : (splitQualified q).1 = pre := by simpa using (List.mem_filter.mp hq).2
        rw [entryOf, entryName, hpre]
      rw [interfaceBlocks, List.flatMap_cons, ih, hblock, List.flatMap_cons, List.map_append]

/-- The functions of a program: one for each capability, by prefixes. -/
theorem fileFuncs_fileBlocks (P : Program) :
    fileFuncs (fileBlocks P) = (P.flatMap fun A =>
      (uniquePrefixes (witCollectCaps A)).flatMap (capsOf (witCollectCaps A))).map entryOf := by
  have hprogram : ∀ (P : Program) (before : Gap),
      (programBlocks before P).flatMap BlockText.funcs = (P.flatMap fun A =>
        (uniquePrefixes (witCollectCaps A)).flatMap (capsOf (witCollectCaps A))).map entryOf := by
    intro P
    induction P with
    | nil => exact fun _ => rfl
    | cons A P ih =>
        intro before
        rw [programBlocks, agentBlocks, List.flatMap_append, List.flatMap_append,
          interfaceBlocks_funcs, ih]
        simp [worldBlock, BlockText.funcs]
  cases P with
  | nil => rfl
  | cons first rest => exact hprogram (first :: rest) blockGap

/-- Collecting what has a key, key by key, leaves nothing out and takes nothing twice. -/
theorem perm_flatMap_filter {α β : Type} [DecidableEq β] (f : α → β) (l : List α) :
    ∀ keys : List β, keys.Nodup →
      (keys.flatMap fun k => l.filter fun a => f a = k).Perm (l.filter fun a => f a ∈ keys)
  | [], _ => by simp
  | k :: keys, h => by
      obtain ⟨hk, hkeys⟩ := List.nodup_cons.mp h
      have hrest := perm_flatMap_filter f l keys hkeys
      have hsplit := List.filter_append_perm (fun a => decide (f a = k))
        (l.filter fun a => f a ∈ k :: keys)
      have hfirst : (l.filter fun a => f a ∈ k :: keys).filter (fun a => decide (f a = k)) =
          l.filter fun a => f a = k := by
        rw [List.filter_filter]
        refine List.filter_congr fun a _ => ?_
        by_cases hfa : f a = k <;> simp [hfa]
      have hothers : (l.filter fun a => f a ∈ k :: keys).filter (fun a => !decide (f a = k)) =
          l.filter fun a => f a ∈ keys := by
        rw [List.filter_filter]
        refine List.filter_congr fun a _ => ?_
        by_cases hfa : f a = k
        · simp [hfa, hk]
        · simp [hfa]
      rw [hfirst, hothers] at hsplit
      exact (List.Perm.append_left _ hrest).trans hsplit

theorem uniquePrefixes_spec {caps : List Bytes}
    (hne : ∀ q ∈ caps, (splitQualified q).1 ≠ [])
    (hcount : (caps.map fun q => (splitQualified q).1).dedup.length ≤ 32) :
    (uniquePrefixes caps).Nodup ∧ ∀ q ∈ caps, (splitQualified q).1 ∈ uniquePrefixes caps := by
  let all := (caps.map fun q => (splitQualified q).1).dedup
  let step := fun (seen : List Bytes) (q : Bytes) =>
    let pre := (splitQualified q).1
    if pre = [] ∨ seen.contains pre ∨ 32 ≤ seen.length then seen else seen ++ [pre]
  -- the table of prefixes has room for each new one, as there are no more than 32
  have hfold : ∀ (qs seen : List Bytes), (∀ q ∈ qs, q ∈ caps) → seen.Nodup → seen ⊆ all →
      (qs.foldl step seen).Nodup ∧ seen ⊆ qs.foldl step seen ∧
        ∀ q ∈ qs, (splitQualified q).1 ∈ qs.foldl step seen := by
    intro qs
    induction qs with
    | nil => exact fun seen _ hnodup _ => ⟨hnodup, fun _ h => h, by simp⟩
    | cons q qs ih =>
        intro seen hqs hnodup hsub
        have hq : q ∈ caps := hqs q (by simp)
        have hmem : (splitQualified q).1 ∈ all := by
          rw [List.mem_dedup]
          exact List.mem_map.mpr ⟨q, hq, rfl⟩
        rw [List.foldl_cons]
        by_cases hseen : (splitQualified q).1 ∈ seen
        · have hstep : step seen q = seen := by simp [step, hseen]
          rw [hstep]
          obtain ⟨h₁, h₂, h₃⟩ := ih seen (fun q' hq' => hqs q' (by simp [hq'])) hnodup hsub
          refine ⟨h₁, h₂, fun q' hq' => ?_⟩
          rcases List.mem_cons.mp hq' with rfl | hq'
          · exact h₂ hseen
          · exact h₃ q' hq'
        · have hcons : ((splitQualified q).1 :: seen).Nodup := List.nodup_cons.mpr ⟨hseen, hnodup⟩
          have hroom : ¬ 32 ≤ seen.length := by
            have hle := (hcons.subperm (List.cons_subset.mpr ⟨hmem, hsub⟩)).length_le
            have hall : all.length ≤ 32 := hcount
            rw [List.length_cons] at hle
            omega
          have hstep : step seen q = seen ++ [(splitQualified q).1] := by
            simp [step, hne q hq, hseen, hroom]
          rw [hstep]
          obtain ⟨h₁, h₂, h₃⟩ := ih (seen ++ [(splitQualified q).1])
            (fun q' hq' => hqs q' (by simp [hq']))
            ((List.perm_append_singleton _ _).nodup_iff.mpr hcons)
            (by simpa [List.append_subset] using ⟨hsub, hmem⟩)
          refine ⟨h₁, fun p hp => h₂ (by simp [hp]), fun q' hq' => ?_⟩
          rcases List.mem_cons.mp hq' with rfl | hq'
          · exact h₂ (by simp)
          · exact h₃ q' hq'
  obtain ⟨hnodup, -, hall⟩ := hfold caps [] (fun _ h => h) List.nodup_nil (by simp)
  exact ⟨hnodup, hall⟩

/-- The capabilities of an agent, by prefixes. -/
theorem perm_capsOf {A : Agent} (h : RegularAgent A) :
    ((uniquePrefixes (witCollectCaps A)).flatMap (capsOf (witCollectCaps A))).Perm
      ((capabilityEntries A).map CapEntry.name) := by
  have hcaps := witCollectCaps_eq h
  have hne : ∀ q ∈ witCollectCaps A, (splitQualified q).1 ≠ [] := by
    intro q hq
    exact (entryName_regular (regularName_of_mem h hq)).2.2.1
  obtain ⟨hnodup, hall⟩ := uniquePrefixes_spec hne (by
    rw [hcaps, List.map_map]
    exact h.prefixes)
  have hperm := perm_flatMap_filter (fun q => (splitQualified q).1) (witCollectCaps A) _ hnodup
  refine hperm.trans (.of_eq ?_)
  rw [← hcaps]
  exact List.filter_eq_self.mpr fun q hq => by simpa using hall q hq

theorem perm_capabilityNames {P : Program} (h : ∀ A ∈ P, RegularAgent A) :
    (P.flatMap fun A => (uniquePrefixes (witCollectCaps A)).flatMap
      (capsOf (witCollectCaps A))).Perm (capabilityNames P) := by
  induction P with
  | nil => exact List.Perm.refl _
  | cons A P ih =>
      rw [capabilityNames, List.flatMap_cons, List.flatMap_cons]
      exact (perm_capsOf (h A (by simp))).append (ih fun B hB => h B (by simp [hB]))

/-- What matches a name that occurs once is its entry. -/
theorem filter_entries {names : List Bytes} (hregular : ∀ q ∈ names, RegularName q)
    (honce : (names.map canonical).Nodup) {q : Bytes} (hq : q ∈ names) :
    (names.map entryOf).filter (fun f => qualifiedEqCanonical f.qualified q) = [entryOf q] := by
  induction names with
  | nil => simp at hq
  | cons q' names ih =>
      obtain ⟨hnot, honce⟩ := List.nodup_cons.mp honce
      have hname := (entryName_regular (hregular q' (by simp))).1
      have hmatch : qualifiedEqCanonical (entryOf q').qualified q = true ↔
          canonical q' = canonical q := by
        rw [qualifiedEqCanonical_iff, entryOf, hname]
      rcases List.mem_cons.mp hq with rfl | hmem
      · have hnone : (names.map entryOf).filter
            (fun f => qualifiedEqCanonical f.qualified q) = [] := by
          refine List.filter_eq_nil_iff.mpr fun f hf => ?_
          obtain ⟨p, hp, rfl⟩ := List.mem_map.mp hf
          have hpname := (entryName_regular (hregular p (by simp [hp]))).1
          rw [qualifiedEqCanonical_iff, entryOf, hpname]
          intro heq
          exact hnot (List.mem_map.mpr ⟨p, hp, heq⟩)
        rw [List.map_cons, List.filter_cons, if_pos (hmatch.mpr rfl), hnone]
      · have hno : ¬ qualifiedEqCanonical (entryOf q').qualified q = true := by
          rw [hmatch]
          intro heq
          exact hnot (List.mem_map.mpr ⟨q, hmem, heq.symm⟩)
        rw [List.map_cons, List.filter_cons, if_neg hno]
        exact ih (fun p hp => hregular p (by simp [hp])) honce hmem

/-! ## The contract -/

/-- What is written for a program is read as one entry for each of its capabilities,
with the signature that is emitted, and no other entry. -/
def RoundTrips (P : Program) : Prop :=
  ∃ text funcs, lcnEmitWit P = some text ∧ lcnWitLoad text = some funcs ∧
    (∀ q ∈ capabilityNames P, ∃ f,
      funcs.filter (fun f => qualifiedEqCanonical f.qualified q) = [f] ∧
        f.params = (emittedSignature q).params ∧ f.retType = (emittedSignature q).ret) ∧
    ∀ f ∈ funcs, ∃ q ∈ capabilityNames P, qualifiedEqCanonical f.qualified q = true

/-- A file is read as what it lays out. -/
def ReadsAs (blocks : List BlockText) (behind : Gap) : Prop :=
  lcnWitLoad (fileText blocks behind) = some (fileFuncs blocks)

theorem roundTrips_of_regular {P : Program} (h : Regular P) : RoundTrips P := by
  have hregular := h.regular
  have hname : ∀ q ∈ capabilityNames P, RegularName q := by
    intro q hq
    obtain ⟨A, hA, hq⟩ := List.mem_flatMap.mp hq
    obtain ⟨e, he, rfl⟩ := List.mem_map.mp hq
    exact (hregular A hA).names e he
  have hperm := (perm_capabilityNames hregular).map entryOf
  rw [← fileFuncs_fileBlocks] at hperm
  have hcount : (fileFuncs (fileBlocks P)).length ≤ 128 := by
    rw [hperm.length_eq, List.length_map]
    exact h.count
  obtain ⟨hok, htidy⟩ := fileBlocks_good h
  refine ⟨_, _, fileText_emit h.agents fun A hA q hq =>
    (regularName_of_mem (hregular A hA) hq).length, lcnWitLoad_tidy hok htidy hcount, ?_, ?_⟩
  · intro q hq
    have hfilter := hperm.filter fun f => qualifiedEqCanonical f.qualified q
    rw [filter_entries hname h.once hq] at hfilter
    exact ⟨entryOf q, List.perm_singleton.mp hfilter, rfl, rfl⟩
  · intro f hf
    obtain ⟨q, hq, rfl⟩ := List.mem_map.mp (hperm.subset hf)
    exact ⟨q, hq, qualifiedEqCanonical_iff.mpr (entryName_regular (hname q hq)).1⟩

/-- A regular program finds its capabilities again, and a tidy file is read as it is
laid out. -/
theorem contract_loaded (P : Program) (blocks : List BlockText) (behind : Gap) :
    (Regular P → RoundTrips P) ∧
    (FileOk blocks behind → (fileFuncs blocks).length ≤ 128 → Tidy behind blocks →
      ReadsAs blocks behind) :=
  ⟨roundTrips_of_regular, fun hok hcount htidy => lcnWitLoad_tidy hok htidy hcount⟩

/-- An agent with one capability of the table and one that is not in it. -/
def classifier : Agent :=
  ⟨ascii "Classifier", [⟨capabilitiesField, .array [.ident (ascii "llm.classify"),
    .ident (ascii "desk.close_ticket")]⟩], []⟩

theorem regular_classifier : Regular [classifier] := by
  have hnames : ∀ e ∈ capabilityEntries classifier, RegularName e.name := by
    intro e he
    have hentries : capabilityEntries classifier =
        [.ident (ascii "llm.classify"), .ident (ascii "desk.close_ticket")] := by decide
    have he : e = .ident (ascii "llm.classify") ∨ e = .ident (ascii "desk.close_ticket") := by
      simpa [hentries] using he
    rcases he with rfl | rfl
    · exact ⟨⟨ascii "llm", ascii "classify", rfl, by decide, by decide, by decide, by decide⟩,
        by decide⟩
    · exact ⟨⟨ascii "desk", ascii "close_ticket", rfl, by decide, by decide, by decide,
        by decide⟩, by decide⟩
  refine ⟨by simp, ?_, by decide, by decide⟩
  intro A hA
  obtain rfl := List.mem_singleton.mp hA
  exact ⟨hnames, by decide, by decide, by decide⟩

/-- `interface kv{get:func();}`. -/
def kvInterface (before : Gap) : BlockText :=
  .interface before [space] (ascii "kv") [] [⟨[], ascii "get", [], [], [], [], [], none, []⟩] []

theorem kvInterface_ok {before : Gap} (h : GapOk before) : (kvInterface before).Ok := by
  have hnone : GapOk [] := by simp [GapOk]
  refine ⟨h, gapOk_space, by simp, by decide, hnone, ?_, hnone⟩
  intro f hf
  obtain rfl := List.mem_singleton.mp hf
  exact ⟨hnone, by decide, hnone, hnone, hnone, by simp, hnone, by simp, hnone⟩

theorem kvInterface_tidy (before : Gap) (rest : Bytes) : (kvInterface before).Tidy rest := by
  refine ⟨by decide, ?_⟩
  intro f hf
  obtain rfl := List.mem_singleton.mp hf
  exact ⟨by decide, by simp, by decide, by simp⟩

theorem kvInterface_file : FileOk [kvInterface []] [] ∧ Tidy [] [kvInterface []] := by
  refine ⟨⟨?_, by simp [GapOk]⟩, kvInterface_tidy [] _, trivial⟩
  intro b hb
  obtain rfl := List.mem_singleton.mp hb
  exact kvInterface_ok (by simp [GapOk])

theorem contract_of_classifier :
    RoundTrips [classifier] ∧ ReadsAs [kvInterface []] [] :=
  ⟨(contract_loaded [classifier] [kvInterface []] []).1 regular_classifier,
    (contract_loaded [classifier] [kvInterface []] []).2 kvInterface_file.1 (by decide)
      kvInterface_file.2⟩

/-- An interface right behind a world. -/
def worldFirst : List BlockText := [.world [] [space] (ascii "w") [] [], kvInterface []]

/-- The first letter of the interface is lost, and the interface with it. -/
theorem interface_lost : ¬ ∀ (P : Program) (blocks : List BlockText) (behind : Gap),
    (P ≠ [] → RoundTrips P) ∧
      (FileOk blocks behind → (fileFuncs blocks).length ≤ 128 → ReadsAs blocks behind) := by
  intro hall
  have hnone : GapOk [] := by simp [GapOk]
  have hok : FileOk worldFirst [] := by
    refine ⟨?_, hnone⟩
    intro b hb
    rcases List.mem_cons.mp hb with rfl | hb
    · exact ⟨hnone, gapOk_space, by simp, by decide, hnone, trivial⟩
    · obtain rfl := List.mem_singleton.mp hb
      exact kvInterface_ok hnone
  have hread : lcnWitLoad (fileText worldFirst []) = some [] := by decide
  have hclaim := (hall [] worldFirst []).2 hok (by decide)
  rw [ReadsAs, hread] at hclaim
  exact absurd hclaim (by decide)

end Limceron.Wit
