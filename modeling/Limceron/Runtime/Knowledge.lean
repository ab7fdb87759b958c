/-
# `Limceron.Runtime.Knowledge` — cutting a file into chunks

`runtime/kb.c`.  A chunk is cut behind the last end of a sentence or of a line in the second
half of its room, or where the room ends; the next one begins `chunk_overlap` bytes before
that, or there if the chunk is not longer than the overlap.  So a chunk never ends before the
one in front of it (`actualEnd_le`), and what comes out is the file.

The search begins at the byte behind the room.  A chunk that is cut behind that byte is one
byte longer than the room, and only such a chunk is (`chunking_iff`).

A file is of at most ten megabytes, so that no number here leaves its type; of the database
there are the rows of `kb_chunks`.
-/
import Limceron.Lib.Slices
import Mathlib.Data.Int.Notation

namespace Limceron.Runtime.Knowledge

open Slices

/-- A row of `kb_chunks`. -/
structure KbChunk where
  sourceFile : List UInt8
  chunkIndex : ℕ
  content : List UInt8
  contentLen : ℕ
  deriving DecidableEq

/-- `chunk_size` is above zero when `lcn_kb_init` is done. -/
structure LcnKnowledgeBase where
  kbChunks : List KbChunk
  chunkSize : ℕ
  chunkOverlap : ℤ
  ingested : Bool
  chunkSize_pos : 0 < chunkSize

/-- `KB_DEFAULT_CHUNK_SIZE`, `KB_DEFAULT_CHUNK_OVERLAP`. -/
def kbDefaultChunkSize : ℕ := 500

def kbDefaultChunkOverlap : ℤ := 50

/-- `lcn_kb_init` of a database that has these rows. -/
def lcnKbInit (kbChunks : List KbChunk) (chunkSize chunkOverlap : ℤ) : LcnKnowledgeBase where
  kbChunks := kbChunks
  chunkSize := if 0 < chunkSize then chunkSize.toNat else kbDefaultChunkSize
  chunkOverlap := if 0 ≤ chunkOverlap then chunkOverlap else kbDefaultChunkOverlap
  ingested := kbChunks ≠ []
  chunkSize_pos := by
    split
    · omega
    · exact Nat.succ_pos _

/-! ## The loop -/

/-- `'\n'`, `'.'`, `'!'`, `'?'`. -/
def isBreak (c : UInt8) : Bool := c = 0x0A || c = 0x2E || c = 0x21 || c = 0x3F

/-- `while (look > low)`. -/
def lookBack (content : List UInt8) (low : ℕ) : ℕ → Option ℕ
  | 0 => none
  | look + 1 =>
      if look + 1 ≤ low then none
      else if isBreak (content.getD (look + 1) 0) then some (look + 1 + 1)
      else lookBack content low look

variable (kb : LcnKnowledgeBase) (content : List UInt8)

def actualEnd (pos : ℕ) : ℕ :=
  let stop := min (pos + kb.chunkSize) content.length
  if stop < content.length then (lookBack content (pos + kb.chunkSize / 2) stop).getD stop
  else stop

def nextPos (pos stop : ℕ) : ℕ :=
  if 0 < kb.chunkOverlap ∧ kb.chunkOverlap < (stop - pos : ℕ) then stop - kb.chunkOverlap.toNat
  else stop

def kbChunk (filePath : List UInt8) (chunkIdx pos : ℕ) : KbChunk where
  sourceFile := filePath
  chunkIndex := chunkIdx
  content := slice content pos (actualEnd kb content pos)
  contentLen := actualEnd kb content pos - pos

/-! ## Where a chunk is cut -/

variable {kb content}

/-- Behind the last break above `low` and up to `high`, or at `high`. -/
inductive Cut (content : List UInt8) (low high : ℕ) : ℕ → Prop
  | found {i : ℕ} (hlow : low < i) (hhigh : i ≤ high) (hbreak : isBreak (content.getD i 0) = true)
      (hlast : ∀ j, i < j → j ≤ high → isBreak (content.getD j 0) = false) :
      Cut content low high (i + 1)
  | whole (hnone : ∀ j, low < j → j ≤ high → isBreak (content.getD j 0) = false) :
      Cut content low high high

theorem cut_lookBack (low look : ℕ) :
    Cut content low look ((lookBack content low look).getD look) := by
  suffices h : ∀ high, look ≤ high →
      (∀ j, look < j → j ≤ high → isBreak (content.getD j 0) = false) →
      Cut content low high ((lookBack content low look).getD high) from
    h look (Nat.le_refl _) fun j hj hle => absurd hle (Nat.not_le.2 hj)
  intro high hle hnone
  induction look with
  | zero => exact .whole fun j hj => hnone j (Nat.lt_of_le_of_lt (Nat.zero_le _) hj)
  | succ look ih =>
      rw [lookBack]
      split
      · next hlow => exact .whole fun j hj => hnone j (Nat.lt_of_le_of_lt hlow hj)
      · next hlow =>
          split
          · next hbreak => exact .found (Nat.not_le.1 hlow) hle hbreak hnone
          · next hbreak =>
              refine ih (Nat.le_of_succ_le hle) fun j hj hjle => ?_
              rcases Nat.lt_or_eq_of_le (Nat.succ_le_of_lt hj) with hlt | rfl
              · exact hnone j hlt hjle
              · exact eq_false_of_ne_true hbreak

/-- A room that lies higher is not cut lower. -/
theorem Cut.mono {low high low' high' e e' : ℕ} (h : Cut content low high e)
    (h' : Cut content low' high' e') (hlow : low < low') (hhigh : high < high') : e ≤ e' := by
  cases h with
  | @found i hi hile hbreak _ =>
      cases h' with
      | @found j _ _ _ hlast =>
          refine Nat.succ_le_succ (Nat.le_of_not_lt fun hji => ?_)
          rw [hlast i hji (by omega)] at hbreak
          cases hbreak
      | whole hnone =>
          have hle : i ≤ low' := Nat.le_of_not_lt fun hlt => by
            rw [hnone i hlt (by omega)] at hbreak
            cases hbreak
          omega
  | whole hnone =>
      cases h' with
      | @found j hj _ hbreak _ =>
          have hlt : high < j := Nat.lt_of_not_le fun hle => by
            rw [hnone j (by omega) hle] at hbreak
            cases hbreak
          omega
      | whole _ => exact Nat.le_of_lt hhigh

theorem half_lt (kb : LcnKnowledgeBase) : kb.chunkSize / 2 < kb.chunkSize :=
  Nat.div_lt_self kb.chunkSize_pos (by omega)

theorem actualEnd_last {pos : ℕ} (h : content.length ≤ pos + kb.chunkSize) :
    actualEnd kb content pos = content.length := by
  rw [actualEnd, Nat.min_eq_right h]
  exact if_neg (Nat.lt_irrefl _)

theorem cut_actualEnd {pos : ℕ} (h : pos + kb.chunkSize < content.length) :
    Cut content (pos + kb.chunkSize / 2) (pos + kb.chunkSize) (actualEnd kb content pos) := by
  rw [actualEnd, Nat.min_eq_left (Nat.le_of_lt h)]
  exact (if_pos h).symm ▸ cut_lookBack ..

theorem Cut.bounds {low high e : ℕ} (h : Cut content low high e) (hroom : low < high) :
    low < e ∧ e ≤ high + 1 := by
  cases h with
  | found hlow hhigh => omega
  | whole => omega

/-- Only the byte behind the room makes a chunk longer than the room. -/
theorem Cut.le_iff {low high e : ℕ} (h : Cut content low high e) (hroom : low < high) :
    e ≤ high ↔ isBreak (content.getD high 0) = false := by
  cases h with
  | @found i _ hhigh hbreak hlast =>
      rcases Nat.lt_or_eq_of_le hhigh with hlt | rfl
      · exact iff_of_true hlt (hlast high hlt (Nat.le_refl _))
      · exact iff_of_false (Nat.not_succ_le_self _) (by rw [hbreak]; exact Bool.noConfusion)
  | whole hnone => exact iff_of_true (Nat.le_refl _) (hnone high hroom (Nat.le_refl _))

theorem actualEnd_bounds (kb : LcnKnowledgeBase) {pos : ℕ} (h : pos < content.length) :
    pos < actualEnd kb content pos ∧ actualEnd kb content pos ≤ content.length := by
  rcases Nat.lt_or_ge (pos + kb.chunkSize) content.length with hlt | hge
  · have hroom := half_lt kb
    have hcut := (cut_actualEnd hlt).bounds (by omega)
    omega
  · rw [actualEnd_last hge]
    exact ⟨h, Nat.le_refl _⟩

theorem nextPos_bounds (kb : LcnKnowledgeBase) {pos stop : ℕ} (h : pos < stop) :
    pos < nextPos kb pos stop ∧ nextPos kb pos stop ≤ stop := by
  rw [nextPos]
  split <;> omega

theorem nextPos_eq (pos stop : ℕ) :
    nextPos kb pos stop = stop ∨ (nextPos kb pos stop : ℤ) = stop - kb.chunkOverlap := by
  rw [nextPos]
  split
  · right
    omega
  · exact .inl rfl

/-- No chunk ends before the one in front of it. -/
theorem actualEnd_le {pos pos' : ℕ} (h : pos < pos')
    (hmore : actualEnd kb content pos < content.length) :
    actualEnd kb content pos ≤ actualEnd kb content pos' := by
  rcases Nat.lt_or_ge (pos' + kb.chunkSize) content.length with hlt | hge
  · have hroom := half_lt kb
    exact (cut_actualEnd (by omega)).mono (cut_actualEnd hlt) (by omega) (by omega)
  · rw [actualEnd_last hge]
    exact Nat.le_of_lt hmore

/-! ## The file in chunks -/

variable (kb content)

/-- The loop from `pos` on; an insertion that fails (`works`) ends it. -/
def chunkLoop (works : KbChunk → Bool) (filePath : List UInt8) (chunkIdx pos : ℕ) : List KbChunk :=
  if h : pos < content.length then
    let chunk := kbChunk kb content filePath chunkIdx pos
    let stop := actualEnd kb content pos
    if works chunk then
      chunk :: (if content.length ≤ stop then []
        else chunkLoop works filePath (chunkIdx + 1) (nextPos kb pos stop))
    else []
  else []
termination_by content.length - pos
decreasing_by
  have hstop := actualEnd_bounds kb h
  have hnext := nextPos_bounds kb hstop.1
  omega

/-- `lcn_kb_ingest_file`: a file that cannot be read, or has chunks, adds none. -/
def lcnKbIngestFile (works : KbChunk → Bool) (file : Option (List UInt8)) (filePath : List UInt8) :
    ℕ × LcnKnowledgeBase :=
  match file with
  | none => (0, kb)
  | some content =>
      if kb.kbChunks.any (·.sourceFile = filePath) then (0, kb)
      else
        let chunks := chunkLoop kb content works filePath 0 0
        (chunks.length, { kb with kbChunks := kb.kbChunks ++ chunks, ingested := true })

/-- The chunks from `pos` on, by their ends. -/
inductive Run : ℕ → List (ℕ × ℕ) → Prop
  | last {pos : ℕ} (h : pos < content.length) (hend : actualEnd kb content pos = content.length) :
      Run pos [(pos, actualEnd kb content pos)]
  | step {pos : ℕ} {places : List (ℕ × ℕ)} (h : pos < content.length)
      (hmore : actualEnd kb content pos < content.length)
      (hrun : Run (nextPos kb pos (actualEnd kb content pos)) places) :
      Run pos ((pos, actualEnd kb content pos) :: places)

/-- The places where a turn of the loop begins. -/
inductive Turn : ℕ → Prop
  | first (h : 0 < content.length) : Turn 0
  | next {pos : ℕ} (h : Turn pos) (hmore : actualEnd kb content pos < content.length) :
      Turn (nextPos kb pos (actualEnd kb content pos))

/-- What is meant by the chunks of a file. -/
structure Chunking (chunks : List (List UInt8)) (places : List (ℕ × ℕ)) : Prop where
  slices : chunks = places.map fun c => slice content c.1 c.2
  inside : ∀ c ∈ places, c.1 < c.2 ∧ c.2 ≤ content.length
  size : ∀ chunk ∈ chunks, chunk ≠ [] ∧ chunk.length ≤ kb.chunkSize
  first : ∀ c ∈ places.head?, c.1 = 0
  last : ∀ c ∈ places.getLast?, c.2 = content.length
  next : places.IsChain fun c d =>
    c.1 < d.1 ∧ (d.1 = c.2 ∨ (d.1 : ℤ) = c.2 - kb.chunkOverlap)
  joined : joined content 0 places = content

variable {kb content}

theorem exists_run (kb : LcnKnowledgeBase) {pos : ℕ} (h : pos < content.length) : ∃ places, Run kb content pos places := by
  induction hn : content.length - pos using Nat.strongRecOn generalizing pos with
  | ind n ih =>
      have hstop := actualEnd_bounds kb h
      rcases Nat.lt_or_eq_of_le hstop.2 with hmore | hend
      · have hnext := nextPos_bounds kb hstop.1
        rcases ih _ (by omega) (Nat.lt_of_le_of_lt hnext.2 hmore) rfl with ⟨places, hrun⟩
        exact ⟨_, .step h hmore hrun⟩
      · exact ⟨_, .last h hend⟩

theorem Run.lt {pos : ℕ} {places : List (ℕ × ℕ)} (h : Run kb content pos places) :
    pos < content.length := by
  cases h with
  | last h => exact h
  | step h => exact h

theorem Run.head {pos : ℕ} {places : List (ℕ × ℕ)} (h : Run kb content pos places) :
    places.head? = some (pos, actualEnd kb content pos) := by
  cases h with
  | last => rfl
  | step => rfl

theorem Run.getLast {pos : ℕ} {places : List (ℕ × ℕ)} (h : Run kb content pos places) :
    ∀ c ∈ places.getLast?, c.2 = content.length := by
  induction h with
  | last _ hend =>
      rintro _ ⟨⟩
      exact hend
  | step _ _ hrun ih =>
      rw [List.getLast?_cons]
      rcases hlast : List.getLast? _ with _ | d
      · have hhead := hrun.head
        rw [List.getLast?_eq_none_iff.1 hlast] at hhead
        cases hhead
      · rintro _ ⟨⟩
        exact ih d hlast

/-- Each of the chunks is that of a turn. -/
theorem Run.turns {pos : ℕ} {places : List (ℕ × ℕ)} (h : Run kb content pos places)
    (hturn : Turn kb content pos) :
    ∀ c ∈ places, Turn kb content c.1 ∧ c.1 < content.length ∧ c.2 = actualEnd kb content c.1 := by
  induction h with
  | last h _ =>
      intro c hc
      cases List.mem_singleton.1 hc
      exact ⟨hturn, h, rfl⟩
  | step h hmore _ ih =>
      intro c hc
      rcases List.mem_cons.1 hc with rfl | hc
      · exact ⟨hturn, h, rfl⟩
      · exact ih (.next hturn hmore) c hc

/-- Each turn has its chunk. -/
theorem Run.mem {pos : ℕ} {places : List (ℕ × ℕ)} (h : Run kb content 0 places)
    (hturn : Turn kb content pos) : (pos, actualEnd kb content pos) ∈ places := by
  suffices hpart : ∃ part, part <:+ places ∧ Run kb content pos part by
    rcases hpart with ⟨part, hpart, hrun⟩
    exact hpart.subset (List.mem_of_mem_head? hrun.head)
  induction hturn with
  | first _ => exact ⟨places, List.suffix_rfl, h⟩
  | next _ hmore ih =>
      rcases ih with ⟨part, hpart, hrun⟩
      cases hrun with
      | last _ hend => exact absurd hend (Nat.ne_of_lt hmore)
      | step _ _ hrun => exact ⟨_, (List.suffix_cons ..).trans hpart, hrun⟩

theorem Run.next {pos : ℕ} {places : List (ℕ × ℕ)} (h : Run kb content pos places) :
    places.IsChain fun c d =>
      c.1 < d.1 ∧ (d.1 = c.2 ∨ (d.1 : ℤ) = c.2 - kb.chunkOverlap) := by
  induction h with
  | last => exact .singleton _
  | @step pos places h _ hrun ih =>
      rcases places with _ | ⟨d, places⟩
      · exact .singleton _
      · cases hrun.head
        have hnext := nextPos_bounds kb (actualEnd_bounds kb h).1
        exact .cons_cons ⟨hnext.1, nextPos_eq pos _⟩ ih

theorem Run.chain {pos e : ℕ} {places : List (ℕ × ℕ)} (h : Run kb content pos places)
    (hpos : pos ≤ e) (he : e ≤ actualEnd kb content pos) : Chain content.length e places := by
  induction h generalizing e with
  | last _ hend => exact .cons hpos he (hend ▸ .done)
  | step h hmore _ ih =>
      have hnext := nextPos_bounds kb (actualEnd_bounds kb h).1
      exact .cons hpos he (ih hnext.2 (actualEnd_le hnext.1 hmore))

/-- The loop makes these chunks, when every insertion succeeds. -/
theorem Run.chunkLoop {pos : ℕ} {places : List (ℕ × ℕ)} (h : Run kb content pos places)
    {works : KbChunk → Bool} (hworks : ∀ chunk, works chunk = true) (filePath : List UInt8)
    (chunkIdx : ℕ) :
    (chunkLoop kb content works filePath chunkIdx pos).map KbChunk.content =
      places.map fun c => slice content c.1 c.2 := by
  induction h generalizing chunkIdx with
  | @last pos h hend =>
      rw [Knowledge.chunkLoop, dif_pos h]
      simp only [hworks, hend, Nat.le_refl, if_true]
      rw [List.map_singleton, List.map_singleton, kbChunk, hend]
  | @step pos places h hmore _ ih =>
      rw [Knowledge.chunkLoop, dif_pos h]
      simp only [hworks, if_true, Nat.not_le.2 hmore, if_false, List.map_cons]
      rw [ih, kbChunk]

theorem size_iff {pos : ℕ} (h : pos < content.length) :
    (slice content pos (actualEnd kb content pos)).length ≤ kb.chunkSize ↔
      (pos + kb.chunkSize < content.length →
        isBreak (content.getD (pos + kb.chunkSize) 0) = false) := by
  have hstop := actualEnd_bounds kb h
  rw [length_slice hstop.2]
  rcases Nat.lt_or_ge (pos + kb.chunkSize) content.length with hlt | hge
  · have hroom := half_lt kb
    rw [← (cut_actualEnd hlt).le_iff (by omega)]
    omega
  · refine iff_of_true ?_ fun hlt => absurd hge (Nat.not_le.2 hlt)
    omega

theorem Run.chunking {places : List (ℕ × ℕ)} (h : Run kb content 0 places)
    {works : KbChunk → Bool} (hworks : ∀ chunk, works chunk = true) (filePath : List UInt8)
    (hsize : ∀ pos, Turn kb content pos → pos + kb.chunkSize < content.length →
      isBreak (content.getD (pos + kb.chunkSize) 0) = false) :
    Chunking kb content ((Knowledge.chunkLoop kb content works filePath 0 0).map KbChunk.content)
      places where
  slices := h.chunkLoop hworks filePath 0
  inside c hc := by
    rcases h.turns (.first h.lt) c hc with ⟨-, hlt, hend⟩
    rw [hend]
    exact actualEnd_bounds kb hlt
  size chunk hchunk := by
    rw [h.chunkLoop hworks filePath 0] at hchunk
    rcases List.mem_map.1 hchunk with ⟨c, hc, rfl⟩
    rcases h.turns (.first h.lt) c hc with ⟨hturn, hlt, hend⟩
    have hstop := actualEnd_bounds kb hlt
    rw [hend]
    refine ⟨fun hnil => ?_, (size_iff hlt).2 (hsize c.1 hturn)⟩
    have hlen := length_slice (p := c.1) hstop.2
    rw [hnil, List.length_nil] at hlen
    omega
  first := by
    rw [h.head]
    rintro _ ⟨⟩
    rfl
  last := h.getLast
  next := h.next
  joined := joined_chain (h.chain (Nat.le_refl _) (Nat.zero_le _))

theorem chunking_nil {kb : LcnKnowledgeBase} {works : KbChunk → Bool} (filePath : List UInt8) :
    Chunking kb [] ((chunkLoop kb [] works filePath 0 0).map KbChunk.content) [] where
  slices := by
    rw [chunkLoop]
    rfl
  inside _ hc := nomatch hc
  size chunk hchunk := by
    rw [chunkLoop] at hchunk
    cases hchunk
  first _ hc := nomatch hc
  last _ hc := nomatch hc
  next := .nil
  joined := rfl

theorem Turn.pos {pos : ℕ} (h : Turn kb content pos) : 0 < content.length := by
  induction h with
  | first h => exact h
  | next _ _ ih => exact ih

theorem Chunking.no_break {places : List (ℕ × ℕ)} {works : KbChunk → Bool}
    (hworks : ∀ chunk, works chunk = true) {filePath : List UInt8}
    (h : Chunking kb content
      ((Knowledge.chunkLoop kb content works filePath 0 0).map KbChunk.content) places)
    {pos : ℕ} (hturn : Turn kb content pos) (hmore : pos + kb.chunkSize < content.length) :
    isBreak (content.getD (pos + kb.chunkSize) 0) = false := by
  rcases exists_run kb hturn.pos with ⟨run, hrun⟩
  have hmem := hrun.mem hturn
  refine (size_iff (hrun.turns (.first hturn.pos) _ hmem).2.1).1 (h.size _ ?_).2 hmore
  rw [hrun.chunkLoop hworks filePath 0]
  exact List.mem_map.2 ⟨_, hmem, rfl⟩

/-- The chunks are right if and only if no turn has a break behind its room. -/
theorem chunking_iff (kb : LcnKnowledgeBase) (content filePath : List UInt8)
    {works : KbChunk → Bool} (hworks : ∀ chunk, works chunk = true) :
    (∃ places, Chunking kb content
      ((chunkLoop kb content works filePath 0 0).map KbChunk.content) places) ↔
      ∀ pos, Turn kb content pos → pos + kb.chunkSize < content.length →
        isBreak (content.getD (pos + kb.chunkSize) 0) = false := by
  constructor
  · rintro ⟨places, hmeets⟩ pos hturn hmore
    exact hmeets.no_break hworks hturn hmore
  · intro hsize
    rcases Nat.eq_zero_or_pos content.length with hnil | hpos
    · cases List.length_eq_zero_iff.1 hnil
      exact ⟨[], chunking_nil filePath⟩
    · rcases exists_run kb hpos with ⟨places, hrun⟩
      exact ⟨places, hrun.chunking hworks filePath hsize⟩

/-- `abcd` in chunks of three bytes: the first one has a letter behind it. -/
theorem chunking_letters :
    ∃ places, Chunking (lcnKbInit [] 3 1) [0x61, 0x62, 0x63, 0x64]
      ((chunkLoop (lcnKbInit [] 3 1) [0x61, 0x62, 0x63, 0x64] (fun _ => true) [] 0 0).map
        KbChunk.content) places := by
  refine (chunking_iff _ _ _ fun _ => rfl).2 fun pos _ hmore => ?_
  have hpos : pos = 0 := by
    change pos + 3 < 4 at hmore
    omega
  rw [hpos]
  rfl

/-- `abc.` in chunks of three bytes: the first one has four. -/
theorem not_chunking : ¬ ∀ (kb : LcnKnowledgeBase) (content filePath : List UInt8)
    (works : KbChunk → Bool), (∀ chunk, works chunk = true) →
    ∃ places, Chunking kb content
      ((chunkLoop kb content works filePath 0 0).map KbChunk.content) places := by
  intro h
  rcases h (lcnKbInit [] 3 0) [0x61, 0x62, 0x63, 0x2E] [] (fun _ => true) fun _ => rfl with
    ⟨places, hmeets⟩
  have hbreak := hmeets.no_break (fun _ => rfl) (.first (by decide)) (by decide)
  revert hbreak
  decide

/-! ## A file that is there -/

variable {works : KbChunk → Bool}

theorem chunkLoop_sourceFile (filePath : List UInt8) (chunkIdx pos : ℕ) :
    ∀ chunk ∈ chunkLoop kb content works filePath chunkIdx pos, chunk.sourceFile = filePath := by
  fun_induction chunkLoop kb content works filePath chunkIdx pos with
  | case1 chunkIdx pos h chunk stop hworks ih =>
      intro c hc
      rcases List.mem_cons.1 hc with rfl | hc
      · rfl
      · split at hc
        · cases hc
        · exact ih c hc
  | case2 => exact fun _ hc => nomatch hc
  | case3 => exact fun _ hc => nomatch hc

/-- What was put in is not put in again. -/
theorem ingest_again (file file' : Option (List UInt8)) (filePath : List UInt8)
    (h : 0 < (lcnKbIngestFile kb works file filePath).1) :
    lcnKbIngestFile (lcnKbIngestFile kb works file filePath).2 works file' filePath =
      (0, (lcnKbIngestFile kb works file filePath).2) := by
  suffices hold : (lcnKbIngestFile kb works file filePath).2.kbChunks.any
      (·.sourceFile = filePath) = true by
    cases file' with
    | none => rfl
    | some content => exact if_pos hold
  cases file with
  | none => exact absurd h (Nat.lt_irrefl 0)
  | some content =>
      rw [lcnKbIngestFile] at h ⊢
      split at h
      · exact absurd h (Nat.lt_irrefl 0)
      · next hnew =>
          rw [if_neg hnew, List.any_append, Bool.or_eq_true]
          rcases List.exists_mem_of_length_pos h with ⟨chunk, hchunk⟩
          refine .inr (List.any_eq_true.2 ⟨chunk, hchunk, ?_⟩)
          exact decide_eq_true (chunkLoop_sourceFile filePath 0 0 chunk hchunk)

end Limceron.Runtime.Knowledge
