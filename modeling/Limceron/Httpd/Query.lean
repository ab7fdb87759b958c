/-
# `Limceron.Httpd.Query` — what was written into a request, and what is read

`runtime/httpd.c`.  A path and a list of parameters are written into a target with all bytes
but the unreserved ones escaped.  The path is read as it was written.  The query is decoded
when the request is read, before it is cut at `&` and `=`, and a value again when it is
looked up; what the first decoding has brought out is then taken for more than a byte:

| in a key | in a value |
| :-- | :-- |
| `=`, `&` cut it | `&` cuts it, `+` is a blank, `%` with two digits is a byte |

A value that stands behind another one of its key is not looked up, and may have all of it, as
long as what it is cut into changes nothing (`Sound`).
-/
import Limceron.Httpd.Confine
import Limceron.Lib.Answers
import Mathlib.Data.List.Forall2

namespace Limceron.Httpd

/-! ## Looking up a parameter -/

def keyAt (p : Bytes) : Bytes := p.takeWhile fun c => c ≠ equals ∧ c ≠ ampersand

def behindKey (p : Bytes) : Bytes := p.dropWhile fun c => c ≠ equals ∧ c ≠ ampersand

/-- Behind the key: the value, if there is a `=`. -/
def valueAt : Bytes → Option Bytes
  | [] => none
  | c :: s => if c = equals then some (s.takeWhile (· ≠ ampersand)) else none

def behindValue : Bytes → Bytes
  | [] => []
  | c :: s => if c = equals then s.dropWhile (· ≠ ampersand) else c :: s

def skipAmpersand : Bytes → Bytes
  | [] => []
  | c :: s => if c = ampersand then s else c :: s

theorem skipAmpersand_length_le (s : Bytes) : (skipAmpersand s).length ≤ s.length := by
  rcases s with _ | ⟨c, s⟩
  · exact Nat.le_refl _
  · rw [skipAmpersand]
    split
    · exact Nat.le_succ _
    · exact Nat.le_refl _

theorem behindValue_length_le (s : Bytes) : (behindValue s).length ≤ s.length := by
  rcases s with _ | ⟨c, s⟩
  · exact Nat.le_refl _
  · rw [behindValue]
    split
    · exact Nat.le_trans (List.dropWhile_suffix _).length_le (Nat.le_succ _)
    · exact Nat.le_refl _

theorem skip_behindValue_lt {p : Bytes} (h : p ≠ []) :
    (skipAmpersand (behindValue (behindKey p))).length < p.length := by
  rcases p with _ | ⟨c, p⟩
  · exact absurd rfl h
  · rw [List.length_cons, Nat.lt_succ_iff]
    by_cases hequals : c = equals
    · have hkey : behindKey (c :: p) = c :: p := List.dropWhile_cons_of_neg (by simp [hequals])
      rw [hkey, behindValue, if_pos hequals]
      exact Nat.le_trans (skipAmpersand_length_le _) (List.dropWhile_suffix _).length_le
    · by_cases hampersand : c = ampersand
      · have hkey : behindKey (c :: p) = c :: p :=
          List.dropWhile_cons_of_neg (by simp [hampersand])
        rw [hkey, behindValue, if_neg hequals, skipAmpersand, if_pos hampersand]
      · have hkey : behindKey (c :: p) = behindKey p :=
          List.dropWhile_cons_of_pos (by simp [hequals, hampersand])
        rw [hkey]
        exact Nat.le_trans (skipAmpersand_length_le _)
          (Nat.le_trans (behindValue_length_le _) (List.dropWhile_suffix _).length_le)

/-- The loop of `lcn_httpd_query_param`; what is left in `out` is a C string. -/
def queryLoop (name : Bytes) (outSize : ℕ) (p : Bytes) : Option Bytes :=
  if _h : p = [] then none
  else if keyAt p = name then
    some ((valueAt (behindKey p)).elim [] fun v => cstr (urlDecode (outSize - 1) v))
  else queryLoop name outSize (skipAmpersand (behindValue (behindKey p)))
termination_by p.length
decreasing_by exact skip_behindValue_lt _h

def lcnHttpdQueryParam (req : LcnHttpRequest) (name : Bytes) (outSize : ℕ) : Option Bytes :=
  if outSize = 0 then none
  else if req.query = [] then none
  else queryLoop name outSize req.query

/-! ## Writing a request -/

def isUnreserved (c : UInt8) : Bool :=
  (0x30 ≤ c && c ≤ 0x39) || (0x41 ≤ c && c ≤ 0x5A) || (0x61 ≤ c && c ≤ 0x7A) ||
    c = 0x2D || c = dot || c = 0x5F || c = 0x7E

/-- A digit of base 16. -/
def hexOf (n : UInt8) : UInt8 := if n < 10 then 0x30 + n else 0x41 + (n - 10)

def encodeByte (b : UInt8) : Bytes :=
  if isUnreserved b then [b] else [percent, hexOf (b >>> 4), hexOf (b &&& 0x0F)]

def encode (s : Bytes) : Bytes := s.flatMap encodeByte

/-- A slash, and segments with slashes between them. -/
def pathText (segs : List Bytes) : Bytes := slash :: [slash].intercalate segs

def pairText (p : Bytes × Bytes) : Bytes := p.1 ++ equals :: p.2

/-- Pairs with `=` in them and `&` between them. -/
def queryText (pairs : List (Bytes × Bytes)) : Bytes :=
  [ampersand].intercalate (pairs.map pairText)

def target (segs : List Bytes) (pairs : List (Bytes × Bytes)) : Bytes :=
  pathText (segs.map encode) ++
    question :: queryText (pairs.map fun p => (encode p.1, encode p.2))

/-- A request line, and what is behind the target. -/
def written (method : Bytes) (segs : List Bytes) (pairs : List (Bytes × Bytes)) (rest : Bytes) :
    Bytes :=
  method ++ space :: (target segs pairs ++ space :: rest)

/-- What is written is a request, and the fields have room for it. -/
structure Written (method : Bytes) (segs : List Bytes) (pairs : List (Bytes × Bytes)) : Prop where
  methodRoom : method.length ≤ methodRoom
  method : ∀ c ∈ method, c ≠ space ∧ c ≠ cr ∧ c ≠ lf
  segments : ∀ s ∈ segs, s ≠ [] ∧ s ≠ [dot, dot] ∧ slash ∉ s ∧ 0 ∉ s
  parameters : ∀ p ∈ pairs, p.1 ≠ [] ∧ 0 ∉ p.1 ∧ 0 ∉ p.2
  pathRoom : (pathText segs).length ≤ fieldRoom
  queryRoom : (queryText pairs).length ≤ fieldRoom

/-- The request is read as it was written. -/
def ReadBack (method : Bytes) (segs : List Bytes) (pairs : List (Bytes × Bytes)) (rest : Bytes) :
    Prop :=
  ∃ req, parseRequest (written method segs pairs rest) = some req ∧ req.path = pathText segs ∧
    ∀ name outSize, 0 < outSize → (∀ v ∈ pairs.lookup name, v.length < outSize) →
      lcnHttpdQueryParam req name outSize = pairs.lookup name

/-! ## Decoding what is written -/

theorem hexDigit_hexOf {n : UInt8} (h : n.toNat < 16) : hexDigit (hexOf n) = some n := by
  have hall : ∀ m : Fin 16, hexDigit (hexOf (.ofNat m)) = some (.ofNat m) := by decide
  have hn := hall ⟨n.toNat, h⟩
  rwa [UInt8.ofNat_toNat] at hn

theorem halves_lt (b : UInt8) : (b >>> 4).toNat < 16 ∧ (b &&& 0x0F).toNat < 16 := by
  have hall : ∀ m : Fin 256, (UInt8.ofNat m >>> 4).toNat < 16 ∧ (UInt8.ofNat m &&& 0x0F).toNat < 16 := by
    decide +kernel
  have hb := hall ⟨b.toNat, b.toNat_lt⟩
  rwa [UInt8.ofNat_toNat] at hb

theorem halves (b : UInt8) : (b >>> 4) <<< 4 ||| (b &&& 0x0F) = b := by
  have hall : ∀ m : Fin 256,
      (UInt8.ofNat m >>> 4) <<< 4 ||| (UInt8.ofNat m &&& 0x0F) = UInt8.ofNat m := by
    decide +kernel
  have hb := hall ⟨b.toNat, b.toNat_lt⟩
  rwa [UInt8.ofNat_toNat] at hb

/-- An escaped byte is read again. -/
theorem escape_hexOf (b : UInt8) (s : Bytes) :
    escape (percent :: hexOf (b >>> 4) :: hexOf (b &&& 0x0F) :: s) = some (b, s) := by
  rw [escape, if_pos rfl, hexDigit_hexOf (halves_lt b).1, hexDigit_hexOf (halves_lt b).2]
  exact congrArg (fun c => some (c, s)) (halves b)

theorem escape_of_ne {c : UInt8} (h : c ≠ percent) (s : Bytes) : escape (c :: s) = none := by
  rcases s with _ | ⟨d, _ | ⟨e, s⟩⟩
  · rfl
  · rfl
  · exact if_neg h

/-- Some text for these bytes: each as it is, or escaped. -/
inductive Encoded : Bytes → Bytes → Prop
  | nil : Encoded [] []
  | literal {c : UInt8} {t s : Bytes} (hpercent : c ≠ percent) (hplus : c ≠ plus)
      (h : Encoded t s) : Encoded (c :: t) (c :: s)
  | escaped (b : UInt8) {t s : Bytes} (h : Encoded t s) :
      Encoded (percent :: hexOf (b >>> 4) :: hexOf (b &&& 0x0F) :: t) (b :: s)

theorem Encoded.append {t s t' s' : Bytes} (h : Encoded t s) (h' : Encoded t' s') :
    Encoded (t ++ t') (s ++ s') := by
  induction h with
  | nil => exact h'
  | literal hpercent hplus _ ih => exact .literal hpercent hplus ih
  | escaped b _ ih => exact .escaped b ih

theorem Encoded.decoded {t s : Bytes} (h : Encoded t s) {room : ℕ} (hroom : s.length ≤ room) :
    urlDecode room t = s := by
  induction h generalizing room with
  | nil =>
      cases room with
      | zero => rfl
      | succ room => rfl
  | literal hpercent hplus _ ih =>
      cases room with
      | zero => cases hroom
      | succ room =>
          rw [urlDecode, escape_of_ne hpercent]
          dsimp only
          rw [if_neg hplus, ih (Nat.le_of_succ_le_succ hroom)]
  | escaped b _ ih =>
      cases room with
      | zero => cases hroom
      | succ room =>
          rw [urlDecode, escape_hexOf]
          dsimp only
          rw [ih (Nat.le_of_succ_le_succ hroom)]

theorem unreserved_ne {c : UInt8} (h : isUnreserved c = true) {d : UInt8}
    (hd : isUnreserved d = false) : c ≠ d := by
  rintro rfl
  rw [h] at hd
  cases hd

theorem encoded_encode (s : Bytes) : Encoded (encode s) s := by
  induction s with
  | nil => exact .nil
  | cons b s ih =>
      rw [encode, List.flatMap_cons, encodeByte]
      split
      · next h => exact .literal (unreserved_ne h (by decide)) (unreserved_ne h (by decide)) ih
      · exact .escaped b ih

theorem intercalate_cons_cons (c : UInt8) (t u : Bytes) (ts : List Bytes) :
    [c].intercalate (t :: u :: ts) = t ++ c :: [c].intercalate (u :: ts) := by
  rw [List.intercalate_cons_cons, List.append_assoc]
  rfl

/-- With bytes between them that are not escaped. -/
theorem encoded_intercalate {c : UInt8} (hpercent : c ≠ percent) (hplus : c ≠ plus)
    {ts ss : List Bytes} (h : List.Forall₂ Encoded ts ss) :
    Encoded ([c].intercalate ts) ([c].intercalate ss) := by
  induction h with
  | nil => exact .nil
  | @cons t s ts ss hfirst hrest ih =>
      cases hrest with
      | nil =>
          rw [List.intercalate_singleton, List.intercalate_singleton]
          exact hfirst
      | cons hnext hrest =>
          rw [intercalate_cons_cons, intercalate_cons_cons]
          exact hfirst.append (.literal hpercent hplus ih)

theorem encoded_path (segs : List Bytes) :
    Encoded (pathText (segs.map encode)) (pathText segs) := by
  refine .literal (by decide) (by decide) (encoded_intercalate (by decide) (by decide) ?_)
  exact List.forall₂_map_left_iff.2 (List.forall₂_same.2 fun s _ => encoded_encode s)

theorem encoded_query (pairs : List (Bytes × Bytes)) :
    Encoded (queryText (pairs.map fun p => (encode p.1, encode p.2))) (queryText pairs) := by
  refine encoded_intercalate (by decide) (by decide) ?_
  rw [List.map_map, List.forall₂_map_left_iff, List.forall₂_map_right_iff]
  refine List.forall₂_same.2 fun p _ => (encoded_encode p.1).append ?_
  exact .literal (by decide) (by decide) (encoded_encode p.2)

/-! ## The request line -/

theorem mem_intercalate {c d : UInt8} {ts : List Bytes} (h : c ∈ [d].intercalate ts) :
    c = d ∨ ∃ t ∈ ts, c ∈ t := by
  induction ts with
  | nil => cases h
  | cons t ts ih =>
      cases ts with
      | nil =>
          rw [List.intercalate_singleton] at h
          exact .inr ⟨t, List.mem_cons_self, h⟩
      | cons u ts =>
          rw [intercalate_cons_cons, List.mem_append, List.mem_cons] at h
          rcases h with h | h | h
          · exact .inr ⟨t, List.mem_cons_self, h⟩
          · exact .inl h
          · rcases ih h with h | ⟨u', hu', h⟩
            · exact .inl h
            · exact .inr ⟨u', List.mem_cons_of_mem t hu', h⟩

theorem isUnreserved_hexOf {n : UInt8} (h : n.toNat < 16) : isUnreserved (hexOf n) = true := by
  have hall : ∀ m : Fin 16, isUnreserved (hexOf (.ofNat m)) = true := by decide
  have hn := hall ⟨n.toNat, h⟩
  rwa [UInt8.ofNat_toNat] at hn

/-- What an encoded text has. -/
theorem mem_encode {s : Bytes} {c : UInt8} (h : c ∈ encode s) :
    isUnreserved c = true ∨ c = percent := by
  rcases List.mem_flatMap.1 h with ⟨b, -, hc⟩
  rw [encodeByte] at hc
  split at hc
  · next hb =>
      rw [List.mem_singleton.1 hc]
      exact .inl hb
  · have hhalves := halves_lt b
    rcases List.mem_cons.1 hc with rfl | hc
    · exact .inr rfl
    · rcases List.mem_cons.1 hc with rfl | hc
      · exact .inl (isUnreserved_hexOf hhalves.1)
      · rw [List.mem_singleton.1 hc]
        exact .inl (isUnreserved_hexOf hhalves.2)

/-- A byte that stands in no encoded text. -/
def Apart (c : UInt8) : Prop := isUnreserved c = false ∧ c ≠ percent

instance (c : UInt8) : Decidable (Apart c) := inferInstanceAs (Decidable (_ ∧ _))

theorem Apart.not_mem_encode {c : UInt8} (h : Apart c) (s : Bytes) : c ∉ encode s := by
  intro hc
  rcases mem_encode hc with hc | hc
  · rw [h.1] at hc
    cases hc
  · exact h.2 hc

theorem Apart.not_mem_path {c : UInt8} (h : Apart c) (hslash : c ≠ slash) (segs : List Bytes) :
    c ∉ pathText (segs.map encode) := by
  intro hc
  rcases List.mem_cons.1 hc with hc | hc
  · exact hslash hc
  · rcases mem_intercalate hc with hc | ⟨t, ht, hc⟩
    · exact hslash hc
    · rcases List.mem_map.1 ht with ⟨s, -, rfl⟩
      exact h.not_mem_encode s hc

theorem Apart.not_mem_query {c : UInt8} (h : Apart c) (hampersand : c ≠ ampersand)
    (hequals : c ≠ equals) (pairs : List (Bytes × Bytes)) :
    c ∉ queryText (pairs.map fun p => (encode p.1, encode p.2)) := by
  intro hc
  rcases mem_intercalate hc with hc | ⟨t, ht, hc⟩
  · exact hampersand hc
  · rcases List.mem_map.1 ht with ⟨q, hq, rfl⟩
    rcases List.mem_map.1 hq with ⟨p, -, rfl⟩
    rw [pairText, List.mem_append, List.mem_cons] at hc
    rcases hc with hc | hc | hc
    · exact h.not_mem_encode _ hc
    · exact hequals hc
    · exact h.not_mem_encode _ hc

theorem Apart.not_mem_target {c : UInt8} (h : Apart c)
    (hc : c ∉ [slash, question, equals, ampersand]) (segs : List Bytes)
    (pairs : List (Bytes × Bytes)) : c ∉ target segs pairs := by
  rw [List.mem_cons, List.mem_cons, List.mem_cons, List.mem_singleton] at hc
  rw [target, List.mem_append, List.mem_cons]
  rintro (hmem | hmem | hmem)
  · exact h.not_mem_path (fun heq => hc (.inl heq)) segs hmem
  · exact hc (.inr (.inl hmem))
  · exact h.not_mem_query (fun heq => hc (.inr (.inr (.inr heq))))
      (fun heq => hc (.inr (.inr (.inl heq)))) pairs hmem

/-! ## The request line -/

variable {method : Bytes} {segs : List Bytes} {pairs : List (Bytes × Bytes)}

theorem requestLine_written (h : Written method segs pairs) (rest : Bytes) :
    requestLine (written method segs pairs rest) = some (method, target segs pairs) := by
  have happart : ∀ c ∈ [space, cr, lf], c ∉ target segs pairs := by
    intro c hc
    refine Apart.not_mem_target ?_ ?_ segs pairs
    · revert c
      decide
    · revert c
      decide
  have hline : (written method segs pairs rest).takeWhile (fun c => c ≠ cr ∧ c ≠ lf) =
      method ++ space :: (target segs pairs ++
        space :: rest.takeWhile fun c => c ≠ cr ∧ c ≠ lf) := by
    rw [written, List.takeWhile_append_of_pos, List.takeWhile_cons_of_pos (by decide),
      List.takeWhile_append_of_pos, List.takeWhile_cons_of_pos (by decide)]
    · intro c hc
      exact decide_eq_true ⟨fun heq => happart cr (by simp) (heq ▸ hc),
        fun heq => happart lf (by simp) (heq ▸ hc)⟩
    · intro c hc
      exact decide_eq_true (h.method c hc).2
  have hmethod : space ∉ method := fun hc => (h.method space hc).1 rfl
  rw [requestLine, hline]
  dsimp only
  rw [cutAt_append hmethod, Option.bind_some]
  dsimp only
  rw [if_neg (Nat.not_lt.2 h.methodRoom), cutAt_append (happart space (by simp))]
  rfl

theorem splitUri_target (segs : List Bytes) (pairs : List (Bytes × Bytes)) :
    splitUri (target segs pairs) = (pathText (segs.map encode),
      queryText (pairs.map fun p => (encode p.1, encode p.2))) := by
  rw [splitUri, target, cutAt_append]
  · rfl
  · exact Apart.not_mem_path ⟨by decide, by decide⟩ (by decide) segs

/-! ## The path -/

theorem cstr_eq_self {s : Bytes} (h : (0 : UInt8) ∉ s) : cstr s = s :=
  List.takeWhile_eq_self_iff.2 fun _ hc => decide_eq_true fun heq => h (heq ▸ hc)

theorem nul_not_mem_intercalate {c : UInt8} (hc : 0 ≠ c) {ts : List Bytes}
    (h : ∀ t ∈ ts, (0 : UInt8) ∉ t) : (0 : UInt8) ∉ [c].intercalate ts := by
  intro hmem
  rcases mem_intercalate hmem with hmem | ⟨t, ht, hmem⟩
  · exact hc hmem
  · exact h t ht hmem

/-- Segments end with no slash. -/
theorem getLast_intercalate {segs : List Bytes} (hne : segs ≠ [])
    (h : ∀ s ∈ segs, s ≠ [] ∧ slash ∉ s) :
    ∃ c, c ≠ slash ∧ ([slash].intercalate segs).getLast? = some c := by
  induction segs with
  | nil => exact absurd rfl hne
  | cons s segs ih =>
      rcases h s List.mem_cons_self with ⟨hs, hslash⟩
      cases segs with
      | nil =>
          rw [List.intercalate_singleton, List.getLast?_eq_some_getLast hs]
          exact ⟨_, fun heq => hslash (heq ▸ List.getLast_mem hs), rfl⟩
      | cons t segs =>
          rcases ih (List.cons_ne_nil t segs) fun u hu => h u (List.mem_cons_of_mem s hu) with
            ⟨c, hc, hlast⟩
          refine ⟨c, hc, ?_⟩
          rw [intercalate_cons_cons, List.getLast?_append, List.getLast?_cons, hlast]
          rfl

theorem stripSlash_pathText {segs : List Bytes} (h : ∀ s ∈ segs, s ≠ [] ∧ slash ∉ s) :
    stripSlash (pathText segs) = pathText segs := by
  rw [stripSlash]
  refine if_neg ?_
  rintro ⟨hlong, hlast⟩
  cases segs with
  | nil => exact absurd hlong (by decide)
  | cons s segs =>
      rcases getLast_intercalate (List.cons_ne_nil s segs) h with ⟨c, hc, hend⟩
      rw [pathText, List.getLast?_cons, hend] at hlast
      exact hc (Option.some.inj hlast)

theorem Written.nul_not_mem_query (h : Written method segs pairs) :
    (0 : UInt8) ∉ queryText pairs := by
  refine nul_not_mem_intercalate (by decide) fun t ht => ?_
  rcases List.mem_map.1 ht with ⟨p, hp, rfl⟩
  rcases h.parameters p hp with ⟨-, hkey, hvalue⟩
  rw [pairText, List.mem_append, List.mem_cons]
  rintro (hc | hc | hc)
  · exact hkey hc
  · exact absurd hc (by decide)
  · exact hvalue hc

theorem Written.nul_not_mem_path (h : Written method segs pairs) :
    (0 : UInt8) ∉ pathText segs := by
  intro hc
  rcases List.mem_cons.1 hc with hc | hc
  · exact absurd hc (by decide)
  · exact nul_not_mem_intercalate (by decide) (fun s hs => (h.segments s hs).2.2.2) hc

/-- The request that is read, but for the scan for dots. -/
theorem parseTarget_written (h : Written method segs pairs) (rest : Bytes) :
    ∃ body, parseTarget (written method segs pairs rest) =
      some ⟨cstr method, pathText segs, queryText pairs, body⟩ := by
  have hpath : cstr (urlDecode fieldRoom (pathText (segs.map encode))) = pathText segs := by
    rw [(encoded_path segs).decoded h.pathRoom, cstr_eq_self h.nul_not_mem_path]
  have hquery : cstr (urlDecode fieldRoom
      (queryText (pairs.map fun p => (encode p.1, encode p.2)))) = queryText pairs := by
    rw [(encoded_query pairs).decoded h.queryRoom, cstr_eq_self h.nul_not_mem_query]
  have hstrip := stripSlash_pathText fun s hs =>
    (⟨(h.segments s hs).1, (h.segments s hs).2.2.1⟩ : s ≠ [] ∧ slash ∉ s)
  refine ⟨(bodyOf (written method segs pairs rest)).take bodyRoom, ?_⟩
  rw [parseTarget, requestLine_written h, Option.bind_some]
  dsimp only
  rw [splitUri_target]
  dsimp only
  rw [hpath, hquery, hstrip]
  exact if_pos rfl

theorem splitOn_pathText {segs : List Bytes} (h : ∀ s ∈ segs, slash ∉ s) (hne : segs ≠ []) :
    (pathText segs).splitOn slash = [] :: segs := by
  have hsplit := List.splitOn_append_cons_self (a := slash) [] ([slash].intercalate segs)
  rw [List.splitOn_intercalate slash h hne] at hsplit
  exact hsplit

theorem dotted_pathText {segs : List Bytes} (h : ∀ s ∈ segs, slash ∉ s) :
    Dotted (pathText segs) ↔ ∃ s ∈ segs, [dot, dot] <:+ s := by
  cases segs with
  | nil =>
      refine iff_of_false (pathIsSafe_iff_not_dotted.1 (by decide)) ?_
      rintro ⟨s, hs, -⟩
      cases hs
  | cons s segs =>
      have hnil : ¬ [dot, dot] <:+ ([] : Bytes) := by decide
      rw [Dotted, splitOn_pathText h (List.cons_ne_nil s segs)]
      simp only [List.mem_cons (b := ([] : Bytes)), exists_eq_or_imp, hnil, false_or]

/-! ## The pieces of a query -/

/-- Without an empty piece at the end. -/
def trim (pieces : List Bytes) : List Bytes :=
  if pieces.getLast? = some [] then pieces.dropLast else pieces

/-- What stands before the first `=` of a piece, and what behind it. -/
def entry (piece : Bytes) : Bytes × Bytes :=
  (piece.takeWhile (· ≠ equals), (piece.dropWhile (· ≠ equals)).tail)

theorem trim_cons {piece : Bytes} {pieces : List Bytes} (h : pieces ≠ []) :
    trim (piece :: pieces) = piece :: trim pieces := by
  rw [trim, trim, List.getLast?_cons_of_ne_nil h, List.dropLast_cons_of_ne_nil h]
  split
  · rfl
  · rfl

theorem trim_singleton {piece : Bytes} (h : piece ≠ []) : trim [piece] = [piece] :=
  if_neg fun hlast => h (Option.some.inj hlast)

theorem trim_append (pieces : List Bytes) {more : List Bytes} (h : more ≠ []) :
    trim (pieces ++ more) = pieces ++ trim more := by
  induction pieces with
  | nil => rfl
  | cons piece pieces ih =>
      rw [List.cons_append, trim_cons (List.append_ne_nil_of_right_ne_nil _ h), ih]
      rfl

/-- What the loop reads of a piece, and where it goes on. -/
theorem loop_piece {piece : Bytes} (h : ampersand ∉ piece) {tail : Bytes}
    (htail : ∀ c ∈ tail.head?, c = ampersand) :
    keyAt (piece ++ tail) = (entry piece).1 ∧
      (valueAt (behindKey (piece ++ tail))).getD [] = (entry piece).2 ∧
      skipAmpersand (behindValue (behindKey (piece ++ tail))) = tail.tail := by
  induction piece with
  | nil =>
      rcases tail with _ | ⟨c, tail⟩
      · exact ⟨rfl, rfl, rfl⟩
      · cases htail c rfl
        exact ⟨rfl, rfl, rfl⟩
  | cons c piece ih =>
      rw [List.mem_cons, not_or] at h
      by_cases hc : c = equals
      · have hspan := span_append h.2 htail
        have hkey : keyAt (c :: piece ++ tail) = [] :=
          List.takeWhile_cons_of_neg (by simp [hc])
        have hbehind : behindKey (c :: piece ++ tail) = c :: (piece ++ tail) :=
          List.dropWhile_cons_of_neg (by simp [hc])
        have hentry : entry (c :: piece) = ([], piece) := by
          rw [entry, List.takeWhile_cons_of_neg (by simp [hc]),
            List.dropWhile_cons_of_neg (by simp [hc])]
          rfl
        rw [hkey, hbehind, hentry, valueAt, if_pos hc, hspan.1, behindValue, if_pos hc, hspan.2]
        refine ⟨rfl, rfl, ?_⟩
        rcases tail with _ | ⟨d, tail⟩
        · rfl
        · exact if_pos (htail d rfl)
      · rcases ih h.2 with ⟨hkey, hvalue, hnext⟩
        have hne : decide (c ≠ equals ∧ c ≠ ampersand) = true :=
          decide_eq_true ⟨hc, Ne.symm h.1⟩
        have hbehind : behindKey (c :: piece ++ tail) = behindKey (piece ++ tail) :=
          List.dropWhile_cons_of_pos hne
        have hkey' : keyAt (c :: piece ++ tail) = c :: keyAt (piece ++ tail) :=
          List.takeWhile_cons_of_pos hne
        have hentry : entry (c :: piece) = (c :: (entry piece).1, (entry piece).2) := by
          have htake : (c :: piece).takeWhile (· ≠ equals) = c :: piece.takeWhile (· ≠ equals) :=
            List.takeWhile_cons_of_pos (decide_eq_true hc)
          have hdrop : (c :: piece).dropWhile (· ≠ equals) = piece.dropWhile (· ≠ equals) :=
            List.dropWhile_cons_of_pos (decide_eq_true hc)
          rw [entry, entry, htake, hdrop]
        rw [hbehind, hkey', hentry, hkey]
        exact ⟨rfl, hvalue, hnext⟩

/-- The first piece, and what is behind it. -/
theorem exists_piece {p : Bytes} (h : p ≠ []) :
    ∃ piece tail, p = piece ++ tail ∧ ampersand ∉ piece ∧ (∀ c ∈ tail.head?, c = ampersand) ∧
      trim (p.splitOn ampersand) = piece :: trim (tail.tail.splitOn ampersand) := by
  by_cases hmem : ampersand ∈ p
  · rcases List.eq_append_cons_of_mem hmem with ⟨piece, tail, rfl, hpiece⟩
    refine ⟨piece, ampersand :: tail, rfl, hpiece, fun c hc => (Option.some.inj hc).symm, ?_⟩
    rw [List.splitOn_append_cons_self_of_not_mem hpiece,
      trim_cons (List.splitOn_ne_nil ampersand tail)]
    rfl
  · refine ⟨p, [], (List.append_nil p).symm, hmem, ?_, ?_⟩
    · rintro c ⟨⟩
    rw [List.splitOn_eq_singleton hmem, trim_singleton h]
    rfl

theorem queryLoop_eq (name : Bytes) (outSize : ℕ) (p : Bytes) :
    queryLoop name outSize p = (((trim (p.splitOn ampersand)).map entry).lookup name).map
      fun v => cstr (urlDecode (outSize - 1) v) := by
  induction hn : p.length using Nat.strongRecOn generalizing p with
  | ind n ih =>
      rw [queryLoop]
      by_cases hp : p = []
      · rw [dif_pos hp, hp]
        rfl
      · have hless := skip_behindValue_lt hp
        rcases exists_piece hp with ⟨piece, tail, rfl, hpiece, htail, hsplit⟩
        rcases loop_piece hpiece htail with ⟨hkey, hvalue, hnext⟩
        have hnone : cstr (urlDecode (outSize - 1) []) = [] := by
          cases outSize - 1 <;> rfl
        have hout : (valueAt (behindKey (piece ++ tail))).elim []
            (fun v => cstr (urlDecode (outSize - 1) v)) =
              cstr (urlDecode (outSize - 1) (entry piece).2) := by
          rw [← hvalue]
          cases valueAt (behindKey (piece ++ tail)) with
          | none => exact hnone.symm
          | some v => rfl
        rw [dif_neg hp, hsplit, List.map_cons, Answers.lookup_cons, hkey, hout,
          ih _ (hn ▸ hless) _ rfl, hnext]
        by_cases hname : (entry piece).1 = name
        · rw [if_pos hname, if_pos hname.symm]
          rfl
        · rw [if_neg hname, if_neg (Ne.symm hname)]

/-! ## Decoding twice -/

theorem escape_length {s rest : Bytes} {b : UInt8} (h : escape s = some (b, rest)) :
    rest.length + 3 = s.length := by
  rcases s with _ | ⟨c, _ | ⟨d, _ | ⟨e, s⟩⟩⟩
  · cases h
  · cases h
  · cases h
  · rw [escape] at h
    split at h
    · rcases Option.bind_eq_some_iff.1 h with ⟨hi, -, h⟩
      rcases Option.map_eq_some_iff.1 h with ⟨lo, -, h⟩
      cases h
      rfl
    · cases h

theorem urlDecode_length_le (room : ℕ) (s : Bytes) : (urlDecode room s).length ≤ s.length := by
  induction room generalizing s with
  | zero => exact Nat.zero_le _
  | succ room ih =>
      rcases s with _ | ⟨c, s⟩
      · exact Nat.le_refl _
      · rw [urlDecode]
        split
        · next b rest hescape =>
            have hlength := escape_length hescape
            have hrest := ih rest
            rw [List.length_cons]
            omega
        · rw [List.length_cons, List.length_cons]
          exact Nat.succ_le_succ (ih s)

/-- All of it decoded. -/
def decodeAll (s : Bytes) : Bytes := urlDecode s.length s

/-- With room for all of it, how much room there is makes no difference. -/
theorem urlDecode_of_le {room : ℕ} {s : Bytes} (h : s.length ≤ room) :
    urlDecode room s = decodeAll s := by
  induction hn : s.length using Nat.strongRecOn generalizing s room with
  | ind n ih =>
      rcases s with _ | ⟨c, s⟩
      · cases room <;> rfl
      · rw [List.length_cons] at h hn
        rcases room with _ | room
        · cases h
        · have hle := Nat.le_of_succ_le_succ h
          rw [decodeAll, List.length_cons, urlDecode, urlDecode]
          cases hescape : escape (c :: s) with
          | none =>
              dsimp only
              rw [ih s.length (by omega) hle rfl, decodeAll]
          | some e =>
              have hlength := escape_length hescape
              rw [List.length_cons] at hlength
              dsimp only
              rw [ih e.2.length (by omega) (by omega) rfl, ih e.2.length (by omega) (by omega) rfl]

theorem decodeAll_escape {s rest : Bytes} {b : UInt8} (h : escape s = some (b, rest)) :
    decodeAll s = b :: decodeAll rest := by
  rcases s with _ | ⟨c, s⟩
  · cases h
  · have hlength := escape_length h
    rw [List.length_cons] at hlength
    rw [decodeAll, List.length_cons, urlDecode, h]
    dsimp only
    rw [urlDecode_of_le (by omega)]

theorem decodeAll_cons {c : UInt8} {s : Bytes} (h : escape (c :: s) = none) :
    decodeAll (c :: s) = (if c = plus then space else c) :: decodeAll s := by
  rw [decodeAll, List.length_cons, urlDecode, h]
  rfl

theorem urlDecode_eq_take (room : ℕ) (s : Bytes) : urlDecode room s = (decodeAll s).take room := by
  induction room generalizing s with
  | zero => rfl
  | succ room ih =>
      rcases s with _ | ⟨c, s⟩
      · rfl
      · rw [urlDecode]
        cases hescape : escape (c :: s) with
        | none => rw [decodeAll_cons hescape, List.take_succ_cons, ih]
        | some e =>
            rw [decodeAll_escape hescape, List.take_succ_cons, ← ih]

theorem cstr_take (room : ℕ) (s : Bytes) : cstr (s.take room) = (cstr s).take room := by
  induction s generalizing room with
  | nil => rw [List.take_nil, cstr, List.takeWhile_nil, List.take_nil]
  | cons c s ih =>
      rcases room with _ | room
      · rfl
      · rw [List.take_succ_cons]
        by_cases hc : c = 0
        · have hstop : ∀ t, cstr (c :: t) = [] := fun t => List.takeWhile_cons_of_neg (by simp [hc])
          rw [hstop, hstop, List.take_nil]
        · have hgo : ∀ t, cstr (c :: t) = c :: cstr t := fun t =>
            List.takeWhile_cons_of_pos (decide_eq_true hc)
          rw [hgo, hgo, List.take_succ_cons, ih]

theorem decodeAll_eq_self_iff {s : Bytes} :
    decodeAll s = s ↔ plus ∉ s ∧ ∀ t, t <:+ s → escape t = none := by
  induction s with
  | nil =>
      refine iff_of_true rfl ⟨List.not_mem_nil, fun t ht => ?_⟩
      rw [List.suffix_nil.1 ht]
      rfl
  | cons c s ih =>
      cases hescape : escape (c :: s) with
      | some e =>
          refine iff_of_false (fun heq => ?_) fun h => ?_
          · have hlength := congrArg List.length heq
            have hle := urlDecode_length_le e.2.length e.2
            have hrest := escape_length hescape
            rw [decodeAll_escape hescape, List.length_cons, decodeAll] at hlength
            omega
          · have hnone := h.2 _ (List.suffix_refl _)
            rw [hescape] at hnone
            cases hnone
      | none =>
          rw [decodeAll_cons hescape, List.cons.injEq, ih, List.mem_cons, not_or]
          have hfirst : (if c = plus then space else c) = c ↔ plus ≠ c := by
            by_cases hc : c = plus
            · rw [if_pos hc, hc]
              decide
            · rw [if_neg hc]
              exact iff_of_true rfl (Ne.symm hc)
          rw [hfirst, and_assoc]
          refine and_congr_right fun _ => and_congr_right fun _ =>
            ⟨fun h t ht => ?_, fun h t ht => ?_⟩
          · rcases List.suffix_cons_iff.1 ht with rfl | ht
            · exact hescape
            · exact h t ht
          · exact h t (ht.trans (List.suffix_cons c s))

/-- What a lookup makes of a value. -/
def decodeAgain (value : Bytes) : Bytes := cstr (decodeAll value)

/-- A value that is not cut, and that decoding leaves as it is. -/
structure Unmarked (value : Bytes) : Prop where
  noAmpersand : ampersand ∉ value
  noPlus : plus ∉ value
  noEscape : ∀ s, s <:+ value → escape s = none

/-- The value is what a lookup makes of the part of it in front of the first `&`. -/
theorem decodeAgain_eq_iff {value : Bytes} (hnul : 0 ∉ value) :
    decodeAgain (value.takeWhile (· ≠ ampersand)) = value ↔ Unmarked value := by
  constructor
  · intro h
    have hcut := List.takeWhile_prefix (l := value) fun c => decide (c ≠ ampersand)
    have hcstr := List.takeWhile_prefix (l := decodeAll (value.takeWhile (· ≠ ampersand)))
      fun c => decide (c ≠ 0)
    have hdecode : (decodeAll (value.takeWhile (· ≠ ampersand))).length ≤
        (value.takeWhile (· ≠ ampersand)).length := urlDecode_length_le _ _
    rw [← cstr, ← decodeAgain, h] at hcstr
    have hwhole : value.takeWhile (· ≠ ampersand) = value :=
      hcut.eq_of_length (Nat.le_antisymm hcut.length_le (hcstr.length_le.trans hdecode))
    rw [hwhole] at hcstr hdecode
    have hself := (hcstr.eq_of_length (Nat.le_antisymm hcstr.length_le hdecode)).symm
    have hplain := decodeAll_eq_self_iff.1 hself
    refine ⟨fun hmem => ?_, hplain.1, hplain.2⟩
    exact of_decide_eq_true (List.takeWhile_eq_self_iff.1 hwhole _ hmem) rfl
  · intro h
    have hwhole : value.takeWhile (· ≠ ampersand) = value :=
      List.takeWhile_eq_self_iff.2 fun c hc => decide_eq_true fun heq => h.noAmpersand (heq ▸ hc)
    rw [hwhole, decodeAgain, decodeAll_eq_self_iff.2 ⟨h.noPlus, h.noEscape⟩, cstr_eq_self hnul]

/-! ## The answers of a query -/

/-- What a piece answers. -/
def answer (piece : Bytes) : Bytes × Bytes := ((entry piece).1, decodeAgain (entry piece).2)

def answers (pairs : List (Bytes × Bytes)) : List (Bytes × Bytes) :=
  (trim ((queryText pairs).splitOn ampersand)).map answer

theorem queryParam_eq (req : LcnHttpRequest) (hquery : req.query = queryText pairs) (name : Bytes)
    {outSize : ℕ} (h : 0 < outSize) : lcnHttpdQueryParam req name outSize =
      ((answers pairs).lookup name).map (·.take (outSize - 1)) := by
  have hentry : answer = fun piece => ((entry piece).1, decodeAgain (entry piece).2) := rfl
  have hloop : queryLoop name outSize (queryText pairs) =
      ((answers pairs).lookup name).map (·.take (outSize - 1)) := by
    have hmap := Answers.lookup_map decodeAgain name
      ((trim ((queryText pairs).splitOn ampersand)).map entry)
    rw [List.map_map] at hmap
    have hanswers : (answers pairs).lookup name =
        (((trim ((queryText pairs).splitOn ampersand)).map entry).lookup name).map decodeAgain :=
      hmap
    rw [queryLoop_eq, hanswers, Option.map_map]
    refine congrArg (Option.map · _) (funext fun v => ?_)
    rw [urlDecode_eq_take, cstr_take]
    rfl
  rw [lcnHttpdQueryParam, if_neg (Nat.ne_of_gt h), hquery, hloop]
  split
  · next hnil =>
      rw [answers, hnil]
      rfl
  · rfl

/-- With room for it, a lookup gives the answer. -/
theorem queryParams_iff (req : LcnHttpRequest) (hquery : req.query = queryText pairs) :
    (∀ name outSize, 0 < outSize → (∀ v ∈ pairs.lookup name, v.length < outSize) →
      lcnHttpdQueryParam req name outSize = pairs.lookup name) ↔
      ∀ name, (answers pairs).lookup name = pairs.lookup name := by
  constructor
  · intro h name
    have hroom : ∃ outSize, 0 < outSize ∧
        (∀ v ∈ (answers pairs).lookup name, v.length ≤ outSize - 1) ∧
        ∀ v ∈ pairs.lookup name, v.length < outSize := by
      refine ⟨((answers pairs).lookup name).elim 0 List.length +
        (pairs.lookup name).elim 0 List.length + 1, Nat.succ_pos _, fun v hv => ?_, fun v hv => ?_⟩
      · rw [Option.mem_def.1 hv, Option.elim_some]
        omega
      · rw [Option.mem_def.1 hv, Option.elim_some]
        omega
    rcases hroom with ⟨outSize, hsize, hanswer, hvalue⟩
    rw [← h name outSize hsize hvalue, queryParam_eq req hquery name hsize]
    cases hlookup : (answers pairs).lookup name with
    | none => rfl
    | some v => rw [Option.map_some, List.take_of_length_le (hanswer v hlookup)]
  · intro h name outSize hsize hroom
    rw [queryParam_eq req hquery name hsize, h name]
    cases hlookup : pairs.lookup name with
    | none => rfl
    | some v =>
        have hlt := hroom v hlookup
        rw [Option.map_some, List.take_of_length_le (by omega)]

/-! ## Pieces and pairs -/

/-- The pieces that a value makes behind its first `&`; an empty one at the end of the query
is not read. -/
def further (rest : List (Bytes × Bytes)) (value : Bytes) : List Bytes :=
  if rest = [] then trim (value.splitOn ampersand).tail else (value.splitOn ampersand).tail

/-- A key that nothing cuts. -/
def Uncut (key : Bytes) : Prop := equals ∉ key ∧ ampersand ∉ key

theorem splitOn_pairText {key : Bytes} (h : Uncut key) (value : Bytes) :
    (pairText (key, value)).splitOn ampersand =
      (key ++ equals :: value.takeWhile (· ≠ ampersand)) :: (value.splitOn ampersand).tail := by
  have hown : ∀ s : Bytes, ampersand ∉ s → ampersand ∉ key ++ equals :: s := by
    intro s hs
    rw [List.mem_append, List.mem_cons]
    rintro (hmem | hmem | hmem)
    · exact h.2 hmem
    · exact absurd hmem (by decide)
    · exact hs hmem
  by_cases hmem : ampersand ∈ value
  · rcases List.eq_append_cons_of_mem hmem with ⟨piece, more, rfl, hpiece⟩
    have hspan := span_append (t := ampersand :: more) hpiece fun d hd => (Option.some.inj hd).symm
    rw [hspan.1, pairText, List.splitOn_append_cons_self_of_not_mem hpiece, List.tail_cons]
    have hsplit := List.splitOn_append_cons_self_of_not_mem (hown piece hpiece) more
    rwa [List.append_assoc] at hsplit
  · have hwhole : value.takeWhile (· ≠ ampersand) = value :=
      List.takeWhile_eq_self_iff.2 fun c hc => decide_eq_true fun heq => hmem (heq ▸ hc)
    rw [hwhole, pairText, List.splitOn_eq_singleton (hown value hmem),
      List.splitOn_eq_singleton hmem]
    rfl

theorem answer_own {key : Bytes} (h : Uncut key) (value : Bytes) :
    answer (key ++ equals :: value) = (key, decodeAgain value) := by
  have hspan := span_append (t := equals :: value) h.1 fun d hd => (Option.some.inj hd).symm
  rw [answer, entry, hspan.1, hspan.2]
  rfl

/-- The answers of a pair, and then those of the rest. -/
theorem answers_cons {key : Bytes} (h : Uncut key) (value : Bytes) (rest : List (Bytes × Bytes)) :
    answers ((key, value) :: rest) =
      (key, decodeAgain (value.takeWhile (· ≠ ampersand))) ::
        ((further rest value).map answer ++ answers rest) := by
  rw [answers, queryText, further]
  cases rest with
  | nil =>
      rw [List.map_singleton, List.intercalate_singleton, splitOn_pairText h, if_pos rfl]
      have hnil : answers [] = [] := rfl
      rw [hnil, List.append_nil, ← answer_own h, ← List.map_cons]
      refine congrArg (List.map answer) ?_
      by_cases htail : (value.splitOn ampersand).tail = []
      · rw [htail, trim_singleton (List.append_ne_nil_of_right_ne_nil _ (List.cons_ne_nil _ _))]
        rfl
      · exact trim_cons htail
  | cons p rest =>
      rw [if_neg (List.cons_ne_nil p rest), List.map_cons, List.map_cons, intercalate_cons_cons,
        List.splitOn_append_cons_self, ← List.map_cons, ← queryText,
        trim_append _ (List.splitOn_ne_nil _ _), List.map_append, splitOn_pairText h,
        List.map_cons, answer_own h]
      rfl

/-! ## The condition -/

/-- From the left: a value of a key that has not been met is unmarked, and what is cut off a
value has a name that has been met, or answers what the pairs do. -/
def Sound (spec : Bytes → Option Bytes) : List Bytes → List (Bytes × Bytes) → Prop
  | _, [] => True
  | seen, (key, value) :: rest =>
      (key ∈ seen ∨ Unmarked value) ∧
        Answers.Scan spec (key :: seen) ((further rest value).map answer) ∧
          Sound spec (((further rest value).map answer).map Prod.fst ++ key :: seen) rest

theorem scan_answers {spec : Bytes → Option Bytes} {seen : List Bytes}
    (huncut : ∀ p ∈ pairs, Uncut p.1) (hnul : ∀ p ∈ pairs, 0 ∉ p.2)
    (hspec : ∀ y, y ∉ seen → spec y = pairs.lookup y) :
    Answers.Scan spec seen (answers pairs) ↔ Sound spec seen pairs := by
  induction pairs generalizing seen with
  | nil => exact Iff.rfl
  | cons p rest ih =>
      rcases p with ⟨key, value⟩
      rw [answers_cons (huncut _ List.mem_cons_self), Answers.Scan, Answers.scan_append, Sound]
      refine and_congr ?_ (and_congr_right fun _ => ih ?_ ?_ ?_)
      · by_cases hseen : key ∈ seen
        · exact iff_of_true (.inl hseen) (.inl hseen)
        · rw [or_iff_right hseen, or_iff_right hseen, hspec key hseen, Answers.lookup_cons,
            if_pos rfl, Option.some.injEq, eq_comm]
          exact decodeAgain_eq_iff (hnul _ List.mem_cons_self)
      · exact fun q hq => huncut q (List.mem_cons_of_mem _ hq)
      · exact fun q hq => hnul q (List.mem_cons_of_mem _ hq)
      · intro y hy
        rw [List.mem_append, List.mem_cons, not_or, not_or] at hy
        rw [hspec y hy.2.2, Answers.lookup_cons, if_neg hy.2.1]

theorem key_mem_answers (huncut : ∀ p ∈ pairs, Uncut p.1) {y : Bytes}
    (h : y ∈ pairs.map Prod.fst) : y ∈ (answers pairs).map Prod.fst := by
  induction pairs with
  | nil => cases h
  | cons p rest ih =>
      rcases p with ⟨key, value⟩
      rw [answers_cons (huncut _ List.mem_cons_self), List.map_cons, List.map_append,
        List.mem_cons, List.mem_append]
      rcases List.mem_cons.1 h with rfl | h
      · exact .inl rfl
      · exact .inr (.inr (ih (fun q hq => huncut q (List.mem_cons_of_mem _ hq)) h))

theorem not_mem_of_mem_splitOn {c : UInt8} {s piece : Bytes} (h : piece ∈ s.splitOn c) :
    c ∉ piece := by
  induction s generalizing piece with
  | nil =>
      rw [List.splitOn_nil, List.mem_singleton] at h
      rw [h]
      exact List.not_mem_nil
  | cons d s ih =>
      rw [List.splitOn_cons_eq_if_modifyHead] at h
      split at h
      · rcases List.mem_cons.1 h with rfl | h
        · exact List.not_mem_nil
        · exact ih h
      · next hd =>
          rcases hsplit : s.splitOn c with _ | ⟨first, rest⟩
          · exact absurd hsplit (List.splitOn_ne_nil c s)
          · rw [hsplit, List.modifyHead_cons] at h
            rcases List.mem_cons.1 h with rfl | h
            · rw [List.mem_cons, not_or]
              exact ⟨fun heq => hd (beq_iff_eq.2 heq.symm),
                ih (hsplit ▸ List.mem_cons_self)⟩
            · exact ih (hsplit ▸ List.mem_cons_of_mem first h)

theorem trim_subset {pieces : List Bytes} : trim pieces ⊆ pieces := by
  rw [trim]
  split
  · exact List.dropLast_subset pieces
  · exact List.Subset.refl pieces

/-- No answer has a name with `=` or `&`. -/
theorem uncut_of_mem_answers {y : Bytes} (h : y ∈ (answers pairs).map Prod.fst) : Uncut y := by
  rcases List.mem_map.1 h with ⟨e, he, rfl⟩
  rcases List.mem_map.1 he with ⟨piece, hpiece, rfl⟩
  have hampersand := not_mem_of_mem_splitOn (trim_subset hpiece)
  refine ⟨fun hmem => ?_, fun hmem => hampersand ((List.takeWhile_subset _) hmem)⟩
  exact of_decide_eq_true (List.mem_takeWhile_imp (p := fun c => decide (c ≠ equals)) hmem) rfl

theorem answers_eq_iff (hnul : ∀ p ∈ pairs, 0 ∉ p.2) :
    (∀ name, (answers pairs).lookup name = pairs.lookup name) ↔
      (∀ p ∈ pairs, Uncut p.1) ∧ Sound (fun y => pairs.lookup y) [] pairs := by
  rw [Answers.lookup_eq_iff]
  constructor
  · rintro ⟨hnames, hscan⟩
    have huncut : ∀ p ∈ pairs, Uncut p.1 := by
      intro p hp
      refine uncut_of_mem_answers (hnames p.1 ?_)
      rw [Ne, Answers.lookup_eq_none_iff, not_not]
      exact List.mem_map_of_mem hp
    exact ⟨huncut, (scan_answers huncut hnul fun _ _ => rfl).1 hscan⟩
  · rintro ⟨huncut, hsound⟩
    refine ⟨fun y hy => ?_, (scan_answers huncut hnul fun _ _ => rfl).2 hsound⟩
    rw [Ne, Answers.lookup_eq_none_iff, not_not] at hy
    exact key_mem_answers huncut hy

theorem safe_iff (h : Written method segs pairs) :
    (∀ s ∈ segs, ¬ [dot, dot] <:+ s) ↔ ¬ Dotted (pathText segs) := by
  rw [dotted_pathText fun s hs => (h.segments s hs).2.2.1]
  simp only [not_exists, not_and]

theorem ReadBack.sound {rest : Bytes} (h : Written method segs pairs)
    (hread : ReadBack method segs pairs rest) :
    (∀ s ∈ segs, ¬ [dot, dot] <:+ s) ∧ (∀ p ∈ pairs, Uncut p.1) ∧
      Sound (fun y => pairs.lookup y) [] pairs := by
  rcases parseTarget_written h rest with ⟨body, htarget⟩
  rcases hread with ⟨req, hparse, -, hlookup⟩
  rcases parseRequest_eq_some_iff.1 hparse with ⟨hreq, hsafe⟩
  cases htarget.symm.trans hreq
  rw [safe_iff h, ← answers_eq_iff fun p hp => (h.parameters p hp).2.2]
  exact ⟨hsafe, (queryParams_iff _ rfl).1 hlookup⟩

/-- A request is read as it was written if and only if no segment ends with two dots, no key
has `=` or `&`, and the values are sound. -/
theorem readBack_iff (method : Bytes) (segs : List Bytes) (pairs : List (Bytes × Bytes))
    (rest : Bytes) (h : Written method segs pairs) :
    ReadBack method segs pairs rest ↔
      (∀ s ∈ segs, ¬ [dot, dot] <:+ s) ∧ (∀ p ∈ pairs, Uncut p.1) ∧
        Sound (fun y => pairs.lookup y) [] pairs := by
  refine ⟨fun hread => hread.sound h, fun hsound => ?_⟩
  rw [safe_iff h, ← answers_eq_iff fun p hp => (h.parameters p hp).2.2] at hsound
  rcases parseTarget_written h rest with ⟨body, htarget⟩
  exact ⟨_, parseRequest_eq_some_iff.2 ⟨htarget, hsound.1⟩, rfl,
    (queryParams_iff _ rfl).2 hsound.2⟩

/-- `GET /a?k=v`. -/
theorem written_letter : Written (ascii "GET") [ascii "a"] [(ascii "k", ascii "v")] where
  methodRoom := by decide
  method := by decide
  segments := by decide
  parameters := by decide
  pathRoom := by decide
  queryRoom := by decide

theorem readBack_letter : ReadBack (ascii "GET") [ascii "a"] [(ascii "k", ascii "v")] [] := by
  have hunmarked : Unmarked (ascii "v") := by
    refine ⟨by decide, by decide, fun s hs => ?_⟩
    rcases List.suffix_cons_iff.1 hs with rfl | hs
    · rfl
    · rw [List.suffix_nil.1 hs]
      rfl
  refine (readBack_iff _ _ _ _ written_letter).2 ⟨by decide, ?_, .inr hunmarked, ?_, ?_⟩
  · intro p hp
    rw [List.mem_singleton.1 hp]
    exact ⟨by decide, by decide⟩
  · exact trivial
  · exact trivial

/-- The value `1+1`, with its plus sign escaped, is read as `1 1`. -/
theorem not_readBack : ¬ ∀ (method : Bytes) (segs : List Bytes) (pairs : List (Bytes × Bytes))
    (rest : Bytes), Written method segs pairs → ReadBack method segs pairs rest := by
  intro h
  have hwritten : Written (ascii "GET") [ascii "a"] [(ascii "k", ascii "1+1")] := by
    refine ⟨by decide, by decide, by decide, by decide, by decide, by decide⟩
  have hsound := (h _ _ _ [] hwritten).sound hwritten
  rcases hsound.2.2.1 with hseen | hunmarked
  · cases hseen
  · exact hunmarked.noPlus (by decide)

end Limceron.Httpd
