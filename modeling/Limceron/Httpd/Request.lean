/-
# `Limceron.Httpd.Request` — reading a request

`runtime/httpd.c`.  The request line gives a method, a path and a query; path and query are
decoded at once, up to the room of their fields.  A path with two dots at the end of a
segment is refused (`pathIsSafe_iff`).

A field is what a C string reads of it: up to the first zero byte.
-/
import Mathlib.Data.List.Basic
import Mathlib.Data.List.Infix
import Mathlib.Data.List.TakeWhile
import Mathlib.Data.Nat.Notation

namespace Limceron.Httpd

abbrev Bytes := List UInt8

/-! ## Bytes -/

abbrev lf : UInt8 := 0x0A
abbrev cr : UInt8 := 0x0D
abbrev space : UInt8 := 0x20
abbrev percent : UInt8 := 0x25
abbrev ampersand : UInt8 := 0x26
abbrev plus : UInt8 := 0x2B
abbrev dot : UInt8 := 0x2E
abbrev slash : UInt8 := 0x2F
abbrev colon : UInt8 := 0x3A
abbrev equals : UInt8 := 0x3D
abbrev question : UInt8 := 0x3F

/-- The bytes of a literal. -/
def ascii (s : String) : Bytes := s.toList.map fun c => c.toNat.toUInt8

/-- What a C string reads. -/
def cstr (s : Bytes) : Bytes := s.takeWhile (· ≠ 0)

/-- What stands before the first `c`, and what from there on. -/
theorem span_append {c : UInt8} {s t : Bytes} (hs : c ∉ s) (ht : ∀ d ∈ t.head?, d = c) :
    (s ++ t).takeWhile (· ≠ c) = s ∧ (s ++ t).dropWhile (· ≠ c) = t := by
  have hall : ∀ d ∈ s, decide (d ≠ c) = true := fun d hd =>
    decide_eq_true fun heq => hs (heq ▸ hd)
  rw [List.takeWhile_append_of_pos hall, List.dropWhile_append_of_pos hall]
  rcases t with _ | ⟨d, t⟩
  · exact ⟨List.append_nil s, rfl⟩
  · have hstop : ¬ decide (d ≠ c) = true := fun hne => of_decide_eq_true hne (ht d rfl)
    have htake : (d :: t).takeWhile (· ≠ c) = [] := List.takeWhile_cons_of_neg hstop
    have hdrop : (d :: t).dropWhile (· ≠ c) = d :: t := List.dropWhile_cons_of_neg hstop
    rw [htake, hdrop]
    exact ⟨List.append_nil s, rfl⟩

/-- `memchr`: what stands before the first `c`, and what behind it. -/
def cutAt (c : UInt8) (s : Bytes) : Option (Bytes × Bytes) :=
  if c ∈ s then some (s.takeWhile (· ≠ c), (s.dropWhile (· ≠ c)).tail) else none

theorem cutAt_append {c : UInt8} {s : Bytes} (h : c ∉ s) (t : Bytes) :
    cutAt c (s ++ c :: t) = some (s, t) := by
  have hspan := span_append (t := c :: t) h fun d hd => (Option.some.inj hd).symm
  rw [cutAt, if_pos (List.mem_append_right s List.mem_cons_self), hspan.1, hspan.2]
  rfl

/-! ## Decoding -/

def hexDigit (c : UInt8) : Option UInt8 :=
  if 0x30 ≤ c ∧ c ≤ 0x39 then some (c - 0x30)
  else if 0x61 ≤ c ∧ c ≤ 0x66 then some (c - 0x61 + 10)
  else if 0x41 ≤ c ∧ c ≤ 0x46 then some (c - 0x41 + 10)
  else none

/-- The byte that `%` and two digits stand for, and what is behind them. -/
def escape : Bytes → Option (UInt8 × Bytes)
  | c :: h :: l :: s =>
      if c = percent then
        (hexDigit h).bind fun hi => (hexDigit l).map fun lo => (hi <<< 4 ||| lo, s)
      else none
  | _ => none

/-- `url_decode` into a field with room for so many bytes. -/
def urlDecode : ℕ → Bytes → Bytes
  | 0, _ => []
  | _ + 1, [] => []
  | room + 1, c :: s =>
      match escape (c :: s) with
      | some (b, rest) => b :: urlDecode room rest
      | none => (if c = plus then space else c) :: urlDecode room s

/-! ## The path -/

/-- Two dots, and then a slash or the end. -/
def dotsAt (p : Bytes) : Bool := p.take 2 = [dot, dot] ∧ (p.drop 2).head?.all (· = slash)

def pathIsSafe : Bytes → Bool
  | [] => true
  | c :: p => !dotsAt (c :: p) && pathIsSafe p

/-- Without a slash at the end, but for the root. -/
def stripSlash (path : Bytes) : Bytes :=
  if 1 < path.length ∧ path.getLast? = some slash then path.dropLast else path

/-! ## The request -/

structure LcnHttpRequest where
  method : Bytes
  path : Bytes
  query : Bytes
  body : Bytes
  deriving DecidableEq

/-- The room of the fields `method`, `path` and `query`, and `body`. -/
def methodRoom : ℕ := 7

def fieldRoom : ℕ := 511

def bodyRoom : ℕ := 4095

/-- The method and the target of the request line. -/
def requestLine (raw : Bytes) : Option (Bytes × Bytes) :=
  let line := raw.takeWhile fun c => c ≠ cr ∧ c ≠ lf
  (cutAt space line).bind fun (method, rest) =>
    if methodRoom < method.length then none
    else (cutAt space rest).map fun (uri, _) => (method, uri)

/-- What stands before the first `?`, and what behind it. -/
def splitUri (uri : Bytes) : Bytes × Bytes := (cutAt question uri).getD (uri, [])

/-- Behind the first empty line. -/
def bodyOf : Bytes → Bytes
  | [] => []
  | c :: s => if [cr, lf, cr, lf] <+: c :: s then s.drop 3 else bodyOf s

/-- `parse_request` as far as the path is normal. -/
def parseTarget (raw : Bytes) : Option LcnHttpRequest :=
  (requestLine raw).bind fun (method, uri) =>
    let path := cstr (urlDecode fieldRoom (splitUri uri).1)
    if path.head? = some slash then
      some { method := cstr method
             path := stripSlash path
             query := cstr (urlDecode fieldRoom (splitUri uri).2)
             body := (bodyOf raw).take bodyRoom }
    else none

def parseRequest (raw : Bytes) : Option LcnHttpRequest :=
  (parseTarget raw).bind fun req => if pathIsSafe req.path then some req else none

/-! ## Segments -/

/-- The first segment. -/
theorem exists_splitOn (p : Bytes) :
    ∃ rest, p.splitOn slash = p.takeWhile (· ≠ slash) :: rest := by
  induction p with
  | nil => exact ⟨[], List.splitOn_nil slash⟩
  | cons c p ih =>
      rcases ih with ⟨rest, hrest⟩
      rw [List.splitOn_cons_eq_if_modifyHead, List.takeWhile_cons]
      by_cases hc : c = slash
      · rw [hc, if_pos (beq_self_eq_true slash)]
        exact ⟨p.splitOn slash, rfl⟩
      · rw [if_neg (mt eq_of_beq hc), if_pos (decide_eq_true hc), hrest]
        exact ⟨rest, rfl⟩

theorem dotsAt_cons {c : UInt8} {p : Bytes} :
    dotsAt (c :: p) = true ↔ c :: p.takeWhile (· ≠ slash) = [dot, dot] := by
  rw [dotsAt, decide_eq_true_iff]
  rcases p with _ | ⟨d, p⟩
  · exact iff_of_false (fun h => nomatch h.1) (fun h => nomatch h)
  · rw [List.takeWhile_cons]
    by_cases hd : d = dot
    · subst hd
      have hdot : ¬ dot = slash := by decide
      rcases p with _ | ⟨e, p⟩
      · simp [hdot]
      · by_cases he : e = slash
        · simp [he, hdot]
        · simp [he, hdot]
    · refine iff_of_false (fun h => hd ?_) (fun h => hd ?_)
      · injection h.1 with _ h
        injection h
      · split at h
        · injection h with _ h
          injection h
        · cases h

/-- A path is safe if no segment ends with two dots. -/
theorem pathIsSafe_iff {p : Bytes} :
    pathIsSafe p = true ↔ ∀ name ∈ p.splitOn slash, ¬ [dot, dot] <:+ name := by
  induction p with
  | nil =>
      rw [List.splitOn_nil]
      exact iff_of_true rfl fun name hname => by
        cases List.mem_singleton.1 hname
        decide
  | cons c p ih =>
      rcases exists_splitOn p with ⟨rest, hrest⟩
      rw [pathIsSafe, Bool.and_eq_true, ih, Bool.not_eq_true', ← Bool.not_eq_true, dotsAt_cons,
        List.splitOn_cons_eq_if_modifyHead, hrest]
      by_cases hc : c = slash
      · have hne : ¬ c :: p.takeWhile (· ≠ slash) = [dot, dot] := fun h => by
          rw [hc] at h
          cases h
        rw [if_pos (beq_iff_eq.2 hc), List.forall_mem_cons (a := [])]
        exact ⟨fun h => ⟨by decide, h.2⟩, fun h => ⟨hne, h.2⟩⟩
      · rw [if_neg (mt eq_of_beq hc), List.modifyHead_cons, List.forall_mem_cons,
          List.forall_mem_cons, List.suffix_cons_iff, not_or, and_assoc, eq_comm (b := [dot, dot])]

end Limceron.Httpd
