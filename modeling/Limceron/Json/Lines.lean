/-
# `Limceron.Json.Lines` — JSON on a line

What a text means does not change when CR is dropped from it: a CR can only be white
space.  And a text has no NUL, so it is a C string.

Everything but white space is `Printable`, and white space stays white space.
-/
import Limceron.Json.RoundTrip

namespace Limceron.Json

/-- Bytes that are no control characters. -/
def Printable (u : List UInt8) : Prop := ∀ c ∈ u, 0x20 ≤ c

/-- A text without its CRs. -/
def dropCR (s : List UInt8) : List UInt8 := s.filter (· ≠ 0x0D)

theorem dropCR_append (u v : List UInt8) : dropCR (u ++ v) = dropCR u ++ dropCR v :=
  List.filter_append u v

theorem dropCR_cons {c : UInt8} (h : c ≠ 0x0D) (u : List UInt8) :
    dropCR (c :: u) = c :: dropCR u := by
  rw [dropCR, List.filter_cons_of_pos (by simpa using h), dropCR]

/-! ## Printable texts -/

theorem printable_nil : Printable [] := by
  rintro _ ⟨⟩

theorem Printable.append {u v : List UInt8} (hu : Printable u) (hv : Printable v) :
    Printable (u ++ v) := List.forall_mem_append.2 ⟨hu, hv⟩

theorem Printable.cons {c : UInt8} {u : List UInt8} (hc : 0x20 ≤ c) (hu : Printable u) :
    Printable (c :: u) := List.forall_mem_cons.2 ⟨hc, hu⟩

theorem Printable.dropCR {u : List UInt8} (h : Printable u) : dropCR u = u := by
  rw [Json.dropCR, List.filter_eq_self]
  intro c hc
  rw [decide_eq_true_eq]
  rintro rfl
  exact absurd (h _ hc) (by decide)

theorem Printable.no_nul {u : List UInt8} (h : Printable u) : 0 ∉ u :=
  fun hc => absurd (h _ hc) (by decide)

theorem Digits.printable {ds : List UInt8} (h : Digits ds) : Printable ds := by
  intro c hc
  have hdigit := h c hc
  simp only [isDigit, Bool.and_eq_true, decide_eq_true_eq] at hdigit
  exact UInt8.le_trans (by decide) hdigit.1

theorem IntegerText.printable {u : List UInt8} (h : IntegerText u) : Printable u := by
  cases h with
  | zero => exact .cons (by decide) printable_nil
  | digits h1 _ hds => exact .cons (UInt8.le_trans (by decide) h1) hds.printable

theorem FractionText.printable {u : List UInt8} (h : FractionText u) : Printable u := by
  cases h with
  | absent => exact printable_nil
  | digits _ hds => exact .cons (by decide) hds.printable

theorem SignText.printable {u : List UInt8} (h : SignText u) : Printable u := by
  cases h with
  | absent => exact printable_nil
  | plus => exact .cons (by decide) printable_nil
  | minus => exact .cons (by decide) printable_nil

theorem ExponentText.printable {u : List UInt8} (h : ExponentText u) : Printable u := by
  cases h with
  | absent => exact printable_nil
  | digits he hsign _ hds =>
    refine .append (.cons ?_ hsign.printable) hds.printable
    rcases he with rfl | rfl <;> decide

theorem MinusText.printable {u : List UInt8} (h : MinusText u) : Printable u := by
  cases h with
  | absent => exact printable_nil
  | minus => exact .cons (by decide) printable_nil

theorem NumberText.printable {u : List UInt8} (h : NumberText u) : Printable u := by
  obtain ⟨hminus, hint, hfraction, hexponent⟩ := h
  exact ((hminus.printable.append hint.printable).append hfraction.printable).append
    hexponent.printable

theorem HexDigit.printable {c : UInt8} {n : ℕ} (h : HexDigit c n) : 0x20 ≤ c := by
  cases h with
  | digit hn => interval_cases n <;> decide
  | upper hn => rename_i k; interval_cases k <;> decide
  | lower hn => rename_i k; interval_cases k <;> decide

theorem CodeUnit.printable {cp : ℕ} {u : List UInt8} (h : CodeUnit cp u) : Printable u := by
  obtain ⟨ha, hb, hc, hd⟩ := h
  exact .cons ha.printable (.cons hb.printable (.cons hc.printable (.cons hd.printable
    printable_nil)))

theorem PieceText.printable {p : Piece} {u : List UInt8} (h : PieceText p u) : Printable u := by
  cases h with
  | raw hb _ _ => exact .cons hb printable_nil
  | short he =>
    refine .cons (by decide) (.cons ?_ printable_nil)
    cases he <;> decide
  | code hu _ => exact .cons (by decide) (.cons (by decide) hu.printable)
  | pair hu _ hv _ =>
    exact .append (.cons (by decide) (.cons (by decide) hu.printable))
      (.cons (by decide) (.cons (by decide) hv.printable))

theorem Chars.printable {ps : List Piece} {u : List UInt8} (h : Chars ps u) : Printable u := by
  induction h with
  | nil => exact printable_nil
  | cons hp _ ih => exact hp.printable.append ih

/-! ## Texts without CR -/

theorem Space.dropCR {w : List UInt8} (h : Space w) : Space (dropCR w) :=
  fun c hc => h c (List.mem_of_mem_filter hc)

theorem Space.no_nul {w : List UInt8} (h : Space w) : 0 ∉ w :=
  fun hc => absurd (h 0 hc) (by decide)

mutual

theorem ValueText.dropCR {t : Tree} {u : List UInt8} (h : ValueText t u) :
    ValueText t (dropCR u) := by
  match h with
  | .null => exact .null
  | .yes => exact .yes
  | .no => exact .no
  | .number hu => rw [hu.printable.dropCR]; exact .number hu
  | .string hu =>
    rw [(Printable.append (.cons (by decide) hu.printable)
      (.cons (by decide) printable_nil)).dropCR]
    exact .string hu
  | .emptyArray hw =>
    rw [List.cons_append, dropCR_cons (by decide), dropCR_append]
    exact .emptyArray hw.dropCR
  | .array hu =>
    rw [List.cons_append, dropCR_cons (by decide), dropCR_append]
    exact .array hu.dropCR
  | .emptyObject hw =>
    rw [List.cons_append, dropCR_cons (by decide), dropCR_append]
    exact .emptyObject hw.dropCR
  | .object hu =>
    rw [List.cons_append, dropCR_cons (by decide), dropCR_append]
    exact .object hu.dropCR

theorem ItemsText.dropCR {ts : List Tree} {u : List UInt8} (h : ItemsText ts u) :
    ItemsText ts (dropCR u) := by
  match h with
  | .one hw₁ hu hw₂ =>
    rw [dropCR_append, dropCR_append]
    exact .one hw₁.dropCR hu.dropCR hw₂.dropCR
  | .more hw₁ hu hw₂ hv =>
    rw [dropCR_append, dropCR_append, dropCR_append, dropCR_cons (by decide)]
    exact .more hw₁.dropCR hu.dropCR hw₂.dropCR hv.dropCR

theorem MemberText.dropCR {m : List Piece × Tree} {u : List UInt8} (h : MemberText m u) :
    MemberText m (dropCR u) := by
  match h with
  | .mk hw₁ hk hw₂ hw₃ hu hw₄ =>
    have hkey := hk.printable.dropCR
    simp only [dropCR_append, dropCR_cons (show (0x22 : UInt8) ≠ 0x0D by decide),
      dropCR_cons (show (0x3A : UInt8) ≠ 0x0D by decide), hkey]
    exact .mk hw₁.dropCR hk hw₂.dropCR hw₃.dropCR hu.dropCR hw₄.dropCR

theorem MembersText.dropCR {ms : List (List Piece × Tree)} {u : List UInt8}
    (h : MembersText ms u) : MembersText ms (dropCR u) := by
  match h with
  | .one hm => exact .one hm.dropCR
  | .more hm hms =>
    rw [dropCR_append, dropCR_cons (by decide)]
    exact .more hm.dropCR hms.dropCR

end

/-! ## Texts have no NUL -/

theorem notMem_append {u v : List UInt8} (hu : 0 ∉ u) (hv : 0 ∉ v) : 0 ∉ u ++ v :=
  fun h => (List.mem_append.1 h).elim hu hv

theorem notMem_cons {c : UInt8} {u : List UInt8} (hc : c ≠ 0) (hu : 0 ∉ u) : 0 ∉ c :: u :=
  fun h => (List.mem_cons.1 h).elim (fun h => hc h.symm) hu

mutual

theorem ValueText.no_nul {t : Tree} {u : List UInt8} (h : ValueText t u) : 0 ∉ u := by
  match h with
  | .null => decide
  | .yes => decide
  | .no => decide
  | .number hu => exact hu.printable.no_nul
  | .string hu =>
    exact notMem_append (notMem_cons (by decide) hu.printable.no_nul) (by decide)
  | .emptyArray hw => exact notMem_append (notMem_cons (by decide) hw.no_nul) (by decide)
  | .array hu => exact notMem_append (notMem_cons (by decide) hu.no_nul) (by decide)
  | .emptyObject hw => exact notMem_append (notMem_cons (by decide) hw.no_nul) (by decide)
  | .object hu => exact notMem_append (notMem_cons (by decide) hu.no_nul) (by decide)

theorem ItemsText.no_nul {ts : List Tree} {u : List UInt8} (h : ItemsText ts u) : 0 ∉ u := by
  match h with
  | .one hw₁ hu hw₂ => exact notMem_append (notMem_append hw₁.no_nul hu.no_nul) hw₂.no_nul
  | .more hw₁ hu hw₂ hv =>
    exact notMem_append (notMem_append (notMem_append hw₁.no_nul hu.no_nul) hw₂.no_nul)
      (notMem_cons (by decide) hv.no_nul)

theorem MemberText.no_nul {m : List Piece × Tree} {u : List UInt8} (h : MemberText m u) :
    0 ∉ u := by
  match h with
  | .mk hw₁ hk hw₂ hw₃ hu hw₄ =>
    have hkey := notMem_append hw₁.no_nul (notMem_cons (c := 0x22) (by decide) hk.printable.no_nul)
    have hvalue := notMem_append (notMem_append hw₃.no_nul hu.no_nul) hw₄.no_nul
    exact notMem_append (notMem_append hkey (notMem_cons (by decide) hw₂.no_nul))
      (notMem_cons (by decide) hvalue)

theorem MembersText.no_nul {ms : List (List Piece × Tree)} {u : List UInt8}
    (h : MembersText ms u) : 0 ∉ u := by
  match h with
  | .one hm => exact hm.no_nul
  | .more hm hms => exact notMem_append hm.no_nul (notMem_cons (by decide) hms.no_nul)

end

theorem cstr_no_nul (s : List UInt8) : 0 ∉ cstr s := by
  intro h
  have hne := List.mem_takeWhile_imp h
  simp at hne

/-- A text without its CRs, as a C string, means the same. -/
theorem parse_dropCR {s : List UInt8} {v : LcnJsonValue} (h : lcnJsonParse s = some v) :
    lcnJsonParse (cstr (dropCR s)) = some v := by
  obtain ⟨t, ⟨hw₁, hu, hw₂⟩, heval⟩ := lcnJsonParse_iff.1 h
  have htext := JsonText.mk hw₁.dropCR hu.dropCR hw₂.dropCR
  have hnul := notMem_append (notMem_append hw₁.dropCR.no_nul hu.dropCR.no_nul) hw₂.dropCR.no_nul
  rw [dropCR_append, dropCR_append, cstr_eq hnul]
  exact lcnJsonParse_iff.2 ⟨t, htext, heval⟩

end Limceron.Json
