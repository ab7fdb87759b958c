/-
# `Limceron.Wit.HostSpecs` — which entries of an allowlist are accepted

An entry is to be a host, a colon and a port; the host is a domain name, or `*.` and a
domain name, and no address.  What is checked:

| | |
| :-- | :-- |
| port | the digits behind the last colon, from 1 to 65535 |
| stars | none, or one in front of a dot at the start |
| address | only digits and dots in front of the colon |

Nothing asks whether the rest is a domain name (`accepted_iff`).
-/
import Limceron.Wit.Network

namespace Limceron.Wit

open Json (ascii)

/-! ## The grammar of entries -/

/-- A letter, a digit or a hyphen. -/
def isLabelChar (c : UInt8) : Bool :=
  (0x61 ≤ c && c ≤ 0x7A) || (0x41 ≤ c && c ≤ 0x5A) || Json.isDigit c || c == 0x2D

/-- Labels between dots, none of them empty. -/
def DomainName (s : Bytes) : Prop :=
  ∀ label ∈ s.splitOn dot, label ≠ [] ∧ ∀ c ∈ label, isLabelChar c = true

/-- An address of one of the families. -/
def IpLiteral (host : Bytes) : Prop := hostPatternIsIpLiteral host = true ∨ colon ∈ host

def decimal (port : Nat) (s : Bytes) : Nat := s.foldl (fun n c => n * 10 + (c.toNat - 0x30)) port

/-- A decimal number from 1 to 65535. -/
def PortText (s : Bytes) : Prop :=
  s ≠ [] ∧ (∀ c ∈ s, Json.isDigit c = true) ∧ 1 ≤ decimal 0 s ∧ decimal 0 s ≤ 65535

/-- `host:port`, as it is documented. -/
def HostPort (spec : Bytes) : Prop :=
  ∃ host port, spec = host ++ colon :: port ∧
    (DomainName host ∨ ∃ d, host = star :: dot :: d ∧ DomainName d) ∧ ¬ IpLiteral host ∧
    PortText port

/-! ## What is accepted -/

/-- A star only in front of a dot at the start. -/
def StarsFit (host : Bytes) : Prop := star ∉ host ∨ ∃ d, host = star :: dot :: d ∧ star ∉ d

theorem decimal_le (port : Nat) (s : Bytes) : port ≤ decimal port s := by
  induction s generalizing port with
  | nil => exact Nat.le_refl _
  | cons c s ih =>
      have h := ih (port * 10 + (c.toNat - 0x30))
      rw [decimal, List.foldl_cons]
      exact Nat.le_trans (by omega) h

theorem portFault_iff {port : Nat} {s : Bytes} (hport : port ≤ 65535) :
    portFault port s = none ↔ (∀ c ∈ s, Json.isDigit c = true) ∧ 1 ≤ decimal port s ∧
      decimal port s ≤ 65535 := by
  induction s generalizing port with
  | nil =>
      rw [portFault, decimal, List.foldl_nil]
      split
      · simp_all
      · simp
        omega
  | cons c s ih =>
      have hle := decimal_le (port * 10 + (c.toNat - 0x30)) s
      have hdecimal : decimal port (c :: s) = decimal (port * 10 + (c.toNat - 0x30)) s := rfl
      rw [portFault, hdecimal, List.forall_mem_cons]
      split
      · simp_all
      · rename_i hdigit
        simp only
        rw [not_not] at hdigit
        split
        · constructor
          · intro h
            cases h
          · omega
        · rw [ih (by omega), and_iff_right (a := Json.isDigit c = true) hdigit]

theorem starFault_iff {host : Bytes} : starFault host = none ↔ StarsFit host := by
  cases host with
  | nil => exact iff_of_true rfl (.inl List.not_mem_nil)
  | cons c rest =>
      by_cases hc : c = star
      · subst hc
        have hmem : ¬ star ∉ star :: rest := fun h => h List.mem_cons_self
        rw [StarsFit, or_iff_right hmem]
        simp only [starFault, if_true]
        cases rest with
        | nil => simp
        | cons c' d =>
            by_cases hc' : c' = dot
            · subst hc'
              have hdot : star ≠ dot := by decide
              simp [hdot]
            · simp [hc']
      · simp only [starFault, if_neg hc]
        constructor
        · intro h
          refine .inl fun hmem => ?_
          rcases List.mem_cons.mp hmem with h' | h'
          · exact hc h'.symm
          · simp [h'] at h
        · rintro (h | ⟨d, heq, -⟩)
          · have hrest : star ∉ rest := fun h' => h (List.mem_cons_of_mem _ h')
            simp [hrest]
          · exact absurd (List.cons.inj heq).1 hc

/-- An entry is cut at its last colon. -/
theorem split_colon {host port : Bytes} (h : colon ∉ port) :
    ((host ++ colon :: port).rdropWhile (· ≠ colon)).dropLast = host ∧
      (host ++ colon :: port).rtakeWhile (· ≠ colon) = port := by
  have hall : ∀ c ∈ port.reverse, decide (c ≠ colon) = true := by
    intro c hc
    refine decide_eq_true ?_
    rintro rfl
    exact h (List.mem_reverse.mp hc)
  have hreverse : (host ++ colon :: port).reverse =
      port.reverse ++ (colon :: host.reverse) := by
    simp
  constructor
  · rw [List.rdropWhile, hreverse, List.dropWhile_append_of_pos hall,
      List.dropWhile_cons_of_neg (by simp)]
    simp
  · rw [List.rtakeWhile, hreverse, List.takeWhile_append_of_pos hall,
      List.takeWhile_cons_of_neg (by simp)]
    simp

theorem exists_last_colon {spec : Bytes} (h : colon ∈ spec) :
    ∃ host port, spec = host ++ colon :: port ∧ colon ∉ port := by
  induction spec with
  | nil => cases h
  | cons c spec ih =>
      by_cases hlater : colon ∈ spec
      · obtain ⟨host, port, rfl, hport⟩ := ih hlater
        exact ⟨c :: host, port, rfl, hport⟩
      · rcases List.mem_cons.mp h with rfl | h
        · exact ⟨[], spec, rfl, hlater⟩
        · exact absurd h hlater

theorem PortText.colon_notMem {port : Bytes} (h : PortText port) : colon ∉ port := by
  intro hmem
  have hdigit := h.2.1 colon hmem
  cases hdigit

/-- The checks of an entry, cut at its last colon. -/
theorem specFault_iff {host port : Bytes} (h : colon ∉ port) :
    specFault (host ++ colon :: port) = none ↔
      host ≠ [] ∧ StarsFit host ∧ hostPatternIsIpLiteral host = false ∧ PortText port := by
  obtain ⟨hhost, hport⟩ := @split_colon host port h
  have hcontains : (host ++ colon :: port).contains colon = true := by simp
  have hwild : PortText port →
      ¬ (host ++ colon :: port = ascii "*" ∨ host ++ colon :: port = ascii "*:*") := by
    rintro htext (heq | heq)
    · rw [heq] at hcontains
      cases hcontains
    · rw [heq] at hport
      have hdigit := htext.2.1 star (hport ▸ by decide)
      cases hdigit
  rw [specFault, hhost, hport, hcontains]
  simp only [not_true_eq_false, false_or]
  constructor
  · intro hnone
    split at hnone
    · cases hnone
    · split at hnone
      · cases hnone
      · rename_i hne
        rw [not_or] at hne
        cases hstar : starFault host with
        | some fault =>
            rw [hstar] at hnone
            cases hnone
        | none =>
            rw [hstar] at hnone
            simp only at hnone
            split at hnone
            · cases hnone
            · rename_i hip
              have hfault := (portFault_iff (Nat.zero_le _)).mp hnone
              exact ⟨hne.1, starFault_iff.mp hstar, Bool.of_not_eq_true hip, hne.2, hfault⟩
  · rintro ⟨hne, hstars, hip, htext⟩
    have hports : ¬ (host = [] ∨ port = []) := by
      rintro (h' | h')
      · exact hne h'
      · exact htext.1 h'
    rw [if_neg (hwild htext), if_neg hports, starFault_iff.mpr hstars]
    simp only [hip, Bool.false_eq_true, if_false]
    exact (portFault_iff (Nat.zero_le _)).mpr htext.2

/-- The entries that are accepted, whoever declares them. -/
theorem accepted_iff {agentName verb spec : Bytes} :
    validateHostPortSpec agentName verb spec = none ↔
      ∃ host port, spec = host ++ colon :: port ∧ host ≠ [] ∧ StarsFit host ∧
        hostPatternIsIpLiteral host = false ∧ PortText port := by
  have hvalidate : validateHostPortSpec agentName verb spec = none ↔
      spec ≠ [] ∧ specFault spec = none := by
    rw [validateHostPortSpec]
    split
    · simp_all
    · simp_all
  rw [hvalidate]
  constructor
  · rintro ⟨-, hnone⟩
    by_cases hcolon : colon ∈ spec
    · obtain ⟨host, port, rfl, hport⟩ := exists_last_colon hcolon
      exact ⟨host, port, rfl, (specFault_iff hport).mp hnone⟩
    · have hcontains : spec.contains colon = false := by simpa using hcolon
      rw [specFault, hcontains] at hnone
      simp only [Bool.false_eq_true, not_false_eq_true, true_or, if_true] at hnone
      split at hnone
      · cases hnone
      · cases hnone
  · rintro ⟨host, port, rfl, h⟩
    exact ⟨by simp, (specFault_iff h.2.2.2.colon_notMem).mpr h⟩

/-- An entry of the checked form, whose host is no domain name, with or without `*.`. -/
def LooseSpec (spec : Bytes) : Prop :=
  ∃ host port, spec = host ++ colon :: port ∧ host ≠ [] ∧ StarsFit host ∧
    hostPatternIsIpLiteral host = false ∧ PortText port ∧ ¬ DomainName host ∧
    ∀ d, host = star :: dot :: d → ¬ DomainName d

theorem DomainName.chars {s : Bytes} (h : DomainName s) :
    ∀ c ∈ s, c = dot ∨ isLabelChar c = true := by
  intro c hc
  have hlabels : List.intercalate [dot] (s.splitOn dot) = s := List.intercalate_splitOn dot
  rw [← hlabels] at hc
  rcases mem_intercalate hc with hc | ⟨label, hlabel, hc⟩
  · exact .inl (List.mem_singleton.mp hc)
  · exact .inr ((h label hlabel).2 c hc)

theorem DomainName.ne_nil {s : Bytes} (h : DomainName s) : s ≠ [] := by
  rintro rfl
  exact (h [] (by simp)).1 rfl

theorem DomainName.notMem {s : Bytes} (h : DomainName s) :
    star ∉ s ∧ colon ∉ s := by
  constructor
  · intro hmem
    rcases h.chars _ hmem with hc | hc
    · cases hc
    · cases hc
  · intro hmem
    rcases h.chars _ hmem with hc | hc
    · cases hc
    · cases hc

/-- An entry is accepted exactly if it is as documented, unless it is loose. -/
theorem specs_agree_iff (agentName verb spec : Bytes) :
    (validateHostPortSpec agentName verb spec = none ↔ HostPort spec) ↔ ¬ LooseSpec spec := by
  have hgrammar : HostPort spec → validateHostPortSpec agentName verb spec = none := by
    rintro ⟨host, port, rfl, hhost, hip, hport⟩
    refine accepted_iff.mpr ⟨host, port, rfl, ?_, ?_, ?_, hport⟩
    · rcases hhost with hhost | ⟨d, rfl, -⟩
      · exact hhost.ne_nil
      · exact List.cons_ne_nil _ _
    · rcases hhost with hhost | ⟨d, rfl, hd⟩
      · exact .inl hhost.notMem.1
      · exact .inr ⟨d, rfl, hd.notMem.1⟩
    · exact Bool.of_not_eq_true fun h => hip (.inl h)
  constructor
  · rintro hiff ⟨host, port, rfl, hne, hstars, hip, hport, hdomain, hglob⟩
    obtain ⟨host₂, port₂, heq, hhost₂, -, hport₂⟩ :=
      hiff.mp (accepted_iff.mpr ⟨host, port, rfl, hne, hstars, hip, hport⟩)
    obtain ⟨hcut, -⟩ := @split_colon host _ hport.colon_notMem
    obtain ⟨hcut₂, -⟩ := @split_colon host₂ _ hport₂.colon_notMem
    obtain rfl : host = host₂ := by rw [← hcut, heq, hcut₂]
    rcases hhost₂ with h | ⟨d, rfl, h⟩
    · exact hdomain h
    · exact hglob d rfl h
  · intro hloose
    refine ⟨fun haccepted => ?_, hgrammar⟩
    obtain ⟨host, port, rfl, hne, hstars, hip, hport⟩ := accepted_iff.mp haccepted
    have hhost : DomainName host ∨ ∃ d, host = star :: dot :: d ∧ DomainName d := by
      by_contra hno
      rw [not_or, not_exists] at hno
      exact hloose ⟨host, port, rfl, hne, hstars, hip, hport, hno.1,
        fun d hd hdomain => hno.2 d ⟨hd, hdomain⟩⟩
    refine ⟨host, port, rfl, hhost, ?_, hport⟩
    rintro (h | h)
    · rw [hip] at h
      cases h
    · rcases hhost with hhost | ⟨d, rfl, hd⟩
      · exact hhost.notMem.2 h
      · rcases List.mem_cons.mp h with h | h
        · cases h
        · rcases List.mem_cons.mp h with h | h
          · cases h
          · exact hd.notMem.2 h

/-- `*.:443` is accepted, and its `*.` has nothing behind it. -/
theorem empty_suffix_accepted : ¬ ∀ spec,
    (validateHostPortSpec (ascii "A") httpFetch spec = none ↔ HostPort spec) := by
  intro h
  have haccepted : validateHostPortSpec (ascii "A") httpFetch (ascii "*.:443") = none := by
    decide
  obtain ⟨host, port, heq, hhost, -, hport⟩ := (h _).mp haccepted
  obtain ⟨hcut, -⟩ := @split_colon host _ hport.colon_notMem
  rw [← heq] at hcut
  have hstar : host = [star, dot] := hcut.symm.trans (by decide)
  subst hstar
  rcases hhost with hhost | ⟨d, hd, hhost⟩
  · exact hhost.notMem.1 List.mem_cons_self
  · cases hd
    exact hhost.ne_nil rfl

end Limceron.Wit
