/-
# `Limceron.Typecheck.MatchCovers` — which matches are exhaustive

If all guards fail, only the arms without one are left, so a match has an arm for
every value exactly if these cover the type:

| type | covered by |
| :-- | :-- |
| any | a catch-all |
| bool | both literals |
| host-error | every variant |
| `Result` | what `Ok` arms say of the payload, and what `Err` arms say of it |
| int | all the literals there are |
| string | nothing else |

The checker does not ask for this: a guarded `Ok`, one for a single payload, a
guarded boolean are as good to it as any, and arms of another type pass for arms
of this one.  `matchSound_iff` says for which matches that does no harm.  What it
says of unreachable arms is right (`unreachable_sound`).
-/
import Limceron.Typecheck.Match
import Mathlib.Data.Set.Finite.List
import Mathlib.Data.Set.Finite.Range

namespace Limceron.Typecheck

/-! ## Covering -/

/-- The patterns for the payload of a variant. -/
def payloads (tail : String) (ps : List Pattern) : List Pattern :=
  ps.filterMap fun p => p.variant.bind fun v => if pathTail v.1 = tail.toList then some v.2 else none

/-- The patterns cover the type. -/
def Covers : Kind → List Pattern → Prop
  | .bool, ps =>
      (∃ p ∈ ps, p.binds) ∨ ∀ b, ∃ p ∈ ps, p.isLiteral fun l => l = .bool b
  | .int, ps =>
      (∃ p ∈ ps, p.binds) ∨
        ∀ i : Int, -2 ^ 63 ≤ i → i < 2 ^ 63 → ∃ p ∈ ps, p.isLiteral fun l => l = .int i
  | .str, ps => ∃ p ∈ ps, p.binds
  | .hostError, ps =>
      (∃ p ∈ ps, p.binds) ∨ ∀ variant ∈ hostErrorVariants,
        ∃ p ∈ ps, p.hostVariant.any fun name => kebab name = kebab variant.toList
  | .result ok err, ps =>
      (∃ p ∈ ps, p.binds) ∨ Covers ok (payloads "Ok" ps) ∧ Covers err (payloads "Err" ps)

/-- The patterns of the arms without a guard. -/
def unguarded (arms : List Arm) : List Pattern :=
  (arms.filter fun a => !a.guarded).map fun a => a.pattern

/-! ## What is asked of the check -/

/-- No error about values without an arm. -/
def Silent (loaded : Bool) (arms : List Arm) : Prop := (seenOf arms).inexhaustive loaded = none

/-- What the reports are to mean, for the values of a type. -/
structure MatchSound (loaded : Bool) (k : Kind) (arms : List Arm) : Prop where
  exhaustive : (∀ e ∈ checkMatch loaded arms, ∃ n, e = .unreachable n) →
    ∀ v, k.Has v → ∀ guards, ∃ i, taken arms guards v = some i
  unreachable : ∀ n, .unreachable n ∈ checkMatch loaded arms →
    ∀ v guards, taken arms guards v ≠ some (n - 1)

/-- What the arms have to be for the check to be silent. -/
structure Tolerated (loaded : Bool) (arms : List Arm) : Prop where
  result : (∃ a ∈ arms, a.pattern.endsIn "Ok") ↔ ∃ a ∈ arms, a.pattern.endsIn "Err"
  hostError : loaded → (∃ a ∈ arms, a.pattern.hostVariant.isSome) → ∀ variant ∈ hostErrorVariants,
    ∃ name ∈ ((unguarded arms).filterMap Pattern.hostVariant).take maxVariants,
      kebab (name.take (maxName - 1)) = kebab variant.toList
  bool : (∀ a ∈ arms, a.pattern.hostVariant = none) →
    ((∃ a ∈ arms, a.pattern.isLiteral fun l => l = .bool true) ↔
      ∃ a ∈ arms, a.pattern.isLiteral fun l => l = .bool false)
  literal : (∀ a ∈ arms, a.pattern.hostVariant = none ∧ a.pattern.endsIn "Ok" = false ∧
      a.pattern.isLiteral (fun l => l = .bool true) = false) →
    ∀ a ∈ arms, a.pattern.isLiteral (fun l => l matches .int _) = false ∧
      a.pattern.isLiteral (fun l => l matches .str _) = false

/-- A catch-all without a guard. -/
def HasCatchall (arms : List Arm) : Prop := ∃ p ∈ unguarded arms, p.binds

/-! ## The flags -/

/-- A flag that each arm may raise. -/
theorem flag_seenOf {get : Seen → Bool} {hit : Arm → Bool}
    (h : ∀ s a, get (s.arm a) = (get s || hit a)) (h₀ : get {} = false) (arms : List Arm) :
    get (seenOf arms) = arms.any hit := by
  have hrun : ∀ (as : List Arm) (s : Seen),
      get (as.foldl Seen.arm s) = (get s || as.any hit) := by
    intro as
    induction as with
    | nil => simp
    | cons a as ih =>
        intro s
        rw [List.foldl_cons, ih, h, List.any_cons, Bool.or_assoc]
  rw [seenOf, hrun, h₀, Bool.false_or]

namespace Seen

/-- The variants noted after one more arm. -/
def noted (s : Seen) (a : Arm) : List (List Char) :=
  match a.pattern.hostVariant with
  | none => s.hostVariants
  | some tail =>
      if !a.guarded && s.hostVariants.length < maxVariants then
        s.hostVariants ++ [tail.take (maxName - 1)]
      else s.hostVariants

theorem path_eq (s : Seen) {p q : Pattern} {name : String} (hp : p.variant = some (name, q))
    (g : Bool) :
    s.path name g =
      { s with
        ok := s.ok || p.endsIn "Ok"
        err := s.err || p.endsIn "Err"
        hostErr := s.hostErr || p.hostVariant.isSome
        hostVariants := s.noted ⟨p, g⟩ } := by
  simp only [path, noted, Pattern.hostVariant, Pattern.endsIn, hp, Option.bind_some,
    Option.any_some]
  cases isHostErrorPath name with
  | true =>
      simp only [if_true, Option.isSome_some, Bool.or_true]
      split <;> rfl
  | false => simp

/-- What an arm does to the flags. -/
theorem arm_eq (s : Seen) (a : Arm) :
    s.arm a =
      { arms := s.arms + 1
        dead := if s.catchall then s.dead ++ [s.arms + 1] else s.dead
        ok := s.ok || a.pattern.endsIn "Ok"
        err := s.err || a.pattern.endsIn "Err"
        catchall := s.catchall || (a.pattern.binds && !a.guarded)
        true_ := s.true_ || a.pattern.isLiteral fun l => l = .bool true
        false_ := s.false_ || a.pattern.isLiteral fun l => l = .bool false
        int := s.int || a.pattern.isLiteral fun l => l matches .int _
        str := s.str || a.pattern.isLiteral fun l => l matches .str _
        hostErr := s.hostErr || a.pattern.hostVariant.isSome
        hostVariants := s.noted a } := by
  obtain ⟨p, g⟩ := a
  cases p with
  | wildcard =>
      simp [arm, Pattern.endsIn, Pattern.variant, Pattern.binds, Pattern.isLiteral,
        Pattern.hostVariant, noted]
  | ident name =>
      by_cases hq : hasColons name.toList
      · have hp : (Pattern.ident name).variant = some (name, .wildcard) := by
          simp [Pattern.variant, hq]
        simp only [arm, hq, if_true, path_eq _ hp]
        simp [Pattern.binds, Pattern.isLiteral, hq, noted]
      · simp [arm, Pattern.endsIn, Pattern.variant, Pattern.binds, Pattern.isLiteral,
          Pattern.hostVariant, noted, hq]
  | literal l =>
      rcases l with _ | _ | (_ | _) | _ <;>
        simp [arm, literal, Pattern.endsIn, Pattern.variant, Pattern.binds, Pattern.isLiteral,
          Pattern.hostVariant, noted]
  | enum name payload =>
      have hp : (Pattern.enum name payload).variant = some (name, payload.headD .wildcard) := rfl
      simp only [arm, path_eq _ hp]
      simp [Pattern.binds, Pattern.isLiteral, noted]

end Seen

theorem seenOf_append (arms : List Arm) (a : Arm) : seenOf (arms ++ [a]) = (seenOf arms).arm a := by
  rw [seenOf, List.foldl_append]
  rfl

section
variable (arms : List Arm)

theorem seenOf_ok : (seenOf arms).ok = arms.any fun a => a.pattern.endsIn "Ok" :=
  flag_seenOf (fun s a => by rw [Seen.arm_eq]) rfl arms

theorem seenOf_err : (seenOf arms).err = arms.any fun a => a.pattern.endsIn "Err" :=
  flag_seenOf (fun s a => by rw [Seen.arm_eq]) rfl arms

theorem seenOf_catchall :
    (seenOf arms).catchall = arms.any fun a => a.pattern.binds && !a.guarded :=
  flag_seenOf (fun s a => by rw [Seen.arm_eq]) rfl arms

theorem seenOf_true :
    (seenOf arms).true_ = arms.any fun a => a.pattern.isLiteral fun l => l = .bool true :=
  flag_seenOf (fun s a => by rw [Seen.arm_eq]) rfl arms

theorem seenOf_false :
    (seenOf arms).false_ = arms.any fun a => a.pattern.isLiteral fun l => l = .bool false :=
  flag_seenOf (fun s a => by rw [Seen.arm_eq]) rfl arms

theorem seenOf_int :
    (seenOf arms).int = arms.any fun a => a.pattern.isLiteral fun l => l matches .int _ :=
  flag_seenOf (fun s a => by rw [Seen.arm_eq]) rfl arms

theorem seenOf_str :
    (seenOf arms).str = arms.any fun a => a.pattern.isLiteral fun l => l matches .str _ :=
  flag_seenOf (fun s a => by rw [Seen.arm_eq]) rfl arms

theorem seenOf_hostErr :
    (seenOf arms).hostErr = arms.any fun a => a.pattern.hostVariant.isSome :=
  flag_seenOf (fun s a => by rw [Seen.arm_eq]) rfl arms

theorem seenOf_arms : (seenOf arms).arms = arms.length := by
  induction arms using List.reverseRecOn with
  | nil => rfl
  | append_singleton arms a ih =>
      rw [seenOf_append, Seen.arm_eq, ih, List.length_append, List.length_singleton]

/-- The first variants of the arms without a guard. -/
theorem seenOf_hostVariants :
    (seenOf arms).hostVariants =
      (((unguarded arms).filterMap Pattern.hostVariant).take maxVariants).map
        fun name => name.take (maxName - 1) := by
  induction arms using List.reverseRecOn with
  | nil => rfl
  | append_singleton arms a ih =>
      have hlen : (seenOf arms).hostVariants.length =
          min maxVariants ((unguarded arms).filterMap Pattern.hostVariant).length := by
        rw [ih, List.length_map, List.length_take]
      rw [seenOf_append, Seen.arm_eq]
      simp only [Seen.noted, unguarded, List.filter_append, List.map_append, List.filterMap_append]
      obtain ⟨p, g⟩ := a
      cases hv : p.hostVariant with
      | none => cases g <;> simpa [hv, unguarded] using ih
      | some tail =>
          cases g with
          | true => simpa [hv, unguarded] using ih
          | false =>
              have hone : (List.map (fun a => a.pattern)
                  (List.filter (fun a => !a.guarded) [(⟨p, false⟩ : Arm)])).filterMap
                    Pattern.hostVariant = [tail] := by simp [hv]
              rw [hone]
              change (if !false && (seenOf arms).hostVariants.length < maxVariants then _ else _) =
                (((unguarded arms).filterMap Pattern.hostVariant ++ [tail]).take maxVariants).map _
              rw [hlen, ih]
              by_cases hroom : ((unguarded arms).filterMap Pattern.hostVariant).length < maxVariants
              · have hall : ((unguarded arms).filterMap Pattern.hostVariant ++ [tail]).length ≤
                    maxVariants := by
                  rw [List.length_append, List.length_singleton]
                  exact hroom
                rw [if_pos (by simpa using hroom), List.take_of_length_le (Nat.le_of_lt hroom),
                  List.take_of_length_le hall, List.map_append]
                rfl
              · rw [if_neg (by simpa using hroom),
                  List.take_append_of_le_length (Nat.not_lt.mp hroom)]

end

/-! ## When the check is silent -/

theorem hasCatchall_iff (arms : List Arm) : HasCatchall arms ↔ (seenOf arms).catchall = true := by
  rw [seenOf_catchall, List.any_eq_true, HasCatchall]
  simp only [unguarded, List.mem_map, List.mem_filter, Bool.and_eq_true, Bool.not_eq_true']
  constructor
  · rintro ⟨p, ⟨a, ⟨ha, hg⟩, rfl⟩, hp⟩
    exact ⟨a, ha, hp, hg⟩
  · rintro ⟨a, ha, hp, hg⟩
    exact ⟨a.pattern, ⟨a, ⟨ha, hg⟩, rfl⟩, hp⟩

theorem missing_iff (arms : List Arm) : (seenOf arms).missing = [] ↔
    ∀ variant ∈ hostErrorVariants,
      ∃ name ∈ ((unguarded arms).filterMap Pattern.hostVariant).take maxVariants,
        kebab (name.take (maxName - 1)) = kebab variant.toList := by
  rw [Seen.missing, List.filter_eq_nil_iff]
  refine forall₂_congr fun v _ => ?_
  rw [seenOf_hostVariants, Bool.not_eq_true', Bool.not_eq_false, List.any_eq_true]
  simp only [List.mem_map, decide_eq_true_eq]
  constructor
  · rintro ⟨_, ⟨name, hname, rfl⟩, heq⟩
    exact ⟨name, hname, heq⟩
  · rintro ⟨name, hname, heq⟩
    exact ⟨_, ⟨name, hname, rfl⟩, heq⟩

/-- A chain of reports without a report. -/
theorem inexhaustive_eq_none (s : Seen) (loaded : Bool) :
    s.inexhaustive loaded = none ↔ s.catchall = true ∨
      ((s.ok = true ↔ s.err = true) ∧ (loaded → s.hostErr → s.missing = []) ∧
        (s.hostErr = false → (s.true_ = true ↔ s.false_ = true)) ∧
          (s.hostErr = false → s.ok = false → s.true_ = false →
            s.int = false ∧ s.str = false)) := by
  rw [Seen.inexhaustive]
  generalize s.missing = missing
  obtain ⟨_, _, ok, err, catchall, t, f, int, str, host, _⟩ := s
  cases catchall with
  | true => simp
  | false =>
      -- Only if both or none of `Ok` and `Err` are there do the other cases matter.
      cases ok <;> cases err
      case false.true => simp
      case true.false => simp
      all_goals
        cases host with
        | true => by_cases hmissing : missing = [] <;> simp [hmissing]
        | false => cases t <;> cases f <;> simp

/-- The check is silent if there is a catch-all, or nothing to complain of. -/
theorem silent_iff (loaded : Bool) (arms : List Arm) :
    Silent loaded arms ↔ HasCatchall arms ∨ Tolerated loaded arms := by
  rw [Silent, inexhaustive_eq_none, ← hasCatchall_iff, missing_iff, seenOf_ok, seenOf_err,
    seenOf_true, seenOf_false, seenOf_int, seenOf_str, seenOf_hostErr]
  have hnone : (arms.any fun a => a.pattern.hostVariant.isSome) = false ↔
      ∀ a ∈ arms, a.pattern.hostVariant = none := by simp
  have hno : ∀ hit : Arm → Bool, arms.any hit = false ↔ ∀ a ∈ arms, hit a = false := by simp
  refine or_congr_right ⟨?_, ?_⟩
  · rintro ⟨hresult, hhost, hbool, hlit⟩
    refine ⟨by simpa using hresult, ?_, fun h => by simpa using hbool (hnone.mpr h), fun h => ?_⟩
    · intro hloaded hany
      exact hhost hloaded (List.any_eq_true.mpr hany)
    · have hboth := hlit (hnone.mpr fun a ha => (h a ha).1) ((hno _).mpr fun a ha => (h a ha).2.1)
        ((hno _).mpr fun a ha => (h a ha).2.2)
      exact fun a ha => ⟨(hno _).mp hboth.1 a ha, (hno _).mp hboth.2 a ha⟩
  · rintro ⟨hresult, hhost, hbool, hlit⟩
    refine ⟨by simpa using hresult, ?_, fun h => by simpa using hbool (hnone.mp h), ?_⟩
    · intro hloaded hany
      exact hhost hloaded (List.any_eq_true.mp hany)
    · intro h hok ht
      have hboth := hlit fun a ha =>
        ⟨hnone.mp h a ha, (hno _).mp hok a ha, (hno _).mp ht a ha⟩
      exact ⟨(hno _).mpr fun a ha => (hboth a ha).1, (hno _).mpr fun a ha => (hboth a ha).2⟩

/-! ## Covering and matching -/

theorem mem_payloads {tail : String} {ps : List Pattern} {q : Pattern} :
    q ∈ payloads tail ps ↔ ∃ p ∈ ps, ∃ name, p.variant = some (name, q) ∧
      pathTail name = tail.toList := by
  simp only [payloads, List.mem_filterMap, Option.bind_eq_some_iff]
  constructor
  · rintro ⟨p, hp, ⟨name, q'⟩, hv, h⟩
    split at h
    · rename_i htail
      cases h
      exact ⟨p, hp, name, hv, htail⟩
    · cases h
  · rintro ⟨p, hp, name, hv, htail⟩
    exact ⟨p, hp, (name, q), hv, by simp [htail]⟩

/-- A variant's payload fits. -/
theorem fits_variant {p : Pattern} {tail : String} {v : Value} :
    (p.variant.any fun w => pathTail w.1 = tail.toList && v.fits w.2) = true ↔
      ∃ name q, p.variant = some (name, q) ∧ pathTail name = tail.toList ∧ v.fits q := by
  cases hp : p.variant with
  | none => simp
  | some w =>
      obtain ⟨name, q⟩ := w
      simp

/-- Some string is not among finitely many literals. -/
theorem exists_str_not_literal (ps : List Pattern) :
    ∃ s : String, ∀ p ∈ ps, p.isLiteral (fun l => l = .str s) = false := by
  by_contra h
  have hlit : ∀ s : String, Pattern.literal (.str s) ∈ ps := by
    intro s
    by_contra hs
    refine h ⟨s, fun p hp => ?_⟩
    cases p with
    | literal l =>
        refine decide_eq_false fun hl => hs ?_
        exact hl ▸ hp
    | _ => rfl
  have hfinite : (Set.range fun s : String => Pattern.literal (.str s)).Finite := by
    refine (List.finite_toSet ps).subset ?_
    rintro _ ⟨s, rfl⟩
    exact hlit s
  refine Set.infinite_range_of_injective (fun s t hst => ?_) hfinite
  cases hst
  rfl

theorem fits_of_binds {v : Value} {p : Pattern} (h : p.binds) : v.fits p := by
  cases v <;> simp [Value.fits, h]

/-- A catch-all is enough; without one it depends on the type. -/
theorem covered_iff {k : Kind} {ps : List Pattern} {C : Prop}
    (h : (∀ p ∈ ps, p.binds = false) → (C ↔ ∀ v, k.Has v → ∃ p ∈ ps, v.fits p)) :
    (∃ p ∈ ps, p.binds) ∨ C ↔ ∀ v, k.Has v → ∃ p ∈ ps, v.fits p := by
  by_cases hb : ∃ p ∈ ps, p.binds
  · obtain ⟨p, hp, hbinds⟩ := hb
    exact ⟨fun _ v _ => ⟨p, hp, fits_of_binds hbinds⟩, fun _ => .inl ⟨p, hp, hbinds⟩⟩
  · have hno : ∀ p ∈ ps, p.binds = false := by
      intro p hp
      by_contra hbinds
      exact hb ⟨p, hp, Bool.of_not_eq_false hbinds⟩
    rw [← h hno]
    exact ⟨fun hor => hor.resolve_left hb, .inr⟩

/-- The payloads of a variant, if no pattern is a catch-all. -/
theorem exists_payload_iff {tail : String} {ps : List Pattern} {v : Value} :
    (∃ q ∈ payloads tail ps, v.fits q) ↔
      ∃ p ∈ ps, p.variant.any fun w => pathTail w.1 = tail.toList && v.fits w.2 := by
  simp only [mem_payloads, fits_variant]
  constructor
  · rintro ⟨q, ⟨p, hp, name, hv, htail⟩, hfits⟩
    exact ⟨p, hp, name, q, hv, htail, hfits⟩
  · rintro ⟨p, hp, name, q, hv, htail, hfits⟩
    exact ⟨q, ⟨p, hp, name, hv, htail⟩, hfits⟩

/-- Patterns cover a type exactly if each of its values fits one. -/
theorem covers_iff (k : Kind) (ps : List Pattern) :
    Covers k ps ↔ ∀ v, k.Has v → ∃ p ∈ ps, v.fits p := by
  induction k generalizing ps with
  | bool =>
      refine covered_iff fun hno => ⟨?_, fun h b => ?_⟩
      · intro h v hv
        cases v with
        | bool b =>
            obtain ⟨p, hp, hl⟩ := h b
            exact ⟨p, hp, by simp [Value.fits, hl]⟩
        | _ => exact hv.elim
      · obtain ⟨p, hp, hfits⟩ := h (.bool b) trivial
        rw [Value.fits, hno p hp, Bool.false_or] at hfits
        exact ⟨p, hp, hfits⟩
  | int =>
      refine covered_iff fun hno => ⟨?_, fun h i hlo hhi => ?_⟩
      · intro h v hv
        cases v with
        | int i =>
            obtain ⟨p, hp, hl⟩ := h i hv.1 hv.2
            exact ⟨p, hp, by simp [Value.fits, hl]⟩
        | _ => exact hv.elim
      · obtain ⟨p, hp, hfits⟩ := h (.int i) ⟨hlo, hhi⟩
        rw [Value.fits, hno p hp, Bool.false_or] at hfits
        exact ⟨p, hp, hfits⟩
  | str =>
      constructor
      · rintro ⟨p, hp, hbinds⟩ v -
        exact ⟨p, hp, fits_of_binds hbinds⟩
      · intro h
        obtain ⟨s, hs⟩ := exists_str_not_literal ps
        obtain ⟨p, hp, hfits⟩ := h (.str s) trivial
        rw [Value.fits, hs p hp, Bool.or_false] at hfits
        exact ⟨p, hp, hfits⟩
  | hostError =>
      refine covered_iff fun hno => ⟨?_, fun h variant hvariant => ?_⟩
      · intro h v hv
        cases v with
        | hostError variant =>
            obtain ⟨p, hp, hname⟩ := h variant hv
            exact ⟨p, hp, by rw [Value.fits, hname, Bool.or_true]⟩
        | _ => exact hv.elim
      · obtain ⟨p, hp, hfits⟩ := h (.hostError variant) hvariant
        rw [Value.fits, hno p hp, Bool.false_or] at hfits
        exact ⟨p, hp, hfits⟩
  | result ok err ihok iherr =>
      refine covered_iff fun hno => ?_
      rw [ihok, iherr]
      constructor
      · rintro ⟨hok, herr⟩ v hv
        cases v with
        | ok w =>
            obtain ⟨p, hp, hfits⟩ := exists_payload_iff.mp (hok w hv)
            exact ⟨p, hp, by rw [Value.fits, hfits, Bool.or_true]⟩
        | err w =>
            obtain ⟨p, hp, hfits⟩ := exists_payload_iff.mp (herr w hv)
            exact ⟨p, hp, by rw [Value.fits, hfits, Bool.or_true]⟩
        | _ => exact hv.elim
      · intro h
        refine ⟨fun w hw => exists_payload_iff.mpr ?_, fun w hw => exists_payload_iff.mpr ?_⟩
        · obtain ⟨p, hp, hfits⟩ := h (.ok w) hw
          rw [Value.fits, hno p hp, Bool.false_or] at hfits
          exact ⟨p, hp, hfits⟩
        · obtain ⟨p, hp, hfits⟩ := h (.err w) hw
          rw [Value.fits, hno p hp, Bool.false_or] at hfits
          exact ⟨p, hp, hfits⟩

/-! ## The arm that is taken -/

theorem mem_unguarded {arms : List Arm} {p : Pattern} :
    p ∈ unguarded arms ↔ ∃ a ∈ arms, a.guarded = false ∧ a.pattern = p := by
  simp only [unguarded, List.mem_map, List.mem_filter, Bool.not_eq_true', and_assoc]

/-- With an arm that fits whatever the guards say, one is taken, and none behind it. -/
theorem takenFrom_of_mem (guards : Nat → Bool) (v : Value) {arms : List Arm} (i : Nat)
    (h : ∃ a ∈ arms, a.guarded = false ∧ v.fits a.pattern) :
    ∃ j < i + arms.length, takenFrom guards v i arms = some j := by
  induction arms generalizing i with
  | nil =>
      obtain ⟨a, ha, -⟩ := h
      cases ha
  | cons a arms ih =>
      rw [takenFrom, List.length_cons]
      split
      · exact ⟨i, by omega, rfl⟩
      · rename_i hnot
        obtain ⟨b, hb, hguard, hfits⟩ := h
        rcases List.mem_cons.mp hb with rfl | hb
        · exact absurd (by simp [hguard, hfits]) hnot
        · obtain ⟨j, hj, htaken⟩ := ih (i + 1) ⟨b, hb, hguard, hfits⟩
          exact ⟨j, by omega, htaken⟩

/-- An arm that is taken among the first ones is taken whatever comes behind. -/
theorem takenFrom_append {guards : Nat → Bool} {v : Value} {arms rest : List Arm} {i j : Nat}
    (h : takenFrom guards v i arms = some j) : takenFrom guards v i (arms ++ rest) = some j := by
  induction arms generalizing i with
  | nil => cases h
  | cons a arms ih =>
      rw [takenFrom] at h
      rw [List.cons_append, takenFrom]
      split at h
      · rename_i hfits
        rw [if_pos hfits]
        exact h
      · rename_i hfits
        rw [if_neg hfits]
        exact ih h

/-- If all guards fail, the arm that is taken has none. -/
theorem unguarded_of_taken {v : Value} {arms : List Arm} {i j : Nat}
    (h : takenFrom (fun _ => false) v i arms = some j) : ∃ p ∈ unguarded arms, v.fits p := by
  induction arms generalizing i with
  | nil => cases h
  | cons a arms ih =>
      rw [takenFrom] at h
      split at h
      · rename_i hfits
        simp only [Bool.or_false, Bool.and_eq_true, Bool.not_eq_true'] at hfits
        exact ⟨a.pattern, mem_unguarded.mpr ⟨a, List.mem_cons_self, hfits.2, rfl⟩, hfits.1⟩
      · obtain ⟨p, hp, hfits⟩ := ih h
        obtain ⟨b, hb, hguard, rfl⟩ := mem_unguarded.mp hp
        exact ⟨b.pattern, mem_unguarded.mpr ⟨b, List.mem_cons_of_mem a hb, hguard, rfl⟩, hfits⟩

/-- Some arm is taken for every value and whatever the guards say, exactly if the
arms without a guard cover the type. -/
theorem taken_iff (k : Kind) (arms : List Arm) :
    (∀ v, k.Has v → ∀ guards, ∃ i, taken arms guards v = some i) ↔ Covers k (unguarded arms) := by
  rw [covers_iff]
  constructor
  · intro h v hv
    obtain ⟨i, hi⟩ := h v hv fun _ => false
    exact unguarded_of_taken hi
  · intro h v hv guards
    obtain ⟨p, hp, hfits⟩ := h v hv
    obtain ⟨a, ha, hguard, rfl⟩ := mem_unguarded.mp hp
    obtain ⟨i, -, hi⟩ := takenFrom_of_mem guards v 0 ⟨a, ha, hguard, hfits⟩
    exact ⟨i, hi⟩

/-! ## Unreachable arms -/

/-- The arms that are reported stand behind a catch-all. -/
theorem mem_dead {arms : List Arm} {n : Nat} (h : n ∈ (seenOf arms).dead) :
    ∃ pre post, arms = pre ++ post ∧ pre.length < n ∧ HasCatchall pre := by
  induction arms using List.reverseRecOn with
  | nil => cases h
  | append_singleton arms a ih =>
      rw [seenOf_append, Seen.arm_eq] at h
      have hold : n ∈ (seenOf arms).dead →
          ∃ pre post, arms ++ [a] = pre ++ post ∧ pre.length < n ∧ HasCatchall pre := by
        intro h
        obtain ⟨pre, post, rfl, hlen, hcatch⟩ := ih h
        exact ⟨pre, post ++ [a], List.append_assoc pre post [a], hlen, hcatch⟩
      simp only at h
      split at h
      · rename_i hcatch
        rcases List.mem_append.mp h with h | h
        · exact hold h
        · cases List.mem_singleton.mp h
          refine ⟨arms, [a], rfl, ?_, (hasCatchall_iff arms).mpr hcatch⟩
          rw [seenOf_arms]
          exact Nat.lt_succ_self _
      · exact hold h

theorem inexhaustive_ne_unreachable (s : Seen) (loaded : Bool) (n : Nat) :
    s.inexhaustive loaded ≠ some (.unreachable n) := by
  simp only [Seen.inexhaustive]
  split
  · exact nofun
  · split
    · split <;> exact nofun
    · split
      · exact nofun
      · split <;> exact nofun

theorem unreachable_mem_iff {loaded : Bool} {arms : List Arm} {n : Nat} :
    .unreachable n ∈ checkMatch loaded arms ↔ n ∈ (seenOf arms).dead := by
  rw [checkMatch, List.mem_append]
  constructor
  · rintro (h | h)
    · obtain ⟨m, hm, heq⟩ := List.mem_map.mp h
      cases heq
      exact hm
    · exact absurd (Option.mem_toList.mp h) (inexhaustive_ne_unreachable _ loaded n)
  · exact fun h => .inl (List.mem_map.mpr ⟨n, h, rfl⟩)

theorem silent_iff_reports (loaded : Bool) (arms : List Arm) :
    (∀ e ∈ checkMatch loaded arms, ∃ n, e = .unreachable n) ↔ Silent loaded arms := by
  rw [Silent]
  constructor
  · intro h
    cases hs : (seenOf arms).inexhaustive loaded with
    | none => rfl
    | some e =>
        have he : e ∈ checkMatch loaded arms := by
          rw [checkMatch, hs]
          exact List.mem_append_right _ (List.mem_singleton.mpr rfl)
        obtain ⟨n, rfl⟩ := h e he
        exact absurd hs (inexhaustive_ne_unreachable _ loaded n)
  · intro h e he
    rw [checkMatch, h] at he
    rcases List.mem_append.mp he with he | he
    · obtain ⟨n, -, rfl⟩ := List.mem_map.mp he
      exact ⟨n, rfl⟩
    · cases he

/-- No value reaches an arm that is reported. -/
theorem unreachable_sound {loaded : Bool} {arms : List Arm} {n : Nat}
    (h : .unreachable n ∈ checkMatch loaded arms) (v : Value) (guards : Nat → Bool) :
    taken arms guards v ≠ some (n - 1) := by
  obtain ⟨pre, post, rfl, hlen, p, hp, hbinds⟩ := mem_dead (unreachable_mem_iff.mp h)
  obtain ⟨a, ha, hguard, rfl⟩ := mem_unguarded.mp hp
  obtain ⟨j, hj, htaken⟩ :=
    takenFrom_of_mem guards v 0 ⟨a, ha, hguard, fits_of_binds hbinds⟩
  rw [taken, takenFrom_append htaken]
  intro heq
  cases heq
  omega

/-! ## The verdict -/

/-- The reports are right exactly if the arms cover the type where nothing is
reported: if there is a catch-all, or the check finds nothing to complain of. -/
theorem matchSound_iff (loaded : Bool) (k : Kind) (arms : List Arm) :
    MatchSound loaded k arms ↔
      (HasCatchall arms ∨ Tolerated loaded arms → Covers k (unguarded arms)) := by
  rw [← silent_iff, ← taken_iff, ← silent_iff_reports]
  constructor
  · exact fun h => h.exhaustive
  · exact fun h => ⟨h, fun n hn => unreachable_sound hn⟩

/-! ## A literal payload -/

/-- `match r { Result::Ok(0) -> …  Result::Err(e) -> … }` -/
def payloadArms : List Arm :=
  [{ pattern := .enum "Result::Ok" [.literal (.int 0)] },
    { pattern := .enum "Result::Err" [.ident "e"] }]

/-- `Ok(1)` has no arm, and nothing is reported. -/
theorem match_inexhaustive :
    ¬ ∀ (loaded : Bool) (k : Kind) (arms : List Arm), MatchSound loaded k arms := by
  intro h
  have hsilent : Silent true payloadArms := by
    show (seenOf payloadArms).inexhaustive true = none
    decide +kernel
  obtain ⟨i, hi⟩ := (h true (.result .int .hostError) payloadArms).exhaustive
    ((silent_iff_reports true payloadArms).mpr hsilent) (.ok (.int 1))
    (by simp [Kind.Has]) fun _ => true
  have hnone : taken payloadArms (fun _ => true) (.ok (.int 1)) = none := by decide +kernel
  rw [hnone] at hi
  cases hi

end Limceron.Typecheck
