/-
# `Limceron.Json.Derives` — the reader reads what the grammar derives

The two directions for values, by induction on the depth the reader may go to, and on
the derivation.  A derived text is never longer than the depth it needs.

A text has one tree at most (`JsonText.unique`), since the reader finds it.
-/
import Limceron.Json.Lexemes

namespace Limceron.Json

/-! ## What is read is derived -/

/-- A reader of values, with white space before them. -/
def Sound (read : List UInt8 → Option (Tree × List UInt8)) : Prop :=
  ∀ s t rest, read s = some (t, rest) →
    ∃ w u, Space w ∧ ValueText t u ∧ s = w ++ u ++ rest

theorem Space.append {w₁ w₂ : List UInt8} (h₁ : Space w₁) (h₂ : Space w₂) : Space (w₁ ++ w₂) := by
  intro c hc
  rcases List.mem_append.1 hc with hc | hc
  · exact h₁ c hc
  · exact h₂ c hc

theorem peek_eq {c : UInt8} {s : List UInt8} (hc : c ≠ 0) (h : peek s = c) :
    ∃ w, Space w ∧ s = w ++ c :: (skipWhitespace s).tail := by
  obtain ⟨w, hw, hs⟩ := skipWhitespace_split s
  refine ⟨w, hw, ?_⟩
  unfold peek at h
  cases hskip : skipWhitespace s with
  | nil =>
      rw [hskip] at h
      exact absurd h.symm hc
  | cons d t =>
      rw [hskip] at h hs
      obtain rfl : d = c := h
      exact hs

section Sound

variable {read : List UInt8 → Option (Tree × List UInt8)}

theorem readItems_sound (hread : Sound read) {n : ℕ} {s rest : List UInt8} {ts : List Tree}
    (h : readItems read n s = some (ts, rest)) :
    ∃ u, ItemsText ts u ∧ s = u ++ 0x5D :: rest := by
  induction n generalizing s ts with
  | zero => cases h
  | succ n ih =>
      obtain ⟨⟨t, s₁⟩, ht, h⟩ := Option.bind_eq_some_iff.1 h
      obtain ⟨w₁, u, hw₁, hu, hs⟩ := hread _ _ _ ht
      dsimp only at h
      cases hcomma : consume 0x2C s₁ with
      | some s₂ =>
          rw [hcomma] at h
          obtain ⟨⟨ts, s₃⟩, hts, h⟩ := Option.map_eq_some_iff.1 h
          obtain ⟨rfl, rfl⟩ := Prod.mk.inj h
          obtain ⟨w₂, hw₂, rfl⟩ := consume_sound hcomma
          obtain ⟨v, hv, rfl⟩ := ih hts
          exact ⟨_, .more hw₁ hu hw₂ hv, by simp [hs]⟩
      | none =>
          rw [hcomma] at h
          obtain ⟨s₂, hclose, h⟩ := Option.map_eq_some_iff.1 h
          obtain ⟨rfl, rfl⟩ := Prod.mk.inj h
          obtain ⟨w₂, hw₂, rfl⟩ := consume_sound hclose
          exact ⟨_, .one hw₁ hu hw₂, by simp [hs]⟩

theorem readArray_sound (hread : Sound read) : Sound (readArray read) := by
  intro s t rest h
  obtain ⟨s₁, hopen, hinner⟩ := Option.bind_eq_some_iff.1 h
  obtain ⟨w, hw, rfl⟩ := consume_sound hopen
  split at hinner
  · next hpeek =>
      obtain ⟨rfl, rfl⟩ := Prod.mk.inj (Option.some.inj hinner)
      obtain ⟨v, hv, hs₁⟩ := peek_eq (by decide) hpeek
      refine ⟨w, _, hw, .emptyArray hv, ?_⟩
      rw [List.append_assoc, List.cons_append, List.cons_append, List.append_assoc,
        List.singleton_append, ← hs₁]
  · obtain ⟨⟨ts, s₂⟩, hts, heq⟩ := Option.map_eq_some_iff.1 hinner
    obtain ⟨rfl, rfl⟩ := Prod.mk.inj heq
    obtain ⟨u, hu, rfl⟩ := readItems_sound hread hts
    exact ⟨w, _, hw, .array hu, by simp⟩

theorem readMember_sound (hread : Sound read) {s rest : List UInt8} {m : List Piece × Tree}
    (h : readMember read s = some (m, rest)) {w : List UInt8} (hw : Space w)
    {c : UInt8} {tail : List UInt8} (hrest : rest = w ++ c :: tail) :
    ∃ u, MemberText m u ∧ s = u ++ c :: tail := by
  obtain ⟨⟨key, s₁⟩, hkey, h⟩ := Option.bind_eq_some_iff.1 h
  obtain ⟨s₂, hcolon, h⟩ := Option.bind_eq_some_iff.1 h
  obtain ⟨⟨t, s₃⟩, ht, h⟩ := Option.map_eq_some_iff.1 h
  obtain ⟨rfl, rfl⟩ := Prod.mk.inj h
  obtain ⟨w₁, hw₁, hs⟩ := skipWhitespace_split s
  obtain ⟨k, hk, hskip⟩ := readString_sound hkey
  obtain ⟨w₂, hw₂, rfl⟩ := consume_sound hcolon
  obtain ⟨w₃, u, hw₃, hu, rfl⟩ := hread _ _ _ ht
  refine ⟨_, .mk hw₁ hk hw₂ hw₃ hu hw, ?_⟩
  rw [hs, hskip, hrest]
  simp

theorem readMembers_sound (hread : Sound read) {n : ℕ} {s rest : List UInt8}
    {ms : List (List Piece × Tree)} (h : readMembers read n s = some (ms, rest)) :
    ∃ u, MembersText ms u ∧ s = u ++ 0x7D :: rest := by
  induction n generalizing s ms with
  | zero => cases h
  | succ n ih =>
      obtain ⟨⟨m, s₁⟩, hm, h⟩ := Option.bind_eq_some_iff.1 h
      dsimp only at h
      cases hcomma : consume 0x2C s₁ with
      | some s₂ =>
          rw [hcomma] at h
          obtain ⟨⟨ms, s₃⟩, hms, h⟩ := Option.map_eq_some_iff.1 h
          obtain ⟨rfl, rfl⟩ := Prod.mk.inj h
          obtain ⟨w, hw, hs₁⟩ := consume_sound hcomma
          obtain ⟨u, hu, rfl⟩ := readMember_sound hread hm hw hs₁
          obtain ⟨v, hv, rfl⟩ := ih hms
          exact ⟨_, .more hu hv, by simp⟩
      | none =>
          rw [hcomma] at h
          obtain ⟨s₂, hclose, h⟩ := Option.map_eq_some_iff.1 h
          obtain ⟨rfl, rfl⟩ := Prod.mk.inj h
          obtain ⟨w, hw, hs₁⟩ := consume_sound hclose
          obtain ⟨u, hu, rfl⟩ := readMember_sound hread hm hw hs₁
          exact ⟨_, .one hu, rfl⟩

theorem readObject_sound (hread : Sound read) : Sound (readObject read) := by
  intro s t rest h
  obtain ⟨s₁, hopen, hinner⟩ := Option.bind_eq_some_iff.1 h
  obtain ⟨w, hw, rfl⟩ := consume_sound hopen
  split at hinner
  · next hpeek =>
      obtain ⟨rfl, rfl⟩ := Prod.mk.inj (Option.some.inj hinner)
      obtain ⟨v, hv, hs₁⟩ := peek_eq (by decide) hpeek
      refine ⟨w, _, hw, .emptyObject hv, ?_⟩
      rw [List.append_assoc, List.cons_append, List.cons_append, List.append_assoc,
        List.singleton_append, ← hs₁]
  · obtain ⟨⟨ms, s₂⟩, hms, heq⟩ := Option.map_eq_some_iff.1 hinner
    obtain ⟨rfl, rfl⟩ := Prod.mk.inj heq
    obtain ⟨u, hu, rfl⟩ := readMembers_sound hread hms
    exact ⟨w, _, hw, .object hu, by simp⟩

theorem literal_sound {lit s rest : List UInt8} {t v : Tree} (ht : ValueText v lit)
    (h : (matchLiteral lit s).map (v, ·) = some (t, rest)) :
    ∃ w u, Space w ∧ ValueText t u ∧ s = w ++ u ++ rest := by
  obtain ⟨s₁, hmatch, h⟩ := Option.map_eq_some_iff.1 h
  obtain ⟨rfl, rfl⟩ := Prod.mk.inj h
  exact ⟨[], lit, space_nil, ht, matchLiteral_sound hmatch⟩

theorem readFrom_sound (hread : Sound read) (c : UInt8) : Sound (readFrom read c) := by
  intro s t rest h
  unfold readFrom at h
  split_ifs at h
  · obtain ⟨⟨ps, s₁⟩, hps, h⟩ := Option.map_eq_some_iff.1 h
    obtain ⟨rfl, rfl⟩ := Prod.mk.inj h
    obtain ⟨u, hu, rfl⟩ := readString_sound hps
    exact ⟨[], _, space_nil, .string hu, by simp⟩
  · exact readObject_sound hread _ _ _ h
  · exact readArray_sound hread _ _ _ h
  · exact literal_sound .yes h
  · exact literal_sound .no h
  · exact literal_sound .null h
  · obtain ⟨⟨text, s₁⟩, htext, h⟩ := Option.map_eq_some_iff.1 h
    obtain ⟨rfl, rfl⟩ := Prod.mk.inj h
    obtain ⟨hnumber, rfl⟩ := scanNumber_sound htext
    exact ⟨[], text, space_nil, .number hnumber, by simp⟩

end Sound

theorem readValue_sound (n : ℕ) : Sound (readValue n) := by
  induction n with
  | zero =>
      intro s t rest h
      cases h
  | succ n ih =>
      intro s t rest h
      obtain ⟨w, hw, hs⟩ := skipWhitespace_split s
      rw [readValue] at h
      cases hskip : skipWhitespace s with
      | nil =>
          rw [hskip] at h
          cases h
      | cons c s' =>
          rw [hskip] at h hs
          obtain ⟨w', u, hw', hu, hs'⟩ := readFrom_sound ih c _ _ _ h
          refine ⟨w ++ w', u, hw.append hw', hu, ?_⟩
          rw [hs, hs', List.append_assoc, List.append_assoc, List.append_assoc]

theorem readText_sound {s : List UInt8} {t : Tree} (h : readText s = some t) : JsonText t s := by
  obtain ⟨⟨v, rest⟩, hv, hend⟩ := Option.bind_eq_some_iff.1 h
  obtain ⟨w, u, hw, hu, rfl⟩ := readValue_sound _ _ _ _ hv
  dsimp only at hend
  split at hend
  · next hrest =>
      obtain rfl := Option.some.inj hend
      exact .mk hw hu (space_of_skipWhitespace hrest)
  · cases hend

/-! ## What is derived is read -/

/-- The text is read as the tree, wherever it stands. -/
def Reads (n : ℕ) (t : Tree) (u : List UInt8) : Prop :=
  ∀ w rest, Space w → Closes rest → readValue n (w ++ u ++ rest) = some (t, rest)

theorem readValue_cons {n : ℕ} {w : List UInt8} (hw : Space w) {c : UInt8}
    (hc : isSpace c = false) (s : List UInt8) :
    readValue (n + 1) (w ++ c :: s) = readFrom (readValue n) c (c :: s) := by
  rw [readValue, skipWhitespace_append hw, skipWhitespace_cons hc]

theorem isSpace_of_digit {c : UInt8} (h : c = 0x2D ∨ isDigit c = true) : isSpace c = false := by
  rw [Bool.eq_false_iff]
  intro hspace
  simp only [isSpace, Bool.or_eq_true, decide_eq_true_eq] at hspace
  rcases hspace with ((rfl | rfl) | rfl) | rfl <;> revert h <;> decide

theorem readFrom_number {read : List UInt8 → Option (Tree × List UInt8)} {c : UInt8}
    (hc : c = 0x2D ∨ isDigit c = true) (s : List UInt8) :
    readFrom read c s = (scanNumber s).map fun (text, s) => (.number text, s) := by
  have hne : c ≠ 0x22 ∧ c ≠ 0x7B ∧ c ≠ 0x5B ∧ c ≠ 0x74 ∧ c ≠ 0x66 ∧ c ≠ 0x6E := by
    refine ⟨?_, ?_, ?_, ?_, ?_, ?_⟩ <;> rintro rfl <;> revert hc <;> decide
  simp [readFrom, hne, hc]

theorem closes_bracket {w : List UInt8} (hw : Space w) {c : UInt8}
    (hc : c = 0x2C ∨ c = 0x5D ∨ c = 0x7D) (s : List UInt8) : Closes (w ++ c :: s) := by
  cases w with
  | nil => exact fun d hd => .inr (Option.some.inj hd ▸ hc)
  | cons d w => exact fun e he => .inl (Option.some.inj he ▸ hw d List.mem_cons_self)

theorem closes_space {w : List UInt8} (hw : Space w) : Closes w := by
  cases w with
  | nil => exact fun c hc => nomatch hc
  | cons d w => exact fun e he => .inl (Option.some.inj he ▸ hw d List.mem_cons_self)

/-- The byte a value starts with. -/
theorem ValueText.head {t : Tree} {u : List UInt8} (h : ValueText t u) :
    ∃ c s, u = c :: s ∧ isSpace c = false ∧ c ≠ 0x5D := by
  cases h with
  | number hnumber =>
      obtain ⟨c, s, rfl, hc⟩ := hnumber.head
      refine ⟨c, s, rfl, isSpace_of_digit hc, ?_⟩
      rintro rfl
      revert hc
      decide
  | _ => exact ⟨_, _, rfl, by decide, by decide⟩

theorem peek_append {w : List UInt8} (hw : Space w) {c : UInt8} (hc : isSpace c = false)
    (s : List UInt8) : peek (w ++ c :: s) = c := by
  rw [peek, skipWhitespace_append hw, skipWhitespace_cons hc]
  rfl

/-- The items of an array do not start with its closing bracket. -/
theorem ItemsText.peek_ne {ts : List Tree} {u : List UInt8} (h : ItemsText ts u)
    (rest : List UInt8) : peek (u ++ rest) ≠ 0x5D := by
  cases h with
  | one hw₁ hu _ =>
      obtain ⟨c, s, rfl, hspace, hne⟩ := hu.head
      rw [List.append_assoc, List.append_assoc, List.cons_append, peek_append hw₁ hspace]
      exact hne
  | more hw₁ hu _ _ =>
      obtain ⟨c, s, rfl, hspace, hne⟩ := hu.head
      rw [List.append_assoc, List.append_assoc, List.append_assoc, List.cons_append,
        peek_append hw₁ hspace]
      exact hne

theorem MemberText.peek_eq {m : List Piece × Tree} {u : List UInt8} (h : MemberText m u)
    (rest : List UInt8) : peek (u ++ rest) = 0x22 := by
  cases h with
  | mk hw₁ _ _ _ _ _ => simp [peek_append hw₁ (show isSpace 0x22 = false by decide)]

theorem MembersText.peek_eq {ms : List (List Piece × Tree)} {u : List UInt8}
    (h : MembersText ms u) (rest : List UInt8) : peek (u ++ rest) = 0x22 := by
  cases h with
  | one hm => exact hm.peek_eq rest
  | more hm _ =>
      rw [List.append_assoc]
      exact hm.peek_eq _

theorem ItemsText.readArray {n : ℕ} {ts : List Tree} {u : List UInt8} (h : ItemsText ts u)
    (hread : ∀ k rest, u.length < k →
      readItems (readValue n) k (u ++ 0x5D :: rest) = some (ts, rest)) (rest : List UInt8) :
    Json.readArray (readValue n) (0x5B :: (u ++ 0x5D :: rest)) = some (.array ts, rest) := by
  have hopen : consume 0x5B (0x5B :: (u ++ 0x5D :: rest)) = some (u ++ 0x5D :: rest) :=
    consume_append space_nil (by decide) _
  have hlength : u.length < (u ++ 0x5D :: rest).length + 1 := by
    simp only [List.length_append, List.length_cons]
    omega
  rw [Json.readArray, hopen, Option.bind_some, if_neg (h.peek_ne _), hread _ _ hlength]
  rfl

theorem MembersText.readObject {n : ℕ} {ms : List (List Piece × Tree)} {u : List UInt8}
    (h : MembersText ms u)
    (hread : ∀ k rest, u.length < k →
      readMembers (readValue n) k (u ++ 0x7D :: rest) = some (ms, rest)) (rest : List UInt8) :
    Json.readObject (readValue n) (0x7B :: (u ++ 0x7D :: rest)) = some (.object ms, rest) := by
  have hopen : consume 0x7B (0x7B :: (u ++ 0x7D :: rest)) = some (u ++ 0x7D :: rest) :=
    consume_append space_nil (by decide) _
  have hlength : u.length < (u ++ 0x7D :: rest).length + 1 := by
    simp only [List.length_append, List.length_cons]
    omega
  have hpeek : peek (u ++ 0x7D :: rest) ≠ 0x7D := by
    rw [h.peek_eq]
    decide
  rw [Json.readObject, hopen, Option.bind_some, if_neg hpeek, hread _ _ hlength]
  rfl

/-- A value is read, if what is in it is. -/
theorem reads_of_readFrom {n : ℕ} {t : Tree} {c : UInt8} {s : List UInt8}
    (hc : isSpace c = false)
    (h : ∀ rest, Closes rest → readFrom (readValue n) c (c :: s ++ rest) = some (t, rest)) :
    Reads (n + 1) t (c :: s) := by
  intro w rest hw hrest
  rw [List.append_assoc, List.cons_append, readValue_cons hw hc]
  exact h rest hrest

mutual

theorem ValueText.reads {t : Tree} {u : List UInt8} (h : ValueText t u) {n : ℕ}
    (hn : u.length ≤ n) : Reads n t u := by
  obtain ⟨n, rfl⟩ : ∃ m, n = m + 1 := by
    obtain ⟨c, s, rfl, -, -⟩ := h.head
    exact Nat.exists_eq_succ_of_ne_zero (Nat.ne_zero_of_lt hn)
  match h with
  | .null =>
      refine reads_of_readFrom (by decide) fun rest _ => ?_
      exact congrArg (Option.map _) (matchLiteral_append (ascii "null") rest)
  | .yes =>
      refine reads_of_readFrom (by decide) fun rest _ => ?_
      exact congrArg (Option.map _) (matchLiteral_append (ascii "true") rest)
  | .no =>
      refine reads_of_readFrom (by decide) fun rest _ => ?_
      exact congrArg (Option.map _) (matchLiteral_append (ascii "false") rest)
  | .number hnumber =>
      obtain ⟨c, s, rfl, hc⟩ := hnumber.head
      refine reads_of_readFrom (isSpace_of_digit hc) fun rest hrest => ?_
      rw [readFrom_number hc, hnumber.scan hrest]
      rfl
  | @ValueText.string _ u hchars =>
      refine reads_of_readFrom (by decide) fun rest _ => ?_
      have hread := hchars.readString rest
      simp [readFrom, hread]
  | @ValueText.emptyArray w hw =>
      refine reads_of_readFrom (by decide) fun rest _ => ?_
      have hopen : consume 0x5B (0x5B :: (w ++ 0x5D :: rest)) = some (w ++ 0x5D :: rest) :=
        consume_append space_nil (by decide) _
      have hpeek := peek_append hw (show isSpace 0x5D = false by decide) rest
      simp [readFrom, Json.readArray, hopen, hpeek, skipWhitespace_append hw,
        skipWhitespace_cons (show isSpace 0x5D = false by decide)]
  | @ValueText.array _ u hitems =>
      refine reads_of_readFrom (by decide) fun rest _ => ?_
      have hlength : u.length ≤ n := by
        simp only [List.cons_append, List.length_cons, List.length_append] at hn
        omega
      have hread := hitems.readArray (fun k rest hk => hitems.reads hlength hk rest) rest
      simp [readFrom, hread]
  | @ValueText.emptyObject w hw =>
      refine reads_of_readFrom (by decide) fun rest _ => ?_
      have hopen : consume 0x7B (0x7B :: (w ++ 0x7D :: rest)) = some (w ++ 0x7D :: rest) :=
        consume_append space_nil (by decide) _
      have hpeek := peek_append hw (show isSpace 0x7D = false by decide) rest
      simp [readFrom, Json.readObject, hopen, hpeek, skipWhitespace_append hw,
        skipWhitespace_cons (show isSpace 0x7D = false by decide)]
  | @ValueText.object _ u hmembers =>
      refine reads_of_readFrom (by decide) fun rest _ => ?_
      have hlength : u.length ≤ n := by
        simp only [List.cons_append, List.length_cons, List.length_append] at hn
        omega
      have hread := hmembers.readObject (fun k rest hk => hmembers.reads hlength hk rest) rest
      simp [readFrom, hread]

theorem ItemsText.reads {ts : List Tree} {u : List UInt8} (h : ItemsText ts u) {n k : ℕ}
    (hn : u.length ≤ n) (hk : u.length < k) (rest : List UInt8) :
    readItems (readValue n) k (u ++ 0x5D :: rest) = some (ts, rest) := by
  obtain ⟨k, rfl⟩ := Nat.exists_eq_succ_of_ne_zero (Nat.ne_zero_of_lt hk)
  match h with
  | @ItemsText.one _ w₁ u w₂ hw₁ hu hw₂ =>
      have hlength : u.length ≤ n := by
        simp only [List.length_append] at hn
        omega
      have hread := hu.reads hlength w₁ (w₂ ++ 0x5D :: rest) hw₁
        (closes_bracket hw₂ (.inr (.inl rfl)) rest)
      have hcomma : consume 0x2C (w₂ ++ 0x5D :: rest) = none :=
        consume_ne hw₂ (by decide) (by decide) rest
      have hclose : consume 0x5D (w₂ ++ 0x5D :: rest) = some rest :=
        consume_append hw₂ (by decide) rest
      rw [List.append_assoc, readItems, hread, Option.bind_some]
      simp [hcomma, hclose]
  | @ItemsText.more _ _ w₁ u w₂ v hw₁ hu hw₂ hts =>
      have hlength : u.length ≤ n ∧ v.length ≤ n ∧ v.length < k := by
        simp only [List.length_append, List.length_cons] at hn hk
        omega
      have hread := hu.reads hlength.1 w₁ (w₂ ++ 0x2C :: (v ++ 0x5D :: rest)) hw₁
        (closes_bracket hw₂ (.inl rfl) _)
      have hcomma : consume 0x2C (w₂ ++ 0x2C :: (v ++ 0x5D :: rest)) = some (v ++ 0x5D :: rest) :=
        consume_append hw₂ (by decide) _
      have hitems := hts.reads hlength.2.1 hlength.2.2 rest
      rw [List.append_assoc, List.append_assoc, List.cons_append, readItems, hread,
        Option.bind_some]
      simp [hcomma, hitems]

theorem MemberText.reads {m : List Piece × Tree} {u : List UInt8} (h : MemberText m u) {n : ℕ}
    (hn : u.length ≤ n) {c : UInt8} (hc : c = 0x2C ∨ c = 0x5D ∨ c = 0x7D) (rest : List UInt8) :
    ∃ w, Space w ∧ readMember (readValue n) (u ++ c :: rest) = some (m, w ++ c :: rest) := by
  match h with
  | @MemberText.mk _ _ w₁ k w₂ w₃ u w₄ hw₁ hk hw₂ hw₃ hu hw₄ =>
      have hlength : u.length ≤ n := by
        simp only [List.length_append, List.length_cons] at hn
        omega
      refine ⟨w₄, hw₄, ?_⟩
      have hread := hu.reads hlength w₃ (w₄ ++ c :: rest) hw₃ (closes_bracket hw₄ hc rest)
      have hcolon : consume 0x3A (w₂ ++ 0x3A :: (w₃ ++ u ++ (w₄ ++ c :: rest))) =
          some (w₃ ++ u ++ (w₄ ++ c :: rest)) := consume_append hw₂ (by decide) _
      have hkey := hk.readString (w₂ ++ 0x3A :: (w₃ ++ u ++ (w₄ ++ c :: rest)))
      have htext : w₁ ++ 0x22 :: k ++ 0x22 :: w₂ ++ 0x3A :: (w₃ ++ u ++ w₄) ++ c :: rest =
          w₁ ++ 0x22 :: (k ++ 0x22 :: (w₂ ++ 0x3A :: (w₃ ++ u ++ (w₄ ++ c :: rest)))) := by
        simp
      rw [htext, readMember, skipWhitespace_append hw₁, skipWhitespace_cons (by decide), hkey,
        Option.bind_some]
      simp only [hcolon, Option.bind_some, hread, Option.map_some]

theorem MembersText.reads {ms : List (List Piece × Tree)} {u : List UInt8}
    (h : MembersText ms u) {n k : ℕ} (hn : u.length ≤ n) (hk : u.length < k)
    (rest : List UInt8) : readMembers (readValue n) k (u ++ 0x7D :: rest) = some (ms, rest) := by
  obtain ⟨k, rfl⟩ := Nat.exists_eq_succ_of_ne_zero (Nat.ne_zero_of_lt hk)
  match h with
  | .one hm =>
      obtain ⟨w, hw, hread⟩ := hm.reads hn (.inr (.inr rfl)) rest
      have hcomma : consume 0x2C (w ++ 0x7D :: rest) = none :=
        consume_ne hw (by decide) (by decide) rest
      have hclose : consume 0x7D (w ++ 0x7D :: rest) = some rest :=
        consume_append hw (by decide) rest
      rw [readMembers, hread, Option.bind_some]
      simp [hcomma, hclose]
  | @MembersText.more _ _ u v hm hms =>
      have hlength : u.length ≤ n ∧ v.length ≤ n ∧ v.length < k := by
        simp only [List.length_append, List.length_cons] at hn hk
        omega
      obtain ⟨w, hw, hread⟩ := hm.reads hlength.1 (.inl rfl) (v ++ 0x7D :: rest)
      have hcomma : consume 0x2C (w ++ 0x2C :: (v ++ 0x7D :: rest)) = some (v ++ 0x7D :: rest) :=
        consume_append hw (by decide) _
      have hmembers := hms.reads hlength.2.1 hlength.2.2 rest
      rw [List.append_assoc, List.cons_append, readMembers, hread, Option.bind_some]
      simp [hcomma, hmembers]

end

theorem JsonText.readText {t : Tree} {s : List UInt8} (h : JsonText t s) :
    readText s = some t := by
  cases h with
  | @mk w₁ u w₂ hw₁ hu hw₂ =>
      have hlength : u.length ≤ (w₁ ++ u ++ w₂).length + 1 := by
        simp only [List.length_append]
        omega
      have hread := hu.reads hlength w₁ w₂ hw₁ (closes_space hw₂)
      rw [Json.readText, hread, Option.bind_some]
      simp [skipWhitespace_space hw₂]

/-- The reader reads the texts of the grammar. -/
theorem readText_iff {s : List UInt8} {t : Tree} : readText s = some t ↔ JsonText t s :=
  ⟨readText_sound, JsonText.readText⟩

theorem JsonText.unique {t₁ t₂ : Tree} {s : List UInt8} (h₁ : JsonText t₁ s)
    (h₂ : JsonText t₂ s) : t₁ = t₂ :=
  Option.some.inj (h₁.readText.symm.trans h₂.readText)

theorem lcnJsonParse_iff {s : List UInt8} {v : LcnJsonValue} :
    lcnJsonParse s = some v ↔ ∃ t, JsonText t s ∧ t.eval = some v := by
  simp only [lcnJsonParse_eq, Option.bind_eq_some_iff, readText_iff]

end Limceron.Json
