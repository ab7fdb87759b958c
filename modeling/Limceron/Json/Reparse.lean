/-
# `Limceron.Json.Reparse` — what the parser accepts, written and parsed again

A parsed value comes back where each of its numbers does (`reparses_iff`).  The numbers
that do not:

| number | what is written | |
| :-- | :-- | :-- |
| an infinity, as of `1e999` | `inf` | no text of the grammar |
| a number below `2 ^ (-1022)`, not zero | seventeen digits | the parser refuses it |

The numbers of the value are those of the text, but for the members that a later member of
their key replaces (`Tree.kept`).
-/
import Limceron.Json.Decimals

namespace Limceron.Json

open Binary64

/-! ## The bytes outside of strings -/

inductive Place where
  | outside
  | inside
  /-- Behind a backslash. -/
  | escaped

def Place.next : Place → UInt8 → Place
  | .outside, c => if c = 0x22 then .inside else .outside
  | .inside, c => if c = 0x5C then .escaped else if c = 0x22 then .outside else .inside
  | .escaped, _ => .inside

/-- Where a text ends that starts there. -/
def Place.behind (p : Place) (u : List UInt8) : Place := u.foldl Place.next p

/-- The bytes that stand outside of strings, and their quotes. -/
def bare : Place → List UInt8 → List UInt8
  | _, [] => []
  | .outside, c :: u => c :: bare (Place.next .outside c) u
  | .inside, c :: u => bare (Place.next .inside c) u
  | .escaped, c :: u => bare (Place.next .escaped c) u

theorem bare_append (p : Place) (u v : List UInt8) :
    bare p (u ++ v) = bare p u ++ bare (p.behind u) v := by
  induction u generalizing p with
  | nil => rfl
  | cons c u ih => cases p <;> simp [bare, Place.behind, ih]

theorem behind_append (p : Place) (u v : List UInt8) :
    p.behind (u ++ v) = (p.behind u).behind v := List.foldl_append ..

/-- Strings are closed, and no `i` stands outside of them. -/
structure Clean (u : List UInt8) : Prop where
  closed : Place.behind .outside u = .outside
  bare : 0x69 ∉ bare .outside u

theorem Clean.nil : Clean [] := ⟨rfl, by simp [Json.bare]⟩

theorem clean_append {u v : List UInt8} (hu : Place.behind .outside u = .outside) :
    Clean (u ++ v) ↔ 0x69 ∉ bare .outside u ∧ Clean v := by
  constructor
  · rintro ⟨hclosed, hbare⟩
    rw [behind_append, hu] at hclosed
    rw [bare_append, hu, List.mem_append, not_or] at hbare
    exact ⟨hbare.1, hclosed, hbare.2⟩
  · rintro ⟨hbare, hclosed, hbare'⟩
    refine ⟨by rw [behind_append, hu, hclosed], ?_⟩
    rw [bare_append, hu, List.mem_append, not_or]
    exact ⟨hbare, hbare'⟩

theorem Clean.append {u v : List UInt8} (hu : Clean u) (hv : Clean v) : Clean (u ++ v) :=
  (clean_append hu.closed).2 ⟨hu.bare, hv⟩

/-- Bytes that are no quotes. -/
theorem bare_eq {u : List UInt8} (h : 0x22 ∉ u) :
    Place.behind .outside u = .outside ∧ bare .outside u = u := by
  induction u with
  | nil => exact ⟨rfl, rfl⟩
  | cons c u ih =>
      rw [List.mem_cons, not_or] at h
      obtain ⟨hclosed, hbare⟩ := ih h.2
      have hnext : Place.next .outside c = .outside := if_neg (Ne.symm h.1)
      refine ⟨?_, ?_⟩
      · rw [Place.behind, List.foldl_cons, hnext]
        exact hclosed
      · rw [bare, hnext, hbare]

theorem clean_plain {u : List UInt8} (hquote : 0x22 ∉ u) (hletter : 0x69 ∉ u) : Clean u := by
  obtain ⟨hclosed, hbare⟩ := bare_eq hquote
  exact ⟨hclosed, by rwa [hbare]⟩

/-! ## Strings -/

/-- A part of a string. -/
structure Inside (u : List UInt8) : Prop where
  inside : Place.behind .inside u = .inside
  bare : bare .inside u = []

theorem Inside.nil : Inside [] := ⟨rfl, rfl⟩

theorem Inside.append {u v : List UInt8} (hu : Inside u) (hv : Inside v) : Inside (u ++ v) where
  inside := by rw [behind_append, hu.inside, hv.inside]
  bare := by rw [bare_append, hu.inside, hu.bare, hv.bare, List.nil_append]

theorem Inside.byte {c : UInt8} (hquote : c ≠ 0x22) (hbackslash : c ≠ 0x5C) : Inside [c] := by
  have hnext : Place.next .inside c = .inside := by
    rw [Place.next, if_neg hbackslash, if_neg hquote]
  exact ⟨hnext, by simp [Json.bare]⟩

theorem Inside.escape (c : UInt8) : Inside [0x5C, c] := ⟨rfl, rfl⟩

theorem HexDigit.inside {c : UInt8} {n : ℕ} (h : HexDigit c n) : Inside [c] := by
  have hbytes : c ≠ 0x22 ∧ c ≠ 0x5C := by
    cases h with
    | digit hn => interval_cases n <;> decide
    | upper hn => rename_i n; interval_cases n <;> decide
    | lower hn => rename_i n; interval_cases n <;> decide
  exact .byte hbytes.1 hbytes.2

theorem CodeUnit.inside {n : ℕ} {u : List UInt8} (h : CodeUnit n u) : Inside u := by
  cases h with
  | mk ha hb hc hd => exact ha.inside.append (hb.inside.append (hc.inside.append hd.inside))

theorem PieceText.inside {p : Piece} {u : List UInt8} (h : PieceText p u) : Inside u := by
  cases h with
  | raw _ hquote hbackslash => exact .byte hquote hbackslash
  | short _ => exact .escape _
  | code hcode _ => exact (Inside.escape 0x75).append hcode.inside
  | pair hhigh _ hlow _ =>
      exact ((Inside.escape 0x75).append hhigh.inside).append
        ((Inside.escape 0x75).append hlow.inside)

theorem Chars.inside {ps : List Piece} {u : List UInt8} (h : Chars ps u) : Inside u := by
  induction h with
  | nil => exact .nil
  | cons hpiece _ ih => exact hpiece.inside.append ih

theorem Inside.quoted {u : List UInt8} (h : Inside u) : Clean (0x22 :: u ++ [0x22]) := by
  refine ⟨?_, ?_⟩
  · change Place.behind .inside (u ++ [0x22]) = .outside
    rw [behind_append, h.inside]
    rfl
  · change 0x69 ∉ 0x22 :: Json.bare .inside (u ++ [0x22])
    rw [bare_append, h.inside, h.bare]
    decide

theorem clean_stringifyString (s : List UInt8) : Clean (stringifyString s) :=
  (chars_flatMap s).inside.quoted

/-! ## Texts of the grammar -/

theorem Space.clean {w : List UInt8} (h : Space w) : Clean w :=
  clean_plain (fun hmem => absurd (h _ hmem) (by decide))
    fun hmem => absurd (h _ hmem) (by decide)

theorem NumberText.clean {u : List UInt8} (h : NumberText u) : Clean u :=
  clean_plain ((show Foreign 0x22 by decide).number h) ((show Foreign 0x69 by decide).number h)

theorem Clean.cons {c : UInt8} {u : List UInt8} (hu : Clean u)
    (hc : c ≠ 0x22 ∧ c ≠ 0x69 := by decide) : Clean (c :: u) :=
  (clean_plain (u := [c]) (by simpa using hc.1.symm) (by simpa using hc.2.symm)).append hu

mutual

theorem ValueText.clean {t : Tree} {u : List UInt8} (h : ValueText t u) : Clean u := by
  match h with
  | .null | .yes | .no => exact clean_plain (by decide) (by decide)
  | .number hnumber => exact hnumber.clean
  | .string hchars => exact hchars.inside.quoted
  | .emptyArray hw => exact (Clean.append hw.clean (Clean.nil.cons)).cons
  | .array hitems => exact (Clean.append hitems.clean (Clean.nil.cons)).cons
  | .emptyObject hw => exact (Clean.append hw.clean (Clean.nil.cons)).cons
  | .object hmembers => exact (Clean.append hmembers.clean (Clean.nil.cons)).cons

theorem ItemsText.clean {ts : List Tree} {u : List UInt8} (h : ItemsText ts u) : Clean u := by
  match h with
  | .one hw hu hw' => exact (hw.clean.append hu.clean).append hw'.clean
  | .more hw hu hw' hts =>
      exact ((hw.clean.append hu.clean).append hw'.clean).append hts.clean.cons

theorem MemberText.clean {m : List Piece × Tree} {u : List UInt8} (h : MemberText m u) :
    Clean u := by
  match h with
  | @MemberText.mk _ _ _ _ _ w₃ u w₄ hw₁ hk hw₂ hw₃ hu hw₄ =>
      have hvalue : Clean (0x3A :: (w₃ ++ u ++ w₄)) :=
        ((hw₃.clean.append hu.clean).append hw₄.clean).cons
      have hmember := (hw₁.clean.append hk.inside.quoted).append (hw₂.clean.append hvalue)
      simpa using hmember

theorem MembersText.clean {ms : List (List Piece × Tree)} {u : List UInt8}
    (h : MembersText ms u) : Clean u := by
  match h with
  | .one hm => exact hm.clean
  | .more hm hms => exact hm.clean.append hms.clean.cons

end

theorem JsonText.clean {t : Tree} {s : List UInt8} (h : JsonText t s) : Clean s := by
  cases h with
  | mk hw hu hw' => exact (hw.clean.append hu.clean).append hw'.clean

/-! ## Infinities are seen -/

/-- A text with closed strings, of which `Q` holds if it is clean. -/
structure Tells (u : List UInt8) (Q : Prop) : Prop where
  closed : Place.behind .outside u = .outside
  clean : 0x69 ∉ bare .outside u → Q

theorem Clean.tells {u : List UInt8} (h : Clean u) : Tells u True := ⟨h.closed, fun _ => trivial⟩

theorem Tells.append {u v : List UInt8} {Q R : Prop} (hu : Tells u Q) (hv : Tells v R) :
    Tells (u ++ v) (Q ∧ R) where
  closed := by rw [behind_append, hu.closed, hv.closed]
  clean := by
    rw [bare_append, hu.closed, List.mem_append, not_or]
    exact fun h => ⟨hu.clean h.1, hv.clean h.2⟩

theorem Tells.imp {u : List UInt8} {Q R : Prop} (h : Tells u Q) (himp : Q → R) : Tells u R :=
  ⟨h.closed, fun hclean => himp (h.clean hclean)⟩

/-- A byte before and the bytes behind. -/
theorem Tells.between {u v : List UInt8} {Q : Prop} (h : Tells u Q) {c : UInt8} (hv : Clean v)
    (hc : c ≠ 0x22 ∧ c ≠ 0x69 := by decide) : Tells (c :: u ++ v) Q :=
  (((Clean.nil.cons hc).tells.append h).append hv.tells).imp fun h => h.1.2

def Finite (d : Double) : Prop := d.isInfinite = false

theorem tells_stringifyNumber (d : Double) : Tells (stringifyNumber d) (Finite d) := by
  cases d with
  | finite q hq =>
      exact (numberText_stringifyNumber (d := .finite q hq) rfl).clean.tells.imp fun _ => rfl
  | infinite negative =>
      cases negative with
      | false => exact ⟨rfl, fun hclean => absurd (by decide) hclean⟩
      | true => exact ⟨rfl, fun hclean => absurd (by decide) hclean⟩

mutual

theorem tells_stringifyValue {P : Double → Prop} {v : LcnJsonValue} (h : Shaped P v) :
    Tells (stringifyValue v) (Shaped Finite v) := by
  match v with
  | .null => exact (ValueText.null.clean).tells
  | .boolean true => exact (ValueText.yes.clean).tells
  | .boolean false => exact (ValueText.no.clean).tells
  | .number d => exact tells_stringifyNumber d
  | .string str => exact (clean_stringifyString str).tells
  | .array items => exact (tells_stringifyItems h).between Clean.nil.cons
  | .object members =>
      exact ((tells_stringifyMembers h.2).between Clean.nil.cons).imp fun hmembers => ⟨h.1, hmembers⟩

theorem tells_stringifyItems {P : Double → Prop} {items : List LcnJsonValue}
    (h : ShapedItems P items) : Tells (stringifyItems items) (ShapedItems Finite items) := by
  match items with
  | [] => exact Clean.nil.tells
  | [v] => exact (tells_stringifyValue h.1).imp fun hv => ⟨hv, trivial⟩
  | v :: w :: items =>
      have hrest := (Clean.nil.cons (c := 0x2C)).tells.append (tells_stringifyItems h.2)
      exact ((tells_stringifyValue h.1).append hrest).imp fun hboth => ⟨hboth.1, hboth.2.2⟩

theorem tells_stringifyMembers {P : Double → Prop} {members : List (List UInt8 × LcnJsonValue)}
    (h : ShapedMembers P members) :
    Tells (stringifyMembers members) (ShapedMembers Finite members) := by
  match members with
  | [] => exact Clean.nil.tells
  | [(key, v)] =>
      have hvalue := (Clean.nil.cons (c := 0x3A)).tells.append (tells_stringifyValue h.2.1)
      exact ((clean_stringifyString (cstr key)).tells.append hvalue).imp
        fun hboth => ⟨h.1, hboth.2.2, trivial⟩
  | (key, v) :: m :: members =>
      have hrest := (Clean.nil.cons (c := 0x2C)).tells.append (tells_stringifyMembers h.2.2)
      have hvalue := (Clean.nil.cons (c := 0x3A)).tells.append
        ((tells_stringifyValue h.2.1).append hrest)
      have hmember := (clean_stringifyString (cstr key)).tells.append hvalue
      have htext : stringifyMembers ((key, v) :: m :: members) = stringifyString (cstr key) ++
          ([0x3A] ++ (stringifyValue v ++ ([0x2C] ++ stringifyMembers (m :: members)))) := by
        simp [stringifyMembers]
      rw [htext]
      exact hmember.imp fun hboth => ⟨h.1, hboth.2.2.1, hboth.2.2.2.2⟩

end

/-! ## The members that stay -/

/-- The keys of members, as they are kept. -/
def keysOf (ms : List (List Piece × Tree)) : List (List UInt8) := ms.map fun m => cstr (decode m.1)

mutual

/-- The numbers of the value: a later member of a key replaces the members before it. -/
def Tree.kept : Tree → List (List UInt8)
  | .null => []
  | .boolean _ => []
  | .number text => [text]
  | .string _ => []
  | .array ts => itemKept ts
  | .object ms => memberKept ms

def itemKept : List Tree → List (List UInt8)
  | [] => []
  | t :: ts => t.kept ++ itemKept ts

def memberKept : List (List Piece × Tree) → List (List UInt8)
  | [] => []
  | (key, t) :: ms =>
      (if cstr (decode key) ∈ keysOf ms then [] else t.kept) ++ memberKept ms

end

/-- Members with keys that are C strings, no two of them the same. -/
structure Keyed (members : List (List UInt8 × LcnJsonValue)) : Prop where
  nodup : (members.map Prod.fst).Nodup
  cstrings : ∀ m ∈ members, 0 ∉ m.1

theorem mem_setMember {key : List UInt8} {v : LcnJsonValue}
    {members : List (List UInt8 × LcnJsonValue)} (h : (members.map Prod.fst).Nodup)
    {m : List UInt8 × LcnJsonValue} :
    m ∈ setMember members key v ↔ m = (key, v) ∨ m.1 ≠ key ∧ m ∈ members := by
  induction members with
  | nil => simp [setMember]
  | cons n members ih =>
      obtain ⟨k, w⟩ := n
      rw [List.map_cons, List.nodup_cons] at h
      by_cases heq : k = key
      · subst heq
        have hother : ∀ m ∈ members, m.1 ≠ k :=
          fun m hm hk => h.1 (List.mem_map.2 ⟨m, hm, hk⟩)
        rw [setMember, if_pos rfl, List.mem_cons, List.mem_cons]
        constructor
        · rintro (rfl | hm)
          · exact .inl rfl
          · exact .inr ⟨hother m hm, .inr hm⟩
        · rintro (rfl | ⟨hk, rfl | hm⟩)
          · exact .inl rfl
          · exact absurd rfl hk
          · exact .inr hm
      · rw [setMember, if_neg heq, List.mem_cons, ih h.2, List.mem_cons]
        constructor
        · rintro (rfl | rfl | hm)
          · exact .inr ⟨heq, .inl rfl⟩
          · exact .inl rfl
          · exact .inr ⟨hm.1, .inr hm.2⟩
        · rintro (rfl | ⟨hk, rfl | hm⟩)
          · exact .inr (.inl rfl)
          · exact .inl rfl
          · exact .inr (.inr ⟨hk, hm⟩)

theorem keys_setMember (key : List UInt8) (v : LcnJsonValue)
    (members : List (List UInt8 × LcnJsonValue)) :
    (setMember members key v).map Prod.fst =
      if key ∈ members.map Prod.fst then members.map Prod.fst
      else members.map Prod.fst ++ [key] := by
  induction members with
  | nil => rfl
  | cons m members ih =>
      obtain ⟨k, w⟩ := m
      by_cases heq : k = key
      · simp [setMember, heq]
      · rw [setMember, if_neg heq, List.map_cons, ih]
        simp only [List.map_cons, List.mem_cons, Ne.symm heq, false_or]
        split <;> rfl

theorem Keyed.setMember {members : List (List UInt8 × LcnJsonValue)} (h : Keyed members)
    {key : List UInt8} (hkey : 0 ∉ key) (v : LcnJsonValue) : Keyed (setMember members key v) where
  nodup := by
    rw [keys_setMember]
    split
    · exact h.nodup
    · next hnew =>
        refine List.nodup_append.2 ⟨h.nodup, List.nodup_singleton _, ?_⟩
        rintro a ha b hb rfl
        exact hnew (List.mem_singleton.1 hb ▸ ha)
  cstrings := by
    intro m hm
    rcases (mem_setMember h.nodup).1 hm with rfl | ⟨-, hm⟩
    · exact hkey
    · exact h.cstrings m hm

theorem cstr_ne_zero (s : List UInt8) : 0 ∉ cstr s :=
  fun hmem => absurd (List.mem_takeWhile_imp hmem) (by decide)

theorem shapedMembers_iff {P : Double → Prop} {members : List (List UInt8 × LcnJsonValue)} :
    ShapedMembers P members ↔ ∀ m ∈ members, 0 ∉ m.1 ∧ Shaped P m.2 := by
  induction members with
  | nil => simp [ShapedMembers]
  | cons m members ih =>
      obtain ⟨key, v⟩ := m
      rw [ShapedMembers, ih, List.forall_mem_cons, and_assoc]

/-! ## The shape of a parsed value -/

section Kept

variable {P : Double → Prop}

/-- The numbers of which these are the texts are as `P` says. -/
def AllKept (P : Double → Prop) (texts : List (List UInt8)) : Prop :=
  ∀ u ∈ texts, ∀ d, numberOf u = some d → P d

theorem allKept_append {us vs : List (List UInt8)} :
    AllKept P (us ++ vs) ↔ AllKept P us ∧ AllKept P vs := List.forall_mem_append

mutual

theorem Tree.eval_shaped {t : Tree} {v : LcnJsonValue} (h : t.eval = some v) :
    Shaped P v ↔ AllKept P t.kept := by
  match t with
  | .null | .boolean _ | .string _ =>
      obtain rfl := Option.some.inj h
      simp [Shaped, Tree.kept, AllKept]
  | .number text =>
      obtain ⟨d, hd, rfl⟩ := Option.map_eq_some_iff.1 h
      simp [Shaped, Tree.kept, AllKept, hd]
  | .array ts =>
      obtain ⟨items, hitems, rfl⟩ := Option.map_eq_some_iff.1 h
      exact evalItems_shaped hitems
  | .object ms =>
      obtain ⟨members, hmembers, rfl⟩ := Option.map_eq_some_iff.1 h
      obtain ⟨hkeyed, hshaped⟩ := evalMembers_shaped hmembers ⟨List.nodup_nil, by simp⟩
      have hiff : (∀ m ∈ members, Shaped P m.2) ↔ AllKept P (memberKept ms) :=
        hshaped.trans (and_iff_right (by simp))
      rw [Tree.kept, ← hiff, Shaped, shapedMembers_iff]
      exact ⟨fun hv m hm => (hv.2 m hm).2,
        fun hv => ⟨hkeyed.nodup, fun m hm => ⟨hkeyed.cstrings m hm, hv m hm⟩⟩⟩

theorem evalItems_shaped {ts : List Tree} {items : List LcnJsonValue}
    (h : evalItems ts = some items) : ShapedItems P items ↔ AllKept P (itemKept ts) := by
  match ts with
  | [] =>
      obtain rfl := Option.some.inj h
      simp [ShapedItems, itemKept, AllKept]
  | t :: ts =>
      obtain ⟨v, hv, hrest⟩ := Option.bind_eq_some_iff.1 h
      obtain ⟨vs, hvs, rfl⟩ := Option.map_eq_some_iff.1 hrest
      rw [ShapedItems, itemKept, allKept_append, Tree.eval_shaped hv, evalItems_shaped hvs]

/-- Of the members before, those stay that none behind replaces. -/
theorem evalMembers_shaped {ms : List (List Piece × Tree)}
    {before after : List (List UInt8 × LcnJsonValue)} (h : evalMembers before ms = some after)
    (hbefore : Keyed before) :
    Keyed after ∧ ((∀ m ∈ after, Shaped P m.2) ↔
      (∀ m ∈ before, m.1 ∉ keysOf ms → Shaped P m.2) ∧ AllKept P (memberKept ms)) := by
  match ms with
  | [] =>
      obtain rfl := Option.some.inj h
      refine ⟨hbefore, ?_⟩
      simp [keysOf, memberKept, AllKept]
  | (key, t) :: ms =>
      obtain ⟨v, hv, hrest⟩ := Option.bind_eq_some_iff.1 h
      obtain ⟨hkeyed, hshaped⟩ :=
        evalMembers_shaped hrest (hbefore.setMember (cstr_ne_zero _) v)
      refine ⟨hkeyed, hshaped.trans ?_⟩
      have hvalue : Shaped P v ↔ AllKept P t.kept := Tree.eval_shaped hv
      have hkeys : keysOf ((key, t) :: ms) = cstr (decode key) :: keysOf ms := rfl
      rw [memberKept, allKept_append, hkeys]
      constructor
      · rintro ⟨hmembers, hkept⟩
        refine ⟨fun m hm hnew => ?_, ?_, hkept⟩
        · rw [List.mem_cons, not_or] at hnew
          exact hmembers m ((mem_setMember hbefore.nodup).2 (.inr ⟨hnew.1, hm⟩)) hnew.2
        · split
          · simp [AllKept]
          · next hlast =>
              exact hvalue.1 (hmembers _ ((mem_setMember hbefore.nodup).2 (.inl rfl)) hlast)
      · rintro ⟨hmembers, hnew, hkept⟩
        refine ⟨fun m hm hlast => ?_, hkept⟩
        rcases (mem_setMember hbefore.nodup).1 hm with rfl | ⟨hne, hm⟩
        · rw [if_neg hlast] at hnew
          exact hvalue.2 hnew
        · exact hmembers m hm (List.not_mem_cons_of_ne_of_not_mem hne hlast)

end

end Kept

/-! ## Numbers that are written and not read back -/

mutual

/-- A written number that is read back comes back in its value. -/
theorem shaped_of_reads {P Q : Double → Prop}
    (hP : ∀ d, P d → (numberOf (stringifyNumber d)).isSome → Q d) {v : LcnJsonValue}
    (h : Shaped P v) (hreads : ∀ u ∈ (treeOf v).numbers, (numberOf u).isSome) : Shaped Q v := by
  match v with
  | .null | .boolean _ | .string _ => trivial
  | .number d => exact hP d h (hreads _ List.mem_cons_self)
  | .array items => exact shapedItems_of_reads hP h hreads
  | .object members => exact ⟨h.1, shapedMembers_of_reads hP h.2 hreads⟩

theorem shapedItems_of_reads {P Q : Double → Prop}
    (hP : ∀ d, P d → (numberOf (stringifyNumber d)).isSome → Q d) {items : List LcnJsonValue}
    (h : ShapedItems P items)
    (hreads : ∀ u ∈ itemNumbers (itemTrees items), (numberOf u).isSome) :
    ShapedItems Q items := by
  match items with
  | [] => trivial
  | v :: items =>
      obtain ⟨hfirst, hrest⟩ := List.forall_mem_append.1 hreads
      exact ⟨shaped_of_reads hP h.1 hfirst, shapedItems_of_reads hP h.2 hrest⟩

theorem shapedMembers_of_reads {P Q : Double → Prop}
    (hP : ∀ d, P d → (numberOf (stringifyNumber d)).isSome → Q d)
    {members : List (List UInt8 × LcnJsonValue)} (h : ShapedMembers P members)
    (hreads : ∀ u ∈ memberNumbers (memberTrees members), (numberOf u).isSome) :
    ShapedMembers Q members := by
  match members with
  | [] => trivial
  | (key, v) :: members =>
      obtain ⟨hfirst, hrest⟩ := List.forall_mem_append.1 hreads
      exact ⟨h.1, shaped_of_reads hP h.2.1 hfirst, shapedMembers_of_reads hP h.2.2 hrest⟩

end

theorem normal_of_reads {d : Double} (hfinite : Finite d)
    (h : (numberOf (stringifyNumber d)).isSome) : Normal d := by
  cases d with
  | infinite negative => cases hfinite
  | finite q hq =>
      by_contra hsmall
      rw [(numberOf_stringifyNumber hq).2 hsmall] at h
      cases h

theorem Normal.finite {d : Double} (h : Normal d) : Finite d := by
  cases d with
  | infinite negative => cases h
  | finite q hq => rfl

theorem Normal.numberOf {d : Double} (h : Normal d) : numberOf (stringifyNumber d) = some d := by
  cases d with
  | infinite negative => cases h
  | finite q hq => exact (numberOf_stringifyNumber hq).1 h

theorem stringifyNumber_ne_zero (d : Double) : 0 ∉ stringifyNumber d := by
  cases d with
  | finite q hq => exact (numberText_stringifyNumber (d := .finite q hq) rfl).ne_zero
  | infinite negative => cases negative <;> decide

/-- A value of any numbers is read back as some value if they are normal, and else refused. -/
theorem normal_of_reparse {P : Double → Prop} {v : LcnJsonValue} (h : Shaped P v)
    (hparse : (lcnJsonParse (cstr (lcnJsonStringify v))).isSome) : Shaped Normal v := by
  obtain ⟨w, hw⟩ := Option.isSome_iff_exists.1 hparse
  obtain ⟨t, ht, heval⟩ := lcnJsonParse_iff.1 hw
  have hclean := ht.clean
  rw [lcnJsonStringify,
    cstr_eq (stringifyValue_ne_zero (fun d _ => stringifyNumber_ne_zero d) h)] at hclean
  have hfinite : Shaped Finite v := (tells_stringifyValue h).clean hclean.bare
  have htext := jsonText_stringify (fun d hd => numberText_stringifyNumber hd) hfinite
  obtain rfl := ht.unique htext
  refine shaped_of_reads (fun d hd hreads => normal_of_reads hd hreads) hfinite ?_
  exact (Tree.eval_isSome (treeOf v)).1 (by simp [heval])

/-! ## Parsed, written and parsed again -/

/-- What is parsed of the text comes back, when it is written and parsed again. -/
def Reparses (s : List UInt8) : Prop :=
  ∀ v, lcnJsonParse s = some v → lcnJsonParse (cstr (lcnJsonStringify v)) = some v

mutual

theorem Tree.kept_subset (t : Tree) : t.kept ⊆ t.numbers := by
  match t with
  | .null | .boolean _ | .string _ => exact List.nil_subset _
  | .number text => exact List.Subset.refl _
  | .array ts => exact itemKept_subset ts
  | .object ms => exact memberKept_subset ms

theorem itemKept_subset (ts : List Tree) : itemKept ts ⊆ itemNumbers ts := by
  match ts with
  | [] => exact List.nil_subset _
  | t :: ts =>
      exact List.append_subset.2 ⟨List.subset_append_of_subset_left _ (Tree.kept_subset t),
        List.subset_append_of_subset_right _ (itemKept_subset ts)⟩

theorem memberKept_subset (ms : List (List Piece × Tree)) : memberKept ms ⊆ memberNumbers ms := by
  match ms with
  | [] => exact List.nil_subset _
  | (key, t) :: ms =>
      refine List.append_subset.2 ⟨List.subset_append_of_subset_left _ ?_,
        List.subset_append_of_subset_right _ (memberKept_subset ms)⟩
      split
      · exact List.nil_subset _
      · exact Tree.kept_subset t

end

/-- The numbers of a text that is accepted. -/
theorem allKept_iff {P : Double → Prop} {t : Tree} {s : List UInt8} (ht : JsonText t s)
    (hflag : ¬ t.Underflows) :
    AllKept P t.kept ↔ ∀ u ∈ t.kept, P (ofRat (scanDecimal u).value) := by
  refine forall₂_congr fun u hu => ?_
  have hmem := Tree.kept_subset t hu
  have hnone : ¬ Binary64.Underflows (scanDecimal u).value := fun h => hflag ⟨u, hmem, h⟩
  rw [numberOf_eq (ht.parts.1 u hmem), if_neg hnone]
  simp

/-- A parsed value comes back, if and only if its numbers are normal or zero. -/
theorem reparses_iff (s : List UInt8) :
    Reparses s ↔ ∀ t, JsonText t s → ¬ t.Underflows →
      ∀ u ∈ t.kept, Normal (ofRat (scanDecimal u).value) := by
  constructor
  · intro h t ht hflag
    obtain ⟨v, hv⟩ := Option.isSome_iff_exists.1 (ht.eval_isSome.2 hflag)
    have hparse := h v (lcnJsonParse_iff.2 ⟨t, ht, hv⟩)
    have hany : Shaped (fun _ => True) v := (Tree.eval_shaped hv).2 fun _ _ _ _ => trivial
    have hnormal : Shaped Normal v := normal_of_reparse hany (by rw [hparse]; rfl)
    exact (allKept_iff ht hflag).1 ((Tree.eval_shaped hv).1 hnormal)
  · intro h v hv
    obtain ⟨t, ht, heval⟩ := lcnJsonParse_iff.1 hv
    have hflag : ¬ t.Underflows := ht.eval_isSome.1 (by simp [heval])
    have hnormal : Shaped Normal v :=
      (Tree.eval_shaped heval).2 ((allKept_iff ht hflag).2 (h t ht hflag))
    exact reparse_of_shaped (fun _ hd => numberText_stringifyNumber hd.finite)
      (fun _ hd => hd.numberOf) hnormal

/-- `1e999` is parsed as an infinity, which is written as `inf`. -/
theorem not_reparses : ¬ ∀ s, Reparses s := by
  intro h
  have hread : readText (ascii "1e999") = some (.number (ascii "1e999")) := rfl
  have hnumber : numberOf (ascii "1e999") = some (.infinite false) := by decide +kernel
  have hparse : lcnJsonParse (ascii "1e999") = some (.number (.infinite false)) := by
    rw [lcnJsonParse_eq, hread, Option.bind_some, Tree.eval, hnumber]
    rfl
  have hagain := h _ _ hparse
  have hsome : (lcnJsonParse (cstr (lcnJsonStringify (.number (.infinite false))))).isSome := by
    rw [hagain]
    rfl
  exact absurd hsome (by decide)

end Limceron.Json
