/-
# `Limceron.C99.MatchRuns` — what a printed match does

The pieces of an `if` chain are read as a tree of `if` statements as far as the first
catch-all, those of a `switch` as its cases.  Which arm is run is then found by the
tests, or by the labels, and compared with the first arm that matches:

| | the printed match runs | |
| :-- | :-- | :-- |
| chain | the first printed arm whose test holds | `pick` |
| switch | the arm with the label of the variant, or `default` | `armOf` |

`match_right_iff` says for which matches this is the arm that is meant.
-/
import Limceron.C99.Match

namespace Limceron.C99.Match

variable {g : CodeGen}

/-! ## Reading an arm -/

theorem ends_of_parseStmt {n : Nat} {s : CStmt} {ps ps' : List Piece}
    (h : parseStmt n ps = some (s, ps')) : ends ps = false := by
  cases n with
  | zero => cases h
  | succ n =>
    rw [Bool.eq_false_iff]
    intro hends
    unfold ends at hends
    split at hends
    all_goals first | cases h | cases hends

/-- Where a statement begins, the statements go on. -/
theorem parseStmts_cons {n : Nat} {s : CStmt} {ps ps' : List Piece}
    (h : parseStmt n ps = some (s, ps')) :
    parseStmts (n + 1) ps = (parseStmts n ps').map fun r => (s :: r.1, r.2) := by
  refine (if_neg (Bool.eq_false_iff.mp (ends_of_parseStmt h))).trans ?_
  rw [h]
  dsimp only
  cases parseStmts n ps' <;> rfl

theorem parseStmts_ends {n : Nat} {ps : List Piece} (h : ends ps) :
    parseStmts (n + 1) ps = some ([], ps) := by
  exact if_pos h

/-- The statements of an arm. -/
def armStmts (binds : List Path) (rest : List CStmt) : List CStmt := binds.map .bind ++ rest

theorem parseStmts_binds {n : Nat} {ss : List CStmt} {ps rest : List Piece} (binds : List Path)
    (h : parseStmts n ps = some (ss, rest)) (hn : n ≠ 0) :
    parseStmts (n + binds.length) (binds.map .bind ++ ps) = some (armStmts binds ss, rest) := by
  induction binds with
  | nil => exact h
  | cons p binds ih =>
    have hbind : parseStmt (n + binds.length) (.bind p :: (binds.map .bind ++ ps)) =
        some (.bind p, binds.map .bind ++ ps) := by
      obtain ⟨n, rfl⟩ := Nat.exists_eq_add_one_of_ne_zero hn
      rw [Nat.add_right_comm]
      rfl
    rw [List.length_cons, List.map_cons, List.cons_append, ← Nat.add_assoc,
      parseStmts_cons hbind, ih]
    rfl

/-- A block has to end with its brace. -/
theorem parseStmt_lbrace {n : Nat} {ss : List CStmt} {ps rest : List Piece}
    (h : parseStmts n ps = some (ss, .rbrace :: rest)) :
    parseStmt (n + 1) (.lbrace :: ps) = some (.block ss, rest) := by
  conv_lhs => whnf
  rw [h]

theorem parseStmt_lbrace_else {n : Nat} {ss : List CStmt} {ps rest : List Piece}
    (h : parseStmts n ps = some (ss, .else_ :: rest)) :
    parseStmt (n + 1) (.lbrace :: ps) = none := by
  conv_lhs => whnf
  rw [h]

/-- A block of the variables and what is behind them. -/
theorem parseStmt_block {n : Nat} {ss : List CStmt} {ps rest : List Piece} (binds : List Path)
    (h : parseStmts n ps = some (ss, .rbrace :: rest)) (hn : n ≠ 0) :
    parseStmt (n + binds.length + 1) (.lbrace :: (binds.map .bind ++ ps)) =
      some (.block (armStmts binds ss), rest) := by
  rw [parseStmt_lbrace (parseStmts_binds binds h hn)]

/-! ## Reading a chain -/

/-- An `if` without `else`. -/
theorem parseStmt_ifTest {n : Nat} {t : Test} {a : CStmt} {ps rest : List Piece}
    (h : parseStmt n ps = some (a, .rbrace :: rest)) :
    parseStmt (n + 1) (.ifTest t :: ps) = some (.ifte t a [], .rbrace :: rest) := by
  conv_lhs => whnf
  rw [h]

theorem parseStmt_ifElse {n : Nat} {t : Test} {a e : CStmt} {ps ps' rest : List Piece}
    (h : parseStmt n ps = some (a, .else_ :: ps')) (h' : parseStmt n ps' = some (e, rest)) :
    parseStmt (n + 1) (.ifTest t :: ps) = some (.ifte t a [e], rest) := by
  conv_lhs => whnf
  rw [h]
  dsimp only
  rw [h']

/-- The block of an arm. -/
def Item.block (i : Item) : CStmt := .block (armStmts i.head.binds [.body i.body])

/-- The `if` statements up to the first catch-all. -/
def tree (i : Item) : List Item → CStmt
  | [] =>
      match i.head.test with
      | none => i.block
      | some t => .ifte t i.block []
  | j :: js =>
      match i.head.test with
      | none => i.block
      | some t => .ifte t i.block [tree j js]

/-- The arms behind the first catch-all. -/
def after (i : Item) : List Item → List Item
  | [] => []
  | j :: js => if i.head.test.isNone then j :: js else after j js

/-- The rest of a chain, behind the brace of an arm. -/
def tail : List Item → List Piece
  | [] => []
  | i :: is => .else_ :: (i.open_ ++ .rbrace :: tail is)

theorem chain_false (elseFirst : Bool) (is : List Item) :
    chain elseFirst false is = .rbrace :: tail is := by
  induction is with
  | nil => rfl
  | cons i is ih =>
    rw [chain, ih, tail]
    simp

/-- The steps that reading an arm takes. -/
def Item.size (i : Item) : Nat := i.head.binds.length + 5

def size : List Item → Nat
  | [] => 0
  | i :: is => i.size + size is

theorem parse_inner {n : Nat} {i : Item} {rest : List Piece} (hn : i.size ≤ n + 1) :
    parseStmt n (.lbrace :: (i.head.binds.map .bind ++ [.body i.body] ++ .rbrace :: rest)) =
      some (i.block, rest) := by
  rw [Item.size] at hn
  obtain ⟨m, rfl⟩ : ∃ m, n = m + 3 + i.head.binds.length + 1 :=
    ⟨n - i.head.binds.length - 4, by omega⟩
  have hbody : parseStmt (m + 2) (.body i.body :: .rbrace :: rest) =
      some (.body i.body, .rbrace :: rest) := rfl
  have hstmts : parseStmts (m + 3) (.body i.body :: .rbrace :: rest) =
      some ([.body i.body], .rbrace :: rest) := by
    rw [parseStmts_cons hbody, parseStmts_ends rfl]
    rfl
  rw [List.append_assoc, List.singleton_append]
  exact parseStmt_block i.head.binds hstmts (by omega)

theorem Item.open_none {i : Item} (h : i.head.test = none) :
    i.open_ = .lbrace :: (i.head.binds.map .bind ++ [.body i.body]) := by
  rw [Item.open_, h]
  rfl

theorem Item.open_some {i : Item} {t : Test} (h : i.head.test = some t) :
    i.open_ = .ifTest t :: .lbrace :: (i.head.binds.map .bind ++ [.body i.body]) := by
  rw [Item.open_, h]
  rfl

/-- A chain is read up to the first catch-all. -/
theorem parse_tree {i : Item} {is : List Item} {rest : List Piece} {n : Nat}
    (hn : size (i :: is) ≤ n) :
    parseStmt n (i.open_ ++ .rbrace :: (tail is ++ .rbrace :: rest)) =
      some (tree i is, tail (after i is) ++ .rbrace :: rest) := by
  induction is generalizing i n with
  | nil =>
    have hsize : i.size ≤ n := by simpa [size] using hn
    cases htest : i.head.test with
    | none =>
      rw [Item.open_none htest, List.cons_append, parse_inner (by omega), tree, htest]
      rfl
    | some t =>
      obtain ⟨m, rfl⟩ : ∃ m, n = m + 1 := ⟨n - 1, by rw [Item.size] at hsize; omega⟩
      have hinner : parseStmt m (.lbrace :: (i.head.binds.map .bind ++ [.body i.body] ++
          .rbrace :: .rbrace :: rest)) = some (i.block, .rbrace :: rest) := parse_inner hsize
      rw [tree, htest]
      exact (congrArg (parseStmt (m + 1)) (by rw [Item.open_some htest]; rfl)).trans
        (parseStmt_ifTest hinner)
  | cons j js ih =>
    have hsize : i.size + size (j :: js) ≤ n := by simpa [size] using hn
    cases htest : i.head.test with
    | none =>
      rw [Item.open_none htest, List.cons_append, parse_inner (by omega), tree, htest, after,
        htest]
      rfl
    | some t =>
      obtain ⟨m, rfl⟩ : ∃ m, n = m + 1 := ⟨n - 1, by rw [Item.size] at hsize; omega⟩
      have hrest := ih (i := j) (n := m) (by rw [Item.size] at hsize; omega)
      have hinner : parseStmt m (.lbrace :: (i.head.binds.map .bind ++ [.body i.body] ++
          .rbrace :: (tail (j :: js) ++ .rbrace :: rest))) =
            some (i.block, tail (j :: js) ++ .rbrace :: rest) := parse_inner (by omega)
      simp only [tail, List.cons_append, List.append_assoc] at hinner
      rw [Item.open_some htest, List.cons_append, List.cons_append, tree, htest, after, htest,
        tail]
      simp only [List.cons_append, List.append_assoc]
      rw [parseStmt_ifElse hinner hrest]
      rfl

theorem after_eq_nil {i : Item} {is : List Item} :
    after i is = [] ↔ (i :: is).Pairwise fun i _ => i.head.test.isSome := by
  induction is generalizing i with
  | nil => simp [after]
  | cons j js ih =>
    rw [after, List.pairwise_cons]
    cases htest : i.head.test with
    | none =>
      constructor
      · intro h
        cases h
      · rintro ⟨h, -⟩
        cases h j List.mem_cons_self
    | some t =>
      rw [Option.isNone_some, if_neg Bool.false_ne_true, ih]
      exact ⟨fun h => ⟨fun _ _ => rfl, h⟩, fun h => h.2⟩

/-! ## The chain as a whole -/

theorem ends_tail (is : List Item) : ends (tail is ++ [.rbrace]) := by
  cases is <;> rfl

/-- A chain that begins with an arm. -/
theorem parse_chain {t : CType} {i : Item} {is : List Item} {n : Nat}
    (hn : size (i :: is) + 3 ≤ n) :
    parseStmt n (.lbrace :: .subject t :: (i.open_ ++ .rbrace :: (tail is ++ [.rbrace]))) =
      if after i is = [] then some (.block [.subject t, tree i is], []) else none := by
  obtain ⟨m, rfl⟩ : ∃ m, n = m + 3 := ⟨n - 3, by omega⟩
  have htree : parseStmt m (i.open_ ++ .rbrace :: (tail is ++ [.rbrace])) =
      some (tree i is, tail (after i is) ++ [.rbrace]) := parse_tree (by omega)
  have hsubject : parseStmt (m + 1)
      (.subject t :: (i.open_ ++ .rbrace :: (tail is ++ [.rbrace]))) =
        some (.subject t, i.open_ ++ .rbrace :: (tail is ++ [.rbrace])) := rfl
  have hm : m ≠ 0 := by
    rintro rfl
    cases htree
  obtain ⟨m, rfl⟩ := Nat.exists_eq_add_one_of_ne_zero hm
  have hstmts : parseStmts (m + 1 + 2)
      (.subject t :: (i.open_ ++ .rbrace :: (tail is ++ [.rbrace]))) =
        some ([.subject t, tree i is], tail (after i is) ++ [.rbrace]) := by
    rw [parseStmts_cons hsubject, parseStmts_cons htree, parseStmts_ends (ends_tail _)]
    rfl
  cases hafter : after i is with
  | nil =>
    rw [hafter] at hstmts
    exact parseStmt_lbrace hstmts
  | cons j js =>
    rw [hafter] at hstmts
    exact parseStmt_lbrace_else hstmts

/-- A chain has an arm to begin with. -/
def Begins (elseFirst : Bool) (is : List Item) : Prop :=
  elseFirst → ∀ i, is.head? = some i → i.head.test.isSome

/-- What is printed if a chain begins with an arm. -/
theorem chainMatch_cons {t : CType} {elseFirst : Bool} {i : Item} {is : List Item}
    (h : Begins elseFirst (i :: is)) :
    chainMatch t elseFirst (i :: is) =
      .lbrace :: .subject t :: (i.open_ ++ .rbrace :: (tail is ++ [.rbrace])) := by
  have hfirst : true = true ∧ ¬ (elseFirst = true ∧ i.head.test.isNone = true) := by
    refine ⟨rfl, ?_⟩
    rintro ⟨helse, hnone⟩
    have hsome := h helse i rfl
    rw [Option.isNone_iff_eq_none] at hnone
    rw [hnone] at hsome
    cases hsome
  rw [chainMatch, chain, chain_false, if_pos hfirst]
  simp

/-- Otherwise its first brace closes that of the match. -/
theorem chainMatch_else {t : CType} {i : Item} {is : List Item} (h : i.head.test = none) :
    chainMatch t true (i :: is) =
      .lbrace :: .subject t :: .rbrace :: .else_ ::
        (i.open_ ++ .rbrace :: (tail is ++ [.rbrace])) := by
  rw [chainMatch, chain, chain_false, if_neg (by simp [h])]
  simp

theorem size_le (is : List Item) : size is ≤ 2 * (tail is).length := by
  induction is with
  | nil => exact Nat.le_refl 0
  | cons i is ih =>
    have hsize : size (i :: is) = i.size + size is := by simp [size]
    have hopen : i.head.binds.length + 2 ≤ i.open_.length := by
      simp [Item.open_]
    rw [hsize, tail, Item.size]
    simp only [List.length_cons, List.length_append]
    omega

theorem parse_chainMatch {t : CType} {elseFirst : Bool} {i : Item} {is : List Item}
    (h : Begins elseFirst (i :: is)) :
    parse (chainMatch t elseFirst (i :: is)) =
      if after i is = [] then some (.block [.subject t, tree i is]) else none := by
  have hopen : i.head.binds.length + 2 ≤ i.open_.length := by
    simp [Item.open_]
  have hsize : size (i :: is) = i.size + size is := by simp [size]
  have htail := size_le is
  rw [parse, chainMatch_cons h, parse_chain]
  · by_cases hafter : after i is = []
    · rw [if_pos hafter, if_pos hafter]
    · rw [if_neg hafter, if_neg hafter]
  · rw [hsize, Item.size]
    simp only [List.length_cons, List.length_append]
    omega

theorem parse_chainMatch_nil (t : CType) (elseFirst : Bool) :
    parse (chainMatch t elseFirst []) = some (.block [.subject t]) := rfl

theorem parse_chainMatch_else {t : CType} {i : Item} {is : List Item} (h : i.head.test = none) :
    parse (chainMatch t true (i :: is)) = none := by
  rw [parse, chainMatch_else h]
  have hn : ∀ k, 2 * (k + 1 + 1 + 1 + 1) = 2 * k + 2 + 2 + 2 + 2 := by
    intro k
    omega
  rw [List.length_cons, List.length_cons, List.length_cons, List.length_cons, hn]
  rfl

/-! ## Braces -/

theorem depth_binds (binds : List Path) (ps : List Piece) (d : Nat) :
    depth (binds.map .bind ++ ps) d = depth ps d := by
  induction binds with
  | nil => rfl
  | cons p binds ih => exact ih

theorem depth_open (i : Item) (ps : List Piece) (d : Nat) :
    depth (i.open_ ++ .rbrace :: ps) d = depth ps d := by
  have hinner : depth (.lbrace :: (i.head.binds.map .bind ++ [.body i.body] ++ .rbrace :: ps)) d =
      depth ps d := by
    rw [List.append_assoc, depth_lbrace, depth_binds]
    rfl
  cases h : i.head.test with
  | none => rwa [Item.open_none h]
  | some t => rwa [Item.open_some h]

theorem depth_tail (is : List Item) (ps : List Piece) (d : Nat) :
    depth (tail is ++ ps) d = depth ps d := by
  induction is with
  | nil => rfl
  | cons i is ih =>
    rw [tail, List.cons_append, depth_else, List.append_assoc, List.cons_append, depth_open, ih]

theorem depth_chainMatch {t : CType} {elseFirst : Bool} {is : List Item}
    (h : Begins elseFirst is) : depth (chainMatch t elseFirst is) 0 = some 0 := by
  cases is with
  | nil => rfl
  | cons i is =>
    rw [chainMatch_cons h, depth_lbrace, depth_subject, depth_open, depth_tail]
    rfl

/-! ## Running a chain -/

/-- The first arm whose test holds. -/
def pick (v : Val) : List Item → Option Nat
  | [] => none
  | i :: is => if i.head.test.all (Test.eval v) then some i.body else pick v is

theorem pick_cons (v : Val) (i : Item) (is : List Item) :
    pick v (i :: is) = if i.head.test.all (Test.eval v) then some i.body else pick v is := rfl

theorem runAll_armStmts (v : Val) (exits : Nat → Exit) (binds : List Path) (ss : List CStmt) :
    runAll v exits (armStmts binds ss) = runAll v exits ss := by
  induction binds with
  | nil => rfl
  | cons p binds ih =>
    rw [armStmts, List.map_cons, List.cons_append, runAll_cons, CStmt.run_bind, ← armStmts, ih]
    rfl

theorem runAll_one (v : Val) (exits : Nat → Exit) (s : CStmt) :
    runAll v exits [s] = s.run v exits := by
  rw [runAll_cons, runAll_nil, Result.andThen]
  split
  · next h => rw [List.append_nil, ← h]
  · rfl

theorem Item.run_block (v : Val) (exits : Nat → Exit) (i : Item) :
    i.block.run v exits = ([.body i.body], exits i.body) := by
  rw [Item.block, CStmt.run_block, runAll_armStmts, runAll_one, CStmt.run_body]

/-- The body that is run, if any. -/
def ran (exits : Nat → Exit) : Option Nat → Result
  | some k => ([.body k], exits k)
  | none => ([], .next)

theorem run_tree (v : Val) (exits : Nat → Exit) (i : Item) (is : List Item) :
    (tree i is).run v exits = ran exits (pick v (i :: is)) := by
  induction is generalizing i with
  | nil =>
    rw [tree, pick_cons]
    cases htest : i.head.test with
    | none => exact i.run_block v exits
    | some t =>
      rw [CStmt.run_ifte, Option.all_some]
      split
      · exact i.run_block v exits
      · rfl
  | cons j js ih =>
    rw [tree, pick_cons]
    cases htest : i.head.test with
    | none => exact i.run_block v exits
    | some t =>
      rw [CStmt.run_ifte, Option.all_some, runAll_one, ih]
      split
      · exact i.run_block v exits
      · rfl

theorem run_chain (v : Val) (exits : Nat → Exit) (t : CType) (i : Item) (is : List Item) :
    (CStmt.block [.subject t, tree i is]).run v exits =
      ((Event.subject :: (ran exits (pick v (i :: is))).1), (ran exits (pick v (i :: is))).2) := by
  rw [CStmt.run_block, runAll_cons, runAll_one, run_tree, CStmt.run_subject]
  rfl

/-! ## The first arm -/

/-- The first arm with a pattern of the value, its guard not read. -/
def firstMatch (v : Val) (k : Nat) (as : List Arm) : Option Nat := firstArm v (fun _ => true) k as

theorem firstArm_cons {v : Val} {guards : Nat → Bool} {k : Nat} {a : Arm} {as : List Arm}
    (h : a.pat.matches v = false) :
    firstArm v guards k (a :: as) = firstArm v guards (k + 1) as := by
  rw [firstArm_step, if_neg (by simp [h])]

theorem firstMatch_cons {v : Val} {k : Nat} {a : Arm} {as : List Arm}
    (h : a.pat.matches v = false) : firstMatch v k (a :: as) = firstMatch v (k + 1) as :=
  firstArm_cons h

theorem firstMatch_head {v : Val} {k : Nat} {a : Arm} {as : List Arm}
    (h : a.pat.matches v = true) : firstMatch v k (a :: as) = some k := by
  rw [firstMatch, firstArm_step, if_pos ⟨h, fun _ => rfl⟩]

theorem le_of_firstArm {v : Val} {guards : Nat → Bool} {k i : Nat} {as : List Arm}
    (h : firstArm v guards k as = some i) : k ≤ i := by
  induction as generalizing k with
  | nil => cases h
  | cons a as ih =>
    rw [firstArm_step] at h
    split at h
    · exact Nat.le_of_eq (Option.some.inj h)
    · exact Nat.le_of_succ_le (ih h)

/-- Whatever the guards are, the first arm is the same: it has none. -/
theorem firstArm_guards {v : Val} {k : Nat} {as : List Arm} :
    (∀ guards, firstMatch v k as = firstArm v guards k as) ↔
      ∀ a, as.find? (·.pat.matches v) = some a → a.guarded = false := by
  induction as generalizing k with
  | nil =>
    constructor
    · intro _ a ha
      cases ha
    · intro _ guards
      rfl
  | cons a as ih =>
    cases hmatch : a.pat.matches v with
    | false =>
      rw [firstMatch_cons hmatch, List.find?_cons, hmatch, ← ih]
      constructor
      · intro h guards
        rw [h guards, firstArm_cons hmatch]
      · intro h guards
        rw [h guards, firstArm_cons hmatch]
    | true =>
      rw [firstMatch_head hmatch, List.find?_cons, hmatch]
      constructor
      · rintro h b ⟨⟩
        have hnever := h fun _ => false
        rw [firstArm_step] at hnever
        cases hguard : a.guarded with
        | false => rfl
        | true =>
          rw [hguard, if_neg (by simp)] at hnever
          exact absurd (le_of_firstArm hnever.symm) (Nat.not_succ_le_self k)
      · intro h guards
        rw [firstArm_step, h a rfl, if_pos ⟨hmatch, fun h => absurd h Bool.false_ne_true⟩]

/-- The arm that is run, and the one that is meant. -/
theorem run_eq_iff {m : MatchNode} {v : Val} {o : Option Nat} {x : Exit} {guards : Nat → Bool}
    (exits : Nat → Exit) (h : ((.subject :: (ran exits o).1, x) : Result) = m.run v guards exits) :
    o = firstArm v guards 0 m.arms := by
  have hr := congrArg Prod.fst h
  rw [MatchNode.run] at hr
  cases o with
  | none =>
    cases hfirst : firstArm v guards 0 m.arms with
    | none => rfl
    | some i =>
      rw [hfirst] at hr
      cases hr
  | some k =>
    cases hfirst : firstArm v guards 0 m.arms with
    | none =>
      rw [hfirst] at hr
      cases hr
    | some i =>
      rw [hfirst] at hr
      cases hr
      rfl

/-! ## Chains -/

theorem le_of_pick {v : Val} {print : Pat → Print} {k i : Nat} {as : List Arm} {is : List Item}
    (his : items print k as = some is) (h : pick v is = some i) : k ≤ i := by
  induction as generalizing k is with
  | nil =>
    cases his
    cases h
  | cons a as ih =>
    rcases items_cons his with ⟨hd, js, -, hjs, rfl⟩ | ⟨-, his⟩
    · rw [pick_cons] at h
      split at h
      · exact Nat.le_of_eq (Option.some.inj h)
      · exact Nat.le_of_succ_le (ih hjs h)
    · exact Nat.le_of_succ_le (ih his h)

/-- The tests that are printed say what the patterns say. -/
def Tests (print : Pat → Print) (v : Val) (as : List Arm) : Prop :=
  ∀ a ∈ as, ∀ h, print a.pat = .arm h → h.test.all (Test.eval v) = a.pat.matches v

/-- The first printed arm is the first that matches: that one is printed. -/
theorem pick_eq_iff {v : Val} {print : Pat → Print} {k : Nat} {as : List Arm} {is : List Item}
    (htests : Tests print v as) (his : items print k as = some is) :
    pick v is = firstMatch v k as ↔
      ∀ a, as.find? (·.pat.matches v) = some a → print a.pat ≠ .dropped := by
  induction as generalizing k is with
  | nil =>
    cases his
    refine ⟨?_, fun _ => rfl⟩
    rintro - a ⟨⟩
  | cons a as ih =>
    have hrest : Tests print v as := fun b hb => htests b (List.mem_cons_of_mem a hb)
    cases hmatch : a.pat.matches v with
    | false =>
      rw [firstMatch_cons hmatch, List.find?_cons, hmatch]
      rcases items_cons his with ⟨h, js, hprint, hjs, rfl⟩ | ⟨-, his⟩
      · have htest := htests a List.mem_cons_self h hprint
        rw [hmatch] at htest
        rw [← ih hrest hjs, pick_cons, htest, if_neg Bool.false_ne_true]
      · exact ih hrest his
    | true =>
      rw [firstMatch_head hmatch, List.find?_cons, hmatch]
      rcases items_cons his with ⟨h, js, hprint, hjs, rfl⟩ | ⟨hprint, his⟩
      · have htest := htests a List.mem_cons_self h hprint
        rw [hmatch] at htest
        rw [pick_cons, htest, if_pos rfl]
        refine ⟨?_, fun _ => rfl⟩
        rintro - b ⟨⟩
        rw [hprint]
        rintro ⟨⟩
      · constructor
        · intro h
          exact absurd (le_of_pick his h) (Nat.not_succ_le_self k)
        · intro h
          exact absurd hprint (h a rfl)

/-- The pieces that are no temporary, no label and no variable. -/
def Piece.shape : Piece → Bool
  | .subject _ => false
  | .case _ => false
  | .default_ => false
  | .bind _ => false
  | _ => true

theorem mem_open {i : Item} {q : Piece} (h : q ∈ i.open_) :
    q.shape ∨ ∃ p ∈ i.head.binds, q = .bind p := by
  have hinner : q ∈ .lbrace :: (i.head.binds.map .bind ++ [.body i.body]) →
      q.shape ∨ ∃ p ∈ i.head.binds, q = .bind p := by
    intro h
    rcases List.mem_cons.mp h with rfl | h
    · exact Or.inl rfl
    · rcases List.mem_append.mp h with h | h
      · obtain ⟨p, hp, rfl⟩ := List.mem_map.mp h
        exact Or.inr ⟨p, hp, rfl⟩
      · obtain rfl := List.mem_singleton.mp h
        exact Or.inl rfl
  cases htest : i.head.test with
  | none =>
    rw [Item.open_none htest] at h
    exact hinner h
  | some t =>
    rw [Item.open_some htest] at h
    rcases List.mem_cons.mp h with rfl | h
    · exact Or.inl rfl
    · exact hinner h

theorem mem_chain {elseFirst first : Bool} {is : List Item} {q : Piece}
    (h : q ∈ chain elseFirst first is) :
    q.shape ∨ ∃ i ∈ is, ∃ p ∈ i.head.binds, q = .bind p := by
  induction is generalizing first with
  | nil =>
    rw [chain] at h
    split at h
    · cases h
    · obtain rfl := List.mem_singleton.mp h
      exact Or.inl rfl
  | cons i is ih =>
    rw [chain] at h
    rcases List.mem_append.mp h with h | h
    · rcases List.mem_append.mp h with h | h
      · split at h
        · cases h
        · rcases List.mem_pair.mp h with rfl | rfl
          · exact Or.inl rfl
          · exact Or.inl rfl
      · exact (mem_open h).imp_right fun h => ⟨i, List.mem_cons_self, h⟩
    · refine (ih h).imp_right ?_
      rintro ⟨j, hj, h⟩
      exact ⟨j, List.mem_cons_of_mem i hj, h⟩

theorem mem_chainMatch {t : CType} {elseFirst : Bool} {is : List Item} {q : Piece}
    (h : q ∈ chainMatch t elseFirst is) :
    q = .subject t ∨ q.shape ∨ ∃ i ∈ is, ∃ p ∈ i.head.binds, q = .bind p := by
  rw [chainMatch] at h
  rcases List.mem_append.mp h with h | h
  · rcases List.mem_append.mp h with h | h
    · rcases List.mem_pair.mp h with rfl | rfl
      · exact Or.inr (Or.inl rfl)
      · exact Or.inl rfl
    · exact Or.inr (mem_chain h)
  · obtain rfl := List.mem_singleton.mp h
    exact Or.inr (Or.inl rfl)

theorem mem_items {print : Pat → Print} {k : Nat} {as : List Arm} {is : List Item} {i : Item}
    (his : items print k as = some is) (hi : i ∈ is) : ∃ a ∈ as, print a.pat = .arm i.head := by
  induction as generalizing k is with
  | nil =>
    cases his
    cases hi
  | cons a as ih =>
    have hrest : ∀ js, items print (k + 1) as = some js → i ∈ js →
        ∃ b ∈ a :: as, print b.pat = .arm i.head := by
      intro js hjs hi
      obtain ⟨b, hb, h⟩ := ih hjs hi
      exact ⟨b, List.mem_cons_of_mem a hb, h⟩
    rcases items_cons his with ⟨h, js, hprint, hjs, rfl⟩ | ⟨-, his⟩
    · rcases List.mem_cons.mp hi with rfl | hi
      · exact ⟨a, List.mem_cons_self, hprint⟩
      · exact hrest js hjs hi
    · exact hrest is his hi

theorem items_isSome {print : Pat → Print} {k : Nat} {as : List Arm}
    (h : ∀ a ∈ as, print a.pat ≠ .crash) : ∃ is, items print k as = some is := by
  induction as generalizing k with
  | nil => exact ⟨[], rfl⟩
  | cons a as ih =>
    obtain ⟨is, his⟩ := ih (k := k + 1) fun b hb => h b (List.mem_cons_of_mem a hb)
    cases hprint : print a.pat with
    | arm hd =>
      refine ⟨⟨hd, k⟩ :: is, ?_⟩
      conv_lhs => whnf
      rw [hprint]
      exact congrArg (Option.map (⟨hd, k⟩ :: ·)) his
    | dropped =>
      refine ⟨is, ?_⟩
      conv_lhs => whnf
      rw [hprint]
      exact his
    | crash => exact absurd hprint (h a List.mem_cons_self)

/-- What an emitter is right about, arm by arm. -/
structure Sound (g : CodeGen) (t : Ty) (print : Pat → Print) (as : List Arm) : Prop where
  tests : ∀ v, HasType g t v → Tests print v as
  binds : ∀ a ∈ as, ∀ h, print a.pat = .arm h → ∀ p ∈ h.binds, p.qual = none
  crash : ∀ a ∈ as, print a.pat ≠ .crash

theorem Sound.checks {t : Ty} {print : Pat → Print} {as : List Arm} {is : List Item}
    {elseFirst : Bool} (h : Sound g t print as) (his : items print 0 as = some is) :
    Checks t (chainMatch t.ctype elseFirst is) where
  temporary c hc := by
    rcases mem_chainMatch hc with hq | hq | ⟨i, _, p, _, hq⟩
    · cases hq
      rfl
    · cases hq
    · cases hq
  labels := by
    have hnil : (chainMatch t.ctype elseFirst is).filterMap Piece.label = [] := by
      rw [List.filterMap_eq_nil_iff]
      intro q hq
      rcases mem_chainMatch hq with rfl | hq | ⟨i, _, p, _, rfl⟩
      · rfl
      · cases q with
        | case p => cases hq
        | default_ => cases hq
        | _ => rfl
      · rfl
    rw [hnil]
    exact List.nodup_nil
  cases p hp := by
    rcases mem_chainMatch hp with hq | hq | ⟨i, _, p, _, hq⟩
    · cases hq
    · cases hq
    · cases hq
  binds p hp := by
    rcases mem_chainMatch hp with hq | hq | ⟨i, hi, p, hmem, hq⟩
    · cases hq
    · cases hq
    · cases hq
      obtain ⟨a, ha, hprint⟩ := mem_items his hi
      exact h.binds a ha i.head hprint p hmem

/-- The subject, and then an arm. -/
def told (exits : Nat → Exit) (o : Option Nat) : Result :=
  (.subject :: (ran exits o).1, (ran exits o).2)

theorem run_eq_told (m : MatchNode) (v : Val) (guards : Nat → Bool) (exits : Nat → Exit) :
    m.run v guards exits = told exits (firstArm v guards 0 m.arms) := by
  rw [MatchNode.run]
  cases firstArm v guards 0 m.arms with
  | none => rfl
  | some i => rfl

/-- A chain is read if and only if a catch-all stands at its end and not alone. -/
theorem parse_chainMatch_iff {t : CType} {elseFirst : Bool} {is : List Item} {c : CStmt} :
    parse (chainMatch t elseFirst is) = some c ↔
      (is.Pairwise fun i _ => i.head.test.isSome) ∧ Begins elseFirst is ∧
        c = (match is with
          | [] => .block [.subject t]
          | i :: is => .block [.subject t, tree i is]) := by
  cases is with
  | nil =>
    rw [parse_chainMatch_nil]
    constructor
    · rintro ⟨⟩
      refine ⟨List.Pairwise.nil, ?_, rfl⟩
      rintro - i ⟨⟩
    · rintro ⟨-, -, rfl⟩
      rfl
  | cons i is =>
    by_cases hbegins : Begins elseFirst (i :: is)
    · rw [parse_chainMatch hbegins, ← after_eq_nil]
      constructor
      · intro h
        split at h
        · next hafter =>
          cases h
          exact ⟨hafter, hbegins, rfl⟩
        · cases h
      · rintro ⟨hafter, -, rfl⟩
        rw [if_pos hafter]
    · have helse : elseFirst = true ∧ i.head.test = none := by
        rw [Begins] at hbegins
        push Not at hbegins
        obtain ⟨helse, j, hj, hnone⟩ := hbegins
        cases hj
        exact ⟨helse, by simpa using hnone⟩
      obtain ⟨rfl, hnone⟩ := helse
      rw [parse_chainMatch_else hnone]
      constructor
      · rintro ⟨⟩
      · rintro ⟨-, h, -⟩
        exact absurd h hbegins

theorem run_chainMatch {t : CType} {elseFirst : Bool} {is : List Item} {c : CStmt}
    (h : parse (chainMatch t elseFirst is) = some c) (v : Val) (exits : Nat → Exit) :
    c.run v exits = told exits (pick v is) := by
  obtain ⟨-, -, rfl⟩ := parse_chainMatch_iff.mp h
  cases is with
  | nil => rfl
  | cons i is => exact run_chain v exits t i is

/-- A chain is right if and only if its arms fit. -/
theorem right_chain_iff {t : Ty} {m : MatchNode} {print : Pat → Print} {elseFirst : Bool}
    (hcg : cgMatch g m = (items print 0 m.arms).map (chainMatch t.ctype elseFirst))
    (hsound : Sound g t print m.arms) : Right g t m ↔ FitsChain g t print elseFirst m := by
  obtain ⟨is, his⟩ := items_isSome (k := 0) hsound.crash
  rw [his] at hcg
  constructor
  · rintro ⟨ps, c, hps, -, -, hparse, hruns⟩
    obtain rfl := Option.some.inj (hcg.symm.trans hps)
    have hfirst : ∀ v, HasType g t v → ∀ guards, pick v is = firstArm v guards 0 m.arms := by
      intro v hv guards
      refine run_eq_iff (fun _ => .next) ((run_chainMatch hparse v _).symm.trans ?_)
      exact hruns v hv guards _ (by rintro _ _ _ ⟨⟩)
    obtain ⟨hpair, hbegins, -⟩ := parse_chainMatch_iff.mp hparse
    refine ⟨?_, ?_⟩
    · intro js hjs
      obtain rfl := Option.some.inj (his.symm.trans hjs)
      exact ⟨hpair, hbegins⟩
    · intro v hv a ha
      have hpick : pick v is = firstMatch v 0 m.arms := hfirst v hv _
      have hguards : ∀ guards, firstMatch v 0 m.arms = firstArm v guards 0 m.arms := by
        intro guards
        rw [← hpick, hfirst v hv guards]
      exact ⟨firstArm_guards.mp hguards a ha, (pick_eq_iff (hsound.tests v hv) his).mp hpick a ha⟩
  · intro h
    obtain ⟨hpair, hbegins⟩ := h.catchAll is his
    obtain ⟨c, hparse⟩ : ∃ c, parse (chainMatch t.ctype elseFirst is) = some c :=
      ⟨_, parse_chainMatch_iff.mpr ⟨hpair, hbegins, rfl⟩⟩
    refine ⟨_, c, hcg, depth_chainMatch hbegins, hsound.checks his, hparse, ?_⟩
    intro v hv guards exits _
    have hpick : pick v is = firstMatch v 0 m.arms :=
      (pick_eq_iff (hsound.tests v hv) his).mpr fun a ha => (h.first v hv a ha).2
    have hguards : firstMatch v 0 m.arms = firstArm v guards 0 m.arms :=
      firstArm_guards.mpr (fun a ha => (h.first v hv a ha).1) guards
    rw [run_chainMatch hparse, run_eq_told, hpick, hguards]

/-! ## The four chains -/

theorem payload_qual {fields : List (Option String)} {p : Path} (h : p ∈ payload fields) :
    p.qual = none := by
  unfold payload at h
  split at h
  · obtain rfl := List.mem_singleton.mp h
    rfl
  · cases h

/-- An identifier as a catch-all. -/
def catchHead (x : String) : Head := if plain x = plain "_" then ⟨none, []⟩ else ⟨none, [plain x]⟩

theorem catchHead_test (x : String) : (catchHead x).test = none := by
  rw [catchHead]
  split <;> rfl

theorem catchHead_binds {x : String} {p : Path} (h : p ∈ (catchHead x).binds) : p.qual = none := by
  rw [catchHead] at h
  split at h
  · cases h
  · obtain rfl := List.mem_singleton.mp h
    rfl

theorem printInt_ident (x : String) : printInt (.ident (plain x)) = .arm (catchHead x) := by
  rw [printInt, catchHead]
  split <;> rfl

theorem printString_ident (x : String) : printString (.ident (plain x)) = .arm (catchHead x) := by
  rw [printString, catchHead]
  split <;> rfl

/-- Sound for every pattern of the type. -/
theorem Sound.of_pats {t : Ty} {print : Pat → Print} {as : List Arm}
    (hok : ∀ a ∈ as, PatOk g t a.pat)
    (h : ∀ pat, PatOk g t pat → print pat ≠ .crash ∧ ∀ h, print pat = .arm h →
      (∀ p ∈ h.binds, p.qual = none) ∧
        ∀ v, HasType g t v → h.test.all (Test.eval v) = pat.matches v) :
    Sound g t print as where
  tests v hv a ha hd hprint := ((h a.pat (hok a ha)).2 hd hprint).2 v hv
  binds a ha hd hprint := ((h a.pat (hok a ha)).2 hd hprint).1
  crash a ha := (h a.pat (hok a ha)).1

theorem all_none {v : Val} : (none : Option Test).all (Test.eval v) = true := rfl

/-- An identifier is matched by every word and every string. -/
theorem matches_ident {x : String} {t : Ty} {v : Val} (ht : t ≠ .option)
    (hv : HasType g t v) : (Pat.ident (plain x)).matches v = true := by
  cases v with
  | some_ => cases t <;> first | exact absurd rfl ht | cases hv
  | variant y => rfl
  | _ => rfl

theorem sound_int {as : List Arm} (hok : ∀ a ∈ as, PatOk g .int a.pat) :
    Sound g .int printInt as := by
  refine Sound.of_pats hok ?_
  intro pat hpat
  cases hpat with
  | wildcard =>
    refine ⟨by rintro ⟨⟩, ?_⟩
    rintro h ⟨⟩
    exact ⟨by rintro p ⟨⟩, fun v _ => rfl⟩
  | @binding _ x =>
    rw [printInt_ident]
    refine ⟨by rintro ⟨⟩, ?_⟩
    rintro h ⟨⟩
    refine ⟨fun p => catchHead_binds, ?_⟩
    intro v hv
    rw [catchHead_test, matches_ident (by rintro ⟨⟩) hv, all_none]
  | int =>
    refine ⟨by rintro ⟨⟩, ?_⟩
    rintro h ⟨⟩
    exact ⟨by rintro p ⟨⟩, fun v _ => rfl⟩
  | range =>
    refine ⟨by rintro ⟨⟩, ?_⟩
    rintro h ⟨⟩
    refine ⟨by rintro p ⟨⟩, ?_⟩
    intro v hv
    cases v <;> rfl

theorem sound_bool {as : List Arm} (hok : ∀ a ∈ as, PatOk g .bool a.pat) :
    Sound g .bool printInt as := by
  refine Sound.of_pats hok ?_
  intro pat hpat
  cases hpat with
  | wildcard =>
    refine ⟨by rintro ⟨⟩, ?_⟩
    rintro h ⟨⟩
    exact ⟨by rintro p ⟨⟩, fun v _ => rfl⟩
  | @binding _ x =>
    rw [printInt_ident]
    refine ⟨by rintro ⟨⟩, ?_⟩
    rintro h ⟨⟩
    refine ⟨fun p => catchHead_binds, ?_⟩
    intro v hv
    rw [catchHead_test, matches_ident (by rintro ⟨⟩) hv, all_none]
  | bool =>
    refine ⟨by rintro ⟨⟩, ?_⟩
    rintro h ⟨⟩
    exact ⟨by rintro p ⟨⟩, fun v _ => rfl⟩

theorem sound_string {as : List Arm} (hok : ∀ a ∈ as, PatOk g .string a.pat) :
    Sound g .string printString as := by
  refine Sound.of_pats hok ?_
  intro pat hpat
  cases hpat with
  | wildcard =>
    refine ⟨by rintro ⟨⟩, ?_⟩
    rintro h ⟨⟩
    exact ⟨by rintro p ⟨⟩, fun v _ => rfl⟩
  | @binding _ x =>
    rw [printString_ident]
    refine ⟨by rintro ⟨⟩, ?_⟩
    rintro h ⟨⟩
    refine ⟨fun p => catchHead_binds, ?_⟩
    intro v hv
    rw [catchHead_test, matches_ident (by rintro ⟨⟩) hv, all_none]
  | string =>
    refine ⟨by rintro ⟨⟩, ?_⟩
    rintro h ⟨⟩
    refine ⟨by rintro p ⟨⟩, ?_⟩
    intro v hv
    cases v <;> rfl

theorem sound_result {as : List Arm} (hok : ∀ a ∈ as, PatOk g .result a.pat) :
    Sound g .result printResult as := by
  refine Sound.of_pats hok ?_
  intro pat hpat
  have henum : ∀ (p : Path) (fields : List (Option String)),
      printResult (.enum p fields) ≠ .crash ∧ ∀ h, printResult (.enum p fields) = .arm h →
        (∀ p ∈ h.binds, p.qual = none) ∧
          ∀ v, HasType g .result v →
            h.test.all (Test.eval v) = (Pat.enum p fields).matches v := by
    intro p fields
    rw [printResult]
    refine ⟨by split_ifs <;> rintro ⟨⟩, ?_⟩
    intro h hprint
    split_ifs at hprint with hok herr
    · cases hprint
      subst hok
      refine ⟨fun _ => payload_qual, ?_⟩
      intro v hv
      cases v <;> first | rfl | cases hv
    · cases hprint
      refine ⟨fun _ => payload_qual, ?_⟩
      intro v hv
      rcases herr with rfl | rfl <;> cases v <;> first | rfl | cases hv
  cases hpat with
  | wildcard =>
    refine ⟨by rintro ⟨⟩, ?_⟩
    rintro h ⟨⟩
    exact ⟨by rintro p ⟨⟩, fun v _ => rfl⟩
  | @binding _ x =>
    rw [printResult]
    refine ⟨by split_ifs <;> rintro ⟨⟩, ?_⟩
    intro h hprint
    split_ifs at hprint
    · cases hprint
      refine ⟨by rintro p ⟨⟩, ?_⟩
      intro v hv
      rw [matches_ident (by rintro ⟨⟩) hv, all_none]
  | ok => exact henum _ _
  | err => exact henum _ _

theorem sound_option {as : List Arm} (hok : ∀ a ∈ as, PatOk g .option a.pat) :
    Sound g .option printOption as := by
  refine Sound.of_pats hok ?_
  intro pat hpat
  have henum : ∀ (p : Path) (fields : List (Option String)),
      printOption (.enum p fields) ≠ .crash ∧ ∀ h, printOption (.enum p fields) = .arm h →
        (∀ p ∈ h.binds, p.qual = none) ∧
          ∀ v, HasType g .option v →
            h.test.all (Test.eval v) = (Pat.enum p fields).matches v := by
    intro p fields
    rw [printOption]
    refine ⟨by split_ifs <;> rintro ⟨⟩, ?_⟩
    intro h hprint
    split_ifs at hprint with hsome hnone
    · cases hprint
      subst hsome
      refine ⟨fun _ => payload_qual, ?_⟩
      intro v hv
      cases v <;> first | rfl | cases hv
    · cases hprint
      subst hnone
      refine ⟨by rintro p ⟨⟩, ?_⟩
      intro v hv
      cases v <;> first | rfl | cases hv
  have hident : ∀ p : Path,
      printOption (.ident p) ≠ .crash ∧ ∀ h, printOption (.ident p) = .arm h →
        (∀ p ∈ h.binds, p.qual = none) ∧
          ∀ v, HasType g .option v → h.test.all (Test.eval v) = (Pat.ident p).matches v := by
    intro p
    rw [printOption]
    refine ⟨by split_ifs <;> rintro ⟨⟩, ?_⟩
    intro h hprint
    split_ifs at hprint with hnone hwild
    · cases hprint
      subst hnone
      refine ⟨by rintro p ⟨⟩, ?_⟩
      intro v hv
      cases v <;> first | rfl | cases hv
    · cases hprint
      subst hwild
      refine ⟨by rintro p ⟨⟩, ?_⟩
      intro v hv
      cases v <;> rfl
  cases hpat with
  | wildcard =>
    refine ⟨by rintro ⟨⟩, ?_⟩
    rintro h ⟨⟩
    exact ⟨by rintro p ⟨⟩, fun v _ => rfl⟩
  | binding => exact hident _
  | some => exact henum _ _
  | none => exact hident _
  | noneEnum => exact henum _ _

/-! ## Reading a switch -/

/-- The cases that are read: each arm is a block behind its label. -/
def caseList (label : Pat → Option Label) : Nat → List Arm → List CCase
  | _, [] => []
  | k, a :: as =>
      match label a.pat with
      | some l =>
          .mk l.case [.block (armStmts l.binds [.body k, .break_])] :: caseList label (k + 1) as
      | none => caseList label (k + 1) as

theorem labelEnum_fence {e : String} {p : Pat} {l : Label} (h : labelEnum g e p = some l) :
    l.fence = false := by
  unfold labelEnum at h
  split at h
  all_goals first | (cases h; rfl) | (split at h <;> cases h <;> rfl) | cases h

/-- `case …:` or `default:`. -/
def Label.head (l : Label) : Piece :=
  match l.case with
  | some p => .case p
  | none => .default_

theorem Label.pieces_eq {l : Label} (h : l.fence = false) (k : Nat) :
    l.pieces k = l.head :: .lbrace :: (l.binds.map .bind ++ [.body k, .break_, .rbrace]) := by
  rw [Label.pieces, h]
  cases hcase : l.case <;> simp [Label.head, hcase]

/-- The steps that reading the cases takes. -/
def caseSize (label : Pat → Option Label) : List Arm → Nat
  | [] => 1
  | a :: as =>
      match label a.pat with
      | some l => l.binds.length + 7 + caseSize label as
      | none => caseSize label as

theorem parse_case {n : Nat} {l : Label} {k : Nat} {rest : List Piece}
    (hn : l.binds.length + 6 ≤ n) (hends : ends rest) :
    parseStmts n (.lbrace :: (l.binds.map .bind ++ [.body k, .break_, .rbrace]) ++ rest) =
      some ([.block (armStmts l.binds [.body k, .break_])], rest) := by
  obtain ⟨m, rfl⟩ : ∃ m, n = m + 4 + l.binds.length + 1 + 1 :=
    ⟨n - l.binds.length - 6, by omega⟩
  have hbreak : parseStmts (m + 3) (.break_ :: .rbrace :: rest) =
      some ([.break_], .rbrace :: rest) := by
    have hstmt : parseStmt (m + 2) (.break_ :: .rbrace :: rest) =
        some (.break_, .rbrace :: rest) := rfl
    rw [parseStmts_cons hstmt, parseStmts_ends rfl]
    rfl
  have hbody : parseStmts (m + 4) (.body k :: .break_ :: .rbrace :: rest) =
      some ([.body k, .break_], .rbrace :: rest) := by
    have hstmt : parseStmt (m + 3) (.body k :: .break_ :: .rbrace :: rest) =
        some (.body k, .break_ :: .rbrace :: rest) := rfl
    rw [parseStmts_cons hstmt, hbreak]
    rfl
  have hblock := parseStmt_block l.binds hbody (by omega)
  rw [List.cons_append, List.append_assoc]
  change parseStmts _ (.lbrace :: (l.binds.map .bind ++
    .body k :: .break_ :: .rbrace :: rest)) = _
  rw [parseStmts_cons hblock, parseStmts_ends hends]
  rfl

theorem ends_cases {label : Pat → Option Label} {k : Nat} {as : List Arm} {rest : List Piece} :
    ends (cases label k as ++ .rbrace :: rest) := by
  induction as generalizing k with
  | nil => rfl
  | cons a as ih =>
    rw [cases]
    cases label a.pat with
    | none => exact ih
    | some l =>
      change ends (l.pieces k ++ cases label (k + 1) as ++ .rbrace :: rest) = true
      rw [Label.pieces]
      cases l.case <;> rfl

theorem parse_cases {label : Pat → Option Label} {as : List Arm} {rest : List Piece} {n k : Nat}
    (hfence : ∀ p l, label p = some l → l.fence = false) (hn : caseSize label as ≤ n) :
    parseCases n (cases label k as ++ .rbrace :: rest) =
      some (caseList label k as, .rbrace :: rest) := by
  induction as generalizing n k with
  | nil =>
    obtain ⟨n, rfl⟩ : ∃ m, n = m + 1 := ⟨n - 1, by rw [caseSize] at hn; omega⟩
    rfl
  | cons a as ih =>
    rw [caseSize] at hn
    rw [cases, caseList]
    cases hlabel : label a.pat with
    | none =>
      rw [hlabel] at hn
      exact ih hn
    | some l =>
      rw [hlabel] at hn
      have hsize : l.binds.length + 7 + caseSize label as ≤ n := hn
      obtain ⟨n, rfl⟩ : ∃ m, n = m + 1 := ⟨n - 1, by omega⟩
      have hcase : parseStmts n (.lbrace :: (l.binds.map .bind ++ [.body k, .break_, .rbrace]) ++
          (cases label (k + 1) as ++ .rbrace :: rest)) =
            some ([.block (armStmts l.binds [.body k, .break_])],
              cases label (k + 1) as ++ .rbrace :: rest) := parse_case (by omega) ends_cases
      have hrest := ih (n := n) (k := k + 1) (by omega)
      change parseCases (n + 1) (l.pieces k ++ cases label (k + 1) as ++ .rbrace :: rest) = _
      rw [Label.pieces_eq (hfence a.pat l hlabel), Label.head, List.append_assoc, List.cons_append]
      cases hc : l.case with
      | none =>
        simp only [parseCases, hcase, hrest, hc]
      | some p =>
        simp only [parseCases, hcase, hrest, hc]

theorem caseSize_le {label : Pat → Option Label}
    (hfence : ∀ p l, label p = some l → l.fence = false) (k : Nat) (as : List Arm) :
    caseSize label as ≤ 2 * (cases label k as).length + 1 := by
  induction as generalizing k with
  | nil => exact Nat.le_refl 1
  | cons a as ih =>
    have hrest := ih (k + 1)
    rw [caseSize, cases]
    cases hlabel : label a.pat with
    | none => exact hrest
    | some l =>
      change l.binds.length + 7 + caseSize label as ≤
        2 * (l.pieces k ++ cases label (k + 1) as).length + 1
      rw [Label.pieces_eq (hfence a.pat l hlabel)]
      simp only [List.length_append, List.length_cons, List.length_map, List.length_nil]
      omega

theorem parse_switch {label : Pat → Option Label} {as : List Arm} (t : CType)
    (hfence : ∀ p l, label p = some l → l.fence = false) :
    parse (switchMatch t (cases label 0 as)) =
      some (.block [.subject t, .switch (caseList label 0 as)]) := by
  have hsize := caseSize_le hfence 0 as
  have hlength : (switchMatch t (cases label 0 as)).length = (cases label 0 as).length + 6 := by
    simp [switchMatch]
  obtain ⟨n, hn⟩ : ∃ n, 2 * (switchMatch t (cases label 0 as)).length = n + 4 :=
    ⟨2 * (switchMatch t (cases label 0 as)).length - 4, by omega⟩
  obtain ⟨m, rfl⟩ : ∃ m, n = m + 1 := ⟨n - 1, by omega⟩
  have hcases : parseCases (m + 1) (cases label 0 as ++ [.rbrace, .rbrace]) =
      some (caseList label 0 as, [.rbrace, .rbrace]) := parse_cases hfence (by omega)
  have hshape : switchMatch t (cases label 0 as) =
      .lbrace :: .subject t :: .switch :: .lbrace :: (cases label 0 as ++ [.rbrace, .rbrace]) := by
    simp [switchMatch]
  have hsubject : parseStmt (m + 3) (.subject t :: .switch :: .lbrace ::
      (cases label 0 as ++ [.rbrace, .rbrace])) =
        some (.subject t, .switch :: .lbrace :: (cases label 0 as ++ [.rbrace, .rbrace])) := rfl
  have hswitch : parseStmt (m + 2) (.switch :: .lbrace ::
      (cases label 0 as ++ [.rbrace, .rbrace])) =
        some (.switch (caseList label 0 as), [.rbrace]) := by
    rw [parseStmt, hcases]
  have hstmts : parseStmts (m + 4) (.subject t :: .switch :: .lbrace ::
      (cases label 0 as ++ [.rbrace, .rbrace])) =
        some ([.subject t, .switch (caseList label 0 as)], [.rbrace]) := by
    rw [parseStmts_cons hsubject, parseStmts_cons hswitch, parseStmts_ends rfl]
    rfl
  rw [parse, hn, hshape, parseStmt, hstmts]

theorem depth_cases {label : Pat → Option Label} {as : List Arm} {k : Nat} {ps : List Piece}
    (hfence : ∀ p l, label p = some l → l.fence = false) (d : Nat) :
    depth (cases label k as ++ ps) d = depth ps d := by
  induction as generalizing k with
  | nil => rfl
  | cons a as ih =>
    rw [cases]
    cases hlabel : label a.pat with
    | none => exact ih
    | some l =>
      change depth (l.pieces k ++ cases label (k + 1) as ++ ps) d = _
      have hinner : depth (.lbrace :: (l.binds.map .bind ++ [.body k, .break_, .rbrace]) ++
          (cases label (k + 1) as ++ ps)) d = depth ps d := by
        rw [List.cons_append, depth_lbrace, List.append_assoc, depth_binds]
        exact ih
      rw [Label.pieces_eq (hfence a.pat l hlabel), Label.head, List.append_assoc]
      cases l.case with
      | none => exact hinner
      | some p => exact hinner

theorem depth_switch {label : Pat → Option Label} {as : List Arm} (t : CType)
    (hfence : ∀ p l, label p = some l → l.fence = false) :
    depth (switchMatch t (cases label 0 as)) 0 = some 0 := by
  have hshape : switchMatch t (cases label 0 as) =
      .lbrace :: .subject t :: .switch :: .lbrace :: (cases label 0 as ++ [.rbrace, .rbrace]) := by
    simp [switchMatch]
  rw [hshape]
  exact depth_cases hfence 2

/-! ## Running a switch -/

/-- The labels of the arms. -/
def labels (label : Pat → Option Label) (as : List Arm) : List (Option Path) :=
  as.filterMap fun a => (label a.pat).map Label.case

/-- The first arm with the label. -/
def armOf (label : Pat → Option Label) (goal : Option (Option Path)) : Nat → List Arm → Option Nat
  | _, [] => none
  | k, a :: as =>
      if goal.isSome ∧ (label a.pat).map Label.case = goal then some k
      else armOf label goal (k + 1) as

theorem armOf_step (label : Pat → Option Label) (goal : Option (Option Path)) (k : Nat) (a : Arm)
    (as : List Arm) :
    armOf label goal k (a :: as) =
      if goal.isSome ∧ (label a.pat).map Label.case = goal then some k
      else armOf label goal (k + 1) as := rfl

theorem caseList_labels (label : Pat → Option Label) (k : Nat) (as : List Arm) :
    (caseList label k as).map CCase.label = labels label as := by
  induction as generalizing k with
  | nil => rfl
  | cons a as ih =>
    rw [caseList, labels, List.filterMap_cons]
    cases label a.pat with
    | none => exact ih (k + 1)
    | some l => exact congrArg (l.case :: ·) (ih (k + 1))

/-- A body and the `break` behind it. -/
def Exit.orBreak (x : Exit) : Exit := if x = .next then .brk else x

theorem run_caseBlock (v : Val) (exits : Nat → Exit) (l : Label) (k : Nat) :
    runAll v exits [.block (armStmts l.binds [.body k, .break_])] =
      ([.body k], (exits k).orBreak) := by
  rw [runAll_one, CStmt.run_block, runAll_armStmts, runAll_cons, runAll_one, CStmt.run_body,
    CStmt.run_break, Result.andThen, Exit.orBreak]
  cases exits k <;> rfl

/-- The arm that is jumped to is the only one that is run. -/
theorem run_cases (v : Val) (exits : Nat → Exit) (label : Pat → Option Label)
    (goal : Option (Option Path)) (k : Nat) (as : List Arm) :
    runCases v exits goal false (caseList label k as) =
      match armOf label goal k as with
      | some i => ([.body i], (exits i).orBreak)
      | none => ([], .next) := by
  induction as generalizing k with
  | nil => rfl
  | cons a as ih =>
    rw [caseList, armOf_step]
    cases hlabel : label a.pat with
    | none =>
      rw [if_neg ?_]
      · exact ih (k + 1)
      · rintro ⟨hsome, hgoal⟩
        rw [← hgoal] at hsome
        cases hsome
    | some l =>
      change runCases v exits goal false (.mk l.case _ :: caseList label (k + 1) as) = _
      rw [runCases_cons]
      by_cases hgoal : goal = some l.case
      · have harm : goal.isSome ∧ (some l).map Label.case = goal := by
          rw [hgoal]
          exact ⟨rfl, rfl⟩
        rw [if_pos (Or.inr hgoal), if_pos harm, run_caseBlock]
        change Result.andThen ([.body k], (exits k).orBreak) _ = ([.body k], (exits k).orBreak)
        generalize exits k = x
        cases x <;> rfl
      · have harm : ¬ (goal.isSome ∧ (some l).map Label.case = goal) := by
          rintro ⟨-, h⟩
          exact hgoal h.symm
        rw [if_neg (by simpa using hgoal), if_neg harm, ih (k + 1)]

/-- A `break` of an arm leaves the `switch`. -/
def Exit.unbroken (x : Exit) : Exit := if x = .brk then .next else x

theorem run_switch (v : Val) (exits : Nat → Exit) (t : CType) (label : Pat → Option Label)
    (as : List Arm) :
    (CStmt.block [.subject t, .switch (caseList label 0 as)]).run v exits =
      told (fun i => (exits i).unbroken) (armOf label (target v (labels label as)) 0 as) := by
  rw [CStmt.run_block, runAll_cons, runAll_one, CStmt.run_subject, CStmt.run_switch,
    caseList_labels, run_cases]
  cases armOf label (target v (labels label as)) 0 as with
  | none => rfl
  | some i =>
    change Result.andThen ([.subject], .next) ([.body i],
      if (exits i).orBreak = .brk then .next else (exits i).orBreak) =
        ([.subject, .body i], (exits i).unbroken)
    generalize exits i = x
    cases x <;> rfl

/-! ## Labels and patterns -/

/-- What the label of an arm says. -/
def Labelled (g : CodeGen) (e : String) (label : Pat → Option Label) (as : List Arm) : Prop :=
  ∀ a ∈ as, ∃ l, label a.pat = some l ∧
    (∀ x, a.pat.matches (.variant x) = true ↔ l.case = none ∨ l.case = some (plain x)) ∧
      ∀ p, l.case = some p → ∃ x, p = plain x ∧ HasType g (.enum e) (.variant x)

variable {e x : String} {label : Pat → Option Label} {a : Arm} {as : List Arm} {l : Label}

theorem Labelled.rest (h : Labelled g e label (a :: as)) : Labelled g e label as :=
  fun b hb => h b (List.mem_cons_of_mem a hb)

theorem labels_cons (h : label a.pat = some l) :
    labels label (a :: as) = l.case :: labels label as := by
  rw [labels, List.filterMap_cons, h]
  rfl

theorem armOf_head {k : Nat} (h : label a.pat = some l) :
    armOf label (some l.case) k (a :: as) = some k := by
  rw [armOf_step, h, if_pos ⟨rfl, rfl⟩]

theorem armOf_cons {k : Nat} {goal : Option (Option Path)} (h : label a.pat = some l)
    (hne : goal ≠ some l.case) : armOf label goal k (a :: as) = armOf label goal (k + 1) as := by
  rw [armOf_step, h, if_neg ?_]
  rintro ⟨-, hgoal⟩
  exact hne hgoal.symm

theorem le_of_armOf {k i : Nat} {goal : Option (Option Path)}
    (h : armOf label goal k as = some i) : k ≤ i := by
  induction as generalizing k with
  | nil => cases h
  | cons a as ih =>
    rw [armOf_step] at h
    split at h
    · exact Nat.le_of_eq (Option.some.inj h)
    · exact Nat.le_of_succ_le (ih h)

theorem armOf_none (k : Nat) : armOf label none k as = none := by
  induction as generalizing k with
  | nil => rfl
  | cons a as ih =>
    rw [armOf_step, if_neg ?_, ih]
    rintro ⟨h, -⟩
    cases h

/-- Without a case for the variant the first arm is the first catch-all. -/
theorem armOf_default {k : Nat} (h : Labelled g e label as)
    (hx : some (plain x) ∉ labels label as) :
    armOf label (some none) k as = firstMatch (.variant x) k as := by
  induction as generalizing k with
  | nil => rfl
  | cons a as ih =>
    obtain ⟨l, hl, hmatch, -⟩ := h a List.mem_cons_self
    rw [labels_cons hl, List.mem_cons] at hx
    push Not at hx
    cases hcase : l.case with
    | none =>
      rw [← hcase, armOf_head hl, firstMatch_head ((hmatch x).mpr (Or.inl hcase))]
    | some p =>
      have hno : a.pat.matches (.variant x) = false := by
        rw [Bool.eq_false_iff]
        intro hyes
        rcases (hmatch x).mp hyes with h | h
        · rw [hcase] at h
          cases h
        · exact hx.1 h.symm
      rw [armOf_cons hl (by rw [hcase]; rintro ⟨⟩), firstMatch_cons hno, ih h.rest hx.2]

theorem firstMatch_none {k : Nat} (h : Labelled g e label as)
    (hx : some (plain x) ∉ labels label as) (hnone : none ∉ labels label as) :
    firstMatch (.variant x) k as = none := by
  induction as generalizing k with
  | nil => rfl
  | cons a as ih =>
    obtain ⟨l, hl, hmatch, -⟩ := h a List.mem_cons_self
    rw [labels_cons hl, List.mem_cons] at hx hnone
    push Not at hx hnone
    have hno : a.pat.matches (.variant x) = false := by
      rw [Bool.eq_false_iff]
      intro hyes
      rcases (hmatch x).mp hyes with h | h
      · exact hnone.1 h.symm
      · exact hx.1 h.symm
    rw [firstMatch_cons hno, ih h.rest hx.2 hnone.2]

/-- The arm that is jumped to, if the variant has no case. -/
theorem jump_default {k : Nat} (h : Labelled g e label as)
    (hx : some (plain x) ∉ labels label as) :
    armOf label (target (.variant x) (labels label as)) k as = firstMatch (.variant x) k as := by
  rw [target_variant, if_neg hx]
  split
  · exact armOf_default h hx
  · next hnone => rw [armOf_none, firstMatch_none h hx hnone]

/-- The arm that is jumped to, if the variant has a case and no catch-all is before it. -/
theorem jump_case {k : Nat} (h : Labelled g e label as)
    (hpair : (labels label as).Pairwise fun l _ => l.isSome)
    (hx : some (plain x) ∈ labels label as) :
    armOf label (some (some (plain x))) k as = firstMatch (.variant x) k as := by
  induction as generalizing k with
  | nil => cases hx
  | cons a as ih =>
    obtain ⟨l, hl, hmatch, -⟩ := h a List.mem_cons_self
    rw [labels_cons hl] at hx hpair
    rw [List.pairwise_cons] at hpair
    by_cases hcase : l.case = some (plain x)
    · rw [← hcase, armOf_head hl, firstMatch_head ((hmatch x).mpr (Or.inr hcase))]
    · have hrest : some (plain x) ∈ labels label as :=
        (List.mem_cons.mp hx).resolve_left fun h => hcase h.symm
      have hno : a.pat.matches (.variant x) = false := by
        rw [Bool.eq_false_iff]
        intro hyes
        rcases (hmatch x).mp hyes with h | h
        · have hsome := hpair.1 _ hrest
          rw [h] at hsome
          cases hsome
        · exact hcase h
      rw [armOf_cons hl (fun h => hcase (Option.some.inj h).symm), firstMatch_cons hno,
        ih h.rest hpair.2 hrest]

theorem jump_eq {k : Nat} (h : Labelled g e label as)
    (hpair : (labels label as).Pairwise fun l _ => l.isSome) :
    armOf label (target (.variant x) (labels label as)) k as = firstMatch (.variant x) k as := by
  by_cases hx : some (plain x) ∈ labels label as
  · rw [target_variant, if_pos hx]
    exact jump_case h hpair hx
  · exact jump_default h hx

theorem target_cons {p : Path} {ls : List (Option Path)} (h : p ≠ plain x) :
    target (.variant x) (some p :: ls) = target (.variant x) ls := by
  have hne : some (plain x) ≠ some p := fun heq => h (Option.some.inj heq).symm
  rw [target_variant, target_variant]
  simp [hne]

theorem target_ne {p : Path} {ls : List (Option Path)} (h : p ≠ plain x) :
    target (.variant x) ls ≠ some (some p) := by
  intro hgoal
  rw [target_variant] at hgoal
  split at hgoal
  · exact h (Option.some.inj (Option.some.inj hgoal)).symm
  · split at hgoal
    · cases hgoal
    · cases hgoal

/-- If the arm that is jumped to is always the first that matches, then no arm is behind
a catch-all. -/
theorem pairwise_of_jump {k : Nat} (h : Labelled g e label as) (hnodup : (labels label as).Nodup)
    (hjump : ∀ x, HasType g (.enum e) (.variant x) →
      armOf label (target (.variant x) (labels label as)) k as = firstMatch (.variant x) k as) :
    (labels label as).Pairwise fun l _ => l.isSome := by
  induction as generalizing k with
  | nil => exact List.Pairwise.nil
  | cons a as ih =>
    obtain ⟨l, hl, hmatch, hname⟩ := h a List.mem_cons_self
    rw [labels_cons hl] at hnodup hjump ⊢
    obtain ⟨hnew, hnodup⟩ := List.nodup_cons.mp hnodup
    cases hcase : l.case with
    | none =>
      have hnil : labels label as = [] := by
        rw [List.eq_nil_iff_forall_not_mem]
        intro c hc
        cases c with
        | none => exact hnew (hcase ▸ hc)
        | some p =>
          obtain ⟨b, hb, hbc⟩ := List.mem_filterMap.mp hc
          obtain ⟨l', hl', -, hname'⟩ := h.rest b hb
          rw [hl'] at hbc
          obtain ⟨y, rfl, hy⟩ := hname' p (Option.some.inj hbc)
          have hthis := hjump y hy
          rw [firstMatch_head ((hmatch y).mpr (Or.inl hcase)), target_variant,
            if_pos (List.mem_cons_of_mem _ hc), armOf_cons hl (by rw [hcase]; rintro ⟨⟩)] at hthis
          exact absurd (le_of_armOf hthis) (Nat.not_succ_le_self k)
      rw [hnil]
      exact List.pairwise_singleton _ _
    | some p =>
      refine List.pairwise_cons.mpr ⟨fun _ _ => rfl, ih h.rest hnodup (k := k + 1) ?_⟩
      intro y hy
      by_cases hyp : l.case = some (plain y)
      · exact jump_default h.rest (hyp ▸ hnew)
      · have hno : a.pat.matches (.variant y) = false := by
          rw [Bool.eq_false_iff]
          intro hyes
          rcases (hmatch y).mp hyes with h | h
          · rw [hcase] at h
            cases h
          · exact hyp h
        have hthis := hjump y hy
        have hpy : p ≠ plain y := fun h => hyp (hcase.trans (congrArg some h))
        have hgoal : target (.variant y) (labels label as) ≠ some l.case := by
          rw [hcase]
          exact target_ne hpy
        rw [hcase, target_cons hpy, firstMatch_cons hno, armOf_cons hl hgoal] at hthis
        exact hthis

/-! ## Switches -/

theorem labelEnum_name (x : String) :
    ∃ l, labelEnum g e (.ident (plain x)) = some l ∧ l.case = none ∧
      ∀ p ∈ l.binds, p.qual = none := by
  by_cases hx : plain x = plain "_"
  · refine ⟨⟨none, [], false⟩, if_pos hx, rfl, ?_⟩
    rintro p ⟨⟩
  · refine ⟨⟨none, [plain x], false⟩, if_neg hx, rfl, ?_⟩
    intro p hp
    obtain rfl := List.mem_singleton.mp hp
    rfl

theorem labelEnum_colons (q x : String) :
    labelEnum g e (.ident ⟨some (q, .colons), x⟩) =
      some ⟨none, [⟨some (q, .colons), x⟩], false⟩ := by
  simp [labelEnum, plain]

/-- The label of a variant is its name, or the path if there is no dot. -/
theorem labelEnum_variant (p : Path) (fields : List (Option String)) :
    ∃ l, labelEnum g e (.enum p fields) = some l ∧
      (l.case = some (plain p.name) ∨ l.case = some p) := by
  rcases p with ⟨_ | ⟨q, _ | _⟩, x⟩
  · exact ⟨_, rfl, Or.inl rfl⟩
  · exact ⟨_, rfl, Or.inl rfl⟩
  · exact ⟨_, rfl, Or.inr rfl⟩

theorem labelled_of_names (hok : ∀ a ∈ as, PatOk g (.enum e) a.pat)
    (hnames : ∀ a ∈ as, ∀ l, labelEnum g e a.pat = some l →
      (∀ p, l.case = some p → p.qual = none) ∧ ∀ p ∈ l.binds, p.qual = none) :
    Labelled g e (labelEnum g e) as := by
  intro a ha
  have hpat := hok a ha
  have hname := hnames a ha
  revert hpat hname
  generalize a.pat = pat
  intro hpat hname
  cases hpat with
  | wildcard =>
    refine ⟨_, rfl, fun x => ⟨fun _ => Or.inl rfl, fun _ => rfl⟩, ?_⟩
    rintro p ⟨⟩
  | @binding _ y =>
    obtain ⟨l, hl, hcase, -⟩ := labelEnum_name (g := g) (e := e) y
    refine ⟨l, hl, fun x => ⟨fun _ => Or.inl hcase, fun _ => rfl⟩, ?_⟩
    intro p hp
    rw [hcase] at hp
    cases hp
  | @unit _ y sep hy =>
    cases sep with
    | dot =>
      refine ⟨_, rfl, fun x => ?_, ?_⟩
      · simp [Pat.matches, plain]
      · rintro p ⟨⟩
        exact ⟨y, rfl, hy⟩
    | colons =>
      rw [labelEnum_colons] at hname
      cases (hname _ rfl).2 _ List.mem_cons_self
  | @variant _ p y fields hp hy =>
    obtain ⟨l, hl, hcase⟩ := labelEnum_variant (g := g) (e := e) p fields
    have hcase : l.case = some (plain p.name) := by
      rcases hcase with hcase | hcase
      · exact hcase
      · have hqual := (hname l hl).1 p hcase
        rw [hcase, plain, ← hqual]
    refine ⟨l, hl, fun x => ?_, ?_⟩
    · rw [hcase]
      simp [Pat.matches, plain]
    · intro p' hp'
      obtain rfl := Option.some.inj (hcase.symm.trans hp')
      exact ⟨y, congrArg plain hp.1, hy⟩

/-- The pieces of the cases. -/
theorem mem_cases {q : Piece} {k : Nat} (hfence : ∀ p l, label p = some l → l.fence = false)
    (h : q ∈ cases label k as) :
    q.shape ∨ ∃ a ∈ as, ∃ l, label a.pat = some l ∧ (q = l.head ∨ ∃ p ∈ l.binds, q = .bind p) := by
  induction as generalizing k with
  | nil => cases h
  | cons a as ih =>
    rw [cases] at h
    have hrest : q ∈ cases label (k + 1) as → q.shape ∨ ∃ b ∈ a :: as, ∃ l,
        label b.pat = some l ∧ (q = l.head ∨ ∃ p ∈ l.binds, q = .bind p) := by
      intro h
      refine (ih h).imp_right ?_
      rintro ⟨b, hb, h⟩
      exact ⟨b, List.mem_cons_of_mem a hb, h⟩
    cases hl : label a.pat with
    | none =>
      rw [hl] at h
      exact hrest h
    | some l =>
      rw [hl] at h
      rcases List.mem_append.mp h with h | h
      · change q ∈ l.pieces k at h
        rw [Label.pieces_eq (hfence _ _ hl)] at h
        simp only [List.mem_cons, List.mem_append, List.mem_map, List.not_mem_nil, or_false] at h
        rcases h with rfl | rfl | ⟨p, hp, rfl⟩ | rfl | rfl | rfl
        · exact Or.inr ⟨a, List.mem_cons_self, l, hl, Or.inl rfl⟩
        · exact Or.inl rfl
        · exact Or.inr ⟨a, List.mem_cons_self, l, hl, Or.inr ⟨p, hp, rfl⟩⟩
        all_goals exact Or.inl rfl
      · exact hrest h

theorem mem_of_label {k : Nat} {q : Piece} (hfence : ∀ p l, label p = some l → l.fence = false)
    (ha : a ∈ as) (hl : label a.pat = some l) (hq : q = l.head ∨ ∃ p ∈ l.binds, q = .bind p) :
    q ∈ cases label k as := by
  induction as generalizing k with
  | nil => cases ha
  | cons b as ih =>
    rw [cases]
    rcases List.mem_cons.mp ha with rfl | ha
    · rw [hl]
      refine List.mem_append.mpr (Or.inl ?_)
      change q ∈ l.pieces k
      rw [Label.pieces_eq (hfence _ _ hl)]
      rcases hq with rfl | ⟨p, hp, rfl⟩
      · exact List.mem_cons_self
      · simp [hp]
    · exact List.mem_append.mpr (Or.inr (ih ha))

theorem labels_cases {k : Nat} (hfence : ∀ p l, label p = some l → l.fence = false) :
    (cases label k as).filterMap Piece.label = labels label as := by
  induction as generalizing k with
  | nil => rfl
  | cons a as ih =>
    rw [cases, List.filterMap_append, ih]
    cases hl : label a.pat with
    | none =>
      rw [labels, labels, List.filterMap_cons, hl]
      rfl
    | some l =>
      have hbinds : (l.binds.map Piece.bind ++
          [Piece.body k, .break_, .rbrace]).filterMap Piece.label = [] := by
        rw [List.filterMap_append, List.filterMap_map, List.append_eq_nil_iff]
        exact ⟨List.filterMap_eq_nil_iff.mpr fun _ _ => rfl, rfl⟩
      rw [labels_cons hl]
      change (l.pieces k).filterMap Piece.label ++ _ = _
      rw [Label.pieces_eq (hfence _ _ hl), Label.head]
      cases hcase : l.case with
      | none => simp [Piece.label, hbinds, List.filterMap_cons]
      | some p => simp [Piece.label, hbinds, List.filterMap_cons]

/-- Where the first arm is. -/
theorem firstMatch_find {v : Val} {k : Nat} (h : as.find? (·.pat.matches v) = some a) :
    ∃ i, firstMatch v k as = some (k + i) ∧ as[i]? = some a := by
  induction as generalizing k with
  | nil => cases h
  | cons b as ih =>
    rw [List.find?_cons] at h
    cases hmatch : b.pat.matches v with
    | true =>
      rw [hmatch] at h
      cases h
      exact ⟨0, firstMatch_head hmatch, rfl⟩
    | false =>
      rw [hmatch] at h
      obtain ⟨i, hi, hget⟩ := ih (k := k + 1) h
      refine ⟨i + 1, ?_, hget⟩
      rw [firstMatch_cons hmatch, hi, Nat.add_assoc, Nat.add_comm 1]

theorem firstMatch_not_find {v : Val} {k : Nat} (h : as.find? (·.pat.matches v) = none) :
    firstMatch v k as = none := by
  induction as generalizing k with
  | nil => rfl
  | cons b as ih =>
    rw [List.find?_cons] at h
    cases hmatch : b.pat.matches v with
    | true =>
      rw [hmatch] at h
      cases h
    | false =>
      rw [hmatch] at h
      rw [firstMatch_cons hmatch, ih h]

theorem eq_variant {v : Val} (h : HasType g (.enum e) v) : ∃ x, v = .variant x := by
  cases v <;> first | exact ⟨_, rfl⟩ | cases h

theorem checks_switch {m : MatchNode} (h : FitsSwitch g e m) :
    Checks (.enum e) (switchMatch (.enum e) (cases (labelEnum g e) 0 m.arms)) := by
  have hfence : ∀ p l, labelEnum g e p = some l → l.fence = false := fun _ _ => labelEnum_fence
  have hmem : ∀ q ∈ switchMatch (.enum e) (cases (labelEnum g e) 0 m.arms),
      q = .subject (.enum e) ∨ q.shape ∨ ∃ a ∈ m.arms, ∃ l, labelEnum g e a.pat = some l ∧
        (q = l.head ∨ ∃ p ∈ l.binds, q = .bind p) := by
    intro q hq
    rw [switchMatch] at hq
    rcases List.mem_append.mp hq with hq | hq
    · rcases List.mem_append.mp hq with hq | hq
      · simp only [List.mem_cons, List.not_mem_nil, or_false] at hq
        rcases hq with rfl | rfl | rfl | rfl
        · exact Or.inr (Or.inl rfl)
        · exact Or.inl rfl
        · exact Or.inr (Or.inl rfl)
        · exact Or.inr (Or.inl rfl)
      · exact Or.inr (mem_cases hfence hq)
    · simp only [List.mem_cons, List.not_mem_nil, or_false] at hq
      rcases hq with rfl | rfl
      · exact Or.inr (Or.inl rfl)
      · exact Or.inr (Or.inl rfl)
  have hhead : ∀ l : Label, l.head = .default_ ∨ ∃ p, l.case = some p ∧ l.head = .case p := by
    intro l
    rw [Label.head]
    cases l.case with
    | none => exact Or.inl rfl
    | some p => exact Or.inr ⟨p, rfl, rfl⟩
  refine ⟨?_, ?_, ?_, ?_⟩
  · intro c hc
    rcases hmem _ hc with hq | hq | ⟨a, ha, l, hl, hq | ⟨p, hp, hq⟩⟩
    · cases hq
      rfl
    · cases hq
    · rcases hhead l with hl | ⟨p, -, hl⟩
      · rw [hl] at hq
        cases hq
      · rw [hl] at hq
        cases hq
    · cases hq
  · rw [switchMatch, List.filterMap_append, List.filterMap_append, labels_cases hfence]
    exact (List.append_nil (labels (labelEnum g e) m.arms)).symm ▸ h.labels
  · intro p hp
    rcases hmem _ hp with hq | hq | ⟨a, ha, l, hl, hq | ⟨p', hp', hq⟩⟩
    · cases hq
    · cases hq
    · rcases hhead l with hl' | ⟨p', hcase, hl'⟩
      · rw [hl'] at hq
        cases hq
      · rw [hl'] at hq
        cases hq
        exact (h.names a ha l hl).1 p hcase
    · cases hq
  · intro p hp
    rcases hmem _ hp with hq | hq | ⟨a, ha, l, hl, hq | ⟨p', hp', hq⟩⟩
    · cases hq
    · cases hq
    · rcases hhead l with hl' | ⟨p', -, hl'⟩
      · rw [hl'] at hq
        cases hq
      · rw [hl'] at hq
        cases hq
    · cases hq
      exact (h.names a ha l hl).2 p hp'

/-- A `switch` is right if and only if its arms fit. -/
theorem right_switch_iff {m : MatchNode} (hok : ∀ a ∈ m.arms, PatOk g (.enum e) a.pat)
    (hemitter : emitter g m = .enum e) : Right g (.enum e) m ↔ FitsSwitch g e m := by
  have hfence : ∀ p l, labelEnum g e p = some l → l.fence = false := fun _ _ => labelEnum_fence
  have hcg : cgMatch g m = some (switchMatch (.enum e) (cases (labelEnum g e) 0 m.arms)) := by
    rw [cgMatch, hemitter]
  have hmem : ∀ q, q ∈ cases (labelEnum g e) 0 m.arms →
      q ∈ switchMatch (.enum e) (cases (labelEnum g e) 0 m.arms) := by
    intro q hq
    rw [switchMatch]
    exact List.mem_append.mpr (Or.inl (List.mem_append.mpr (Or.inr hq)))
  have hlabels : (switchMatch (.enum e) (cases (labelEnum g e) 0 m.arms)).filterMap Piece.label =
      labels (labelEnum g e) m.arms := by
    rw [switchMatch, List.filterMap_append, List.filterMap_append, labels_cases hfence]
    exact List.append_nil _
  constructor
  · rintro ⟨ps, c, hps, -, hchecks, hparse, hruns⟩
    obtain rfl := Option.some.inj (hcg.symm.trans hps)
    obtain rfl := Option.some.inj ((parse_switch _ hfence).symm.trans hparse)
    have hnodup := hchecks.labels
    rw [hlabels] at hnodup
    have hnames : ∀ a ∈ m.arms, ∀ l, labelEnum g e a.pat = some l →
        (∀ p, l.case = some p → p.qual = none) ∧ ∀ p ∈ l.binds, p.qual = none := by
      intro a ha l hl
      constructor
      · intro p hp
        refine hchecks.cases p (hmem _ (mem_of_label hfence ha hl (Or.inl ?_)))
        rw [Label.head, hp]
      · intro p hp
        exact hchecks.binds p (hmem _ (mem_of_label hfence ha hl (Or.inr ⟨p, hp, rfl⟩)))
    have hlabelled := labelled_of_names hok hnames
    have hjump : ∀ x, HasType g (.enum e) (.variant x) → ∀ guards,
        armOf (labelEnum g e) (target (.variant x) (labels (labelEnum g e) m.arms)) 0 m.arms =
          firstArm (.variant x) guards 0 m.arms := by
      intro x hx guards
      refine run_eq_iff (fun _ => .next)
        ((run_switch _ (fun _ => .next) (.enum e) _ _).symm.trans ?_)
      exact hruns _ hx guards _ (by rintro _ _ _ ⟨⟩)
    refine ⟨hnames, hnodup, pairwise_of_jump hlabelled hnodup fun x hx => hjump x hx _, ?_⟩
    intro v hv a ha
    obtain ⟨x, rfl⟩ := eq_variant hv
    constructor
    · have hguards : ∀ guards, firstMatch (.variant x) 0 m.arms =
          firstArm (.variant x) guards 0 m.arms := by
        intro guards
        rw [← hjump x hv guards, hjump x hv fun _ => true]
        rfl
      exact firstArm_guards.mp hguards a ha
    · obtain ⟨i, hi, hget⟩ := firstMatch_find (k := 0) ha
      rw [Nat.zero_add] at hi
      rw [Bool.eq_false_iff]
      intro hbreaks
      -- the body ends by its `break`
      have hthis := hruns _ hv (fun _ => true) (fun j => if j = i then .brk else .next) ?_
      · rw [run_switch, run_eq_told, hjump x hv fun _ => true] at hthis
        change told _ (firstMatch (.variant x) 0 m.arms) =
          told _ (firstMatch (.variant x) 0 m.arms) at hthis
        rw [hi] at hthis
        have hexit := congrArg Prod.snd hthis
        simp [told, ran, Exit.unbroken] at hexit
      · intro j b hb hj
        by_cases hij : j = i
        · subst hij
          obtain rfl := Option.some.inj (hget.symm.trans hb)
          exact hbreaks
        · rw [if_neg hij] at hj
          cases hj
  · intro h
    have hlabelled := labelled_of_names hok h.names
    refine ⟨_, _, hcg, depth_switch _ hfence, checks_switch h, parse_switch _ hfence, ?_⟩
    intro v hv guards exits hexits
    obtain ⟨x, rfl⟩ := eq_variant hv
    have hguards : firstMatch (.variant x) 0 m.arms = firstArm (.variant x) guards 0 m.arms :=
      firstArm_guards.mpr (fun a ha => (h.first _ hv a ha).1) guards
    rw [run_switch, run_eq_told, jump_eq hlabelled h.catchAll, ← hguards]
    cases hfind : m.arms.find? (·.pat.matches (.variant x)) with
    | none =>
      rw [firstMatch_not_find hfind]
      rfl
    | some a =>
      obtain ⟨i, hi, hget⟩ := firstMatch_find (k := 0) hfind
      have hne : exits (0 + i) ≠ .brk := by
        intro hbrk
        rw [Nat.zero_add] at hbrk
        have hbreaks := hexits i a hget hbrk
        rw [(h.first _ hv a hfind).2] at hbreaks
        cases hbreaks
      rw [hi, told, told, ran, ran, Exit.unbroken, if_neg hne]

/-! ## Which matches are right -/

/-- The temporary has the type of the emitter. -/
theorem subject_mem {m : MatchNode} {ps : List Piece} (h : cgMatch g m = some ps) :
    .subject (emitter g m) ∈ ps := by
  rw [cgMatch] at h
  have hchain : ∀ (t : CType) (elseFirst : Bool) (print : Pat → Print),
      (items print 0 m.arms).map (chainMatch t elseFirst) = some ps → .subject t ∈ ps := by
    intro t elseFirst print h
    obtain ⟨is, -, rfl⟩ := Option.map_eq_some_iff.mp h
    rw [chainMatch]
    simp
  split at h
  · next hkind => rw [hkind]; exact hchain _ _ _ h
  · next hkind => rw [hkind]; exact hchain _ _ _ h
  · next hkind => rw [hkind]; exact hchain _ _ _ h
  · next hkind => rw [hkind]; exact hchain _ _ _ h
  · next hkind =>
    rw [hkind, ← Option.some.inj h, switchMatch]
    simp
  · next hkind =>
    rw [hkind, ← Option.some.inj h, switchMatch]
    simp

theorem emitter_of_right {t : Ty} {m : MatchNode} (h : Right g t m) : emitter g m = t.ctype := by
  obtain ⟨ps, c, hps, -, hchecks, -⟩ := h
  exact hchecks.temporary _ (subject_mem hps)

/-- No enums. -/
def noEnums : CodeGen := ⟨fun _ => none, false⟩

/-- `match n { 1 => …, 2..9 => …, _ => … }`. -/
def digits : MatchNode :=
  ⟨.var (some "int64_t"),
    [⟨.lit (.int 1), false, false⟩, ⟨.range 2 (some 9) false, false, true⟩,
      ⟨.wildcard, false, false⟩]⟩

theorem digits_fits : Fits noEnums .int digits := by
  refine ⟨by decide, ?_, ?_⟩
  · rintro is ⟨⟩
    refine ⟨by simp [List.pairwise_cons], ?_⟩
    rintro ⟨⟩
  · intro v _ a ha
    have hmem := List.mem_of_find?_eq_some ha
    simp only [digits, List.mem_cons, List.not_mem_nil, or_false] at hmem
    rcases hmem with rfl | rfl | rfl
    · exact ⟨rfl, by rintro ⟨⟩⟩
    · exact ⟨rfl, by rintro ⟨⟩⟩
    · exact ⟨rfl, by rintro ⟨⟩⟩

/-- `match n { 1 if … => …, _ => … }`. -/
def guardedOne : MatchNode :=
  ⟨.var (some "int64_t"), [⟨.lit (.int 1), true, false⟩, ⟨.wildcard, false, false⟩]⟩

end Limceron.C99.Match
