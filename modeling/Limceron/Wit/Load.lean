/-
# `Limceron.Wit.Load` — reading a WIT file

`lcn_wit_load` looks for words.  Behind `interface` it reads functions; behind any
other word it goes to the next `;` or closing brace and one character further:

| what it skips | where it goes on |
| :-- | :-- |
| `package a:b;` | behind the `;` |
| `world w { … }` | behind the character that follows the brace |

What it skips it does not read, so a brace or a `;` in a comment there counts as
one.  Each loop has a bound here, the length of the text, and is never stopped by it
(`lcnWitLoad_isSome`).
-/
import Limceron.Wit.Emit

namespace Limceron.Wit

open Json (ascii)

/-! ## Words -/

/-- `isspace`. -/
def isSpace (c : UInt8) : Bool := c = 0x20 || (0x09 ≤ c && c ≤ 0x0D)

def newline : UInt8 := 0x0A

def slash : UInt8 := 0x2F

/-- The characters of an identifier. -/
def isIdent (c : UInt8) : Bool :=
  (0x30 ≤ c && c ≤ 0x39) || (0x41 ≤ c && c ≤ 0x5A) || (0x61 ≤ c && c ≤ 0x7A) || c = dash ||
    c = 0x5F

/-- `skip_ws`, outside of a comment or inside of one. -/
def skipFrom : Bool → Bytes → Bytes
  | _, [] => []
  | true, c :: s => skipFrom (c ≠ newline) s
  | false, c :: s =>
      if isSpace c then skipFrom false s
      else if c = slash ∧ s.head? = some slash then skipFrom true s
      else c :: s

def skipWs (s : Bytes) : Bytes := skipFrom false s

/-- `read_ident`, into a buffer of 64. -/
def readIdent (s : Bytes) : Option (Bytes × Bytes) :=
  let name := s.takeWhile isIdent
  if name = [] then none else some (name.take 63, s.dropWhile isIdent)

def less : UInt8 := 0x3C

def greater : UInt8 := 0x3E

/-- The depth of the angle brackets behind `c`. -/
def angleDepth (depth : Nat) (c : UInt8) : Nat :=
  if c = less then depth + 1 else if c = greater then depth - 1 else depth

/-- What stands up to the bracket that closes `depth` of them. -/
def readAngles (depth : Nat) : Bytes → Bytes × Bytes
  | [] => ([], [])
  | c :: s =>
      if depth = 0 then ([], c :: s)
      else
        let body := readAngles (angleDepth depth c) s
        (c :: body.1, body.2)

/-- The arguments of a generic type, if there are any. -/
def readGeneric (s : Bytes) : Bytes × Bytes :=
  if s.head? = some less then (less :: (readAngles 1 s.tail).1, (readAngles 1 s.tail).2)
  else ([], s)

/-- `read_type_token`, into a buffer of 32. -/
def readTypeToken (s : Bytes) : Option (Bytes × Bytes) :=
  if s.head? = some 0x5F then some ([0x5F], s.tail)
  else
    let type := s.takeWhile isIdent ++ (readGeneric (s.dropWhile isIdent)).1
    if type = [] then none else some (type.take 31, (readGeneric (s.dropWhile isIdent)).2)

/-- `match_char`. -/
def matchChar (c : UInt8) (s : Bytes) : Option Bytes :=
  if (skipWs s).head? = some c then some (skipWs s).tail else none

/-! ## Functions -/

structure WitParam where
  name : Bytes
  type : Bytes
  deriving DecidableEq

/-- `LcnWitFunc`. -/
structure WitFunc where
  qualified : Bytes
  params : List WitParam
  retType : Bytes
  deriving DecidableEq

def openParen : UInt8 := 0x28

def closeParen : UInt8 := 0x29

def comma : UInt8 := 0x2C

def semicolon : UInt8 := 0x3B

def openBrace : UInt8 := 0x7B

def closeBrace : UInt8 := 0x7D

def colonChar : UInt8 := 0x3A

/-- Entering a parameter in `fn.params`, of eight. -/
def pushParam (params : List WitParam) (name type : Bytes) : List WitParam :=
  if params.length < 8 then params ++ [⟨name, type⟩] else params

/-- The parameters of a function, `params` being read. -/
def paramLoop : Nat → List WitParam → Bytes → Option (List WitParam × Bytes)
  | 0, _, _ => none
  | n + 1, params, s =>
      let s := skipWs s
      if s.head? = some closeParen then some (params, s.tail)
      else
        match readIdent s with
        | none => some (params, s)
        | some (pname, s) =>
            match matchChar colonChar s with
            | none => some (params, skipWs s)
            | some s =>
                match readTypeToken (skipWs s) with
                | none => some (params, skipWs s)
                | some (ptype, s) =>
                    let s := skipWs s
                    let params := pushParam params pname ptype
                    if s.head? = some comma then paramLoop n params s.tail
                    else if s.head? = some closeParen then some (params, s.tail)
                    else paramLoop n params s

/-- What stands behind the parameters: an arrow and a type, or nothing. -/
def returnType (s : Bytes) : Bytes × Bytes :=
  let s := skipWs s
  if [dash, greater] <+: s then
    (readTypeToken (skipWs (s.drop 2))).getD ([], skipWs (s.drop 2))
  else ([0x5F], s)

/-- Behind the next `;`. -/
def afterSemicolon (s : Bytes) : Bytes := (s.dropWhile (· ≠ semicolon)).tail

/-- `contract_push`. -/
def contractPush (funcs : List WitFunc) (f : WitFunc) : List WitFunc :=
  if funcs.length < 128 then funcs ++ [f] else funcs

def funcWord : Bytes := ascii "func"

/-- The colon, `func` and the parenthesis behind the name of a function; where one of
them is missing, what stands behind the next `;`. -/
def funcHead (s : Bytes) : Except Bytes Bytes :=
  match matchChar colonChar s with
  | none => .error (afterSemicolon (skipWs s))
  | some s =>
      match readIdent (skipWs s) with
      | none => .error (afterSemicolon (skipWs s))
      | some (word, s) =>
          if word ≠ funcWord then .error (afterSemicolon s)
          else
            match matchChar openParen s with
            | none => .error (afterSemicolon (skipWs s))
            | some s => .ok s

/-- The body of an interface. -/
def interfaceLoop (ns : Bytes) : Nat → List WitFunc → Bytes → Option (List WitFunc × Bytes)
  | 0, _, _ => none
  | n + 1, funcs, s =>
      let s := skipWs s
      if s = [] then some (funcs, [])
      else if s.head? = some closeBrace then some (funcs, s.tail)
      else
        match readIdent s with
        | none => interfaceLoop ns n funcs (s.dropWhile (· ≠ newline))
        | some (verb, s) =>
            match funcHead s with
            | .error s => interfaceLoop ns n funcs s
            | .ok s =>
                match paramLoop (s.length + 1) [] s with
                | none => none
                | some (params, s) =>
                    let (ret, s) := returnType s
                    let s := skipWs s
                    let f : WitFunc := ⟨(ns ++ dot :: verb).take 63, params, ret⟩
                    interfaceLoop ns n (contractPush funcs f)
                      (if s.head? = some semicolon then s.tail else s)

/-! ## Blocks -/

/-- The depth of the braces behind `c`. -/
def braceDepth (depth : Nat) (c : UInt8) : Nat :=
  if c = openBrace then depth + 1 else if c = closeBrace then depth - 1 else depth

/-- Behind the brace that closes `depth` of them. -/
def skipBraces (depth : Nat) : Bytes → Bytes
  | [] => []
  | c :: s => if depth = 0 then c :: s else skipBraces (braceDepth depth c) s

/-- Behind the next `;` or closing brace, or behind the character that follows the
braces that are opened before. -/
def skipBlock : Bytes → Bytes
  | [] => []
  | c :: s =>
      if c = semicolon ∨ c = closeBrace then s
      else if c = openBrace then (skipBraces 1 s).tail
      else skipBlock s

def interfaceWord : Bytes := ascii "interface"

/-- What stands behind the word `interface`. -/
def readInterface (funcs : List WitFunc) (s : Bytes) : Option (List WitFunc × Bytes) :=
  match readIdent (skipWs s) with
  | none => some (funcs, skipWs s)
  | some (ns, s) =>
      match matchChar openBrace s with
      | none => some (funcs, skipWs s)
      | some s => interfaceLoop ns (s.length + 1) funcs s

def loadLoop : Nat → List WitFunc → Bytes → Option (List WitFunc)
  | 0, _, _ => none
  | n + 1, funcs, s =>
      let s := skipWs s
      if s = [] then some funcs
      else
        match readIdent s with
        | none => loadLoop n funcs s.tail
        | some (word, s) =>
            if word = interfaceWord then
              match readInterface funcs s with
              | none => none
              | some (funcs, s) => loadLoop n funcs s
            else loadLoop n funcs (skipBlock s)

/-- `lcn_wit_load`: the functions of the contract. -/
def lcnWitLoad (text : Bytes) : Option (List WitFunc) := loadLoop (text.length + 1) [] text

/-- `qualified_eq_canonical`. -/
def qualifiedEqCanonical : Bytes → Bytes → Bool
  | [], [] => true
  | a :: s, b :: t =>
      (if a = dash then 0x5F else a) == (if b = dash then 0x5F else b) && qualifiedEqCanonical s t
  | _, _ => false

/-- `lcn_wit_lookup_signature`, on a contract that is loaded. -/
def lcnWitLookupSignature (funcs : List WitFunc) (qualified : Bytes) : Option WitFunc :=
  funcs.find? fun f => qualifiedEqCanonical f.qualified qualified

/-! ## The loops end -/

theorem length_skipFrom (b : Bool) (s : Bytes) : (skipFrom b s).length ≤ s.length := by
  induction s generalizing b with
  | nil => cases b <;> exact Nat.le_refl _
  | cons c s ih =>
      have hlater (b : Bool) : (skipFrom b s).length ≤ (c :: s).length :=
        Nat.le_succ_of_le (ih b)
      cases b with
      | true => exact hlater _
      | false =>
          rw [skipFrom]
          split
          · exact hlater _
          · split
            · exact hlater _
            · exact Nat.le_refl _

theorem length_skipWs (s : Bytes) : (skipWs s).length ≤ s.length := length_skipFrom false s

/-- What `skip_ws` stops at is no white space. -/
theorem isSpace_of_skipFrom {b : Bool} {s r : Bytes} {c : UInt8} (h : skipFrom b s = c :: r) :
    isSpace c = false := by
  induction s generalizing b with
  | nil => cases b <;> simp [skipFrom] at h
  | cons d s ih =>
      cases b with
      | true => exact ih h
      | false =>
          rw [skipFrom] at h
          split at h
          · exact ih h
          · rename_i hspace
            split at h
            · exact ih h
            · obtain ⟨rfl, -⟩ := List.cons.inj h
              simpa using hspace

theorem length_dropWhile_lt {p : UInt8 → Bool} {s : Bytes} (h : s.takeWhile p ≠ []) :
    (s.dropWhile p).length < s.length := by
  have hsplit := congrArg List.length (List.takeWhile_append_dropWhile (p := p) (l := s))
  have hpos := List.length_pos_iff.mpr h
  rw [List.length_append] at hsplit
  omega

theorem length_readIdent {s name rest : Bytes} (h : readIdent s = some (name, rest)) :
    rest.length < s.length := by
  rw [readIdent] at h
  split at h
  · cases h
  · rename_i hname
    obtain ⟨-, rfl⟩ := Prod.mk.inj (Option.some.inj h)
    exact length_dropWhile_lt hname

theorem length_matchChar {c : UInt8} {s rest : Bytes} (h : matchChar c s = some rest) :
    rest.length < s.length := by
  rw [matchChar] at h
  split at h
  · rename_i hhead
    obtain rfl := Option.some.inj h
    have hskip := length_skipWs s
    cases hs : skipWs s with
    | nil => rw [hs] at hhead; cases hhead
    | cons d r =>
        rw [hs] at hskip
        exact hskip
  · cases h

theorem length_readAngles (depth : Nat) (s : Bytes) :
    (readAngles depth s).2.length ≤ s.length := by
  induction s generalizing depth with
  | nil => exact Nat.le_refl _
  | cons c s ih =>
      rw [readAngles]
      split
      · exact Nat.le_refl _
      · exact Nat.le_succ_of_le (ih _)

theorem length_readGeneric (s : Bytes) : (readGeneric s).2.length ≤ s.length := by
  rw [readGeneric]
  split
  · have hangles := length_readAngles 1 s.tail
    rw [List.length_tail] at hangles
    exact hangles.trans (Nat.sub_le _ _)
  · exact Nat.le_refl _

theorem length_readTypeToken {s type rest : Bytes} (h : readTypeToken s = some (type, rest)) :
    rest.length ≤ s.length := by
  have hdrop := (List.dropWhile_suffix isIdent (l := s)).length_le
  have hgeneric := length_readGeneric (s.dropWhile isIdent)
  rw [readTypeToken] at h
  split at h
  · obtain ⟨-, rfl⟩ := Prod.mk.inj (Option.some.inj h)
    rw [List.length_tail]
    omega
  · simp only at h
    split at h
    · cases h
    · obtain ⟨-, rfl⟩ := Prod.mk.inj (Option.some.inj h)
      omega

theorem paramLoop_ends {n : Nat} (params : List WitParam) {s : Bytes} (hn : s.length < n) :
    ∃ params' rest, paramLoop n params s = some (params', rest) ∧ rest.length ≤ s.length := by
  induction n generalizing params s with
  | zero => omega
  | succ n ih =>
      have hskip := length_skipWs s
      rw [paramLoop]
      split
      · exact ⟨_, _, rfl, by rw [List.length_tail]; omega⟩
      · cases hname : readIdent (skipWs s) with
        | none => exact ⟨_, _, rfl, hskip⟩
        | some r =>
            obtain ⟨pname, s₁⟩ := r
            have h₁ := length_readIdent hname
            have hskip₁ := length_skipWs s₁
            simp only
            cases hcolon : matchChar colonChar s₁ with
            | none => exact ⟨_, _, rfl, by omega⟩
            | some s₂ =>
                have h₂ := length_matchChar hcolon
                have hskip₂ := length_skipWs s₂
                simp only
                cases htype : readTypeToken (skipWs s₂) with
                | none => exact ⟨_, _, rfl, by omega⟩
                | some r =>
                    obtain ⟨ptype, s₃⟩ := r
                    have h₃ := length_readTypeToken htype
                    have hskip₃ := length_skipWs s₃
                    have hlater (params : List WitParam) {u : Bytes} (hu : u.length ≤ s₃.length) :
                        ∃ params' rest, paramLoop n params u = some (params', rest) ∧
                          rest.length ≤ s.length := by
                      obtain ⟨params', rest, hloop, hrest⟩ := ih params (s := u) (by omega)
                      exact ⟨params', rest, hloop, by omega⟩
                    simp only
                    split
                    · exact hlater _ (by rw [List.length_tail]; omega)
                    · split
                      · exact ⟨_, _, rfl, by rw [List.length_tail]; omega⟩
                      · exact hlater _ hskip₃

theorem length_returnType (s : Bytes) : (returnType s).2.length ≤ s.length := by
  have hskip := length_skipWs s
  rw [returnType]
  split
  · have hdrop : ((skipWs s).drop 2).length ≤ (skipWs s).length := by
      rw [List.length_drop]
      omega
    have hskip₂ := length_skipWs ((skipWs s).drop 2)
    cases htype : readTypeToken (skipWs ((skipWs s).drop 2)) with
    | none => simp only [Option.getD_none]; omega
    | some r =>
        have h : r.2.length ≤ _ := length_readTypeToken htype
        simp only [Option.getD_some]
        omega
  · exact hskip

theorem length_afterSemicolon (s : Bytes) : (afterSemicolon s).length ≤ s.length := by
  have hdrop := (List.dropWhile_suffix (fun c => decide (c ≠ semicolon)) (l := s)).length_le
  rw [afterSemicolon, List.length_tail]
  omega

theorem length_funcHead {s rest : Bytes} (h : funcHead s = .ok rest ∨ funcHead s = .error rest) :
    rest.length ≤ s.length := by
  have hskip := length_skipWs s
  have hnone := length_afterSemicolon (skipWs s)
  rw [funcHead] at h
  cases hcolon : matchChar colonChar s with
  | none =>
      obtain rfl : afterSemicolon (skipWs s) = rest := by simpa [hcolon] using h
      omega
  | some s₁ =>
      have h₁ := length_matchChar hcolon
      have hskip₁ := length_skipWs s₁
      have hnone₁ := length_afterSemicolon (skipWs s₁)
      cases hword : readIdent (skipWs s₁) with
      | none =>
          obtain rfl : afterSemicolon (skipWs s₁) = rest := by simpa [hcolon, hword] using h
          omega
      | some r =>
          obtain ⟨word, s₂⟩ := r
          have h₂ := length_readIdent hword
          have hother := length_afterSemicolon s₂
          have hskip₂ := length_skipWs s₂
          have hnone₂ := length_afterSemicolon (skipWs s₂)
          simp only [hcolon, hword] at h
          split at h
          · obtain rfl : afterSemicolon s₂ = rest := by simpa using h
            omega
          · cases hopen : matchChar openParen s₂ with
            | none =>
                obtain rfl : afterSemicolon (skipWs s₂) = rest := by simpa [hopen] using h
                omega
            | some s₃ =>
                have h₃ := length_matchChar hopen
                obtain rfl : s₃ = rest := by simpa [hopen] using h
                omega

theorem interfaceLoop_ends {ns : Bytes} {n : Nat} (funcs : List WitFunc) {s : Bytes}
    (hn : s.length < n) :
    ∃ funcs' rest, interfaceLoop ns n funcs s = some (funcs', rest) ∧
      rest.length ≤ s.length := by
  induction n generalizing funcs s with
  | zero => omega
  | succ n ih =>
      have hskip := length_skipWs s
      have hlater (funcs : List WitFunc) {u : Bytes} (hu : u.length < s.length) :
          ∃ funcs' rest, interfaceLoop ns n funcs u = some (funcs', rest) ∧
            rest.length ≤ s.length := by
        obtain ⟨funcs', rest, hloop, hrest⟩ := ih funcs (s := u) (by omega)
        exact ⟨funcs', rest, hloop, by omega⟩
      rw [interfaceLoop]
      split
      · exact ⟨_, _, rfl, Nat.zero_le _⟩
      · rename_i hne
        split
        · exact ⟨_, _, rfl, by rw [List.length_tail]; omega⟩
        · cases hname : readIdent (skipWs s) with
          | none =>
              -- the first character is no white space, so the line goes on
              cases hs : skipWs s with
              | nil => exact absurd hs hne
              | cons c r =>
                  have hspace := isSpace_of_skipFrom hs
                  have hc : c ≠ newline := by
                    rintro rfl
                    cases hspace
                  have hdrop := (List.dropWhile_suffix (fun c => decide (c ≠ newline))
                    (l := r)).length_le
                  rw [hs, List.length_cons] at hskip
                  simp only
                  rw [List.dropWhile_cons_of_pos (by simpa using hc)]
                  exact hlater funcs (by omega)
          | some r =>
              obtain ⟨verb, s₁⟩ := r
              have h₁ := length_readIdent hname
              simp only
              cases h : funcHead s₁ with
              | error s₂ =>
                  have h₂ := length_funcHead (.inr h)
                  exact hlater funcs (by omega)
              | ok s₂ =>
                  have h₂ := length_funcHead (.inl h)
                  simp only
                  obtain ⟨params, s₃, hparams, h₃⟩ := paramLoop_ends [] (Nat.lt_succ_self s₂.length)
                  have h₄ := length_returnType s₃
                  have hskip₄ := length_skipWs (returnType s₃).2
                  rw [hparams]
                  refine hlater _ ?_
                  split
                  · rw [List.length_tail]; omega
                  · omega

theorem length_skipBraces (depth : Nat) (s : Bytes) :
    (skipBraces depth s).length ≤ s.length := by
  induction s generalizing depth with
  | nil => exact Nat.le_refl _
  | cons c s ih =>
      rw [skipBraces]
      split
      · exact Nat.le_refl _
      · exact Nat.le_succ_of_le (ih _)

theorem length_skipBlock (s : Bytes) : (skipBlock s).length ≤ s.length := by
  induction s with
  | nil => exact Nat.le_refl _
  | cons c s ih =>
      rw [skipBlock]
      split
      · exact Nat.le_succ _
      · split
        · have hbraces := length_skipBraces 1 s
          rw [List.length_tail, List.length_cons]
          omega
        · exact Nat.le_succ_of_le ih

theorem readInterface_ends (funcs : List WitFunc) (s : Bytes) :
    ∃ funcs' rest, readInterface funcs s = some (funcs', rest) ∧ rest.length ≤ s.length := by
  have hskip := length_skipWs s
  rw [readInterface]
  cases hname : readIdent (skipWs s) with
  | none => exact ⟨_, _, rfl, hskip⟩
  | some r =>
      obtain ⟨ns, s₁⟩ := r
      have h₁ := length_readIdent hname
      have hskip₁ := length_skipWs s₁
      simp only
      cases hopen : matchChar openBrace s₁ with
      | none => exact ⟨_, _, rfl, by omega⟩
      | some s₂ =>
          have h₂ := length_matchChar hopen
          obtain ⟨funcs', rest, hloop, hrest⟩ :=
            interfaceLoop_ends funcs (Nat.lt_succ_self s₂.length)
          exact ⟨funcs', rest, hloop, by omega⟩

theorem loadLoop_ends {n : Nat} (funcs : List WitFunc) {s : Bytes} (hn : s.length < n) :
    ∃ funcs', loadLoop n funcs s = some funcs' := by
  induction n generalizing funcs s with
  | zero => omega
  | succ n ih =>
      have hskip := length_skipWs s
      rw [loadLoop]
      split
      · exact ⟨_, rfl⟩
      · rename_i hne
        have hpos := List.length_pos_iff.mpr hne
        cases hname : readIdent (skipWs s) with
        | none => exact ih funcs (by rw [List.length_tail]; omega)
        | some r =>
            obtain ⟨word, s₁⟩ := r
            have h₁ := length_readIdent hname
            simp only
            split
            · obtain ⟨funcs', rest, hread, hrest⟩ := readInterface_ends funcs s₁
              rw [hread]
              exact ih funcs' (by omega)
            · have hblock := length_skipBlock s₁
              exact ih funcs (by omega)

/-- `lcn_wit_load` ends on every text. -/
theorem lcnWitLoad_isSome (text : Bytes) : ∃ funcs, lcnWitLoad text = some funcs :=
  loadLoop_ends [] (Nat.lt_succ_self _)

end Limceron.Wit
