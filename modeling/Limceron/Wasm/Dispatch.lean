/-
# `Limceron.Wasm.Dispatch` — going through the dispatch loop

Entered with `$bb = b`, the body of the dispatch loop runs the code of block `b`
and nothing else, as long as that code leaves by `return` or by a branch out of
the nest.
-/
import Limceron.Wasm.Emit

namespace Limceron.Wasm

/-- Code that does not run on and does not branch to a block of the nest. -/
structure Res.Escapes (r : Res) : Prop where
  not_next : ∀ st, r ≠ .next st
  not_bb : ∀ k st, r ≠ .br (.bb k) st

namespace Res.Escapes

theorem ret (vs : List (BitVec 64)) (s : Store) : (Res.ret vs s).Escapes := ⟨nofun, nofun⟩

theorem trap (s : Store) : (Res.trap s).Escapes := ⟨nofun, nofun⟩

theorem timeout (s : Store) : (Res.timeout s).Escapes := ⟨nofun, nofun⟩

theorem dispatch (st : St) : (Res.br .dispatch st).Escapes := ⟨nofun, nofun⟩

theorem andThen {r : Res} (h : r.Escapes) (k : St → Res) : r.andThen k = r := by
  cases r with
  | next st => exact absurd rfl (h.not_next st)
  | _ => rfl

theorem leave {r : Res} (h : r.Escapes) (st : St) (k : Nat) : st.leave (.bb k) r = r := by
  cases r with
  | br l st' =>
      have hne : l ≠ .bb k := by
        rintro rfl
        exact h.not_bb k st' rfl
      rw [St.leave, if_neg hne]
  | _ => rfl

end Res.Escapes

section
variable {fa : FloatArith} {host : WasmHost} {callee : String → List (BitVec 64) → Store → Res}
  {again : Label → List WInstr → St → Res}

theorem execSeq_block (l : Label) (body rest : List WInstr) (st : St) :
    execSeq fa host callee again (.block l body :: rest) st =
      (st.leave l (execSeq fa host callee again body st)).andThen
        (execSeq fa host callee again rest) := by
  rw [execSeq_cons, execInstr]

/-- The table branches to the block of `$bb`. -/
theorem execSeq_dispatchTable {n b : Nat} (hb : b < n) {st : St} (hst : st.bb = BitVec.ofNat 32 b)
    (hlt : b < 2 ^ 32) :
    execSeq fa host callee again (dispatchTable n) st =
      .br (.bb b) (st.log (.visit (BitVec.ofNat 32 b) st.locals)) := by
  have hset : (st.bb.setWidth 64).setWidth 32 = BitVec.ofNat 32 b := by
    rw [BitVec.setWidth_setWidth_of_le _ (by decide), BitVec.setWidth_eq, hst]
  have hget : ((List.range n).map Label.bb).getD b .exit = .bb b := by
    simp [List.getD, hb]
  have hnat : (BitVec.ofNat 32 b).toNat = b := by
    rw [BitVec.toNat_ofNat, Nat.mod_eq_of_lt hlt]
  simp only [dispatchTable, execSeq_cons, execInstr, Res.andThen_next, Res.andThen_br, St.top,
    St.push, St.pop, List.headD_cons, List.tail_cons, hset, hnat, hget]

/-- A branch to an outer block passes the inner ones. -/
theorem execSeq_nestBlocks_br {table : List WInstr} {code : Nat → List WInstr} {b : Nat}
    {st st' : St} (ht : execSeq fa host callee again table st = .br (.bb b) st') (k : Nat)
    (hk : k ≤ b) :
    execSeq fa host callee again (nestBlocks table code k) st = .br (.bb b) st' := by
  induction k with
  | zero => exact ht
  | succ k ih =>
      have hne : Label.bb b ≠ .bb k := by
        intro h
        cases h
        omega
      rw [nestBlocks, execSeq_block, ih (by omega), St.leave, if_neg hne]
      rfl

theorem execSeq_nestBlocks {table : List WInstr} {code : Nat → List WInstr} {b : Nat}
    {st st' : St} (ht : execSeq fa host callee again table st = .br (.bb b) st')
    (he : (execSeq fa host callee again (code b) { st' with stack := st.stack }).Escapes)
    (k : Nat) (hk : b < k) :
    execSeq fa host callee again (nestBlocks table code k) st =
      execSeq fa host callee again (code b) { st' with stack := st.stack } := by
  induction k with
  | zero => omega
  | succ k ih =>
      rw [nestBlocks, execSeq_block]
      by_cases hkb : k = b
      · subst hkb
        rw [execSeq_nestBlocks_br ht k (Nat.le_refl k), St.leave, if_pos rfl]
        rfl
      · rw [ih (by omega), he.leave, he.andThen]

/-- One round of the dispatch loop. -/
theorem execSeq_dispatchBody {ctx : EmitCtx} {fn : IrFunction} {b : Nat}
    (hb : b < fn.blocks.length) (hlt : b < 2 ^ 32) {st : St} (hst : st.bb = BitVec.ofNat 32 b)
    (he : (execSeq fa host callee again (blockCode ctx fn b)
      (st.log (.visit (BitVec.ofNat 32 b) st.locals))).Escapes) :
    execSeq fa host callee again (dispatchBody ctx fn) st =
      execSeq fa host callee again (blockCode ctx fn b)
        (st.log (.visit (BitVec.ofNat 32 b) st.locals)) :=
  execSeq_nestBlocks (execSeq_dispatchTable hb hst hlt) he _ hb

/-- What a loop makes of a round of its body: a branch to its head goes round again. -/
def St.round (again : Label → List WInstr → St → Res) (st : St) (l : Label)
    (body : List WInstr) : Res → Res
  | .br l' st' => if l' = l then again l body { st' with stack := st.stack } else .br l' st'
  | r => r

theorem execInstr_loop (l : Label) (body : List WInstr) (st : St) :
    execInstr fa host callee again (.loop l body) st =
      st.round again l body (execSeq fa host callee again body st) := rfl

/-- The loop, entered with `$bb = b`. -/
theorem execSeq_dispatchLoop {ctx : EmitCtx} {fn : IrFunction} {b : Nat}
    (hb : b < fn.blocks.length) (hlt : b < 2 ^ 32) {st : St} (hst : st.bb = BitVec.ofNat 32 b)
    (he : (execSeq fa host callee again (blockCode ctx fn b)
      (st.log (.visit (BitVec.ofNat 32 b) st.locals))).Escapes) :
    execSeq fa host callee again [.loop .dispatch (dispatchBody ctx fn)] st =
      st.round again .dispatch (dispatchBody ctx fn)
        (execSeq fa host callee again (blockCode ctx fn b)
          (st.log (.visit (BitVec.ofNat 32 b) st.locals))) := by
  rw [execSeq_singleton, execInstr_loop, execSeq_dispatchBody hb hlt hst he]

end

end Limceron.Wasm
