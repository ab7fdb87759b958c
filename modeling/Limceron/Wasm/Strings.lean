/-
# `Limceron.Wasm.Strings` — strings made by the host

`string.concat` and the `string.from_…` write their result, behind its length,
into the scratch area of their site and answer with a pointer to it.  There is
one site for each name, not for each call:

| later call | a string made before |
| :-- | :-- |
| of another name | stands in another area and is left alone |
| of the same name | is overwritten by the new result |

The comment at `host_call_register` has only the first row in mind.  An
interpolated string is the result of its last `string.concat`, so the second one
is what happens to every string that is held across another interpolation.
-/
import Limceron.Gen.Program
import Limceron.Wasm.Dispatch
import Limceron.Wasm.Words

namespace Limceron.Wasm

/-! ## Strings in memory -/

/-- The calls that an interpolated string is put together by. -/
def stringMakers : List String :=
  ["string.concat", "string.from_int", "string.from_bool", "string.from_float"]

/-- The address an `i32` result points to. -/
def pointer (r : BitVec 64) : Nat := (r.setWidth 32).toNat

/-- The bytes at `p`, as many as the word before says. -/
def readString (mem : Memory) (p : Nat) : Bytes :=
  (List.range (mem.read (p - 4) 4).toNat).map fun k => mem (p + k)

/-- Where a string and its length stand. -/
def stringRegion (mem : Memory) (p : Nat) : Region := ⟨p - 4, p + (readString mem p).length⟩

/-- A host that keeps to the buffer protocol: it writes within the area of the
site, and what makes a string answers with a pointer to it, in the out-buffer. -/
structure StringHost (host : WasmHost) : Prop where
  frame : ∀ past (site : HostCallSite) args mem,
    site.region.WritesOnly mem (host past site args mem).2
  result : ∀ past (site : HostCallSite) args mem,
    site.qualified ∈ stringMakers → site.region.stop ≤ 2 ^ 32 →
    let (r, mem') := host past site args mem
    site.scratchOff + 4 ≤ pointer r ∧
      pointer r + (readString mem' (pointer r)).length ≤ site.scratchOff + hostOutbufMax

/-! ## What later calls do to a string -/

/-- The string that `e` has made is not changed by the host call `e'`. -/
def LeavesString (e e' : StoreEvent) : Prop :=
  match e, e' with
  | .host site _ r _ after, .host _ _ _ before' after' =>
      site.qualified ∈ stringMakers →
        readString before' (pointer r) = readString after (pointer r) →
          readString after' (pointer r) = readString after (pointer r)
  | _, _ => True

instance : (e e' : StoreEvent) → Decidable (LeavesString e e')
  | .host site _ r _ after, .host _ _ _ before' after' =>
      inferInstanceAs (Decidable (site.qualified ∈ stringMakers →
        readString before' (pointer r) = readString after (pointer r) →
          readString after' (pointer r) = readString after (pointer r)))
  | .slot _, _ | .stored _ _, _ | .visit _ _, _ => .isTrue trivial
  | .host .., .slot _ | .host .., .stored _ _ | .host .., .visit _ _ => .isTrue trivial

/-- Calls of two different capabilities. -/
def OtherCapability (e e' : StoreEvent) : Prop :=
  match e, e' with
  | .host site _ _ _ _, .host site' _ _ _ _ => site'.qualified ≠ site.qualified
  | _, _ => True

/-! ## The answers of the host -/

section
variable {fa : FloatArith} {host : WasmHost} {ctx : EmitCtx}

/-- A host call in the past of an instance: at a registered site, and answered
by the host. -/
def Answered (host : WasmHost) (ctx : EmitCtx) : StoreEvent → Prop
  | .host site args r before after =>
      site ∈ ctx.hostCalls ∧ ∃ past, host past site args before = (r, after)
  | _ => True

/-- All host calls are. -/
def AllAnswered (host : WasmHost) (ctx : EmitCtx) (s : Store) : Prop :=
  ∀ e ∈ s.events, Answered host ctx e

theorem AllAnswered.of_events {s s' : Store} {es : List StoreEvent} (h : AllAnswered host ctx s)
    (hevents : s'.events = s.events ++ es) (hes : ∀ e ∈ es, Answered host ctx e) :
    AllAnswered host ctx s' := by
  intro e he
  rw [hevents] at he
  rcases List.mem_append.mp he with he | he
  · exact h e he
  · exact hes e he

theorem answered_of_noted {e : StoreEvent} (h : e.noted = false) : Answered host ctx e := by
  cases e with
  | host site args r before after => cases h
  | _ => trivial

theorem AllAnswered.of_quiet {s s' : Store} (h : AllAnswered host ctx s) (hq : Quiet s s') :
    AllAnswered host ctx s' := by
  obtain ⟨-, es, hevents, hes⟩ := hq
  exact h.of_events hevents fun e he => answered_of_noted (hes e he)

theorem piece_answered {is : List WInstr} (h : EmitPiece ctx is) :
    KeepsStore fa host (AllAnswered host ctx) is := by
  refine h.keeps (fun s s' hs hq => hs.of_quiet hq) ?_ ?_
  · intro s hs
    exact hs.of_events rfl (by simp [Answered])
  · intro site hsite s args r mem hanswer hs
    refine hs.of_events rfl fun e he => ?_
    rw [List.mem_singleton.mp he]
    exact ⟨hsite, s.events, hanswer⟩

end

theorem answered_runCalls (fa : FloatArith) (host : WasmHost) (m : IrModule) (counters : Counters)
    (calls : List OuterCall) :
    AllAnswered host (emitCtx m)
      (runCalls fa host (emitModule m) (initialStore m counters) calls) := by
  refine BuiltFrom.keeps_runCalls (fun is h => piece_answered h) (emitModule_built m) calls ?_
  intro e he
  cases he

/-! ## Areas -/

/-- The registered sites end below `2 ^ 32`. -/
theorem site_stop_le {m : IrModule} {site : HostCallSite} (h : site ∈ (emitCtx m).hostCalls) :
    site.region.stop ≤ 2 ^ 32 := by
  rw [emitCtx_eq] at h
  have hseq := sequential_placeSites ((hostSites m).take maxHostCalls) 0
  have hstop := (hseq.mem (List.mem_map_of_mem h)).2.2
  have hlen : ((hostSites m).take maxHostCalls).length ≤ 64 := by
    rw [List.length_take]
    exact Nat.min_le_left _ _
  simp only [hostScratchBase, hostScratchStride] at hstop
  omega

/-- Sites of different names have different areas. -/
theorem sites_disjoint {m : IrModule} {site site' : HostCallSite}
    (h : site ∈ (emitCtx m).hostCalls) (h' : site' ∈ (emitCtx m).hostCalls)
    (hne : site'.qualified ≠ site.qualified) : site'.region.Disjoint site.region := by
  rw [emitCtx_eq] at h h'
  have hpair := (sequential_placeSites ((hostSites m).take maxHostCalls) 0).pairwise
  rw [List.pairwise_map] at hpair
  have hsymm : Std.Symm fun s t : HostCallSite => s.region.Disjoint t.region :=
    ⟨fun _ _ hd => hd.symm⟩
  exact hpair.forall h' h fun heq => hne (congrArg _ heq)

theorem readString_congr {mem mem' : Memory} {p : Nat}
    (h : ∀ x, (stringRegion mem p).start ≤ x → x < (stringRegion mem p).stop →
      mem' x = mem x) (hp : 4 ≤ p) :
    readString mem' p = readString mem p := by
  have hread : mem'.read (p - 4) 4 = mem.read (p - 4) 4 := by
    refine Memory.read_congr fun x hlo hhi => h x hlo ?_
    simp only [stringRegion]
    omega
  rw [readString, readString, hread]
  refine List.map_congr_left fun k hk => h (p + k) ?_ ?_
  · simp only [stringRegion]
    omega
  · have := List.mem_range.mp hk
    simp only [stringRegion, readString, List.length_map, List.length_range]
    omega

/-- A string stands within the area of the site that made it. -/
theorem StringHost.string_in_site {host : WasmHost} (hhost : StringHost host)
    {past : List StoreEvent} {site : HostCallSite} {args : List (BitVec 64)} {before after : Memory}
    {r : BitVec 64} (hanswer : host past site args before = (r, after))
    (hmaker : site.qualified ∈ stringMakers) (hstop : site.region.stop ≤ 2 ^ 32) :
    4 ≤ pointer r ∧ site.region.start ≤ (stringRegion after (pointer r)).start ∧
      (stringRegion after (pointer r)).stop ≤ site.region.stop := by
  have hresult := hhost.result past site args before hmaker hstop
  rw [hanswer] at hresult
  obtain ⟨hlo, hhi⟩ := hresult
  refine ⟨by omega, ?_, ?_⟩
  · simp only [HostCallSite.region, stringRegion]
    omega
  · simp only [HostCallSite.region, stringRegion]
    omega

/-- A host call of another name keeps a string. -/
theorem leavesString_of_answered {m : IrModule} {host : WasmHost} (hhost : StringHost host)
    {e e' : StoreEvent} (he : Answered host (emitCtx m) e) (he' : Answered host (emitCtx m) e')
    (hother : OtherCapability e e') : LeavesString e e' := by
  cases e with
  | host site args r before after =>
      cases e' with
      | host site' args' r' before' after' =>
          obtain ⟨hsite, past, hanswer⟩ := he
          obtain ⟨hsite', past', hanswer'⟩ := he'
          intro hmaker hheld
          obtain ⟨hfour, hlo, hhi⟩ := hhost.string_in_site hanswer hmaker (site_stop_le hsite)
          have hwrites : site'.region.WritesOnly before' after' := by
            have := hhost.frame past' site' args' before'
            rwa [hanswer'] at this
          rw [← hheld]
          refine readString_congr (fun x hx hx' => ?_) hfour
          have hlen : (stringRegion before' (pointer r)) = stringRegion after (pointer r) := by
            rw [stringRegion, stringRegion, hheld]
          rw [hlen] at hx hx'
          exact hwrites.keeps (sites_disjoint hsite hsite' hother) (by omega) (by omega)
      | _ => trivial
  | _ => trivial

/-! ## A host -/

/-- Bytes behind their length. -/
def writeString (mem : Memory) (off : Nat) (s : Bytes) : Memory :=
  Memory.write
    (fun a => if off + 4 ≤ a ∧ a < off + 4 + s.length then s.getD (a - (off + 4)) 0 else mem a)
    off (BitVec.ofNat 64 s.length) 4

/-- The bytes of an argument: a pointer and a length. -/
def argBytes (mem : Memory) (p n : BitVec 64) : Bytes :=
  (List.range (n.setWidth 32).toNat).map fun k => mem (pointer p + k)

/-- What concatenation and the conversions of integers and truth values answer. -/
def stringAnswer (site : HostCallSite) (args : List (BitVec 64)) (mem : Memory) : Bytes :=
  if site.qualified = "string.concat" then
    match args with
    | p :: n :: p' :: n' :: _ => argBytes mem p n ++ argBytes mem p' n'
    | _ => []
  else if site.qualified = "string.from_int" then utf8 (toString (args.headD 0).toInt)
  else if site.qualified = "string.from_bool" then
    if args.headD 0 = 0 then utf8 "false" else utf8 "true"
  else []

/-- A host that makes strings. -/
def WasmHost.strings : WasmHost := fun _ site args mem =>
  (BitVec.ofNat 64 (site.scratchOff + 4),
    writeString mem site.scratchOff ((stringAnswer site args mem).take (hostOutbufMax - 4)))

theorem writeString_writesOnly (mem : Memory) (off : Nat) (s : Bytes) :
    Region.WritesOnly ⟨off, off + 4 + s.length⟩ mem (writeString mem off s) := by
  intro x hx
  simp only at hx
  rw [writeString, Memory.write_other _ _ _ _ _ (by omega), if_neg (by omega)]

theorem length_readString_writeString (mem : Memory) (off : Nat) {s : Bytes}
    (hs : s.length < 2 ^ 32) :
    (readString (writeString mem off s) (off + 4)).length = s.length := by
  have hnarrow : Memory.Narrow 32 (BitVec.ofNat 64 s.length) := by
    intro i hi
    rw [BitVec.getLsbD_ofNat, Nat.testBit_lt_two_pow, Bool.and_false]
    exact Nat.lt_of_lt_of_le hs (Nat.pow_le_pow_right (by decide) hi)
  rw [readString, List.length_map, List.length_range, Nat.add_sub_cancel, writeString,
    Memory.read_write_self_narrow hnarrow, BitVec.toNat_ofNat, Nat.mod_eq_of_lt]
  omega

theorem stringHost_strings : StringHost .strings := by
  refine ⟨fun past site args mem => ?_, fun past site args mem _ hstop => ?_⟩
  · intro x hx
    have hlen := List.length_take_le (hostOutbufMax - 4) (stringAnswer site args mem)
    refine writeString_writesOnly mem site.scratchOff _ x ?_
    simp only [HostCallSite.region, hostOutbufMax] at hx hlen ⊢
    omega
  · have hlen := List.length_take_le (hostOutbufMax - 4) (stringAnswer site args mem)
    have hpointer : pointer (BitVec.ofNat 64 (site.scratchOff + 4)) = site.scratchOff + 4 := by
      simp only [HostCallSite.region, hostOutbufMax] at hstop
      rw [pointer, BitVec.toNat_setWidth, BitVec.toNat_ofNat]
      omega
    simp only [WasmHost.strings, hpointer]
    rw [length_readString_writeString _ _ (by simp only [hostOutbufMax] at hlen ⊢; omega)]
    simp only [hostOutbufMax] at hlen ⊢
    omega

/-! ## Runs -/

/-- Along every run of an instance a string is left alone by every later host
call of another name. -/
theorem strings_kept (fa : FloatArith) (host : WasmHost) (hhost : StringHost host)
    (wit : Gen.HostErrors) (p : Program) (counters : Counters) (calls : List OuterCall) :
    (runCalls fa host (emitModule (Gen.irGenProgram wit p))
      (initialStore (Gen.irGenProgram wit p) counters) calls).events.Pairwise
        fun e e' => OtherCapability e e' → LeavesString e e' := by
  have hall := answered_runCalls fa host (Gen.irGenProgram wit p) counters calls
  exact List.pairwise_of_forall_mem_list fun e he e' he' =>
    leavesString_of_answered hhost (hall e he) (hall e' he')

/-- `fn main() -> string { let a = "n${1}"; let b = "m${true}"; return a }` -/
def twoStrings : Program where
  decls := [.fn {
    name := "main"
    returnType := some (.named "string")
    body := [
      .letS "a" none (some (.interpString [.stringLit "n", .intLit 1])),
      .letS "b" none (some (.interpString [.stringLit "m", .boolLit true])),
      .ret (some (.ident "a"))] }]

/-- The run of its `main`. -/
def twoStringsRun : List StoreEvent :=
  (runCalls .unused .strings (emitModule (Gen.irGenProgram .empty twoStrings))
    (initialStore (Gen.irGenProgram .empty twoStrings) fun _ => 0) [⟨"lcn_main", [], 5⟩]).events

theorem twoStrings_kept : twoStringsRun.Pairwise fun e e' => OtherCapability e e' →
    LeavesString e e' :=
  strings_kept .unused .strings stringHost_strings .empty twoStrings (fun _ => 0)
    [⟨"lcn_main", [], 5⟩]

/-- The second concatenation puts `mtrue` where `a` points to. -/
theorem strings_clobbered :
    ¬ ∀ (fa : FloatArith) (host : WasmHost), StringHost host → ∀ (wit : Gen.HostErrors)
      (p : Program) (counters : Counters) (calls : List OuterCall),
      (runCalls fa host (emitModule (Gen.irGenProgram wit p))
        (initialStore (Gen.irGenProgram wit p) counters) calls).events.Pairwise LeavesString := by
  intro h
  have hrun : twoStringsRun.Pairwise LeavesString :=
    h .unused .strings stringHost_strings .empty twoStrings (fun _ => 0) [⟨"lcn_main", [], 5⟩]
  exact absurd hrun (by decide +kernel)

end Limceron.Wasm
