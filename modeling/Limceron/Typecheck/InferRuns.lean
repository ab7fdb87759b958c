/-
# `Limceron.Typecheck.InferRuns` — what the inference keeps

`lcn_unify` is given equations between types, one after the other.  Two literals are of one
class if they are the same, or are `int` and `float`; then it accepts an equation exactly if
that makes no literals of two classes equal, with the equations that it accepted before
(`unify_run`).

The walk over a function gives it such equations only, and what is reported are two literals
of two classes (`infer_sound`).
-/
import Limceron.Typecheck.Infer
import Mathlib.Data.List.Basic

namespace Limceron.Typecheck.Infer

open Equations (Forced Consistent Solves ends follow next)

/-! ## Classes of literals -/

inductive LitClass where
  | none | number | bool | string | unit
  | named (name : String)
  deriving DecidableEq

namespace LcnLit

def cls (l : LcnLit) : LitClass :=
  match l.kind with
  | .none => .none
  | .int | .float => .number
  | .bool => .bool
  | .string => .string
  | .unit => .unit
  | .litOpaque => .named (l.opaqueName.getD "")

/-- An opaque type has a name. -/
def Named (l : LcnLit) : Prop := l.kind = .litOpaque → l.opaqueName.isSome = true

theorem agrees_iff {l m : LcnLit} (hl : l.Named) (hm : m.Named) :
    l.agrees m = true ↔ l.cls = m.cls := by
  obtain ⟨k, x⟩ := l
  obtain ⟨k', y⟩ := m
  cases k
  case litOpaque =>
    obtain ⟨x, rfl⟩ := Option.isSome_iff_exists.1 (hl rfl)
    cases k'
    case litOpaque =>
      obtain ⟨y, rfl⟩ := Option.isSome_iff_exists.1 (hm rfl)
      simp [agrees, cls]
    all_goals simp [agrees, cls]
  all_goals
    cases k'
    all_goals simp [agrees, cls]

end LcnLit

/-! ## Tables -/

/-- A type that a table can have. -/
def Proper (tbl : LcnUnifyTable) : LcnType → Prop
  | .var v => v < tbl.count
  | .lit l => l.Named

namespace LcnUnifyTable

/-- How many variables are bound. -/
def bound (tbl : LcnUnifyTable) : ℕ := tbl.bindings.countP (·.isSome)

theorem bound_le_count (tbl : LcnUnifyTable) : tbl.bound ≤ tbl.count := List.countP_le_length

theorem binding_bind {tbl : LcnUnifyTable} {v : ℕ} (hv : v < tbl.count) (t : LcnType) :
    (tbl.bind v t).binding = Function.update tbl.binding v (some t) := by
  funext w
  by_cases hw : w = v
  · subst hw
    rw [Function.update_self, binding, bind, List.getElem?_set_self hv]
    rfl
  · rw [Function.update_of_ne hw, binding, bind, List.getElem?_set_ne (Ne.symm hw)]
    rfl

theorem bound_bind {tbl : LcnUnifyTable} {v : ℕ} (hv : v < tbl.count)
    (hnone : tbl.binding v = none) (t : LcnType) : (tbl.bind v t).bound = tbl.bound + 1 := by
  have hlt : v < tbl.bindings.length := hv
  have hget : tbl.bindings[v] = none := by
    rw [binding, List.getElem?_eq_getElem hlt] at hnone
    exact hnone
  rw [bound, bind, List.countP_set hlt, hget]
  rfl

theorem binding_fresh (tbl : LcnUnifyTable) : (lcnTypeFreshVar tbl).2.binding = tbl.binding := by
  rw [lcnTypeFreshVar]
  split
  · rfl
  · funext v
    rcases Nat.lt_trichotomy v tbl.bindings.length with hv | rfl | hv
    · exact congrArg Option.join (List.getElem?_append_left hv)
    · simp [binding]
    · simp only [binding]
      have hlength : (tbl.bindings ++ [none]).length ≤ v := by
        rw [List.length_append]
        exact hv
      rw [List.getElem?_eq_none hlength, List.getElem?_eq_none (Nat.le_of_lt hv)]

theorem bound_fresh (tbl : LcnUnifyTable) : (lcnTypeFreshVar tbl).2.bound = tbl.bound := by
  rw [lcnTypeFreshVar]
  split
  · rfl
  · simp [bound]

theorem count_fresh (tbl : LcnUnifyTable) : tbl.count ≤ (lcnTypeFreshVar tbl).2.count := by
  rw [lcnTypeFreshVar]
  split
  · exact Nat.le_refl _
  · simp [count]

end LcnUnifyTable

theorem Proper.mono {tbl tbl' : LcnUnifyTable} {t : LcnType} (h : Proper tbl t)
    (hcount : tbl.count ≤ tbl'.count) : Proper tbl' t := by
  cases t with
  | var v => exact Nat.lt_of_lt_of_le h hcount
  | lit l => exact h

/-- The table solves the equations, and what its variables are bound to are its types. -/
structure Solved (tbl : LcnUnifyTable) (E : List (LcnType × LcnType)) : Prop where
  solves : Solves LcnLit.cls tbl.binding tbl.bound E
  proper : ∀ v t, tbl.binding v = some t → Proper tbl t

namespace Solved

variable {tbl : LcnUnifyTable} {E : List (LcnType × LcnType)} {a b : LcnType}

theorem resolve_eq (h : Solved tbl E) (t : LcnType) :
    lcnTypeResolve tbl t = follow tbl.binding tbl.bound t :=
  h.solves.bounded.follow_of_le tbl.bound_le_count t

theorem root (h : Solved tbl E) (t : LcnType) : next tbl.binding (lcnTypeResolve tbl t) = none := by
  rw [h.resolve_eq]
  exact h.solves.bounded.root t

theorem proper_follow (h : Solved tbl E) {t : LcnType} (ht : Proper tbl t) (k : ℕ) :
    Proper tbl (follow tbl.binding k t) := by
  induction k generalizing t with
  | zero => exact ht
  | succ k ih =>
      rw [follow]
      cases t with
      | lit l => exact ht
      | var v =>
          cases hv : tbl.binding v with
          | none =>
              rw [next, hv]
              exact ht
          | some u =>
              rw [next, hv]
              exact ih (h.proper v u hv)

theorem proper_resolve (h : Solved tbl E) {t : LcnType} (ht : Proper tbl t) :
    Proper tbl (lcnTypeResolve tbl t) := h.proper_follow ht _

theorem new : Solved {} [] := by
  have hnone : LcnUnifyTable.binding {} = fun _ => none := by
    funext v
    rfl
  refine ⟨?_, ?_⟩
  · rw [hnone]
    exact Equations.solves_nil
  · rw [hnone]
    exact nofun

theorem fresh (h : Solved tbl E) : Solved (lcnTypeFreshVar tbl).2 E := by
  refine ⟨?_, ?_⟩
  · rw [tbl.binding_fresh, tbl.bound_fresh]
    exact h.solves
  · rw [tbl.binding_fresh]
    exact fun v t hv => (h.proper v t hv).mono tbl.count_fresh

/-- An end that is a variable is bound to the other end. -/
theorem bind (h : Solved tbl E) {v : ℕ} (ha : lcnTypeResolve tbl a = .var v)
    (hproper : Proper tbl a) (hb : Proper tbl b) (hne : lcnTypeResolve tbl b ≠ .var v) :
    Solved (tbl.bind v (lcnTypeResolve tbl b)) ((a, b) :: E) := by
  have hv : v < tbl.count := by
    have hend := h.proper_resolve hproper
    rwa [ha] at hend
  have hnone : tbl.binding v = none := by
    have hroot := h.root a
    rwa [ha] at hroot
  have hcount : (tbl.bind v (lcnTypeResolve tbl b)).count = tbl.count := List.length_set
  refine ⟨?_, ?_⟩
  · rw [LcnUnifyTable.binding_bind hv, LcnUnifyTable.bound_bind hv hnone, h.resolve_eq b]
    rw [h.resolve_eq] at ha hne
    exact h.solves.bind ha hne
  · intro w t hw
    rw [LcnUnifyTable.binding_bind hv] at hw
    by_cases heq : w = v
    · rw [heq, Function.update_self] at hw
      cases hw
      exact (h.proper_resolve hb).mono (Nat.le_of_eq hcount.symm)
    · rw [Function.update_of_ne heq] at hw
      exact (h.proper w t hw).mono (Nat.le_of_eq hcount.symm)

/-- An equation that is accepted is solved from then on. -/
theorem accept (h : Solved tbl E) (ha : Proper tbl a) (hb : Proper tbl b)
    (htrue : (lcnUnify tbl (some a) (some b)).1 = true) :
    Solved (lcnUnify tbl (some a) (some b)).2 ((a, b) :: E) := by
  have hra := h.proper_resolve ha
  have hrb := h.proper_resolve hb
  have hswap : ∀ {tbl' : LcnUnifyTable}, Solved tbl' ((b, a) :: E) → Solved tbl' ((a, b) :: E) :=
    fun h => ⟨h.solves.swap, h.proper⟩
  have hagree : ends LcnLit.cls (lcnTypeResolve tbl a) = ends LcnLit.cls (lcnTypeResolve tbl b) →
      Solved tbl ((a, b) :: E) := by
    intro heq
    rw [h.resolve_eq, h.resolve_eq] at heq
    exact ⟨h.solves.agree heq, h.proper⟩
  rw [lcnUnify] at htrue ⊢
  cases hea : lcnTypeResolve tbl a with
  | var v =>
      rw [unifyEnds]
      split
      · next heq => exact hagree (by rw [hea, heq])
      · next hne => exact h.bind hea ha hb hne
  | lit l =>
      cases heb : lcnTypeResolve tbl b with
      | var w =>
          have hbind := h.bind heb hb ha (by rw [hea]; exact nofun)
          rw [hea] at hbind
          exact hswap hbind
      | lit m =>
          rw [hea, heb, unifyEnds] at htrue
          rw [hea] at hra
          rw [heb] at hrb
          exact hagree (by
            rw [hea, heb, ends, ends, (LcnLit.agrees_iff hra hrb).1 htrue])

/-- An equation that is refused makes two literals of two classes equal. -/
theorem refuse (h : Solved tbl E) (ha : Proper tbl a) (hb : Proper tbl b)
    (hfalse : (lcnUnify tbl (some a) (some b)).1 = false) :
    (lcnUnify tbl (some a) (some b)).2 = tbl ∧
      ∃ l m, lcnTypeResolve tbl a = .lit l ∧ lcnTypeResolve tbl b = .lit m ∧ l.cls ≠ m.cls := by
  have hra := h.proper_resolve ha
  have hrb := h.proper_resolve hb
  rw [lcnUnify] at hfalse ⊢
  cases hea : lcnTypeResolve tbl a with
  | var v =>
      rw [hea, unifyEnds] at hfalse
      cases hfalse
  | lit l =>
      cases heb : lcnTypeResolve tbl b with
      | var w =>
          rw [hea, heb, unifyEnds] at hfalse
          cases hfalse
      | lit m =>
          rw [hea, heb, unifyEnds] at hfalse
          rw [hea] at hra
          rw [heb] at hrb
          refine ⟨rfl, l, m, rfl, rfl, fun heq => ?_⟩
          rw [(LcnLit.agrees_iff hra hrb).2 heq] at hfalse
          cases hfalse

theorem unify_iff (h : Solved tbl E) (ha : Proper tbl a) (hb : Proper tbl b) :
    (lcnUnify tbl (some a) (some b)).1 = true ↔ Consistent LcnLit.cls ((a, b) :: E) := by
  constructor
  · exact fun htrue => (h.accept ha hb htrue).solves.consistent
  · intro hconsistent
    by_contra hfalse
    obtain ⟨-, l, m, hl, hm, hne⟩ := h.refuse ha hb (Bool.eq_false_iff.2 hfalse)
    rw [h.resolve_eq] at hl hm
    exact h.solves.clash hl hm hne hconsistent

end Solved

/-! ## Runs -/

/-- The tables of a pass, with the equations that were accepted. -/
inductive Run : LcnUnifyTable → List (LcnType × LcnType) → Prop
  | new : Run {} []
  | fresh {tbl : LcnUnifyTable} {E : List (LcnType × LcnType)} :
      Run tbl E → Run (lcnTypeFreshVar tbl).2 E
  | accept {tbl : LcnUnifyTable} {E : List (LcnType × LcnType)} {a b : LcnType} :
      Run tbl E → Proper tbl a → Proper tbl b → (lcnUnify tbl (some a) (some b)).1 = true →
        Run (lcnUnify tbl (some a) (some b)).2 ((a, b) :: E)
  | refuse {tbl : LcnUnifyTable} {E : List (LcnType × LcnType)} {a b : LcnType} :
      Run tbl E → Proper tbl a → Proper tbl b → (lcnUnify tbl (some a) (some b)).1 = false →
        Run (lcnUnify tbl (some a) (some b)).2 E

theorem Run.solved {tbl : LcnUnifyTable} {E : List (LcnType × LcnType)} (h : Run tbl E) :
    Solved tbl E := by
  induction h with
  | new => exact .new
  | fresh _ ih => exact ih.fresh
  | accept _ ha hb htrue ih => exact ih.accept ha hb htrue
  | refuse _ ha hb hfalse ih =>
      rw [(ih.refuse ha hb hfalse).1]
      exact ih

/-- In every run, a type is followed to an end, two types have ends of one class exactly if the
equations make them equal, and an equation is accepted exactly if it is consistent with those
accepted before. -/
theorem unify_run {tbl : LcnUnifyTable} {E : List (LcnType × LcnType)} (h : Run tbl E) :
    (∀ t, next tbl.binding (lcnTypeResolve tbl t) = none) ∧
      (∀ t u, Forced LcnLit.cls E t u ↔
        ends LcnLit.cls (lcnTypeResolve tbl t) = ends LcnLit.cls (lcnTypeResolve tbl u)) ∧
      ∀ a b, Proper tbl a → Proper tbl b →
        ((lcnUnify tbl (some a) (some b)).1 = true ↔ Consistent LcnLit.cls ((a, b) :: E)) := by
  refine ⟨h.solved.root, fun t u => ?_, fun a b => h.solved.unify_iff⟩
  rw [h.solved.resolve_eq, h.solved.resolve_eq]
  exact h.solved.solves.forced t u

def anInt : LcnType := .lit { kind := .int }
def aFloat : LcnType := .lit { kind := .float }
def aString : LcnType := .lit { kind := .string }

/-- A variable that is an `int` can be a `float` too, and cannot be a `string`. -/
theorem unify_run_number :
    Consistent LcnLit.cls [(.var 0, aFloat), (.var 0, anInt)] ∧
      ¬ Consistent LcnLit.cls [(.var 0, aString), (.var 0, anInt)] := by
  have hrun : Run _ [(.var 0, anInt)] := .accept (.fresh .new) Nat.zero_lt_one nofun rfl
  have hiff := (unify_run hrun).2.2 (.var 0)
  have hstring := hiff aString Nat.zero_lt_one nofun
  exact ⟨(hiff aFloat Nat.zero_lt_one nofun).1 rfl, fun h => Bool.noConfusion (hstring.2 h)⟩

/-! ## What the walk keeps -/

/-- The table comes from a run, the locals have types of the table, and what is reported are
literals of two classes. -/
structure Sound (ctx : L9Ctx) : Prop where
  run : ∃ E, Run ctx.tbl E
  locals : ∀ x ∈ ctx.locals, Proper ctx.tbl x.2
  reports : ∀ r ∈ ctx.reports, r.types.1.cls ≠ r.types.2.cls

/-- There may be more variables, and more locals behind those that there are. -/
structure Later (ctx ctx' : L9Ctx) : Prop where
  count : ctx.tbl.count ≤ ctx'.tbl.count
  locals : ctx.locals <+: ctx'.locals

theorem Later.refl (ctx : L9Ctx) : Later ctx ctx := ⟨Nat.le_refl _, List.prefix_refl _⟩

theorem Later.trans {ctx ctx' ctx'' : L9Ctx} (h : Later ctx ctx') (h' : Later ctx' ctx'') :
    Later ctx ctx'' :=
  ⟨Nat.le_trans h.count h'.count, h.locals.trans h'.locals⟩

/-- If there is a type, it is one of the table. -/
def Typed (ctx : L9Ctx) (t : Option LcnType) : Prop := ∀ u ∈ t, Proper ctx.tbl u

theorem Typed.later {ctx ctx' : L9Ctx} {t : Option LcnType} (h : Typed ctx t)
    (hlater : Later ctx ctx') : Typed ctx' t :=
  fun u hu => (h u hu).mono hlater.count

/-- A type without variables. -/
def Closed (t : Option LcnType) : Prop := ∀ ctx, Typed ctx t

theorem closed_lit (k : LcnLitKind) (hk : k ≠ .litOpaque) : Closed (lcnTypeLit k) := by
  rintro ctx _ ⟨⟩
  exact fun h => absurd h hk

theorem closed_none : Closed none := fun _ => nofun

section Keeps

variable {α β : Type}

/-- Where the types `ts` are types of the table, so are those of the answer, afterwards. -/
def Keeps (ts : List (Option LcnType)) (p : L9 α) (res : α → List (Option LcnType)) : Prop :=
  ∀ ctx, Sound ctx → (∀ t ∈ ts, Typed ctx t) →
    Sound (p ctx).2 ∧ Later ctx (p ctx).2 ∧ ∀ t ∈ res (p ctx).1, Typed (p ctx).2 t

variable {ts ts' : List (Option LcnType)} {p : L9 α} {f : α → L9 β}
  {res : α → List (Option LcnType)} {res' : β → List (Option LcnType)}

theorem Keeps.mono (h : Keeps ts p res) (hts : ts ⊆ ts') : Keeps ts' p res :=
  fun ctx hctx htyped => h ctx hctx fun t ht => htyped t (hts ht)

theorem Keeps.pure {a : α} (h : ∀ t ∈ res a, t ∈ ts ∨ Closed t) : Keeps ts (pure a) res := by
  intro ctx hctx htyped
  refine ⟨hctx, .refl ctx, fun t ht => ?_⟩
  rcases h t ht with h | h
  · exact htyped t h
  · exact h ctx

theorem bind_apply (p : L9 α) (f : α → L9 β) (ctx : L9Ctx) :
    (p >>= f) ctx = f (p ctx).1 (p ctx).2 := rfl

/-- What is known of the types before a walk is known after it. -/
theorem Keeps.bind (h : Keeps ts p res) (h' : ∀ a, Keeps (res a ++ ts) (f a) res') :
    Keeps ts (p >>= f) res' := by
  intro ctx hctx htyped
  obtain ⟨hsound, hlater, hres⟩ := h ctx hctx htyped
  have hmore : ∀ t ∈ res (p ctx).1 ++ ts, Typed (p ctx).2 t := by
    intro t ht
    rcases List.mem_append.1 ht with ht | ht
    · exact hres t ht
    · exact (htyped t ht).later hlater
  obtain ⟨hsound', hlater', hres'⟩ := h' (p ctx).1 (p ctx).2 hsound hmore
  exact ⟨hsound', hlater.trans hlater', hres'⟩

theorem Keeps.ite {c : Prop} [Decidable c] {q : L9 α} (h : Keeps ts p res)
    (h' : Keeps ts q res) : Keeps ts (if c then p else q) res := by
  split
  · exact h
  · exact h'

theorem keeps_freshVar : Keeps ts freshVar fun t => [t] := by
  intro ctx hctx htyped
  obtain ⟨⟨E, hrun⟩, hlocals, hreports⟩ := hctx
  have hcount := ctx.tbl.count_fresh
  refine ⟨⟨⟨E, hrun.fresh⟩, fun x hx => (hlocals x hx).mono hcount, hreports⟩,
    ⟨hcount, List.prefix_refl _⟩, ?_⟩
  intro t ht
  obtain rfl := List.mem_singleton.1 ht
  intro u hu
  simp only [freshVar, lcnTypeFreshVar] at hu ⊢
  split at hu
  · cases hu
  · next hroom =>
      cases hu
      rw [if_neg hroom]
      simp [Proper, LcnUnifyTable.count]

theorem keeps_resolve (t : Option LcnType) : Keeps [t] (resolve t) fun u => [u] := by
  intro ctx hctx htyped
  refine ⟨hctx, .refl ctx, ?_⟩
  intro u hu
  obtain rfl := List.mem_singleton.1 hu
  intro r hr
  obtain ⟨E, hrun⟩ := hctx.run
  obtain ⟨a, ha, rfl⟩ := Option.map_eq_some_iff.1 hr
  exact hrun.solved.proper_resolve (htyped t List.mem_cons_self a ha)

theorem keeps_report {r : L9Report} (h : r.types.1.cls ≠ r.types.2.cls) :
    Keeps ts (report r) fun _ => [] := by
  intro ctx hctx _
  refine ⟨⟨hctx.run, hctx.locals, ?_⟩, ⟨Nat.le_refl _, List.prefix_refl _⟩, nofun⟩
  intro r' hr'
  rcases List.mem_append.1 hr' with hr' | hr'
  · exact hctx.reports r' hr'
  · obtain rfl := List.mem_singleton.1 hr'
    exact h

theorem keeps_pushLocal (name : String) (t : Option LcnType) :
    Keeps [t] (l9PushLocal name t) fun _ => [] := by
  intro ctx hctx htyped
  cases t with
  | none => exact ⟨hctx, .refl ctx, nofun⟩
  | some t =>
      rw [l9PushLocal]
      split
      · exact ⟨hctx, .refl ctx, nofun⟩
      · refine ⟨⟨hctx.run, ?_, hctx.reports⟩, ⟨Nat.le_refl _, List.prefix_append _ _⟩, nofun⟩
        intro x hx
        rcases List.mem_append.1 hx with hx | hx
        · exact hctx.locals x hx
        · obtain rfl := List.mem_singleton.1 hx
          exact htyped _ List.mem_cons_self t rfl

theorem keeps_lookupLocal (name : Option String) :
    Keeps ts (l9LookupLocal name) fun t => [t] := by
  intro ctx hctx _
  refine ⟨hctx, .refl ctx, ?_⟩
  intro t ht
  obtain rfl := List.mem_singleton.1 ht
  intro u hu
  obtain ⟨name, -, hu⟩ := Option.bind_eq_some_iff.1 hu
  obtain ⟨x, hx, rfl⟩ := Option.map_eq_some_iff.1 hu
  exact hctx.locals x (List.mem_reverse.1 (List.mem_of_find?_eq_some hx))

/-- The locals of a scope are gone behind it. -/
theorem Keeps.inScope (h : Keeps ts p res) : Keeps ts (inScope p) res := by
  intro ctx hctx htyped
  obtain ⟨hsound, hlater, hres⟩ := h ctx hctx htyped
  obtain ⟨more, hmore⟩ := hlater.locals
  have htake : (p ctx).2.locals.take ctx.locals.length = ctx.locals := by
    rw [← hmore, List.take_left]
  refine ⟨⟨hsound.run, ?_, hsound.reports⟩, ⟨hlater.count, ?_⟩, hres⟩
  · exact fun x hx => hsound.locals x (List.mem_of_mem_take hx)
  · change ctx.locals <+: (p ctx).2.locals.take ctx.locals.length
    exact htake.symm ▸ List.prefix_refl _

theorem inScope_locals (h : Keeps ts p res) {ctx : L9Ctx} (hctx : Sound ctx)
    (htyped : ∀ t ∈ ts, Typed ctx t) : (Infer.inScope p ctx).2.locals = ctx.locals := by
  obtain ⟨-, hlater, -⟩ := h ctx hctx htyped
  obtain ⟨more, hmore⟩ := hlater.locals
  change (p ctx).2.locals.take ctx.locals.length = ctx.locals
  rw [← hmore, List.take_left]

/-- An answer of no use. -/
theorem Keeps.forget (h : Keeps ts p res) : Keeps ts p fun _ => [] := by
  intro ctx hctx htyped
  obtain ⟨hsound, hlater, -⟩ := h ctx hctx htyped
  exact ⟨hsound, hlater, nofun⟩

theorem count_unify (tbl : LcnUnifyTable) (a b : Option LcnType) :
    (lcnUnify tbl a b).2.count = tbl.count := by
  cases a with
  | none => rfl
  | some a =>
      cases b with
      | none => rfl
      | some b =>
          rw [lcnUnify]
          generalize lcnTypeResolve tbl a = r, lcnTypeResolve tbl b = s
          cases r with
          | var v =>
              rw [unifyEnds]
              split
              · rfl
              · exact List.length_set
          | lit l =>
              cases s with
              | var w => exact List.length_set
              | lit m => rfl

theorem keeps_unify (a b : Option LcnType) : Keeps [a, b] (unify a b) fun _ => [] := by
  intro ctx hctx htyped
  obtain ⟨⟨E, hrun⟩, hlocals, hreports⟩ := hctx
  have hcount := Nat.le_of_eq (count_unify ctx.tbl a b).symm
  have hrun' : ∃ E, Run (lcnUnify ctx.tbl a b).2 E := by
    cases a with
    | none => exact ⟨E, hrun⟩
    | some a =>
        cases b with
        | none => exact ⟨E, hrun⟩
        | some b =>
            have ha := htyped _ (.head _) a rfl
            have hb := htyped _ (.tail _ (.head _)) b rfl
            cases hagree : (lcnUnify ctx.tbl (some a) (some b)).1 with
            | true => exact ⟨_, hrun.accept ha hb hagree⟩
            | false => exact ⟨_, hrun.refuse ha hb hagree⟩
  exact ⟨⟨hrun', fun x hx => (hlocals x hx).mono hcount, hreports⟩, ⟨hcount, List.prefix_refl _⟩,
    nofun⟩

/-- A type, or a new variable. -/
theorem keeps_orFresh (t : Option LcnType) : Keeps [t] (orFresh t) fun t => [t] :=
  (Keeps.pure fun _ hu => .inl hu).ite (keeps_freshVar.mono (List.nil_subset _))

theorem keeps_lit {k : LcnLitKind} (hk : k ≠ .litOpaque) :
    Keeps ts (pure (lcnTypeLit k)) fun t => [t] :=
  .pure fun _ ht => .inr ((List.mem_singleton.1 ht).symm ▸ closed_lit k hk)

end Keeps

/-! ## Each step of the walk -/

theorem keeps_fromTypeExpr (texpr : List Parse.Node) :
    Keeps [] (l9FromTypeExpr texpr) fun t => [t] := by
  unfold l9FromTypeExpr
  split
  · exact keeps_freshVar
  · split
    · split
      · refine .pure fun t ht => .inr ?_
        obtain rfl := List.mem_singleton.1 ht
        rintro ctx _ ⟨⟩
        exact fun _ => rfl
      · exact keeps_lit (by rw [l9NamedTypeToLit]; split_ifs <;> decide)
    · exact keeps_freshVar

theorem keeps_callType (symtab : List L9Symbol) (callee : List Parse.Node) :
    Keeps [] (l9CallType symtab callee) fun t => [t] := by
  unfold l9CallType
  split
  · split
    · split
      · exact keeps_freshVar.ite (keeps_fromTypeExpr _)
      · exact keeps_freshVar
    · exact keeps_freshVar
  · exact keeps_freshVar

theorem keeps_binaryType (op : Parse.TokenKind) (l r : Option LcnType) :
    Keeps [l, r] (l9BinaryType op l r) fun t => [t] := by
  unfold l9BinaryType
  refine (keeps_lit (by decide)).ite ?_
  refine ((keeps_resolve l).mono (by simp)).bind fun lr => ?_
  refine ((keeps_resolve r).mono (by simp)).bind fun rr => ?_
  have hfresh := (keeps_orFresh l).mono (show [l] ⊆ [rr] ++ ([lr] ++ [l, r]) by simp)
  split
  · refine (keeps_lit (by decide)).ite ?_
    refine (keeps_lit (by decide)).ite ?_
    exact (keeps_lit (by decide)).ite hfresh
  · exact hfresh

theorem unify_lits (l m : LcnLit) :
    unify (some (.lit l)) (some (.lit m)) = pure (l.agrees m) := by
  funext ctx
  have hends : lcnUnify ctx.tbl (some (.lit l)) (some (.lit m)) = (l.agrees m, ctx.tbl) := by
    rw [lcnUnify, lcnTypeResolve, lcnTypeResolve, Equations.follow_lit, Equations.follow_lit]
    rfl
  simp only [unify, hends]
  rfl

/-- Two literals that are compared, and reported if they are of two classes. -/
theorem keeps_compare {α : Type} {p q : L9 α} {res : α → List (Option LcnType)}
    {ts : List (Option LcnType)} {l m : LcnLit}
    (hl : some (.lit l) ∈ ts) (hm : some (.lit m) ∈ ts) (hp : Keeps ts p res)
    (hq : l.cls ≠ m.cls → Keeps ts q res) :
    Keeps ts (do if ← unify (some (.lit l)) (some (.lit m)) then p else q) res := by
  rw [unify_lits]
  intro ctx hctx htyped
  have hiff := LcnLit.agrees_iff (htyped _ hl _ rfl) (htyped _ hm _ rfl)
  cases hagree : l.agrees m with
  | true =>
      have hdo : (pure true >>= fun b => if b = true then p else q) = p := rfl
      rw [hdo]
      exact hp ctx hctx htyped
  | false =>
      have hdo : (pure false >>= fun b => if b = true then p else q) = q := rfl
      rw [hdo]
      exact hq (fun heq => by rw [hiff.2 heq] at hagree; cases hagree) ctx hctx htyped

theorem keeps_ifType (t e : Option LcnType) : Keeps [t, e] (l9IfType t e) fun u => [u] := by
  have hor : ∀ {ts : List (Option LcnType)}, t ∈ ts → e ∈ ts →
      Keeps ts (pure (t.or e)) fun u => [u] := by
    intro ts ht he
    refine .pure fun u hu => .inl ?_
    obtain rfl := List.mem_singleton.1 hu
    cases t with
    | none => exact he
    | some t => exact ht
  unfold l9IfType
  refine ((keeps_resolve t).mono (by simp)).bind fun r => ?_
  refine ((keeps_resolve e).mono (by simp)).bind fun s => ?_
  split
  · next l m =>
      refine Keeps.ite ?_ (hor (by simp) (by simp))
      refine keeps_compare (by simp) (by simp) (hor (by simp) (by simp)) fun hne => ?_
      exact (keeps_report (r := .branches l m) hne).bind fun _ =>
        keeps_freshVar.mono (List.nil_subset _)
  · exact hor (by simp) (by simp)

theorem keeps_checkResult (name : Option String) (ret tail : Option LcnType) :
    Keeps [ret, tail] (l9CheckResult name ret tail) fun _ => [] := by
  unfold l9CheckResult
  refine ((keeps_resolve ret).mono (by simp)).bind fun r => ?_
  refine ((keeps_resolve tail).mono (by simp)).bind fun s => ?_
  split
  · next l m =>
      refine Keeps.ite ?_ (.pure nofun)
      exact keeps_compare (by simp) (by simp) (.pure nofun)
        fun hne => keeps_report (r := .result name m l) hne
  · exact .pure nofun

/-- A refusal leaves the table, and the ends of the types are literals of two classes. -/
theorem unify_refused {ctx : L9Ctx} (hctx : Sound ctx) {a b : Option LcnType} (ha : Typed ctx a)
    (hb : Typed ctx b) (hfalse : (unify a b ctx).1 = false) :
    (unify a b ctx).2 = ctx ∧ ∃ l m : LcnLit, resolve a ctx = (some (.lit l), ctx) ∧
      resolve b ctx = (some (.lit m), ctx) ∧ l.cls ≠ m.cls := by
  obtain ⟨E, hrun⟩ := hctx.run
  cases a with
  | none => cases hfalse
  | some a =>
      cases b with
      | none => cases hfalse
      | some b =>
          obtain ⟨htbl, l, m, hl, hm, hne⟩ := hrun.solved.refuse (ha a rfl) (hb b rfl) hfalse
          refine ⟨congrArg (fun tbl => ({ ctx with tbl := tbl } : L9Ctx)) htbl, l, m, ?_, ?_, hne⟩
          · rw [resolve, Option.map_some, hl]
          · rw [resolve, Option.map_some, hm]

/-- What is reported is what `lcn_unify` has refused. -/
theorem keeps_letCheck (name : String) (init declared : Option LcnType) :
    Keeps [init, declared] (l9LetCheck name init declared) fun _ => [] := by
  unfold l9LetCheck
  refine Keeps.ite ?_ (.pure nofun)
  intro ctx hctx htyped
  rw [bind_apply]
  cases hagree : (unify init declared ctx).1 with
  | true =>
      obtain ⟨hsound, hlater, -⟩ := keeps_unify init declared ctx hctx htyped
      exact ⟨hsound, hlater, nofun⟩
  | false =>
      obtain ⟨heq, l, m, hl, hm, hne⟩ :=
        unify_refused hctx (htyped _ (.head _)) (htyped _ (.tail _ (.head _))) hagree
      have hreport : l9LetReport name init declared ctx =
          (if l.kind ≠ .litOpaque ∧ m.kind ≠ .litOpaque then report (.letS name l m)
            else pure () : L9 Unit) ctx := by
        simp only [l9LetReport, bind_apply, hl, hm]
      rw [heq]
      simp only [Bool.false_eq_true, if_false]
      rw [hreport]
      exact ((keeps_report (r := .letS name l m) hne).ite (.pure nofun)) ctx hctx htyped

theorem keeps_let (name : String) (texpr : List Parse.Node) (init : Option LcnType) :
    Keeps [init] (l9Let name texpr init) fun _ => [] := by
  unfold l9Let
  refine Keeps.ite ?_ ?_
  · exact (keeps_orFresh init).bind fun t => (keeps_pushLocal name t).mono (by simp)
  · refine ((keeps_fromTypeExpr texpr).mono (List.nil_subset _)).bind fun declared => ?_
    refine ((keeps_letCheck name init declared).mono (by simp)).bind fun _ => ?_
    exact (keeps_pushLocal name declared).mono (by simp)

/-! ## The walk -/

section Walk

variable (symtab : List L9Symbol)

theorem keeps_inBlock {ts : List (Option LcnType)} {p : L9 (Option LcnType)} (asBlock : Bool)
    (h : Keeps ts p fun t => [t]) : Keeps ts (inBlock asBlock p) fun t => [t] := by
  cases asBlock with
  | true => exact h.inScope
  | false => exact h

mutual

theorem keeps_syn (asBlock : Bool) :
    (n : Parse.Node) → Keeps [] (l9Syn symtab asBlock n) fun t => [t]
  | ⟨kind, name, typeExpr, _, _, _, left, right, params, _, _, val⟩ => by
      have hleft := keeps_synExpr left
      have hright := keeps_synExpr right
      have hargs := keeps_synArgs params
      unfold l9Syn
      refine keeps_inBlock asBlock (Keeps.ite (keeps_synStmts params) ?_)
      split
      · exact keeps_lit (by decide)
      · exact keeps_lit (by decide)
      · exact keeps_lit (by decide)
      · exact keeps_lit (by decide)
      · exact keeps_lit (by decide)
      · exact (keeps_lookupLocal name).bind fun t => (keeps_orFresh t).mono (by simp)
      · refine hleft.bind fun l => (hright.mono (by simp)).bind fun r => ?_
        exact (keeps_binaryType _ l r).mono (by simp)
      · split
        · exact keeps_lit (by decide)
        · exact hleft
      · exact hargs.bind fun _ => keeps_callType symtab left
      · exact hargs.bind fun _ => keeps_freshVar
      · refine (keeps_synBlock right).bind fun t => ((keeps_synBlock params).mono (by simp)).bind
          fun e => ?_
        exact (keeps_ifType t e).mono (by simp)
      · exact keeps_fromTypeExpr typeExpr
      -- seven kinds of which only `left` is walked, and then the others
      iterate 7 exact hleft.bind fun _ => keeps_freshVar.mono (List.nil_subset _)
      refine hleft.bind fun _ => (hright.mono (List.nil_subset _)).bind fun _ => ?_
      refine (hargs.mono (List.nil_subset _)).bind fun _ => ?_
      exact keeps_freshVar.mono (List.nil_subset _)

theorem keeps_synExpr : (ns : List Parse.Node) → Keeps [] (l9SynExpr symtab ns) fun t => [t]
  | [] => by
      rw [l9SynExpr]
      exact keeps_freshVar
  | e :: _ => by
      rw [l9SynExpr]
      exact keeps_syn false e

theorem keeps_synBlock : (ns : List Parse.Node) → Keeps [] (l9SynBlock symtab ns) fun t => [t]
  | [] => by
      rw [l9SynBlock]
      exact keeps_lit (by decide)
  | e :: _ => by
      rw [l9SynBlock]
      exact keeps_syn true e

theorem keeps_synArgs : (ns : List Parse.Node) → Keeps [] (l9SynArgs symtab ns) fun _ => []
  | [] => by
      rw [l9SynArgs]
      exact .pure nofun
  | e :: es => by
      rw [l9SynArgs]
      exact (keeps_syn false e).bind fun _ => (keeps_synArgs es).mono (by simp)

theorem keeps_synStmts : (ns : List Parse.Node) → Keeps [] (l9SynStmts symtab ns) fun t => [t]
  | [] => by
      rw [l9SynStmts]
      exact keeps_lit (by decide)
  | s :: rest => by
      have hleft := keeps_synLeft s
      have hif := keeps_syn false s
      rw [l9SynStmts]
      refine @Keeps.bind _ _ _ _ _ (fun _ => []) _ ?_ fun _ => ?_
      · split
        · exact keeps_synLet s
        · exact hleft.forget
        · exact hif.forget
        · exact .pure nofun
      · refine Keeps.ite ?_ ((keeps_synStmts rest).mono (by simp))
        split
        · exact hleft
        · exact hif
        · exact keeps_lit (by decide)

theorem keeps_synLet : (n : Parse.Node) → Keeps [] (l9SynLet symtab n) fun _ => []
  | ⟨_, name, typeExpr, _, _, _, _, right, _, _, _, _⟩ => by
      cases name with
      | none =>
          rw [l9SynLet]
          exact .pure nofun
      | some name =>
          rw [l9SynLet]
          refine (keeps_synExpr right).bind fun init => ?_
          exact ((keeps_let name typeExpr init).mono (by simp)).bind fun _ => .pure nofun

theorem keeps_synLeft : (n : Parse.Node) → Keeps [] (l9SynLeft symtab n) fun t => [t]
  | ⟨_, _, _, _, _, _, left, _, _, _, _, _⟩ => by
      rw [l9SynLeft]
      exact keeps_synExpr left

end

theorem keeps_each {f : Parse.Node → L9 Unit} (hf : ∀ n, Keeps [] (f n) fun _ => [])
    (ns : List Parse.Node) : Keeps [] (l9Each f ns) fun _ => [] := by
  induction ns with
  | nil => exact .pure nofun
  | cons n ns ih => exact (hf n).bind fun _ => ih

theorem keeps_pushParam (p : Parse.Node) : Keeps [] (l9PushParam p) fun _ => [] := by
  unfold l9PushParam
  split
  · next name _ =>
      refine Keeps.ite (.pure nofun) ((keeps_fromTypeExpr _).bind fun t => ?_)
      exact (keeps_pushLocal name t).mono (by simp)
  · exact .pure nofun

theorem keeps_pushLet (s : Parse.Node) : Keeps [] (l9PushLet symtab s) fun _ => [] := by
  unfold l9PushLet
  split
  · next name _ _ =>
      refine ((keeps_synExpr symtab _).ite (keeps_fromTypeExpr _)).bind fun t => ?_
      exact (keeps_pushLocal name t).mono (by simp)
  · exact .pure nofun

theorem keeps_tailType (body : Parse.Node) (bodyTy : Option LcnType) :
    Keeps [bodyTy] (l9TailType symtab body bodyTy) fun t => [t] := by
  unfold l9TailType
  split
  · exact .pure fun _ ht => .inl ht
  · next tail _ =>
      have hlets := keeps_each (keeps_pushLet symtab) body.params
      have htail := hlets.bind fun _ => keeps_syn symtab false tail
      exact htail.inScope.mono (List.nil_subset _)

theorem keeps_checkBody (fn body : Parse.Node) (ret : Option LcnType) :
    Keeps [ret] (l9CheckBody symtab fn body ret) fun _ => [] := by
  unfold l9CheckBody
  refine ((keeps_syn symtab true body).mono (List.nil_subset _)).bind fun bodyTy => ?_
  refine ((keeps_resolve ret).mono (by simp)).bind fun r => ?_
  refine Keeps.ite ?_ (.pure nofun)
  refine ((keeps_tailType symtab body bodyTy).mono (by simp)).bind fun tail => ?_
  exact (keeps_checkResult fn.name ret tail).mono (by simp)

/-- A function leaves what holds of the state, and no locals. -/
theorem checkFn_sound (fn : Parse.Node) {ctx : L9Ctx} (h : Sound ctx) :
    Sound (l9CheckFn symtab fn ctx).2 ∧ (l9CheckFn symtab fn ctx).2.locals = ctx.locals := by
  cases hleft : fn.left with
  | nil =>
      have heq : l9CheckFn symtab fn = pure () := by rw [l9CheckFn, hleft]
      rw [heq]
      exact ⟨h, rfl⟩
  | cons body rest =>
      have heq : l9CheckFn symtab fn = inScope (do
          l9Each l9PushParam fn.params
          let ret ← l9ReturnType fn
          l9CheckBody symtab fn body ret) := by rw [l9CheckFn, hleft]
      have hret : Keeps [] (l9ReturnType fn) fun t => [t] :=
        (keeps_lit (by decide)).ite (keeps_fromTypeExpr _)
      have hfn := (keeps_each keeps_pushParam fn.params).bind fun _ => hret.bind fun ret =>
        (keeps_checkBody symtab fn body ret).mono (by simp)
      rw [heq]
      exact ⟨(hfn.inScope ctx h nofun).1, inScope_locals hfn h nofun⟩

/-- A function has a table of its own, whatever was left by the one before it. -/
theorem checkMember_sound (fn : Parse.Node) {ctx : L9Ctx} (h : Sound ctx)
    (hlocals : ctx.locals = []) :
    Sound (l9CheckMember symtab fn ctx).2 ∧ (l9CheckMember symtab fn ctx).2.locals = [] := by
  unfold l9CheckMember
  split
  · exact checkFn_sound symtab fn ⟨⟨_, .new⟩, nofun, h.reports⟩
  · exact ⟨h, hlocals⟩

theorem each_sound (fns : List Parse.Node) {ctx : L9Ctx} (h : Sound ctx)
    (hlocals : ctx.locals = []) :
    Sound (l9Each (l9CheckMember symtab) fns ctx).2 ∧
      (l9Each (l9CheckMember symtab) fns ctx).2.locals = [] := by
  induction fns generalizing ctx with
  | nil => exact ⟨h, hlocals⟩
  | cons fn fns ih =>
      obtain ⟨hsound, hnone⟩ := checkMember_sound symtab fn h hlocals
      rw [l9Each, bind_apply]
      exact ih hsound hnone

theorem sound_new : Sound {} := ⟨⟨[], .new⟩, nofun, nofun⟩

/-- Whatever functions are walked, the table of the last one comes from a run, no local is left,
and all that is reported are two literals of two classes. -/
theorem infer_sound (fns : List Parse.Node) :
    (∃ E, Run (l9Walked symtab fns).tbl E) ∧ (l9Walked symtab fns).locals = [] ∧
      ∀ r ∈ (l9Walked symtab fns).reports, r.types.1.cls ≠ r.types.2.cls := by
  have hend : Sound (l9Walked symtab fns) ∧ (l9Walked symtab fns).locals = [] :=
    each_sound symtab fns sound_new rfl
  exact ⟨hend.1.run, hend.2, hend.1.reports⟩

end Walk

end Limceron.Typecheck.Infer
