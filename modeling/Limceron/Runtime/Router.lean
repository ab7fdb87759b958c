/-
# `Limceron.Runtime.Router` — endpoints, their health, and who is told

`runtime/router.c`.  The endpoints of a router are known by their index.  An endpoint is
marked by the results that are reported, by the health checks and by hand, and each
change from or to `unhealthy` calls the callback of the router that is there for it:

| | before | after | callback |
| :-- | :-- | :-- | :-- |
| failures enough, or by hand | not `unhealthy` | `unhealthy` | `onUnhealthy` |
| a success, or by hand | `unhealthy` | `healthy` | `onRecovery` |

What an endpoint answers to a health check, how long it takes, and the clock come from
outside.  The times and the counters are machine integers.
-/
import Limceron.Lib.Turns
import Limceron.Lib.Toggles

namespace Limceron.Runtime.Router

open Turns Toggles

/-! ## The data -/

inductive HealthStatus where
  | unknown
  | healthy
  | unhealthy
  deriving DecidableEq

structure RouterEndpoint where
  name : List UInt8
  endpoint : List UInt8
  healthStatus : HealthStatus := .unknown
  lastCheckMs : Int64 := 0
  avgLatencyMs : Int64 := 0
  costPerToken : Float
  totalCalls : Int32 := 0
  totalFailures : Int32 := 0
  consecutiveFailures : Int32 := 0

inductive RouteStrategy where
  | latency
  | cost
  | roundRobin
  | failover

/-- Whether the callbacks are there stands for the callbacks. -/
structure LcnRouter where
  name : List UInt8
  endpoints : List RouterEndpoint := []
  healthCheckIntervalMs : Int64 := 30000
  strategy : RouteStrategy := .latency
  roundRobinIdx : ℕ := 0
  maxConsecutiveFailures : Int32 := 3
  onUnhealthy : Bool := false
  onRecovery : Bool := false

/-- What a callback is called with, and for which endpoint. -/
structure Call where
  idx : ℕ
  recovery : Bool
  routerName : List UInt8
  endpointName : List UInt8
  oldStatus : HealthStatus
  newStatus : HealthStatus

/-- `lcn_router_new`. -/
def lcnRouterNew (name : List UInt8) : LcnRouter := { name := name.take 127 }

/-- `lcn_router_set_callbacks`. -/
def lcnRouterSetCallbacks (r : LcnRouter) (onUnhealthy onRecovery : Bool) : LcnRouter :=
  { r with onUnhealthy := onUnhealthy, onRecovery := onRecovery }

/-- `lcn_router_add_endpoint`: the index, unless there is no room. -/
def lcnRouterAddEndpoint (r : LcnRouter) (name url : List UInt8) (costPerToken : Float) :
    LcnRouter × Option ℕ :=
  if 32 ≤ r.endpoints.length then (r, none)
  else
    let ep : RouterEndpoint :=
      { name := name.take 127, endpoint := url.take 1023, costPerToken := costPerToken }
    ({ r with endpoints := r.endpoints ++ [ep] }, some r.endpoints.length)

/-- `lcn_router_set_strategy`. -/
def lcnRouterSetStrategy (r : LcnRouter) (strategy : RouteStrategy) : LcnRouter :=
  { r with strategy := strategy, roundRobinIdx := 0 }

/-! ## One endpoint -/

/-- What a health check meets: the status of the response, if there is one, how long it took, and
when that was. -/
structure Probe where
  statusCode : Option Int32
  elapsed : Int64
  checkedMs : Int64

/-- The rolling average. -/
def rollingAverage (avg latencyMs : Int64) : Int64 :=
  if avg = 0 then latencyMs else (avg * 7 + latencyMs) / 8

/-- A failure has been counted: enough of them mark the endpoint. -/
def RouterEndpoint.failed (r : LcnRouter) (ep : RouterEndpoint) : RouterEndpoint × Option Bool :=
  if r.maxConsecutiveFailures ≤ ep.consecutiveFailures then
    ({ ep with healthStatus := .unhealthy },
      if ep.healthStatus ≠ .unhealthy ∧ r.onUnhealthy then some false else none)
  else (ep, none)

/-- `router_check_single`; whether the callback that is called is the one for a recovery. -/
def routerCheckSingle (r : LcnRouter) (probe : Probe) (ep : RouterEndpoint) :
    RouterEndpoint × Option Bool :=
  let ep := { ep with lastCheckMs := probe.checkedMs }
  if probe.statusCode.any fun status => 200 ≤ status && status < 500 then
    ({ ep with
        healthStatus := .healthy
        consecutiveFailures := 0
        avgLatencyMs := rollingAverage ep.avgLatencyMs probe.elapsed },
      if ep.healthStatus = .unhealthy ∧ r.onRecovery then some true else none)
  else
    RouterEndpoint.failed r
      { ep with
        consecutiveFailures := ep.consecutiveFailures + 1
        totalFailures := ep.totalFailures + 1 }

/-- `lcn_router_report_result`, on the endpoint. -/
def epReportResult (r : LcnRouter) (success : Bool) (latencyMs : Int64) (ep : RouterEndpoint) :
    RouterEndpoint × Option Bool :=
  let ep := { ep with totalCalls := ep.totalCalls + 1 }
  if success then
    let ep :=
      { ep with
        consecutiveFailures := 0
        avgLatencyMs := rollingAverage ep.avgLatencyMs latencyMs }
    match ep.healthStatus with
    | .unhealthy => ({ ep with healthStatus := .healthy }, if r.onRecovery then some true else none)
    | .unknown => ({ ep with healthStatus := .healthy }, none)
    | .healthy => (ep, none)
  else
    RouterEndpoint.failed r
      { ep with
        totalFailures := ep.totalFailures + 1
        consecutiveFailures := ep.consecutiveFailures + 1 }

/-- `lcn_router_mark_unhealthy`, on the endpoint. -/
def epMarkUnhealthy (r : LcnRouter) (ep : RouterEndpoint) : RouterEndpoint × Option Bool :=
  ({ ep with healthStatus := .unhealthy },
    if ep.healthStatus ≠ .unhealthy ∧ r.onUnhealthy then some false else none)

/-- `lcn_router_mark_healthy`, on the endpoint. -/
def epMarkHealthy (r : LcnRouter) (ep : RouterEndpoint) : RouterEndpoint × Option Bool :=
  ({ ep with healthStatus := .healthy, consecutiveFailures := 0 },
    if ep.healthStatus = .unhealthy ∧ r.onRecovery then some true else none)

/-! ## The router -/

/-- One of the operations, on the endpoint of an index; nothing is done where there is none. -/
def LcnRouter.onEndpoint (r : LcnRouter) (f : RouterEndpoint → RouterEndpoint × Option Bool)
    (idx : ℤ) : LcnRouter × List Call :=
  if 0 ≤ idx then
    match r.endpoints[idx.toNat]? with
    | none => (r, [])
    | some ep =>
        let (ep', recovery) := f ep
        ({ r with endpoints := r.endpoints.set idx.toNat ep' },
          recovery.toList.map fun recovery =>
            { idx := idx.toNat
              recovery
              routerName := r.name
              endpointName := ep.name
              oldStatus := ep.healthStatus
              newStatus := ep'.healthStatus })
  else (r, [])

/-- `lcn_router_report_result`. -/
def lcnRouterReportResult (r : LcnRouter) (idx : ℤ) (success : Bool) (latencyMs : Int64) :
    LcnRouter × List Call := r.onEndpoint (epReportResult r success latencyMs) idx

/-- `lcn_router_mark_unhealthy`. -/
def lcnRouterMarkUnhealthy (r : LcnRouter) (idx : ℤ) : LcnRouter × List Call :=
  r.onEndpoint (epMarkUnhealthy r) idx

/-- `lcn_router_mark_healthy`. -/
def lcnRouterMarkHealthy (r : LcnRouter) (idx : ℤ) : LcnRouter × List Call :=
  r.onEndpoint (epMarkHealthy r) idx

/-- The first `n` endpoints, in their order. -/
def healthCheckTo (probes : ℕ → Probe) : ℕ → LcnRouter → LcnRouter × List Call
  | 0, r => (r, [])
  | n + 1, r =>
      let (r, calls) := healthCheckTo probes n r
      let (r, more) := r.onEndpoint (routerCheckSingle r (probes n)) n
      (r, calls ++ more)

/-- `lcn_router_health_check`. -/
def lcnRouterHealthCheck (r : LcnRouter) (probes : ℕ → Probe) : LcnRouter × List Call :=
  healthCheckTo probes r.endpoints.length r

/-- `lcn_router_health_check_due`. -/
def lcnRouterHealthCheckDue (r : LcnRouter) (now : Int64) : Bool :=
  r.endpoints.any fun ep =>
    ep.lastCheckMs == 0 || r.healthCheckIntervalMs ≤ now - ep.lastCheckMs

/-! ## Selecting -/

/-- `ep_selectable`. -/
def epSelectable (ep : RouterEndpoint) : Bool := ep.healthStatus ≠ .unhealthy

/-- The best of the selectable, by `better`, the earlier one where neither is better. -/
def selectBest (better : RouterEndpoint → RouterEndpoint → Bool) :
    ℕ → List RouterEndpoint → Option (ℕ × RouterEndpoint) → Option (ℕ × RouterEndpoint)
  | _, [], best => best
  | i, ep :: eps, best =>
      if epSelectable ep = false then selectBest better (i + 1) eps best
      else
        match best with
        | none => selectBest better (i + 1) eps (some (i, ep))
        | some (j, b) =>
            selectBest better (i + 1) eps (if better ep b then some (i, ep) else some (j, b))

/-- `select_by_latency`. -/
def selectByLatency (r : LcnRouter) : Option ℕ :=
  (selectBest (fun ep best =>
    ep.avgLatencyMs < best.avgLatencyMs ||
      (ep.avgLatencyMs == best.avgLatencyMs && ep.healthStatus == .healthy &&
        best.healthStatus != .healthy)) 0 r.endpoints none).map Prod.fst

/-- `select_by_cost`. -/
def selectByCost (r : LcnRouter) : Option ℕ :=
  (selectBest (fun ep best =>
    ep.costPerToken < best.costPerToken ||
      (ep.costPerToken == best.costPerToken && ep.avgLatencyMs < best.avgLatencyMs))
    0 r.endpoints none).map Prod.fst

def LcnRouter.selectable (r : LcnRouter) (idx : ℕ) : Bool := r.endpoints[idx]?.any epSelectable

/-- The loop of `select_round_robin`, with so many endpoints left to check. -/
def roundRobinLoop (r : LcnRouter) : ℕ → ℕ → Option ℕ × ℕ
  | 0, rr => (none, rr)
  | left + 1, rr =>
      let idx := rr % r.endpoints.length
      let rr := (rr + 1) % r.endpoints.length
      if r.selectable idx then (some idx, rr) else roundRobinLoop r left rr

/-- `select_round_robin`. -/
def selectRoundRobin (r : LcnRouter) : Option ℕ × LcnRouter :=
  let (found, rr) := roundRobinLoop r r.endpoints.length r.roundRobinIdx
  (found, { r with roundRobinIdx := rr })

/-- `select_failover`. -/
def selectFailover (r : LcnRouter) : Option ℕ := r.endpoints.findIdx? epSelectable

/-- `lcn_router_select`. -/
def lcnRouterSelect (r : LcnRouter) (now : Int64) (probes : ℕ → Probe) :
    Option ℕ × LcnRouter × List Call :=
  if r.endpoints = [] then (none, r, [])
  else
    let (r, calls) := if lcnRouterHealthCheckDue r now then lcnRouterHealthCheck r probes else (r, [])
    match r.strategy with
    | .latency => (selectByLatency r, r, calls)
    | .cost => (selectByCost r, r, calls)
    | .roundRobin => ((selectRoundRobin r).1, (selectRoundRobin r).2, calls)
    | .failover => (selectFailover r, r, calls)

/-! ## Runs -/

/-- What is done with a router. -/
inductive Op where
  | addEndpoint (name url : List UInt8) (costPerToken : Float)
  | reportResult (idx : ℤ) (success : Bool) (latencyMs : Int64)
  | healthCheck (probes : ℕ → Probe)
  | markUnhealthy (idx : ℤ)
  | markHealthy (idx : ℤ)
  | setStrategy (strategy : RouteStrategy)
  | select (now : Int64) (probes : ℕ → Probe)

def Op.apply (r : LcnRouter) : Op → LcnRouter × List Call
  | .addEndpoint name url cost => ((lcnRouterAddEndpoint r name url cost).1, [])
  | .reportResult idx success latencyMs => lcnRouterReportResult r idx success latencyMs
  | .healthCheck probes => lcnRouterHealthCheck r probes
  | .markUnhealthy idx => lcnRouterMarkUnhealthy r idx
  | .markHealthy idx => lcnRouterMarkHealthy r idx
  | .setStrategy strategy => (lcnRouterSetStrategy r strategy, [])
  | .select now probes => (lcnRouterSelect r now probes).2

/-- One after the other. -/
def applyAll : LcnRouter → List Op → LcnRouter × List Call
  | r, [] => (r, [])
  | r, op :: ops =>
      let (r, calls) := op.apply r
      let (r, more) := applyAll r ops
      (r, calls ++ more)

/-! ## One operation on an endpoint -/

/-- What an operation does to an endpoint, if both callbacks are there. -/
structure Marks (r : LcnRouter) (ep ep' : RouterEndpoint) (recovery : Option Bool) : Prop where
  told : Tells (ep.healthStatus = .unhealthy) (ep'.healthStatus = .unhealthy) (recovery.map (!·))
  counted : (r.maxConsecutiveFailures ≤ ep.consecutiveFailures → ep.healthStatus = .unhealthy) →
    r.maxConsecutiveFailures ≤ ep'.consecutiveFailures → ep'.healthStatus = .unhealthy

/-- The router has its callbacks, and the number of failures is not zero. -/
structure Ready (r : LcnRouter) : Prop where
  unhealthy : r.onUnhealthy = true
  recovery : r.onRecovery = true
  limit : ¬ r.maxConsecutiveFailures ≤ 0

variable {r : LcnRouter} {ep ep' : RouterEndpoint} {i : ℕ}

/-- The endpoint becomes unhealthy. -/
theorem Ready.marks_down (h : Ready r) (hstatus : ep'.healthStatus = .unhealthy) :
    Marks r ep ep'
      (if ep.healthStatus ≠ .unhealthy ∧ r.onUnhealthy then some false else none) := by
  refine ⟨?_, fun _ _ => hstatus⟩
  rw [h.unhealthy]
  split_ifs with hold
  · exact ⟨hold.1, hstatus⟩
  · have hbefore : ep.healthStatus = .unhealthy := by simpa using hold
    exact ⟨fun _ => hstatus, fun _ => hbefore⟩

/-- The endpoint is unhealthy no longer. -/
theorem Ready.marks_recovered (h : Ready r) (hold : ep.healthStatus = .unhealthy)
    (hnew : ep'.healthStatus ≠ .unhealthy) (hcount : ep'.consecutiveFailures = 0) :
    Marks r ep ep' (some true) := by
  refine ⟨⟨hold, hnew⟩, fun _ hlimit => ?_⟩
  rw [hcount] at hlimit
  exact absurd hlimit h.limit

/-- The endpoint was not unhealthy before. -/
theorem Ready.marks_still (h : Ready r) (hold : ep.healthStatus ≠ .unhealthy)
    (hnew : ep'.healthStatus ≠ .unhealthy) (hcount : ep'.consecutiveFailures = 0) :
    Marks r ep ep' none := by
  refine ⟨⟨fun hup => absurd hup hold, fun hup => absurd hup hnew⟩, fun _ hlimit => ?_⟩
  rw [hcount] at hlimit
  exact absurd hlimit h.limit

theorem Ready.marks_up (h : Ready r) (hnew : ep'.healthStatus ≠ .unhealthy)
    (hcount : ep'.consecutiveFailures = 0) :
    Marks r ep ep' (if ep.healthStatus = .unhealthy ∧ r.onRecovery then some true else none) := by
  rw [h.recovery]
  by_cases hold : ep.healthStatus = .unhealthy
  · rw [if_pos ⟨hold, rfl⟩]
    exact h.marks_recovered hold hnew hcount
  · rw [if_neg fun hboth => hold hboth.1]
    exact h.marks_still hold hnew hcount

theorem Ready.marks_failed (h : Ready r) (hstatus : ep'.healthStatus = ep.healthStatus) :
    Marks r ep (RouterEndpoint.failed r ep').1 (RouterEndpoint.failed r ep').2 := by
  rw [RouterEndpoint.failed]
  by_cases hlimit : r.maxConsecutiveFailures ≤ ep'.consecutiveFailures
  · rw [if_pos hlimit, hstatus]
    exact h.marks_down rfl
  · rw [if_neg hlimit]
    refine ⟨?_, fun _ hcount => absurd hcount hlimit⟩
    rw [hstatus]
    exact Iff.rfl

theorem Ready.marks_check (h : Ready r) (probe : Probe) (ep : RouterEndpoint) :
    Marks r ep (routerCheckSingle r probe ep).1 (routerCheckSingle r probe ep).2 := by
  rw [routerCheckSingle]
  by_cases hstatus : probe.statusCode.any fun status => 200 ≤ status && status < 500
  · rw [if_pos hstatus]
    refine h.marks_up ?_ rfl
    rintro ⟨⟩
  · rw [if_neg hstatus]
    exact h.marks_failed rfl

theorem Ready.marks_report (h : Ready r) (success : Bool) (latencyMs : Int64)
    (ep : RouterEndpoint) :
    Marks r ep (epReportResult r success latencyMs ep).1
      (epReportResult r success latencyMs ep).2 := by
  cases success with
  | false => exact h.marks_failed rfl
  | true =>
      obtain ⟨name, endpoint, status, checked, avg, cost, calls, failures, count⟩ := ep
      cases status with
      | unhealthy =>
          change Marks r _ _ (if r.onRecovery then some true else none)
          rw [if_pos h.recovery]
          refine h.marks_recovered rfl ?_ rfl
          rintro ⟨⟩
      | unknown =>
          refine h.marks_still ?_ ?_ rfl
          · rintro ⟨⟩
          · rintro ⟨⟩
      | healthy =>
          refine h.marks_still ?_ ?_ rfl
          · rintro ⟨⟩
          · rintro ⟨⟩

/-! ## What is kept -/

/-- What the callbacks of an endpoint told: that it is unhealthy, or that it no longer is. -/
def news (i : ℕ) (calls : List Call) : List Bool :=
  (calls.filter (·.idx = i)).map (!·.recovery)

theorem news_append (i : ℕ) (calls more : List Call) :
    news i (calls ++ more) = news i calls ++ news i more := by
  rw [news, List.filter_append, List.map_append]
  rfl

def LcnRouter.Unhealthy (r : LcnRouter) (i : ℕ) : Prop :=
  ∃ ep, r.endpoints[i]? = some ep ∧ ep.healthStatus = .unhealthy

structure Kept (r : LcnRouter) (calls : List Call) : Prop where
  ready : Ready r
  told : ∀ i, Told (news i calls) (r.Unhealthy i)
  counted : ∀ ep ∈ r.endpoints, r.maxConsecutiveFailures ≤ ep.consecutiveFailures →
    ep.healthStatus = .unhealthy

/-- Of an endpoint that is not there nothing is told. -/
theorem LcnRouter.unhealthy_iff (h : r.endpoints[i]? = some ep) :
    r.Unhealthy i ↔ ep.healthStatus = .unhealthy := by
  constructor
  · rintro ⟨ep', hep', hstatus⟩
    rw [h] at hep'
    obtain rfl := Option.some.inj hep'
    exact hstatus
  · intro hstatus
    exact ⟨ep, h, hstatus⟩

/-- The callback that is called tells of its endpoint, and of no other. -/
theorem news_call (i idx : ℕ) (recovery : Option Bool) (call : Bool → Call)
    (hidx : ∀ b, (call b).idx = idx) (hrecovery : ∀ b, (call b).recovery = b) :
    news i (recovery.toList.map call) =
      if idx = i then (recovery.map (!·)).toList else [] := by
  cases recovery with
  | none => split_ifs <;> rfl
  | some b =>
      rw [Option.toList_some, List.map_singleton, news]
      by_cases hi : idx = i
      · rw [if_pos hi, List.filter_cons, if_pos (by rw [hidx]; exact decide_eq_true hi)]
        simp [hrecovery]
      · rw [if_neg hi, List.filter_cons, if_neg (by rw [hidx]; simpa using hi)]
        rfl

theorem Kept.onEndpoint {calls : List Call} (h : Kept r calls)
    {f : RouterEndpoint → RouterEndpoint × Option Bool}
    (hf : ∀ ep, Marks r ep (f ep).1 (f ep).2) (idx : ℤ) :
    Kept (r.onEndpoint f idx).1 (calls ++ (r.onEndpoint f idx).2) := by
  have hsame : Kept r (calls ++ []) := by
    rw [List.append_nil]
    exact h
  unfold LcnRouter.onEndpoint
  split
  · split
    · exact hsame
    · next ep hep =>
      have hmarks := hf ep
      obtain ⟨hlt, hget⟩ := List.getElem?_eq_some_iff.1 hep
      refine ⟨⟨h.ready.unhealthy, h.ready.recovery, h.ready.limit⟩, fun i => ?_, ?_⟩
      · dsimp only
        rw [news_append, news_call i idx.toNat _ _ (fun _ => rfl) (fun _ => rfl)]
        by_cases hi : idx.toNat = i
        · subst hi
          have hnew : (r.endpoints.set idx.toNat (f ep).1)[idx.toNat]? = some (f ep).1 :=
            List.getElem?_set_self hlt
          have htold := h.told idx.toNat
          rw [if_pos rfl, LcnRouter.unhealthy_iff hnew]
          rw [LcnRouter.unhealthy_iff hep] at htold
          exact htold.step hmarks.told
        · have hother : (r.endpoints.set idx.toNat (f ep).1)[i]? = r.endpoints[i]? :=
            List.getElem?_set_ne hi
          rw [if_neg hi, List.append_nil, LcnRouter.Unhealthy, hother]
          exact h.told i
      · intro ep' hep'
        rcases List.mem_or_eq_of_mem_set hep' with hold | rfl
        · exact h.counted ep' hold
        · exact hmarks.counted (h.counted ep (hget ▸ List.getElem_mem hlt))
  · exact hsame

theorem Kept.healthCheckTo {calls : List Call} (h : Kept r calls) (probes : ℕ → Probe) (n : ℕ) :
    Kept (healthCheckTo probes n r).1 (calls ++ (healthCheckTo probes n r).2) := by
  induction n with
  | zero =>
      rw [Router.healthCheckTo, List.append_nil]
      exact h
  | succ n ih =>
      have hnext := ih.onEndpoint (ih.ready.marks_check (probes n)) n
      rw [List.append_assoc] at hnext
      exact hnext

theorem Kept.select {calls : List Call} (h : Kept r calls) (now : Int64) (probes : ℕ → Probe) :
    Kept (lcnRouterSelect r now probes).2.1 (calls ++ (lcnRouterSelect r now probes).2.2) := by
  unfold lcnRouterSelect
  split
  · rw [List.append_nil]
    exact h
  · have hcheck : Kept
        (if lcnRouterHealthCheckDue r now then lcnRouterHealthCheck r probes else (r, [])).1
        (calls ++
          (if lcnRouterHealthCheckDue r now then lcnRouterHealthCheck r probes else (r, [])).2) := by
      split
      · exact h.healthCheckTo probes _
      · rw [List.append_nil]
        exact h
    generalize (if lcnRouterHealthCheckDue r now then lcnRouterHealthCheck r probes else (r, []))
      = checked at hcheck
    dsimp only
    cases checked.1.strategy with
    | latency => exact hcheck
    | cost => exact hcheck
    | failover => exact hcheck
    | roundRobin =>
        exact ⟨⟨hcheck.ready.1, hcheck.ready.2, hcheck.ready.3⟩, hcheck.told, hcheck.counted⟩

/-- A new endpoint is not known to be unhealthy, and has not failed. -/
theorem Kept.addEndpoint {calls : List Call} (h : Kept r calls) (name url : List UInt8)
    (cost : Float) : Kept (lcnRouterAddEndpoint r name url cost).1 calls := by
  unfold lcnRouterAddEndpoint
  split
  · exact h
  · refine ⟨⟨h.ready.unhealthy, h.ready.recovery, h.ready.limit⟩, fun i => ?_, ?_⟩
    · have hiff : r.Unhealthy i ↔ LcnRouter.Unhealthy
          { r with
            endpoints := r.endpoints ++
              [{ name := name.take 127, endpoint := url.take 1023, costPerToken := cost }] } i := by
        constructor
        · rintro ⟨ep, hep, hstatus⟩
          exact ⟨ep, List.getElem?_append_left (List.getElem?_eq_some_iff.1 hep).1 ▸ hep, hstatus⟩
        · rintro ⟨ep, hep, hstatus⟩
          rw [List.getElem?_append] at hep
          split_ifs at hep with hi
          · exact ⟨ep, hep, hstatus⟩
          · obtain rfl := List.mem_singleton.1 (List.mem_of_getElem? hep)
            cases hstatus
      have htold := h.told i
      exact ⟨htold.alternate, htold.first, hiff.symm.trans htold.last⟩
    · intro ep hep hcount
      rcases List.mem_append.1 hep with hep | hep
      · exact h.counted ep hep hcount
      · obtain rfl := List.mem_singleton.1 hep
        exact absurd hcount h.ready.limit

theorem Kept.apply {calls : List Call} (h : Kept r calls) (op : Op) :
    Kept (op.apply r).1 (calls ++ (op.apply r).2) := by
  cases op with
  | addEndpoint name url cost =>
      change Kept _ (calls ++ [])
      rw [List.append_nil]
      exact h.addEndpoint name url cost
  | reportResult idx success latencyMs =>
      exact h.onEndpoint (h.ready.marks_report success latencyMs) idx
  | healthCheck probes => exact h.healthCheckTo probes _
  | markUnhealthy idx => exact h.onEndpoint (fun _ => h.ready.marks_down rfl) idx
  | markHealthy idx =>
      refine h.onEndpoint (fun _ => h.ready.marks_up ?_ rfl) idx
      rintro ⟨⟩
  | setStrategy strategy =>
      change Kept _ (calls ++ [])
      rw [List.append_nil]
      exact ⟨⟨h.ready.1, h.ready.2, h.ready.3⟩, h.told, h.counted⟩
  | select now probes => exact h.select now probes

theorem Kept.applyAll {calls : List Call} (h : Kept r calls) (ops : List Op) :
    Kept (applyAll r ops).1 (calls ++ (applyAll r ops).2) := by
  induction ops generalizing r calls with
  | nil =>
      rw [Router.applyAll, List.append_nil]
      exact h
  | cons op ops ih =>
      have hrest := ih (h.apply op)
      rw [List.append_assoc] at hrest
      exact hrest

/-- A new router, with both callbacks. -/
def watched (name : List UInt8) : LcnRouter := lcnRouterSetCallbacks (lcnRouterNew name) true true

theorem kept_watched (name : List UInt8) : Kept (watched name) [] := by
  have hlimit : ¬ (3 : Int32) ≤ 0 := by decide
  refine ⟨⟨rfl, rfl, hlimit⟩, fun i => told_nil ?_, ?_⟩
  · rintro ⟨ep, hep, -⟩
    cases hep
  · intro ep hep
    cases hep

/-! ## What is selected -/

theorem selectBest_selectable {better : RouterEndpoint → RouterEndpoint → Bool}
    {eps : List RouterEndpoint} {best : Option (ℕ × RouterEndpoint)} {all : List RouterEndpoint}
    {start : ℕ} (heps : all.drop start = eps)
    (hbest : ∀ b ∈ best, all[b.1]? = some b.2 ∧ epSelectable b.2 = true)
    {found : ℕ × RouterEndpoint} (h : selectBest better start eps best = some found) :
    all[found.1]? = some found.2 ∧ epSelectable found.2 = true := by
  induction eps generalizing start best with
  | nil => exact hbest found h
  | cons ep eps ih =>
      have hep : all[start]? = some ep := by
        rw [← Nat.add_zero start, ← List.getElem?_drop, heps]
        rfl
      have hrest : all.drop (start + 1) = eps := by
        rw [← List.drop_drop, heps]
        rfl
      rw [selectBest.eq_def] at h
      dsimp only at h
      split at h
      · exact ih hrest hbest h
      · next hselectable =>
        rw [Bool.not_eq_false] at hselectable
        split at h
        · refine ih hrest (fun b hb => ?_) h
          obtain rfl := Option.some.inj hb
          exact ⟨hep, hselectable⟩
        · next j b =>
          refine ih hrest (fun c hc => ?_) h
          split at hc
          · obtain rfl := Option.some.inj hc
            exact ⟨hep, hselectable⟩
          · exact hbest c hc

theorem selectable_iff : r.selectable i = true ↔
    ∃ ep, r.endpoints[i]? = some ep ∧ ep.healthStatus ≠ .unhealthy := by
  rw [LcnRouter.selectable, Option.any_eq_true]
  constructor
  · rintro ⟨ep, hep, hselectable⟩
    exact ⟨ep, hep, of_decide_eq_true hselectable⟩
  · rintro ⟨ep, hep, hstatus⟩
    exact ⟨ep, hep, decide_eq_true hstatus⟩

theorem selectable_best {better : RouterEndpoint → RouterEndpoint → Bool}
    (h : (selectBest better 0 r.endpoints none).map Prod.fst = some i) :
    r.selectable i = true := by
  obtain ⟨found, hfound, rfl⟩ := Option.map_eq_some_iff.1 h
  obtain ⟨hget, hselectable⟩ :=
    selectBest_selectable (List.drop_zero) (fun b hb => by cases hb) hfound
  rw [LcnRouter.selectable, hget]
  exact hselectable

theorem selectable_roundRobinLoop {left rr : ℕ} (h : (roundRobinLoop r left rr).1 = some i) :
    r.selectable i = true := by
  induction left generalizing rr with
  | zero => cases h
  | succ left ih =>
      rw [roundRobinLoop] at h
      split_ifs at h with hselectable
      · obtain rfl := Option.some.inj h
        exact hselectable
      · exact ih h

theorem selectable_failover (h : selectFailover r = some i) : r.selectable i = true := by
  obtain ⟨hlt, hselectable, -⟩ := List.findIdx?_eq_some_iff_getElem.1 h
  rw [LcnRouter.selectable, List.getElem?_eq_getElem hlt]
  exact hselectable

/-- What is selected is selectable, as the router is then. -/
theorem selectable_select {now : Int64} {probes : ℕ → Probe}
    (h : (lcnRouterSelect r now probes).1 = some i) :
    (lcnRouterSelect r now probes).2.1.selectable i = true := by
  unfold lcnRouterSelect at h ⊢
  split at h
  · cases h
  · next hne =>
    rw [if_neg hne]
    generalize (if lcnRouterHealthCheckDue r now then lcnRouterHealthCheck r probes else (r, []))
      = checked at h ⊢
    obtain ⟨r, calls⟩ := checked
    dsimp only at h ⊢
    cases hstrategy : r.strategy with
    | latency =>
        rw [hstrategy] at h
        exact selectable_best h
    | cost =>
        rw [hstrategy] at h
        exact selectable_best h
    | roundRobin =>
        rw [hstrategy] at h
        have hfound : r.selectable i = true := selectable_roundRobinLoop h
        exact hfound
    | failover =>
        rw [hstrategy] at h
        exact selectable_failover h

/-- The callbacks of an endpoint alternate, beginning with the one for an unhealthy endpoint, and
the last of them tells how the endpoint is.  One that has failed so often is unhealthy, and is
not selected. -/
theorem health_told (name : List UInt8) (ops : List Op) :
    (∀ i, Told (news i (applyAll (watched name) ops).2)
      ((applyAll (watched name) ops).1.Unhealthy i)) ∧
    (∀ ep ∈ (applyAll (watched name) ops).1.endpoints,
      (applyAll (watched name) ops).1.maxConsecutiveFailures ≤ ep.consecutiveFailures →
        ep.healthStatus = .unhealthy) ∧
    ∀ now probes i, (lcnRouterSelect (applyAll (watched name) ops).1 now probes).1 = some i →
      ∃ ep, (lcnRouterSelect (applyAll (watched name) ops).1 now probes).2.1.endpoints[i]? =
          some ep ∧ ep.healthStatus ≠ .unhealthy ∧
        ¬ (lcnRouterSelect (applyAll (watched name) ops).1 now probes).2.1.maxConsecutiveFailures ≤
          ep.consecutiveFailures := by
  have hkept := (kept_watched name).applyAll ops
  rw [List.nil_append] at hkept
  refine ⟨hkept.told, hkept.counted, fun now probes i hselect => ?_⟩
  obtain ⟨ep, hep, hstatus⟩ := selectable_iff.1 (selectable_select hselect)
  refine ⟨ep, hep, hstatus, fun hcount => hstatus ?_⟩
  exact (hkept.select now probes).counted ep (List.mem_of_getElem? hep) hcount

/-! ## Round robin -/

/-- The loop is a search in the circle of the endpoints. -/
theorem roundRobinLoop_next {left rr : ℕ} {passed xs : List ℕ}
    (horder : order r.endpoints.length rr = xs ++ passed) (hleft : xs.length = left) :
    (roundRobinLoop r left rr).1 = (next r.selectable passed xs).1 ∧
      order r.endpoints.length (roundRobinLoop r left rr).2 =
        (next r.selectable passed xs).2 := by
  induction left generalizing rr passed xs with
  | zero =>
      obtain rfl := List.length_eq_zero_iff.1 hleft
      exact ⟨rfl, horder⟩
  | succ left ih =>
      cases xs with
      | nil => cases hleft
      | cons x xs =>
          cases hcount : r.endpoints.length with
          | zero =>
              rw [hcount] at horder
              cases horder
          | succ n =>
              obtain ⟨behind, hhere, hnext⟩ := order_succ n rr
              rw [hcount, hhere] at horder
              obtain ⟨hx, rfl⟩ := List.cons.inj horder
              have hrest : order r.endpoints.length ((rr + 1) % r.endpoints.length) =
                  xs ++ (passed ++ [x]) := by
                rw [order_mod, hcount, hnext, hx]
                exact List.append_assoc xs passed [x]
              rw [roundRobinLoop, next]
              rw [hcount, hx]
              rw [hcount] at hrest
              split_ifs with hselectable
              · exact ⟨rfl, hrest⟩
              · rw [← hcount] at hrest
                have hloop := ih hrest (Nat.succ.inj hleft)
                rw [hcount] at hloop
                exact hloop

/-- What is selected by so many calls. -/
def roundRobinCalls : ℕ → LcnRouter → List (Option ℕ)
  | 0, _ => []
  | k + 1, r => (selectRoundRobin r).1 :: roundRobinCalls k (selectRoundRobin r).2

theorem roundRobinCalls_eq (k : ℕ) (r : LcnRouter) :
    roundRobinCalls k r = turns r.selectable k (order r.endpoints.length r.roundRobinIdx) := by
  induction k generalizing r with
  | zero => rfl
  | succ k ih =>
      have hlength : (order r.endpoints.length r.roundRobinIdx).length = r.endpoints.length := by
        rw [order, List.length_map, List.length_range]
      obtain ⟨hfound, hcircle⟩ :=
        @roundRobinLoop_next r _ r.roundRobinIdx [] _ (List.append_nil _).symm hlength
      rw [roundRobinCalls, turns, ih, ← hcircle, ← hfound]
      rfl

/-- The selectable endpoints. -/
def LcnRouter.selectables (r : LcnRouter) : List ℕ :=
  (List.range r.endpoints.length).filter r.selectable

/-- Every selectable endpoint once. -/
theorem roundRobinCalls_selectables (r : LcnRouter) :
    ∃ found : List ℕ, found.Perm r.selectables ∧
      roundRobinCalls r.selectables.length r = found.map some := by
  have hperm := (order_perm r.endpoints.length r.roundRobinIdx).filter r.selectable
  refine ⟨(order r.endpoints.length r.roundRobinIdx).filter r.selectable, hperm, ?_⟩
  rw [roundRobinCalls_eq, LcnRouter.selectables, ← hperm.length_eq, turns_all]

/-! ## The index -/

/-- The index is in the range of the endpoints, or zero where there are none. -/
def LcnRouter.InRange (r : LcnRouter) : Prop := r.roundRobinIdx < max 1 r.endpoints.length

theorem loop_inRange {left rr : ℕ} (hleft : left ≤ r.endpoints.length)
    (h : rr < max 1 r.endpoints.length) :
    (roundRobinLoop r left rr).2 < max 1 r.endpoints.length := by
  induction left generalizing rr with
  | zero => exact h
  | succ left ih =>
      have hnext : (rr + 1) % r.endpoints.length < max 1 r.endpoints.length :=
        Nat.lt_of_lt_of_le (Nat.mod_lt _ (by omega)) (Nat.le_max_right 1 _)
      rw [roundRobinLoop]
      split_ifs
      · exact hnext
      · exact ih (by omega) hnext

theorem onEndpoint_inRange (h : r.InRange) (f : RouterEndpoint → RouterEndpoint × Option Bool)
    (idx : ℤ) : (r.onEndpoint f idx).1.InRange := by
  unfold LcnRouter.onEndpoint
  split
  · split
    · exact h
    · unfold LcnRouter.InRange
      rw [List.length_set]
      exact h
  · exact h

theorem healthCheckTo_inRange (h : r.InRange) (probes : ℕ → Probe) (n : ℕ) :
    (healthCheckTo probes n r).1.InRange := by
  induction n with
  | zero => exact h
  | succ n ih => exact onEndpoint_inRange ih _ n

theorem apply_inRange (h : r.InRange) (op : Op) : (op.apply r).1.InRange := by
  cases op with
  | addEndpoint name url cost =>
      change (lcnRouterAddEndpoint r name url cost).1.InRange
      unfold lcnRouterAddEndpoint
      split
      · exact h
      · change r.roundRobinIdx < max 1 (r.endpoints ++ [_]).length
        have hbefore : r.roundRobinIdx < max 1 r.endpoints.length := h
        rw [List.length_append, List.length_singleton]
        omega
  | reportResult idx success latencyMs => exact onEndpoint_inRange h _ idx
  | healthCheck probes => exact healthCheckTo_inRange h probes _
  | markUnhealthy idx => exact onEndpoint_inRange h _ idx
  | markHealthy idx => exact onEndpoint_inRange h _ idx
  | setStrategy strategy => exact Nat.lt_of_lt_of_le Nat.zero_lt_one (Nat.le_max_left 1 _)
  | select now probes =>
      change (lcnRouterSelect r now probes).2.1.InRange
      unfold lcnRouterSelect
      split
      · exact h
      · have hcheck : (if lcnRouterHealthCheckDue r now then lcnRouterHealthCheck r probes
            else (r, [])).1.InRange := by
          split
          · exact healthCheckTo_inRange h probes _
          · exact h
        generalize (if lcnRouterHealthCheckDue r now then lcnRouterHealthCheck r probes
          else (r, [])) = checked at hcheck
        dsimp only
        cases checked.1.strategy with
        | latency => exact hcheck
        | cost => exact hcheck
        | failover => exact hcheck
        | roundRobin => exact loop_inRange (Nat.le_refl _) hcheck

theorem applyAll_inRange (h : r.InRange) (ops : List Op) : (applyAll r ops).1.InRange := by
  induction ops generalizing r with
  | nil => exact h
  | cons op ops ih => exact ih (apply_inRange h op)

/-- As many calls as there are selectable endpoints select each of them once, from wherever the
index is.  Whatever is done with a router, endpoints added or not, the index stays in range, and
no call selects an unhealthy endpoint. -/
theorem round_robin_fair :
    (∀ r : LcnRouter, ∃ found : List ℕ, found.Perm r.selectables ∧ found.Nodup ∧
      roundRobinCalls r.selectables.length r = found.map some) ∧
    ∀ name down up ops,
      (applyAll (lcnRouterSetCallbacks (lcnRouterNew name) down up) ops).1.InRange ∧
      ∀ i, (selectRoundRobin
          (applyAll (lcnRouterSetCallbacks (lcnRouterNew name) down up) ops).1).1 = some i →
        ∃ ep, (applyAll (lcnRouterSetCallbacks (lcnRouterNew name) down up) ops).1.endpoints[i]? =
          some ep ∧ ep.healthStatus ≠ .unhealthy := by
  refine ⟨fun r => ?_, fun name down up ops => ⟨?_, fun i hfound => ?_⟩⟩
  · obtain ⟨found, hperm, hcalls⟩ := roundRobinCalls_selectables r
    exact ⟨found, hperm, hperm.nodup_iff.2 (List.nodup_range.filter _), hcalls⟩
  · have hnew : (lcnRouterSetCallbacks (lcnRouterNew name) down up).InRange := Nat.zero_lt_one
    exact applyAll_inRange hnew ops
  · exact selectable_iff.1 (selectable_roundRobinLoop hfound)

end Limceron.Runtime.Router
