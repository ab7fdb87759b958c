/-
# `Limceron.C99.Metrics` — histograms and what is exported of them

The C back end prints for a histogram eleven counters, a function that observes a value
and, for all metrics together, one that writes the text for Prometheus.

| | the counter for the bound `b` |
| :-- | :-- |
| `_lcn_metrics_observe_*` | counts each value that is `≤ b`, so for each larger bound too |
| `_lcn_metrics_format` | writes the sum of the counters up to it |

The counters are added up a second time.  `histograms_right_iff` says when nothing is
added: no value is at the last bound but one or under it.
-/
import Mathlib.Data.List.Induction
import Mathlib.Data.List.Nodup
import Mathlib.Data.Rat.Cast.Order
import Mathlib.Tactic.Linarith
import Mathlib.Tactic.NormNum

namespace Limceron.C99.Metrics

/-! ## Metrics -/

inductive Kind
  | counter
  | gauge
  | histogram
  deriving DecidableEq

/-- A field of a `metrics` block. -/
structure Metric where
  name : String
  description : String
  kind : Kind

/-- The registry is an array of 64; `blocks` are the `metrics` blocks of the program. -/
def registered (blocks : List (List Metric)) : List Metric := blocks.flatten.take 64

/-- C has one `LcnMetrics`, with one member of a name. -/
def compiles (blocks : List (List Metric)) : Bool :=
  blocks.length = 1 && ((registered blocks).map Metric.name).Nodup

/-! ## Observing -/

/-- `bounds`. -/
def bounds : List Nat := [10, 20, 30, 40, 50, 60, 70, 80, 90, 95, 100]

/-- `le`. -/
def les : List String := ["10", "20", "30", "40", "50", "60", "70", "80", "90", "95", "100"]

structure Hist where
  count : BitVec 64
  sum : Rat
  buckets : List (BitVec 64)

def Hist.zero : Hist := ⟨0, 0, List.replicate 11 0⟩

/-- `_lcn_metrics_observe_*`. -/
def Hist.observe (h : Hist) (val : Rat) : Hist where
  count := h.count + 1
  sum := h.sum + val
  buckets := List.zipWith (fun (b : Nat) n => if val ≤ b then n + 1 else n) bounds h.buckets

/-- `_lcn_metrics`: the histograms and the words of the other metrics. -/
structure Store where
  hist : String → Hist
  word : String → BitVec 64

def Store.zero : Store := ⟨fun _ => .zero, fun _ => 0⟩

inductive Event
  /-- `metrics.name.observe(val)`. -/
  | observe (name : String) (val : Rat)
  /-- A counter or a gauge gets a value. -/
  | assign (name : String) (word : BitVec 64)

def Event.apply (s : Store) : Event → Store
  | .observe name val =>
      { s with hist := fun x => if x = name then (s.hist x).observe val else s.hist x }
  | .assign name word => { s with word := fun x => if x = name then word else s.word x }

def run (events : List Event) : Store := events.foldl Event.apply .zero

/-! ## The text -/

/-- What one `snprintf` writes. -/
inductive Line
  /-- `# HELP`. -/
  | help (text : String)
  /-- `# TYPE`. -/
  | type (name kind : String)
  | bucket (name le : String) (value : Int)
  | sum (name text : String)
  | count (name : String) (value : Int)
  | value (name : String) (value : Int)
  deriving DecidableEq

def Line.text : Line → String
  | .help t => t
  | .type name kind => "# TYPE " ++ name ++ " " ++ kind ++ "\n"
  | .bucket name le v => name ++ "_bucket\x7ble=\"" ++ le ++ "\"\x7d " ++ toString v ++ "\n"
  | .sum name t => name ++ "_sum " ++ t ++ "\n"
  | .count name v => name ++ "_count " ++ toString v ++ "\n"
  | .value name v => name ++ " " ++ toString v ++ "\n"

def Kind.text : Kind → String
  | .counter => "counter"
  | .gauge => "gauge"
  | .histogram => "histogram"

/-- What C makes of the format `# HELP name description`, none if it is no literal or has
a conversion, and of `%f`. -/
structure Printf where
  help : String → String → Option String
  double : Rat → String

variable (c : Printf)

/-- `_cum`, behind each bound. -/
def cumulate : BitVec 64 → List (BitVec 64) → List (BitVec 64)
  | _, [] => []
  | cum, n :: ns => (cum + n) :: cumulate (cum + n) ns

/-- The lines of a histogram. -/
def histLines (name : String) (h : Hist) : List Line :=
  List.zipWith (fun le n => .bucket name le n.toInt) les (cumulate 0 h.buckets) ++
    [.bucket name "+Inf" h.count.toInt, .sum name (c.double h.sum), .count name h.count.toInt]

/-- The lines of a metric, with `hist` those of a histogram. -/
def metricLines (hist : String → List Line) (word : String → BitVec 64) (m : Metric) :
    Option (List Line) :=
  (c.help m.name m.description).map fun text =>
    [.help text, .type m.name m.kind.text] ++
      match m.kind with
      | .histogram => hist m.name
      | _ => [.value m.name (word m.name).toInt]

/-- All lines, if each has been written. -/
def allLines (hist : String → List Line) (word : String → BitVec 64) :
    List Metric → Option (List Line)
  | [] => some []
  | m :: ms =>
      (metricLines c hist word m).bind fun ls => (allLines hist word ms).map fun rest => ls ++ rest

/-- The lines in a buffer; `none` if it is too short, the lines being written behind it
then. -/
def inBuffer (bufsz : Nat) (ls : List Line) : Option (List Line) :=
  if (ls.map fun l => l.text.utf8ByteSize).sum < bufsz then some ls else none

/-- `_lcn_metrics_format`, behind the events. -/
def metricsFormat (bufsz : Nat) (blocks : List (List Metric)) (events : List Event) :
    Option (List Line) :=
  if compiles blocks then
    (allLines c (fun name => histLines c name ((run events).hist name)) (run events).word
      (registered blocks)).bind (inBuffer bufsz)
  else none

/-! ## What is meant -/

/-- The observed values of a histogram. -/
def values (name : String) (events : List Event) : List Rat :=
  events.filterMap fun e =>
    match e with
    | .observe x val => if x = name then some val else none
    | .assign _ _ => none

/-- The number of values that are not greater than a bound. -/
def atMost (b : Nat) (vs : List Rat) : Nat := vs.countP fun v : Rat => v ≤ b

/-- The `le` of each line of a histogram, and the number. -/
def bucketsOf (name : String) (ls : List Line) : List (String × Int) :=
  ls.filterMap fun l =>
    match l with
    | .bucket x le v => if x = name then some (le, v) else none
    | _ => none

/-- What the lines are to say. -/
def meant (vs : List Rat) : List (String × Int) :=
  bounds.map (fun b => (toString b, (atMost b vs : Int))) ++ [("+Inf", (vs.length : Int))]

/-- The text is written, and for each histogram of the program the line with `le = b` has
the number of values that are not greater, that with `+Inf` the number of all, and the
numbers do not decrease. -/
def Right (bufsz : Nat) (blocks : List (List Metric)) (events : List Event) : Prop :=
  ∃ ls, metricsFormat c bufsz blocks events = some ls ∧
    ∀ m ∈ blocks.flatten, m.kind = .histogram →
      bucketsOf m.name ls = meant (values m.name events) ∧
        ((bucketsOf m.name ls).map Prod.snd).Pairwise (· ≤ ·)

/-- The lines of a histogram as they are meant. -/
def meantLines (name : String) (vs : List Rat) : List Line :=
  (meant vs).map (fun p => .bucket name p.1 p.2) ++
    [.sum name (c.double vs.sum), .count name vs.length]

/-- There is one block, with no name twice and the histograms among the first 64 metrics, the
descriptions are formats, all observed values are above 95 and fewer than `2 ^ 63`, and
the text as it is meant fits the buffer. -/
structure Fits (bufsz : Nat) (blocks : List (List Metric)) (events : List Event) : Prop where
  compiles : compiles blocks
  registered : ∀ m ∈ blocks.flatten, m.kind = .histogram →
    ∃ r ∈ registered blocks, r.kind = .histogram ∧ r.name = m.name
  above : ∀ m ∈ blocks.flatten, m.kind = .histogram → ∀ v ∈ values m.name events, 95 < v
  few : ∀ m ∈ blocks.flatten, m.kind = .histogram → (values m.name events).length < 2 ^ 63
  text : ∃ ls, allLines c (fun name => meantLines c name (values name events)) (run events).word
    (Metrics.registered blocks) = some ls ∧ (ls.map fun l => l.text.utf8ByteSize).sum < bufsz

variable {c}

/-! ## Counters -/

theorem hist_run (events : List Event) (name : String) :
    (run events).hist name = (values name events).foldl Hist.observe .zero := by
  suffices ∀ s : Store, (events.foldl Event.apply s).hist name =
      (values name events).foldl Hist.observe (s.hist name) from this .zero
  induction events with
  | nil =>
    intro s
    rfl
  | cons e events ih =>
    intro s
    rw [List.foldl_cons, ih]
    cases e with
    | assign x word => rfl
    | observe x val =>
      by_cases hx : x = name
      · subst hx
        simp [values, Event.apply]
      · have hname : name ≠ x := fun h => hx h.symm
        simp [values, Event.apply, hx, hname]

theorem atMost_snoc (b : Nat) (vs : List Rat) (v : Rat) :
    atMost b (vs ++ [v]) = atMost b vs + if v ≤ b then 1 else 0 := by
  rw [atMost, List.countP_append, List.countP_singleton]
  simp [atMost]

/-- The counter for a bound is the number of values that are not greater. -/
theorem foldl_observe (vs : List Rat) :
    vs.foldl Hist.observe .zero =
      ⟨BitVec.ofNat 64 vs.length, vs.sum, bounds.map fun b => BitVec.ofNat 64 (atMost b vs)⟩ := by
  induction vs using List.reverseRecOn with
  | nil => rfl
  | append_singleton vs v ih =>
    rw [List.foldl_append, ih, List.foldl_cons, List.foldl_nil, Hist.observe]
    have hbucket : ∀ b : Nat,
        (if v ≤ b then BitVec.ofNat 64 (atMost b vs) + 1 else BitVec.ofNat 64 (atMost b vs)) =
          BitVec.ofNat 64 (atMost b (vs ++ [v])) := by
      intro b
      rw [atMost_snoc]
      split
      · exact (BitVec.ofNat_add _ 1).symm
      · rfl
    congr 1
    · rw [List.length_append]
      exact (BitVec.ofNat_add _ 1).symm
    · rw [List.sum_append, List.sum_singleton]
    · simp only [bounds, List.map_cons, List.map_nil, List.zipWith_cons_cons, List.zipWith_nil_left,
        hbucket]

/-- A word that shows a number is that number. -/
theorem toInt_ofNat_iff {n : Nat} : (BitVec.ofNat 64 n).toInt = n ↔ n < 2 ^ 63 := by
  rw [BitVec.toInt_ofNat', Int.bmod_def]
  omega

theorem eq_ofNat_of_toInt {w : BitVec 64} {n : Nat} (h : w.toInt = n) :
    w = BitVec.ofNat 64 n := by
  rw [← BitVec.ofInt_toInt (x := w), h, BitVec.ofInt_natCast]

/-- The sums are the counters if and only if nothing is added. -/
theorem cumulate_iff {cum : BitVec 64} {ns : List Nat} :
    (cumulate cum (ns.map (BitVec.ofNat 64))).map BitVec.toInt = ns.map Nat.cast ↔
      ns = [] ∨ cum = 0 ∧ (∀ n ∈ ns.dropLast, n = 0) ∧ ∀ n ∈ ns, n < 2 ^ 63 := by
  induction ns generalizing cum with
  | nil => simp [cumulate]
  | cons n ns ih =>
    rw [List.map_cons, cumulate, List.map_cons, List.map_cons, List.cons_eq_cons, ih]
    constructor
    · rintro ⟨hn, hrest⟩
      have hword : cum + BitVec.ofNat 64 n = BitVec.ofNat 64 n := eq_ofNat_of_toInt hn
      have hcum : cum = 0 := by simpa using hword
      have hlt : n < 2 ^ 63 := toInt_ofNat_iff.mp (hword ▸ hn)
      refine Or.inr ⟨hcum, ?_⟩
      rcases hrest with rfl | ⟨hzero, hlast, hall⟩
      · exact ⟨by simp, by simpa using hlt⟩
      · rw [hword] at hzero
        have hn0 : n = 0 := by
          have hint := toInt_ofNat_iff.mpr hlt
          rw [hzero] at hint
          simpa using hint.symm
        cases ns with
        | nil => exact ⟨by simp, by simpa using hlt⟩
        | cons m ms =>
          refine ⟨?_, ?_⟩
          · rw [List.dropLast_cons_cons]
            exact List.forall_mem_cons.mpr ⟨hn0, hlast⟩
          · exact List.forall_mem_cons.mpr ⟨hlt, hall⟩
    · rintro (h | ⟨rfl, hlast, hsmall⟩)
      · cases h
      · obtain ⟨hlt, hall⟩ := List.forall_mem_cons.mp hsmall
        refine ⟨?_, ?_⟩
        · have hadd : (0 : BitVec 64) + BitVec.ofNat 64 n = BitVec.ofNat 64 n := by simp
          rw [hadd]
          exact toInt_ofNat_iff.mpr hlt
        · cases ns with
          | nil => exact Or.inl rfl
          | cons m ms =>
            rw [List.dropLast_cons_cons] at hlast
            obtain ⟨rfl, hrest⟩ := List.forall_mem_cons.mp hlast
            exact Or.inr ⟨rfl, hrest, hall⟩

/-! ## The lines of a histogram -/

theorem atMost_mono {b b' : Nat} (h : b ≤ b') (vs : List Rat) : atMost b vs ≤ atMost b' vs := by
  refine List.countP_mono_left ?_
  intro v _ hv
  rw [decide_eq_true_eq] at hv ⊢
  exact hv.trans (Nat.cast_le.mpr h)

theorem atMost_le_length (b : Nat) (vs : List Rat) : atMost b vs ≤ vs.length := List.countP_le_length

theorem atMost_eq_zero {b : Nat} {vs : List Rat} : atMost b vs = 0 ↔ ∀ v ∈ vs, (b : Rat) < v := by
  rw [atMost, List.countP_eq_zero]
  simp

/-- The meant numbers do not decrease. -/
theorem meant_sorted (vs : List Rat) : ((meant vs).map Prod.snd).Pairwise (· ≤ ·) := by
  have hbounds : bounds.Pairwise (· ≤ ·) := by decide
  rw [meant, List.map_append, List.map_map, List.pairwise_append]
  refine ⟨?_, List.pairwise_singleton _ _, ?_⟩
  · rw [List.pairwise_map]
    refine hbounds.imp ?_
    intro b b' h
    exact Int.ofNat_le.mpr (atMost_mono h vs)
  · intro n hn m hm
    obtain ⟨b, -, rfl⟩ := List.mem_map.mp hn
    rw [List.map_singleton, List.mem_singleton] at hm
    subst hm
    exact Int.ofNat_le.mpr (atMost_le_length b vs)

/-- The numbers that are exported for the values. -/
def exported (vs : List Rat) : List (String × Int) :=
  List.zip les ((cumulate 0 ((bounds.map fun b => atMost b vs).map (BitVec.ofNat 64))).map
    BitVec.toInt) ++ [("+Inf", (BitVec.ofNat 64 vs.length).toInt)]

theorem length_cumulate (cum : BitVec 64) (ns : List (BitVec 64)) :
    (cumulate cum ns).length = ns.length := by
  induction ns generalizing cum with
  | nil => rfl
  | cons n ns ih => rw [cumulate, List.length_cons, List.length_cons, ih]

theorem les_eq : les = bounds.map toString := by decide

/-- What is exported is what is meant if and only if the values are above 95 and can be
counted. -/
theorem exported_eq_iff (vs : List Rat) :
    exported vs = meant vs ↔ (∀ v ∈ vs, 95 < v) ∧ vs.length < 2 ^ 63 := by
  have hmeant : bounds.map (fun b => (toString b, (atMost b vs : Int))) =
      List.zip les ((bounds.map fun b => atMost b vs).map Nat.cast) := by
    rw [les_eq, List.map_map, List.zip_map']
    rfl
  have hlength : (cumulate 0 ((bounds.map fun b => atMost b vs).map (BitVec.ofNat 64))).length =
      (bounds.map fun b => atMost b vs).length := by
    rw [length_cumulate, List.length_map]
  have hword : (BitVec.ofNat 64 vs.length).toInt = vs.length ↔ vs.length < 2 ^ 63 := toInt_ofNat_iff
  rw [exported, meant, hmeant]
  constructor
  · intro h
    obtain ⟨hzip, hinf⟩ := List.append_inj' h rfl
    have hsums := congrArg (List.map Prod.snd) hzip
    rw [List.map_snd_zip (by rw [List.length_map, hlength, List.length_map]; decide),
      List.map_snd_zip (by rw [List.length_map, List.length_map]; decide)] at hsums
    rcases cumulate_iff.mp hsums with hnil | ⟨-, hlast, -⟩
    · cases hnil
    · refine ⟨?_, hword.mp ?_⟩
      · refine atMost_eq_zero (b := 95).mp (hlast _ ?_)
        rw [← List.map_dropLast]
        exact List.mem_map_of_mem (by decide)
      · rw [List.singleton_inj, Prod.mk.injEq] at hinf
        exact hinf.2
  · rintro ⟨habove, hfew⟩
    have hzero : ∀ n ∈ (bounds.map fun b => atMost b vs).dropLast, n = 0 := by
      rw [← List.map_dropLast]
      intro n hn
      obtain ⟨b, hb, rfl⟩ := List.mem_map.mp hn
      have hbounds : ∀ b ∈ bounds.dropLast, b ≤ 95 := by decide
      have hle := hbounds b hb
      have h95 : atMost 95 vs = 0 := atMost_eq_zero.mpr habove
      exact Nat.le_zero.mp (h95 ▸ atMost_mono hle vs)
    have hsmall : ∀ n ∈ (bounds.map fun b => atMost b vs), n < 2 ^ 63 := by
      intro n hn
      obtain ⟨b, -, rfl⟩ := List.mem_map.mp hn
      exact (atMost_le_length b vs).trans_lt hfew
    rw [cumulate_iff.mpr (Or.inr ⟨rfl, hzero, hsmall⟩), hword.mpr hfew]

/-! ## All lines -/

theorem bucketsOf_append (x : String) (ls ls' : List Line) :
    bucketsOf x (ls ++ ls') = bucketsOf x ls ++ bucketsOf x ls' := List.filterMap_append

theorem bucketsOf_map (x name : String) (ps : List (String × Int)) :
    bucketsOf x (ps.map fun p => .bucket name p.1 p.2) = if name = x then ps else [] := by
  induction ps with
  | nil => simp [bucketsOf]
  | cons p ps ih =>
    rw [List.map_cons, ← List.singleton_append, bucketsOf_append, ih]
    split
    · next h => simp [bucketsOf, h]
    · next h => simp [bucketsOf, h]

theorem zipWith_bucket (name : String) (ls : List String) (ns : List (BitVec 64)) :
    List.zipWith (fun le n => Line.bucket name le n.toInt) ls ns =
      (List.zip ls (ns.map BitVec.toInt)).map fun p => .bucket name p.1 p.2 := by
  induction ls generalizing ns with
  | nil => rfl
  | cons le ls ih =>
    cases ns with
    | nil => rfl
    | cons n ns => exact congrArg (Line.bucket name le n.toInt :: ·) (ih ns)

theorem histLines_eq (name : String) (vs : List Rat) :
    histLines c name (vs.foldl Hist.observe .zero) =
      (exported vs).map (fun p => .bucket name p.1 p.2) ++
        [.sum name (c.double vs.sum), .count name (BitVec.ofNat 64 vs.length).toInt] := by
  rw [foldl_observe, histLines, exported, List.map_append, List.append_assoc, zipWith_bucket,
    List.map_map]
  rfl

theorem bucketsOf_histLines (x name : String) (vs : List Rat) :
    bucketsOf x (histLines c name (vs.foldl Hist.observe .zero)) =
      if name = x then exported vs else [] := by
  rw [histLines_eq, bucketsOf_append, bucketsOf_map]
  exact List.append_nil _

theorem bucketsOf_meantLines (x name : String) (vs : List Rat) :
    bucketsOf x (meantLines c name vs) = if name = x then meant vs else [] := by
  rw [meantLines, bucketsOf_append, bucketsOf_map]
  exact List.append_nil _

/-- Lines of a histogram, where `numbers` is what they say. -/
def Tells (hist : String → List Line) (numbers : String → List (String × Int)) : Prop :=
  ∀ x name, bucketsOf x (hist name) = if name = x then numbers name else []

section AllLines

variable {hist hist' : String → List Line} {numbers : String → List (String × Int)}
  {word : String → BitVec 64} {m : Metric} {ms : List Metric} {ls : List Line}

theorem bucketsOf_metricLines (htells : Tells hist numbers) (x : String)
    (h : metricLines c hist word m = some ls) :
    bucketsOf x ls = if m.kind = .histogram ∧ m.name = x then numbers x else [] := by
  obtain ⟨text, -, rfl⟩ := Option.map_eq_some_iff.mp h
  have hhead : bucketsOf x [.help text, .type m.name m.kind.text] = [] := rfl
  rw [bucketsOf_append, hhead, List.nil_append]
  cases hkind : m.kind with
  | histogram =>
    refine (htells x m.name).trans ?_
    by_cases hx : m.name = x
    · rw [if_pos hx, if_pos ⟨rfl, hx⟩, hx]
    · rw [if_neg hx, if_neg fun h => hx h.2]
  | counter => rw [if_neg (by rintro ⟨⟨⟩, -⟩)]; rfl
  | gauge => rw [if_neg (by rintro ⟨⟨⟩, -⟩)]; rfl

/-- With no name twice the lines of a histogram are those of its one metric. -/
theorem bucketsOf_allLines (htells : Tells hist numbers) (x : String)
    (hnames : (ms.map Metric.name).Nodup) (h : allLines c hist word ms = some ls) :
    bucketsOf x ls =
      if ∃ m ∈ ms, m.kind = .histogram ∧ m.name = x then numbers x else [] := by
  induction ms generalizing ls with
  | nil =>
    cases h
    rw [if_neg (by rintro ⟨m, hm, -⟩; cases hm)]
    rfl
  | cons m ms ih =>
    obtain ⟨ls, hls, hmap⟩ := Option.bind_eq_some_iff.mp h
    obtain ⟨rest, hrest, rfl⟩ := Option.map_eq_some_iff.mp hmap
    obtain ⟨hnew, hnames⟩ := List.nodup_cons.mp hnames
    rw [bucketsOf_append, bucketsOf_metricLines htells x hls, ih hnames hrest]
    by_cases hm : m.kind = .histogram ∧ m.name = x
    · have hnone : ¬ ∃ m' ∈ ms, m'.kind = .histogram ∧ m'.name = x := by
        rintro ⟨m', hm', -, rfl⟩
        exact hnew (hm.2 ▸ List.mem_map_of_mem hm')
      rw [if_pos hm, if_neg hnone, if_pos ⟨m, List.mem_cons_self, hm⟩, List.append_nil]
    · rw [if_neg hm, List.nil_append]
      refine if_congr ?_ rfl rfl
      constructor
      · rintro ⟨m', hm', h⟩
        exact ⟨m', List.mem_cons_of_mem m hm', h⟩
      · rintro ⟨m', hmem, hm'⟩
        rcases List.mem_cons.mp hmem with rfl | hmem
        · exact absurd hm' hm
        · exact ⟨m', hmem, hm'⟩

theorem allLines_congr (h : ∀ m ∈ ms, m.kind = .histogram → hist m.name = hist' m.name) :
    allLines c hist word ms = allLines c hist' word ms := by
  induction ms with
  | nil => rfl
  | cons m ms ih =>
    have hm : metricLines c hist word m = metricLines c hist' word m := by
      rw [metricLines, metricLines]
      cases hkind : m.kind with
      | histogram => rw [h m List.mem_cons_self hkind]
      | counter => rfl
      | gauge => rfl
    rw [allLines, allLines, hm, ih fun m' hm' => h m' (List.mem_cons_of_mem m hm')]

end AllLines

/-! ## When the export is right -/

/-- The numbers are right for every histogram of the program if and only if its values are
above 95 and can be counted. -/
theorem tells_right {numbers : List Rat → List (String × Int)} {ms : List Metric} {x : String}
    {events : List Event} {ls : List Line} (hist : String → List Line)
    (htells : Tells hist fun name => numbers (values name events))
    {word : String → BitVec 64} (hnames : (ms.map Metric.name).Nodup)
    (h : allLines c hist word ms = some ls) :
    bucketsOf x ls = meant (values x events) ↔
      (∃ m ∈ ms, m.kind = .histogram ∧ m.name = x) ∧
        numbers (values x events) = meant (values x events) := by
  rw [bucketsOf_allLines htells x hnames h]
  split
  · next hm => exact (and_iff_right hm).symm
  · next hm =>
    constructor
    · intro hnil
      rw [meant] at hnil
      cases hnil
    · rintro ⟨h, -⟩
      exact absurd h hm

theorem histograms_right_iff (c : Printf) (bufsz : Nat) (blocks : List (List Metric))
    (events : List Event) : Right c bufsz blocks events ↔ Fits c bufsz blocks events := by
  have hcode : Tells (fun name => histLines c name ((run events).hist name))
      fun name => exported (values name events) := by
    intro x name
    simp only [hist_run]
    exact bucketsOf_histLines x name _
  have hmeant : Tells (fun name => meantLines c name (values name events))
      fun name => meant (values name events) := fun x name => bucketsOf_meantLines x name _
  have hlines : ∀ name, (∀ v ∈ values name events, 95 < v) →
      (values name events).length < 2 ^ 63 →
        histLines c name ((run events).hist name) = meantLines c name (values name events) := by
    intro name habove hfew
    rw [hist_run, histLines_eq, (exported_eq_iff _).mpr ⟨habove, hfew⟩, toInt_ofNat_iff.mpr hfew]
    rfl
  constructor
  · rintro ⟨ls, htext, hright⟩
    rw [metricsFormat] at htext
    split at htext
    · next hcompiles =>
      obtain ⟨all, hall, hbuf⟩ := Option.bind_eq_some_iff.mp htext
      rw [inBuffer] at hbuf
      split at hbuf
      · next hsize =>
        cases hbuf
        have hnames : ((registered blocks).map Metric.name).Nodup := by
          rw [compiles, Bool.and_eq_true, decide_eq_true_eq, decide_eq_true_eq] at hcompiles
          exact hcompiles.2
        have hm : ∀ m ∈ blocks.flatten, m.kind = .histogram →
            (∃ r ∈ registered blocks, r.kind = .histogram ∧ r.name = m.name) ∧
              (∀ v ∈ values m.name events, 95 < v) ∧ (values m.name events).length < 2 ^ 63 := by
          intro m hmem hkind
          rw [← exported_eq_iff]
          exact (tells_right _ hcode hnames hall).mp (hright m hmem hkind).1
        refine ⟨hcompiles, fun m h hk => (hm m h hk).1, fun m h hk => (hm m h hk).2.1,
          fun m h hk => (hm m h hk).2.2, ls, ?_, hsize⟩
        rw [← hall]
        refine (allLines_congr ?_).symm
        intro m hmem hkind
        have hflat := List.mem_of_mem_take hmem
        exact hlines m.name (hm m hflat hkind).2.1 (hm m hflat hkind).2.2
      · cases hbuf
    · cases htext
  · intro h
    obtain ⟨ls, hall, hsize⟩ := h.text
    have hnames : ((registered blocks).map Metric.name).Nodup := by
      have hcompiles := h.compiles
      rw [compiles, Bool.and_eq_true, decide_eq_true_eq, decide_eq_true_eq] at hcompiles
      exact hcompiles.2
    have hsame : allLines c (fun name => histLines c name ((run events).hist name))
        (run events).word (registered blocks) = some ls := by
      rw [← hall]
      refine allLines_congr ?_
      intro m hmem hkind
      have hflat := List.mem_of_mem_take hmem
      exact hlines m.name (h.above m hflat hkind) (h.few m hflat hkind)
    refine ⟨ls, ?_, ?_⟩
    · rw [metricsFormat, if_pos h.compiles, hsame, Option.bind_some, inBuffer, if_pos hsize]
    · intro m hmem hkind
      have hbuckets : bucketsOf m.name ls = meant (values m.name events) :=
        (tells_right _ hmeant hnames hall).mpr ⟨h.registered m hmem hkind, rfl⟩
      exact ⟨hbuckets, hbuckets ▸ meant_sorted _⟩

/-- `metrics { histogram latency "" }`. -/
def latency : List (List Metric) := [[⟨"latency", "", .histogram⟩]]

/-- One value, five: eleven is written for `le = 100`. -/
theorem bucket_twice :
    ¬ ∀ (c : Printf) (bufsz : Nat) (blocks : List (List Metric)) (events : List Event)
      (ls : List Line), metricsFormat c bufsz blocks events = some ls →
        ∀ m ∈ blocks.flatten, m.kind = .histogram →
          bucketsOf m.name ls = meant (values m.name events) := by
  intro h
  let c : Printf := ⟨fun _ _ => some "", fun _ => ""⟩
  let events : List Event := [.observe "latency" 5]
  obtain ⟨ls, hall⟩ : ∃ ls, allLines c
      (fun name => histLines c name ((run events).hist name)) (run events).word
        (registered latency) = some ls := ⟨_, rfl⟩
  have htext : metricsFormat c ((ls.map fun l => l.text.utf8ByteSize).sum + 1) latency events =
      some ls := by
    rw [metricsFormat, if_pos (by decide), hall, Option.bind_some, inBuffer,
      if_pos (Nat.lt_succ_self _)]
  have hcode : Tells (fun name => histLines c name ((run events).hist name))
      fun name => exported (values name events) := by
    intro x name
    simp only [hist_run]
    exact bucketsOf_histLines x name _
  have hthis := h c _ latency events ls htext ⟨"latency", "", .histogram⟩ List.mem_cons_self rfl
  have habove := (exported_eq_iff _).mp
    ((tells_right _ hcode (by decide) hall).mp hthis).2
  have hfive : (95 : Rat) < 5 := habove.1 5 List.mem_cons_self
  norm_num at hfive

end Limceron.C99.Metrics
