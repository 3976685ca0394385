/-
# The reports of `scripts/extract_vcd_activity.py`

`write_outputs` runs once over the signal table: it drops clocks if asked to, writes a
row for every other signal and adds it to its region.  The signal rows are then sorted
and cut, the regions are sorted by name.

The loop is `Job.tally`.  `region_eq_totals` is its closed form: after the loop a region
holds the totals of the kept signals that classify to it.  Everything else about the
region report follows from that.

Activities are rational numbers here, where the script has floats.
-/
import ThermalPlacement.VcdReader
import ThermalPlacement.CategoryTerms
import ThermalPlacement.StableSort

open PyText Vcd

namespace Activity

/-! ## The clock filter -/

/-- `re.IGNORECASE` on the letters of the pattern: upper case, the Kelvin sign and the
long s. -/
def foldCase (c : Char) : Char :=
  if c = 'K' then 'k' else if c = 'ſ' then 's' else c.toLower

/-- `([._]|$)`: `$` also matches before a final line end. -/
def endsField : Str → Bool
  | [] => true
  | ['\n'] => true
  | c :: _ => c == '.' || c == '_'

/-- `(clock|clk|reset)([._]|$)` matches here. -/
def matchesClock (s : Str) : Bool :=
  (["clock", "clk", "reset"].map String.toList).any
    (fun word => (s.take word.length).map foldCase == word && endsField (s.drop word.length))

/-- `[._](clock|clk|reset)([._]|$)` matches somewhere. -/
def clockAfterSeparator : Str → Bool
  | [] => false
  | c :: s => ((c == '.' || c == '_') && matchesClock s) || clockAfterSeparator s

/-- `clock_re.search(path)`. -/
def clockSearch (path : Str) : Bool := matchesClock path || clockAfterSeparator path

/-! ## Rows -/

/-- A row of the signal CSV. -/
structure SignalRow where
  workload : Str
  signalPath : Str
  region : Str
  width : ℤ
  toggleCount : ℕ
  valueChangeCount : ℕ
  timeSteps : ℕ
  lastTimePs : ℤ
  normalizedActivity : ℚ
  deriving DecidableEq

/-- A row of the region CSV. -/
structure RegionRow where
  workload : Str
  region : Str
  signalCount : ℕ
  toggleCount : ℕ
  avgNormalizedActivity : ℚ
  timeSteps : ℕ
  lastTimePs : ℤ
  deriving DecidableEq

/-- What the loop accumulates for a region. -/
structure Region where
  signals : ℕ := 0
  toggles : ℕ := 0
  activitySum : ℚ := 0
  deriving DecidableEq

/-- `signal.toggles / float(denom * max(1, signal.width))`. -/
def normalizedActivity (timeSteps : ℕ) (signal : Signal) : ℚ :=
  signal.toggles / ((max 1 timeSteps : ℤ) * max 1 signal.width : ℤ)

/-- The arguments of `write_outputs` that hold for every row. -/
structure Job where
  timeSteps : ℕ
  lastTime : ℤ
  workload : Str
  terms : Terms
  excludeClocks : Bool

namespace Job

/-- The signal passes the clock filter. -/
def keeps (job : Job) (signal : Signal) : Bool := !(job.excludeClocks && clockSearch signal.path)

/-- The signals that the report is about, in table order. -/
def kept (job : Job) (signals : OrderedDict Str Signal) : List Signal :=
  signals.values.filter job.keeps

theorem mem_kept (job : Job) (signals : OrderedDict Str Signal) (signal : Signal) :
    signal ∈ job.kept signals ↔ signal ∈ signals.values ∧
      ¬ (job.excludeClocks = true ∧ clockSearch signal.path = true) := by
  unfold kept keeps
  rw [List.mem_filter]
  cases job.excludeClocks <;> cases clockSearch signal.path <;> simp

/-- A signal is added to its region. -/
def addSignal (job : Job) (signal : Signal) (item : Region) : Region where
  signals := item.signals + 1
  toggles := item.toggles + signal.toggles
  activitySum := item.activitySum + normalizedActivity job.timeSteps signal

/-- The row of a region in the region CSV. -/
def regionRow (job : Job) (kv : Str × Region) : RegionRow where
  workload := job.workload
  region := kv.1
  signalCount := kv.2.signals
  toggleCount := kv.2.toggles
  avgNormalizedActivity := kv.2.activitySum / (max 1 kv.2.signals : ℕ)
  timeSteps := job.timeSteps
  lastTimePs := job.lastTime

/-! ## Regions -/

/-- Adding a run of signals to a region. -/
theorem foldl_addSignal (job : Job) (signals : List Signal) (item : Region) :
    signals.foldl (fun item signal => job.addSignal signal item) item =
      { signals := item.signals + signals.length
        toggles := item.toggles + (signals.map Signal.toggles).sum
        activitySum := item.activitySum
          + (signals.map (normalizedActivity job.timeSteps)).sum } := by
  induction signals generalizing item with
  | nil => simp
  | cons signal signals ih =>
      rw [List.foldl_cons, ih]
      unfold addSignal
      simp only [List.length_cons, List.map_cons, List.sum_cons, add_assoc, add_comm 1]

/-- `rows` and `region`. -/
structure Tally where
  rows : List SignalRow
  region : OrderedDict Str Region

/-- Every category of the terms has a region, in the order of the terms. -/
def start (job : Job) : Tally where
  rows := []
  region := OrderedDict.empty.setdefaults (job.terms.keys.map (fun category => (category, {})))

theorem mem_keys_start (job : Job) (category : Str) :
    category ∈ job.start.region.keys ↔ category ∈ job.terms.keys := by
  unfold start
  rw [OrderedDict.keys_setdefaults_empty, List.mem_eraseDups, List.map_map]
  simp

theorem get?_start (job : Job) (category : Str) :
    (job.start.region.get? category).getD {} = {} := by
  unfold start
  rw [OrderedDict.get?_setdefaults, OrderedDict.get?_empty, Option.none_or]
  cases hfind : (job.terms.keys.map (fun category => (category, ({} : Region)))).find?
      (fun e => e.1 = category) with
  | none => rfl
  | some e =>
      rcases List.mem_map.mp (List.mem_of_find?_eq_some hfind) with ⟨_, _, rfl⟩
      rfl

variable [PyStr]

/-! ## The loop -/

/-- The region of a signal. -/
def category (job : Job) (signal : Signal) : Str := classify signal.path job.terms

/-- The row of a signal in the signal CSV. -/
def signalRow (job : Job) (signal : Signal) : SignalRow where
  workload := job.workload
  signalPath := signal.path
  region := job.category signal
  width := signal.width
  toggleCount := signal.toggles
  valueChangeCount := signal.changes
  timeSteps := job.timeSteps
  lastTimePs := job.lastTime
  normalizedActivity := normalizedActivity job.timeSteps signal

/-- One turn of the loop. -/
def tally (job : Job) (t : Tally) (signal : Signal) : Tally :=
  if job.keeps signal then
    { rows := t.rows ++ [job.signalRow signal]
      region := t.region.upsert (job.category signal) {} (job.addSignal signal) }
  else t

/-- `write_outputs`: the rows of the signal CSV and of the region CSV. -/
def writeOutputs (job : Job) (signals : OrderedDict Str Signal) (topSignals : ℤ) :
    List SignalRow × List RegionRow :=
  let t := signals.values.foldl job.tally job.start
  let rows := sortedByDesc SignalRow.toggleCount t.rows
  (if 0 < topSignals then rows.take topSignals.toNat else rows,
    (sortedBy Prod.fst t.region.entries).map job.regionRow)

/-- `main`: the reports for a dump and a hierarchy map. -/
def main (document : Option Yaml) (vcd : List UInt8) (workload : Str) (topSignals : ℤ)
    (excludeClocks : Bool) : Except PyError (List SignalRow × List RegionRow) :=
  match iterVcd vcd with
  | .error err => .error err
  | .ok (signals, timeSteps, lastTime) =>
      match loadCategoryTerms document with
      | .error err => .error err
      | .ok terms =>
          .ok (writeOutputs ⟨timeSteps, lastTime, workload, terms, excludeClocks⟩ signals
            topSignals)

/-- What `main` writes is a report on the table that the reader returns. -/
theorem exists_of_main {document : Option Yaml} {vcd : List UInt8} {workload : Str}
    {topSignals : ℤ} {excludeClocks : Bool} {terms : Terms} {out : List SignalRow × List RegionRow}
    (hterms : loadCategoryTerms document = .ok terms)
    (h : main document vcd workload topSignals excludeClocks = .ok out) :
    ∃ signals timeSteps lastTime, iterVcd vcd = .ok (signals, timeSteps, lastTime) ∧
      out = writeOutputs ⟨timeSteps, lastTime, workload, terms, excludeClocks⟩ signals
        topSignals := by
  unfold main at h
  cases hread : iterVcd vcd with
  | error err =>
      rw [hread] at h
      cases h
  | ok r =>
      obtain ⟨signals, timeSteps, lastTime⟩ := r
      rw [hread, hterms] at h
      exact ⟨signals, timeSteps, lastTime, rfl, (Except.ok.inj h).symm⟩

/-! ## The closed form of the loop -/

/-- The kept signals of a region. -/
def members (job : Job) (signals : OrderedDict Str Signal) (category : Str) : List Signal :=
  (job.kept signals).filter (fun signal => job.category signal = category)

/-- The regions after the loop. -/
def region (job : Job) (signals : OrderedDict Str Signal) : OrderedDict Str Region :=
  (signals.values.foldl job.tally job.start).region

/-- Dropped signals leave no trace: the loop only depends on the kept ones. -/
theorem foldl_tally (job : Job) (signals : List Signal) (t : Tally) :
    signals.foldl job.tally t =
      { rows := t.rows ++ (signals.filter job.keeps).map job.signalRow
        region := (signals.filter job.keeps).foldl
          (fun d signal => d.upsert (job.category signal) {} (job.addSignal signal))
          t.region } := by
  induction signals generalizing t with
  | nil => simp
  | cons signal signals ih =>
      rw [List.foldl_cons, ih]
      unfold tally
      by_cases hk : job.keeps signal = true
      · rw [if_pos hk, List.filter_cons_of_pos hk, List.map_cons, List.foldl_cons,
          List.append_assoc, List.singleton_append]
      · rw [if_neg hk, List.filter_cons_of_neg hk]

theorem region_eq (job : Job) (signals : OrderedDict Str Signal) :
    job.region signals = (job.kept signals).foldl
      (fun d signal => d.upsert (job.category signal) {} (job.addSignal signal))
      job.start.region := by
  unfold region
  rw [foldl_tally]
  rfl

/-- The totals of a region. -/
def totals (job : Job) (signals : OrderedDict Str Signal) (category : Str) : Region where
  signals := (job.members signals category).length
  toggles := ((job.members signals category).map Signal.toggles).sum
  activitySum := ((job.members signals category).map (normalizedActivity job.timeSteps)).sum

/-- **The regions.**  There is one for every category of the terms and for every
category that a kept signal goes to. -/
theorem mem_keys_region (job : Job) (signals : OrderedDict Str Signal) (category : Str) :
    category ∈ (job.region signals).keys ↔
      category ∈ job.terms.keys ∨ ∃ signal ∈ job.kept signals, job.category signal = category := by
  rw [region_eq, OrderedDict.mem_keys_foldl_upsert, mem_keys_start, List.mem_map]

/-- **What a region holds**: the totals of its members. -/
theorem region_eq_totals (job : Job) (signals : OrderedDict Str Signal) {kv : Str × Region}
    (hkv : kv ∈ (job.region signals).entries) : kv.2 = job.totals signals kv.1 := by
  have hkey : kv.1 ∈ (job.region signals).keys := List.mem_map_of_mem hkv
  have hget : (job.region signals).get? kv.1 = some kv.2 :=
    (OrderedDict.get?_eq_some_iff _ _ _).mpr hkv
  -- the loop folds exactly the members of a region into its entry
  rw [region_eq, OrderedDict.mem_keys_foldl_upsert] at hkey
  rw [region_eq, OrderedDict.get?_foldl_upsert _ _ _ _ _ hkey, get?_start, foldl_addSignal] at hget
  rw [← Option.some.inj hget]
  simp [totals, members]

/-- The names of the regions, sorted. -/
def regionNames (job : Job) (signals : OrderedDict Str Signal) : List Str :=
  sortedBy id (job.region signals).keys

/-- **The region report**: one row of totals for every region, by name. -/
theorem writeOutputs_regions (job : Job) (signals : OrderedDict Str Signal) (topSignals : ℤ) :
    (job.writeOutputs signals topSignals).2
      = (job.regionNames signals).map
          (fun category => job.regionRow (category, job.totals signals category)) := by
  show (sortedBy Prod.fst (job.region signals).entries).map job.regionRow = _
  unfold regionNames OrderedDict.keys
  rw [← map_sortedBy, List.map_map]
  refine List.map_congr_left (fun kv hkv => ?_)
  have hmem : kv ∈ (job.region signals).entries := mem_sortedBy.mp hkv
  show job.regionRow kv = job.regionRow (kv.1, job.totals signals kv.1)
  rw [← region_eq_totals job signals hmem]

theorem map_region_writeOutputs (job : Job) (signals : OrderedDict Str Signal) (topSignals : ℤ) :
    (job.writeOutputs signals topSignals).2.map RegionRow.region = job.regionNames signals := by
  rw [writeOutputs_regions, List.map_map]
  exact List.map_id _

/-- The signal report: the kept signals, sorted and cut. -/
theorem writeOutputs_signals (job : Job) (signals : OrderedDict Str Signal) (topSignals : ℤ) :
    (job.writeOutputs signals topSignals).1 =
      if 0 < topSignals then
        (sortedByDesc SignalRow.toggleCount ((job.kept signals).map job.signalRow)).take
          topSignals.toNat
      else sortedByDesc SignalRow.toggleCount ((job.kept signals).map job.signalRow) := by
  unfold writeOutputs
  dsimp only
  rw [foldl_tally]
  rfl

theorem nodup_regionNames (job : Job) (signals : OrderedDict Str Signal) :
    (job.regionNames signals).Nodup :=
  nodup_sortedBy (OrderedDict.nodup_keys _)

theorem mem_regionNames (job : Job) (signals : OrderedDict Str Signal) (category : Str) :
    category ∈ job.regionNames signals ↔
      category ∈ job.terms.keys ∨ ∃ signal ∈ job.kept signals, job.category signal = category := by
  rw [← mem_keys_region]
  exact mem_sortedBy

end Job

end Activity
