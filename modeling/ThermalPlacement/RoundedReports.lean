/-
# The reports with rounded arithmetic

`write_outputs` of `scripts/extract_vcd_activity.py` and the power loop of
`scripts/export_smoke_hotspot_inputs.py` once more, every float operation rounded by `fl`.  With
`double` this is what the scripts compute; without rounding it is `Job.writeOutputs`
(`writeOutputsWith_id`).

The loop only differs in the activity that it adds up: the regions are the same, each with the
rounded sum over its members (`writeOutputsWith_regions`).
-/
import ThermalPlacement.ReportTotals
import ThermalPlacement.FloorplanTiling
import ThermalPlacement.RelativeError

open PyText Vcd

namespace Activity

/-- `signal.toggles / float(denom * max(1, signal.width))`.  The number of toggles becomes a
float as well. -/
def normalizedActivityWith (fl : ℚ → ℚ) (timeSteps : ℕ) (signal : Signal) : ℚ :=
  fl (fl signal.toggles / fl ((max 1 timeSteps : ℤ) * max 1 signal.width : ℤ))

/-- The power of a block. -/
def blockPowerWith (fl : ℚ → ℚ) (basePower dynamicScale : ℚ) (row : RegionRow) : ℚ :=
  fl (basePower + fl (dynamicScale * row.avgNormalizedActivity))

namespace Job

/-! ## The loop -/

/-- A signal is added to its region. -/
def addSignalWith (fl : ℚ → ℚ) (job : Job) (signal : Signal) (item : Region) : Region where
  signals := item.signals + 1
  toggles := item.toggles + signal.toggles
  activitySum := fl (item.activitySum + normalizedActivityWith fl job.timeSteps signal)

/-- `item["activity_sum"] / signal_count` in a row of the region CSV. -/
def regionRowWith (fl : ℚ → ℚ) (job : Job) (kv : Str × Region) : RegionRow :=
  { job.regionRow kv with
    avgNormalizedActivity := fl (kv.2.activitySum / fl (max 1 kv.2.signals : ℕ)) }

theorem foldl_addSignalWith (fl : ℚ → ℚ) (job : Job) (signals : List Signal) (item : Region) :
    signals.foldl (fun item signal => job.addSignalWith fl signal item) item =
      { signals := item.signals + signals.length
        toggles := item.toggles + (signals.map Signal.toggles).sum
        activitySum := (signals.map (normalizedActivityWith fl job.timeSteps)).foldl
          (fun s x => fl (s + x)) item.activitySum } := by
  induction signals generalizing item with
  | nil => rfl
  | cons signal signals ih =>
      rw [List.foldl_cons, ih]
      unfold addSignalWith
      simp only [List.length_cons, List.map_cons, List.sum_cons, List.foldl_cons, add_assoc,
        add_comm 1]

variable [PyStr]

/-- The row of a signal, with the activity that the script computes. -/
def signalRowWith (fl : ℚ → ℚ) (job : Job) (signal : Signal) : SignalRow :=
  { job.signalRow signal with
    normalizedActivity := normalizedActivityWith fl job.timeSteps signal }

/-- One turn of the loop. -/
def tallyWith (fl : ℚ → ℚ) (job : Job) (t : Tally) (signal : Signal) : Tally :=
  if job.keeps signal then
    { rows := t.rows ++ [job.signalRowWith fl signal]
      region := t.region.upsert (job.category signal) {} (job.addSignalWith fl signal) }
  else t

/-- `write_outputs`: the rows of the signal CSV and of the region CSV. -/
def writeOutputsWith (fl : ℚ → ℚ) (job : Job) (signals : OrderedDict Str Signal)
    (topSignals : ℤ) : List SignalRow × List RegionRow :=
  let t := signals.values.foldl (job.tallyWith fl) job.start
  let rows := sortedByDesc SignalRow.toggleCount t.rows
  (if 0 < topSignals then rows.take topSignals.toNat else rows,
    (sortedBy Prod.fst t.region.entries).map (job.regionRowWith fl))

/-- **Without rounding it is the report with exact numbers.** -/
theorem writeOutputsWith_id (job : Job) (signals : OrderedDict Str Signal) (topSignals : ℤ) :
    job.writeOutputsWith id signals topSignals = job.writeOutputs signals topSignals := rfl

/-- `main`. -/
def mainWith (fl : ℚ → ℚ) (document : Option Yaml) (vcd : List UInt8) (workload : Str)
    (topSignals : ℤ) (excludeClocks : Bool) : Except PyError (List SignalRow × List RegionRow) :=
  match iterVcd vcd with
  | .error err => .error err
  | .ok (signals, timeSteps, lastTime) =>
      match loadCategoryTerms document with
      | .error err => .error err
      | .ok terms =>
          .ok (writeOutputsWith fl ⟨timeSteps, lastTime, workload, terms, excludeClocks⟩ signals
            topSignals)

/-- What both reports of a dump are about. -/
theorem exists_of_mainWith {fl : ℚ → ℚ} {document : Option Yaml} {vcd : List UInt8} {workload : Str}
    {topSignals : ℤ} {excludeClocks : Bool} {out exact : List SignalRow × List RegionRow}
    (hout : mainWith fl document vcd workload topSignals excludeClocks = .ok out)
    (hexact : main document vcd workload topSignals excludeClocks = .ok exact) :
    ∃ job signals, loadCategoryTerms document = .ok job.terms ∧
      out = writeOutputsWith fl job signals topSignals ∧
      exact = writeOutputs job signals topSignals := by
  unfold mainWith at hout
  unfold main at hexact
  cases hread : iterVcd vcd with
  | error err =>
      rw [hread] at hout
      cases hout
  | ok r =>
      obtain ⟨signals, timeSteps, lastTime⟩ := r
      cases hterms : loadCategoryTerms document with
      | error err =>
          rw [hread, hterms] at hout
          cases hout
      | ok terms =>
          rw [hread, hterms] at hout hexact
          exact ⟨⟨timeSteps, lastTime, workload, terms, excludeClocks⟩, signals, rfl,
            (Except.ok.inj hout).symm, (Except.ok.inj hexact).symm⟩

/-! ## The closed form of the loop -/

/-- The regions after the loop. -/
def regionWith (fl : ℚ → ℚ) (job : Job) (signals : OrderedDict Str Signal) :
    OrderedDict Str Region :=
  (signals.values.foldl (job.tallyWith fl) job.start).region

theorem foldl_tallyWith (fl : ℚ → ℚ) (job : Job) (signals : List Signal) (t : Tally) :
    signals.foldl (job.tallyWith fl) t =
      { rows := t.rows ++ (signals.filter job.keeps).map (job.signalRowWith fl)
        region := (signals.filter job.keeps).foldl
          (fun d signal => d.upsert (job.category signal) {} (job.addSignalWith fl signal))
          t.region } := by
  induction signals generalizing t with
  | nil => simp
  | cons signal signals ih =>
      rw [List.foldl_cons, ih]
      unfold tallyWith
      by_cases hk : job.keeps signal = true
      · rw [if_pos hk, List.filter_cons_of_pos hk, List.map_cons, List.foldl_cons,
          List.append_assoc, List.singleton_append]
      · rw [if_neg hk, List.filter_cons_of_neg hk]

theorem regionWith_eq (fl : ℚ → ℚ) (job : Job) (signals : OrderedDict Str Signal) :
    job.regionWith fl signals = (job.kept signals).foldl
      (fun d signal => d.upsert (job.category signal) {} (job.addSignalWith fl signal))
      job.start.region := by
  unfold regionWith
  rw [foldl_tallyWith]
  rfl

/-- Rounding does not change which regions there are. -/
theorem keys_regionWith (fl : ℚ → ℚ) (job : Job) (signals : OrderedDict Str Signal) :
    (job.regionWith fl signals).keys = (job.region signals).keys := by
  rw [regionWith_eq, region_eq, OrderedDict.keys_foldl_upsert, OrderedDict.keys_foldl_upsert]

/-- The totals of a region: the activities of its members are added in the order of the table. -/
def totalsWith (fl : ℚ → ℚ) (job : Job) (signals : OrderedDict Str Signal) (category : Str) :
    Region where
  signals := (job.members signals category).length
  toggles := ((job.members signals category).map Signal.toggles).sum
  activitySum := sumWith fl
    ((job.members signals category).map (normalizedActivityWith fl job.timeSteps))

theorem regionWith_eq_totalsWith (fl : ℚ → ℚ) (job : Job) (signals : OrderedDict Str Signal)
    {kv : Str × Region} (hkv : kv ∈ (job.regionWith fl signals).entries) :
    kv.2 = job.totalsWith fl signals kv.1 := by
  have hkey : kv.1 ∈ (job.regionWith fl signals).keys := List.mem_map_of_mem hkv
  have hget : (job.regionWith fl signals).get? kv.1 = some kv.2 :=
    (OrderedDict.get?_eq_some_iff _ _ _).mpr hkv
  rw [regionWith_eq, OrderedDict.mem_keys_foldl_upsert] at hkey
  rw [regionWith_eq, OrderedDict.get?_foldl_upsert _ _ _ _ _ hkey, get?_start,
    foldl_addSignalWith] at hget
  rw [← Option.some.inj hget]
  simp [totalsWith, members, sumWith]

/-- **The region report**: the regions of the exact report, with rounded means. -/
theorem writeOutputsWith_regions (fl : ℚ → ℚ) (job : Job) (signals : OrderedDict Str Signal)
    (topSignals : ℤ) :
    (job.writeOutputsWith fl signals topSignals).2
      = (job.regionNames signals).map
          (fun category => job.regionRowWith fl (category, job.totalsWith fl signals category)) := by
  show (sortedBy Prod.fst (job.regionWith fl signals).entries).map (job.regionRowWith fl) = _
  rw [regionNames, ← keys_regionWith fl, OrderedDict.keys, ← map_sortedBy, List.map_map]
  refine List.map_congr_left (fun kv hkv => ?_)
  have hmem : kv ∈ (job.regionWith fl signals).entries := mem_sortedBy.mp hkv
  show job.regionRowWith fl kv = job.regionRowWith fl (kv.1, job.totalsWith fl signals kv.1)
  rw [← regionWith_eq_totalsWith fl job signals hmem]

/-- **The signal report**: the kept signals, sorted and cut. -/
theorem writeOutputsWith_signals (fl : ℚ → ℚ) (job : Job) (signals : OrderedDict Str Signal)
    (topSignals : ℤ) :
    (job.writeOutputsWith fl signals topSignals).1 =
      if 0 < topSignals then
        (sortedByDesc SignalRow.toggleCount ((job.kept signals).map (job.signalRowWith fl))).take
          topSignals.toNat
      else sortedByDesc SignalRow.toggleCount ((job.kept signals).map (job.signalRowWith fl)) := by
  unfold writeOutputsWith
  dsimp only
  rw [foldl_tallyWith]
  rfl

end Job

end Activity
