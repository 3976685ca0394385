/-
# The number of time marks

`write_outputs` divides by `time_steps`, the number of `#` lines, not by the time that the
dump covers.  A `#` line that no value change follows says nothing about the waveform, but
it is counted.

* Toggles, value changes and the final time do not depend on such marks
  (`iterVcd_of_emptyMarks`).
* The reports on one table with different numbers of steps differ by one common factor
  (`writeOutputs_withSteps`); so do the dynamic powers of all blocks.
-/
import ThermalPlacement.ActivityBound

open PyText Vcd

namespace Vcd

/-! ## Marks without changes -/

/-- The integers on the `#` lines. -/
def timestamps (body : List Command) : List ℤ := (timesOf body).reduceOption

/-- `body'` is `body` with one more `#` line at a time between its neighbours.  No value
changes between it and the next mark, and the final timestamp is kept. -/
def EmptyMark (body body' : List Command) : Prop :=
  ∃ u v t, body = u ++ v ∧ body' = u ++ .time (some t) :: v ∧
    (∀ s ∈ (sections v).head?, ∀ code, valuesOf code s = []) ∧
    (∀ p ∈ (timestamps u).getLast?, p ≤ t) ∧ (∀ n ∈ (timestamps v).head?, t ≤ n) ∧
    (timestamps body).getLast? = (timestamps body').getLast?

/-- What the reader sees of a waveform: the values of every code and the final timestamp. -/
def waveform (body : List Command) : (Str → List Str) × Option ℤ :=
  (fun code => valuesOf code body, (timestamps body).getLast?)

/-- An empty mark gives no value to any code. -/
theorem EmptyMark.waveform_eq {body body' : List Command} (h : EmptyMark body body') :
    waveform body' = waveform body := by
  obtain ⟨u, v, t, rfl, rfl, -, -, -, hlast⟩ := h
  refine Prod.ext ?_ hlast.symm
  funext code
  show valuesOf code (u ++ .time (some t) :: v) = valuesOf code (u ++ v)
  rw [valuesOf_append, valuesOf_append]
  rfl

/-- Nor does any number of empty marks, inserted or removed. -/
theorem waveform_eq_of_emptyMarks {body body' : List Command}
    (h : Relation.EqvGen EmptyMark body body') : waveform body' = waveform body := by
  induction h with
  | rel body body' h => exact h.waveform_eq
  | refl body => rfl
  | symm body body' _ ih => exact ih.symm
  | trans body₁ body₂ body₃ _ _ ih ih' => exact ih'.trans ih

/-- **What the reader returns** for two dumps that differ in empty marks: the same table and
the same final time. -/
theorem iterVcd_of_emptyMarks {vcd vcd' : List UInt8} {header body body' : List Command}
    (hvcd : ReadsAs vcd header body) (hvcd' : ReadsAs vcd' header body')
    (h : Relation.EqvGen EmptyMark body body') :
    ∃ signals lastTime, iterVcd vcd = .ok (signals, (timesOf body).length, lastTime) ∧
      iterVcd vcd' = .ok (signals, (timesOf body').length, lastTime) := by
  refine ⟨_, _, iterVcd_of_readsAs hvcd, ?_⟩
  have hwave := waveform_eq_of_emptyMarks h
  have htable : finalTable header body' = finalTable header body := by
    unfold finalTable
    refine OrderedDict.mapVals_congr (fun e _ => ?_)
    rw [show valuesOf e.1 body' = valuesOf e.1 body from congrFun (congrArg Prod.fst hwave) e.1]
  have hlast : (timesOf body').reduceOption.getLast? = (timesOf body).reduceOption.getLast? :=
    congrArg Prod.snd hwave
  rw [iterVcd_of_readsAs hvcd', htable, hlast]

end Vcd

namespace Activity

/-! ## Reports with different numbers of steps -/

/-- The factor between activities over `timeSteps` and over `timeSteps'` steps. -/
def stepRatio (timeSteps timeSteps' : ℕ) : ℚ := (max 1 timeSteps : ℕ) / (max 1 timeSteps' : ℕ)

theorem normalizedActivity_eq_mul_stepRatio (timeSteps timeSteps' : ℕ) (signal : Signal) :
    normalizedActivity timeSteps' signal
      = normalizedActivity timeSteps signal * stepRatio timeSteps timeSteps' := by
  have hpos : (0 : ℚ) < (max 1 timeSteps : ℕ) := by positivity
  have hpos' : (0 : ℚ) < (max 1 timeSteps' : ℕ) := by positivity
  have hwidth : (0 : ℚ) < (max 1 signal.width : ℤ) := by
    have : (0 : ℤ) < max 1 signal.width := by positivity
    exact_mod_cast this
  have hunfold : ∀ n : ℕ, normalizedActivity n signal
      = signal.toggles / ((max 1 n : ℕ) * (max 1 signal.width : ℤ)) := by
    intro n
    unfold normalizedActivity
    push_cast
    rfl
  rw [hunfold, hunfold, stepRatio]
  field_simp

/-- The row of the same signal in a report over `timeSteps` steps. -/
def SignalRow.withSteps (timeSteps : ℕ) (row : SignalRow) : SignalRow :=
  { row with
    timeSteps := timeSteps
    normalizedActivity := row.normalizedActivity * stepRatio row.timeSteps timeSteps }

/-- The row of the same region in a report over `timeSteps` steps. -/
def RegionRow.withSteps (timeSteps : ℕ) (row : RegionRow) : RegionRow :=
  { row with
    timeSteps := timeSteps
    avgNormalizedActivity := row.avgNormalizedActivity * stepRatio row.timeSteps timeSteps }

theorem readRegions_withSteps (timeSteps : ℕ) (rows : List RegionRow) :
    readRegions (rows.map (RegionRow.withSteps timeSteps))
      = (readRegions rows).map (RegionRow.withSteps timeSteps) := by
  have hkey : ∀ row : RegionRow, (row.withSteps timeSteps).region = row.region := fun _ => rfl
  exact (map_sortedBy_of_key hkey rows).symm

/-- The dynamic part of a block's power is rescaled like its activity. -/
theorem blockPower_withSteps (basePower dynamicScale : ℚ) (timeSteps : ℕ) (row : RegionRow) :
    blockPower basePower dynamicScale (row.withSteps timeSteps)
      = basePower + (blockPower basePower dynamicScale row - basePower)
          * stepRatio row.timeSteps timeSteps := by
  unfold blockPower RegionRow.withSteps
  ring

theorem normalizedActivity_eq_zero_iff (timeSteps : ℕ) (signal : Signal) :
    normalizedActivity timeSteps signal = 0 ↔ signal.toggles = 0 := by
  have hpos : (0 : ℤ) < (max 1 timeSteps : ℤ) * max 1 signal.width := by positivity
  have hne : (((max 1 timeSteps : ℤ) * max 1 signal.width : ℤ) : ℚ) ≠ 0 := by
    exact_mod_cast hpos.ne'
  unfold normalizedActivity
  rw [div_eq_zero_iff, or_iff_left hne, Nat.cast_eq_zero]

/-- Activities over two numbers of steps agree if the numbers do, or if nothing toggles. -/
theorem normalizedActivity_eq_iff (timeSteps timeSteps' : ℕ) (signal : Signal) :
    normalizedActivity timeSteps' signal = normalizedActivity timeSteps signal ↔
      max 1 timeSteps' = max 1 timeSteps ∨ signal.toggles = 0 := by
  have hpos' : ((max 1 timeSteps' : ℕ) : ℚ) ≠ 0 := by positivity
  rw [normalizedActivity_eq_mul_stepRatio timeSteps timeSteps', mul_right_eq_self₀,
    normalizedActivity_eq_zero_iff, stepRatio, div_eq_one_iff_eq hpos', Nat.cast_inj,
    eq_comm (a := max 1 timeSteps)]

section

variable [PyStr]

theorem Job.regionNames_withSteps (job : Job) (timeSteps : ℕ) (signals : OrderedDict Str Signal) :
    Job.regionNames { job with timeSteps := timeSteps } signals = job.regionNames signals := by
  unfold Job.regionNames
  rw [Job.region_eq, Job.region_eq, OrderedDict.keys_foldl_upsert, OrderedDict.keys_foldl_upsert]
  rfl

theorem Job.signalRow_withSteps (job : Job) (timeSteps : ℕ) (signal : Signal) :
    Job.signalRow { job with timeSteps := timeSteps } signal
      = (job.signalRow signal).withSteps timeSteps := by
  unfold SignalRow.withSteps Job.signalRow
  rw [← normalizedActivity_eq_mul_stepRatio]
  rfl

/-- Sorting by toggles and cutting the report off do not look at the activity. -/
theorem Job.signals_withSteps (job : Job) (timeSteps : ℕ) (signals : OrderedDict Str Signal)
    (topSignals : ℤ) :
    (Job.writeOutputs { job with timeSteps := timeSteps } signals topSignals).1
      = (job.writeOutputs signals topSignals).1.map (SignalRow.withSteps timeSteps) := by
  have hkey : ∀ row : SignalRow, (row.withSteps timeSteps).toggleCount = row.toggleCount :=
    fun _ => rfl
  have hrows : (Job.kept { job with timeSteps := timeSteps } signals).map
      (Job.signalRow { job with timeSteps := timeSteps })
        = ((job.kept signals).map job.signalRow).map (SignalRow.withSteps timeSteps) := by
    rw [List.map_map]
    exact List.map_congr_left (fun signal _ => job.signalRow_withSteps timeSteps signal)
  have hsorted := map_sortedByDesc_of_key hkey ((job.kept signals).map job.signalRow)
  rw [Job.writeOutputs_signals, Job.writeOutputs_signals, hrows]
  split_ifs
  · rw [List.map_take, hsorted]
  · exact hsorted.symm

theorem Job.activitySum_withSteps (job : Job) (timeSteps : ℕ) (signals : OrderedDict Str Signal)
    (category : Str) :
    (Job.totals { job with timeSteps := timeSteps } signals category).activitySum
      = (job.totals signals category).activitySum * stepRatio job.timeSteps timeSteps := by
  unfold Job.totals
  dsimp only
  rw [← List.sum_map_mul_right]
  congr 1
  exact List.map_congr_left (fun signal _ => normalizedActivity_eq_mul_stepRatio _ _ signal)

theorem Job.regions_withSteps (job : Job) (timeSteps : ℕ) (signals : OrderedDict Str Signal)
    (topSignals : ℤ) :
    (Job.writeOutputs { job with timeSteps := timeSteps } signals topSignals).2
      = (job.writeOutputs signals topSignals).2.map (RegionRow.withSteps timeSteps) := by
  rw [Job.writeOutputs_regions, Job.writeOutputs_regions, Job.regionNames_withSteps, List.map_map]
  refine List.map_congr_left (fun category _ => ?_)
  show Job.regionRow _ (category, Job.totals _ signals category)
    = (job.regionRow (category, job.totals signals category)).withSteps timeSteps
  unfold RegionRow.withSteps Job.regionRow
  dsimp only
  rw [Job.activitySum_withSteps, mul_div_right_comm]
  rfl

/-- **One common factor.**  The reports on one table over different numbers of steps have the
same rows, up to the number of steps and one factor for all activities. -/
theorem Job.writeOutputs_withSteps (job : Job) (timeSteps : ℕ) (signals : OrderedDict Str Signal)
    (topSignals : ℤ) :
    Job.writeOutputs { job with timeSteps := timeSteps } signals topSignals =
      ((job.writeOutputs signals topSignals).1.map (SignalRow.withSteps timeSteps),
        (job.writeOutputs signals topSignals).2.map (RegionRow.withSteps timeSteps)) :=
  Prod.ext (job.signals_withSteps timeSteps signals topSignals)
    (job.regions_withSteps timeSteps signals topSignals)

/-- Every row of a report says over how many steps it counts. -/
theorem Job.timeSteps_of_mem_signals (job : Job) {signals : OrderedDict Str Signal}
    {topSignals : ℤ} {row : SignalRow} (hrow : row ∈ (job.writeOutputs signals topSignals).1) :
    row.timeSteps = job.timeSteps := by
  obtain ⟨omitted, hperm, -⟩ := (selects_writeOutputs job signals topSignals).rest
  obtain ⟨signal, -, rfl⟩ := List.mem_map.mp (hperm.mem_iff.mp (List.mem_append_left omitted hrow))
  rfl

theorem Job.timeSteps_of_mem_regions (job : Job) {signals : OrderedDict Str Signal}
    {topSignals : ℤ} {row : RegionRow} (hrow : row ∈ (job.writeOutputs signals topSignals).2) :
    row.timeSteps = job.timeSteps := by
  rw [Job.writeOutputs_regions] at hrow
  obtain ⟨category, -, rfl⟩ := List.mem_map.mp hrow
  rfl

/-! ## Dumps that differ in empty marks -/

/-- **Empty marks rescale all activities by one factor.**  Two dumps that differ in `#` lines
without changes give the same table and the same final time.  The reports on them have the
same rows up to the number of steps and one factor for all activities, and the dynamic part of
every block power is rescaled by this factor.  A signal keeps its activity exactly if it never
toggles or the numbers of steps agree. -/
theorem reports_of_emptyMarks {vcd vcd' : List UInt8} {header body body' : List Command}
    (hvcd : ReadsAs vcd header body) (hvcd' : ReadsAs vcd' header body')
    (hmarks : Relation.EqvGen EmptyMark body body') (workload : Str) (terms : Terms)
    (topSignals : ℤ) (excludeClocks : Bool) :
    ∃ signals timeSteps timeSteps' lastTime,
      iterVcd vcd = .ok (signals, timeSteps, lastTime) ∧
      iterVcd vcd' = .ok (signals, timeSteps', lastTime) ∧
      (∀ signal ∈ signals.values,
        normalizedActivity timeSteps' signal = normalizedActivity timeSteps signal ↔
          max 1 timeSteps' = max 1 timeSteps ∨ signal.toggles = 0) ∧
      ∀ out out',
        out = Job.writeOutputs ⟨timeSteps, lastTime, workload, terms, excludeClocks⟩ signals
          topSignals →
        out' = Job.writeOutputs ⟨timeSteps', lastTime, workload, terms, excludeClocks⟩ signals
          topSignals →
        out'.1 = out.1.map (fun row => { row with
          timeSteps := timeSteps'
          normalizedActivity := row.normalizedActivity * stepRatio timeSteps timeSteps' }) ∧
        out'.2 = out.2.map (fun row => { row with
          timeSteps := timeSteps'
          avgNormalizedActivity := row.avgNormalizedActivity * stepRatio timeSteps timeSteps' }) ∧
        ∀ basePower dynamicScale : ℚ,
          (readRegions out'.2).map (blockPower basePower dynamicScale)
            = (readRegions out.2).map (fun row => basePower
                + (blockPower basePower dynamicScale row - basePower)
                  * stepRatio timeSteps timeSteps') := by
  obtain ⟨signals, lastTime, hread, hread'⟩ := iterVcd_of_emptyMarks hvcd hvcd' hmarks
  set timeSteps := (timesOf body).length
  set timeSteps' := (timesOf body').length
  refine ⟨signals, timeSteps, timeSteps', lastTime, hread, hread',
    fun signal _ => normalizedActivity_eq_iff timeSteps timeSteps' signal, ?_⟩
  rintro out out' hout hout'
  set job : Job := ⟨timeSteps, lastTime, workload, terms, excludeClocks⟩ with hjob
  have hrescale : out' = (out.1.map (SignalRow.withSteps timeSteps'),
      out.2.map (RegionRow.withSteps timeSteps')) := by
    rw [hout', hout]
    exact job.writeOutputs_withSteps timeSteps' signals topSignals
  have hsignalSteps : ∀ row ∈ out.1, row.timeSteps = timeSteps := by
    rw [hout]
    exact fun row => job.timeSteps_of_mem_signals
  have hregionSteps : ∀ row ∈ out.2, row.timeSteps = timeSteps := by
    rw [hout]
    exact fun row => job.timeSteps_of_mem_regions
  refine ⟨?_, ?_, fun basePower dynamicScale => ?_⟩
  · rw [hrescale]
    refine List.map_congr_left (fun row hrow => ?_)
    rw [SignalRow.withSteps, hsignalSteps row hrow]
  · rw [hrescale]
    refine List.map_congr_left (fun row hrow => ?_)
    rw [RegionRow.withSteps, hregionSteps row hrow]
  · rw [hrescale]
    dsimp only
    rw [readRegions_withSteps, List.map_map]
    refine List.map_congr_left (fun row hrow => ?_)
    show blockPower basePower dynamicScale (row.withSteps timeSteps') = _
    rw [blockPower_withSteps, hregionSteps row (mem_sortedBy.mp hrow)]

end

/-! ## One more mark -/

/-- A one-bit net. -/
def clickHeader : List Command := [.var 1 ['!'] "data".toList]

/-- The net rises at time 10; the dump ends at time 20. -/
def clickBody : List Command :=
  [.time (some 0), .change ['0'] ['!'], .time (some 10), .change ['1'] ['!'], .time (some 20)]

/-- The same with a mark at time 15. -/
def markedClickBody : List Command :=
  [.time (some 0), .change ['0'] ['!'], .time (some 10), .change ['1'] ['!'], .time (some 15),
    .time (some 20)]

/-- A dump of the net. -/
def clickDump (changes : List String) : List UInt8 :=
  linesFile ((["$var wire 1 ! data $end", "$enddefinitions $end"] ++ changes).map String.toList)

theorem readsAs_clickDump :
    ReadsAs (clickDump ["#0", "0!", "#10", "1!", "#20"]) clickHeader clickBody := by
  refine ⟨by simp [clickHeader, Command.InHeader], ["$var wire 1 ! data $end\n".toList],
    "$enddefinitions $end\n".toList,
    ["#0\n", "0!\n", "#10\n", "1!\n", "#20\n"].map String.toList, ?_,
    List.Forall₂.cons rfl List.Forall₂.nil, rfl, rfl⟩
  decide +kernel

theorem readsAs_markedClickDump :
    ReadsAs (clickDump ["#0", "0!", "#10", "1!", "#15", "#20"]) clickHeader markedClickBody := by
  refine ⟨by simp [clickHeader, Command.InHeader], ["$var wire 1 ! data $end\n".toList],
    "$enddefinitions $end\n".toList,
    ["#0\n", "0!\n", "#10\n", "1!\n", "#15\n", "#20\n"].map String.toList, ?_,
    List.Forall₂.cons rfl List.Forall₂.nil, rfl, rfl⟩
  decide +kernel

theorem emptyMark_click : EmptyMark clickBody markedClickBody := by
  refine ⟨[.time (some 0), .change ['0'] ['!'], .time (some 10), .change ['1'] ['!']],
    [.time (some 20)], 15, rfl, rfl, ?_, ?_, ?_, ?_⟩
  · intro s hs code
    obtain rfl : s = [] := (Option.some.inj hs).symm
    rfl
  · decide
  · decide
  · decide

/-- The activities of all signals, and the power of the block that the net belongs to. -/
def clickReport (vcd : List UInt8) : Option (List ℚ × List ℚ) :=
  (@Job.main asciiStr none vcd [] 0 false).toOption.map (fun out =>
    (out.1.map SignalRow.normalizedActivity,
      ((readRegions out.2).filter (fun row => row.region = "other".toList)).map
        (blockPower (1 / 20) 2)))

/-- The mark at time 15 takes the activity from a third to a quarter, and the power with it. -/
theorem emptyMark_changes_activity :
    ReadsAs (clickDump ["#0", "0!", "#10", "1!", "#20"]) clickHeader clickBody ∧
      ReadsAs (clickDump ["#0", "0!", "#10", "1!", "#15", "#20"]) clickHeader markedClickBody ∧
      EmptyMark clickBody markedClickBody ∧
      clickReport (clickDump ["#0", "0!", "#10", "1!", "#20"]) = some ([1 / 3], [43 / 60]) ∧
      clickReport (clickDump ["#0", "0!", "#10", "1!", "#15", "#20"])
        = some ([1 / 4], [11 / 20]) := by
  refine ⟨readsAs_clickDump, readsAs_markedClickDump, emptyMark_click, ?_, ?_⟩ <;> decide +kernel

/-- The two dumps of the net have one table, and the powers of their blocks one ratio. -/
theorem reports_of_emptyMarks_click :
    ∃ signals timeSteps timeSteps' lastTime,
      iterVcd (clickDump ["#0", "0!", "#10", "1!", "#20"]) = .ok (signals, timeSteps, lastTime) ∧
      iterVcd (clickDump ["#0", "0!", "#10", "1!", "#15", "#20"])
        = .ok (signals, timeSteps', lastTime) ∧
      ∀ out out',
        out = @Job.writeOutputs asciiStr ⟨timeSteps, lastTime, [], builtinTerms, false⟩ signals 0 →
        out' = @Job.writeOutputs asciiStr ⟨timeSteps', lastTime, [], builtinTerms, false⟩ signals
          0 →
        (readRegions out'.2).map (blockPower (1 / 20) 2)
          = (readRegions out.2).map (fun row => 1 / 20
              + (blockPower (1 / 20) 2 row - 1 / 20) * stepRatio timeSteps timeSteps') := by
  obtain ⟨signals, timeSteps, timeSteps', lastTime, hread, hread', -, hout⟩ :=
    @reports_of_emptyMarks asciiStr _ _ _ _ _ readsAs_clickDump readsAs_markedClickDump
      (.rel _ _ emptyMark_click) [] builtinTerms 0 false
  exact ⟨signals, timeSteps, timeSteps', lastTime, hread, hread',
    fun out out' h h' => (hout out out' h h').2.2 _ _⟩

end Activity
