/-
# From the dump to the power trace

Both scripts in a row, on the texts of the files and with floats: the powers in the trace are
those of the exact report, up to one unit of the last decimal (`power_trace_accurate`).  Floats
are added in the order of the declarations, but the order changes the printed powers by at most
two units (`power_trace_of_declarations`).
-/
import ThermalPlacement.PowerAccuracy
import ThermalPlacement.ActivityCsv

open PyText Vcd

namespace Activity

section

variable [PyStr]

/-! ## The rows of the two reports -/

omit [PyStr] in
/-- Sorting rows that are in order does nothing. -/
theorem readRegions_of_pairwise {rows : List RegionRow}
    (h : (rows.map RegionRow.region).Pairwise (· ≤ ·)) : readRegions rows = rows :=
  List.Pairwise.insertionSort_eq (List.pairwise_map.mp h)

theorem map_region_writeOutputsWith (fl : ℚ → ℚ) (job : Job) (signals : OrderedDict Str Signal)
    (topSignals : ℤ) :
    (job.writeOutputsWith fl signals topSignals).2.map RegionRow.region
      = job.regionNames signals := by
  rw [Job.writeOutputsWith_regions, List.map_map]
  exact List.map_id _

/-- The export does not reorder the report. -/
theorem readRegions_writeOutputsWith (fl : ℚ → ℚ) (job : Job) (signals : OrderedDict Str Signal)
    (topSignals : ℤ) :
    readRegions (job.writeOutputsWith fl signals topSignals).2
      = (job.writeOutputsWith fl signals topSignals).2 := by
  refine readRegions_of_pairwise ?_
  rw [map_region_writeOutputsWith]
  exact pairwise_sortedBy id _

theorem isDouble_writeOutputsWith {job : Job} {signals : OrderedDict Str Signal} {topSignals : ℤ}
    {row : RegionRow} (hrow : row ∈ (job.writeOutputsWith double signals topSignals).2) :
    IsDouble row.avgNormalizedActivity := by
  rw [Job.writeOutputsWith_regions] at hrow
  obtain ⟨category, -, rfl⟩ := List.mem_map.mp hrow
  exact isDouble_double _

theorem isDouble_signalRow {job : Job} {signals : OrderedDict Str Signal} {topSignals : ℤ}
    {row : SignalRow} (hrow : row ∈ (job.writeOutputsWith double signals topSignals).1) :
    IsDouble row.normalizedActivity := by
  rw [Job.writeOutputsWith_signals] at hrow
  have hmem : row ∈ (job.kept signals).map (job.signalRowWith double) := by
    split_ifs at hrow
    · exact (sortedByDesc_perm _ _).mem_iff.mp (List.mem_of_mem_take hrow)
    · exact (sortedByDesc_perm _ _).mem_iff.mp hrow
  obtain ⟨signal, -, rfl⟩ := List.mem_map.mp hmem
  exact isDouble_double _

/-- **The CSV files lose nothing.**  Whatever characters the paths, the regions and the name of
the workload contain, the rows of the reports can be read back from the texts of the two files,
their floats included, as long as no field is longer than the `csv` module reads. -/
theorem extractMain_holds_rows {document : Option Yaml} {vcd : List UInt8} {workload : Str}
    {topSignals : ℤ} {excludeClocks : Bool} {out : List SignalRow × List RegionRow}
    (hout : Job.mainWith double document vcd workload topSignals excludeClocks = .ok out)
    (hfit : ∀ row ∈ out.1, Fit row.fields) (hfit' : ∀ row ∈ out.2, Fit row.fields) :
    ∃ signalText regionText,
      extractMain document vcd workload topSignals excludeClocks = .ok (signalText, regionText) ∧
      tableUnder signalFields SignalRow.ofFields signalText = some out.1 ∧
      tableUnder regionFields RegionRow.ofFields regionText = some out.2 := by
  have hdouble : (∀ row ∈ out.1, IsDouble row.normalizedActivity) ∧
      ∀ row ∈ out.2, IsDouble row.avgNormalizedActivity := by
    unfold Job.mainWith at hout
    split at hout
    · cases hout
    · split at hout
      · cases hout
      · obtain rfl := Except.ok.inj hout
        exact ⟨fun row hrow => isDouble_signalRow hrow,
          fun row hrow => isDouble_writeOutputsWith hrow⟩
  refine ⟨signalCsv out.1, regionCsv out.2, ?_, tableUnder_signalCsv hfit hdouble.1,
    tableUnder_regionCsv hfit' hdouble.2⟩
  rw [extractMain, hout]
  rfl

omit [PyStr] in
theorem extractMain_holds_rows_pulse :
    ∃ out signalText regionText,
      @extractMain asciiStr none pulseDump "smoke, \"a\"".toList 0 false
        = .ok (signalText, regionText) ∧
      tableUnder signalFields SignalRow.ofFields signalText = some out ∧ out ≠ [] := by
  obtain ⟨signalText, regionText, hextract, hsignals, -⟩ :=
    @extractMain_holds_rows asciiStr none pulseDump "smoke, \"a\"".toList 0 false _ rfl
      (by decide +kernel) (by decide +kernel)
  exact ⟨_, signalText, regionText, hextract, hsignals, by decide +kernel⟩

/-! ## The trace -/

/-- A text is a number that differs from `power` by at most one unit of the last decimal. -/
def Shows (power : ℚ) (text : Str) : Prop :=
  ∃ q, readDecimal text = some q ∧ |q - power| ≤ 1 / 10 ^ 6

/-- What the export makes of the region CSV of a dump. -/
def powerTrace (floorplan : List Str) (names powers : List Str) : ExportRun where
  floorplan := some floorplan.flatten
  ptrace := some (['\t'].intercalate names ++ ['\n'] ++ ['\t'].intercalate powers ++ ['\n'])
  outcome := .ok ()

theorem regions_ne_nil {job : Job} (hterms : job.terms.keys ≠ [])
    (signals : OrderedDict Str Signal) (topSignals : ℤ) :
    (job.writeOutputsWith double signals topSignals).2 ≠ [] := by
  obtain ⟨category, hcategory⟩ := List.exists_mem_of_ne_nil _ hterms
  have hmem := (job.mem_regionNames signals category).mpr (Or.inl hcategory)
  intro hnil
  rw [← map_region_writeOutputsWith double job signals topSignals, hnil] at hmem
  cases hmem

theorem keys_ne_nil {document : Option Yaml} {terms : Terms}
    (hterms : loadCategoryTerms document = .ok terms) : terms.keys ≠ [] :=
  List.ne_nil_of_mem (builtin_keys_subset hterms "pe_array".toList (by decide))

/-- **The export of a report.**  The blocks are those of the exact report, and each printed power
shows the exact power of its block. -/
theorem exportMain_regionCsv {job : Job} {signals : OrderedDict Str Signal} {topSignals : ℤ}
    (hterms : job.terms.keys ≠ [])
    (hfit : ∀ row ∈ (job.writeOutputsWith double signals topSignals).2, Fit row.fields)
    {basePower dynamicScale : ℚ} (hbase : 0 ≤ basePower) (hscale : 0 ≤ dynamicScale)
    (hsize : ∀ row ∈ (job.writeOutputs signals topSignals).2,
      (row.signalCount + 7) * (blockPower basePower dynamicScale row + 1) ≤ 2 ^ 31) :
    ∃ powers, exportMain (regionCsv (job.writeOutputsWith double signals topSignals).2) basePower
          dynamicScale
        = powerTrace (floorplanWith double (job.writeOutputs signals topSignals).2)
            (job.regionNames signals) powers ∧
      List.Forall₂ (fun row power => Shows (blockPower basePower dynamicScale row) power)
        (job.writeOutputs signals topSignals).2 powers := by
  set rows := (job.writeOutputsWith double signals topSignals).2 with hrows
  have hnames : rows.map RegionRow.region = job.regionNames signals :=
    map_region_writeOutputsWith double job signals topSignals
  have hexact : (job.writeOutputs signals topSignals).2.map RegionRow.region
      = job.regionNames signals := map_region_writeOutputsWith id job signals topSignals
  have hexport := regionLayout.exportMain_csv (regions_ne_nil hterms signals topSignals) (by decide)
    hfit
    (fun row hrow => isDouble_writeOutputsWith hrow) basePower dynamicScale
  refine ⟨rows.map (fun row => fixed 6 (blockPowerWith double basePower dynamicScale row)), ?_, ?_⟩
  · have hfloorplan : floorplanWith double rows
        = floorplanWith double (job.writeOutputs signals topSignals).2 := by
      unfold floorplanWith
      rw [readRegions_writeOutputsWith, hnames]
      rw [show readRegions (job.writeOutputs signals topSignals).2
        = (job.writeOutputs signals topSignals).2 from
          readRegions_writeOutputsWith id job signals topSignals, hexact]
    have hread : readRegions rows = rows := readRegions_writeOutputsWith double job signals topSignals
    show exportMain (regionLayout.csv rows) basePower dynamicScale = _
    rw [hexport, hread, hnames, hfloorplan, powerTrace, ptraceText, List.map_map]
    rfl
  · -- row by row: the rounded mean, the power computed from it, and its decimals
    rw [hrows, Job.writeOutputsWith_regions, List.map_map]
    rw [show (job.writeOutputs signals topSignals).2 = (job.regionNames signals).map
      (fun category => job.regionRow (category, job.totals signals category)) from
        Job.writeOutputs_regions job signals topSignals] at hsize ⊢
    rw [List.forall₂_map_left_iff, List.forall₂_map_right_iff, List.forall₂_same]
    intro category hcategory
    refine ⟨_, readDecimal_fixed (by decide) _, ?_⟩
    have hactivity : 0 ≤ (job.regionRow (category, job.totals signals category)
        ).avgNormalizedActivity := by
      refine div_nonneg (List.sum_nonneg (fun x hx => ?_)) (by positivity)
      obtain ⟨signal, -, rfl⟩ := List.mem_map.mp hx
      exact normalizedActivity_nonneg _ _
    have hcount : (job.regionRow (category, job.totals signals category)).signalCount
        = (job.members signals category).length := rfl
    have hrow := hsize (job.regionRow (category, job.totals signals category))
      (List.mem_map_of_mem hcategory)
    rw [hcount] at hrow
    have hwithin := within_regionRowWith job signals category
    have hpower := abs_printed_sub_blockPower_le hwithin hactivity hbase hscale hrow
    exact hpower

/-- The export of the region CSV that `main` writes, compared with the exact report. -/
theorem exportMain_of_mainWith {document : Option Yaml} {vcd : List UInt8} {workload : Str}
    {topSignals : ℤ} {excludeClocks : Bool} {out exact : List SignalRow × List RegionRow}
    (hout : Job.mainWith double document vcd workload topSignals excludeClocks = .ok out)
    (hexact : Job.main document vcd workload topSignals excludeClocks = .ok exact)
    (hfit : ∀ row ∈ out.2, Fit row.fields)
    {basePower dynamicScale : ℚ} (hbase : 0 ≤ basePower) (hscale : 0 ≤ dynamicScale)
    (hsize : ∀ row ∈ exact.2,
      (row.signalCount + 7) * (blockPower basePower dynamicScale row + 1) ≤ 2 ^ 31) :
    ∃ powers, exportMain (regionCsv out.2) basePower dynamicScale
        = powerTrace (floorplanWith double exact.2) (exact.2.map RegionRow.region) powers ∧
      List.Forall₂ (fun row power => Shows (blockPower basePower dynamicScale row) power) exact.2
        powers := by
  obtain ⟨job, signals, hterms, rfl, rfl⟩ := Job.exists_of_mainWith hout hexact
  obtain ⟨powers, hexport, hshows⟩ :=
    exportMain_regionCsv (keys_ne_nil hterms) hfit hbase hscale hsize
  rw [← job.map_region_writeOutputs signals topSignals] at hexport
  exact ⟨powers, hexport, hshows⟩

theorem extractMain_of_mainWith {document : Option Yaml} {vcd : List UInt8} {workload : Str}
    {topSignals : ℤ} {excludeClocks : Bool} {out : List SignalRow × List RegionRow}
    (hout : Job.mainWith double document vcd workload topSignals excludeClocks = .ok out) :
    extractMain document vcd workload topSignals excludeClocks
      = .ok (signalCsv out.1, regionCsv out.2) := by
  rw [extractMain, hout]
  rfl

/-- **The power trace is accurate.**  If the fields of the region CSV are no longer than the
`csv` module reads, and the number of signals of a region times its power is below two thousand
million, the export succeeds on the CSV that the extraction writes.  Its blocks are those of the
exact report, and each printed power is the exact power of its block up to one unit of the last
decimal. -/
theorem power_trace_accurate {document : Option Yaml} {vcd : List UInt8} {workload : Str}
    {topSignals : ℤ} {excludeClocks : Bool} {out exact : List SignalRow × List RegionRow}
    (hout : Job.mainWith double document vcd workload topSignals excludeClocks = .ok out)
    (hexact : Job.main document vcd workload topSignals excludeClocks = .ok exact)
    (hfit : ∀ row ∈ out.2, Fit row.fields)
    {basePower dynamicScale : ℚ} (hbase : 0 ≤ basePower) (hscale : 0 ≤ dynamicScale)
    (hsize : ∀ row ∈ exact.2,
      (row.signalCount + 7) * (blockPower basePower dynamicScale row + 1) ≤ 2 ^ 31) :
    ∃ signalText regionText powers,
      extractMain document vcd workload topSignals excludeClocks = .ok (signalText, regionText) ∧
      exportMain regionText basePower dynamicScale
        = powerTrace (floorplanWith double exact.2) (exact.2.map RegionRow.region) powers ∧
      List.Forall₂ (fun row power => Shows (blockPower basePower dynamicScale row) power) exact.2
        powers := by
  obtain ⟨powers, hexport, hshows⟩ := exportMain_of_mainWith hout hexact hfit hbase hscale hsize
  exact ⟨_, _, powers, extractMain_of_mainWith hout, hexport, hshows⟩

omit [PyStr] in
theorem power_trace_accurate_pulse :
    ∃ signalText regionText floorplan names powers,
      @extractMain asciiStr none pulseDump "smoke, \"a\"".toList 0 false
        = .ok (signalText, regionText) ∧
      exportMain regionText (1 / 20) 2 = powerTrace floorplan names powers := by
  obtain ⟨signalText, regionText, powers, hextract, hexport, -⟩ :=
    @power_trace_accurate asciiStr none pulseDump "smoke, \"a\"".toList 0 false _ _ rfl rfl
      (by decide +kernel) (1 / 20) 2 (by norm_num) (by norm_num) (by decide +kernel)
  exact ⟨signalText, regionText, _, _, powers, hextract, hexport⟩

/-- **The order of declarations hardly changes the trace.**  Two dumps with one body whose headers
declare the same set of paths, widths and codes, with first declarations that count alike, give
the same blocks; floats are added in another order, but the printed powers differ by at most two
units of the last decimal. -/
theorem power_trace_of_declarations {vcd vcd' : List UInt8} {header header' body : List Command}
    (hvcd : ReadsAs vcd header body) (hvcd' : ReadsAs vcd' header' body)
    (hset : ∀ d, d ∈ declarations [] header ↔ d ∈ declarations [] header')
    {document : Option Yaml} {terms : Terms} (hterms : loadCategoryTerms document = .ok terms)
    {workload : Str} {topSignals : ℤ} {excludeClocks : Bool}
    (hfirst : FirstDeclarationsAlike terms excludeClocks header header')
    {out out' exact : List SignalRow × List RegionRow}
    (hout : Job.mainWith double document vcd workload topSignals excludeClocks = .ok out)
    (hout' : Job.mainWith double document vcd' workload topSignals excludeClocks = .ok out')
    (hexact : Job.main document vcd workload topSignals excludeClocks = .ok exact)
    (hfit : ∀ row ∈ out.2, Fit row.fields) (hfit' : ∀ row ∈ out'.2, Fit row.fields)
    {basePower dynamicScale : ℚ} (hbase : 0 ≤ basePower) (hscale : 0 ≤ dynamicScale)
    (hsize : ∀ row ∈ exact.2,
      (row.signalCount + 7) * (blockPower basePower dynamicScale row + 1) ≤ 2 ^ 31) :
    ∃ floorplan names powers powers',
      exportMain (regionCsv out.2) basePower dynamicScale = powerTrace floorplan names powers ∧
      exportMain (regionCsv out'.2) basePower dynamicScale = powerTrace floorplan names powers' ∧
      List.Forall₂ (fun power power' => ∃ q q', readDecimal power = some q ∧
        readDecimal power' = some q' ∧ |q - q'| ≤ 2 / 10 ^ 6) powers powers' := by
  set job : Job := ⟨(timesOf body).length, (timesOf body).reduceOption.getLast?.getD 0, workload,
    terms, excludeClocks⟩ with hjob
  have hmain : ∀ {vcd header out}, ReadsAs vcd header body →
      Job.mainWith double document vcd workload topSignals excludeClocks = .ok out →
      out = job.writeOutputsWith double (finalTable header body) topSignals := by
    intro vcd header out hreads h
    unfold Job.mainWith at h
    rw [iterVcd_of_readsAs hreads, hterms] at h
    exact (Except.ok.inj h).symm
  obtain rfl := hmain hvcd hout
  obtain rfl := hmain hvcd' hout'
  have hrows : exact = job.writeOutputs (finalTable header body) topSignals := by
    unfold Job.main at hexact
    rw [iterVcd_of_readsAs hvcd, hterms] at hexact
    exact (Except.ok.inj hexact).symm
  obtain rfl := hrows
  -- both traces show the powers of the one exact report
  have halike : TablesAlike job (finalTable header body) (finalTable header' body) :=
    tablesAlike_finalTable hset hfirst
  have hreport := regions_congr halike topSignals topSignals
  have hne : job.terms.keys ≠ [] := keys_ne_nil hterms
  obtain ⟨powers, hexport, hshows⟩ := exportMain_regionCsv hne hfit hbase hscale hsize
  rw [hreport] at hsize
  obtain ⟨powers', hexport', hshows'⟩ := exportMain_regionCsv hne hfit' hbase hscale hsize
  rw [← job.map_region_writeOutputs _ topSignals] at hexport hexport'
  rw [← hreport] at hexport' hshows'
  refine ⟨_, _, powers, powers', hexport, hexport', ?_⟩
  rw [List.forall₂_iff_get] at hshows hshows' ⊢
  refine ⟨hshows.1.symm.trans hshows'.1, fun i hi hi' => ?_⟩
  have hrow : i < (job.writeOutputs (finalTable header body) topSignals).2.length :=
    hshows.1.symm ▸ hi
  obtain ⟨q, hq, hclose⟩ := hshows.2 i hrow hi
  obtain ⟨q', hq', hclose'⟩ := hshows'.2 i hrow hi'
  refine ⟨q, q', hq, hq', ?_⟩
  rw [abs_le] at hclose hclose' ⊢
  constructor
  · linarith [hclose.1, hclose'.2]
  · linarith [hclose.2, hclose'.1]

omit [PyStr] in
theorem power_trace_of_declarations_swap :
    ∃ out out', @Job.mainWith asciiStr double none (scopesDump (tileUart ['!'] ['%'])) [] 0 true
        = .ok out ∧
      @Job.mainWith asciiStr double none (scopesDump (uartTile ['!'] ['%'])) [] 0 true = .ok out' ∧
      ∃ floorplan names powers powers',
        exportMain (regionCsv out.2) (1 / 20) 2 = powerTrace floorplan names powers ∧
        exportMain (regionCsv out'.2) (1 / 20) 2 = powerTrace floorplan names powers' := by
  refine ⟨_, _, rfl, rfl, ?_⟩
  have hperm := perm_declarations_tileUart ['!'] ['%']
  have hfirst : @FirstDeclarationsAlike asciiStr builtinTerms true
      ((tileUart ['!'] ['%']).map Statement.command)
      ((uartTile ['!'] ['%']).map Statement.command) := by
    -- each code has one declaration, so the first ones are the same
    intro code d d' hd hd'
    have hcode : d.code = d'.code := by
      have h := List.find?_some hd
      have h' := List.find?_some hd'
      rw [decide_eq_true_eq] at h h'
      rw [h, h']
    have hnodup : ((declarations [] ((uartTile ['!'] ['%']).map Statement.command)).map
        Declaration.code).Nodup := by decide
    obtain rfl := List.inj_on_of_nodup_map hnodup (hperm.mem_iff.mp (List.mem_of_find?_eq_some hd))
      (List.mem_of_find?_eq_some hd') hcode
    exact ⟨rfl, Iff.rfl, fun _ => rfl⟩
  obtain ⟨floorplan, names, powers, powers', hexport, hexport', -⟩ :=
    @power_trace_of_declarations asciiStr _ _ _ _ _
      (readsAs_scopesDump (isDeclaration_tileUart _ _) (by decide +kernel))
      (readsAs_scopesDump (isDeclaration_uartTile _ _) (by decide +kernel))
      (fun _ => hperm.mem_iff) none builtinTerms rfl [] 0 true hfirst _ _ _ rfl rfl rfl
      (by decide +kernel) (by decide +kernel) (1 / 20) 2 (by norm_num) (by norm_num)
      (by decide +kernel)
  exact ⟨floorplan, names, powers, powers', hexport, hexport'⟩

end

end Activity
