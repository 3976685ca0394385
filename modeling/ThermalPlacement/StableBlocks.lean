/-
# Thermal blocks across workloads

The block columns of two workloads can be compared only if they are the same: issue 18
of `docs/gemmini_thermal_issue_log.md` seeds the regions with all categories of the
hierarchy map for that purpose.  A kept signal that matches no term still opens a
region of its own, `other`, because `region` is a `defaultdict`.

`stableBlocks_iff` says exactly when the blocks of two workloads are the categories of
the map.
-/
import ThermalPlacement.HotspotInputs

open PyText Vcd

namespace Activity

/-! ## Blocks -/

/-- The blocks of two region reports: both list the sorted categories, and the HotSpot
inputs made from them have the same floorplan and the same power trace header. -/
def SameBlocks (terms : Terms) (rows rows' : List RegionRow) : Prop :=
  rows.map RegionRow.region = sortedBy id terms.keys ∧
    rows'.map RegionRow.region = sortedBy id terms.keys ∧
    ∀ basePower dynamicScale basePower' dynamicScale' : ℚ, ∃ inputs inputs',
      exportSmokeHotspotInputs rows basePower dynamicScale = .ok inputs ∧
        exportSmokeHotspotInputs rows' basePower' dynamicScale' = .ok inputs' ∧
        inputs.floorplan = inputs'.floorplan ∧ inputs.ptraceHeader = inputs'.ptraceHeader

/-- Reports with the sorted categories as regions have the same blocks. -/
theorem sameBlocks_of_names {terms : Terms} (hne : terms.keys ≠ []) {rows rows' : List RegionRow}
    (h : rows.map RegionRow.region = sortedBy id terms.keys)
    (h' : rows'.map RegionRow.region = sortedBy id terms.keys) : SameBlocks terms rows rows' := by
  have hrows : ∀ rows : List RegionRow, rows.map RegionRow.region = sortedBy id terms.keys →
      rows ≠ [] := by
    rintro _ hnames rfl
    exact hne (sortedBy_eq_nil_iff.mp hnames.symm)
  refine ⟨h, h', fun basePower dynamicScale basePower' dynamicScale' => ?_⟩
  obtain ⟨inputs, hinputs⟩ := exists_exportSmokeHotspotInputs (hrows rows h) basePower dynamicScale
  obtain ⟨inputs', hinputs'⟩ :=
    exists_exportSmokeHotspotInputs (hrows rows' h') basePower' dynamicScale'
  exact ⟨inputs, inputs', hinputs, hinputs',
    exportSmokeHotspotInputs_congr (h.trans h'.symm) hinputs hinputs'⟩

section

variable [PyStr]

/-! ## Region names -/

/-- A term occurs in the path of the signal. -/
def Known (terms : Terms) (signal : Signal) : Prop :=
  ∃ e ∈ terms.entries, MatchesAny signal.path e.2

instance (terms : Terms) (signal : Signal) : Decidable (Known terms signal) :=
  inferInstanceAs (Decidable (∃ e ∈ terms.entries, _))

/-- Every signal that the clock filter keeps is known, or `other` is a category. -/
def Covered (terms : Terms) (excludeClocks : Bool) (signals : OrderedDict Str Signal) : Prop :=
  "other".toList ∈ terms.keys ∨ ∀ signal ∈ signals.values,
    ¬ (excludeClocks = true ∧ clockSearch signal.path = true) → Known terms signal

/-- **The regions are the categories** exactly if the signals are covered. -/
theorem regionNames_eq_iff (job : Job) (signals : OrderedDict Str Signal) :
    job.regionNames signals = sortedBy id job.terms.keys ↔
      Covered job.terms job.excludeClocks signals := by
  have hcategory : ∀ signal, job.category signal ∈ job.terms.keys ↔
      Known job.terms signal ∨ "other".toList ∈ job.terms.keys :=
    fun signal => classify_mem_keys_iff signal.path job.terms
  constructor
  · intro heq
    by_cases hother : "other".toList ∈ job.terms.keys
    · exact Or.inl hother
    · refine Or.inr (fun signal hsignal hkeep => ?_)
      have hname : job.category signal ∈ job.regionNames signals :=
        (job.mem_regionNames signals _).mpr
          (Or.inr ⟨signal, (job.mem_kept signals signal).mpr ⟨hsignal, hkeep⟩, rfl⟩)
      rw [heq, mem_sortedBy, hcategory] at hname
      rcases hname with hknown | hother'
      · exact hknown
      · exact absurd hother' hother
  · intro hcovered
    have hmem : ∀ signal ∈ job.kept signals, job.category signal ∈ job.terms.keys := by
      intro signal hsignal
      rw [job.mem_kept] at hsignal
      rw [hcategory]
      rcases hcovered with hother | hknown
      · exact Or.inr hother
      · exact Or.inl (hknown signal hsignal.1 hsignal.2)
    have hperm : (job.region signals).keys.Perm job.terms.keys := by
      refine OrderedDict.keys_perm (fun category => ?_)
      rw [job.mem_keys_region]
      constructor
      · rintro (h | ⟨signal, hsignal, rfl⟩)
        · exact h
        · exact hmem signal hsignal
      · exact Or.inl
    exact sortedBy_id_eq_of_perm hperm

/-- The signals of a dump are covered. -/
def DumpCovered (terms : Terms) (excludeClocks : Bool) (vcd : List UInt8) : Prop :=
  ∃ signals timeSteps lastTime, iterVcd vcd = .ok (signals, timeSteps, lastTime) ∧
    Covered terms excludeClocks signals

/-- The regions in a report on a dump are the categories exactly if the dump is
covered. -/
theorem map_region_main_iff {document : Option Yaml} {terms : Terms}
    (hterms : loadCategoryTerms document = .ok terms) {vcd : List UInt8} {workload : Str}
    {topSignals : ℤ} {excludeClocks : Bool} {out : List SignalRow × List RegionRow}
    (h : Job.main document vcd workload topSignals excludeClocks = .ok out) :
    out.2.map RegionRow.region = sortedBy id terms.keys ↔ DumpCovered terms excludeClocks vcd := by
  obtain ⟨signals, timeSteps, lastTime, hread, rfl⟩ := Job.exists_of_main hterms h
  rw [Job.map_region_writeOutputs, regionNames_eq_iff]
  constructor
  · intro hcovered
    exact ⟨signals, timeSteps, lastTime, hread, hcovered⟩
  · rintro ⟨signals', timeSteps', lastTime', hread', hcovered⟩
    rw [hread] at hread'
    cases hread'
    exact hcovered

/-- **Stable blocks.**  The reports on two dumps that are parsed with one hierarchy map
and one clock flag have the categories of the map as blocks exactly if both dumps are
covered: every kept signal has a path in which a term occurs, or `other` is a category
of the map. -/
theorem stableBlocks_iff (document : Option Yaml) (terms : Terms)
    (hterms : loadCategoryTerms document = .ok terms) (excludeClocks : Bool)
    (vcd vcd' : List UInt8) (workload workload' : Str) (topSignals topSignals' : ℤ)
    (out out' : List SignalRow × List RegionRow)
    (h : Job.main document vcd workload topSignals excludeClocks = .ok out)
    (h' : Job.main document vcd' workload' topSignals' excludeClocks = .ok out') :
    SameBlocks terms out.2 out'.2 ↔
      DumpCovered terms excludeClocks vcd ∧ DumpCovered terms excludeClocks vcd' := by
  rw [← map_region_main_iff hterms h, ← map_region_main_iff hterms h']
  constructor
  · rintro ⟨hnames, hnames', -⟩
    exact ⟨hnames, hnames'⟩
  · rintro ⟨hnames, hnames'⟩
    have hne : terms.keys ≠ [] :=
      List.ne_nil_of_mem (builtin_keys_subset hterms "pe_array".toList (by decide))
    exact sameBlocks_of_names hne hnames hnames'

end

/-! ## A net that matches no term -/

/-- A dump that declares one net `top.foo`. -/
def fooDump : List UInt8 :=
  linesFile (["$scope module top $end", "$var wire 1 ! foo $end", "$upscope $end",
    "$enddefinitions $end"].map String.toList)

/-- A dump without nets. -/
def emptyDump : List UInt8 := linesFile (["$enddefinitions $end"].map String.toList)

/-- With the built-in terms the two dumps have different blocks. -/
theorem unstable_blocks_foo :
    ∃ out out', @Job.main asciiStr none fooDump [] 0 true = .ok out ∧
      @Job.main asciiStr none emptyDump [] 0 true = .ok out' ∧
      @loadCategoryTerms asciiStr none = .ok builtinTerms ∧
      ¬ SameBlocks builtinTerms out.2 out'.2 := by
  refine ⟨_, _, rfl, rfl, rfl, ?_⟩
  rintro ⟨hnames, -, -⟩
  exact absurd hnames (by decide +kernel)

/-- A dump that declares one net `top.tile`. -/
def tileDump : List UInt8 :=
  linesFile (["$scope module top $end", "$var wire 1 ! tile $end", "$upscope $end",
    "$enddefinitions $end"].map String.toList)

theorem stableBlocks_iff_tile :
    ∃ out out', @Job.main asciiStr none tileDump [] 0 true = .ok out ∧
      @Job.main asciiStr none emptyDump [] 0 true = .ok out' ∧
      SameBlocks builtinTerms out.2 out'.2 := by
  refine ⟨_, _, rfl, rfl, ?_⟩
  exact (@stableBlocks_iff asciiStr none builtinTerms rfl true tileDump emptyDump [] [] 0 0 _ _ rfl
    rfl).mpr ⟨⟨_, _, _, rfl, Or.inr (by decide +kernel)⟩,
      ⟨_, _, _, rfl, Or.inr (by decide +kernel)⟩⟩

end Activity
