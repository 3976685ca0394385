/-
# Floorplan and power trace

`scripts/export_smoke_hotspot_inputs.py` writes the names of the blocks twice, and names,
geometry and powers in three loops of their own.  They agree because all of them run over the
rows in the order of the region names.

Read back by white space, the two files have the same blocks in the same order, and every
power is that of the region it stands under (`floorplan_ptrace_aligned`).
-/
import ThermalPlacement.PrintedNumbers

open PyText

namespace Activity

/-! ## Reading the files -/

/-- A line of tab-separated words. -/
theorem split_tab_line {ws : List Str} (h : ∀ w ∈ ws, IsWord w) :
    split (['\t'].intercalate ws ++ ['\n']) = ws := by
  rw [split_append_space _ rfl, split_intercalate_of_isSpace rfl h]

/-- The columns of a floorplan line. -/
def floorplanColumns (n : ℕ) (name : Str) (idx : ℕ) : List Str :=
  [name, fixed 9 (chipW / n), fixed 9 chipH, fixed 9 (idx * (chipW / n)), "0.000000000".toList]

theorem split_floorplanLine {name : Str} (hname : IsWord name) (n idx : ℕ) :
    split (floorplanLine n name idx) = floorplanColumns n name idx := by
  have hwords : ∀ w ∈ floorplanColumns n name idx, IsWord w := by
    intro w hw
    simp only [floorplanColumns, List.mem_cons, List.not_mem_nil, or_false] at hw
    rcases hw with rfl | rfl | rfl | rfl | rfl
    · exact hname
    · exact isWord_fixed _ _
    · exact isWord_fixed _ _
    · exact isWord_fixed _ _
    · decide
  exact split_tab_line hwords

/-- What the files hold, read back by white space. -/
theorem split_exportSmokeHotspotInputs {rows : List RegionRow} (hrows : rows ≠ [])
    (hwords : ∀ row ∈ rows, IsWord row.region) (basePower dynamicScale : ℚ) :
    ∃ inputs, exportSmokeHotspotInputs rows basePower dynamicScale = .ok inputs ∧
      inputs.floorplan.tail.map split
        = ((readRegions rows).map RegionRow.region).mapIdx
            (fun idx name => floorplanColumns rows.length name idx) ∧
      split inputs.ptraceHeader = (readRegions rows).map RegionRow.region ∧
      split inputs.ptracePowers
        = (readRegions rows).map (fun row => fixed 6 (blockPower basePower dynamicScale row)) := by
  set names := (readRegions rows).map RegionRow.region with hnames
  have hnamesWord : ∀ name ∈ names, IsWord name := by
    intro name hname
    obtain ⟨row, hrow, rfl⟩ := List.mem_map.mp hname
    exact hwords row (mem_sortedBy.mp hrow)
  have hlength : (readRegions rows).length = rows.length := (sortedBy_perm _ rows).length_eq
  unfold exportSmokeHotspotInputs
  dsimp only
  rw [if_neg (fun hnil => hrows ((readRegions_eq_nil_iff rows).mp hnil)), hlength]
  refine ⟨_, rfl, ?_, split_tab_line hnamesWord, ?_⟩
  · dsimp only
    rw [List.tail_cons]
    refine List.ext_getElem (by simp [hnames]) (fun idx hidx _ => ?_)
    rw [List.getElem_map, List.getElem_mapIdx, List.getElem_mapIdx]
    exact split_floorplanLine (hnamesWord _ (List.getElem_mem _)) _ _
  · dsimp only
    rw [List.map_map]
    refine split_tab_line (fun w hw => ?_)
    obtain ⟨row, -, rfl⟩ := List.mem_map.mp hw
    exact isWord_fixed _ _

/-! ## Order and alignment -/

/-- **The files do not depend on the order of the rows.** -/
theorem exportSmokeHotspotInputs_perm {rows rows' : List RegionRow} (hperm : rows'.Perm rows)
    (hnames : (rows.map RegionRow.region).Nodup) (basePower dynamicScale : ℚ) :
    exportSmokeHotspotInputs rows' basePower dynamicScale
      = exportSmokeHotspotInputs rows basePower dynamicScale := by
  have hread : readRegions rows' = readRegions rows :=
    (sortedBy_eq_of_perm hperm.symm hnames).symm
  unfold exportSmokeHotspotInputs
  rw [hread]

/-- **Floorplan and power trace are aligned.**  For region names that are words, all different,
the rows in any order give the same two files.  Read back by white space, the names in the
floorplan are those in the header of the trace, in strict order, with as many powers; the
power under a name is that of its region, rounded to six decimals; and a region with more
activity does not get less power. -/
theorem floorplan_ptrace_aligned {rows rows' : List RegionRow} (hrows : rows ≠ [])
    (hnames : (rows.map RegionRow.region).Nodup) (hwords : ∀ row ∈ rows, IsWord row.region)
    (hperm : rows'.Perm rows) (basePower dynamicScale : ℚ) :
    ∃ inputs, exportSmokeHotspotInputs rows basePower dynamicScale = .ok inputs ∧
      exportSmokeHotspotInputs rows' basePower dynamicScale = .ok inputs ∧
      (inputs.floorplan.tail.map split).map List.head? = (split inputs.ptraceHeader).map some ∧
      (split inputs.ptraceHeader).Pairwise (· < ·) ∧
      (split inputs.ptracePowers).length = (split inputs.ptraceHeader).length ∧
      (∀ (i : ℕ) (name power : Str), (split inputs.ptraceHeader)[i]? = some name →
        (split inputs.ptracePowers)[i]? = some power →
        ∃ row ∈ rows, row.region = name ∧
          readDecimal power = some (printed 6 (blockPower basePower dynamicScale row))) ∧
      (0 ≤ dynamicScale → ∀ row ∈ rows, ∀ row' ∈ rows,
        row.avgNormalizedActivity ≤ row'.avgNormalizedActivity →
        printed 6 (blockPower basePower dynamicScale row)
          ≤ printed 6 (blockPower basePower dynamicScale row')) := by
  obtain ⟨inputs, hinputs, hfloorplan, hheader, hpowers⟩ :=
    split_exportSmokeHotspotInputs hrows hwords basePower dynamicScale
  refine ⟨inputs, hinputs, ?_, ?_, ?_, ?_, ?_, ?_⟩
  · rw [exportSmokeHotspotInputs_perm hperm hnames]
    exact hinputs
  · rw [hfloorplan, hheader]
    refine List.ext_getElem (by simp) (fun idx hidx _ => ?_)
    rw [List.getElem_map, List.getElem_mapIdx, List.getElem_map, List.getElem_map, List.getElem_map]
    rfl
  · rw [hheader]
    exact pairwise_lt_sortedBy hnames
  · rw [hheader, hpowers, List.length_map, List.length_map]
  · intro i name power hname hpower
    rw [hheader, List.getElem?_map, Option.map_eq_some_iff] at hname
    obtain ⟨row, hrow, rfl⟩ := hname
    rw [hpowers, List.getElem?_map, hrow, Option.map_some] at hpower
    obtain rfl := Option.some.inj hpower
    exact ⟨row, mem_sortedBy.mp (List.mem_of_getElem? hrow), rfl, readDecimal_fixed (by decide) _⟩
  · intro hscale row _ row' _ hle
    refine printed_mono 6 ?_
    unfold blockPower
    gcongr

/-- A row with a name and an activity. -/
def activeRegion (name : String) (activity : ℚ) : RegionRow where
  workload := []
  region := name.toList
  signalCount := 1
  toggleCount := 0
  avgNormalizedActivity := activity
  timeSteps := 0
  lastTimePs := 0

/-- Two rows in both orders give the same files. -/
theorem floorplan_ptrace_aligned_two :
    ∃ inputs,
      exportSmokeHotspotInputs [activeRegion "pe" 1, activeRegion "dma" 0] (1 / 20) 2 = .ok inputs ∧
      exportSmokeHotspotInputs [activeRegion "dma" 0, activeRegion "pe" 1] (1 / 20) 2 = .ok inputs ∧
      (split inputs.ptracePowers).length = (split inputs.ptraceHeader).length := by
  have hnames : ([activeRegion "pe" 1, activeRegion "dma" 0].map RegionRow.region).Nodup := by
    decide
  have hwords : ∀ row ∈ [activeRegion "pe" 1, activeRegion "dma" 0], IsWord row.region := by
    decide
  obtain ⟨inputs, hinputs, hinputs', -, -, hlength, -⟩ :=
    floorplan_ptrace_aligned (List.cons_ne_nil _ _) hnames hwords
      (List.Perm.swap (activeRegion "pe" 1) (activeRegion "dma" 0) []) (1 / 20) 2
  exact ⟨inputs, hinputs, hinputs', hlength⟩

/-- An empty name is free of white space, but no word: the other region gets its power. -/
theorem empty_name_misaligned :
    (∀ row ∈ [activeRegion "" 1, activeRegion "dma" 0], ∀ c ∈ row.region, isSpace c = false) ∧
      ([activeRegion "" 1, activeRegion "dma" 0].map RegionRow.region).Nodup ∧
      ∃ inputs,
        exportSmokeHotspotInputs [activeRegion "" 1, activeRegion "dma" 0] (1 / 20) 2 = .ok inputs ∧
        split inputs.ptraceHeader = ["dma".toList] ∧
        split inputs.ptracePowers = ["2.050000".toList, "0.050000".toList] := by
  refine ⟨by decide, by decide, _, rfl, ?_, ?_⟩ <;> decide +kernel

end Activity
