/-
# HotSpot inputs from region rows

`scripts/export_smoke_hotspot_inputs.py`: the rows of the region CSV, sorted by region,
become the blocks of a floorplan of equal vertical stripes and the columns of a power
trace.  Block names and geometry depend only on the region names
(`exportSmokeHotspotInputs_congr`), powers on the activities.

Lengths and powers are rational numbers here, where the script has floats.
-/
import ThermalPlacement.Outputs

open PyText

namespace Activity

/-! ## Fixed-point texts -/

/-- The nearest integer, ties to even. -/
def roundHalfEven (q : ℚ) : ℤ :=
  if q - ⌊q⌋ < 1 / 2 then ⌊q⌋
  else if 1 / 2 < q - ⌊q⌋ then ⌊q⌋ + 1
  else if ⌊q⌋ % 2 = 0 then ⌊q⌋ else ⌊q⌋ + 1

/-- `f"{q:.{digits}f}"`. -/
def fixed (digits : ℕ) (q : ℚ) : Str :=
  let m := (roundHalfEven (|q| * 10 ^ digits)).toNat
  let fraction := Nat.toDigits 10 (m % 10 ^ digits)
  (if q < 0 then ['-'] else []) ++ Nat.toDigits 10 (m / 10 ^ digits)
    ++ '.' :: (List.replicate (digits - fraction.length) '0' ++ fraction)

/-! ## The script -/

/-- `read_regions`. -/
def readRegions (rows : List RegionRow) : List RegionRow := sortedBy RegionRow.region rows

/-- `chip_w`: 4 mm. -/
def chipW : ℚ := 4 / 1000

/-- `chip_h`: 4 mm. -/
def chipH : ℚ := 4 / 1000

/-- A line of the floorplan: the block with index `idx` of `n`. -/
def floorplanLine (n : ℕ) (name : Str) (idx : ℕ) : Str :=
  let blockW := chipW / n
  ['\t'].intercalate [name, fixed 9 blockW, fixed 9 chipH, fixed 9 (idx * blockW),
    "0.000000000".toList] ++ ['\n']

/-- The power of a block. -/
def blockPower (basePower dynamicScale : ℚ) (row : RegionRow) : ℚ :=
  basePower + dynamicScale * row.avgNormalizedActivity

/-- The lines that the script writes. -/
structure HotspotInputs where
  floorplan : List Str
  ptraceHeader : Str
  ptracePowers : Str
  deriving DecidableEq

/-- `main` of the script. -/
def exportSmokeHotspotInputs (regionCsv : List RegionRow) (basePower dynamicScale : ℚ) :
    Except PyError HotspotInputs :=
  let rows := readRegions regionCsv
  if rows = [] then .error .systemExit
  else
    let names := rows.map RegionRow.region
    let powers := rows.map (blockPower basePower dynamicScale)
    .ok
      { floorplan :=
          "# Smoke floorplan generated from VCD activity. Dimensions are meters.\n".toList ::
            names.mapIdx (fun idx name => floorplanLine rows.length name idx)
        ptraceHeader := ['\t'].intercalate names ++ ['\n']
        ptracePowers := ['\t'].intercalate (powers.map (fixed 6)) ++ ['\n'] }

/-! ## Blocks -/

theorem readRegions_eq_nil_iff (rows : List RegionRow) : readRegions rows = [] ↔ rows = [] :=
  sortedBy_eq_nil_iff

/-- The script exits if there is no row, and only then. -/
theorem exists_exportSmokeHotspotInputs {rows : List RegionRow} (h : rows ≠ [])
    (basePower dynamicScale : ℚ) :
    ∃ inputs, exportSmokeHotspotInputs rows basePower dynamicScale = .ok inputs := by
  unfold exportSmokeHotspotInputs
  dsimp only
  rw [if_neg (fun hnil => h ((readRegions_eq_nil_iff rows).mp hnil))]
  exact ⟨_, rfl⟩

/-- **Blocks depend on the region names only.** -/
theorem exportSmokeHotspotInputs_congr {rows rows' : List RegionRow}
    (hnames : rows.map RegionRow.region = rows'.map RegionRow.region)
    {basePower dynamicScale basePower' dynamicScale' : ℚ} {inputs inputs' : HotspotInputs}
    (h : exportSmokeHotspotInputs rows basePower dynamicScale = .ok inputs)
    (h' : exportSmokeHotspotInputs rows' basePower' dynamicScale' = .ok inputs') :
    inputs.floorplan = inputs'.floorplan ∧ inputs.ptraceHeader = inputs'.ptraceHeader := by
  have hsorted : (readRegions rows).map RegionRow.region
      = (readRegions rows').map RegionRow.region := by
    unfold readRegions
    rw [map_sortedBy, map_sortedBy, hnames]
  have hlength : (readRegions rows).length = (readRegions rows').length := by
    have := congrArg List.length hsorted
    simpa using this
  unfold exportSmokeHotspotInputs at h h'
  dsimp only at h h'
  split_ifs at h h' with hnil hnil'
  obtain rfl := Except.ok.inj h
  obtain rfl := Except.ok.inj h'
  dsimp only
  rw [hsorted, hlength]
  exact ⟨rfl, rfl⟩

end Activity
