/-
# Does the floorplan tile the chip?

`scripts/export_smoke_hotspot_inputs.py` cuts a chip of 4 mm by 4 mm into vertical stripes of
equal width and prints every width and every left edge with nine decimals, each rounded on its
own.  The printed numbers are read back here as exact numbers.

All printed widths are the same number of nanometres, so stripes that meet add up to a
multiple of it: `tiles_iff` says that the blocks tile the chip exactly if their number
divides 4000000.  The script computes with doubles.  `floorplanWith` is its floorplan for any
way to round the results of float operations, and the rounding of doubles makes no difference
to the answer.
-/
import ThermalPlacement.PrintedNumbers
import ThermalPlacement.Stripes

open PyText

namespace Activity

/-! ## The script with rounded arithmetic -/

/-- A line of the floorplan, every float of the script rounded by `fl`. -/
def floorplanLineWith (fl : ℚ → ℚ) (n : ℕ) (name : Str) (idx : ℕ) : Str :=
  let blockW := fl (fl chipW / n)
  ['\t'].intercalate [name, fixed 9 blockW, fixed 9 (fl chipH), fixed 9 (fl (idx * blockW)),
    "0.000000000".toList] ++ ['\n']

/-- The lines of the floorplan. -/
def floorplanWith (fl : ℚ → ℚ) (regionCsv : List RegionRow) : List Str :=
  let names := (readRegions regionCsv).map RegionRow.region
  "# Smoke floorplan generated from VCD activity. Dimensions are meters.\n".toList ::
    names.mapIdx (fun idx name => floorplanLineWith fl names.length name idx)

/-- Without rounding it is the floorplan that the script exports. -/
theorem floorplan_exportSmokeHotspotInputs {rows : List RegionRow} {basePower dynamicScale : ℚ}
    {inputs : HotspotInputs}
    (h : exportSmokeHotspotInputs rows basePower dynamicScale = .ok inputs) :
    inputs.floorplan = floorplanWith id rows := by
  unfold exportSmokeHotspotInputs at h
  dsimp only at h
  split_ifs at h
  obtain rfl := Except.ok.inj h
  unfold floorplanWith
  dsimp only
  rw [List.length_map]
  rfl

/-! ## Reading the floorplan -/

/-- The last four columns of a line, whatever the name in front of them is. -/
def readBlock (line : Str) : Option (Block ℚ) :=
  match (line.dropLast.splitOn '\t').reverse with
  | bottom :: left :: height :: width :: _ => do
      let width ← readDecimal width
      let height ← readDecimal height
      let left ← readDecimal left
      let bottom ← readDecimal bottom
      return { width := width, height := height, left := left, bottom := bottom }
  | _ => none

/-- The blocks below the comment line. -/
def readFloorplan (lines : List Str) : Option (List (Block ℚ)) := lines.tail.mapM readBlock

/-- The block that a line stands for. -/
def blockWith (fl : ℚ → ℚ) (n idx : ℕ) : Block ℚ where
  width := printed 9 (fl (fl chipW / n))
  height := printed 9 (fl chipH)
  left := printed 9 (fl (idx * fl (fl chipW / n)))
  bottom := 0

theorem tab_notMem_fixed (digits : ℕ) (q : ℚ) : '\t' ∉ fixed digits q :=
  fun h => absurd ((isWord_fixed digits q).2 '\t' h) (by decide)

theorem readBlock_floorplanLineWith (fl : ℚ → ℚ) (n : ℕ) (name : Str) (idx : ℕ) :
    readBlock (floorplanLineWith fl n name idx) = some (blockWith fl n idx) := by
  set blockW := fl (fl chipW / n) with hblockW
  set columns : List Str := [fixed 9 blockW, fixed 9 (fl chipH), fixed 9 (fl (idx * blockW)),
    "0.000000000".toList] with hcolumns
  have hline : (floorplanLineWith fl n name idx).dropLast
      = name ++ '\t' :: ['\t'].intercalate columns := by
    unfold floorplanLineWith
    dsimp only
    rw [List.dropLast_concat, List.intercalate_cons_cons, List.append_assoc,
      List.singleton_append]
  have htab : ∀ column ∈ columns, '\t' ∉ column := by
    simp only [hcolumns, List.forall_mem_cons, List.not_mem_nil, false_implies, implies_true,
      and_true]
    exact ⟨tab_notMem_fixed _ _, tab_notMem_fixed _ _, tab_notMem_fixed _ _, by decide⟩
  have hbottom : readDecimal "0.000000000".toList = some 0 := by decide +kernel
  unfold readBlock
  rw [hline, List.splitOn_append_cons_self, List.splitOn_intercalate '\t' htab (by simp [hcolumns]),
    List.reverse_append, hcolumns]
  show (do
    let width ← readDecimal (fixed 9 blockW)
    let height ← readDecimal (fixed 9 (fl chipH))
    let left ← readDecimal (fixed 9 (fl (idx * blockW)))
    let bottom ← readDecimal "0.000000000".toList
    return ({ width := width, height := height, left := left, bottom := bottom } : Block ℚ)) = _
  rw [readDecimal_fixed (by decide), readDecimal_fixed (by decide), readDecimal_fixed (by decide),
    hbottom]
  rfl

/-- **The blocks of a floorplan.** -/
theorem readFloorplan_floorplanWith (fl : ℚ → ℚ) (rows : List RegionRow) :
    readFloorplan (floorplanWith fl rows)
      = some ((List.range rows.length).map (blockWith fl rows.length)) := by
  set names := (readRegions rows).map RegionRow.region with hnames
  have hlength : names.length = rows.length := by
    rw [hnames, List.length_map]
    exact (sortedBy_perm _ rows).length_eq
  have hread : readBlock ∘ (fun p : Str × ℕ => floorplanLineWith fl names.length p.1 p.2)
      = fun p => pure (blockWith fl names.length p.2) := by
    funext p
    exact readBlock_floorplanLineWith fl names.length p.1 p.2
  show (names.mapIdx (fun idx name => floorplanLineWith fl names.length name idx)).mapM readBlock
    = _
  rw [List.mapIdx_eq_zipIdx_map, List.mapM_map]
  show names.zipIdx.mapM
    (readBlock ∘ (fun p : Str × ℕ => floorplanLineWith fl names.length p.1 p.2)) = _
  rw [hread, List.mapM_pure, ← hlength, List.range_eq_range', ← List.zipIdx_map_snd 0 names,
    List.map_map]
  rfl

/-! ## Nanometres -/

/-- A rounding with the relative error of a double. -/
def Rounds (fl : ℚ → ℚ) : Prop := ∀ q, |fl q - q| ≤ |q| / 2 ^ 53

theorem rounds_id : Rounds id := fun q => by
  rw [id, sub_self, abs_zero]
  positivity

theorem rounds_double : Rounds double := abs_double_sub_le

/-- `a` is what at most `k` roundings can make of `b`. -/
def Near (k : ℕ) (a b : ℚ) : Prop := |a - b| ≤ k * (2 / 2 ^ 53) * |b|

theorem Near.refl (a : ℚ) : Near 0 a a := by
  unfold Near
  rw [sub_self, abs_zero]
  positivity

theorem Near.mono {k m : ℕ} {a b : ℚ} (h : Near k a b) (hkm : k ≤ m) : Near m a b := by
  have hcast : (k : ℚ) ≤ m := by exact_mod_cast hkm
  refine le_trans h ?_
  gcongr

theorem Near.mul_left {k : ℕ} {a b : ℚ} (h : Near k a b) (c : ℚ) : Near k (c * a) (c * b) := by
  unfold Near
  rw [← mul_sub, abs_mul, abs_mul, mul_left_comm]
  exact mul_le_mul_of_nonneg_left h (abs_nonneg c)

theorem Near.div {k : ℕ} {a b : ℚ} (h : Near k a b) (c : ℚ) : Near k (a / c) (b / c) := by
  rw [div_eq_inv_mul, div_eq_inv_mul]
  exact h.mul_left c⁻¹

/-- One more rounding: as the error so far is no larger than `b`, it costs two units of `b`. -/
theorem Rounds.near {fl : ℚ → ℚ} (hfl : Rounds fl) {k : ℕ} (hk : k ≤ 2 ^ 52) {a b : ℚ}
    (h : Near k a b) : Near (k + 1) (fl a) b := by
  have hround := hfl a
  have ha : |a| ≤ 2 * |b| := by
    have hsplit : |a| ≤ |a - b| + |b| := by
      simpa using abs_add_le (a - b) b
    have hunit : (k : ℚ) * (2 / 2 ^ 53) ≤ 1 := by
      have hcast : (k : ℚ) ≤ 2 ^ 52 := by exact_mod_cast hk
      linarith
    have hle : k * (2 / 2 ^ 53) * |b| ≤ 1 * |b| := mul_le_mul_of_nonneg_right hunit (abs_nonneg b)
    have herror : |a - b| ≤ k * (2 / 2 ^ 53) * |b| := h
    linarith
  calc |fl a - b| ≤ |fl a - a| + |a - b| := abs_sub_le _ _ _
    _ ≤ 2 * |b| / 2 ^ 53 + k * (2 / 2 ^ 53) * |b| := by
        have hle : |a| / 2 ^ 53 ≤ 2 * |b| / 2 ^ 53 := by gcongr
        exact add_le_add (hround.trans hle) h
    _ = (k + 1 : ℕ) * (2 / 2 ^ 53) * |b| := by
        push_cast
        ring

/-- A number close to a multiple of a nanometre is printed as that multiple. -/
theorem Near.printed_eq {q : ℚ} {k : ℕ} (hk : k ≤ 4000000) (h : Near 3 q (k / 10 ^ 9)) :
    printed 9 q = k / 10 ^ 9 := by
  have hk' : (k : ℚ) ≤ 4000000 := by exact_mod_cast hk
  have hround : roundHalfEven (q * 10 ^ 9) = (k : ℤ) := by
    apply roundHalfEven_eq_of_abs_lt
    have hscale : q * 10 ^ 9 - ((k : ℤ) : ℚ) = (q - k / 10 ^ 9) * 10 ^ 9 := by
      push_cast
      ring
    rw [hscale, abs_mul, abs_of_pos (by positivity : (0 : ℚ) < 10 ^ 9)]
    unfold Near at h
    rw [abs_of_nonneg (by positivity : (0 : ℚ) ≤ k / 10 ^ 9)] at h
    have hbound : |q - (k : ℚ) / 10 ^ 9| * 10 ^ 9
        ≤ (3 : ℕ) * (2 / 2 ^ 53) * ((k : ℚ) / 10 ^ 9) * 10 ^ 9 := by
      gcongr
    push_cast at hbound
    linarith
  unfold printed
  rw [hround]
  push_cast
  rfl

/-! ## The exact condition -/

/-- The blocks fill the chip from left to right: the first one starts at `0`, each one begins
where the one before it ends, the last one ends at the right edge, and all span the height. -/
structure TilesChip (blocks : List (Block ℚ)) : Prop where
  first : ∀ b ∈ blocks.head?, b.left = 0
  meet : blocks.IsChain (fun a b => a.left + a.width = b.left)
  last : ∀ b ∈ blocks.getLast?, b.left + b.width = chipW
  span : ∀ b ∈ blocks, b.bottom = 0 ∧ b.height = chipH

theorem tilesChip_iff {blocks : List (Block ℚ)} (hne : blocks ≠ []) :
    TilesChip blocks ↔ EndToEnd 0 blocks chipW ∧ ∀ b ∈ blocks, b.bottom = 0 ∧ b.height = chipH := by
  rw [endToEnd_iff hne]
  constructor
  · exact fun h => ⟨⟨h.first, h.meet, h.last⟩, h.span⟩
  · exact fun h => ⟨h.1.1, h.1.2.1, h.1.2.2, h.2⟩

/-- The blocks are disjoint, and together they are the chip. -/
def FillChip (blocks : List (Block ℚ)) : Prop :=
  blocks.Pairwise (fun a b => Disjoint a.area b.area) ∧
    (⋃ b ∈ blocks, b.area) = Set.Ico 0 chipW ×ˢ Set.Ico 0 chipH

/-- Blocks that tile the chip do not overlap and leave no gap. -/
theorem TilesChip.fillChip {blocks : List (Block ℚ)} (h : TilesChip blocks) (hne : blocks ≠ [])
    (hwidth : ∀ b ∈ blocks, 0 ≤ b.width) : FillChip blocks := by
  have harea := ((tilesChip_iff hne).mp h).1.area hwidth h.span
  rw [zero_add] at harea
  exact harea

theorem Rounds.nonneg {fl : ℚ → ℚ} (hfl : Rounds fl) {q : ℚ} (hq : 0 ≤ q) : 0 ≤ fl q := by
  have hround := hfl q
  rw [abs_of_nonneg hq, abs_le] at hround
  have hle : q / 2 ^ 53 ≤ q := div_le_self hq (by norm_num)
  linarith

theorem width_nonneg {fl : ℚ → ℚ} (hfl : Rounds fl) (n : ℕ) :
    ∀ b ∈ (List.range n).map (blockWith fl n), 0 ≤ b.width := by
  intro b hb
  obtain ⟨idx, -, rfl⟩ := List.mem_map.mp hb
  have hchip : 0 ≤ fl chipW := hfl.nonneg (by norm_num [chipW])
  have hblockW : 0 ≤ fl (fl chipW / n) := hfl.nonneg (by positivity)
  have hzero : printed 9 0 = 0 := by decide +kernel
  rw [← hzero]
  exact printed_mono 9 hblockW

/-- If `n` divides 4000000, all numbers are whole nanometres and printed as they are. -/
theorem blockWith_eq {fl : ℚ → ℚ} (hfl : Rounds fl) {n k idx : ℕ} (hk : n * k = 4000000)
    (hidx : idx ≤ n) :
    blockWith fl n idx = ⟨k / 10 ^ 9, chipH, idx • ((k : ℚ) / 10 ^ 9), 0⟩ := by
  have hn : 0 < n := by
    rcases Nat.eq_zero_or_pos n with rfl | hn
    · omega
    · exact hn
  have hnq : (0 : ℚ) < n := by exact_mod_cast hn
  have hstripe : chipW / n = (k : ℚ) / 10 ^ 9 := by
    have hkq : (n : ℚ) * k = 4000000 := by exact_mod_cast hk
    unfold chipW
    field_simp
    linarith
  -- the literal, the quotient and the product are rounded one after the other
  have hchip : Near 1 (fl chipW) chipW := hfl.near (Nat.zero_le _) (Near.refl chipW)
  have hwidth : Near 2 (fl (fl chipW / n)) (k / 10 ^ 9) := by
    rw [← hstripe]
    exact hfl.near (by norm_num) (hchip.div n)
  have hleft : Near 3 (fl (idx * fl (fl chipW / n))) ((idx * k : ℕ) / 10 ^ 9) := by
    rw [Nat.cast_mul, mul_div_assoc]
    exact hfl.near (by norm_num) (hwidth.mul_left idx)
  have hkle : k ≤ 4000000 := hk ▸ Nat.le_mul_of_pos_left k hn
  have hidxk : idx * k ≤ 4000000 := hk ▸ Nat.mul_le_mul_right k hidx
  have hheight : printed 9 (fl chipH) = chipH := by
    have hchipH : chipH = ((4000000 : ℕ) : ℚ) / 10 ^ 9 := by norm_num [chipH]
    have hnear : Near 3 (fl chipH) chipH := hchip.mono (by norm_num)
    rw [hchipH] at hnear ⊢
    exact hnear.printed_eq le_rfl
  unfold blockWith
  rw [(hwidth.mono (by norm_num)).printed_eq hkle, hleft.printed_eq hidxk, hheight, nsmul_eq_mul,
    ← mul_div_assoc]
  push_cast
  rfl

/-- **A floorplan of `n` stripes tiles the chip exactly if `n` divides 4000000.** -/
theorem tiles_iff {fl : ℚ → ℚ} (hfl : Rounds fl) {n : ℕ} (hn : n ≠ 0) :
    TilesChip ((List.range n).map (blockWith fl n)) ↔ n ∣ 4000000 := by
  have hne : (List.range n).map (blockWith fl n) ≠ [] := by simpa using hn
  rw [tilesChip_iff hne]
  constructor
  · rintro ⟨hend, -⟩
    have hwidth : ∀ b ∈ (List.range n).map (blockWith fl n),
        b.width = printed 9 (fl (fl chipW / n)) := by
      intro b hb
      obtain ⟨idx, -, rfl⟩ := List.mem_map.mp hb
      rfl
    -- `n` equal widths add up to the chip
    have hsum := hend.eq_add_nsmul hwidth
    rw [List.length_map, List.length_range, zero_add, nsmul_eq_mul, printed] at hsum
    set w := roundHalfEven (fl (fl chipW / n) * 10 ^ 9) with hw
    have hint : (4000000 : ℤ) = n * w := by
      have hq : (4000000 : ℚ) = n * w := by
        unfold chipW at hsum
        field_simp at hsum
        linarith
      exact_mod_cast hq
    exact_mod_cast Dvd.intro _ hint.symm
  · rintro ⟨k, hk⟩
    have hblock : ∀ idx, idx < n → blockWith fl n idx
        = ⟨k / 10 ^ 9, chipH, idx • ((k : ℚ) / 10 ^ 9), 0⟩ :=
      fun idx hidx => blockWith_eq hfl hk.symm hidx.le
    refine ⟨?_, fun b hb => ?_⟩
    · have hend : EndToEnd (0 • ((k : ℚ) / 10 ^ 9)) ((List.range' 0 n).map (blockWith fl n))
          ((0 + n) • ((k : ℚ) / 10 ^ 9)) := by
        refine endToEnd_range' (fun idx hidx => ?_)
        rw [hblock idx (by omega)]
        exact ⟨rfl, rfl⟩
      have hchip : n • ((k : ℚ) / 10 ^ 9) = chipW := by
        have hkq : (n : ℚ) * k = 4000000 := by exact_mod_cast hk.symm
        rw [nsmul_eq_mul, ← mul_div_assoc, hkq, chipW]
        norm_num
      rw [zero_nsmul, zero_add, hchip, ← List.range_eq_range'] at hend
      exact hend
    · obtain ⟨idx, hidx, rfl⟩ := List.mem_map.mp hb
      rw [hblock idx (List.mem_range.mp hidx)]
      exact ⟨rfl, rfl⟩

/-- **Does the exported floorplan tile the chip?**  For every region CSV with at least one row,
the blocks in the floorplan fill the chip exactly if the number of rows divides 4000000; with
the script's doubles instead of exact numbers the answer is the same.  Blocks that fill the
chip do not overlap and leave no gap. -/
theorem floorplan_tiles_iff {rows : List RegionRow} (hrows : rows ≠ [])
    (basePower dynamicScale : ℚ) :
    ∃ inputs blocks blocksDouble,
      exportSmokeHotspotInputs rows basePower dynamicScale = .ok inputs ∧
      readFloorplan inputs.floorplan = some blocks ∧
      readFloorplan (floorplanWith double rows) = some blocksDouble ∧
      blocks.length = rows.length ∧ blocksDouble.length = rows.length ∧
      (TilesChip blocks ↔ rows.length ∣ 4000000) ∧
      (TilesChip blocksDouble ↔ rows.length ∣ 4000000) ∧
      (TilesChip blocks → FillChip blocks) ∧ (TilesChip blocksDouble → FillChip blocksDouble) := by
  have hne : ∀ fl, (List.range rows.length).map (blockWith fl rows.length) ≠ [] := by
    intro fl
    simpa using hrows
  have hn : rows.length ≠ 0 := fun h => hrows (List.length_eq_zero_iff.mp h)
  obtain ⟨inputs, hinputs⟩ := exists_exportSmokeHotspotInputs hrows basePower dynamicScale
  refine ⟨inputs, (List.range rows.length).map (blockWith id rows.length),
    (List.range rows.length).map (blockWith double rows.length), hinputs, ?_,
    readFloorplan_floorplanWith double rows, by simp, by simp, tiles_iff rounds_id hn,
    tiles_iff rounds_double hn, fun h => h.fillChip (hne id) (width_nonneg rounds_id _),
    fun h => h.fillChip (hne double) (width_nonneg rounds_double _)⟩
  rw [floorplan_exportSmokeHotspotInputs hinputs]
  exact readFloorplan_floorplanWith id rows

/-- A region without activity. -/
def idleRegion (name : String) : RegionRow where
  workload := "smoke".toList
  region := name.toList
  signalCount := 0
  toggleCount := 0
  avgNormalizedActivity := 0
  timeSteps := 0
  lastTimePs := 0

/-- The regions of the committed floorplan. -/
def smokeRegions : List RegionRow :=
  ["accumulator", "controller", "gemmini_other", "load_store_dma", "non_gemmini_context",
    "pe_array", "scratchpad", "tl_soc_glue"].map idleRegion

/-- The committed floorplan tiles the chip. -/
theorem floorplan_tiles_smoke :
    ∃ inputs blocks, exportSmokeHotspotInputs smokeRegions (1 / 20) 2 = .ok inputs ∧
      readFloorplan inputs.floorplan = some blocks ∧ TilesChip blocks ∧ FillChip blocks := by
  have hrows : smokeRegions ≠ [] := by decide
  obtain ⟨inputs, blocks, _, hinputs, hread, -, -, -, hiff, -, hfill, -⟩ :=
    floorplan_tiles_iff hrows (1 / 20) 2
  have htiles : TilesChip blocks := hiff.mpr (by decide)
  exact ⟨inputs, blocks, hinputs, hread, htiles, hfill htiles⟩

/-- Three stripes of 1333333 nm leave a gap of one nanometre in front of the last one. -/
theorem floorplan_three_gap :
    ∃ inputs blocks,
      exportSmokeHotspotInputs (["a", "b", "c"].map idleRegion) (1 / 20) 2 = .ok inputs ∧
      readFloorplan inputs.floorplan = some blocks ∧
      blocks.map Block.left = [0, 1333333 / 10 ^ 9, 2666667 / 10 ^ 9] ∧
      blocks.map Block.right = [1333333 / 10 ^ 9, 2666666 / 10 ^ 9, 4000000 / 10 ^ 9] ∧
      ¬ TilesChip blocks := by
  refine ⟨_, [⟨1333333 / 10 ^ 9, chipH, 0, 0⟩, ⟨1333333 / 10 ^ 9, chipH, 1333333 / 10 ^ 9, 0⟩,
    ⟨1333333 / 10 ^ 9, chipH, 2666667 / 10 ^ 9, 0⟩], rfl, ?_, rfl, ?_, fun h => ?_⟩
  · decide +kernel
  · decide +kernel
  · have hmeet := h.meet
    norm_num at hmeet

end Activity
