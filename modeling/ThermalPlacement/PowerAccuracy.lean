/-
# How accurate the power trace is

The scripts compute activities and powers with floats.  Every activity is then within a few
roundings of the exact one, a mean over `n` signals within `n + 5` roundings
(`within_regionRowWith`), and what is printed with six decimals differs from the exact power of
the block by at most one unit of the last decimal (`abs_printed_sub_blockPower_le`).

Fractions stay fractions whatever is rounded (`regionRowWith_mem_Icc`), so block powers stay
within their range for any number of signals.
-/
import ThermalPlacement.RoundedReports
import ThermalPlacement.FloatText
import ThermalPlacement.ActivityBound
import ThermalPlacement.DeclarationOrder

open PyText Vcd

namespace Activity

/-! ## Doubles as roundings -/

theorem hasError_double : HasError (1 / 2 ^ 53) double := by
  intro q
  have h := abs_double_sub_le q
  rwa [div_eq_mul_one_div, mul_comm] at h

theorem monotone_double : Monotone double := fun _ _ h => double_mono h

/-- Adding one to `2 ^ 53` has no effect. -/
theorem double_add_one_stop : double ((2 ^ 53 : ℕ) + 1) = (2 ^ 53 : ℕ) := by
  have h : double (2 ^ 53 + 1) = 2 ^ 53 := by decide +kernel
  exact_mod_cast h

theorem double_natCast : ∀ n : ℕ, n ≤ 2 ^ 53 → double n = n :=
  fun _ hn => double_of_isDouble (isDouble_natCast hn)

theorem one_le_double_natCast {n : ℕ} (hn : 1 ≤ n) : 1 ≤ double n := by
  rw [← double_one]
  exact double_mono (by exact_mod_cast hn)

/-! ## Fractions -/

/-- A quotient of two floats is a fraction if the divisor is not smaller. -/
theorem double_div_mem_Icc {p q : ℚ} (hp : 0 ≤ p) (hpq : p ≤ q) (hq : 0 < q) :
    double (p / q) ∈ Set.Icc (0 : ℚ) 1 := by
  constructor
  · rw [← double_zero]
    exact double_mono (div_nonneg hp hq.le)
  · rw [← double_one]
    exact double_mono ((div_le_one hq).mpr hpq)

/-- The activity of a signal that toggles at most once per step and bit. -/
theorem normalizedActivityWith_mem_Icc {timeSteps : ℕ} {signal : Signal}
    (h : normalizedActivity timeSteps signal ∈ Set.Icc (0 : ℚ) 1) :
    normalizedActivityWith double timeSteps signal ∈ Set.Icc (0 : ℚ) 1 := by
  set denominator : ℤ := max 1 (timeSteps : ℤ) * max 1 signal.width with hdenominator
  have hone : 1 ≤ denominator := by
    have hsteps : 1 ≤ max 1 (timeSteps : ℤ) := le_max_left _ _
    have hwidth : 1 ≤ max 1 signal.width := le_max_left _ _
    nlinarith
  have honeq : (1 : ℚ) ≤ denominator := by exact_mod_cast hone
  have hle : (signal.toggles : ℚ) ≤ denominator := (div_le_one (by linarith)).mp h.2
  have hpos : (0 : ℚ) < double denominator := by
    have := double_mono honeq
    rw [double_one] at this
    linarith
  refine double_div_mem_Icc ?_ (double_mono hle) hpos
  rw [← double_zero]
  exact double_mono (by positivity)

/-- The power of a block whose activity is a fraction. -/
theorem blockPowerWith_mem_Icc {row : RegionRow}
    (h : row.avgNormalizedActivity ∈ Set.Icc (0 : ℚ) 1) {basePower dynamicScale : ℚ}
    (hbase : IsDouble basePower) (hscale : IsDouble dynamicScale) (hnonneg : 0 ≤ dynamicScale) :
    blockPowerWith double basePower dynamicScale row
      ∈ Set.Icc basePower (double (basePower + dynamicScale)) := by
  have hlow : 0 ≤ double (dynamicScale * row.avgNormalizedActivity) := by
    rw [← double_zero]
    exact double_mono (mul_nonneg hnonneg h.1)
  have hhigh : double (dynamicScale * row.avgNormalizedActivity) ≤ dynamicScale := by
    refine (double_mono (mul_le_of_le_one_right hnonneg h.2)).trans ?_
    rw [double_of_isDouble hscale]
  constructor
  · calc basePower = double basePower := (double_of_isDouble hbase).symm
      _ ≤ blockPowerWith double basePower dynamicScale row := double_mono (by linarith)
  · exact double_mono (by linarith)

section

variable [PyStr]

/-- The mean over a region. -/
theorem regionRowWith_mem_Icc {job : Job} {signals : OrderedDict Str Signal}
    (h : ∀ signal ∈ job.kept signals,
      normalizedActivity job.timeSteps signal ∈ Set.Icc (0 : ℚ) 1) (category : Str) :
    (job.regionRowWith double (category, job.totalsWith double signals category)
      ).avgNormalizedActivity ∈ Set.Icc (0 : ℚ) 1 := by
  set l := (job.members signals category).map (normalizedActivityWith double job.timeSteps)
    with hl
  have hfractions : ∀ x ∈ l, x ∈ Set.Icc (0 : ℚ) 1 := by
    intro x hx
    obtain ⟨signal, hsignal, rfl⟩ := List.mem_map.mp hx
    exact normalizedActivityWith_mem_Icc (h signal (List.mem_of_mem_filter hsignal))
  have hlength : (job.members signals category).length = l.length := by rw [hl, List.length_map]
  show double (sumWith double l / double (max 1 (job.members signals category).length : ℕ)) ∈ _
  rw [hlength]
  refine double_div_mem_Icc (sumWith_mem_Icc monotone_double double_natCast double_add_one_stop
    hfractions).1 ?_ ?_
  · refine (sumWith_le_length monotone_double double_natCast double_add_one_stop hfractions).trans ?_
    exact double_mono (by exact_mod_cast le_max_right 1 l.length)
  · exact lt_of_lt_of_le one_pos (one_le_double_natCast (le_max_left 1 l.length))

/-- **Activities are fractions and powers bounded in the scripts' floats.**  For a dump whose
body changes each code at most once between marks, every activity that `write_outputs` computes
with floats lies in `[0, 1]`, whatever the number of signals, and every block power between
`base_power` and the float nearest to `base_power + dynamic_scale`. -/
theorem rounded_activity_bounds (vcd : List UInt8) (header body : List Command)
    (hvcd : ReadsAs vcd header body) (h : OncePerSection header body) (workload : Str)
    (terms : Terms) (topSignals : ℤ) (excludeClocks : Bool) {basePower dynamicScale : ℚ}
    (hbase : IsDouble basePower) (hscale : IsDouble dynamicScale) (hnonneg : 0 ≤ dynamicScale) :
    ∃ signals timeSteps lastTime out, iterVcd vcd = .ok (signals, timeSteps, lastTime) ∧
      out = Job.writeOutputsWith double ⟨timeSteps, lastTime, workload, terms, excludeClocks⟩
        signals topSignals ∧
      (∀ row ∈ out.1, row.normalizedActivity ∈ Set.Icc (0 : ℚ) 1) ∧
      (∀ row ∈ out.2, row.avgNormalizedActivity ∈ Set.Icc (0 : ℚ) 1) ∧
      ∀ row ∈ readRegions out.2, blockPowerWith double basePower dynamicScale row
        ∈ Set.Icc basePower (double (basePower + dynamicScale)) := by
  refine ⟨_, _, _, _, iterVcd_of_readsAs hvcd, rfl, ?_⟩
  set job : Job := ⟨(timesOf body).length, (timesOf body).reduceOption.getLast?.getD 0, workload,
    terms, excludeClocks⟩ with hjob
  set signals := finalTable header body with hsignals
  have hkept : ∀ signal ∈ job.kept signals,
      normalizedActivity job.timeSteps signal ∈ Set.Icc (0 : ℚ) 1 :=
    fun signal hsignal => signals_mem_Icc h signal (List.mem_of_mem_filter hsignal)
  have hregions : ∀ row ∈ (job.writeOutputsWith double signals topSignals).2,
      row.avgNormalizedActivity ∈ Set.Icc (0 : ℚ) 1 := by
    intro row hrow
    rw [Job.writeOutputsWith_regions] at hrow
    obtain ⟨category, -, rfl⟩ := List.mem_map.mp hrow
    exact regionRowWith_mem_Icc hkept category
  refine ⟨fun row hrow => ?_, hregions, fun row hrow => ?_⟩
  · rw [Job.writeOutputsWith_signals] at hrow
    have hmem : row ∈ (job.kept signals).map (job.signalRowWith double) := by
      split_ifs at hrow
      · exact (sortedByDesc_perm _ _).mem_iff.mp (List.mem_of_mem_take hrow)
      · exact (sortedByDesc_perm _ _).mem_iff.mp hrow
    obtain ⟨signal, hsignal, rfl⟩ := List.mem_map.mp hmem
    exact normalizedActivityWith_mem_Icc (hkept signal hsignal)
  · exact blockPowerWith_mem_Icc (hregions row (mem_sortedBy.mp hrow)) hbase hscale hnonneg

omit [PyStr] in
theorem rounded_activity_bounds_pulse :
    ∃ signals timeSteps lastTime, iterVcd pulseDump = .ok (signals, timeSteps, lastTime) ∧
      ∀ row ∈ readRegions (@Job.writeOutputsWith asciiStr double
          ⟨timeSteps, lastTime, [], builtinTerms, false⟩ signals 0).2,
        blockPowerWith double (double (1 / 20)) 2 row
          ∈ Set.Icc (double (1 / 20)) (double (double (1 / 20) + 2)) := by
  obtain ⟨signals, timeSteps, lastTime, out, hread, rfl, -, -, hout⟩ :=
    @rounded_activity_bounds asciiStr pulseDump _ _ readsAs_pulseDump oncePerSection_pulse []
      builtinTerms 0 false _ 2 (isDouble_double (1 / 20)) (isDouble_natCast (n := 2) (by norm_num))
      (by norm_num)
  exact ⟨signals, timeSteps, lastTime, hread, hout⟩

/-! ## Accuracy -/

omit [PyStr] in
/-- An activity is within three roundings of the exact one: two operands become floats, and the
quotient is rounded. -/
theorem within_normalizedActivityWith (timeSteps : ℕ) (signal : Signal) :
    Within (1 / 2 ^ 53) 3 (normalizedActivityWith double timeSteps signal)
      (normalizedActivity timeSteps signal) := by
  set denominator : ℚ := ((max 1 (timeSteps : ℤ) * max 1 signal.width : ℤ) : ℚ) with hdenominator
  have hpos : 0 < denominator := by
    have hint : 0 < max 1 (timeSteps : ℤ) * max 1 signal.width := by positivity
    rw [hdenominator]
    exact Int.cast_pos.mpr hint
  have htoggles : (0 : ℚ) ≤ signal.toggles := by positivity
  have hnumerator := hasError_double.within (by norm_num) (by norm_num) htoggles
  have hdivisor := hasError_double.within (by norm_num) (by norm_num) hpos.le
  have hquotient := hnumerator.div (by norm_num) hdivisor htoggles hpos
  exact hquotient.round (by norm_num) (by norm_num) hasError_double (div_nonneg htoggles hpos.le)

omit [PyStr] in
theorem normalizedActivity_nonneg (timeSteps : ℕ) (signal : Signal) :
    0 ≤ normalizedActivity timeSteps signal := by
  unfold normalizedActivity
  positivity

/-- **The mean over `n` signals is within `n + 5` roundings of the exact one.** -/
theorem within_regionRowWith (job : Job) (signals : OrderedDict Str Signal) (category : Str) :
    Within (1 / 2 ^ 53) ((job.members signals category).length + 5)
      (job.regionRowWith double (category, job.totalsWith double signals category)
        ).avgNormalizedActivity
      (job.regionRow (category, job.totals signals category)).avgNormalizedActivity := by
  set members := job.members signals category with hmembers
  set exact := members.map (normalizedActivity job.timeSteps) with hexact
  set rounded := members.map (normalizedActivityWith double job.timeSteps) with hrounded
  have hnonneg : 0 ≤ exact.sum := by
    refine List.sum_nonneg (fun x hx => ?_)
    obtain ⟨signal, -, rfl⟩ := List.mem_map.mp hx
    exact normalizedActivity_nonneg _ _
  have hroundedNonneg : ∀ x ∈ rounded, 0 ≤ x := by
    intro x hx
    obtain ⟨signal, -, rfl⟩ := List.mem_map.mp hx
    exact (within_normalizedActivityWith _ _).nonneg (by norm_num) (normalizedActivity_nonneg _ _)
  -- the activities, their sum, the number of signals, the quotient and its rounding
  have hsummands : Within (1 / 2 ^ 53) 3 rounded.sum exact.sum :=
    Within.sum (fun signal _ => within_normalizedActivityWith job.timeSteps signal)
  have hsum : Within (1 / 2 ^ 53) (members.length + 3) (sumWith double rounded) exact.sum := by
    have h := within_sumWith (by norm_num) (by norm_num) hasError_double hroundedNonneg
    rw [hrounded, List.length_map] at h
    exact h.trans (by norm_num) hsummands
  have hcount : (0 : ℚ) < (max 1 members.length : ℕ) := by
    exact_mod_cast lt_of_lt_of_le one_pos (le_max_left 1 members.length)
  have hcountWithin := hasError_double.within (by norm_num) (by norm_num) hcount.le
  have hquotient := hsum.div (by norm_num) hcountWithin hnonneg hcount
  have hmean := hquotient.round (by norm_num) (by norm_num) hasError_double
    (div_nonneg hnonneg hcount.le)
  exact hmean

omit [PyStr] in
/-- The power computed from an activity that is within `k` roundings of the exact one. -/
theorem within_blockPowerWith {k : ℕ} {row row' : RegionRow}
    (h : Within (1 / 2 ^ 53) k row'.avgNormalizedActivity row.avgNormalizedActivity)
    (hactivity : 0 ≤ row.avgNormalizedActivity) {basePower dynamicScale : ℚ}
    (hbase : 0 ≤ basePower) (hscale : 0 ≤ dynamicScale) :
    Within (1 / 2 ^ 53) (k + 2) (blockPowerWith double basePower dynamicScale row')
      (blockPower basePower dynamicScale row) := by
  have hdynamic : 0 ≤ dynamicScale * row.avgNormalizedActivity := mul_nonneg hscale hactivity
  have hproduct := (h.mul_left hscale).round (by norm_num) (by norm_num) hasError_double hdynamic
  have hconst := (Within.refl (1 / 2 ^ 53) basePower).mono (by norm_num) (by norm_num)
    (Nat.zero_le (k + 1)) hbase hbase
  exact (hconst.add hproduct).round (by norm_num) (by norm_num) hasError_double
    (add_nonneg hbase hdynamic)

omit [PyStr] in
/-- Printing costs half a unit of the last decimal. -/
theorem abs_printed_sub_le (digits : ℕ) (q : ℚ) :
    |printed digits q - q| ≤ 1 / 2 / 10 ^ digits := by
  have hpos : (0 : ℚ) < 10 ^ digits := by positivity
  have hscale : printed digits q - q
      = (roundHalfEven (q * 10 ^ digits) - q * 10 ^ digits) / 10 ^ digits := by
    unfold printed
    field_simp
  rw [hscale, abs_div, abs_of_pos hpos]
  exact div_le_div_of_nonneg_right (abs_roundHalfEven_sub_le _) hpos.le

omit [PyStr] in
/-- **A printed power is accurate to one unit of its last decimal**, as long as the number of
signals times the power is below two thousand million. -/
theorem abs_printed_sub_blockPower_le {row row' : RegionRow} {n : ℕ}
    (h : Within (1 / 2 ^ 53) (n + 5) row'.avgNormalizedActivity row.avgNormalizedActivity)
    (hactivity : 0 ≤ row.avgNormalizedActivity) {basePower dynamicScale : ℚ}
    (hbase : 0 ≤ basePower) (hscale : 0 ≤ dynamicScale)
    (hsize : (n + 7) * (blockPower basePower dynamicScale row + 1) ≤ 2 ^ 31) :
    |printed 6 (blockPowerWith double basePower dynamicScale row')
      - blockPower basePower dynamicScale row| ≤ 1 / 10 ^ 6 := by
  set power := blockPower basePower dynamicScale row with hpower
  have hnonneg : 0 ≤ power := add_nonneg hbase (mul_nonneg hscale hactivity)
  have hwithin : Within (1 / 2 ^ 53) (n + 7) (blockPowerWith double basePower dynamicScale row')
      power := within_blockPowerWith h hactivity hbase hscale
  have hn : (0 : ℚ) ≤ n := by positivity
  have herror := hwithin.abs_sub_le (by norm_num) (by norm_num) hnonneg (by
    push_cast
    nlinarith)
  have hprinted := abs_printed_sub_le 6 (blockPowerWith double basePower dynamicScale row')
  push_cast at herror
  calc |printed 6 (blockPowerWith double basePower dynamicScale row') - power|
      ≤ |printed 6 (blockPowerWith double basePower dynamicScale row')
          - blockPowerWith double basePower dynamicScale row'|
        + |blockPowerWith double basePower dynamicScale row' - power| := abs_sub_le _ _ _
    _ ≤ 1 / 2 / 10 ^ 6 + 2 * ((n + 7) * (1 / 2 ^ 53)) * power := add_le_add hprinted herror
    _ ≤ 1 / 10 ^ 6 := by nlinarith

end

end Activity
