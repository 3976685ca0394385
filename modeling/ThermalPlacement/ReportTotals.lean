/-
# What the reports add up to

Every kept signal is counted in exactly one region, and the region report is the
aggregate of the signals that classify to each region (`AccountsFor`).  The signal
report is a stable selection of the signals with the most toggles (`Selects`).  The
limit on signals only cuts the signal report.
-/
import ThermalPlacement.Outputs

open PyText Vcd

namespace Activity

/-- The arithmetic mean; `0` for no numbers. -/
def mean (l : List ℚ) : ℚ := if l = [] then 0 else l.sum / l.length

/-- `item["activity_sum"] / max(1, item["signals"])` is the mean. -/
theorem sum_div_max_one (l : List ℚ) : l.sum / (max 1 l.length : ℕ) = mean l := by
  unfold mean
  split_ifs with h
  · rw [h]
    simp
  · have hpos : 1 ≤ l.length := List.length_pos_iff.mpr h
    rw [max_eq_right hpos]

/-! ## Selections -/

/-- `listed` is a selection from `all`: the rows with the most toggles, in
non-increasing order, equal ones in the order of `all`, at most `top` of them if `top`
is positive. -/
structure Selects (top : ℤ) (all listed : List SignalRow) : Prop where
  sorted : listed.Pairwise (fun a b => b.toggleCount ≤ a.toggleCount)
  length : listed.length = if 0 < top then min top.toNat all.length else all.length
  rest : ∃ omitted, (listed ++ omitted).Perm all ∧
    (∀ n, (listed ++ omitted).filter (fun row => row.toggleCount = n)
      = all.filter (fun row => row.toggleCount = n)) ∧
    ∀ row ∈ listed, ∀ row' ∈ omitted, row'.toggleCount ≤ row.toggleCount

/-- Cutting a stable sort after `n` rows selects. -/
theorem selects_take (all : List SignalRow) (n : ℕ) :
    let sorted := sortedByDesc SignalRow.toggleCount all
    (sorted.take n).Pairwise (fun a b => b.toggleCount ≤ a.toggleCount) ∧
      ∃ omitted, (sorted.take n ++ omitted).Perm all ∧
        (∀ k, (sorted.take n ++ omitted).filter (fun row => row.toggleCount = k)
          = all.filter (fun row => row.toggleCount = k)) ∧
        ∀ row ∈ sorted.take n, ∀ row' ∈ omitted, row'.toggleCount ≤ row.toggleCount := by
  intro sorted
  have hsorted : sorted.Pairwise (fun a b => b.toggleCount ≤ a.toggleCount) :=
    pairwise_sortedByDesc _ all
  refine ⟨hsorted.sublist (List.take_sublist n sorted), sorted.drop n, ?_, fun k => ?_,
    rel_take_drop hsorted n⟩
  · rw [List.take_append_drop]
    exact sortedByDesc_perm _ all
  · rw [List.take_append_drop]
    exact filter_sortedByDesc _ k all

section

variable [PyStr]

/-! ## Regions -/

/-- The rows account for the kept signals: nothing is lost, nothing counted twice, and
each row is the aggregate of its members. -/
structure AccountsFor (job : Job) (signals : OrderedDict Str Signal) (rows : List RegionRow) :
    Prop where
  signal_counts : (rows.map RegionRow.signalCount).sum = (job.kept signals).length
  toggle_counts :
    (rows.map RegionRow.toggleCount).sum = ((job.kept signals).map Signal.toggles).sum
  distinct : (rows.map RegionRow.region).Nodup
  aggregate : ∀ row ∈ rows,
    row.signalCount = (job.members signals row.region).length ∧
      row.toggleCount = ((job.members signals row.region).map Signal.toggles).sum ∧
      row.avgNormalizedActivity
        = mean ((job.members signals row.region).map (normalizedActivity job.timeSteps))

/-- A sum over the regions of sums over their members is a sum over the kept signals. -/
theorem sum_members {M : Type*} [AddCommMonoid M] (job : Job) (signals : OrderedDict Str Signal)
    (f : Signal → M) :
    ((job.regionNames signals).map (fun category => ((job.members signals category).map f).sum)).sum
      = ((job.kept signals).map f).sum := by
  refine OrderedDict.sum_map_sum_filter job.category f (job.nodup_regionNames signals) ?_
  intro signal hsignal
  exact (job.mem_regionNames signals _).mpr (Or.inr ⟨signal, hsignal, rfl⟩)

theorem accountsFor_writeOutputs (job : Job) (signals : OrderedDict Str Signal) (topSignals : ℤ) :
    AccountsFor job signals (job.writeOutputs signals topSignals).2 := by
  constructor
  · rw [Job.writeOutputs_regions, List.map_map]
    have h := sum_members job signals (fun _ => 1)
    simp only [List.map_const', List.sum_replicate, smul_eq_mul, mul_one] at h
    exact h
  · rw [Job.writeOutputs_regions, List.map_map]
    exact sum_members job signals Signal.toggles
  · rw [Job.map_region_writeOutputs]
    exact job.nodup_regionNames signals
  · intro row hrow
    rw [Job.writeOutputs_regions] at hrow
    rcases List.mem_map.mp hrow with ⟨category, -, rfl⟩
    refine ⟨rfl, rfl, ?_⟩
    rw [← sum_div_max_one, List.length_map]
    rfl

/-! ## Signals -/

theorem selects_writeOutputs (job : Job) (signals : OrderedDict Str Signal) (topSignals : ℤ) :
    Selects topSignals ((job.kept signals).map job.signalRow)
      (job.writeOutputs signals topSignals).1 := by
  set all := (job.kept signals).map job.signalRow with hall
  have hlength : (sortedByDesc SignalRow.toggleCount all).length = all.length :=
    (sortedByDesc_perm _ all).length_eq
  rw [Job.writeOutputs_signals, ← hall]
  split_ifs with htop
  · obtain ⟨hsorted, hrest⟩ := selects_take all topSignals.toNat
    refine ⟨hsorted, ?_, hrest⟩
    rw [if_pos htop, List.length_take, hlength]
  · -- without a limit nothing is omitted
    obtain ⟨hsorted, hrest⟩ := selects_take all (sortedByDesc SignalRow.toggleCount all).length
    rw [List.take_length] at hsorted hrest
    refine ⟨hsorted, ?_, hrest⟩
    rw [if_neg htop, hlength]

/-- **No activity is lost or counted twice.**  For every table, dictionary of terms,
clock flag and limit, the region rows account for the kept signals and do not depend
on the limit, and the signal rows are the selection the limit asks for. -/
theorem writeOutputs_accounts (job : Job) (signals : OrderedDict Str Signal) (topSignals : ℤ) :
    AccountsFor job signals (job.writeOutputs signals topSignals).2 ∧
      (∀ topSignals' : ℤ,
        (job.writeOutputs signals topSignals').2 = (job.writeOutputs signals topSignals).2) ∧
      Selects topSignals ((job.kept signals).map job.signalRow)
        (job.writeOutputs signals topSignals).1 := by
  refine ⟨accountsFor_writeOutputs job signals topSignals, fun topSignals' => ?_,
    selects_writeOutputs job signals topSignals⟩
  rw [Job.writeOutputs_regions, Job.writeOutputs_regions]

end

end Activity
