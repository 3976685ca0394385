/-
# Job limits

The job section of `tools/env_gemmini_thermal.sh`: `TP_MAX_JOBS` and `MAKE_JOBS` are taken
from the environment or from `nproc`, checked to be numbers, and cut at `128` and at
`TP_MAX_JOBS`.

The tests `[ a -lt b ]` and `[ a -gt b ]` compare signed 64-bit integers.  With an operand
that does not fit they fail, so a number from `2 ^ 63` on passes every check of the script;
`jobLimits_iff` says that nothing else does.
-/
import ThermalPlacement.Backtracking
import ThermalPlacement.PyText

open PyText

namespace EnvScript

/-! ## The shell -/

/-- `^[0-9]+$`. -/
def numberRe : Pattern Char :=
  .seq (.assert (fun before _ => before = []))
    (.seq (.one Char.isDigit) (.seq (.many Char.isDigit) (.assert (fun _ after => after = []))))

/-- An operand of `-lt` and `-gt`: a decimal with or without a sign.  `none` is the error for
operands that are no numbers or do not fit into 64 bits. -/
def operand (s : Str) : Option ℤ :=
  let n := match s with
    | '-' :: ds => if IsNumber ds then some (-(numberValue ds : ℤ)) else none
    | '+' :: ds => if IsNumber ds then some (numberValue ds : ℤ) else none
    | ds => if IsNumber ds then some (numberValue ds : ℤ) else none
  n.filter (fun n => -2 ^ 63 ≤ n ∧ n < 2 ^ 63)

/-- `[ "$a" -lt "$b" ]`; an error is no success. -/
def testLt (a b : Str) : Bool :=
  match operand a, operand b with
  | some m, some n => m < n
  | _, _ => false

/-- `[ "$a" -gt "$b" ]`. -/
def testGt (a b : Str) : Bool := testLt b a

/-- `${x:-word}`: unset and empty parameters are replaced. -/
def orDefault (x : Option Str) (word : Str) : Str :=
  match x with
  | none => word
  | some [] => word
  | some s => s

/-- What a command writes, and whether it succeeds. -/
structure CommandResult where
  output : Str
  succeeds : Bool

/-- `$(...)` drops null characters and the line ends at the end. -/
def capture (output : Str) : Str := (output.filter (· ≠ Char.ofNat 0)).rdropWhile (· = '\n')

/-! ## The script -/

/-- `if ! [[ "$s" =~ ^[0-9]+$ ]] || [ "$s" -lt 1 ]; then s=fallback; fi`. -/
def atLeastOne (fallback s : Str) : Str :=
  if !numberRe.search [] s || testLt s ['1'] then fallback else s

/-- `if [ "$s" -gt "$bound" ]; then s="$bound"; fi`. -/
def atMost (bound s : Str) : Str := if testGt s bound then bound else s

/-- The variables of the environment that the section reads. -/
structure Environment where
  tpMaxJobs : Option Str
  makeJobs : Option Str

/-- `TP_MAX_JOBS` after the section. -/
def tpMaxJobs (env : Environment) : Str :=
  atMost "128".toList (atLeastOne "128".toList (orDefault env.tpMaxJobs "128".toList))

/-- `$(nproc 2>/dev/null || echo 1)`. -/
def nprocOutput (nproc : CommandResult) : Str :=
  capture (if nproc.succeeds then nproc.output else nproc.output ++ "1\n".toList)

/-- `detected_jobs`. -/
def detectedJobs (nproc : CommandResult) : Str := atLeastOne ['1'] (nprocOutput nproc)

/-- `MAKE_JOBS` after the section. -/
def makeJobs (env : Environment) (nproc : CommandResult) : Str :=
  let jobs :=
    if orDefault env.makeJobs [] = [] then detectedJobs nproc
    else atLeastOne ['1'] (orDefault env.makeJobs [])
  atMost (tpMaxJobs env) jobs

/-! ## Numbers -/

/-- A run of digits up to the end of the text. -/
theorem run_digits (b v : Str) (g : List (ℕ × Str)) :
    (Pattern.seq (.many Char.isDigit) (.assert (fun _ after => after = []))).run ⟨b, v, g⟩ ≠ [] ↔
      ∀ c ∈ v, c.isDigit = true := by
  have hstop : ∀ b a v g, Char.isDigit a = true →
      (Pattern.assert (fun _ after => decide (after = []))).run (⟨b, a :: v, g⟩ : Cursor Char)
        = [] := fun b a v g _ => if_neg (by simp)
  have hrun := Pattern.run_many_seq hstop (u := v.takeWhile Char.isDigit)
    (v := v.dropWhile Char.isDigit) (fun c hc => List.mem_takeWhile_imp hc)
    (fun c hc => eq_false_of_mem_head?_dropWhile hc) b g
  rw [List.takeWhile_append_dropWhile] at hrun
  rw [hrun, Pattern.run_assert, ite_ne_right_iff, decide_eq_true_eq]
  simp

/-- **`^[0-9]+$` matches the numbers**, and nothing else. -/
theorem search_numberRe (s : Str) : numberRe.search [] s = true ↔ IsNumber s := by
  have hstart : ∀ b v : Str, numberRe.run ⟨b, v, []⟩ ≠ [] ↔ b = [] ∧ IsNumber v := by
    intro b v
    rw [numberRe, Pattern.run_seq, Pattern.run_assert]
    by_cases hb : b = []
    · rw [if_pos (by simp [hb]), List.flatMap_singleton]
      cases v with
      | nil => simp [Pattern.run, IsNumber]
      | cons c v =>
          by_cases hc : c.isDigit = true
          · rw [Pattern.run_one_seq hc, run_digits]
            simp [IsNumber, hb, hc]
          · rw [Pattern.run_one_seq_of_head? (by simpa using hc)]
            simp [IsNumber, hc]
    · rw [if_neg (by simp [hb])]
      simp [hb]
  rw [Pattern.search_iff]
  constructor
  · rintro ⟨u, v, rfl, h⟩
    obtain ⟨hu, hv⟩ := (hstart _ _).mp h
    obtain rfl : u = [] := by simpa using hu
    exact hv
  · exact fun h => ⟨[], s, rfl, (hstart _ _).mpr ⟨rfl, h⟩⟩

/-- A number that does not fit into a signed 64-bit integer. -/
def TooLong (s : Str) : Prop := IsNumber s ∧ 2 ^ 63 ≤ numberValue s

instance (s : Str) : Decidable (TooLong s) := inferInstanceAs (Decidable (_ ∧ _))

theorem not_tooLong_iff {s : Str} (h : IsNumber s) : ¬ TooLong s ↔ numberValue s < 2 ^ 63 := by
  rw [TooLong, and_iff_right h, not_le]

/-- A number is an operand of a test if it fits. -/
theorem operand_of_isNumber {s : Str} (h : IsNumber s) :
    operand s = if numberValue s < 2 ^ 63 then some (numberValue s : ℤ) else none := by
  have hsign : ∀ c, c.isDigit = false → ∀ ds, s ≠ c :: ds := by
    rintro c hc ds rfl
    rw [h.2 c List.mem_cons_self] at hc
    cases hc
  unfold operand
  split
  · exact absurd rfl (hsign '-' (by decide) _)
  · exact absurd rfl (hsign '+' (by decide) _)
  · rw [if_pos h, Option.filter_some]
    refine if_congr ?_ rfl rfl
    rw [decide_eq_true_eq]
    omega

/-- **What a comparison of numbers says**: nothing if one of them does not fit. -/
theorem testLt_iff {a b : Str} (ha : IsNumber a) (hb : IsNumber b) :
    testLt a b = true ↔
      numberValue a < 2 ^ 63 ∧ numberValue b < 2 ^ 63 ∧ numberValue a < numberValue b := by
  unfold testLt
  rw [operand_of_isNumber ha, operand_of_isNumber hb]
  by_cases ha' : numberValue a < 2 ^ 63
  · by_cases hb' : numberValue b < 2 ^ 63
    · rw [if_pos ha', if_pos hb']
      simp only [decide_eq_true_eq]
      omega
    · rw [if_pos ha', if_neg hb']
      exact iff_of_false Bool.false_ne_true (fun h => hb' h.2.1)
  · rw [if_neg ha']
    exact iff_of_false Bool.false_ne_true (fun h => ha' h.1)

/-- A number of jobs: at least one. -/
def IsJobs (s : Str) : Prop := IsNumber s ∧ 1 ≤ numberValue s

instance (s : Str) : Decidable (IsJobs s) := inferInstanceAs (Decidable (_ ∧ _))

/-- **The check for at least one job.**  It leaves a number of jobs, which is too long only if
the text was. -/
theorem atLeastOne_spec {fallback : Str} (hfallback : IsJobs fallback)
    (hfits : ¬ TooLong fallback) (s : Str) :
    IsJobs (atLeastOne fallback s) ∧ (TooLong (atLeastOne fallback s) ↔ TooLong s) := by
  have hone : IsNumber ['1'] ∧ numberValue ['1'] = 1 := by decide
  unfold atLeastOne
  by_cases hs : IsNumber s
  · rw [(search_numberRe s).mpr hs, Bool.not_true, Bool.false_or]
    by_cases hlt : testLt s ['1'] = true
    · rw [if_pos hlt]
      rw [testLt_iff hs hone.1] at hlt
      refine ⟨hfallback, iff_of_false hfits (fun h => ?_)⟩
      have := h.2
      omega
    · rw [if_neg hlt]
      rw [testLt_iff hs hone.1] at hlt
      refine ⟨⟨hs, ?_⟩, Iff.rfl⟩
      omega
  · have hsearch : numberRe.search [] s = false := by
      rw [Bool.eq_false_iff, ne_eq, search_numberRe]
      exact hs
    rw [hsearch, Bool.not_false, Bool.true_or, if_pos rfl]
    exact ⟨hfallback, iff_of_false hfits (fun h => hs h.1)⟩

/-- **The cut at a bound.**  It leaves a number of jobs, which is within the bound unless it is
too long. -/
theorem atMost_spec {bound s : Str} (hbound : IsJobs bound) (hfits : ¬ TooLong bound)
    (hs : IsJobs s) :
    IsJobs (atMost bound s) ∧ (numberValue (atMost bound s) ≤ numberValue bound ↔ ¬ TooLong s) := by
  rw [not_tooLong_iff hbound.1] at hfits
  rw [not_tooLong_iff hs.1]
  unfold atMost testGt
  by_cases hlt : testLt bound s = true
  · rw [if_pos hlt]
    rw [testLt_iff hbound.1 hs.1] at hlt
    exact ⟨hbound, iff_of_true le_rfl hlt.2.1⟩
  · rw [if_neg hlt]
    rw [testLt_iff hbound.1 hs.1] at hlt
    refine ⟨hs, ?_⟩
    omega

/-! ## The limits -/

/-- What the section is for: `TP_MAX_JOBS` is a number from `1` to `128`, `MAKE_JOBS` one from
`1` to `TP_MAX_JOBS`. -/
def JobLimits (tpMaxJobs makeJobs : Str) : Prop :=
  (IsJobs tpMaxJobs ∧ numberValue tpMaxJobs ≤ 128) ∧
    IsJobs makeJobs ∧ numberValue makeJobs ≤ numberValue tpMaxJobs

instance (a b : Str) : Decidable (JobLimits a b) := inferInstanceAs (Decidable (_ ∧ _ ∧ _))

/-- Where `MAKE_JOBS` is taken from: the environment, or `nproc`. -/
def jobsSource (env : Environment) (nproc : CommandResult) : Str :=
  if orDefault env.makeJobs [] = [] then nprocOutput nproc else orDefault env.makeJobs []

/-- **The job limits hold** exactly if neither `TP_MAX_JOBS` nor the text that `MAKE_JOBS` is
taken from is a number from `2 ^ 63` on. -/
theorem jobLimits_iff (env : Environment) (nproc : CommandResult) :
    JobLimits (tpMaxJobs env) (makeJobs env nproc) ↔
      ¬ TooLong (orDefault env.tpMaxJobs "128".toList) ∧ ¬ TooLong (jobsSource env nproc) := by
  have h128 : IsJobs "128".toList ∧ ¬ TooLong "128".toList ∧ numberValue "128".toList = 128 := by
    decide +kernel
  have h1 : IsJobs ['1'] ∧ ¬ TooLong ['1'] := by decide +kernel
  obtain ⟨hmax, hmaxLong⟩ :=
    atLeastOne_spec h128.1 h128.2.1 (orDefault env.tpMaxJobs "128".toList)
  obtain ⟨htp, htpLe⟩ := atMost_spec h128.1 h128.2.1 hmax
  obtain ⟨hjobs, hjobsLong⟩ := atLeastOne_spec h1.1 h1.2 (jobsSource env nproc)
  have hmake : makeJobs env nproc
      = atMost (tpMaxJobs env) (atLeastOne ['1'] (jobsSource env nproc)) := by
    unfold makeJobs jobsSource detectedJobs
    dsimp only
    split_ifs <;> rfl
  change IsJobs (tpMaxJobs env) at htp
  change numberValue (tpMaxJobs env) ≤ numberValue "128".toList ↔ _ at htpLe
  rw [h128.2.2, hmaxLong] at htpLe
  unfold JobLimits
  rw [htpLe, and_iff_right htp]
  refine and_congr_right (fun hfits => ?_)
  -- below the cap nothing is too long, so the second cut works
  have htpFits : ¬ TooLong (tpMaxJobs env) := by
    have := htpLe.mpr hfits
    rw [not_tooLong_iff htp.1]
    omega
  obtain ⟨hmakeJobs, hmakeLe⟩ := atMost_spec htp htpFits hjobs
  rw [hmake, hmakeLe, hjobsLong, and_iff_right hmakeJobs]

/-- A number of jobs that is one too long for the tests is not cut. -/
theorem jobLimits_exceeded :
    ¬ JobLimits (tpMaxJobs ⟨none, some "9223372036854775808".toList⟩)
      (makeJobs ⟨none, some "9223372036854775808".toList⟩ ⟨"8\n".toList, true⟩) := by
  decide +kernel

end EnvScript
