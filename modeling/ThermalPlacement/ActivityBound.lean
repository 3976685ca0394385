/-
# Normalized activity is a fraction

A dump whose writer emits each code at most once between `#` marks has at most one value
more per code than it has marks.  So a signal of width `w` sees at most as many changes
as there are marks, each of at most `w` toggles, and its normalized activity is at most
`1`; so is the mean over a region, and block powers stay within the dynamic range.

`sections` cuts a body at its `#` marks: the stretch before the first mark, one after
each mark.  The stretch after the last mark is one of them.
-/
import ThermalPlacement.HeaderForest
import ThermalPlacement.ToggleDelta
import ThermalPlacement.ReportTotals
import ThermalPlacement.HotspotInputs

open PyText Vcd

namespace Vcd

/-! ## Sections of a body -/

/-- A `#` mark. -/
def Command.isTime : Command → Bool
  | .time _ => true
  | _ => false

/-- The stretches of a body between its `#` marks. -/
def sections (body : List Command) : List (List Command) := body.splitOnP Command.isTime

theorem sections_time (t : Option ℤ) (body : List Command) :
    sections (.time t :: body) = [] :: sections body := by
  have ht : (Command.time t).isTime = true := rfl
  unfold sections
  rw [List.splitOnP_cons_eq_if_modifyHead, if_pos ht]

theorem sections_cons {c : Command} (hc : c.isTime = false) (body : List Command) :
    sections (c :: body) = (sections body).modifyHead (c :: ·) := by
  unfold sections
  rw [List.splitOnP_cons_eq_if_modifyHead, if_neg (by simp [hc])]

/-- One section more than there are marks. -/
theorem length_sections (body : List Command) :
    (sections body).length = (timesOf body).length + 1 := by
  induction body with
  | nil => rfl
  | cons c body ih =>
      cases c with
      | time t =>
          rw [sections_time, List.length_cons, ih]
          rfl
      | _ =>
          rw [sections_cons rfl, List.length_modifyHead, ih]
          rfl

/-- The values of a code are those it takes in the sections, in order. -/
theorem valuesOf_eq_flatMap_sections (code : Str) (body : List Command) :
    valuesOf code body = (sections body).flatMap (valuesOf code) := by
  induction body with
  | nil => rfl
  | cons c body ih =>
      have hcons : ∀ (c : Command) (cmds : List Command),
          valuesOf code (c :: cmds) = valuesOf code [c] ++ valuesOf code cmds :=
        fun c cmds => valuesOf_append code [c] cmds
      cases hc : c.isTime with
      | true =>
          cases c with
          | time t =>
              rw [sections_time, List.flatMap_cons, ← ih]
              rfl
          | _ => cases hc
      | false =>
          -- the command joins the first section
          obtain ⟨s, ss, hs⟩ :=
            List.exists_cons_of_ne_nil (List.splitOnP_ne_nil Command.isTime body)
          have hsections : sections body = s :: ss := hs
          rw [sections_cons hc, hsections, List.modifyHead_cons, List.flatMap_cons, hcons, ih,
            hsections, List.flatMap_cons, hcons c s, List.append_assoc]

/-- At most one value a section: at most one value more than there are marks. -/
theorem length_valuesOf_le {code : Str} {body : List Command}
    (h : ∀ s ∈ sections body, (valuesOf code s).length ≤ 1) :
    (valuesOf code body).length ≤ (timesOf body).length + 1 := by
  rw [valuesOf_eq_flatMap_sections, List.length_flatMap, ← length_sections]
  have hsum := List.sum_le_card_nsmul ((sections body).map (fun s => (valuesOf code s).length)) 1
    (by simpa using h)
  simpa using hsum

/-! ## Toggles -/

/-- **Toggles are bounded by marks times width.** -/
theorem toggleSum_le {width : ℤ} (hwidth : 1 ≤ width) {values : List Str} {n : ℕ}
    (hlength : values.length ≤ n + 1) (hfit : ∀ v ∈ values, (v.length : ℤ) ≤ width) :
    (toggleSum width values : ℤ) ≤ n * width := by
  obtain ⟨w, rfl⟩ := Int.eq_ofNat_of_zero_le (by omega : 0 ≤ width)
  have hw : 1 ≤ w := by omega
  have hpair : ∀ u ∈ values, ∀ v ∈ values, valueToggleDelta u v w ≤ w := by
    intro u hu v hv
    have hul := hfit u hu
    have hvl := hfit v hv
    exact valueToggleDelta_le hw (by omega) (by omega)
  have hsum : toggleSum w values ≤ (values.length - 1) * w := pairSum_le values hpair
  have hmul : (values.length - 1) * w ≤ n * w := Nat.mul_le_mul_right w (by omega)
  exact_mod_cast hsum.trans hmul

end Vcd

namespace Activity

/-! ## Fractions -/

/-- A mean of fractions is a fraction. -/
theorem mean_mem_Icc {l : List ℚ} (h : ∀ x ∈ l, x ∈ Set.Icc (0 : ℚ) 1) :
    mean l ∈ Set.Icc (0 : ℚ) 1 := by
  unfold mean
  split_ifs with hnil
  · exact ⟨le_refl 0, zero_le_one⟩
  · have hpos : (0 : ℚ) < l.length := by exact_mod_cast List.length_pos_iff.mpr hnil
    have hnonneg : 0 ≤ l.sum := List.sum_nonneg (fun x hx => (h x hx).1)
    have hle : l.sum ≤ l.length := by
      have hsum := List.sum_le_card_nsmul l 1 (fun x hx => (h x hx).2)
      simpa using hsum
    exact ⟨div_nonneg hnonneg hpos.le, (div_le_one hpos).mpr hle⟩

/-- Normalized activity is a fraction if toggles are bounded by steps times width. -/
theorem normalizedActivity_mem_Icc {timeSteps : ℕ} {signal : Signal} (hwidth : 1 ≤ signal.width)
    (h : (signal.toggles : ℤ) ≤ timeSteps * signal.width) :
    normalizedActivity timeSteps signal ∈ Set.Icc (0 : ℚ) 1 := by
  unfold normalizedActivity
  have hdenom : (signal.toggles : ℤ) ≤ max 1 (timeSteps : ℤ) * max 1 signal.width := by
    have hsteps : (timeSteps : ℤ) ≤ max 1 (timeSteps : ℤ) := le_max_right _ _
    have hw : signal.width ≤ max 1 signal.width := le_max_right _ _
    calc (signal.toggles : ℤ) ≤ timeSteps * signal.width := h
      _ ≤ max 1 (timeSteps : ℤ) * max 1 signal.width := by gcongr
  have hpos : (0 : ℤ) < max 1 (timeSteps : ℤ) * max 1 signal.width := by positivity
  constructor
  · positivity
  · rw [div_le_one (by exact_mod_cast hpos)]
    exact_mod_cast hdenom

/-- The power of a block with a fraction as activity. -/
theorem blockPower_mem_Icc {row : RegionRow} (h : row.avgNormalizedActivity ∈ Set.Icc (0 : ℚ) 1)
    (basePower : ℚ) {dynamicScale : ℚ} (hscale : 0 ≤ dynamicScale) :
    blockPower basePower dynamicScale row ∈ Set.Icc basePower (basePower + dynamicScale) := by
  unfold blockPower
  constructor
  · have := mul_nonneg hscale h.1
    linarith
  · have := mul_le_of_le_one_right hscale h.2
    linarith

/-! ## Dumps -/

/-- A body as a simulator writes it under a header: values fit the widths, and no code
changes twice between two marks. -/
structure OncePerSection (header body : List Command) : Prop where
  widths : ∀ d ∈ declarations [] header, 1 ≤ d.width
  lengths : ∀ code signal, (declaredTable header).get? code = some signal →
    ∀ v ∈ valuesOf code body, (v.length : ℤ) ≤ signal.width
  once : ∀ s ∈ sections body, ∀ code, (valuesOf code s).length ≤ 1

/-- Every signal of the final table has a fraction as activity. -/
theorem signals_mem_Icc {header body : List Command} (h : OncePerSection header body) :
    ∀ signal ∈ (finalTable header body).values,
      normalizedActivity (timesOf body).length signal ∈ Set.Icc (0 : ℚ) 1 := by
  intro signal hsignal
  rcases List.mem_map.mp hsignal with ⟨⟨code, signal⟩, hentry, rfl⟩
  have hget := (OrderedDict.get?_eq_some_iff _ _ _).mpr hentry
  rw [get?_finalTable] at hget
  obtain ⟨d, hd, rfl⟩ := Option.map_eq_some_iff.mp hget
  have hwidth : 1 ≤ d.width := h.widths d (List.mem_of_find?_eq_some hd)
  have hdeclared : (declaredTable header).get? code = some (Signal.fresh d.path d.width) := by
    rw [get?_declaredTable, hd]
    rfl
  rw [Signal.recordAll_fresh]
  refine normalizedActivity_mem_Icc hwidth (toggleSum_le hwidth ?_ (h.lengths code _ hdeclared))
  exact length_valuesOf_le (fun s hs => h.once s hs code)

/-- **Normalized activity is a fraction and power is bounded.**  For a dump whose body
changes each code at most once between marks, every signal's and every region's
activity lies in `[0, 1]`, hence every block power in
`[base_power, base_power + dynamic_scale]`. -/
theorem activity_bounds [PyStr] (vcd : List UInt8) (header body : List Command)
    (hvcd : ReadsAs vcd header body) (h : OncePerSection header body) (workload : Str)
    (terms : Terms) (topSignals : ℤ) (excludeClocks : Bool) :
    ∃ signals timeSteps lastTime, iterVcd vcd = .ok (signals, timeSteps, lastTime) ∧
      (∀ signal ∈ signals.values, normalizedActivity timeSteps signal ∈ Set.Icc (0 : ℚ) 1) ∧
      ∀ out, out = Job.writeOutputs ⟨timeSteps, lastTime, workload, terms, excludeClocks⟩ signals
          topSignals →
        (∀ row ∈ out.1, row.normalizedActivity ∈ Set.Icc (0 : ℚ) 1) ∧
        (∀ row ∈ out.2, row.avgNormalizedActivity ∈ Set.Icc (0 : ℚ) 1) ∧
        ∀ basePower dynamicScale : ℚ, 0 ≤ dynamicScale → ∀ row ∈ readRegions out.2,
          blockPower basePower dynamicScale row ∈ Set.Icc basePower (basePower + dynamicScale) := by
  refine ⟨_, _, _, iterVcd_of_readsAs hvcd, signals_mem_Icc h, ?_⟩
  rintro _ rfl
  set job : Job := ⟨(timesOf body).length, (timesOf body).reduceOption.getLast?.getD 0, workload,
    terms, excludeClocks⟩ with hjob
  set signals := finalTable header body with hsignals
  have hkept : ∀ signal ∈ job.kept signals,
      normalizedActivity job.timeSteps signal ∈ Set.Icc (0 : ℚ) 1 :=
    fun signal hsignal => signals_mem_Icc h signal (List.mem_of_mem_filter hsignal)
  have hregions : ∀ row ∈ (job.writeOutputs signals topSignals).2,
      row.avgNormalizedActivity ∈ Set.Icc (0 : ℚ) 1 := by
    intro row hrow
    rw [((accountsFor_writeOutputs job signals topSignals).aggregate row hrow).2.2]
    refine mean_mem_Icc (fun x hx => ?_)
    rcases List.mem_map.mp hx with ⟨signal, hsignal, rfl⟩
    exact hkept signal (List.mem_of_mem_filter hsignal)
  refine ⟨fun row hrow => ?_, hregions, fun basePower dynamicScale hscale row hrow => ?_⟩
  · obtain ⟨omitted, hperm, -⟩ := (selects_writeOutputs job signals topSignals).rest
    have hmem := hperm.mem_iff.mp (List.mem_append_left omitted hrow)
    rcases List.mem_map.mp hmem with ⟨signal, hsignal, rfl⟩
    exact hkept signal hsignal
  · have hmem := mem_sortedBy.mp hrow
    exact blockPower_mem_Icc (hregions row hmem) basePower hscale

/-! ## A pulse -/

/-- A four-bit bus. -/
def pulseHeader : List Statement :=
  [.var "wire".toList (.digit 4) ['!'] "data".toList []]

/-- An unknown value before the first mark, then a pulse on all bits. -/
def pulseBody : List Statement :=
  [.vector 'b' ['x'] ['!'], .time (.digit 0), .vector 'b' ['1', '1', '1', '1'] ['!'],
    .time (.digit 5), .vector 'b' ['0'] ['!']]

/-- The dump of the pulse. -/
def pulseDump : List UInt8 :=
  linesFile (["$var wire 4 ! data $end", "$enddefinitions $end", "bx !", "#0", "b1111 !", "#5",
    "b0 !"].map String.toList)

theorem readsAs_pulseDump :
    ReadsAs pulseDump (pulseHeader.map Statement.command) (pulseBody.map Statement.command) := by
  refine readsAs_of_rendersAs (by simp [pulseHeader, Statement.IsDeclaration]) ?_ ?_
  · have hradix : 'b' ∈ "bBrR".toList := by decide
    intro st hst
    fin_cases hst
    · exact hradix
    · trivial
    · exact hradix
    · trivial
    · exact hradix
  · unfold RendersAs pulseDump
    rw [rawLines_linesFile (by decide +kernel)]
    rfl

theorem oncePerSection_pulse :
    OncePerSection (pulseHeader.map Statement.command) (pulseBody.map Statement.command) := by
  constructor
  · decide
  · intro code signal hget v hv
    rw [get?_declaredTable] at hget
    obtain ⟨d, hd, rfl⟩ := Option.map_eq_some_iff.mp hget
    have hwidth : d.width = 4 := by
      rw [List.mem_singleton.mp (List.mem_of_find?_eq_some hd)]
      rfl
    show (v.length : ℤ) ≤ d.width
    have hcode : code = ['!'] := by
      have h := List.find?_some hd
      rw [decide_eq_true_eq, List.mem_singleton.mp (List.mem_of_find?_eq_some hd)] at h
      exact h.symm
    rw [hwidth]
    subst hcode
    revert v
    decide +kernel
  · intro s hs code
    have hlength : (valuesOf code s).length ≤ s.length := List.length_filterMap_le _ _
    have hsections : ∀ s ∈ sections (pulseBody.map Statement.command), s.length ≤ 1 := by decide
    exact hlength.trans (hsections s hs)

theorem activity_bounds_pulse :
    ∃ signals timeSteps lastTime, iterVcd pulseDump = .ok (signals, timeSteps, lastTime) ∧
      ∀ row ∈ readRegions
          (@Job.writeOutputs asciiStr ⟨timeSteps, lastTime, [], builtinTerms, false⟩ signals 0).2,
        blockPower (1 / 20) 2 row ∈ Set.Icc (1 / 20 : ℚ) (1 / 20 + 2) := by
  obtain ⟨signals, timeSteps, lastTime, hread, -, hout⟩ :=
    @activity_bounds asciiStr pulseDump _ _ readsAs_pulseDump oncePerSection_pulse [] builtinTerms 0
      false
  exact ⟨signals, timeSteps, lastTime, hread, (hout _ rfl).2.2 _ 2 (by norm_num)⟩

end Activity
