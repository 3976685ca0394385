/-
# The counters of a rendered dump

A dump is rendered one command per line: a header forest whose variables have
pairwise distinct codes, `$enddefinitions`, and a body of `#t` lines and binary
value changes.  `iterVcd_counts` gives every number `iter_vcd` returns for it in
terms of what was written: for each signal the toggles are the summed Hamming
distances of its consecutive zero-extended values, the changes are the pairs that
differ, and the last value is the last one written.
-/
import ThermalPlacement.HeaderForest
import ThermalPlacement.ToggleDelta

open PyText

namespace Vcd

/-! ## What a body writes -/

/-- The value that a statement gives to a code. -/
def Statement.valueFor (code : Str) : Statement → Option Str
  | .scalar value code' => if code' = code then some [value] else none
  | .vector _ value code' => if code' = code then some value else none
  | _ => none

/-- The number on a `#` line. -/
def Statement.timeMark : Statement → Option ℕ
  | .time t => some t.value
  | _ => none

/-- The value sequence of a code. -/
def writtenValues (code : Str) (body : List Statement) : List Str :=
  body.filterMap (Statement.valueFor code)

/-- The numbers on the `#` lines. -/
def writtenTimes (body : List Statement) : List ℕ := body.filterMap Statement.timeMark

/-- A `#t` line, or a binary value of length `1` to `w` for a declared code of
width `w`, as `<bit><code>` or as `b<bits> <code>`. -/
def Statement.WritesBinary (declared : List Declaration) : Statement → Prop
  | .time _ => True
  | .scalar value code => (value = '0' ∨ value = '1') ∧ ∃ d ∈ declared, d.code = code
  | .vector radix value code =>
      radix = 'b' ∧ IsBinary value ∧
        ∃ d ∈ declared, d.code = code ∧ 1 ≤ value.length ∧ (value.length : ℤ) ≤ d.width
  | _ => False

theorem isSimulation_of_writesBinary {declared : List Declaration} {st : Statement}
    (h : st.WritesBinary declared) : st.IsSimulation := by
  cases st with
  | time _ => trivial
  | scalar value code =>
      show value ∈ "01xzXZ".toList
      rcases h.1 with rfl | rfl <;> decide
  | vector radix value code =>
      show radix ∈ "bBrR".toList
      rw [h.1]
      decide
  | scope _ _ => exact h.elim
  | upscope => exact h.elim
  | var _ _ _ _ _ => exact h.elim
  | enddefinitions => exact h.elim
  | keyword _ => exact h.elim
  | text _ _ => exact h.elim

/-- Lower-casing leaves binary texts alone. -/
theorem map_toLower_of_isBinary {u : Str} (hu : IsBinary u) : u.map Char.toLower = u := by
  refine (List.map_congr_left (fun c hc => ?_)).trans (List.map_id u)
  rcases hu c hc with rfl | rfl <;> rfl

/-- The commands of a binary body give a code the written values. -/
theorem valuesOf_map_command {declared : List Declaration} {body : List Statement}
    (h : ∀ st ∈ body, st.WritesBinary declared) (code : Str) :
    valuesOf code (body.map Statement.command) = writtenValues code body := by
  unfold valuesOf writtenValues
  rw [List.filterMap_map]
  refine List.filterMap_congr (fun st hst => ?_)
  have hb := h st hst
  cases st with
  | scalar value code' =>
      have hlow : value.toLower = value := by rcases hb.1 with rfl | rfl <;> rfl
      show (if code' = code then some [value.toLower] else none) = _
      rw [hlow]
      rfl
  | vector radix value code' =>
      show (if code' = code then some (value.map Char.toLower) else none) = _
      rw [map_toLower_of_isBinary hb.2.1]
      rfl
  | _ => rfl

theorem timesOf_map_command (body : List Statement) :
    timesOf (body.map Statement.command)
      = (writtenTimes body).map (fun t : ℕ => some (t : ℤ)) := by
  unfold timesOf writtenTimes
  rw [List.filterMap_map, List.map_filterMap]
  refine List.filterMap_congr (fun st _ => ?_)
  cases st <;> rfl

/-- The values written for a declared code are binary and fit its width. -/
theorem writtenValues_fit {declared : List Declaration} {body : List Statement}
    (hnodup : (declared.map Declaration.code).Nodup) (hwidths : ∀ d ∈ declared, 1 ≤ d.width)
    (h : ∀ st ∈ body, st.WritesBinary declared) {d : Declaration} (hd : d ∈ declared) :
    ∀ u ∈ writtenValues d.code body, IsBinary u ∧ (u.length : ℤ) ≤ d.width := by
  intro u hu
  rcases List.mem_filterMap.mp hu with ⟨st, hst, hval⟩
  have hb := h st hst
  cases st with
  | scalar value code =>
      have hval' : (if code = d.code then some [value] else none) = some u := hval
      split_ifs at hval' with hc
      obtain rfl := Option.some.inj hval'
      refine ⟨fun c hc => ?_, by simpa using hwidths d hd⟩
      rw [List.mem_singleton.mp hc]
      exact hb.1
  | vector radix value code =>
      have hval' : (if code = d.code then some value else none) = some u := hval
      split_ifs at hval' with hc
      obtain rfl := Option.some.inj hval'
      obtain ⟨-, hbin, d', hd', hcode, -, hlen⟩ := hb
      have hdd : d' = d := List.inj_on_of_nodup_map hnodup hd' hd (hcode.trans hc)
      exact ⟨hbin, hdd ▸ hlen⟩
  | time _ => exact absurd hval (by simp [Statement.valueFor])
  | scope _ _ => exact hb.elim
  | upscope => exact hb.elim
  | var _ _ _ _ _ => exact hb.elim
  | enddefinitions => exact hb.elim
  | keyword _ => exact hb.elim
  | text _ _ => exact hb.elim

/-! ## The counters -/

/-- Over binary values that fit the width, toggles are summed Hamming distances. -/
theorem toggleSum_binary {w : ℕ} {values : List Str}
    (h : ∀ u ∈ values, IsBinary u ∧ u.length ≤ w) :
    toggleSum w values
      = pairSum (fun u v => hammingDist (zeroExtend w u) (zeroExtend w v)) values :=
  pairSum_congr_of_mem (fun u hu v hv =>
    valueToggleDelta_binary (h u hu).1 (h v hv).1 (h u hu).2 (h v hv).2)

/-- Over binary values that fit the width, changes are the consecutive pairs with
different values. -/
theorem changeCount_binary {w : ℕ} {values : List Str}
    (h : ∀ u ∈ values, IsBinary u ∧ u.length ≤ w) :
    changeCount w values
      = (values.zip values.tail).countP (fun p => zeroExtend w p.1 ≠ zeroExtend w p.2) := by
  rw [← pairSum_ite (fun u v => zeroExtend w u ≠ zeroExtend w v)]
  refine pairSum_congr_of_mem (fun u hu v hv => ?_)
  have hiff := valueToggleDelta_eq_zero_iff (h u hu).1 (h v hv).1 (h u hu).2 (h v hv).2
  exact if_congr hiff.not rfl rfl

theorem eraseDups_of_nodup {α : Type*} [BEq α] [LawfulBEq α] {l : List α} (h : l.Nodup) :
    l.eraseDups = l := by
  induction l with
  | nil => rfl
  | cons a l ih =>
      obtain ⟨ha, hl⟩ := List.nodup_cons.mp h
      rw [List.eraseDups_cons, List.filter_eq_self.mpr, ih hl]
      intro b hb
      have hne : b ≠ a := fun e => ha (e ▸ hb)
      simpa using hne

theorem find?_code_of_mem {declared : List Declaration}
    (hnodup : (declared.map Declaration.code).Nodup) {d : Declaration} (hd : d ∈ declared) :
    declared.find? (fun d' => d'.code = d.code) = some d := by
  cases hfind : declared.find? (fun d' => d'.code = d.code) with
  | none =>
      rw [List.find?_eq_none] at hfind
      exact absurd (decide_eq_true rfl) (hfind d hd)
  | some d' =>
      have hcode : d'.code = d.code := by simpa using List.find?_some hfind
      rw [List.inj_on_of_nodup_map hnodup (List.mem_of_find?_eq_some hfind) hd hcode]

/-- **The counters of a rendered dump.**  `time_steps` is the number of `#` lines,
`last_time` the number on the last one, and every declared signal has the summed
Hamming distances of its consecutive values as toggles, the number of consecutive
pairs that differ as changes, and its last written value as last value. -/
theorem iterVcd_counts (forest : List Item) (body : List Statement) (file : List UInt8)
    (hfile : RendersAs file (forestStatements forest ++ .enddefinitions :: body))
    (hcodes : ((forestVariables [] forest).map Declaration.code).Nodup)
    (hwidths : ∀ d ∈ forestVariables [] forest, 1 ≤ d.width)
    (hbody : ∀ st ∈ body, st.WritesBinary (forestVariables [] forest)) :
    ∃ signals, iterVcd file = .ok (signals, (writtenTimes body).length,
        (((writtenTimes body).getLast?.getD 0 : ℕ) : ℤ)) ∧
      signals.keys = (forestVariables [] forest).map Declaration.code ∧
      ∀ d ∈ forestVariables [] forest, ∃ signal, signals.get? d.code = some signal ∧
        signal.path = d.path ∧ signal.width = d.width ∧
        signal.toggles = pairSum
          (fun u v => hammingDist (zeroExtend d.width.toNat u) (zeroExtend d.width.toNat v))
          (writtenValues d.code body) ∧
        signal.changes = ((writtenValues d.code body).zip (writtenValues d.code body).tail).countP
          (fun p => zeroExtend d.width.toNat p.1 ≠ zeroExtend d.width.toNat p.2) ∧
        signal.last = (writtenValues d.code body).getLast? := by
  have hreads := readsAs_of_rendersAs (isDeclaration_forest forest)
    (fun st hst => isSimulation_of_writesBinary (hbody st hst)) hfile
  have hdecl : declarations [] ((forestStatements forest).map Statement.command)
      = forestVariables [] forest := declarations_forestCommands forest
  refine ⟨finalTable ((forestStatements forest).map Statement.command)
    (body.map Statement.command), ?_, ?_, fun d hd => ?_⟩
  · rw [iterVcd_of_readsAs hreads, timesOf_map_command, List.length_map]
    -- every `#` line of the body carries a number
    have hreduce : ((writtenTimes body).map (fun t : ℕ => some (t : ℤ))).reduceOption
        = (writtenTimes body).map (fun t : ℕ => (t : ℤ)) := by
      unfold List.reduceOption
      rw [List.filterMap_map]
      exact congrFun List.filterMap_eq_map _
    rw [hreduce, List.getLast?_map]
    cases (writtenTimes body).getLast? <;> rfl
  · rw [keys_finalTable, hdecl, eraseDups_of_nodup hcodes]
  · -- widths are integers in the table and natural numbers in the vectors
    have hw : ((d.width.toNat : ℕ) : ℤ) = d.width := by
      have := hwidths d hd
      omega
    have hfit : ∀ u ∈ writtenValues d.code body, IsBinary u ∧ u.length ≤ d.width.toNat := by
      intro u hu
      obtain ⟨hbin, hlen⟩ := writtenValues_fit hcodes hwidths hbody hd u hu
      exact ⟨hbin, by omega⟩
    have htoggles := toggleSum_binary hfit
    have hchanges := changeCount_binary hfit
    rw [hw] at htoggles hchanges
    refine ⟨(Signal.fresh d.path d.width).recordAll (writtenValues d.code body), ?_, ?_⟩
    · rw [get?_finalTable, hdecl, find?_code_of_mem hcodes hd, valuesOf_map_command hbody]
      rfl
    · rw [Signal.recordAll_fresh]
      exact ⟨rfl, rfl, htoggles, hchanges, rfl⟩

/-! ## A small waveform -/

/-- A valid bit and a four-bit bus. -/
def waveForest : List Item :=
  [.scope "module".toList "top".toList
    [.var "wire".toList (.digit 1) ['!'] "valid".toList [],
     .var "wire".toList (.digit 4) ['%'] "data".toList ["[3:0]".toList]]]

/-- The bus goes from `0101` to `0010`, the valid bit rises. -/
def waveBody : List Statement :=
  [.time (.digit 0), .scalar '0' ['!'], .vector 'b' ['1', '0', '1'] ['%'],
    .time (.digit 5), .vector 'b' ['1', '0'] ['%'], .scalar '1' ['!']]

/-- The dump of the waveform. -/
def waveDump : List UInt8 :=
  linesFile (["$scope module top $end", "$var wire 1 ! valid $end", "$var wire 4 % data [3:0] $end",
    "$upscope $end", "$enddefinitions $end", "#0", "0!", "b101 %", "#5", "b10 %", "1!"].map
      String.toList)

theorem rendersAs_waveDump :
    RendersAs waveDump (forestStatements waveForest ++ .enddefinitions :: waveBody) := by
  unfold RendersAs waveDump
  rw [rawLines_linesFile (by decide +kernel)]
  rfl

theorem iterVcd_counts_wave :
    ∃ signals, iterVcd waveDump = .ok (signals, 2, 5) ∧
      ∃ bus, signals.get? ['%'] = some bus ∧ bus.toggles = 3 ∧ bus.changes = 1 ∧
        bus.last = some ['1', '0'] := by
  obtain ⟨signals, hrun, -, hsignals⟩ := iterVcd_counts waveForest waveBody _
    rendersAs_waveDump (by decide +kernel) (by decide +kernel)
    (by
      intro st hst
      fin_cases hst
      · trivial
      · exact ⟨Or.inl rfl, by decide +kernel⟩
      · exact ⟨rfl, by simp [IsBinary], by decide +kernel⟩
      · trivial
      · exact ⟨rfl, by simp [IsBinary], by decide +kernel⟩
      · exact ⟨Or.inr rfl, by decide +kernel⟩)
  refine ⟨signals, hrun, ?_⟩
  obtain ⟨bus, hget, -, -, htoggles, hchanges, hlast⟩ :=
    hsignals ⟨['%'], "top.data[3:0]".toList, 4⟩ (by decide +kernel)
  exact ⟨bus, hget, htoggles.trans (by decide +kernel), hchanges.trans (by decide +kernel),
    hlast.trans (by decide +kernel)⟩

end Vcd
