/-
# Spelling of values

One vector has several spellings in a dump.  For fully known vectors the counters do
not depend on them.  A value with an `x` or a `z` is compared with the next such value
as a text (the guard `set(old) <= {"0", "1"}` of `value_toggle_delta` sends every
other pair to the constant branch), so there a change of spelling counts.

`spelling_independence` has three parts: single values, bodies that are respelled
value by value, and bodies in which current values are restated, as `$dumpall` does.
-/
import ThermalPlacement.ToggleDelta
import ThermalPlacement.HeaderForest

open PyText

namespace Vcd

/-! ## Single values -/

/-- `u` and `u'` cannot be told apart by toggle counts. -/
def Interchangeable (w : ℕ) (u u' : Str) : Prop :=
  valueToggleDelta u u' w = 0 ∧ ∀ v, IsSpelling w v →
    valueToggleDelta u v w = valueToggleDelta u' v w ∧
      valueToggleDelta v u w = valueToggleDelta v u' w

/-- Spellings of one vector count nothing between them if it is fully known. -/
theorem valueToggleDelta_known {w : ℕ} {u u' : Str} (hu : IsBinary u) (h : SameValue w u u')
    (width : ℤ) : valueToggleDelta u u' width = 0 := by
  rw [← (valueToggleDelta_congr_known hu h u width).2, valueToggleDelta_self]

/-- Different spellings of a vector with unknown digits count one toggle. -/
theorem valueToggleDelta_unknown {w : ℕ} {u u' : Str} (hu : ¬ IsBinary u) (hne : u ≠ u') :
    valueToggleDelta u u' w = 1 := by
  rw [valueToggleDelta_of_not_binary _ (fun e => hu e.1), if_neg hne]

theorem interchangeable_iff {w : ℕ} {u u' : Str} (h : SameValue w u u') :
    Interchangeable w u u' ↔ u = u' ∨ IsBinary u := by
  constructor
  · intro hint
    by_contra hnot
    rw [not_or] at hnot
    have hone := valueToggleDelta_unknown (w := w) hnot.2 hnot.1
    rw [hint.1] at hone
    exact absurd hone (by decide)
  · rintro (rfl | hu)
    · exact ⟨valueToggleDelta_self _ _, fun v _ => ⟨rfl, rfl⟩⟩
    · exact ⟨valueToggleDelta_known hu h w, fun v _ => valueToggleDelta_congr_known hu h v w⟩

/-! ## Sequences of values -/

/-- Neighbours with unknown digits are the same text on both sides or on neither. -/
def TextsAgree (values values' : List Str) : Prop :=
  (values.zip values').IsChain
    (fun p q => ¬ IsBinary p.1 → ¬ IsBinary q.1 → (p.1 = q.1 ↔ p.2 = q.2))

instance (values values' : List Str) : Decidable (TextsAgree values values') :=
  inferInstanceAs (Decidable (List.IsChain _ _))

theorem toggleSum_respell {w : ℕ} {values values' : List Str}
    (h : List.Forall₂ (SameValue w) values values') (htexts : TextsAgree values values')
    (width : ℤ) : toggleSum width values = toggleSum width values' :=
  pairSum_congr (R := SameValue w)
    (fun _ _ _ _ ha hb htext => valueToggleDelta_respell ha hb htext width) h htexts

theorem changeCount_respell {w : ℕ} {values values' : List Str}
    (h : List.Forall₂ (SameValue w) values values') (htexts : TextsAgree values values')
    (width : ℤ) : changeCount width values = changeCount width values' := by
  refine pairSum_congr (R := SameValue w) (fun a b a' b' ha hb htext => ?_) h htexts
  rw [valueToggleDelta_respell ha hb htext width]

/-- `v` states again what `u` said: the same text, or any spelling of a fully known
vector. -/
def Restates (w : ℕ) (u v : Str) : Prop := u = v ∨ IsBinary u ∧ SameValue w u v

theorem Restates.delta_eq_zero {w : ℕ} {u v : Str} (h : Restates w u v) (width : ℤ) :
    valueToggleDelta u v width = 0 := by
  rcases h with rfl | ⟨hu, hsame⟩
  · exact valueToggleDelta_self _ _
  · exact valueToggleDelta_known hu hsame width

theorem Restates.delta_eq {w : ℕ} {u v : Str} (h : Restates w u v) (x : Str) (width : ℤ) :
    valueToggleDelta v x width = valueToggleDelta u x width := by
  rcases h with rfl | ⟨hu, hsame⟩
  · rfl
  · exact (valueToggleDelta_congr_known hu hsame x width).1.symm

theorem toggleSum_restate {w : ℕ} {u : Str} {dump : List Str} (h : ∀ v ∈ dump, Restates w u v)
    (pre post : List Str) (width : ℤ) :
    toggleSum width (pre ++ u :: (dump ++ post)) = toggleSum width (pre ++ u :: post) := by
  unfold toggleSum
  refine pairSum_drop (fun v hv => ?_) (fun v hv x => ?_) pre post
  · exact (h v hv).delta_eq_zero width
  · exact (h v hv).delta_eq x width

theorem changeCount_restate {w : ℕ} {u : Str} {dump : List Str} (h : ∀ v ∈ dump, Restates w u v)
    (pre post : List Str) (width : ℤ) :
    changeCount width (pre ++ u :: (dump ++ post)) = changeCount width (pre ++ u :: post) := by
  unfold changeCount
  refine pairSum_drop (fun v hv => ?_) (fun v hv x => ?_) pre post
  · rw [(h v hv).delta_eq_zero width]
    exact if_neg (by simp)
  · rw [(h v hv).delta_eq x width]

/-! ## Bodies -/

/-- A command with its value respelled, if it is a change of a declared code. -/
def Command.Respells (table : OrderedDict Str Signal) : Command → Command → Prop
  | .change v code, .change v' code' =>
      code = code' ∧ ∀ signal, table.get? code = some signal → SameValue signal.width.toNat v v'
  | c, c' => c = c'

theorem valuesOf_respells {table : OrderedDict Str Signal} {body body' : List Command}
    (h : List.Forall₂ (Command.Respells table) body body') {code : Str} {signal : Signal}
    (hget : table.get? code = some signal) :
    List.Forall₂ (SameValue signal.width.toNat) (valuesOf code body) (valuesOf code body') := by
  induction h with
  | nil => exact List.Forall₂.nil
  | @cons c c' body body' hc _ ih =>
      cases c with
      | change v code₁ =>
          cases c' with
          | change v' code₂ =>
              obtain ⟨rfl, hsame⟩ := hc
              rw [valuesOf_cons_change, valuesOf_cons_change]
              split_ifs with heq
              · exact List.Forall₂.cons (hsame signal (heq ▸ hget)) ih
              · exact ih
          | _ => exact absurd hc (by simp [Command.Respells])
      | _ =>
          obtain rfl : _ = c' := hc
          exact ih

/-- What the table counts for a code. -/
def counters (signals : OrderedDict Str Signal) (code : Str) : Option (ℕ × ℕ) :=
  (signals.get? code).map (fun signal => (signal.toggles, signal.changes))

theorem counters_finalTable (header body : List Command) (code : Str) :
    counters (finalTable header body) code
      = ((declaredTable header).get? code).map (fun signal =>
          (toggleSum signal.width (valuesOf code body),
            changeCount signal.width (valuesOf code body))) := by
  unfold counters
  rw [get?_finalTable, get?_declaredTable, Option.map_map, Option.map_map]
  congr 1
  funext d
  dsimp only [Function.comp_apply]
  rw [Signal.recordAll_fresh]
  rfl

/-- Respelling a body value by value. -/
theorem counters_respell {header body body' : List Command}
    (h : List.Forall₂ (Command.Respells (declaredTable header)) body body')
    (htexts : ∀ code ∈ (declaredTable header).keys,
      TextsAgree (valuesOf code body) (valuesOf code body')) (code : Str) :
    counters (finalTable header body) code = counters (finalTable header body') code := by
  rw [counters_finalTable, counters_finalTable]
  cases hget : (declaredTable header).get? code with
  | none => rfl
  | some signal =>
      have hsame := valuesOf_respells h hget
      have hagree := htexts code ((OrderedDict.mem_keys_iff _ _).mpr ⟨signal, hget⟩)
      show some (toggleSum _ _, changeCount _ _) = some (toggleSum _ _, changeCount _ _)
      rw [toggleSum_respell hsame hagree, changeCount_respell hsame hagree]

/-- Every value in `dump` restates the value its code has after `pre`. -/
def RestatesAfter (header pre dump : List Command) : Prop :=
  ∀ code signal, (declaredTable header).get? code = some signal →
    ∀ v ∈ valuesOf code dump, ∃ u, (valuesOf code pre).getLast? = some u ∧
      Restates signal.width.toNat u v

/-- Restating current values in the middle of a body. -/
theorem counters_restate {header pre dump : List Command} (h : RestatesAfter header pre dump)
    (post : List Command) (code : Str) :
    counters (finalTable header (pre ++ (dump ++ post))) code
      = counters (finalTable header (pre ++ post)) code := by
  rw [counters_finalTable, counters_finalTable]
  cases hget : (declaredTable header).get? code with
  | none => rfl
  | some signal =>
      have hdump := h code signal hget
      rw [valuesOf_append, valuesOf_append, valuesOf_append]
      cases hlast : (valuesOf code pre).getLast? with
      | none =>
          -- without a value there is nothing to restate
          have hnil : valuesOf code dump = [] := by
            refine List.eq_nil_iff_forall_not_mem.mpr (fun v hv => ?_)
            obtain ⟨u, hu, -⟩ := hdump v hv
            rw [hlast] at hu
            cases hu
          rw [hnil, List.nil_append]
      | some u =>
          obtain ⟨earlier, hpre⟩ := List.getLast?_eq_some_iff.mp hlast
          have hrestate : ∀ v ∈ valuesOf code dump, Restates signal.width.toNat u v := by
            intro v hv
            obtain ⟨u', hu', hr⟩ := hdump v hv
            rw [hlast] at hu'
            exact Option.some.inj hu' ▸ hr
          show some (toggleSum _ _, changeCount _ _) = some (toggleSum _ _, changeCount _ _)
          rw [hpre, List.append_assoc, List.append_assoc]
          show some (toggleSum _ (earlier ++ u :: (valuesOf code dump ++ valuesOf code post)),
            changeCount _ (earlier ++ u :: (valuesOf code dump ++ valuesOf code post))) = _
          rw [toggleSum_restate hrestate, changeCount_restate hrestate]
          rfl

/-! ## Whole files -/

/-- Both files are read to the end, and every code has the same counters in both. -/
def SameCounters (file file' : List UInt8) : Prop :=
  ∃ r r', iterVcd file = .ok r ∧ iterVcd file' = .ok r' ∧
    ∀ code, counters r.1 code = counters r'.1 code

/-- **How far toggle accounting is independent of spelling.**  Spellings of one
vector are interchangeable exactly if they are the same text or the vector is fully
known; unknown ones differ by one toggle and are interchangeable against every other
vector.  A body may be respelled if neighbours with unknown digits stay equal or stay
different as texts, and current values may be restated. -/
theorem spelling_independence :
    (∀ (w : ℕ) (u u' : Str), IsSpelling w u → IsSpelling w u' → vectorOf w u = vectorOf w u' →
      (Interchangeable w u u' ↔ u = u' ∨ IsBinary u) ∧
      (¬ IsBinary u → u ≠ u' → valueToggleDelta u u' w = 1) ∧
      ∀ v, IsSpelling w v → vectorOf w v ≠ vectorOf w u →
        valueToggleDelta u v w = valueToggleDelta u' v w ∧
          valueToggleDelta v u w = valueToggleDelta v u' w) ∧
    (∀ (file file' : List UInt8) (header body body' : List Command),
      ReadsAs file header body → ReadsAs file' header body' →
      List.Forall₂ (Command.Respells (declaredTable header)) body body' →
      (∀ code ∈ (declaredTable header).keys,
        TextsAgree (valuesOf code body) (valuesOf code body')) →
      SameCounters file file') ∧
    (∀ (file file' : List UInt8) (header pre dump post : List Command),
      ReadsAs file header (pre ++ post) → ReadsAs file' header (pre ++ (dump ++ post)) →
      RestatesAfter header pre dump → SameCounters file file') := by
  refine ⟨fun w u u' hu hu' hvec => ?_, fun file file' header body body' hf hf' h htexts => ?_,
    fun file file' header pre dump post hf hf' h => ?_⟩
  · have hsame : SameValue w u u' := Or.inr ⟨hu, hu', hvec⟩
    exact ⟨interchangeable_iff hsame, fun hnot hne => valueToggleDelta_unknown hnot hne,
      fun v _ hv => valueToggleDelta_congr_of_ne hsame hv w⟩
  · exact ⟨_, _, iterVcd_of_readsAs hf, iterVcd_of_readsAs hf', counters_respell h htexts⟩
  · exact ⟨_, _, iterVcd_of_readsAs hf, iterVcd_of_readsAs hf',
      fun code => (counters_restate h post code).symm⟩

/-- `x` and `xx` spell one two-bit vector, and going from one to the other counts a
toggle. -/
theorem spelling_dependence_xx :
    IsSpelling 2 ['x'] ∧ IsSpelling 2 ['x', 'x'] ∧ vectorOf 2 ['x'] = vectorOf 2 ['x', 'x'] ∧
      ¬ valueToggleDelta ['x'] ['x', 'x'] 2 = 0 := by
  decide

/-! ## A bus -/

/-- The declaration of a four-bit bus. -/
def busHeader : List Statement := [.var "wire".toList (.digit 4) ['!'] "data".toList []]

/-- The bus takes the given values. -/
def busBody (values : List Str) : List Statement := values.map (fun v => .vector 'b' v ['!'])

/-- The dump in which the bus takes the given values. -/
def busDump (values : List Str) : List UInt8 :=
  linesFile ((busHeader ++ .enddefinitions :: busBody values).map Statement.line)

theorem readsAs_busDump {values : List Str} (h : ∀ v ∈ values, ∀ c ∈ v, c ∈ ['0', '1', 'x', 'z']) :
    ReadsAs (busDump values) (busHeader.map Statement.command)
      ((busBody values).map Statement.command) := by
  refine readsAs_of_rendersAs (by simp [busHeader, Statement.IsDeclaration]) ?_
    (rendersAs_linesFile ?_)
  · intro st hst
    rcases List.mem_map.mp hst with ⟨v, -, rfl⟩
    show 'b' ∈ "bBrR".toList
    decide
  · have hfixed : ∀ st ∈ busHeader ++ [.enddefinitions], ∀ w ∈ st.tokens,
        IsWord w ∧ ∀ c ∈ w, c.toNat < 128 := by decide +kernel
    intro st hst
    rw [← List.singleton_append, ← List.append_assoc] at hst
    rcases List.mem_append.mp hst with hst | hst
    · exact hfixed st hst
    · rcases List.mem_map.mp hst with ⟨v, hv, rfl⟩
      have hchar : ∀ c ∈ 'b' :: v, isSpace c = false ∧ c.toNat < 128 := by
        intro c hc
        rcases List.mem_cons.mp hc with rfl | hc
        · decide
        · have := h v hv c hc
          fin_cases this <;> decide
      intro w hw
      rcases List.mem_pair.mp hw with rfl | rfl
      · exact ⟨⟨List.cons_ne_nil _ _, fun c hc => (hchar c hc).1⟩, fun c hc => (hchar c hc).2⟩
      · decide

theorem width_busTable {code : Str} {signal : Signal}
    (h : (declaredTable (busHeader.map Statement.command)).get? code = some signal) :
    signal.width.toNat = 4 := by
  rw [get?_declaredTable] at h
  obtain ⟨d, hd, rfl⟩ := Option.map_eq_some_iff.mp h
  rw [List.mem_singleton.mp (List.mem_of_find?_eq_some hd)]
  rfl

theorem spelling_independence_bus :
    Interchangeable 4 ['0', '1'] ['0', '0', '1'] ∧
      SameCounters (busDump [['0', '1'], ['x'], ['1']])
        (busDump [['1'], ['x', 'x'], ['0', '0', '1']]) ∧
      SameCounters (busDump [['0', '1'], ['x', '0']])
        (busDump [['0', '1'], ['0', '0', '0', '1'], ['x', '0']]) := by
  obtain ⟨hvalue, hbody, hdump⟩ := spelling_independence
  have hrespell : ∀ u u' : Str, IsSpelling 4 u ∧ IsSpelling 4 u' ∧ vectorOf 4 u = vectorOf 4 u' →
      Command.Respells (declaredTable (busHeader.map Statement.command)) (.change u ['!'])
        (.change u' ['!']) := by
    intro u u' h
    refine ⟨rfl, fun signal hget => ?_⟩
    rw [width_busTable hget]
    exact Or.inr h
  refine ⟨?_, ?_, ?_⟩
  · exact (hvalue 4 ['0', '1'] ['0', '0', '1'] (by decide) (by decide)
      (by decide +kernel)).1.mpr (Or.inr (by decide))
  · refine hbody _ _ _ _ _ (readsAs_busDump (by decide)) (readsAs_busDump (by decide)) ?_
      (by decide +kernel)
    exact List.Forall₂.cons (hrespell _ _ (by decide +kernel))
      (List.Forall₂.cons (hrespell _ _ (by decide +kernel))
        (List.Forall₂.cons (hrespell _ _ (by decide +kernel)) List.Forall₂.nil))
  · refine hdump _ _ _ [.change ['0', '1'] ['!']] [.change ['0', '0', '0', '1'] ['!']]
      [.change ['x', '0'] ['!']] (readsAs_busDump (by decide)) (readsAs_busDump (by decide)) ?_
    intro code signal hget v hv
    rw [width_busTable hget]
    rw [valuesOf_cons_change] at hv
    split_ifs at hv with hcode
    · subst hcode
      rw [List.mem_singleton.mp hv]
      exact ⟨['0', '1'], rfl, Or.inr ⟨by decide, Or.inr (by decide +kernel)⟩⟩
    · exact absurd hv List.not_mem_nil

end Vcd
