/-
# Net changes

How the toggles that are counted between two fully known values of a signal compare with
the bits in which the two differ (`netChange`).  Through known values the count never falls
short, by the triangle inequality.  A run of unknown values is charged at least two toggles,
one on each side, whatever the known values around it are; so it can hide the bits beyond
two (`hiddenBits`).
-/
import ThermalPlacement.ToggleDelta

open PyText

namespace Vcd

/-! ## Net changes of known values -/

/-- The bits in which two values differ, zero-extended to the width. -/
def netChange (w : ℕ) (u v : Str) : ℕ := hammingDist (zeroExtend w u) (zeroExtend w v)

theorem netChange_triangle (w : ℕ) (u v x : Str) :
    netChange w u x ≤ netChange w u v + netChange w v x := hammingDist_triangle _ _ _

theorem netChange_le (w : ℕ) (u v : Str) : netChange w u v ≤ w :=
  hammingDist_le_card_fintype.trans (Fintype.card_fin w).le

theorem netChange_mono {m n : ℕ} (hmn : m ≤ n) (u v : Str) : netChange m u v ≤ netChange n u v := by
  induction n, hmn using Nat.le_induction with
  | base => exact le_refl _
  | succ n _ ih =>
      refine ih.trans ?_
      unfold netChange hammingDist
      rw [Finset.card_filter, Finset.card_filter, Fin.sum_univ_castSucc]
      exact Nat.le_add_right _ _

/-- One step between known values counts at least the bits that change. -/
theorem netChange_le_valueToggleDelta {u v : Str} (hu : IsBinary u) (hv : IsBinary v) (w : ℕ)
    (width : ℤ) : netChange w u v ≤ valueToggleDelta u v width := by
  set n := w + u.length + v.length with hn
  rw [valueToggleDelta_hammingDist hu hv (n := n) (by omega) (by omega)]
  exact netChange_mono (by omega) u v

/-- A step between a known and an unknown value counts one toggle. -/
theorem valueToggleDelta_eq_one {u v : Str} (h : IsBinary u ↔ ¬ IsBinary v) (width : ℤ) :
    valueToggleDelta u v width = 1 := by
  have hne : u ≠ v := by
    rintro rfl
    exact iff_not_self h
  rw [valueToggleDelta_of_not_binary width (fun hboth => h.mp hboth.1 hboth.2), if_neg hne]

/-! ## Sequences of values -/

/-- The bits that unknown values hide.  `known` is the last known value, and `crossed` says
that an unknown one has come after it. -/
def hiddenBits (w : ℕ) : Str → Bool → List Str → ℕ
  | _, _, [] => 0
  | known, crossed, v :: values =>
      if IsBinary v then
        (if crossed then netChange w known v - 2 else 0) + hiddenBits w v false values
      else hiddenBits w known true values

/-- Known values hide nothing. -/
theorem hiddenBits_of_known {w : ℕ} {known : Str} {values : List Str}
    (h : ∀ v ∈ values, IsBinary v) : hiddenBits w known false values = 0 := by
  induction values generalizing known with
  | nil => rfl
  | cons v values ih =>
      obtain ⟨hv, hvalues⟩ := List.forall_mem_cons.mp h
      rw [hiddenBits, if_pos hv, ih hvalues]
      rfl

/-- In two bits there is nothing to hide. -/
theorem hiddenBits_of_le_two {w : ℕ} (hw : w ≤ 2) (known : Str) (crossed : Bool)
    (values : List Str) : hiddenBits w known crossed values = 0 := by
  induction values generalizing known crossed with
  | nil => rfl
  | cons v values ih =>
      have hle := netChange_le w known v
      rw [hiddenBits, ih, ih]
      split_ifs <;> omega

/-- **The net change of a sequence**, from a known value on (`crossed` is `false`), or from an
unknown value that one toggle has led to since the last known one. -/
theorem netChange_le_toggleSum {w : ℕ} {width : ℤ} {v : Str} (hv : IsBinary v)
    (values : List Str) (known current : Str) (hknown : IsBinary known)
    (hlast : (current :: values).getLast? = some v) :
    (current = known →
      netChange w known v ≤ toggleSum width (current :: values)
        + hiddenBits w known false values) ∧
    (¬ IsBinary current →
      netChange w known v ≤ 1 + toggleSum width (current :: values)
        + hiddenBits w known true values) := by
  unfold toggleSum
  induction values generalizing known current with
  | nil =>
      obtain rfl : current = v := by simpa using hlast
      constructor
      · rintro rfl
        simp [netChange]
      · intro h
        exact absurd hv h
  | cons x values ih =>
      rw [List.getLast?_cons_cons] at hlast
      rw [pairSum_cons_cons, hiddenBits, hiddenBits]
      by_cases hx : IsBinary x
      · have hrest := (ih x x hx hlast).1 rfl
        have htriangle := netChange_triangle w known x v
        rw [if_pos hx, if_pos hx]
        constructor
        · rintro rfl
          have hstep := netChange_le_valueToggleDelta hknown hx w width
          simp only [Bool.false_eq_true, if_false]
          omega
        · intro hcurrent
          rw [valueToggleDelta_eq_one (iff_of_false hcurrent (not_not_intro hx))]
          simp only [if_true]
          omega
      · have hrest := (ih known x hknown hlast).2 hx
        rw [if_neg hx, if_neg hx]
        constructor
        · rintro rfl
          rw [valueToggleDelta_eq_one (iff_of_true hknown hx)]
          omega
        · intro _
          omega

/-! ## Leaving values out -/

/-- A known value between two others obeys the triangle inequality. -/
theorem valueToggleDelta_triangle {b : Str} (hb : IsBinary b) (a c : Str) (width : ℤ) :
    valueToggleDelta a c width ≤ valueToggleDelta a b width + valueToggleDelta b c width := by
  by_cases ha : IsBinary a
  · by_cases hc : IsBinary c
    · set n := a.length + b.length + c.length with hn
      rw [valueToggleDelta_hammingDist ha hc (n := n) (by omega) (by omega),
        valueToggleDelta_hammingDist ha hb (n := n) (by omega) (by omega),
        valueToggleDelta_hammingDist hb hc (n := n) (by omega) (by omega)]
      exact hammingDist_triangle _ _ _
    · rw [valueToggleDelta_eq_one (iff_of_true ha hc), valueToggleDelta_eq_one (iff_of_true hb hc)]
      omega
  · have hle : valueToggleDelta a c width ≤ 1 := by
      rw [valueToggleDelta_of_not_binary width (fun h => ha h.1)]
      split_ifs <;> omega
    rw [valueToggleDelta_eq_one (u := a) (v := b) (iff_of_false ha (not_not_intro hb))]
    omega

/-- So does every value among values of at most two digits. -/
theorem valueToggleDelta_triangle_of_le_two {a c : Str} (ha : a.length ≤ 2) (hc : c.length ≤ 2)
    (b : Str) (width : ℤ) :
    valueToggleDelta a c width ≤ valueToggleDelta a b width + valueToggleDelta b c width := by
  by_cases hb : IsBinary b
  · exact valueToggleDelta_triangle hb a c width
  · by_cases hka : IsBinary a
    · rw [valueToggleDelta_eq_one (iff_of_true hka hb)]
      by_cases hkc : IsBinary c
      · rw [valueToggleDelta_eq_one (u := b) (v := c) (iff_of_false hb (not_not_intro hkc)),
          valueToggleDelta_hammingDist hka hkc ha hc]
        exact hammingDist_le_card_fintype.trans (Fintype.card_fin 2).le
      · rw [valueToggleDelta_eq_one (iff_of_true hka hkc)]
        omega
    · -- of two steps that differ as texts, one is left if the middle is taken out
      rw [valueToggleDelta_of_not_binary width (fun h => hka h.1),
        valueToggleDelta_of_not_binary width (fun h => hka h.1),
        valueToggleDelta_of_not_binary width (fun h => hb h.1)]
      by_cases hac : a = c
      · rw [if_pos hac]
        exact Nat.zero_le _
      · rw [if_neg hac]
        by_cases hab : a = b
        · have hbc : b ≠ c := fun hbc => hac (hab.trans hbc)
          rw [if_neg hbc]
          omega
        · rw [if_neg hab]
          omega

/-! ## Runs of the reader -/

/-- What a run of the body does to one signal. -/
theorem Reader.recordAll_of_readLines {s s' : Reader} {lines : List Str} {code : Str}
    {signal signal' : Signal} (hbody : s.inHeader = false) (hread : s.readLines lines = .ok s')
    (hsignal : s.signals.get? code = some signal) (hsignal' : s'.signals.get? code = some signal') :
    signal' = signal.recordAll (valuesOf code (bodyCommands lines)) := by
  rw [Reader.readLines_body hbody] at hread
  obtain rfl := Except.ok.inj hread
  rw [Reader.signals_execAll_body _ _ (fun c hc => inBody_of_mem_bodyCommands hc),
    OrderedDict.get?_mapVals, hsignal] at hsignal'
  exact (Option.some.inj hsignal').symm

/-- The toggles that a run of the body adds to a signal with a known value. -/
theorem toggles_of_readLines {s s' : Reader} {lines : List Str} {code u : Str}
    {signal signal' : Signal} (hbody : s.inHeader = false) (hread : s.readLines lines = .ok s')
    (hsignal : s.signals.get? code = some signal) (hsignal' : s'.signals.get? code = some signal')
    (hlast : signal.last = some u) :
    signal'.toggles = signal.toggles
        + toggleSum signal.width (u :: valuesOf code (bodyCommands lines)) ∧
      signal'.last = (u :: valuesOf code (bodyCommands lines)).getLast? := by
  have hrecord := Reader.recordAll_of_readLines hbody hread hsignal hsignal'
  rw [Signal.recordAll_eq, hlast] at hrecord
  rw [hrecord]
  exact ⟨rfl, rfl⟩

/-- **Net changes and toggles.**  Between two known values of a signal the toggles are at least
the bits in which the two differ, less the bits that unknown values between them hide; nothing
is hidden if the signal has at most two bits or the values between are known.  Leaving out
known values, or values of at most two digits, never raises the toggles. -/
theorem net_change {s s' : Reader} {lines : List Str} {code u v : Str} {signal signal' : Signal}
    (hbody : s.inHeader = false) (hread : s.readLines lines = .ok s')
    (hsignal : s.signals.get? code = some signal) (hsignal' : s'.signals.get? code = some signal')
    (hlast : signal.last = some u) (hlast' : signal'.last = some v) (hu : IsBinary u)
    (hv : IsBinary v) :
    let values := valuesOf code (bodyCommands lines)
    let w := signal.width.toNat
    signal.toggles + netChange w u v ≤ signal'.toggles + hiddenBits w u false values ∧
      ((signal.width ≤ 2 ∨ ∀ x ∈ values, IsBinary x) →
        signal.toggles + netChange w u v ≤ signal'.toggles) ∧
      ∀ lines' s'' signal'', s.readLines lines' = .ok s'' →
        s''.signals.get? code = some signal'' →
        Thins (fun x => IsBinary x ∨ ∀ y ∈ u :: values, y.length ≤ 2) values
          (valuesOf code (bodyCommands lines')) →
        signal''.toggles ≤ signal'.toggles := by
  intro values w
  obtain ⟨htoggles, hlastValue⟩ :
      signal'.toggles = signal.toggles + toggleSum signal.width (u :: values) ∧
        signal'.last = (u :: values).getLast? :=
    toggles_of_readLines hbody hread hsignal hsignal' hlast
  rw [hlast'] at hlastValue
  have hbound : signal.toggles + netChange w u v
      ≤ signal'.toggles + hiddenBits w u false values := by
    have hsum : netChange w u v
        ≤ toggleSum signal.width (u :: values) + hiddenBits w u false values :=
      (netChange_le_toggleSum hv values u u hu hlastValue.symm).1 rfl
    omega
  refine ⟨hbound, fun h => ?_, fun lines' s'' signal'' hread' hsignal'' hthin => ?_⟩
  · have hzero : hiddenBits w u false values = 0 := by
      rcases h with hw | hvalues
      · exact hiddenBits_of_le_two (by omega) u false values
      · exact hiddenBits_of_known hvalues
    omega
  · have htoggles' := (toggles_of_readLines hbody hread' hsignal hsignal'' hlast).1
    have hle : toggleSum signal.width (u :: valuesOf code (bodyCommands lines'))
        ≤ toggleSum signal.width (u :: values) := by
      by_cases hfit : ∀ y ∈ u :: values, y.length ≤ 2
      · obtain ⟨hfitu, hfit⟩ := List.forall_mem_cons.mp hfit
        exact pairSum_cons_le_of_thins (fun a b c ha _ hc _ =>
          valueToggleDelta_triangle_of_le_two ha hc b signal.width) hthin hfit hfitu
      · exact pairSum_cons_le_of_thins (Q := fun _ => True) (fun a b c _ _ _ hb =>
          valueToggleDelta_triangle (hb.resolve_right hfit) a c signal.width) hthin
          (fun _ _ => trivial) trivial
    omega

/-- A three-bit signal that is at `000`. -/
def threeBitSignal : Signal where
  path := "data".toList
  width := 3
  last := some "000".toList

/-- The reader after a dump has set the signal to `000`. -/
def threeBitReader : Reader where
  signals := ⟨[(['!'], threeBitSignal)], by decide⟩
  scopes := []
  inHeader := false
  timeSteps := 1
  lastTime := 0

/-- The signal goes to `001`, is unknown for a while and comes back as `111`. -/
def threeBitLines : List Str := ["b001 !".toList, "bx !".toList, "b111 !".toList]

/-- The net change of three bits is counted as three toggles, and no bit could be hidden. -/
theorem net_change_threeBit :
    0 + netChange 3 "000".toList "111".toList
      ≤ 3 + hiddenBits 3 "000".toList false (valuesOf ['!'] (bodyCommands threeBitLines)) := by
  have hsignal : threeBitReader.signals.get? ['!'] = some threeBitSignal := by decide +kernel
  have hsignal' : (threeBitReader.execAll (bodyCommands threeBitLines)).signals.get? ['!']
      = some { threeBitSignal with last := some "111".toList, toggles := 3, changes := 3 } := by
    decide +kernel
  exact (net_change rfl (Reader.readLines_body rfl threeBitLines) hsignal hsignal' rfl rfl
    (by decide +kernel) (by decide +kernel)).1

/-- A dump in which a three-bit signal takes the given values. -/
def threeBitDump (values : List String) : List UInt8 :=
  linesFile ("$var wire 3 ! data $end".toList :: "$enddefinitions $end".toList ::
    values.map (fun v => 'b' :: v.toList ++ " !".toList))

/-- Through an unknown value all three bits of a signal change, and two toggles are counted;
without the unknown value three are. -/
theorem netChange_hidden :
    netChange 3 "000".toList "111".toList = 3 ∧
      ((iterVcd (threeBitDump ["000", "x", "111"])).toOption.map
        (fun r => r.1.values.map Signal.toggles)) = some [2] ∧
      ((iterVcd (threeBitDump ["000", "111"])).toOption.map
        (fun r => r.1.values.map Signal.toggles)) = some [3] := by
  refine ⟨?_, ?_, ?_⟩ <;> decide +kernel

end Vcd
