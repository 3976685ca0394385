/-
# Floats as texts

`str` writes a float with as few digits as identify it, `float` reads a decimal and takes the
nearest float.  `readFloat_reprFloat` says that a float comes back, `length_reprDigits_le` that
no shorter decimal is read as the same float.

The floats are the numbers with 53 significant bits (`IsDouble`); `double` is the rounding.
-/
import ThermalPlacement.PrintedNumbers
import ThermalPlacement.SignificantDigits

open PyText

namespace Activity

/-! ## Floats -/

theorem nearest_roundHalfEven : Nearest roundHalfEven := abs_roundHalfEven_sub_le

theorem double_eq_roundTo (q : ℚ) : double q = roundTo roundHalfEven 2 53 q := by
  have hspacing : ulp q = spacing 2 53 q := by
    unfold ulp spacing
    push_cast
    congr 1
    omega
  rw [double, roundTo, hspacing]

/-- A float. -/
def IsDouble (q : ℚ) : Prop := Representable 2 53 q

theorem isDouble_double (q : ℚ) : IsDouble (double q) := by
  rw [double_eq_roundTo]
  exact representable_roundTo nearest_roundHalfEven (by decide) q

theorem double_of_isDouble {q : ℚ} (h : IsDouble q) : double q = q := by
  rw [double_eq_roundTo]
  exact roundTo_of_representable nearest_roundHalfEven (by decide) (by decide) h

theorem isDouble_iff {q : ℚ} : IsDouble q ↔ double q = q :=
  ⟨double_of_isDouble, fun h => h ▸ isDouble_double q⟩

theorem double_mono {p q : ℚ} (h : p ≤ q) : double p ≤ double q := by
  rw [double_eq_roundTo, double_eq_roundTo]
  exact roundTo_mono nearest_roundHalfEven (by decide) (by decide) h

/-- Integers up to `2 ^ 53` are floats. -/
theorem isDouble_natCast {n : ℕ} (h : n ≤ 2 ^ 53) : IsDouble n := by
  have hint : |(n : ℤ)| ≤ ((2 : ℕ) : ℤ) ^ 53 := by
    rw [abs_of_nonneg (by positivity)]
    exact_mod_cast h
  have hrep := representable_intCast (K := ℚ) hint
  rwa [Int.cast_natCast] at hrep

@[simp] theorem double_zero : double 0 = 0 := by
  rw [double_eq_roundTo]
  exact roundTo_zero nearest_roundHalfEven

@[simp] theorem double_one : double 1 = 1 := by
  have h := double_of_isDouble (isDouble_natCast (n := 1) (by norm_num))
  rwa [Nat.cast_one] at h

/-! ## Writing -/

/-- The integers next to `x` in units of its last one of `n` digits, the nearest one first. -/
def candidates (x : ℚ) (n : ℕ) : List ℤ :=
  let q := x / 10 ^ (Int.log 10 x + 1 - n)
  [roundHalfEven q, ⌊q⌋, ⌊q⌋ + 1]

/-- A decimal with `n` digits that is read as `x`: its digits as a number, and the exponent. -/
def decimalWith (x : ℚ) (n : ℕ) : Option (ℤ × ℤ) :=
  let k := Int.log 10 x + 1 - n
  ((candidates x n).find? (fun m : ℤ => double (m * 10 ^ k) = x)).map (fun m => (m, k))

/-- The decimal with the fewest digits. -/
def shortest (x : ℚ) : Option (ℤ × ℤ) := (List.range' 1 17).findSome? (decimalWith x)

/-- The digits of a float, without zeros at the end. -/
def reprDigits (x : ℚ) : Str :=
  match shortest x with
  | some (m, _) => (Nat.toDigits 10 m.toNat).rdropWhile (· = '0')
  | none => []

/-- The place of the decimal point in front of or behind the digits. -/
def reprPoint (x : ℚ) : ℤ :=
  match shortest x with
  | some (m, k) => (Nat.toDigits 10 m.toNat).length + k
  | none => 0

/-- An exponent: a sign and at least two digits. -/
def exponentText (e : ℤ) : Str := (if e < 0 then '-' else '+') :: decimals 2 e.natAbs

/-- The number `0.ds * 10 ^ point` as a text. -/
def pointText (ds : Str) (point : ℤ) : Str :=
  if point ≤ -4 ∨ 16 < point then
    (if ds.length ≤ 1 then ds else ds.take 1 ++ '.' :: ds.drop 1) ++ 'e' :: exponentText (point - 1)
  else if point ≤ 0 then '0' :: '.' :: (List.replicate (-point).toNat '0' ++ ds)
  else if point < ds.length then ds.take point.toNat ++ '.' :: ds.drop point.toNat
  else ds ++ List.replicate (point - ds.length).toNat '0' ++ ".0".toList

/-- `str` of a float. -/
def reprFloat (x : ℚ) : Str :=
  if x = 0 then "0.0".toList
  else if x < 0 then '-' :: pointText (reprDigits (-x)) (reprPoint (-x))
  else pointText (reprDigits x) (reprPoint x)

/-! ## Reading -/

/-- Digits, with a point in front of them, among them or behind them. -/
def readMantissa (s : Str) : Option ℚ :=
  match s.splitOn '.' with
  | [whole] => if IsNumber whole then some (numberValue whole) else none
  | [whole, fraction] =>
      if IsNumber (whole ++ fraction) then
        some ((numberValue (whole ++ fraction) : ℚ) / 10 ^ fraction.length)
      else none
  | _ => none

/-- Digits, with or without a sign. -/
def readExponent : Str → Option ℤ
  | '-' :: ds => if IsNumber ds then some (-(numberValue ds : ℤ)) else none
  | '+' :: ds => if IsNumber ds then some (numberValue ds : ℤ) else none
  | ds => if IsNumber ds then some (numberValue ds : ℤ) else none

/-- A decimal without a sign, as an exact number. -/
def readScientific (s : Str) : Option ℚ :=
  match s.splitOnP (fun c => c == 'e' || c == 'E') with
  | [mantissa] => readMantissa mantissa
  | [mantissa, exponent] => do
      let q ← readMantissa mantissa
      let e ← readExponent exponent
      return q * 10 ^ e
  | _ => none

/-- `float` of a decimal text. -/
def readFloat (s : Str) : Option ℚ :=
  match strip s with
  | '-' :: ds => (readScientific ds).map (fun q => double (-q))
  | '+' :: ds => (readScientific ds).map double
  | ds => (readScientific ds).map double

/-! ## A decimal is read back -/

theorem isNumber_append {s t : Str} (hs : IsNumber s) (ht : ∀ c ∈ t, c.isDigit = true) :
    IsNumber (s ++ t) := by
  refine ⟨by simp [hs.1], fun c hc => ?_⟩
  rcases List.mem_append.mp hc with hc | hc
  · exact hs.2 c hc
  · exact ht c hc

theorem numberValue_append_zeros (s : Str) (n : ℕ) :
    numberValue (s ++ List.replicate n '0') = numberValue s * 10 ^ n := by
  unfold numberValue
  rw [Nat.ofDigitChars_append, Nat.ofDigitChars_replicate_zero, mul_comm]

theorem numberValue_zeros_append (s : Str) (n : ℕ) :
    numberValue (List.replicate n '0' ++ s) = numberValue s := by
  unfold numberValue
  rw [Nat.ofDigitChars_append, Nat.ofDigitChars_replicate_zero, mul_zero]

theorem readMantissa_of_isNumber {s : Str} (h : IsNumber s) :
    readMantissa s = some (numberValue s : ℚ) := by
  unfold readMantissa
  rw [List.splitOn_eq_singleton (notMem_of_isNumber h (by decide))]
  exact if_pos h

theorem readMantissa_point {whole fraction : Str} (h : IsNumber (whole ++ fraction)) :
    readMantissa (whole ++ '.' :: fraction)
      = some ((numberValue (whole ++ fraction) : ℚ) / 10 ^ fraction.length) := by
  have hdigit : ∀ c ∈ whole ++ fraction, c ≠ '.' := by
    rintro c hc rfl
    exact notMem_of_isNumber h (by decide) hc
  have hwhole : '.' ∉ whole := fun hc => hdigit '.' (List.mem_append_left _ hc) rfl
  have hfraction : '.' ∉ fraction := fun hc => hdigit '.' (List.mem_append_right _ hc) rfl
  unfold readMantissa
  rw [List.splitOn_append_cons_self_of_not_mem hwhole, List.splitOn_eq_singleton hfraction]
  exact if_pos h

/-- Without an `e` a decimal is its mantissa. -/
theorem readScientific_of_notMem {s : Str} (h : ∀ c ∈ s, c ≠ 'e' ∧ c ≠ 'E') :
    readScientific s = readMantissa s := by
  unfold readScientific
  rw [List.splitOnP_eq_singleton]
  intro c hc
  simp [h c hc]

/-- Neither a digit nor the point is an `e`. -/
theorem ne_e_of_isNumber_point {whole fraction : Str} (h : IsNumber (whole ++ fraction)) :
    ∀ c ∈ whole ++ '.' :: fraction, c ≠ 'e' ∧ c ≠ 'E' := by
  have hdigit : ∀ c ∈ whole ++ fraction, c ≠ 'e' ∧ c ≠ 'E' := by
    refine fun c hc => ⟨?_, ?_⟩ <;> rintro rfl <;> exact notMem_of_isNumber h (by decide) hc
  intro c hc
  rw [List.mem_append, List.mem_cons] at hc
  rcases hc with hc | rfl | hc
  · exact hdigit c (List.mem_append_left _ hc)
  · decide
  · exact hdigit c (List.mem_append_right _ hc)

theorem readExponent_exponentText (e : ℤ) : readExponent (exponentText e) = some e := by
  have hnumber := isNumber_decimals 2 e.natAbs
  unfold exponentText
  split_ifs with he
  · rw [readExponent, if_pos hnumber, numberValue_decimals]
    congr 1
    omega
  · rw [readExponent, if_pos hnumber, numberValue_decimals]
    congr 1
    omega

theorem readScientific_exponent {mantissa : Str} {q : ℚ}
    (hmantissa : ∀ c ∈ mantissa, c ≠ 'e' ∧ c ≠ 'E') (hread : readMantissa mantissa = some q)
    (e : ℤ) : readScientific (mantissa ++ 'e' :: exponentText e) = some (q * 10 ^ e) := by
  have hexponent : ∀ c ∈ exponentText e, (c == 'e' || c == 'E') = false := by
    intro c hc
    rcases List.mem_cons.mp hc with rfl | hc
    · split_ifs <;> rfl
    · have hdigit := (isNumber_decimals 2 e.natAbs).2 c hc
      rw [Bool.or_eq_false_iff, beq_eq_false_iff_ne, beq_eq_false_iff_ne]
      constructor <;> rintro rfl <;> exact absurd hdigit (by decide)
  have hsplit : (mantissa ++ 'e' :: exponentText e).splitOnP (fun c => c == 'e' || c == 'E')
      = [mantissa, exponentText e] := by
    rw [List.splitOnP_append_cons _ _ (by decide), List.splitOnP_eq_singleton hexponent,
      List.splitOnP_eq_singleton]
    · rfl
    · intro c hc
      simp [hmantissa c hc]
  unfold readScientific
  rw [hsplit]
  dsimp only
  rw [hread, readExponent_exponentText]
  rfl

/-- **A decimal is read back**, wherever its point stands. -/
theorem readScientific_pointText {ds : Str} (h : IsNumber ds) (point : ℤ) :
    readScientific (pointText ds point)
      = some ((numberValue ds : ℚ) * 10 ^ (point - ds.length)) := by
  have hten : (10 : ℚ) ≠ 0 := by norm_num
  have hpos : 0 < ds.length := List.length_pos_iff.mpr h.1
  unfold pointText
  split_ifs with hexp hone hnonpos hinside
  · -- one digit and an exponent
    have hlength : ds.length = 1 := by omega
    rw [readScientific_exponent (fun c hc => ?_) (readMantissa_of_isNumber h), hlength]
    · rfl
    · constructor <;> rintro rfl <;> exact notMem_of_isNumber h (by decide) hc
  · -- a point behind the first digit and an exponent
    have htake : IsNumber (ds.take 1 ++ ds.drop 1) := by rwa [List.take_append_drop]
    rw [readScientific_exponent (ne_e_of_isNumber_point htake) (readMantissa_point htake),
      List.take_append_drop, List.length_drop, div_mul_eq_mul_div, mul_div_assoc, ← zpow_natCast,
      ← zpow_sub₀ hten]
    congr 3
    omega
  · -- zeros behind the point
    have hzeros : IsNumber (['0'] ++ (List.replicate (-point).toNat '0' ++ ds)) := by
      refine isNumber_append (by decide) (fun c hc => ?_)
      rcases List.mem_append.mp hc with hc | hc
      · rw [List.eq_of_mem_replicate hc]
        rfl
      · exact h.2 c hc
    have hvalue : numberValue (['0'] ++ (List.replicate (-point).toNat '0' ++ ds))
        = numberValue ds := by
      rw [← List.append_assoc]
      exact numberValue_zeros_append ds ((-point).toNat + 1)
    have htext : '0' :: '.' :: (List.replicate (-point).toNat '0' ++ ds)
        = ['0'] ++ '.' :: (List.replicate (-point).toNat '0' ++ ds) := rfl
    rw [htext, readScientific_of_notMem (ne_e_of_isNumber_point hzeros), readMantissa_point hzeros,
      hvalue, List.length_append, List.length_replicate, div_eq_mul_inv, ← zpow_natCast,
      ← zpow_neg]
    congr 3
    omega
  · -- the point among the digits
    have htake : IsNumber (ds.take point.toNat ++ ds.drop point.toNat) := by
      rwa [List.take_append_drop]
    rw [readScientific_of_notMem (ne_e_of_isNumber_point htake), readMantissa_point htake,
      List.take_append_drop, List.length_drop, div_eq_mul_inv, ← zpow_natCast, ← zpow_neg]
    congr 3
    omega
  · -- zeros in front of the point
    set n := (point - ds.length).toNat with hn
    have hzeros : IsNumber ((ds ++ List.replicate n '0') ++ ['0']) := by
      rw [List.append_assoc]
      refine isNumber_append h (fun c hc => ?_)
      rcases List.mem_append.mp hc with hc | hc
      · rw [List.eq_of_mem_replicate hc]
        rfl
      · rw [List.mem_singleton.mp hc]
        rfl
    have hvalue : numberValue ((ds ++ List.replicate n '0') ++ ['0'])
        = numberValue ds * 10 ^ (n + 1) := by
      rw [List.append_assoc, ← numberValue_append_zeros, List.replicate_succ']
    have htext : ds ++ List.replicate n '0' ++ ".0".toList
        = (ds ++ List.replicate n '0') ++ '.' :: ['0'] := rfl
    rw [htext, readScientific_of_notMem (ne_e_of_isNumber_point hzeros), readMantissa_point hzeros,
      hvalue]
    have hpoint : point - ds.length = (n : ℤ) := by omega
    rw [hpoint, zpow_natCast, List.length_singleton, pow_one, pow_succ]
    push_cast
    field_simp

/-! ## Shortest decimals -/

section

variable {x : ℚ}

/-- What `decimalWith` finds is read as `x`. -/
theorem double_of_decimalWith {n : ℕ} {m k : ℤ} (h : decimalWith x n = some (m, k)) :
    k = Int.log 10 x + 1 - n ∧ m ∈ candidates x n ∧ double (m * 10 ^ k) = x := by
  unfold decimalWith at h
  obtain ⟨m', hfind, heq⟩ := Option.map_eq_some_iff.mp h
  cases heq
  exact ⟨rfl, List.mem_of_find?_eq_some hfind, by simpa using List.find?_some hfind⟩

/-- The unit of `x` with `n` digits, and how many of it `x` is. -/
theorem pow_le_div_unit (hx : 0 < x) {n : ℕ} (hn : 0 < n) :
    (10 : ℚ) ^ (n - 1) ≤ x / 10 ^ (Int.log 10 x + 1 - n) := by
  have h := spacing_mul_le (K := ℚ) (b := 10) (p := n) (by decide) hn hx.ne'
  unfold spacing at h
  rw [abs_of_pos hx] at h
  push_cast at h
  rw [le_div_iff₀ (by positivity)]
  exact h

/-- **If a decimal with `n` digits is read as `x`, one next to `x` is.** -/
theorem decimalWith_ne_none (hx : 0 < x) (hdouble : IsDouble x) {n : ℕ} (hn : 0 < n) {d : ℚ}
    (hd : Representable 10 n d) (hread : double d = x) : decimalWith x n ≠ none := by
  set k := Int.log 10 x + 1 - n with hk
  set q := x / 10 ^ k with hq
  have hunit : (0 : ℚ) < 10 ^ k := by positivity
  have hxq : x = q * 10 ^ k := by
    rw [hq]
    field_simp
  have hlow : (10 : ℚ) ^ (n - 1) ≤ q := pow_le_div_unit hx hn
  -- `d` is a multiple of the unit, or smaller than `x`
  have hcases : (∃ j : ℤ, d = j * 10 ^ k) ∨ d ≤ 10 ^ (n - 1) * 10 ^ k := by
    rcases hd.multiple_or_le (by decide) k with ⟨j, hj⟩ | hle
    · push_cast at hj
      exact Or.inl ⟨j, hj⟩
    · refine Or.inr ((le_abs_self d).trans (hle.trans (le_of_eq ?_)))
      push_cast
      rw [← zpow_natCast, ← zpow_add₀ (by norm_num : (10 : ℚ) ≠ 0)]
      congr 1
      omega
  -- rounding is monotone, so what lies between `d` and `x` is read as `x`
  have hbetween : ∃ m ∈ candidates x n, double (m * 10 ^ k) = x := by
    have hself := double_of_isDouble hdouble
    rcases le_or_gt d x with hdx | hxd
    · refine ⟨⌊q⌋, by simp [candidates, q, k], le_antisymm ?_ ?_⟩
      · refine (double_mono ?_).trans hself.le
        rw [hxq]
        exact mul_le_mul_of_nonneg_right (Int.floor_le q) hunit.le
      · refine hread.ge.trans (double_mono ?_)
        rcases hcases with ⟨j, rfl⟩ | hle
        · have hjq : (j : ℚ) ≤ q := by
            rw [hxq] at hdx
            exact le_of_mul_le_mul_right hdx hunit
          have hfloor : j ≤ ⌊q⌋ := Int.le_floor.mpr hjq
          gcongr
        · refine hle.trans (mul_le_mul_of_nonneg_right ?_ hunit.le)
          have hfloor : ((10 ^ (n - 1) : ℕ) : ℤ) ≤ ⌊q⌋ := Int.le_floor.mpr (by push_cast; exact hlow)
          exact_mod_cast hfloor
    · refine ⟨⌊q⌋ + 1, by simp [candidates, q, k], le_antisymm ?_ ?_⟩
      · refine (double_mono ?_).trans hread.le
        rcases hcases with ⟨j, rfl⟩ | hle
        · have hqj : q < j := by
            rw [hxq] at hxd
            exact lt_of_mul_lt_mul_right hxd hunit.le
          have hfloor : ⌊q⌋ + 1 ≤ j := Int.floor_lt.mpr hqj
          have hcast : ((⌊q⌋ + 1 : ℤ) : ℚ) ≤ j := by exact_mod_cast hfloor
          gcongr
        · exfalso
          have : 10 ^ (n - 1) * 10 ^ k ≤ x := by
            rw [hxq]
            exact mul_le_mul_of_nonneg_right hlow hunit.le
          linarith
      · refine hself.ge.trans (double_mono ?_)
        rw [hxq]
        refine mul_le_mul_of_nonneg_right ?_ hunit.le
        push_cast
        exact (Int.lt_floor_add_one q).le
  unfold decimalWith
  rw [ne_eq, Option.map_eq_none_iff, List.find?_eq_none]
  push Not
  obtain ⟨m, hm, heq⟩ := hbetween
  exact ⟨m, hm, by simpa using heq⟩

/-- **Seventeen digits are enough.** -/
theorem decimalWith_seventeen (hx : 0 < x) (hdouble : IsDouble x) : decimalWith x 17 ≠ none := by
  set d := roundTo roundHalfEven 10 17 x with hd
  have hrep : Representable 10 17 d := representable_roundTo nearest_roundHalfEven (by decide) x
  refine decimalWith_ne_none hx hdouble (by decide) hrep ?_
  have herror := abs_roundTo_sub_le_abs nearest_roundHalfEven (b := 10) (p := 17) (by decide)
    (by decide) x
  rw [double_eq_roundTo]
  refine roundTo_eq_of_near nearest_roundHalfEven (by decide) (by decide) hdouble hx.ne' ?_
  rw [abs_of_pos hx] at herror ⊢
  rcases (abs_nonneg (d - x)).eq_or_lt with hzero | hpos
  · rw [← hzero, zero_mul]
    exact hx
  · push_cast at herror ⊢
    linarith

theorem exists_shortest (hx : 0 < x) (hdouble : IsDouble x) :
    ∃ m k, shortest x = some (m, k) := by
  have hsome : (shortest x).isSome = true := by
    unfold shortest
    rw [List.findSome?_isSome_iff]
    refine ⟨17, by decide, ?_⟩
    rw [Option.isSome_iff_ne_none]
    exact decimalWith_seventeen hx hdouble
  obtain ⟨⟨m, k⟩, h⟩ := Option.isSome_iff_exists.mp hsome
  exact ⟨m, k, h⟩

/-- A number next to `x` in units of one of its digits is positive. -/
theorem pos_of_mem_candidates (hx : 0 < x) {n : ℕ} (hn : 0 < n) {m : ℤ} (hm : m ∈ candidates x n) :
    0 < m := by
  have hone : (1 : ℚ) ≤ x / 10 ^ (Int.log 10 x + 1 - n) :=
    (one_le_pow₀ (by norm_num)).trans (pow_le_div_unit hx hn)
  have hfloor : 1 ≤ ⌊x / 10 ^ (Int.log 10 x + 1 - n)⌋ := Int.le_floor.mpr (by exact_mod_cast hone)
  have hround := floor_le_roundHalfEven (x / 10 ^ (Int.log 10 x + 1 - n))
  simp only [candidates, List.mem_cons, List.not_mem_nil, or_false] at hm
  omega

/-- The decimal that is written for a float: it is read as the float, and no shorter one is. -/
theorem shortest_spec (hx : 0 < x) (hdouble : IsDouble x) :
    ∃ m k : ℤ, ∃ n : ℕ, shortest x = some (m, k) ∧ 0 < m ∧ double (m * 10 ^ k) = x ∧
      m ∈ candidates x n ∧ 0 < n ∧
      ∀ n' d, 0 < n' → Representable 10 n' d → double d = x → n ≤ n' := by
  obtain ⟨m, k, h⟩ := exists_shortest hx hdouble
  obtain ⟨l₁, n, l₂, hl, hn, hbefore⟩ := List.findSome?_eq_some_iff.mp h
  have hmem : n ∈ List.range' 1 17 := by simp [hl]
  have hpos : 0 < n := by
    have := List.mem_range'_1.mp hmem
    omega
  obtain ⟨-, hcandidate, hread⟩ := double_of_decimalWith hn
  refine ⟨m, k, n, h, pos_of_mem_candidates hx hpos hcandidate, hread, hcandidate, hpos, ?_⟩
  intro n' d hn' hd hdx
  by_contra hlt
  -- fewer digits would have been found before
  have hfirst : n' ∈ l₁ := by
    have hmem' : n' ∈ List.range' 1 17 := by
      rw [List.mem_range'_1] at hmem ⊢
      omega
    rw [hl, List.mem_append, List.mem_cons] at hmem'
    have hsorted : (l₁ ++ n :: l₂).Pairwise (· < ·) := hl ▸ List.pairwise_lt_range'
    rw [List.pairwise_append, List.pairwise_cons] at hsorted
    rcases hmem' with hmem' | rfl | hmem'
    · exact hmem'
    · exact absurd le_rfl hlt
    · exact absurd (hsorted.2.1.1 n' hmem').le hlt
  exact decimalWith_ne_none hx hdouble hn' hd hdx (hbefore n' hfirst)

end

/-- A text without the zeros at its end. -/
theorem exists_eq_rdropWhile_append (s : Str) :
    ∃ j, s = s.rdropWhile (· = '0') ++ List.replicate j '0' := by
  induction s using List.reverseRecOn with
  | nil => exact ⟨0, rfl⟩
  | append_singleton s c ih =>
      by_cases hc : c = '0'
      · obtain ⟨j, hj⟩ := ih
        refine ⟨j + 1, ?_⟩
        rw [List.rdropWhile_concat_pos _ _ _ (by simpa using hc), List.replicate_succ',
          ← List.append_assoc, ← hj, hc]
      · refine ⟨0, ?_⟩
        rw [List.rdropWhile_concat_neg _ _ _ (by simpa using hc), List.replicate_zero,
          List.append_nil]

/-- The digits and the place of the point. -/
theorem reprDigits_spec {x : ℚ} {m k : ℤ} (h : shortest x = some (m, k)) (hm : 0 < m) :
    IsNumber (reprDigits x) ∧
      (numberValue (reprDigits x) : ℚ) * 10 ^ (reprPoint x - (reprDigits x).length)
        = m * 10 ^ k := by
  have hpoint : reprPoint x = (Nat.toDigits 10 m.toNat).length + k := by
    unfold reprPoint
    rw [h]
  have hdigits : reprDigits x = (Nat.toDigits 10 m.toNat).rdropWhile (· = '0') := by
    unfold reprDigits
    rw [h]
  obtain ⟨j, hj⟩ := exists_eq_rdropWhile_append (Nat.toDigits 10 m.toNat)
  rw [← hdigits] at hj
  have hvalue : numberValue (reprDigits x) * 10 ^ j = m.toNat := by
    rw [← numberValue_append_zeros, ← hj, numberValue, Nat.ofDigitChars_ten_toDigits]
  have hlength : (Nat.toDigits 10 m.toNat).length = (reprDigits x).length + j := by
    have := congrArg List.length hj
    rwa [List.length_append, List.length_replicate] at this
  constructor
  · refine ⟨fun hnil => ?_, fun c hc => ?_⟩
    · rw [hnil] at hvalue
      have hzero : numberValue [] = 0 := rfl
      rw [hzero, zero_mul] at hvalue
      omega
    · refine (isNumber_toDigits m.toNat).2 c ?_
      rw [hj]
      exact List.mem_append_left _ hc
  · have hmq : (m : ℚ) = numberValue (reprDigits x) * 10 ^ j := by
      have hcast : ((m.toNat : ℤ) : ℚ) = m := by rw [Int.toNat_of_nonneg hm.le]
      rw [← hcast, ← hvalue]
      push_cast
      rfl
    have hexp : reprPoint x - (reprDigits x).length = j + k := by
      rw [hpoint, hlength]
      push_cast
      ring
    rw [hexp, hmq, zpow_add₀ (by norm_num : (10 : ℚ) ≠ 0), zpow_natCast, mul_assoc]

/-- **No shorter decimal is read as the float.** -/
theorem length_reprDigits_le {x : ℚ} (hx : 0 < x) (hdouble : IsDouble x) {n : ℕ} (hn : 0 < n)
    {d : ℚ} (hd : Representable 10 n d) (hread : double d = x) : (reprDigits x).length ≤ n := by
  obtain ⟨m, k, n₀, h, hm, hmread, hcandidate, hn₀, hleast⟩ := shortest_spec hx hdouble
  refine le_trans ?_ (hleast n d hn hd hread)
  have hle : m ≤ 10 ^ n₀ := by
    set q := x / 10 ^ (Int.log 10 x + 1 - n₀) with hq
    have hlt : q < ((10 ^ n₀ : ℤ) : ℚ) := by
      have habs := abs_lt_pow_mul_spacing (K := ℚ) (b := 10) (p := n₀) (by decide) x
      unfold spacing at habs
      rw [abs_of_pos hx] at habs
      push_cast at habs ⊢
      rw [hq, div_lt_iff₀ (by positivity)]
      exact habs
    have hfloor : ⌊q⌋ < 10 ^ n₀ := Int.floor_lt.mpr hlt
    have hround := roundHalfEven_le_floor_add_one q
    simp only [candidates, List.mem_cons, List.not_mem_nil, or_false, ← hq] at hcandidate
    omega
  have hdigits : reprDigits x = (Nat.toDigits 10 m.toNat).rdropWhile (· = '0') := by
    unfold reprDigits
    rw [h]
  rw [hdigits]
  rcases hle.eq_or_lt with heq | hlt
  · -- a power of ten has one digit, so one digit is enough
    have hone : Representable 10 1 ((m : ℚ) * 10 ^ k) := by
      refine ⟨1, n₀ + k, by norm_num, ?_⟩
      rw [heq, zpow_add₀ (by norm_num), zpow_natCast]
      push_cast
      ring
    have hle₀ : n₀ ≤ 1 := hleast 1 _ one_pos hone hmread
    obtain rfl : n₀ = 1 := by omega
    rw [heq]
    decide
  · have hlength : (Nat.toDigits 10 m.toNat).length ≤ n₀ := by
      rw [Nat.length_toDigits_le_iff (by decide) hn₀]
      have hcast : (m.toNat : ℤ) < ((10 ^ n₀ : ℕ) : ℤ) := by
        rw [Int.toNat_of_nonneg hm.le]
        exact_mod_cast hlt
      exact_mod_cast hcast
    exact (List.rdropWhile_prefix _ _).length_le.trans hlength

/-! ## A float comes back -/

/-- The characters that floats are written with. -/
def IsFloatChar (c : Char) : Prop := c.isDigit = true ∨ c ∈ ".e+-".toList

theorem isFloatChar_pointText {ds : Str} (h : IsNumber ds) (point : ℤ) :
    ∀ c ∈ pointText ds point, IsFloatChar c := by
  have hdigits : ∀ c ∈ ds, IsFloatChar c := fun c hc => Or.inl (h.2 c hc)
  have hzeros : ∀ (n : ℕ), ∀ c ∈ List.replicate n '0', IsFloatChar c := by
    intro n c hc
    rw [List.eq_of_mem_replicate hc]
    exact Or.inl rfl
  have hpoint : IsFloatChar '.' := Or.inr (by decide)
  have hexponent : ∀ e, ∀ c ∈ 'e' :: exponentText e, IsFloatChar c := by
    intro e c hc
    rw [exponentText, List.mem_cons, List.mem_cons] at hc
    rcases hc with rfl | rfl | hc
    · exact Or.inr (by decide)
    · split_ifs <;> exact Or.inr (by decide)
    · exact Or.inl ((isNumber_decimals 2 e.natAbs).2 c hc)
  have hinside : ∀ n, ∀ c ∈ ds.take n ++ '.' :: ds.drop n, IsFloatChar c := by
    intro n c hc
    rw [List.mem_append, List.mem_cons] at hc
    rcases hc with hc | rfl | hc
    · exact hdigits c (List.mem_of_mem_take hc)
    · exact hpoint
    · exact hdigits c (List.mem_of_mem_drop hc)
  intro c hc
  unfold pointText at hc
  split_ifs at hc
  · rcases List.mem_append.mp hc with hc | hc
    · exact hdigits c hc
    · exact hexponent _ c hc
  · rcases List.mem_append.mp hc with hc | hc
    · exact hinside 1 c hc
    · exact hexponent _ c hc
  · rw [List.mem_cons, List.mem_cons, List.mem_append] at hc
    rcases hc with rfl | rfl | hc | hc
    · exact Or.inl rfl
    · exact hpoint
    · exact hzeros _ c hc
    · exact hdigits c hc
  · exact hinside _ c hc
  · rw [List.mem_append, List.mem_append] at hc
    rcases hc with (hc | hc) | hc
    · exact hdigits c hc
    · exact hzeros _ c hc
    · rcases List.mem_cons.mp hc with rfl | hc
      · exact hpoint
      · rw [List.mem_singleton.mp hc]
        exact Or.inl rfl

/-- A decimal begins with a digit. -/
theorem exists_pointText_eq_cons {ds : Str} (h : IsNumber ds) (point : ℤ) :
    ∃ c s, pointText ds point = c :: s ∧ c.isDigit = true := by
  obtain ⟨d, ds, rfl⟩ := List.exists_cons_of_ne_nil h.1
  have hd := h.2 d List.mem_cons_self
  unfold pointText
  split_ifs with hexp hone hnonpos hinside
  · exact ⟨d, _, rfl, hd⟩
  · exact ⟨d, _, rfl, hd⟩
  · exact ⟨'0', _, rfl, rfl⟩
  · obtain ⟨n, hn⟩ : ∃ n, point.toNat = n + 1 := ⟨point.toNat - 1, by omega⟩
    rw [hn]
    exact ⟨d, _, rfl, hd⟩
  · exact ⟨d, _, rfl, hd⟩

theorem IsFloatChar.isSpace_eq_false {c : Char} (h : IsFloatChar c) : isSpace c = false := by
  rcases h with h | h
  · exact isSpace_of_isDigit h
  · revert h
    revert c
    decide

/-- A positive float is a decimal, from which the float is read back. -/
theorem readScientific_repr {x : ℚ} (hx : 0 < x) (hdouble : IsDouble x) :
    IsNumber (reprDigits x) ∧
      ∃ q, readScientific (pointText (reprDigits x) (reprPoint x)) = some q ∧ double q = x := by
  obtain ⟨m, k, n, h, hm, hread, -⟩ := shortest_spec hx hdouble
  obtain ⟨hdigits, hvalue⟩ := reprDigits_spec h hm
  refine ⟨hdigits, _, readScientific_pointText hdigits _, ?_⟩
  rw [hvalue, hread]

theorem IsDouble.neg {x : ℚ} (h : IsDouble x) : IsDouble (-x) := by
  obtain ⟨m, e, hm, rfl⟩ := h
  refine ⟨-m, e, by rwa [abs_neg], ?_⟩
  push_cast
  ring

theorem double_neg (q : ℚ) : double (-q) = -double q := by
  have hulp : ulp (-q) = ulp q := by
    unfold ulp
    rw [abs_neg]
  rw [double, double, hulp, neg_div, roundHalfEven_neg]
  push_cast
  ring

/-- What is written for a float: a sign and a decimal. -/
theorem isFloatChar_reprFloat {x : ℚ} (hdouble : IsDouble x) :
    reprFloat x ≠ [] ∧ ∀ c ∈ reprFloat x, IsFloatChar c := by
  have hpositive : ∀ y, 0 < y → IsDouble y →
      pointText (reprDigits y) (reprPoint y) ≠ [] ∧
        ∀ c ∈ pointText (reprDigits y) (reprPoint y), IsFloatChar c := by
    intro y hy hydouble
    obtain ⟨hdigits, q, hread, -⟩ := readScientific_repr hy hydouble
    refine ⟨fun hnil => ?_, isFloatChar_pointText hdigits _⟩
    rw [hnil] at hread
    cases hread
  unfold reprFloat
  split_ifs with hzero hneg
  · exact ⟨by decide, @isFloatChar_pointText ['0'] (by decide) 1⟩
  · refine ⟨List.cons_ne_nil _ _, fun c hc => ?_⟩
    rcases List.mem_cons.mp hc with rfl | hc
    · exact Or.inr (by decide)
    · exact (hpositive (-x) (by linarith) hdouble.neg).2 c hc
  · exact hpositive x (lt_of_le_of_ne (not_lt.mp hneg) (Ne.symm hzero)) hdouble

/-- A float is written as a word. -/
theorem isWord_reprFloat {x : ℚ} (hdouble : IsDouble x) : IsWord (reprFloat x) :=
  ⟨(isFloatChar_reprFloat hdouble).1,
    fun c hc => ((isFloatChar_reprFloat hdouble).2 c hc).isSpace_eq_false⟩

/-- **A float comes back** from the text that is written for it. -/
theorem readFloat_reprFloat {x : ℚ} (hdouble : IsDouble x) : readFloat (reprFloat x) = some x := by
  have hstrip := strip_of_split_singleton (split_word (isWord_reprFloat hdouble))
  unfold readFloat
  rw [hstrip, reprFloat]
  split_ifs with hzero hneg
  · rw [hzero]
    decide +kernel
  · obtain ⟨-, q, hread, hq⟩ := readScientific_repr (x := -x) (by linarith) hdouble.neg
    show (readScientific (pointText (reprDigits (-x)) (reprPoint (-x)))).map _ = _
    rw [hread, Option.map_some, double_neg, hq, neg_neg]
  · have hpos : 0 < x := lt_of_le_of_ne (not_lt.mp hneg) (Ne.symm hzero)
    obtain ⟨hdigits, q, hread, hq⟩ := readScientific_repr hpos hdouble
    obtain ⟨c, s, htext, hc⟩ := exists_pointText_eq_cons hdigits (reprPoint x)
    rw [htext] at hread ⊢
    split
    · next heq =>
        rw [(List.cons.inj heq).1] at hc
        exact absurd hc (by decide)
    · next heq =>
        rw [(List.cons.inj heq).1] at hc
        exact absurd hc (by decide)
    · rw [hread, Option.map_some, hq]

end Activity
