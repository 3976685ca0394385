/-
# Printed numbers

What is left of a number that a script computes with floats, prints with a fixed number of
decimals, and another program reads back.

* `roundHalfEven` is the nearest integer (`abs_roundHalfEven_sub_le`), odd and monotone.
* `double` rounds to 53 significant bits, with a relative error of at most `2 ^ (-53)`.
* `readDecimal_fixed` : a printed number is read back as the nearest multiple of the last
  decimal.
-/
import ThermalPlacement.HotspotInputs

open PyText

namespace Activity

/-! ## The nearest integer -/

theorem roundHalfEven_eq_or (q : ℚ) : roundHalfEven q = ⌊q⌋ ∨ roundHalfEven q = ⌊q⌋ + 1 := by
  unfold roundHalfEven
  split_ifs <;> simp

theorem floor_le_roundHalfEven (q : ℚ) : ⌊q⌋ ≤ roundHalfEven q := by
  rcases roundHalfEven_eq_or q with h | h <;> omega

theorem roundHalfEven_le_floor_add_one (q : ℚ) : roundHalfEven q ≤ ⌊q⌋ + 1 := by
  rcases roundHalfEven_eq_or q with h | h <;> omega

/-- **The nearest integer** is at most one half away. -/
theorem abs_roundHalfEven_sub_le (q : ℚ) : |(roundHalfEven q : ℚ) - q| ≤ 1 / 2 := by
  have hlow := Int.floor_le q
  have hhigh := Int.lt_floor_add_one q
  unfold roundHalfEven
  split_ifs <;> push_cast <;> rw [abs_le] <;> constructor <;> linarith

/-- An integer is its own nearest integer. -/
@[simp] theorem roundHalfEven_intCast (n : ℤ) : roundHalfEven n = n := by
  unfold roundHalfEven
  rw [Int.floor_intCast, sub_self, if_pos (by norm_num)]

/-- No other integer is within less than one half. -/
theorem roundHalfEven_eq_of_abs_lt {q : ℚ} {n : ℤ} (h : |q - n| < 1 / 2) :
    roundHalfEven q = n := by
  have hround := abs_roundHalfEven_sub_le q
  have hlt : |((roundHalfEven q - n : ℤ) : ℚ)| < 1 := by
    push_cast
    calc |(roundHalfEven q : ℚ) - n| ≤ |(roundHalfEven q : ℚ) - q| + |q - n| :=
          abs_sub_le _ _ _
      _ < 1 := by linarith
  have hint : |roundHalfEven q - n| < 1 := by exact_mod_cast hlt
  have hzero := Int.abs_lt_one_iff.mp hint
  omega

theorem roundHalfEven_mono {p q : ℚ} (h : p ≤ q) : roundHalfEven p ≤ roundHalfEven q := by
  have hfloor := Int.floor_le_floor h
  rcases hfloor.lt_or_eq with hlt | heq
  · have := roundHalfEven_le_floor_add_one p
    have := floor_le_roundHalfEven q
    omega
  · -- with one floor, the larger fraction goes up if the smaller one does
    unfold roundHalfEven
    rw [← heq]
    split_ifs <;> first | omega | (exfalso; linarith)

/-- Ties to even are symmetric. -/
theorem roundHalfEven_neg (q : ℚ) : roundHalfEven (-q) = -roundHalfEven q := by
  rcases (Int.floor_le q).eq_or_lt with hint | hlt
  · rw [← hint, roundHalfEven_intCast, ← Int.cast_neg, roundHalfEven_intCast]
  · have hfloor : ⌊-q⌋ = -⌊q⌋ - 1 := by
      have hhigh := Int.lt_floor_add_one q
      rw [Int.floor_eq_iff]
      push_cast
      constructor <;> linarith
    unfold roundHalfEven
    rw [hfloor]
    push_cast
    split_ifs <;> first | omega | (exfalso; linarith)

/-! ## Doubles -/

/-- The distance of neighbouring numbers with 53 significant bits. -/
def ulp (q : ℚ) : ℚ := 2 ^ (Int.log 2 |q| - 52)

/-- The nearest number with 53 significant bits, ties to even: what a float operation with the
exact result `q` returns, unless it overflows or underflows. -/
def double (q : ℚ) : ℚ := roundHalfEven (q / ulp q) * ulp q

/-- **The error of a float operation.** -/
theorem abs_double_sub_le (q : ℚ) : |double q - q| ≤ |q| / 2 ^ 53 := by
  have hulp : 0 < ulp q := by
    unfold ulp
    positivity
  rcases eq_or_ne q 0 with rfl | hq
  · have hzero : roundHalfEven 0 = 0 := by
      exact_mod_cast roundHalfEven_intCast 0
    simp [double, hzero]
  · have hlog : ulp q * 2 ^ 52 ≤ |q| := by
      have h := Int.zpow_log_le_self (b := 2) one_lt_two (abs_pos.mpr hq)
      unfold ulp
      rw [zpow_sub₀ two_ne_zero, div_mul_eq_mul_div]
      simpa using h
    have hround := abs_roundHalfEven_sub_le (q / ulp q)
    have hscale : double q - q = (roundHalfEven (q / ulp q) - q / ulp q) * ulp q := by
      unfold double
      field_simp
    rw [hscale, abs_mul, abs_of_pos hulp, le_div_iff₀ (by positivity)]
    nlinarith

/-! ## Reading decimals -/

/-- Digits, a point, digits. -/
def readUnsigned (s : Str) : Option ℚ :=
  match s.splitOn '.' with
  | [whole, fraction] =>
      if IsNumber whole ∧ IsNumber fraction then
        some (numberValue whole + numberValue fraction / 10 ^ fraction.length)
      else none
  | _ => none

/-- A decimal, as an exact number. -/
def readDecimal : Str → Option ℚ
  | '-' :: s => (readUnsigned s).map (fun q => -q)
  | s => readUnsigned s

/-- The number that `fixed` prints. -/
def printed (digits : ℕ) (q : ℚ) : ℚ := roundHalfEven (q * 10 ^ digits) / 10 ^ digits

theorem isNumber_toDigits (n : ℕ) : IsNumber (Nat.toDigits 10 n) :=
  ⟨Nat.toDigits_ne_nil, fun _ hc => Nat.isDigit_of_mem_toDigits (by decide) (by decide) hc⟩

/-- The decimals of a fraction, filled up with zeros. -/
def decimals (digits n : ℕ) : Str :=
  List.replicate (digits - (Nat.toDigits 10 n).length) '0' ++ Nat.toDigits 10 n

theorem isNumber_decimals (digits n : ℕ) : IsNumber (decimals digits n) := by
  obtain ⟨hne, hdigit⟩ := isNumber_toDigits n
  refine ⟨by simp [decimals, hne], fun c hc => ?_⟩
  rcases List.mem_append.mp hc with hc | hc
  · rw [List.eq_of_mem_replicate hc]
    decide
  · exact hdigit c hc

theorem length_decimals {digits n : ℕ} (hd : 0 < digits) (hn : n < 10 ^ digits) :
    (decimals digits n).length = digits := by
  have hle : (Nat.toDigits 10 n).length ≤ digits :=
    (Nat.length_toDigits_le_iff (by decide) hd).mpr hn
  rw [decimals, List.length_append, List.length_replicate]
  omega

theorem numberValue_decimals (digits n : ℕ) : numberValue (decimals digits n) = n := by
  unfold numberValue decimals
  rw [Nat.ofDigitChars_append, Nat.ofDigitChars_replicate_zero, mul_zero,
    Nat.ofDigitChars_ten_toDigits]

/-- What `fixed` prints: a sign, the whole part, a point and the decimals. -/
theorem fixed_eq (digits : ℕ) (q : ℚ) :
    fixed digits q = (if q < 0 then ['-'] else []) ++
      (Nat.toDigits 10 ((roundHalfEven (|q| * 10 ^ digits)).toNat / 10 ^ digits) ++
        '.' :: decimals digits ((roundHalfEven (|q| * 10 ^ digits)).toNat % 10 ^ digits)) :=
  List.append_assoc _ _ _

theorem notMem_of_isNumber {s : Str} (h : IsNumber s) {c : Char} (hc : c.isDigit = false) :
    c ∉ s := by
  intro hmem
  rw [h.2 c hmem] at hc
  cases hc

/-- A whole part and decimals are read back. -/
theorem readUnsigned_decimals {digits : ℕ} (hd : 0 < digits) (m : ℕ) :
    readUnsigned (Nat.toDigits 10 (m / 10 ^ digits) ++ '.' :: decimals digits (m % 10 ^ digits))
      = some ((m : ℚ) / 10 ^ digits) := by
  have hwhole := isNumber_toDigits (m / 10 ^ digits)
  have hfraction := isNumber_decimals digits (m % 10 ^ digits)
  have hlt : m % 10 ^ digits < 10 ^ digits := Nat.mod_lt m (by positivity)
  have hsplit : ((m / 10 ^ digits : ℕ) : ℚ) + (m % 10 ^ digits : ℕ) / 10 ^ digits
      = m / 10 ^ digits := by
    have hm : ((10 ^ digits * (m / 10 ^ digits) + m % 10 ^ digits : ℕ) : ℚ) = m := by
      rw [Nat.div_add_mod]
    push_cast at hm
    field_simp
    linarith
  unfold readUnsigned
  rw [List.splitOn_append_cons_self_of_not_mem (notMem_of_isNumber hwhole (by decide)),
    List.splitOn_eq_singleton (notMem_of_isNumber hfraction (by decide))]
  dsimp only
  rw [if_pos ⟨hwhole, hfraction⟩, length_decimals hd hlt, numberValue_decimals, numberValue,
    Nat.ofDigitChars_ten_toDigits, hsplit]

/-- **A printed number is read back** as the nearest multiple of the last decimal. -/
theorem readDecimal_fixed {digits : ℕ} (hd : 0 < digits) (q : ℚ) :
    readDecimal (fixed digits q) = some (printed digits q) := by
  have hnonneg : 0 ≤ roundHalfEven (|q| * 10 ^ digits) := by
    have hzero : roundHalfEven 0 = 0 := by exact_mod_cast roundHalfEven_intCast 0
    rw [← hzero]
    exact roundHalfEven_mono (by positivity)
  have hread := readUnsigned_decimals hd (roundHalfEven (|q| * 10 ^ digits)).toNat
  have hcast : (((roundHalfEven (|q| * 10 ^ digits)).toNat : ℕ) : ℚ)
      = roundHalfEven (|q| * 10 ^ digits) := by
    exact_mod_cast Int.toNat_of_nonneg hnonneg
  rw [hcast] at hread
  rw [fixed_eq]
  by_cases hq : q < 0
  · rw [if_pos hq, List.singleton_append, readDecimal, hread, abs_of_neg hq, neg_mul,
      roundHalfEven_neg, printed]
    push_cast
    rw [Option.map_some, neg_div, neg_neg]
  · have hplus : ∀ s t : Str, IsNumber s → readDecimal (s ++ t) = readUnsigned (s ++ t) := by
      intro s t hs
      cases s with
      | nil => exact absurd rfl hs.1
      | cons c s =>
          have hc : c ≠ '-' := by
            rintro rfl
            exact absurd (hs.2 _ List.mem_cons_self) (by decide)
          rw [List.cons_append, readDecimal]
          exact fun _ h => absurd (List.cons.inj h).1 hc
    rw [if_neg hq, List.nil_append, hplus _ _ (isNumber_toDigits _), hread,
      abs_of_nonneg (not_lt.mp hq), printed]

theorem isSpace_of_isDigit {c : Char} (h : c.isDigit = true) : isSpace c = false := by
  have hrange : 48 ≤ c.toNat ∧ c.toNat ≤ 57 := by
    simpa [Char.isDigit, UInt32.le_iff_toNat_le] using h
  simp only [isSpace, Bool.or_eq_false_iff, Bool.and_eq_false_iff, decide_eq_false_iff_not,
    beq_eq_false_iff_ne]
  omega

/-- A printed number is a word. -/
theorem isWord_fixed (digits : ℕ) (q : ℚ) : IsWord (fixed digits q) := by
  rw [fixed_eq]
  refine ⟨by simp, fun c hc => ?_⟩
  rw [List.mem_append, List.mem_append, List.mem_cons] at hc
  rcases hc with hc | hc | rfl | hc
  · split_ifs at hc
    · rw [List.mem_singleton.mp hc]
      rfl
    · cases hc
  · exact isSpace_of_isDigit ((isNumber_toDigits _).2 c hc)
  · rfl
  · exact isSpace_of_isDigit ((isNumber_decimals _ _).2 c hc)

/-- Larger numbers are printed as larger ones. -/
theorem printed_mono (digits : ℕ) {p q : ℚ} (h : p ≤ q) : printed digits p ≤ printed digits q := by
  have hround : roundHalfEven (p * 10 ^ digits) ≤ roundHalfEven (q * 10 ^ digits) :=
    roundHalfEven_mono (by gcongr)
  unfold printed
  gcongr

end Activity
