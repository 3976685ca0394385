/-
# Numbers with finitely many significant digits

`roundTo rnd b p x` rounds `x` to `p` significant digits in base `b`; the function `rnd` to a
nearest integer says how ties are broken.

* `abs_roundTo_sub_le_of_representable`: it is a nearest number with `p` digits.  So numbers
  with `p` digits stay as they are and larger numbers are not rounded to smaller ones
  (`roundTo_of_representable`, `roundTo_mono`).
* `abs_roundTo_sub_le_abs`: the relative error.
* `roundTo_eq_of_near`: a number close enough to one with `p` digits is rounded to it, so what
  is rounded to enough digits in another base can be rounded back.
-/
import Mathlib

variable {K : Type*} [Field K] [LinearOrder K] [IsStrictOrderedRing K]

/-! ## Nearest integers -/

/-- A choice of a nearest integer. -/
def Nearest (rnd : K → ℤ) : Prop := ∀ x, |(rnd x : K) - x| ≤ 1 / 2

namespace Nearest

variable {rnd : K → ℤ}

/-- An integer within less than one half is the nearest one. -/
theorem eq_of_abs_lt (h : Nearest rnd) {x : K} {n : ℤ} (hn : |x - n| < 1 / 2) : rnd x = n := by
  have hlt : |((rnd x - n : ℤ) : K)| < 1 := by
    push_cast
    calc |(rnd x : K) - n| ≤ |(rnd x : K) - x| + |x - n| := abs_sub_le _ _ _
      _ < 1 := by linarith [h x]
  have hint : |rnd x - n| < 1 := by exact_mod_cast hlt
  have hzero := Int.abs_lt_one_iff.mp hint
  omega

theorem intCast (h : Nearest rnd) (n : ℤ) : rnd (n : K) = n :=
  h.eq_of_abs_lt (by rw [sub_self, abs_zero]; norm_num)

/-- No integer is closer. -/
theorem abs_sub_le_abs_sub (h : Nearest rnd) (x : K) (n : ℤ) :
    |(rnd x : K) - x| ≤ |(n : K) - x| := by
  by_cases hn : |x - n| < 1 / 2
  · rw [h.eq_of_abs_lt hn]
  · rw [abs_sub_comm (n : K)]
    exact (h x).trans (not_lt.mp hn)

/-- Ties cannot be broken against the order. -/
theorem mono (h : Nearest rnd) {x y : K} (hxy : x ≤ y) : rnd x ≤ rnd y := by
  rcases hxy.eq_or_lt with rfl | hlt
  · exact le_rfl
  · have hx := (abs_le.mp (h x)).2
    have hy := (abs_le.mp (h y)).1
    have hcast : (rnd x : K) < rnd y + 1 := by linarith
    have hint : rnd x < rnd y + 1 := by exact_mod_cast hcast
    omega

end Nearest

/-! ## Rounding -/

variable [FloorRing K]

/-- The distance of neighbouring numbers with `p` digits around `x`. -/
def spacing (b p : ℕ) (x : K) : K := (b : K) ^ (Int.log b |x| + 1 - p)

/-- `x` with `p` significant digits. -/
def roundTo (rnd : K → ℤ) (b p : ℕ) (x : K) : K := rnd (x / spacing b p x) * spacing b p x

/-- A number with `p` significant digits. -/
def Representable (b p : ℕ) (x : K) : Prop :=
  ∃ m e : ℤ, |m| ≤ (b : ℤ) ^ p ∧ x = m * (b : K) ^ e

variable {b p : ℕ}

omit [LinearOrder K] [IsStrictOrderedRing K] [FloorRing K] in
/-- Small integers have few digits. -/
theorem representable_intCast {n : ℤ} (h : |n| ≤ (b : ℤ) ^ p) : Representable b p (n : K) :=
  ⟨n, 0, h, by rw [zpow_zero, mul_one]⟩

omit [FloorRing K] in
/-- A number with `p` digits is a multiple of a power of the base, unless it is small compared
with this power. -/
theorem Representable.multiple_or_le (hb : 1 < b) {x : K} (h : Representable b p x) (s : ℤ) :
    (∃ n : ℤ, x = n * (b : K) ^ s) ∨ |x| ≤ (b : K) ^ (s + p - 1) := by
  have hb0 : (b : K) ≠ 0 := by
    exact_mod_cast (by omega : b ≠ 0)
  obtain ⟨m, e, hm, rfl⟩ := h
  rcases le_or_gt s e with hse | hes
  · left
    obtain ⟨k, rfl⟩ := Int.le.dest hse
    refine ⟨m * (b : ℤ) ^ k, ?_⟩
    rw [zpow_add₀ hb0, zpow_natCast]
    push_cast
    ring
  · right
    have hpos : (0 : K) < (b : K) ^ e := by positivity
    have hmK : |(m : K)| ≤ (b : K) ^ p := by exact_mod_cast hm
    calc |(m : K) * (b : K) ^ e| = |(m : K)| * (b : K) ^ e := by rw [abs_mul, abs_of_pos hpos]
      _ ≤ (b : K) ^ p * (b : K) ^ e := by gcongr
      _ = (b : K) ^ ((p : ℤ) + e) := by rw [zpow_add₀ hb0, zpow_natCast]
      _ ≤ (b : K) ^ (s + p - 1) := by
          apply zpow_le_zpow_right₀
          · exact_mod_cast hb.le
          · omega

theorem spacing_pos (hb : 1 < b) (x : K) : 0 < spacing b p x := by
  unfold spacing
  positivity

omit [IsStrictOrderedRing K] in
/-- The order of magnitude of a number, in units of its spacing. -/
theorem spacing_mul_pow (hb : 1 < b) (hp : 0 < p) (x : K) :
    (b : K) ^ (p - 1) * spacing b p x = (b : K) ^ Int.log b |x| := by
  have hb0 : (b : K) ≠ 0 := by
    exact_mod_cast (by omega : b ≠ 0)
  unfold spacing
  rw [← zpow_natCast, ← zpow_add₀ hb0]
  congr 1
  omega

theorem spacing_mul_le (hb : 1 < b) (hp : 0 < p) {x : K} (hx : x ≠ 0) :
    (b : K) ^ (p - 1) * spacing b p x ≤ |x| := by
  rw [spacing_mul_pow hb hp]
  exact Int.zpow_log_le_self hb (abs_pos.mpr hx)

theorem abs_lt_pow_mul_spacing (hb : 1 < b) (x : K) : |x| < (b : K) ^ p * spacing b p x := by
  have hb0 : (b : K) ≠ 0 := by
    exact_mod_cast (by omega : b ≠ 0)
  have hpow : (b : K) ^ p * spacing b p x = (b : K) ^ (Int.log b |x| + 1) := by
    unfold spacing
    rw [← zpow_natCast, ← zpow_add₀ hb0]
    congr 1
    omega
  rw [hpow]
  exact Int.lt_zpow_succ_log_self hb |x|

variable {rnd : K → ℤ}

section

variable (hrnd : Nearest rnd) (hb : 1 < b)
include hrnd hb

/-- **The error** is at most half a unit in the last place. -/
theorem abs_roundTo_sub_le (x : K) : |roundTo rnd b p x - x| ≤ spacing b p x / 2 := by
  have hpos : 0 < spacing b p x := spacing_pos hb x
  have hscale : roundTo rnd b p x - x
      = (rnd (x / spacing b p x) - x / spacing b p x) * spacing b p x := by
    unfold roundTo
    field_simp
  rw [hscale, abs_mul, abs_of_pos hpos]
  have hround := hrnd (x / spacing b p x)
  nlinarith

omit hb in
theorem roundTo_zero : roundTo rnd b p (0 : K) = 0 := by
  have hzero : rnd (0 : K) = 0 := by
    have h := hrnd.intCast 0
    rwa [Int.cast_zero] at h
  rw [roundTo, zero_div, hzero, Int.cast_zero, zero_mul]

/-- **The relative error.** -/
theorem abs_roundTo_sub_le_abs (hp : 0 < p) (x : K) :
    |roundTo rnd b p x - x| * (2 * (b : K) ^ (p - 1)) ≤ |x| := by
  rcases eq_or_ne x 0 with rfl | hx
  · rw [roundTo_zero hrnd, sub_self, abs_zero, zero_mul]
  · have herror := abs_roundTo_sub_le (p := p) hrnd hb x
    have hmagnitude := spacing_mul_le hb hp hx
    have hpow : (0 : K) < (b : K) ^ (p - 1) := by positivity
    nlinarith

/-- What is rounded has `p` digits. -/
theorem representable_roundTo (x : K) : Representable b p (roundTo rnd b p x) := by
  have hpos : 0 < spacing b p x := spacing_pos hb x
  have hlt : |x / spacing b p x| ≤ (b : K) ^ p := by
    rw [abs_div, abs_of_pos hpos, div_le_iff₀ hpos]
    exact (abs_lt_pow_mul_spacing hb x).le
  have hcast : ((b : ℤ) ^ p : K) = (((b : ℤ) ^ p : ℤ) : K) := by push_cast; rfl
  obtain ⟨hlow, hhigh⟩ := abs_le.mp hlt
  refine ⟨rnd (x / spacing b p x), _, abs_le.mpr ⟨?_, ?_⟩, rfl⟩
  · have h := hrnd.mono hlow
    rwa [← Int.cast_natCast b, hcast, ← Int.cast_neg, hrnd.intCast] at h
  · have h := hrnd.mono hhigh
    rwa [← Int.cast_natCast b, hcast, hrnd.intCast] at h

omit hb in
/-- No multiple of the spacing is closer. -/
theorem abs_roundTo_sub_le_of_multiple (hb : 1 < b) (x : K) (n : ℤ) :
    |roundTo rnd b p x - x| ≤ |n * spacing b p x - x| := by
  have hpos : 0 < spacing b p x := spacing_pos hb x
  have hscale : ∀ m : ℤ, (m : K) * spacing b p x - x
      = (m - x / spacing b p x) * spacing b p x := by
    intro m
    field_simp
  rw [roundTo, hscale, hscale, abs_mul, abs_mul, abs_of_pos hpos]
  exact mul_le_mul_of_nonneg_right (hrnd.abs_sub_le_abs_sub _ n) hpos.le

/-- **No number with `p` digits is closer.** -/
theorem abs_roundTo_sub_le_of_representable (hp : 0 < p) (x : K) {y : K}
    (hy : Representable b p y) : |roundTo rnd b p x - x| ≤ |y - x| := by
  rcases eq_or_ne x 0 with rfl | hx
  · rw [roundTo_zero hrnd, sub_self, abs_zero]
    exact abs_nonneg _
  · rcases hy.multiple_or_le hb (Int.log b |x| + 1 - p) with ⟨n, rfl⟩ | hle
    · exact abs_roundTo_sub_le_of_multiple hrnd hb x n
    · -- a power of the base with the sign of `x` lies between `y` and `x`
      have hexp : Int.log b |x| + 1 - p + p - 1 = Int.log b |x| := by omega
      have hlog := Int.zpow_log_le_self hb (abs_pos.mpr hx)
      rw [hexp] at hle
      have htriangle : |x| - |y| ≤ |y - x| := by
        rw [abs_sub_comm]
        exact abs_sub_abs_le_abs_sub x y
      have hbetween : ∃ ε : ℤ, |(ε : K) * (b : K) ^ Int.log b |x| - x| ≤ |y - x| := by
        rcases lt_or_gt_of_ne hx with hneg | hpos
        · refine ⟨-1, ?_⟩
          rw [abs_of_neg hneg] at hlog htriangle hle ⊢
          push_cast
          rw [abs_of_nonneg (by linarith)]
          linarith
        · refine ⟨1, ?_⟩
          rw [abs_of_pos hpos] at hlog htriangle hle ⊢
          push_cast
          rw [abs_of_nonpos (by linarith)]
          linarith
      obtain ⟨ε, hε⟩ := hbetween
      have hmultiple := abs_roundTo_sub_le_of_multiple (p := p) hrnd hb x (ε * (b : ℤ) ^ (p - 1))
      push_cast at hmultiple
      rw [mul_assoc, spacing_mul_pow hb hp] at hmultiple
      exact hmultiple.trans hε

/-- **Numbers with `p` digits stay as they are.** -/
theorem roundTo_of_representable (hp : 0 < p) {x : K} (hx : Representable b p x) :
    roundTo rnd b p x = x := by
  have h := abs_roundTo_sub_le_of_representable hrnd hb hp x hx
  rw [sub_self, abs_zero] at h
  exact sub_eq_zero.mp (abs_nonpos_iff.mp h)

theorem roundTo_le_of_le (hp : 0 < p) {x y : K} (hy : Representable b p y) (h : x ≤ y) :
    roundTo rnd b p x ≤ y := by
  by_contra hlt
  have hnearest := abs_roundTo_sub_le_of_representable hrnd hb hp x hy
  rw [abs_of_nonneg (by linarith), abs_of_nonneg (by linarith)] at hnearest
  linarith

theorem le_roundTo_of_le (hp : 0 < p) {x y : K} (hx : Representable b p x) (h : x ≤ y) :
    x ≤ roundTo rnd b p y := by
  by_contra hlt
  have hnearest := abs_roundTo_sub_le_of_representable hrnd hb hp y hx
  rw [abs_of_nonpos (by linarith), abs_of_nonpos (by linarith)] at hnearest
  linarith

/-- **Larger numbers are not rounded to smaller ones.** -/
theorem roundTo_mono (hp : 0 < p) {x y : K} (h : x ≤ y) :
    roundTo rnd b p x ≤ roundTo rnd b p y := by
  by_contra hlt
  set s := roundTo rnd b p x with hs
  set r := roundTo rnd b p y with hr
  have hsrep : Representable b p s := representable_roundTo hrnd hb x
  have hrrep : Representable b p r := representable_roundTo hrnd hb y
  -- otherwise both results lie on the far sides of both numbers
  have hrx : r < x := by
    by_contra hle
    exact hlt (roundTo_le_of_le hrnd hb hp hrrep (not_lt.mp hle))
  have hys : y < s := by
    by_contra hle
    exact hlt (le_roundTo_of_le hrnd hb hp hsrep (not_lt.mp hle))
  have hsx : |s - x| ≤ |r - x| := abs_roundTo_sub_le_of_representable hrnd hb hp x hrrep
  have hry : |r - y| ≤ |s - y| := abs_roundTo_sub_le_of_representable hrnd hb hp y hsrep
  rw [abs_of_nonneg (by linarith), abs_of_nonpos (by linarith)] at hsx
  rw [abs_of_nonpos (by linarith), abs_of_nonneg (by linarith)] at hry
  obtain rfl : x = y := by linarith
  exact hlt le_rfl

end

/-! ## In and out -/

theorem log_eq_of_le_of_lt (hb : 1 < b) {r : K} {e : ℤ} (hr : 0 < r) (hlow : (b : K) ^ e ≤ r)
    (hhigh : r < (b : K) ^ (e + 1)) : Int.log b r = e := by
  have hle := (Int.zpow_le_iff_le_log hb hr).mp hlow
  have hlt := (Int.lt_zpow_iff_log_lt hb hr).mp hhigh
  omega

/-- A number close to a multiple of its own spacing. -/
theorem roundTo_eq_of_abs_lt (hrnd : Nearest rnd) (hb : 1 < b) {y : K} {n : ℤ}
    (h : |y - n * spacing b p y| < spacing b p y / 2) :
    roundTo rnd b p y = n * spacing b p y := by
  have hpos : 0 < spacing b p y := spacing_pos hb y
  have hround : rnd (y / spacing b p y) = n := by
    apply hrnd.eq_of_abs_lt
    have hscale : y / spacing b p y - n = (y - n * spacing b p y) / spacing b p y := by
      field_simp
    rw [hscale, abs_div, abs_of_pos hpos, div_lt_iff₀ hpos]
    linarith
  rw [roundTo, hround]

theorem exists_eq_mul_spacing (hrnd : Nearest rnd) (hb : 1 < b) (hp : 0 < p) {x : K}
    (hx : Representable b p x) : ∃ m : ℤ, x = m * spacing b p x :=
  ⟨rnd (x / spacing b p x), (roundTo_of_representable hrnd hb hp hx).symm⟩

theorem abs_sub_lt_half_spacing (hb : 1 < b) {x y : K}
    (h : |y - x| * (2 * (b : K) ^ p) < |x|) : |y - x| < spacing b p x / 2 := by
  have hhigh : |x| < (b : K) ^ p * spacing b p x := abs_lt_pow_mul_spacing hb x
  have hppos : (0 : K) < (b : K) ^ p := by positivity
  nlinarith

/-- A number near `x` that has the magnitude of `x`. -/
theorem roundTo_eq_of_near_of_le (hrnd : Nearest rnd) (hb : 1 < b) (hp : 0 < p) {x y : K}
    (hx : Representable b p x) (hdist : |y - x| < spacing b p x / 2)
    (hge : (b : K) ^ Int.log b |x| ≤ |y|) : roundTo rnd b p y = x := by
  have hb0 : (b : K) ≠ 0 := by
    exact_mod_cast (by omega : b ≠ 0)
  have hbpos : (0 : K) < b := lt_of_le_of_ne (Nat.cast_nonneg b) hb0.symm
  set e := Int.log b |x| with he
  set u := spacing b p x with hu
  have hupos : 0 < u := spacing_pos hb x
  have hpow : (b : K) ^ (p - 1) * u = (b : K) ^ e := spacing_mul_pow hb hp x
  have hhigh : |x| < (b : K) ^ p * u := abs_lt_pow_mul_spacing hb x
  have htriangle := abs_le.mp (abs_abs_sub_abs_le_abs_sub y x)
  obtain ⟨m, hm⟩ : ∃ m : ℤ, x = m * u := exists_eq_mul_spacing hrnd hb hp hx
  have habs : |x| = (|m| : ℤ) * u := by
    rw [hm, abs_mul, abs_of_pos hupos, Int.cast_abs]
  have hsucc : (b : K) ^ p * u = (b : K) ^ (e + 1) := by
    rw [zpow_add_one₀ hb0, ← hpow, mul_right_comm, ← pow_succ, Nat.sub_add_cancel hp]
  have hmlt : |m| + 1 ≤ (b : ℤ) ^ p := by
    rw [habs, mul_lt_mul_iff_of_pos_right hupos] at hhigh
    exact_mod_cast hhigh
  have hylt : |y| < (b : K) ^ (e + 1) := by
    have hcast : ((|m| : ℤ) : K) + 1 ≤ (b : K) ^ p := by exact_mod_cast hmlt
    rw [← hsucc]
    nlinarith
  have hlog : Int.log b |y| = e := log_eq_of_le_of_lt hb ((zpow_pos hbpos e).trans_le hge) hge hylt
  have hspacing : spacing b p y = u := by
    rw [hu, spacing, spacing, hlog]
  rw [hm, ← hspacing] at hdist ⊢
  exact roundTo_eq_of_abs_lt hrnd hb hdist

/-- **In and out.**  A number close to one with `p` digits is rounded to it. -/
theorem roundTo_eq_of_near (hrnd : Nearest rnd) (hb : 1 < b) (hp : 0 < p) {x y : K}
    (hx : Representable b p x) (hne : x ≠ 0) (h : |y - x| * (2 * (b : K) ^ p) < |x|) :
    roundTo rnd b p y = x := by
  have hb0 : (b : K) ≠ 0 := by
    exact_mod_cast (by omega : b ≠ 0)
  have hbK : (2 : K) ≤ b := by exact_mod_cast hb
  have hbp : (b : K) ≤ (b : K) ^ p := le_self_pow₀ (by linarith) (by omega)
  set e := Int.log b |x| with he
  set u := spacing b p x with hu
  have hupos : 0 < u := spacing_pos hb x
  have hpow : (b : K) ^ (p - 1) * u = (b : K) ^ e := spacing_mul_pow hb hp x
  have hlow : (b : K) ^ (p - 1) * u ≤ |x| := spacing_mul_le hb hp hne
  have htriangle := abs_le.mp (abs_abs_sub_abs_le_abs_sub y x)
  have hdist : |y - x| < u / 2 := abs_sub_lt_half_spacing hb h
  obtain ⟨m, hm⟩ : ∃ m : ℤ, x = m * u := exists_eq_mul_spacing hrnd hb hp hx
  have habs : |x| = (|m| : ℤ) * u := by
    rw [hm, abs_mul, abs_of_pos hupos, Int.cast_abs]
  have hypos : 0 < |y| := by nlinarith
  rcases le_or_gt ((b : K) ^ e) |y| with hge | hlt
  · exact roundTo_eq_of_near_of_le hrnd hb hp hx hdist hge
  · -- `y` has crossed a power of the base, so `x` is this power
    have hmeq : |m| = (b : ℤ) ^ (p - 1) := by
      rw [habs, mul_le_mul_iff_of_pos_right hupos] at hlow
      have hmle : (b : ℤ) ^ (p - 1) ≤ |m| := by exact_mod_cast hlow
      by_contra hmne
      have hmlt : (b : ℤ) ^ (p - 1) + 1 ≤ |m| := by omega
      have hcast : (b : K) ^ (p - 1) + 1 ≤ ((|m| : ℤ) : K) := by exact_mod_cast hmlt
      nlinarith
    have hxe : |x| = (b : K) ^ e := by
      rw [habs, hmeq, ← hpow]
      push_cast
      rfl
    have hpred : (b : K) ^ e = b * (b : K) ^ (e - 1) := by
      rw [mul_comm, ← zpow_add_one₀ hb0, sub_add_cancel]
    have hepos : (0 : K) < (b : K) ^ (e - 1) := by positivity
    have hyge : (b : K) ^ (e - 1) ≤ |y| := by nlinarith
    have hlog : Int.log b |y| = e - 1 :=
      log_eq_of_le_of_lt hb hypos hyge (by rwa [sub_add_cancel])
    have hspacing : u = b * spacing b p y := by
      rw [hu, spacing, spacing, hlog, mul_comm, ← zpow_add_one₀ hb0, ← he]
      congr 1
      omega
    have hxm : x = ((m * b : ℤ) : K) * spacing b p y := by
      rw [hm, hspacing]
      push_cast
      ring
    have hvpos : 0 < spacing b p y := spacing_pos hb y
    have hxv : |x| = (b : K) ^ p * spacing b p y := by
      rw [hxe, ← hpow, hspacing, ← mul_assoc, ← pow_succ, Nat.sub_add_cancel hp]
    have hclose : |y - x| < spacing b p y / 2 := by
      have hppos : (0 : K) < (b : K) ^ p := by positivity
      nlinarith
    rw [hxm] at hclose ⊢
    exact roundTo_eq_of_abs_lt hrnd hb hclose
