/-
# Numbers within a few roundings of each other

`Within u k a b` says that `a` and `b` differ by at most `k` factors between `1 - u` and its
inverse.  For numbers that are not negative it is symmetric, adds up along chains of
computations and holds of sums and quotients if it holds of their parts; a rounding with
relative error `u` costs one factor (`Within.round`).

* `within_sumWith`: a sum of `n` numbers that is rounded after each addition is within `n`
  roundings of the exact sum.
* `Within.abs_sub_le`: `k` roundings change a number by at most about `k * u` of it.
-/
import Mathlib

variable {K : Type*} [Field K] [LinearOrder K] [IsStrictOrderedRing K]

/-- A rounding with relative error `u`. -/
def HasError (u : K) (fl : K → K) : Prop := ∀ x, |fl x - x| ≤ u * |x|

/-- At most `k` roundings lie between `a` and `b`. -/
structure Within (u : K) (k : ℕ) (a b : K) : Prop where
  le : (1 - u) ^ k * a ≤ b
  ge : (1 - u) ^ k * b ≤ a

/-- The sum in the order of the list, rounded after each addition. -/
def sumWith (fl : K → K) (l : List K) : K := l.foldl (fun s x => fl (s + x)) 0

section

variable {u : K} {k j : ℕ} {a b c d : K}

omit [IsStrictOrderedRing K] in
theorem Within.refl (u a : K) : Within u 0 a a := by
  constructor <;> rw [pow_zero, one_mul]

omit [IsStrictOrderedRing K] in
theorem Within.symm (h : Within u k a b) : Within u k b a := ⟨h.ge, h.le⟩

variable (hu0 : 0 ≤ u) (hu1 : u < 1)

section
include hu0 hu1

theorem Within.mono (h : Within u k a b) (hkj : k ≤ j) (ha : 0 ≤ a) (hb : 0 ≤ b) :
    Within u j a b := by
  have hpow : (1 - u) ^ j ≤ (1 - u) ^ k := by
    apply pow_le_pow_of_le_one <;> first | assumption | linarith
  exact ⟨(mul_le_mul_of_nonneg_right hpow ha).trans h.le,
    (mul_le_mul_of_nonneg_right hpow hb).trans h.ge⟩

/-- One rounding. -/
theorem HasError.within {fl : K → K} (hfl : HasError u fl) (ha : 0 ≤ a) : Within u 1 (fl a) a := by
  have herror := hfl a
  rw [abs_of_nonneg ha, abs_le] at herror
  constructor
  · nlinarith
  · linarith

end

include hu1

theorem Within.trans (h : Within u k a b) (h' : Within u j b c) : Within u (k + j) a c := by
  have hpos : 0 < 1 - u := by linarith
  constructor
  · calc (1 - u) ^ (k + j) * a = (1 - u) ^ j * ((1 - u) ^ k * a) := by ring
      _ ≤ (1 - u) ^ j * b := by gcongr; exact h.le
      _ ≤ c := h'.le
  · calc (1 - u) ^ (k + j) * c = (1 - u) ^ k * ((1 - u) ^ j * c) := by ring
      _ ≤ (1 - u) ^ k * b := by gcongr; exact h'.ge
      _ ≤ a := h.ge

theorem Within.nonneg (h : Within u k a b) (hb : 0 ≤ b) : 0 ≤ a := by
  have hpos : 0 < 1 - u := by linarith
  exact (by positivity : 0 ≤ (1 - u) ^ k * b).trans h.ge

theorem Within.pos (h : Within u k a b) (hb : 0 < b) : 0 < a := by
  have hpos : 0 < 1 - u := by linarith
  exact (by positivity : 0 < (1 - u) ^ k * b).trans_le h.ge

/-- A quotient loses what its parts have lost. -/
theorem Within.div (h : Within u k a b) (h' : Within u j c d) (hb : 0 ≤ b) (hd : 0 < d) :
    Within u (k + j) (a / c) (b / d) := by
  have hpos : 0 < 1 - u := by linarith
  have ha : 0 ≤ a := h.nonneg hu1 hb
  have hc : 0 < c := h'.pos hu1 hd
  constructor
  · rw [← mul_div_assoc, div_le_div_iff₀ hc hd]
    calc (1 - u) ^ (k + j) * a * d = ((1 - u) ^ k * a) * ((1 - u) ^ j * d) := by ring
      _ ≤ b * c := mul_le_mul h.le h'.ge (by positivity) hb
  · rw [← mul_div_assoc, div_le_div_iff₀ hd hc]
    calc (1 - u) ^ (k + j) * b * c = ((1 - u) ^ k * b) * ((1 - u) ^ j * c) := by ring
      _ ≤ a * d := mul_le_mul h.ge h'.le (by positivity) ha

omit hu1

theorem Within.mul_left (h : Within u k a b) (hc : 0 ≤ c) : Within u k (c * a) (c * b) := by
  constructor
  · rw [mul_left_comm]
    exact mul_le_mul_of_nonneg_left h.le hc
  · rw [mul_left_comm]
    exact mul_le_mul_of_nonneg_left h.ge hc

theorem Within.add (h : Within u k a b) (h' : Within u k c d) : Within u k (a + c) (b + d) := by
  constructor
  · rw [mul_add]
    exact add_le_add h.le h'.le
  · rw [mul_add]
    exact add_le_add h.ge h'.ge

theorem Within.sum {ι : Type*} {l : List ι} {f g : ι → K} (h : ∀ i ∈ l, Within u k (f i) (g i)) :
    Within u k (l.map f).sum (l.map g).sum := by
  induction l with
  | nil => constructor <;> simp
  | cons i l ih =>
      rw [List.map_cons, List.map_cons, List.sum_cons, List.sum_cons]
      exact (h i List.mem_cons_self).add (ih (fun i hi => h i (List.mem_cons_of_mem _ hi)))

include hu0 hu1

/-- One more rounding. -/
theorem Within.round {fl : K → K} (hfl : HasError u fl) (h : Within u k a b) (hb : 0 ≤ b) :
    Within u (k + 1) (fl a) b := by
  rw [add_comm]
  exact (hfl.within hu0 hu1 (h.nonneg hu1 hb)).trans hu1 h

/-- **The error of a sum** of numbers that are not negative. -/
theorem within_sumWith {fl : K → K} (hfl : HasError u fl) {l : List K} (hl : ∀ x ∈ l, 0 ≤ x) :
    Within u l.length (sumWith fl l) l.sum := by
  induction l using List.reverseRecOn with
  | nil => exact Within.refl u 0
  | append_singleton l x ih =>
      have hl' : ∀ y ∈ l, 0 ≤ y := fun y hy => hl y (List.mem_append_left _ hy)
      have hx : 0 ≤ x := hl x (List.mem_append_right _ List.mem_cons_self)
      have hsum : 0 ≤ l.sum := List.sum_nonneg hl'
      have hstep : sumWith fl (l ++ [x]) = fl (sumWith fl l + x) := List.foldl_concat _ _ _ _
      rw [hstep, List.length_append, List.length_singleton, List.sum_append, List.sum_singleton]
      refine Within.round hu0 hu1 hfl ((ih hl').add ?_) (add_nonneg hsum hx)
      exact (Within.refl u x).mono hu0 hu1 (Nat.zero_le _) hx hx

/-- **The error in figures.** -/
theorem Within.abs_sub_le (h : Within u k a b) (hb : 0 ≤ b) (hk : k * u ≤ 1 / 2) :
    |a - b| ≤ 2 * (k * u) * b := by
  have hbernoulli : 1 - k * u ≤ (1 - u) ^ k := by
    have := one_add_mul_le_pow (by linarith : -2 ≤ -u) k
    rw [sub_eq_add_neg 1 u]
    linarith
  have ha : 0 ≤ a := h.nonneg hu1 hb
  have hlow : (1 - k * u) * b ≤ a := (mul_le_mul_of_nonneg_right hbernoulli hb).trans h.ge
  have hhigh : (1 - k * u) * a ≤ b := (mul_le_mul_of_nonneg_right hbernoulli ha).trans h.le
  have hku : 0 ≤ (k : K) * u := by positivity
  rw [abs_le]
  constructor
  · nlinarith
  · nlinarith

end

/-! ## Sums of fractions -/

section

variable {fl : K → K} (hfl : Monotone fl) {N : ℕ} (hint : ∀ n ≤ N, fl n = n)
include hfl hint

/-- **A rounded sum of fractions is at most their number**, and it never exceeds the integer `N`
at which adding one has no effect any more. -/
theorem sumWith_mem_Icc (hstop : fl (N + 1) = N) {l : List K}
    (hl : ∀ x ∈ l, x ∈ Set.Icc (0 : K) 1) :
    sumWith fl l ∈ Set.Icc (0 : K) (min l.length N : ℕ) := by
  induction l using List.reverseRecOn with
  | nil =>
      rw [List.length_nil, Nat.zero_min, Nat.cast_zero]
      exact ⟨le_rfl, le_rfl⟩
  | append_singleton l x ih =>
      have hx := hl x (List.mem_append_right _ List.mem_cons_self)
      obtain ⟨hlow, hhigh⟩ := ih (fun y hy => hl y (List.mem_append_left _ hy))
      have hstep : sumWith fl (l ++ [x]) = fl (sumWith fl l + x) := List.foldl_concat _ _ _ _
      have hle : sumWith fl l + x ≤ (min l.length N : ℕ) + 1 := add_le_add hhigh hx.2
      rw [hstep, List.length_append, List.length_singleton]
      constructor
      · have hzero := hint 0 (Nat.zero_le _)
        rw [Nat.cast_zero] at hzero
        rw [← hzero]
        exact hfl (add_nonneg hlow hx.1)
      · rcases le_or_gt N l.length with hN | hN
        · rw [min_eq_right hN] at hle
          rw [min_eq_right (by omega), ← hstop]
          exact hfl hle
        · rw [min_eq_left hN.le] at hle
          rw [min_eq_left (by omega), ← hint (l.length + 1) hN]
          push_cast
          exact hfl hle

/-- So a rounded mean of fractions is a fraction. -/
theorem sumWith_le_length (hstop : fl (N + 1) = N) {l : List K}
    (hl : ∀ x ∈ l, x ∈ Set.Icc (0 : K) 1) : sumWith fl l ≤ fl l.length := by
  refine (sumWith_mem_Icc hfl hint hstop hl).2.trans ?_
  rw [← hint _ (min_le_right l.length N)]
  exact hfl (by exact_mod_cast min_le_left l.length N)

end
