/-
# What `value_toggle_delta` counts

`extend fill w u` is the `w`-digit value that the text `u` stands for when it is
extended on the left with `fill`; digits are numbered from the right.

* On texts of `0` and `1` the delta is the Hamming distance of the zero-extended
  values (`valueToggleDelta_binary`).
* As soon as one text has another letter, every textual difference counts as one
  toggle (`valueToggleDelta_of_not_binary`).

A dump may drop leading digits, so one vector has several spellings
(`vectorOf`).  `valueToggleDelta_respell` says how far the delta is independent
of the spelling: only two consecutive values with an `x` or a `z` are compared as
texts.
-/
import ThermalPlacement.VcdRun

open PyText

/-! ## Hamming distance of lists -/

/-- Counting the places where two lists differ, as a Hamming distance. -/
theorem countP_zip_ne {α : Type*} [DecidableEq α] (f : α) {n : ℕ} {a b : List α}
    (ha : a.length = n) (hb : b.length = n) :
    (a.zip b).countP (fun p => p.1 ≠ p.2)
      = hammingDist (fun i : Fin n => a.getD i f) (fun i : Fin n => b.getD i f) := by
  induction n generalizing a b with
  | zero =>
      rw [List.length_eq_zero_iff] at ha hb
      subst ha hb
      simp [hammingDist]
  | succ n ih =>
      cases a with
      | nil => simp at ha
      | cons x a =>
          cases b with
          | nil => simp at hb
          | cons y b =>
              have hrec := ih (Nat.succ.inj ha) (Nat.succ.inj hb)
              unfold hammingDist at hrec ⊢
              rw [Finset.card_filter] at hrec ⊢
              rw [Fin.sum_univ_succ, List.zip_cons_cons, List.countP_cons, hrec]
              simp [add_comm]

/-- The places may as well be numbered from the right. -/
theorem countP_zip_ne_reverse {α : Type*} [DecidableEq α] (f : α) {n : ℕ} {a b : List α}
    (ha : a.length = n) (hb : b.length = n) :
    (a.zip b).countP (fun p => p.1 ≠ p.2)
      = hammingDist (fun i : Fin n => a.reverse.getD i f)
          (fun i : Fin n => b.reverse.getD i f) := by
  have hzip : (a.zip b).reverse = a.reverse.zip b.reverse := by
    unfold List.zip
    exact List.reverse_zipWith (ha.trans hb.symm)
  rw [← countP_zip_ne f (List.length_reverse.trans ha) (List.length_reverse.trans hb), ← hzip,
    List.countP_reverse]

namespace Vcd

/-! ## Extension to the width -/

/-- The `w` low digits of a text that is extended on the left with `fill`; digit
`0` is the last character. -/
def extend (fill : Char) (w : ℕ) (u : Str) : Fin w → Char := fun i => u.reverse.getD i fill

/-- The zero-extended value of a text. -/
def zeroExtend (w : ℕ) (u : Str) : Fin w → Char := extend '0' w u

/-- Padding with the fill digit does not change the extended value. -/
theorem extend_replicate_append (fill : Char) (w k : ℕ) (u : Str) :
    extend fill w (List.replicate k fill ++ u) = extend fill w u := by
  funext i
  unfold extend
  rw [List.reverse_append, List.reverse_replicate]
  rcases Nat.lt_or_ge i u.reverse.length with hi | hi
  · rw [List.getD_append _ _ _ _ hi]
  · rw [List.getD_append_right _ _ _ _ hi, List.getD_eq_default _ _ hi,
      List.getD_eq_getElem?_getD, List.getElem?_getD_replicate_default_eq]

theorem isBinary_ne_sign {u : Str} (hu : IsBinary u) : ∀ c ∈ u, c ≠ '+' ∧ c ≠ '-' := by
  intro c hc
  rcases hu c hc with rfl | rfl <;> decide

/-- Digits beyond both texts are `0` on both sides. -/
theorem hammingDist_zeroExtend_succ {u v : Str} {n : ℕ} (hu : u.length ≤ n) (hv : v.length ≤ n) :
    hammingDist (zeroExtend (n + 1) u) (zeroExtend (n + 1) v)
      = hammingDist (zeroExtend n u) (zeroExtend n v) := by
  have hlast : ∀ t : Str, t.length ≤ n → zeroExtend (n + 1) t (Fin.last n) = '0' := by
    intro t ht
    exact List.getD_eq_default _ _ (by simpa using ht)
  unfold hammingDist
  rw [Finset.card_filter, Finset.card_filter, Fin.sum_univ_castSucc, hlast u hu, hlast v hv]
  simp only [ne_eq, not_true_eq_false, if_false, add_zero]
  rfl

theorem hammingDist_zeroExtend_of_le {u v : Str} {m n : ℕ} (hmn : m ≤ n) (hu : u.length ≤ m)
    (hv : v.length ≤ m) :
    hammingDist (zeroExtend n u) (zeroExtend n v)
      = hammingDist (zeroExtend m u) (zeroExtend m v) := by
  induction n, hmn using Nat.le_induction with
  | base => rfl
  | succ n hmn ih => rw [hammingDist_zeroExtend_succ (hu.trans hmn) (hv.trans hmn), ih]

/-! ## The delta -/

/-- **Binary values.**  The delta of two texts of `0` and `1` is the Hamming distance
of their values, zero-extended to any length that holds both. -/
theorem valueToggleDelta_hammingDist {u v : Str} {n : ℕ} (hu : IsBinary u) (hv : IsBinary v)
    (hul : u.length ≤ n) (hvl : v.length ≤ n) (width : ℤ) :
    valueToggleDelta u v width = hammingDist (zeroExtend n u) (zeroExtend n v) := by
  unfold valueToggleDelta
  by_cases h : u = v
  · rw [if_pos h, h, hammingDist_self]
  · obtain ⟨m, hm⟩ : ∃ m : ℕ, max (max (u.length : ℤ) v.length) width = m :=
      Int.eq_ofNat_of_zero_le (by omega)
    have hum : u.length ≤ m := by omega
    have hvm : v.length ≤ m := by omega
    have hpad : ∀ t : Str, t.length ≤ m →
        (List.replicate ((m : ℤ) - t.length).toNat '0' ++ t).length = m := by
      intro t ht
      rw [List.length_append, List.length_replicate]
      omega
    rw [if_neg h, if_pos ⟨hu, hv⟩, hm]
    dsimp only
    rw [zfill_eq_replicate_append _ (isBinary_ne_sign hu),
      zfill_eq_replicate_append _ (isBinary_ne_sign hv),
      countP_zip_ne_reverse '0' (hpad u hum) (hpad v hvm)]
    show hammingDist (extend '0' m _) (extend '0' m _) = _
    rw [extend_replicate_append, extend_replicate_append]
    show hammingDist (zeroExtend m u) (zeroExtend m v) = _
    -- both lengths are reached from the longer of the two texts
    rw [hammingDist_zeroExtend_of_le (max_le hum hvm) (le_max_left _ _) (le_max_right _ _),
      hammingDist_zeroExtend_of_le (max_le hul hvl) (le_max_left _ _) (le_max_right _ _)]

/-- The delta of binary texts that fit the width. -/
theorem valueToggleDelta_binary {u v : Str} {w : ℕ} (hu : IsBinary u) (hv : IsBinary v)
    (hul : u.length ≤ w) (hvl : v.length ≤ w) :
    valueToggleDelta u v w = hammingDist (zeroExtend w u) (zeroExtend w v) :=
  valueToggleDelta_hammingDist hu hv hul hvl w

/-- **Other values.**  A change from or to a text with another letter counts one
toggle, whatever the width. -/
theorem valueToggleDelta_of_not_binary {u v : Str} (w : ℤ) (h : ¬ (IsBinary u ∧ IsBinary v)) :
    valueToggleDelta u v w = if u = v then 0 else 1 := by
  unfold valueToggleDelta
  split_ifs
  · rfl
  · omega

@[simp] theorem valueToggleDelta_self (u : Str) (w : ℤ) : valueToggleDelta u u w = 0 :=
  if_pos rfl

/-- Between binary values the delta vanishes exactly on equal vectors. -/
theorem valueToggleDelta_eq_zero_iff {u v : Str} {w : ℕ} (hu : IsBinary u) (hv : IsBinary v)
    (hul : u.length ≤ w) (hvl : v.length ≤ w) :
    valueToggleDelta u v w = 0 ↔ zeroExtend w u = zeroExtend w v := by
  rw [valueToggleDelta_binary hu hv hul hvl, hammingDist_eq_zero]

/-- **One change toggles each bit at most once.** -/
theorem valueToggleDelta_le {u v : Str} {w : ℕ} (hw : 1 ≤ w) (hul : u.length ≤ w)
    (hvl : v.length ≤ w) : valueToggleDelta u v w ≤ w := by
  by_cases h : IsBinary u ∧ IsBinary v
  · rw [valueToggleDelta_binary h.1 h.2 hul hvl]
    exact hammingDist_le_card_fintype.trans (Fintype.card_fin w).le
  · rw [valueToggleDelta_of_not_binary _ h]
    split_ifs <;> omega

/-! ## Spellings -/

/-- A text over the four values that fits the width. -/
def IsSpelling (w : ℕ) (u : Str) : Prop :=
  u ≠ [] ∧ u.length ≤ w ∧ ∀ c ∈ u, c ∈ ['0', '1', 'x', 'z']

instance (w : ℕ) (u : Str) : Decidable (IsSpelling w u) :=
  inferInstanceAs (Decidable (_ ∧ _ ∧ ∀ c ∈ u, _))

/-- The digit that a text is extended with: a leading `x` or `z` repeats, a leading
`0` or `1` extends with `0`. -/
def fillDigit (u : Str) : Char :=
  match u with
  | 'x' :: _ => 'x'
  | 'z' :: _ => 'z'
  | _ => '0'

/-- The `w`-bit four-state vector a text denotes. -/
def vectorOf (w : ℕ) (u : Str) : Fin w → Char := extend (fillDigit u) w u

theorem fillDigit_of_isBinary {u : Str} (hu : IsBinary u) : fillDigit u = '0' := by
  cases u with
  | nil => rfl
  | cons c u => rcases hu c List.mem_cons_self with rfl | rfl <;> rfl

theorem vectorOf_of_isBinary {u : Str} (hu : IsBinary u) (w : ℕ) :
    vectorOf w u = zeroExtend w u := by
  unfold vectorOf zeroExtend
  rw [fillDigit_of_isBinary hu]

/-- The digits of a fully known vector are known. -/
theorem vectorOf_known {u : Str} (hu : IsBinary u) {w : ℕ} (i : Fin w) :
    vectorOf w u i = '0' ∨ vectorOf w u i = '1' := by
  rw [vectorOf_of_isBinary hu]
  show u.reverse.getD i '0' = '0' ∨ u.reverse.getD i '0' = '1'
  rcases Nat.lt_or_ge i u.reverse.length with hi | hi
  · rw [List.getD_eq_getElem _ _ hi]
    exact hu _ (List.mem_reverse.mp (List.getElem_mem hi))
  · exact Or.inl (List.getD_eq_default _ _ hi)

/-- Whether a vector is fully known does not depend on how it is spelled. -/
theorem isBinary_of_vectorOf_eq {w : ℕ} {u u' : Str} (hu' : u'.length ≤ w)
    (h : vectorOf w u = vectorOf w u') (hu : IsBinary u) : IsBinary u' := by
  intro c hc
  obtain ⟨i, hi, hci⟩ := List.getElem_of_mem (List.mem_reverse.mpr hc)
  have hiw : i < w := by
    rw [List.length_reverse] at hi
    omega
  have hdigit : vectorOf w u' ⟨i, hiw⟩ = c := by
    show u'.reverse.getD i _ = c
    rw [List.getD_eq_getElem _ _ hi, hci]
  rw [← hdigit, ← h]
  exact vectorOf_known hu _

/-- Texts that stand for one value of a `w`-bit signal: the same text, or two
spellings of one vector. -/
def SameValue (w : ℕ) (u u' : Str) : Prop :=
  u = u' ∨ IsSpelling w u ∧ IsSpelling w u' ∧ vectorOf w u = vectorOf w u'

theorem SameValue.symm {w : ℕ} {u u' : Str} (h : SameValue w u u') : SameValue w u' u := by
  rcases h with rfl | ⟨hu, hu', hvec⟩
  · exact Or.inl rfl
  · exact Or.inr ⟨hu', hu, hvec.symm⟩

theorem SameValue.isBinary {w : ℕ} {u u' : Str} (h : SameValue w u u') (hu : IsBinary u) :
    IsBinary u' := by
  rcases h with rfl | ⟨-, hu', hvec⟩
  · exact hu
  · exact isBinary_of_vectorOf_eq hu'.2.1 hvec hu

theorem SameValue.isBinary_iff {w : ℕ} {u u' : Str} (h : SameValue w u u') :
    IsBinary u ↔ IsBinary u' := ⟨h.isBinary, h.symm.isBinary⟩

/-- Fully known spellings of one vector have one zero-extension, to any length. -/
theorem SameValue.zeroExtend_eq {w : ℕ} {u u' : Str} (h : SameValue w u u') (hu : IsBinary u)
    (n : ℕ) : zeroExtend n u = zeroExtend n u' := by
  rcases h with rfl | ⟨⟨-, hul, -⟩, ⟨-, hu'l, -⟩, hvec⟩
  · rfl
  · have hu' := isBinary_of_vectorOf_eq hu'l hvec hu
    rw [vectorOf_of_isBinary hu, vectorOf_of_isBinary hu'] at hvec
    funext i
    rcases Nat.lt_or_ge i w with hi | hi
    · exact congrFun hvec ⟨i, hi⟩
    · show u.reverse.getD i '0' = u'.reverse.getD i '0'
      rw [List.getD_eq_default _ _ (by rw [List.length_reverse]; omega),
        List.getD_eq_default _ _ (by rw [List.length_reverse]; omega)]

/-- **How far the delta is independent of the spelling.**  Only two consecutive
unknown values are compared as texts. -/
theorem valueToggleDelta_respell {w : ℕ} {a a' b b' : Str} (ha : SameValue w a a')
    (hb : SameValue w b b') (htext : ¬ IsBinary a → ¬ IsBinary b → (a = b ↔ a' = b')) (width : ℤ) :
    valueToggleDelta a b width = valueToggleDelta a' b' width := by
  by_cases hknown : IsBinary a ∧ IsBinary b
  · obtain ⟨hba, hbb⟩ := hknown
    set n := a.length + b.length + a'.length + b'.length with hn
    rw [valueToggleDelta_hammingDist hba hbb (n := n) (by omega) (by omega),
      valueToggleDelta_hammingDist (ha.isBinary hba) (hb.isBinary hbb) (n := n) (by omega)
        (by omega),
      ha.zeroExtend_eq hba, hb.zeroExtend_eq hbb]
  · have hknown' : ¬ (IsBinary a' ∧ IsBinary b') := by
      rw [← ha.isBinary_iff, ← hb.isBinary_iff]
      exact hknown
    rw [valueToggleDelta_of_not_binary _ hknown, valueToggleDelta_of_not_binary _ hknown']
    refine if_congr ?_ rfl rfl
    by_cases hba : IsBinary a
    · -- a known and an unknown value are never the same text
      have hbb : ¬ IsBinary b := fun hbb => hknown ⟨hba, hbb⟩
      exact iff_of_false (fun e => hbb (e ▸ hba))
        (fun e => hbb (hb.symm.isBinary (e ▸ ha.isBinary hba)))
    · by_cases hbb : IsBinary b
      · exact iff_of_false (fun e => hba (e ▸ hbb))
          (fun e => hba (ha.symm.isBinary (e ▸ hb.isBinary hbb)))
      · exact htext hba hbb

/-- Fully known spellings of one vector are interchangeable against every text. -/
theorem valueToggleDelta_congr_known {w : ℕ} {u u' : Str} (hu : IsBinary u)
    (h : SameValue w u u') (v : Str) (width : ℤ) :
    valueToggleDelta u v width = valueToggleDelta u' v width ∧
      valueToggleDelta v u width = valueToggleDelta v u' width :=
  ⟨valueToggleDelta_respell h (Or.inl rfl) (fun hnot => absurd hu hnot) width,
    valueToggleDelta_respell (Or.inl rfl) h (fun _ hnot => absurd hu hnot) width⟩

/-- Spellings of one vector are interchangeable against every other vector. -/
theorem valueToggleDelta_congr_of_ne {w : ℕ} {u u' v : Str} (h : SameValue w u u')
    (hv : vectorOf w v ≠ vectorOf w u) (width : ℤ) :
    valueToggleDelta u v width = valueToggleDelta u' v width ∧
      valueToggleDelta v u width = valueToggleDelta v u' width := by
  have hne : u ≠ v := by
    rintro rfl
    exact hv rfl
  have hne' : u' ≠ v := by
    rintro rfl
    rcases h with rfl | ⟨-, -, hvec⟩
    · exact hv rfl
    · exact hv hvec.symm
  exact ⟨valueToggleDelta_respell h (Or.inl rfl) (fun _ _ => iff_of_false hne hne') width,
    valueToggleDelta_respell (Or.inl rfl) h
      (fun _ _ => iff_of_false hne.symm hne'.symm) width⟩

end Vcd
