/-
# Sorting by a key

`sortedBy key l` is `l` in order of `key`, elements with equal keys in their old order:
Python's `sorted(l, key=key)`.  `sortedByDesc` is the same with `reverse=True`, which
reverses the order of the keys but not of equal elements.

Stability is stated with filters: the elements of one key stand in the sorted list as
they stood before (`filter_sortedBy`).
-/
import Mathlib

variable {α κ : Type*}

/-! ## Insertion sort is stable -/

section

variable (r : α → α → Prop) [DecidableRel r]

/-- Among elements that are all related, insertion puts the new one first. -/
theorem filter_orderedInsert {p : α → Bool} (hp : ∀ a b, p a = true → p b = true → r a b) (a : α)
    (l : List α) : (l.orderedInsert r a).filter p = (a :: l).filter p := by
  induction l with
  | nil => rfl
  | cons b l ih =>
      rw [List.orderedInsert_cons]
      split_ifs with hab
      · rfl
      · rw [List.filter_cons, ih]
        by_cases ha : p a = true
        · -- `b` stays before `a`, so it is none of these elements
          have hb : ¬ p b = true := fun hb => hab (hp a b ha hb)
          rw [if_neg hb, List.filter_cons_of_pos ha, List.filter_cons_of_pos ha,
            List.filter_cons_of_neg hb]
        · rw [List.filter_cons_of_neg ha, List.filter_cons_of_neg ha, List.filter_cons]

theorem filter_insertionSort {p : α → Bool} (hp : ∀ a b, p a = true → p b = true → r a b)
    (l : List α) : (l.insertionSort r).filter p = l.filter p := by
  induction l with
  | nil => rfl
  | cons a l ih =>
      rw [List.insertionSort_cons, filter_orderedInsert r hp, List.filter_cons, List.filter_cons,
        ih]

end

/-! ## Sorting by a key -/

variable [LinearOrder κ]

/-- `sorted(l, key=key)`. -/
def sortedBy (key : α → κ) (l : List α) : List α := l.insertionSort (fun a b => key a ≤ key b)

/-- `sorted(l, key=key, reverse=True)`. -/
def sortedByDesc (key : α → κ) (l : List α) : List α :=
  sortedBy (fun a => OrderDual.toDual (key a)) l

theorem sortedBy_perm (key : α → κ) (l : List α) : (sortedBy key l).Perm l :=
  List.perm_insertionSort _ l

@[simp] theorem mem_sortedBy {key : α → κ} {l : List α} {a : α} : a ∈ sortedBy key l ↔ a ∈ l :=
  (sortedBy_perm key l).mem_iff

theorem nodup_sortedBy {key : α → κ} {l : List α} (h : l.Nodup) : (sortedBy key l).Nodup :=
  (sortedBy_perm key l).nodup_iff.mpr h

@[simp] theorem sortedBy_eq_nil_iff {key : α → κ} {l : List α} : sortedBy key l = [] ↔ l = [] := by
  constructor
  · intro h
    have hperm := sortedBy_perm key l
    rw [h] at hperm
    exact hperm.symm.eq_nil
  · rintro rfl
    rfl

theorem pairwise_sortedBy (key : α → κ) (l : List α) :
    (sortedBy key l).Pairwise (fun a b => key a ≤ key b) := by
  have htotal : Std.Total (fun a b => key a ≤ key b) := ⟨fun a b => le_total (key a) (key b)⟩
  have htrans : IsTrans α (fun a b => key a ≤ key b) := ⟨fun a b c hab hbc => hab.trans hbc⟩
  exact List.pairwise_insertionSort _ l

/-- **Stability.**  Elements with one key keep their order. -/
theorem filter_sortedBy (key : α → κ) (k : κ) (l : List α) :
    (sortedBy key l).filter (fun a => key a = k) = l.filter (fun a => key a = k) := by
  refine filter_insertionSort _ (fun a b ha hb => ?_) l
  rw [decide_eq_true_eq] at ha hb
  exact (ha.trans hb.symm).le

theorem sortedByDesc_perm (key : α → κ) (l : List α) : (sortedByDesc key l).Perm l :=
  sortedBy_perm _ l

theorem pairwise_sortedByDesc (key : α → κ) (l : List α) :
    (sortedByDesc key l).Pairwise (fun a b => key b ≤ key a) :=
  pairwise_sortedBy (fun a => OrderDual.toDual (key a)) l

theorem filter_sortedByDesc (key : α → κ) (k : κ) (l : List α) :
    (sortedByDesc key l).filter (fun a => key a = k) = l.filter (fun a => key a = k) :=
  filter_sortedBy (fun a => OrderDual.toDual (key a)) (OrderDual.toDual k) l

/-- Changing the elements of a sorted list without changing their keys. -/
theorem map_sortedBy_of_key {β : Type*} {key : α → κ} {key' : β → κ} {f : α → β}
    (h : ∀ a, key' (f a) = key a) (l : List α) :
    (sortedBy key l).map f = sortedBy key' (l.map f) :=
  List.map_insertionSort _ _ f l (fun a _ b _ => by rw [h, h])

theorem map_sortedByDesc_of_key {β : Type*} {key : α → κ} {key' : β → κ} {f : α → β}
    (h : ∀ a, key' (f a) = key a) (l : List α) :
    (sortedByDesc key l).map f = sortedByDesc key' (l.map f) :=
  List.map_insertionSort _ _ f l (fun a _ b _ => by simp only [h])

/-- The keys of a sorted list are the sorted keys. -/
theorem map_sortedBy (key : α → κ) (l : List α) :
    (sortedBy key l).map key = sortedBy id (l.map key) :=
  List.map_insertionSort _ _ key l (fun _ _ _ _ => Iff.rfl)

/-- **Sorted keys do not depend on the order they come in.** -/
theorem sortedBy_id_eq_of_perm {l l' : List κ} (h : l.Perm l') :
    sortedBy id l = sortedBy id l' := by
  have hperm : (sortedBy id l).Perm (sortedBy id l') :=
    (sortedBy_perm id l).trans (h.trans (sortedBy_perm id l').symm)
  exact hperm.eq_of_pairwise (fun a b _ _ hab hba => le_antisymm hab hba)
    (pairwise_sortedBy id l) (pairwise_sortedBy id l')

/-- **Without equal keys a sorted list does not depend on the order it comes in.** -/
theorem sortedBy_eq_of_perm {key : α → κ} {l l' : List α} (h : l.Perm l')
    (hkeys : (l.map key).Nodup) : sortedBy key l = sortedBy key l' := by
  have hperm : (sortedBy key l).Perm (sortedBy key l') :=
    (sortedBy_perm key l).trans (h.trans (sortedBy_perm key l').symm)
  refine hperm.eq_of_pairwise (fun a b ha hb hab hba => ?_) (pairwise_sortedBy key l)
    (pairwise_sortedBy key l')
  exact List.inj_on_of_nodup_map hkeys (mem_sortedBy.mp ha) (h.mem_iff.mpr (mem_sortedBy.mp hb))
    (le_antisymm hab hba)

/-- Different keys are in strict order. -/
theorem pairwise_lt_sortedBy {key : α → κ} {l : List α} (hkeys : (l.map key).Nodup) :
    ((sortedBy key l).map key).Pairwise (· < ·) := by
  rw [map_sortedBy]
  exact (pairwise_sortedBy id _).imp₂ (fun a b hab hne => lt_of_le_of_ne hab hne)
    (nodup_sortedBy hkeys)

/-- Cutting a list that is sorted by a relation. -/
theorem rel_take_drop {r : α → α → Prop} {l : List α} (h : l.Pairwise r) (n : ℕ) :
    ∀ a ∈ l.take n, ∀ b ∈ l.drop n, r a b := by
  rw [← List.take_append_drop n l, List.pairwise_append] at h
  exact h.2.2
