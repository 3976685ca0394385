/-
# Sums over consecutive pairs

`pairSum δ l` adds `δ a b` over the consecutive pairs `(a, b)` of `l`.  It is the
closed form of a counter that compares each new sample with the one before it
(`pairSum_append_cons`), and it obeys the bounds one expects of a path length: a sample
that obeys the triangle inequality can be left out (`pairSum_cons_le_of_thins`).
-/
import Mathlib

variable {α β : Type*}

/-- The sum of `δ` over the consecutive pairs of a list. -/
def pairSum (δ : α → α → ℕ) (l : List α) : ℕ := (List.zipWith δ l l.tail).sum

@[simp] theorem pairSum_nil (δ : α → α → ℕ) : pairSum δ [] = 0 := rfl

@[simp] theorem pairSum_singleton (δ : α → α → ℕ) (a : α) : pairSum δ [a] = 0 := by
  simp [pairSum]

@[simp] theorem pairSum_cons_cons (δ : α → α → ℕ) (a b : α) (l : List α) :
    pairSum δ (a :: b :: l) = δ a b + pairSum δ (b :: l) := by
  simp [pairSum]

/-- Cutting a list at a sample splits the sum. -/
theorem pairSum_append_cons (δ : α → α → ℕ) (l : List α) (a : α) (r : List α) :
    pairSum δ (l ++ a :: r) = pairSum δ (l ++ [a]) + pairSum δ (a :: r) := by
  induction l with
  | nil => simp
  | cons b l ih =>
      cases l with
      | nil => simp
      | cons c l =>
          simp only [List.cons_append, pairSum_cons_cons] at ih ⊢
          omega

/-- Each pair is counted once: `n` samples give at most `n - 1` times the largest
pair. -/
theorem pairSum_le {δ : α → α → ℕ} {m : ℕ} (l : List α)
    (h : ∀ a ∈ l, ∀ b ∈ l, δ a b ≤ m) : pairSum δ l ≤ (l.length - 1) * m := by
  induction l with
  | nil => simp
  | cons a l ih =>
      cases l with
      | nil => simp
      | cons b l =>
          have hab : δ a b ≤ m := h a (by simp) b (by simp)
          have hrest := ih (fun x hx y hy =>
            h x (List.mem_cons_of_mem _ hx) y (List.mem_cons_of_mem _ hy))
          rw [pairSum_cons_cons]
          simp only [List.length_cons, Nat.add_sub_cancel] at hrest ⊢
          calc δ a b + pairSum δ (b :: l) ≤ m + l.length * m := Nat.add_le_add hab hrest
            _ = (l.length + 1) * m := by ring

/-- Two sequences whose consecutive pairs weigh the same have the same sum: `R`
relates the members and `S` the neighbours. -/
theorem pairSum_congr {δ : α → α → ℕ} {ε : β → β → ℕ} {R : α → β → Prop}
    {S : α × β → α × β → Prop}
    (hδ : ∀ a b a' b', R a a' → R b b' → S (a, a') (b, b') → δ a b = ε a' b') {l : List α}
    {l' : List β} (h : List.Forall₂ R l l') (hS : (l.zip l').IsChain S) :
    pairSum δ l = pairSum ε l' := by
  induction h with
  | nil => rfl
  | @cons a a' l l' ha hl ih =>
      cases hl with
      | nil => simp
      | @cons b b' l l' hb hl =>
          rw [List.zip_cons_cons, List.zip_cons_cons, List.isChain_cons_cons] at hS
          rw [pairSum_cons_cons, pairSum_cons_cons, hδ a b a' b' ha hb hS.1]
          congr 1
          exact ih hS.2

/-- The same list under two weights that agree on its members. -/
theorem pairSum_congr_of_mem {δ ε : α → α → ℕ} {l : List α}
    (h : ∀ a ∈ l, ∀ b ∈ l, δ a b = ε a b) : pairSum δ l = pairSum ε l := by
  induction l with
  | nil => rfl
  | cons a l ih =>
      cases l with
      | nil => simp
      | cons b l =>
          have hrest := ih (fun x hx y hy =>
            h x (List.mem_cons_of_mem _ hx) y (List.mem_cons_of_mem _ hy))
          rw [pairSum_cons_cons, pairSum_cons_cons, hrest, h a (by simp) b (by simp)]

/-- Samples that weigh like their predecessor `u` and do not differ from it may be
left out. -/
theorem pairSum_drop {δ : α → α → ℕ} {u : α} {vs : List α} (hzero : ∀ v ∈ vs, δ u v = 0)
    (hlike : ∀ v ∈ vs, ∀ x, δ v x = δ u x) (l r : List α) :
    pairSum δ (l ++ u :: (vs ++ r)) = pairSum δ (l ++ u :: r) := by
  rw [pairSum_append_cons, pairSum_append_cons δ l u r]
  congr 1
  induction vs with
  | nil => rfl
  | cons v vs ih =>
      have hv : ∀ t, pairSum δ (v :: t) = pairSum δ (u :: t) := by
        intro t
        cases t with
        | nil => simp
        | cons x t =>
            rw [pairSum_cons_cons, pairSum_cons_cons, hlike v List.mem_cons_self]
      rw [List.cons_append, pairSum_cons_cons, hzero v List.mem_cons_self, Nat.zero_add, hv]
      exact ih (fun w hw => hzero w (List.mem_cons_of_mem _ hw))
        (fun w hw => hlike w (List.mem_cons_of_mem _ hw))

/-- `Thins P l l'`: the second list is the first one without some members that satisfy `P`. -/
inductive Thins (P : α → Prop) : List α → List α → Prop
  | nil : Thins P [] []
  | keep (a : α) {l l' : List α} : Thins P l l' → Thins P (a :: l) (a :: l')
  | drop {a : α} {l l' : List α} : P a → Thins P l l' → Thins P (a :: l) l'

/-- **The triangle inequality for sequences.**  Leaving out samples behind the first one does
not raise the sum. -/
theorem pairSum_cons_le_of_thins {δ : α → α → ℕ} {P Q : α → Prop}
    (hδ : ∀ a b c, Q a → Q b → Q c → P b → δ a c ≤ δ a b + δ b c) {l l' : List α}
    (h : Thins P l l') (hl : ∀ a ∈ l, Q a) {u : α} (hu : Q u) :
    pairSum δ (u :: l') ≤ pairSum δ (u :: l) := by
  induction h generalizing u with
  | nil => exact le_refl _
  | keep a _ ih =>
      obtain ⟨ha, hl⟩ := List.forall_mem_cons.mp hl
      rw [pairSum_cons_cons, pairSum_cons_cons]
      exact Nat.add_le_add_left (ih hl ha) _
  | @drop a l l' hP _ ih =>
      obtain ⟨ha, hl⟩ := List.forall_mem_cons.mp hl
      refine (ih hl hu).trans ?_
      cases l with
      | nil => simp
      | cons b l =>
          rw [pairSum_cons_cons, pairSum_cons_cons, pairSum_cons_cons]
          have := hδ u a b hu ha (hl b List.mem_cons_self) hP
          omega

/-- Counting the pairs that satisfy a test. -/
theorem pairSum_ite (p : α → α → Prop) [DecidableRel p] (l : List α) :
    pairSum (fun a b => if p a b then 1 else 0) l
      = (l.zip l.tail).countP (fun e => p e.1 e.2) := by
  induction l with
  | nil => rfl
  | cons a l ih =>
      cases l with
      | nil => simp
      | cons b l =>
          rw [pairSum_cons_cons, ih]
          by_cases hp : p a b
          · simp [hp]
            omega
          · simp [hp]
