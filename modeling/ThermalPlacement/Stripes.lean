/-
# Blocks laid end to end

Blocks that stand side by side on a line and fill a chip.  `EndToEnd x blocks y` says that
each block begins where the one before it ends, from `x` to `y`; in terms of edges this is
`endToEnd_iff`, and in terms of areas it means that the blocks are disjoint and cover the
chip (`EndToEnd.area`).
-/
import Mathlib

variable {K : Type*} [AddCommGroup K] [LinearOrder K] [IsOrderedAddMonoid K]

/-- A block of a floorplan. -/
structure Block (K : Type*) where
  width : K
  height : K
  left : K
  bottom : K
  deriving DecidableEq, Repr

namespace Block

/-- The right edge. -/
def right (b : Block K) : K := b.left + b.width

/-- The stretch of the line below a block. -/
def stretch (b : Block K) : Set K := Set.Ico b.left b.right

/-- The points of a block. -/
def area (b : Block K) : Set (K × K) := b.stretch ×ˢ Set.Ico b.bottom (b.bottom + b.height)

end Block

/-- Blocks end to end from `x` to `y`. -/
def EndToEnd : K → List (Block K) → K → Prop
  | x, [], y => x = y
  | x, b :: blocks, y => b.left = x ∧ EndToEnd b.right blocks y

omit [LinearOrder K] [IsOrderedAddMonoid K] in
/-- **Edges.**  The first block begins at `x`, consecutive blocks meet, the last one ends
at `y`. -/
theorem endToEnd_iff {blocks : List (Block K)} (hne : blocks ≠ []) (x y : K) :
    EndToEnd x blocks y ↔ (∀ b ∈ blocks.head?, b.left = x) ∧
      blocks.IsChain (fun a b => a.right = b.left) ∧ ∀ b ∈ blocks.getLast?, b.right = y := by
  induction blocks generalizing x with
  | nil => exact absurd rfl hne
  | cons b blocks ih =>
      cases blocks with
      | nil => simp [EndToEnd]
      | cons c blocks =>
          rw [EndToEnd, ih (List.cons_ne_nil c blocks), List.isChain_cons_cons,
            List.getLast?_cons_cons]
          simp only [List.head?_cons, Option.mem_some_iff, forall_eq', and_assoc,
            eq_comm (a := b.right)]

omit [LinearOrder K] [IsOrderedAddMonoid K] in
/-- Blocks of one width. -/
theorem EndToEnd.eq_add_nsmul {w : K} {blocks : List (Block K)} {x y : K}
    (h : EndToEnd x blocks y) (hwidth : ∀ b ∈ blocks, b.width = w) :
    y = x + blocks.length • w := by
  induction blocks generalizing x with
  | nil => simpa using h.symm
  | cons b blocks ih =>
      obtain ⟨hb, hblocks⟩ := List.forall_mem_cons.mp hwidth
      rw [ih h.2 hblocks, Block.right, h.1, hb, List.length_cons, succ_nsmul', add_assoc]

omit [LinearOrder K] [IsOrderedAddMonoid K] in
/-- Blocks of one width `w` at the multiples of `w`. -/
theorem endToEnd_range' {w : K} {block : ℕ → Block K} {start n : ℕ}
    (h : ∀ i < start + n, (block i).left = i • w ∧ (block i).width = w) :
    EndToEnd (start • w) ((List.range' start n).map block) ((start + n) • w) := by
  induction n generalizing start with
  | zero => rfl
  | succ n ih =>
      obtain ⟨hleft, hwidth⟩ := h start (by omega)
      have hright : (block start).right = (start + 1) • w := by
        rw [Block.right, hleft, hwidth, succ_nsmul]
      rw [List.range'_succ, List.map_cons]
      refine ⟨hleft, ?_⟩
      rw [hright, show start + (n + 1) = start + 1 + n from by omega]
      exact ih (fun i hi => h i (by omega))

theorem EndToEnd.le {blocks : List (Block K)} {x y : K} (h : EndToEnd x blocks y)
    (hwidth : ∀ b ∈ blocks, 0 ≤ b.width) : x ≤ y := by
  induction blocks generalizing x with
  | nil => exact le_of_eq h
  | cons b blocks ih =>
      obtain ⟨hb, hblocks⟩ := List.forall_mem_cons.mp hwidth
      calc x ≤ b.right := by rw [Block.right, h.1]; exact le_add_of_nonneg_right hb
        _ ≤ y := ih h.2 hblocks

/-- The stretches of the blocks cover the line from `x` to `y`. -/
theorem EndToEnd.iUnion_stretch {blocks : List (Block K)} {x y : K} (h : EndToEnd x blocks y)
    (hwidth : ∀ b ∈ blocks, 0 ≤ b.width) : (⋃ b ∈ blocks, b.stretch) = Set.Ico x y := by
  induction blocks generalizing x with
  | nil =>
      obtain rfl : x = y := h
      simp
  | cons b blocks ih =>
      obtain ⟨hb, hblocks⟩ := List.forall_mem_cons.mp hwidth
      obtain ⟨rfl, hrest⟩ := h
      have hright : b.left ≤ b.right := le_add_of_nonneg_right hb
      have hcover : (⋃ c ∈ b :: blocks, c.stretch) = b.stretch ∪ ⋃ c ∈ blocks, c.stretch := by
        simp only [List.mem_cons, Set.iUnion_iUnion_eq_or_left]
      rw [hcover, ih hrest hblocks, Block.stretch,
        Set.Ico_union_Ico_eq_Ico hright (hrest.le hblocks)]

/-- The stretches of different blocks are disjoint. -/
theorem EndToEnd.pairwise_disjoint {blocks : List (Block K)} {x y : K} (h : EndToEnd x blocks y)
    (hwidth : ∀ b ∈ blocks, 0 ≤ b.width) :
    blocks.Pairwise (fun a b => Disjoint a.stretch b.stretch) := by
  induction blocks generalizing x with
  | nil => exact List.Pairwise.nil
  | cons b blocks ih =>
      obtain ⟨hb, hblocks⟩ := List.forall_mem_cons.mp hwidth
      refine List.pairwise_cons.mpr ⟨fun c hc => ?_, ih h.2 hblocks⟩
      -- the later blocks begin where `b` ends
      have hsubset : c.stretch ⊆ Set.Ico b.right y := by
        rw [← h.2.iUnion_stretch hblocks]
        exact Set.subset_biUnion_of_mem (u := Block.stretch) hc
      exact (Set.Ico_disjoint_Ico_same (a := b.left)).mono_right hsubset

/-- **Areas.**  Blocks end to end that span the height of a chip are disjoint and cover it. -/
theorem EndToEnd.area {blocks : List (Block K)} {x y bottom height : K} (h : EndToEnd x blocks y)
    (hwidth : ∀ b ∈ blocks, 0 ≤ b.width)
    (hspan : ∀ b ∈ blocks, b.bottom = bottom ∧ b.height = height) :
    blocks.Pairwise (fun a b => Disjoint a.area b.area) ∧
      (⋃ b ∈ blocks, b.area) = Set.Ico x y ×ˢ Set.Ico bottom (bottom + height) := by
  constructor
  · refine (h.pairwise_disjoint hwidth).imp (fun {a b} hab => ?_)
    exact Set.disjoint_prod.mpr (Or.inl hab)
  · have harea : ∀ b ∈ blocks, b.area = b.stretch ×ˢ Set.Ico bottom (bottom + height) := by
      intro b hb
      rw [Block.area, (hspan b hb).1, (hspan b hb).2]
    rw [Set.iUnion₂_congr harea, ← h.iUnion_stretch hwidth, Set.iUnion₂_prod_const]
