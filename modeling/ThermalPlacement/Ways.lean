/-
# Ways through a branching relation

`Way R a w b` holds if the labels `w` lead from `a` to `b` by steps of the labelled relation
`R`.  A node that can be reached in several ways is counted once for each of them.

`Branching R` lists the steps from every node, no label twice, and says that steps do not lead
on forever.  Then `ways` lists all ways in preorder, each of them once (`mem_ways`,
`nodup_ways`).

* `collect_eq`: a function that puts the outputs of a node in front of those of its
  successors collects the outputs along all ways;
* `encard_places`: how often a value occurs among the collected outputs is the number of places
  at which it stands, a place being a way and a label of an output.
-/
import Mathlib

variable {α ι κ β : Type*}

/-- In a list without equal keys, a value has as many keys as it occurs. -/
theorem encard_setOf_mem [BEq β] [LawfulBEq β] {l : List (κ × β)}
    (h : (l.map Prod.fst).Nodup) (x : β) :
    {k | (k, x) ∈ l}.encard = (l.map Prod.snd).count x := by
  induction l with
  | nil => simp
  | cons e l ih =>
      obtain ⟨k, y⟩ := e
      obtain ⟨hk, hl⟩ := List.nodup_cons.mp h
      rw [List.map_cons, List.count_cons]
      by_cases hy : y = x
      · subst hy
        have hset : {k' | (k', y) ∈ (k, y) :: l} = insert k {k' | (k', y) ∈ l} := by
          ext k'
          simp
        have hnot : k ∉ {k' | (k', y) ∈ l} := fun hmem => hk (List.mem_map.mpr ⟨_, hmem, rfl⟩)
        rw [hset, Set.encard_insert_of_notMem hnot, ih hl]
        simp
      · have hset : {k' | (k', x) ∈ (k, y) :: l} = {k' | (k', x) ∈ l} := by
          ext k'
          simp [Ne.symm hy]
        rw [hset, ih hl]
        simp [hy]

/-- Labels that are different for different keys are not repeated. -/
theorem nodup_map_fst_filterMap {γ : Type*} {f : γ → Option (κ × β)} {label : γ → κ}
    (hlabel : Function.Injective label) (hf : ∀ k y, f k = some y → y.1 = label k) {ks : List γ}
    (hks : ks.Nodup) : ((ks.filterMap f).map Prod.fst).Nodup := by
  rw [List.map_filterMap]
  refine hks.filterMap (fun k k' i hi hi' => hlabel ?_)
  obtain ⟨y, hy, rfl⟩ := Option.map_eq_some_iff.mp (Option.mem_def.mp hi)
  obtain ⟨y', hy', heq⟩ := Option.map_eq_some_iff.mp (Option.mem_def.mp hi')
  rw [← hf k y hy, ← hf k' y' hy', heq]

/-- A loop that appends to what it has. -/
theorem foldl_eq_append_flatMap {f : List β → α → List β} {g : α → List β} {l : List α}
    (h : ∀ acc, ∀ a ∈ l, f acc a = acc ++ g a) (acc : List β) :
    l.foldl f acc = acc ++ l.flatMap g := by
  rw [List.foldl_ext f (fun acc a => acc ++ g a) acc h, List.foldl_append_eq_append,
    List.flatMap_def]

theorem flatMap_zipIdx (f : α → List β) (l : List α) :
    l.zipIdx.flatMap (fun x => f x.1) = l.flatMap f := by
  conv_rhs => rw [← List.zipIdx_map_fst 0 l]
  rw [List.flatMap_map]

/-- The labels lead from `a` to `b`. -/
inductive Way (R : α → ι → α → Prop) : α → List ι → α → Prop
  | nil (a : α) : Way R a [] a
  | cons {a b c : α} {i : ι} {w : List ι} (hstep : R a i b) (hway : Way R b w c) :
      Way R a (i :: w) c

namespace Way

variable {R : α → ι → α → Prop}

@[simp] theorem nil_iff {a b : α} : Way R a [] b ↔ a = b := by
  constructor
  · intro h
    cases h
    rfl
  · rintro rfl
    exact nil a

@[simp] theorem cons_iff {a c : α} {i : ι} {w : List ι} :
    Way R a (i :: w) c ↔ ∃ b, R a i b ∧ Way R b w c := by
  constructor
  · intro h
    cases h with
    | cons hstep hway => exact ⟨_, hstep, hway⟩
  · rintro ⟨b, hstep, hway⟩
    exact cons hstep hway

end Way

/-- The steps of a relation that branches finitely and does not go on forever. -/
structure Branching (R : α → ι → α → Prop) where
  /-- The steps from a node, in order. -/
  next : α → List (ι × α)
  mem_next : ∀ {a b i}, (i, b) ∈ next a ↔ R a i b
  nodup_next : ∀ a, ((next a).map Prod.fst).Nodup
  /-- No steps lead on forever. -/
  wf : WellFounded (fun b a => ∃ i, R a i b)

namespace Branching

variable {R : α → ι → α → Prop} (t : Branching R)

/-- All ways from a node with the nodes they lead to, in preorder. -/
def ways (a : α) : List (List ι × α) :=
  ([], a) :: (t.next a).flatMap (fun x => (ways x.2).map (fun y => (x.1 :: y.1, y.2)))
termination_by t.wf.wrap a
decreasing_by exact ⟨_, t.mem_next.mp ‹_›⟩

/-- The induction over what a node leads to. -/
theorem step_induction {P : α → Prop} (h : ∀ a, (∀ i b, (i, b) ∈ t.next a → P b) → P a) (a : α) :
    P a := by
  induction a using t.wf.induction with
  | h a ih => exact h a (fun i b hb => ih b ⟨i, t.mem_next.mp hb⟩)

/-- The list holds the ways and nothing else. -/
theorem mem_ways {a b : α} {w : List ι} : (w, b) ∈ t.ways a ↔ Way R a w b := by
  induction a using t.step_induction generalizing w with
  | h a ih =>
      rw [ways, List.mem_cons, List.mem_flatMap]
      cases w with
      | nil => simp [eq_comm]
      | cons i w =>
          rw [Way.cons_iff]
          constructor
          · rintro (h | ⟨⟨j, c⟩, hc, hmem⟩)
            · cases h
            · obtain ⟨⟨v, d⟩, hway, heq⟩ := List.mem_map.mp hmem
              cases heq
              exact ⟨c, t.mem_next.mp hc, (ih j c hc).mp hway⟩
          · rintro ⟨c, hstep, hway⟩
            have hc := t.mem_next.mpr hstep
            exact Or.inr ⟨(i, c), hc, List.mem_map.mpr ⟨(w, b), (ih i c hc).mpr hway, rfl⟩⟩

/-- No way is listed twice. -/
theorem nodup_ways (a : α) : ((t.ways a).map Prod.fst).Nodup := by
  induction a using t.step_induction with
  | h a ih =>
      rw [ways, List.map_cons, List.nodup_cons, List.map_flatMap]
      constructor
      · simp
      · rw [List.nodup_flatMap]
        constructor
        · intro x hx
          rw [List.map_map]
          have hcons : (Prod.fst ∘ fun y : List ι × α => (x.1 :: y.1, y.2))
              = (fun w => x.1 :: w) ∘ Prod.fst := rfl
          rw [hcons, ← List.map_map]
          exact (ih x.1 x.2 hx).map List.cons_injective
        · -- the ways through different steps begin with different labels
          refine (List.pairwise_map.mp (t.nodup_next a)).imp (fun {x y} hne w hw hw' => hne ?_)
          simp only [List.map_map, List.mem_map, Function.comp_apply] at hw hw'
          obtain ⟨u, -, rfl⟩ := hw
          obtain ⟨v, -, hv⟩ := hw'
          exact (List.cons.inj hv).1.symm

/-- **Preorder.**  What a node puts out comes first, then what its successors collect. -/
theorem collect_eq {collect out : α → List β}
    (h : ∀ a, collect a = out a ++ (t.next a).flatMap (fun x => collect x.2)) (a : α) :
    collect a = (t.ways a).flatMap (fun y => out y.2) := by
  induction a using t.step_induction with
  | h a ih =>
      rw [h, ways, List.flatMap_cons, List.flatMap_assoc]
      congr 1
      apply List.flatMap_congr
      intro x hx
      rw [ih x.1 x.2 hx, List.flatMap_map]

/-- **Places.**  A value stands at as many places as it occurs in the outputs along all ways. -/
theorem encard_places [BEq β] [LawfulBEq β] {out : α → List (κ × β)}
    (hout : ∀ a, ((out a).map Prod.fst).Nodup) (a : α) (x : β) :
    {p : List ι × κ | ∃ b, Way R a p.1 b ∧ (p.2, x) ∈ out b}.encard
      = ((t.ways a).flatMap (fun y => (out y.2).map Prod.snd)).count x := by
  set l := (t.ways a).flatMap (fun y => (out y.2).map (fun o => ((y.1, o.1), o.2))) with hl
  have hnodup : (l.map Prod.fst).Nodup := by
    rw [hl, List.map_flatMap, List.nodup_flatMap]
    constructor
    · intro y _
      rw [List.map_map]
      have hpair : (Prod.fst ∘ fun o : κ × β => ((y.1, o.1), o.2)) = Prod.mk y.1 ∘ Prod.fst := rfl
      rw [hpair, ← List.map_map]
      exact (hout y.2).map (Prod.mk_right_injective y.1)
    · refine (List.pairwise_map.mp (t.nodup_ways a)).imp (fun {y z} hne p hp hp' => hne ?_)
      simp only [List.map_map, List.mem_map, Function.comp_apply] at hp hp'
      obtain ⟨o, -, rfl⟩ := hp
      obtain ⟨o', -, h⟩ := hp'
      exact (Prod.mk.inj h).1.symm
  have hplaces : {p : List ι × κ | ∃ b, Way R a p.1 b ∧ (p.2, x) ∈ out b} = {p | (p, x) ∈ l} := by
    ext ⟨w, k⟩
    simp only [Set.mem_ofPred_eq, hl, List.mem_flatMap, List.mem_map, Prod.mk.injEq, Prod.exists]
    constructor
    · rintro ⟨b, hway, hmem⟩
      exact ⟨w, b, t.mem_ways.mpr hway, k, x, hmem, ⟨rfl, rfl⟩, rfl⟩
    · rintro ⟨_, b, hway, _, _, hmem, ⟨rfl, rfl⟩, rfl⟩
      exact ⟨b, t.mem_ways.mp hway, hmem⟩
  have hvalues : (t.ways a).flatMap (fun y => (out y.2).map Prod.snd) = l.map Prod.snd := by
    rw [hl, List.map_flatMap]
    simp only [List.map_map]
    rfl
  rw [hplaces, hvalues, encard_setOf_mem hnodup]

end Branching
