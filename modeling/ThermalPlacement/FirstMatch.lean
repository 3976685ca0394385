/-
# First matches

`l.find? p` is the first element of a list that passes a test.  Here are two tests on
one list: when the second passes wherever the first has its first match, and otherwise
passes only where the first does or where something extra (`E`) holds, the two first
matches agree exactly if each extra comes after a match of the first test
(`find?_eq_find?_iff`).

A test that passes more often has its first match no later (`find?_mono`); one that passes
more often at a single element finds the same or that element (`find?_eq_or_eq_some`).

In a dictionary the first entry whose value passes is found by its key
(`firstKey_eq_find?`).
-/
import ThermalPlacement.OrderedDict

variable {α κ : Type*}

/-! ## Two tests on one list -/

section

variable {K M E : α → Prop} [DecidablePred K] [DecidablePred M]

/-- **When two tests have the same first match.** -/
theorem find?_eq_find?_iff {l : List α} (hfirst : ∀ a, l.find? (fun a => K a) = some a → M a)
    (hM : ∀ a ∈ l, M a → K a ∨ E a) (hE : ∀ a ∈ l, E a → M a) :
    l.find? (fun a => M a) = l.find? (fun a => K a) ↔
      ∀ (i : ℕ) (h : i < l.length), E l[i] → ∃ a ∈ l.take (i + 1), K a := by
  induction l with
  | nil => simp
  | cons a l ih =>
      by_cases hK : K a
      · -- both tests stop here
        have hfind : (a :: l).find? (fun a => K a) = some a :=
          List.find?_cons_of_pos (by simpa using hK)
        have hfind' : (a :: l).find? (fun a => M a) = some a :=
          List.find?_cons_of_pos (by simpa using hfirst a hfind)
        refine iff_of_true (hfind'.trans hfind.symm) (fun i _ _ => ⟨a, ?_, hK⟩)
        rw [List.take_succ_cons]
        exact List.mem_cons_self
      · have hfind : (a :: l).find? (fun a => K a) = l.find? (fun a => K a) :=
          List.find?_cons_of_neg (by simpa using hK)
        by_cases hEa : E a
        · -- only the second test stops here
          have hfind' : (a :: l).find? (fun a => M a) = some a :=
            List.find?_cons_of_pos (by simpa using hE a List.mem_cons_self hEa)
          refine iff_of_false (fun heq => ?_) (fun hall => ?_)
          · have := List.find?_some (heq.symm.trans hfind')
            exact hK (by simpa using this)
          · obtain ⟨b, hb, hKb⟩ := hall 0 (Nat.zero_lt_succ _) hEa
            rw [List.take_succ_cons, List.take_zero, List.mem_singleton] at hb
            exact hK (hb ▸ hKb)
        · -- neither does
          have hMa : ¬ M a := fun h => (hM a List.mem_cons_self h).elim hK hEa
          have hfind' : (a :: l).find? (fun a => M a) = l.find? (fun a => M a) :=
            List.find?_cons_of_neg (by simpa using hMa)
          rw [hfind, hfind', ih (fun b hb => hfirst b (hfind.trans hb))
            (fun b hb => hM b (List.mem_cons_of_mem _ hb))
            (fun b hb => hE b (List.mem_cons_of_mem _ hb))]
          constructor
          · intro hall i hi hEi
            cases i with
            | zero => exact absurd hEi hEa
            | succ i =>
                obtain ⟨b, hb, hKb⟩ := hall i (Nat.lt_of_succ_lt_succ hi) hEi
                exact ⟨b, List.mem_cons_of_mem _ hb, hKb⟩
          · intro hall i hi hEi
            obtain ⟨b, hb, hKb⟩ := hall (i + 1) (Nat.succ_lt_succ hi) hEi
            rcases List.mem_cons.mp hb with rfl | hb
            · exact absurd hKb hK
            · exact ⟨b, hb, hKb⟩

/-- **A weaker test** finds the same element or one that stands before it. -/
theorem find?_mono {l : List α} (h : ∀ a ∈ l, K a → M a) {a : α}
    (ha : l.find? (fun a => K a) = some a) :
    ∃ b, l.find? (fun a => M a) = some b ∧ (b = a ∨ [b, a].Sublist l) := by
  induction l with
  | nil => cases ha
  | cons c l ih =>
      by_cases hM : M c
      · have hfind : (c :: l).find? (fun a => M a) = some c :=
          List.find?_cons_of_pos (by simpa using hM)
        refine ⟨c, hfind, ?_⟩
        rcases List.mem_cons.mp (List.mem_of_find?_eq_some ha) with rfl | hmem
        · exact Or.inl rfl
        · exact Or.inr ((List.singleton_sublist.mpr hmem).cons_cons c)
      · have hK : ¬ K c := fun hK => hM (h c List.mem_cons_self hK)
        rw [List.find?_cons_of_neg (by simpa using hK)] at ha
        obtain ⟨b, hb, hbefore⟩ := ih (fun b hb => h b (List.mem_cons_of_mem _ hb)) ha
        refine ⟨b, ?_, hbefore.imp_right (fun hsub => hsub.cons c)⟩
        rw [List.find?_cons_of_neg (by simpa using hM), hb]

/-- **A test that is weaker at one element** finds the same, or that element. -/
theorem find?_eq_or_eq_some [DecidableEq α] {l : List α} {k : α}
    (hother : ∀ a ∈ l, a ≠ k → (K a ↔ M a)) (hk : K k → M k) :
    l.find? (fun a => M a) = l.find? (fun a => K a) ∨ l.find? (fun a => M a) = some k := by
  induction l with
  | nil => exact Or.inl rfl
  | cons c l ih =>
      have ih := ih (fun a ha => hother a (List.mem_cons_of_mem _ ha))
      by_cases hM : M c
      · have hfind : (c :: l).find? (fun a => M a) = some c :=
          List.find?_cons_of_pos (by simpa using hM)
        rw [hfind]
        by_cases hck : c = k
        · exact Or.inr (congrArg some hck)
        · have hK : K c := (hother c List.mem_cons_self hck).mpr hM
          exact Or.inl (List.find?_cons_of_pos (by simpa using hK)).symm
      · have hK : ¬ K c := by
          by_cases hck : c = k
          · subst hck
            exact fun hK => hM (hk hK)
          · exact fun hK => hM ((hother c List.mem_cons_self hck).mp hK)
        rw [List.find?_cons_of_neg (by simpa using hM),
          List.find?_cons_of_neg (by simpa using hK)]
        exact ih

end

/-! ## The first key of a dictionary -/

namespace OrderedDict

variable [DecidableEq κ]

/-- The first key whose value passes a test. -/
def firstKey (d : OrderedDict κ α) (p : α → Prop) [DecidablePred p] : Option κ :=
  (d.entries.find? (fun e => p e.2)).map Prod.fst

theorem firstKey_eq_find? (d : OrderedDict κ α) (p : α → Prop) [DecidablePred p] (v : α) :
    d.firstKey p = d.keys.find? (fun k => p ((d.get? k).getD v)) := by
  unfold firstKey keys
  rw [List.find?_map]
  congr 1
  refine List.find?_congr (fun e he => ?_)
  have hget : d.get? e.1 = some e.2 := (d.get?_eq_some_iff e.1 e.2).mpr he
  rw [Function.comp_apply, hget, Option.getD_some]

end OrderedDict
