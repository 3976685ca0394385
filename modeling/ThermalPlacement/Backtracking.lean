/-
# Backtracking patterns

Regular expressions read the way a backtracking matcher reads them.  A place in a text
is a `Cursor`: what stands before it, the nearest first, what follows, and the groups
captured so far.  `Pattern.run` lists the places where a match can end, in the order in
which the matcher tries them; the match is the first of them.

* `exists_of_mem_run` : a match consumes a stretch of the text;
* `run_many_seq` : a repetition need not be backtracked if what follows it cannot begin
  with a character of the repeated class;
* `findAll` is `finditer`: matches from left to right, each one after the end of the one
  before (`findAll_of_match`, `findAll_of_forall_eq_nil`);
* `search_iff` : `search` finds something if the pattern matches somewhere.
-/
import Mathlib

variable {α β : Type*}

/-- A place in a text, with the groups captured on the way to it. -/
structure Cursor (α : Type*) where
  before : List α
  after : List α
  groups : List (ℕ × List α)
  deriving DecidableEq, Repr

namespace Cursor

/-- The text between two places. -/
def between (c d : Cursor α) : List α :=
  (d.before.take (d.before.length - c.before.length)).reverse

theorem between_append (b u v w : List α) (g h : List (ℕ × List α)) :
    between ⟨b, v, g⟩ ⟨u.reverse ++ b, w, h⟩ = u := by
  have hlength : (u.reverse ++ b).length - b.length = u.reverse.length := by
    rw [List.length_append]
    omega
  unfold between
  dsimp only
  rw [hlength, List.take_left, List.reverse_reverse]

/-- `match.group(n)`. -/
def group? (c : Cursor α) (n : ℕ) : Option (List α) := c.groups.lookup n

end Cursor

/-- A pattern.  Character classes and assertions are tests; a greedy repetition repeats a
class. -/
inductive Pattern (α : Type*) where
  | one (p : α → Bool)
  | many (p : α → Bool)
  /-- A test on what stands before (the nearest first) and what follows. -/
  | assert (p : List α → List α → Bool)
  | seq (a b : Pattern α)
  | alt (a b : Pattern α)
  | group (n : ℕ) (a : Pattern α)

namespace Pattern

/-- Where a greedy repetition can end, the longest first. -/
def runMany (p : α → Bool) (before : List α) (groups : List (ℕ × List α)) :
    List α → List (Cursor α)
  | [] => [⟨before, [], groups⟩]
  | a :: after =>
      if p a then runMany p (a :: before) groups after ++ [⟨before, a :: after, groups⟩]
      else [⟨before, a :: after, groups⟩]

/-- Where a match can end, in the order in which the matcher tries the places. -/
def run : Pattern α → Cursor α → List (Cursor α)
  | one p, c =>
      match c.after with
      | [] => []
      | a :: after => if p a then [⟨a :: c.before, after, c.groups⟩] else []
  | many p, c => runMany p c.before c.groups c.after
  | assert p, c => if p c.before c.after then [c] else []
  | seq a b, c => (a.run c).flatMap b.run
  | alt a b, c => a.run c ++ b.run c
  | group n a, c => (a.run c).map (fun d => { d with groups := (n, c.between d) :: d.groups })

/-- Characters that fold to the characters of a word, one after the other. -/
def foldedWord [DecidableEq β] (f : α → β) : List β → Pattern α
  | [] => assert (fun _ _ => true)
  | a :: word => seq (one (fun c => f c = a)) (foldedWord f word)

/-- The characters of a word, one after the other. -/
def lit [DecidableEq α] (word : List α) : Pattern α := foldedWord id word

/-! ## One step of the matcher -/

theorem run_one_cons (p : α → Bool) (b v : List α) (a : α) (g : List (ℕ × List α)) :
    (one p).run ⟨b, a :: v, g⟩ = if p a then [⟨a :: b, v, g⟩] else [] := rfl

theorem run_assert (p : List α → List α → Bool) (c : Cursor α) :
    (assert p).run c = if p c.before c.after then [c] else [] := rfl

theorem run_seq (a b : Pattern α) (c : Cursor α) : (seq a b).run c = (a.run c).flatMap b.run := rfl

theorem run_seq_of_eq_nil {a : Pattern α} {c : Cursor α} (h : a.run c = []) (b : Pattern α) :
    (seq a b).run c = [] := by
  rw [run_seq, h, List.flatMap_nil]

theorem run_seq_of_eq_singleton {a : Pattern α} {c d : Cursor α} (h : a.run c = [d])
    (b : Pattern α) : (seq a b).run c = b.run d := by
  rw [run_seq, h, List.flatMap_singleton]

theorem run_seq_ne_nil_iff (a b : Pattern α) (c : Cursor α) :
    (seq a b).run c ≠ [] ↔ ∃ d ∈ a.run c, b.run d ≠ [] := by
  rw [run_seq, ne_eq, List.flatMap_eq_nil_iff]
  push Not
  rfl

/-- Capturing does not change where a match ends. -/
theorem exists_mem_run_group (n : ℕ) (a : Pattern α) (c : Cursor α) (P : List α → Prop) :
    (∃ d ∈ (group n a).run c, P d.after) ↔ ∃ d ∈ a.run c, P d.after := by
  rw [run]
  simp only [List.mem_map, exists_exists_and_eq_and]

/-- An assertion at the end selects among the ends. -/
theorem run_seq_assert (a : Pattern α) (p : List α → List α → Bool) (c : Cursor α) :
    (seq a (assert p)).run c = (a.run c).filter (fun d => p d.before d.after) := by
  rw [run_seq]
  induction a.run c with
  | nil => rfl
  | cons d ends ih =>
      rw [List.flatMap_cons, ih, run_assert, List.filter_cons]
      split_ifs <;> rfl

/-- A class in front consumes its character. -/
theorem run_one_seq {p : α → Bool} {a : α} (ha : p a = true) (q : Pattern α) (b v : List α)
    (g : List (ℕ × List α)) : (seq (one p) q).run ⟨b, a :: v, g⟩ = q.run ⟨a :: b, v, g⟩ := by
  apply run_seq_of_eq_singleton
  rw [run_one_cons, if_pos ha]

/-- A text that does not begin with a character of the class in front is not matched. -/
theorem run_one_seq_of_head? {p : α → Bool} {v : List α} (hv : ∀ a ∈ v.head?, p a = false)
    (q : Pattern α) (b : List α) (g : List (ℕ × List α)) :
    (seq (one p) q).run ⟨b, v, g⟩ = [] := by
  apply run_seq_of_eq_nil
  cases v with
  | nil => rfl
  | cons a v =>
      rw [run_one_cons, if_neg]
      simp [hv a (by simp)]

/-- A word is matched as a whole or not at all. -/
theorem run_foldedWord [DecidableEq β] (f : α → β) (word : List β) (b v : List α)
    (g : List (ℕ × List α)) :
    (foldedWord f word).run ⟨b, v, g⟩ = if (v.take word.length).map f = word
      then [⟨(v.take word.length).reverse ++ b, v.drop word.length, g⟩] else [] := by
  induction word generalizing b v with
  | nil => simp [foldedWord, run_assert]
  | cons a word ih =>
      cases v with
      | nil => simp [foldedWord, run]
      | cons c v =>
          set p : α → Bool := fun c => f c = a with hp
          rw [foldedWord, List.length_cons, List.take_succ_cons, List.map_cons,
            List.drop_succ_cons]
          by_cases hc : f c = a
          · have hpc : p c = true := decide_eq_true hc
            rw [run_one_seq hpc, ih]
            simp [hc]
          · have hpc : ¬ p c = true := by simpa [hp] using hc
            rw [run_seq, run_one_cons, if_neg hpc, List.flatMap_nil,
              if_neg (fun h => hc (List.cons.inj h).1)]

/-- A word in front is consumed as a whole. -/
theorem run_lit_seq [DecidableEq α] (word : List α) (q : Pattern α) (b v : List α)
    (g : List (ℕ × List α)) :
    (seq (lit word) q).run ⟨b, word ++ v, g⟩ = q.run ⟨word.reverse ++ b, v, g⟩ := by
  apply run_seq_of_eq_singleton
  rw [lit, run_foldedWord, List.take_left, List.drop_left, List.map_id, if_pos rfl]

/-- A text that does not begin with the word in front is not matched. -/
theorem run_lit_of_not_prefix [DecidableEq α] {word : List α} {v : List α}
    (h : ¬ word <+: v) (b : List α) (g : List (ℕ × List α)) : (lit word).run ⟨b, v, g⟩ = [] := by
  rw [lit, run_foldedWord, List.map_id, if_neg]
  exact fun heq => h (heq ▸ List.take_prefix _ _)

/-! ## What a match consumes -/

theorem exists_of_mem_runMany {p : α → Bool} {before after : List α} {groups : List (ℕ × List α)}
    {d : Cursor α} (h : d ∈ runMany p before groups after) :
    ∃ u, (∀ a ∈ u, p a = true) ∧ after = u ++ d.after ∧ d.before = u.reverse ++ before ∧
      d.groups = groups := by
  induction after generalizing before with
  | nil =>
      obtain rfl := List.mem_singleton.mp h
      exact ⟨[], by simp, rfl, rfl, rfl⟩
  | cons a after ih =>
      rw [runMany] at h
      split_ifs at h with ha
      · rcases List.mem_append.mp h with h | h
        · obtain ⟨u, hu, hafter, hbefore, hgroups⟩ := ih h
          refine ⟨a :: u, List.forall_mem_cons.mpr ⟨ha, hu⟩, ?_, ?_, hgroups⟩
          · rw [hafter, List.cons_append]
          · rw [hbefore, List.reverse_cons, List.append_assoc, List.singleton_append]
        · obtain rfl := List.mem_singleton.mp h
          exact ⟨[], by simp, rfl, rfl, rfl⟩
      · obtain rfl := List.mem_singleton.mp h
        exact ⟨[], by simp, rfl, rfl, rfl⟩

/-- **A match consumes a stretch of the text.** -/
theorem exists_of_mem_run {a : Pattern α} {c d : Cursor α} (h : d ∈ a.run c) :
    ∃ u, c.after = u ++ d.after ∧ d.before = u.reverse ++ c.before := by
  induction a generalizing c d with
  | one p =>
      obtain ⟨before, after, groups⟩ := c
      cases after with
      | nil => cases h
      | cons a after =>
          rw [run_one_cons] at h
          split_ifs at h
          · obtain rfl := List.mem_singleton.mp h
            exact ⟨[a], rfl, rfl⟩
          · cases h
  | many p =>
      obtain ⟨u, -, hafter, hbefore, -⟩ := exists_of_mem_runMany h
      exact ⟨u, hafter, hbefore⟩
  | assert p =>
      rw [run_assert] at h
      split_ifs at h
      · obtain rfl := List.mem_singleton.mp h
        exact ⟨[], rfl, rfl⟩
      · cases h
  | seq a b iha ihb =>
      obtain ⟨e, he, hd⟩ := List.mem_flatMap.mp h
      obtain ⟨u, hafter, hbefore⟩ := iha he
      obtain ⟨u', hafter', hbefore'⟩ := ihb hd
      refine ⟨u ++ u', ?_, ?_⟩
      · rw [hafter, hafter', List.append_assoc]
      · rw [hbefore', hbefore, List.reverse_append, List.append_assoc]
  | alt a b iha ihb =>
      rcases List.mem_append.mp h with h | h
      · exact iha h
      · exact ihb h
  | group n a ih =>
      obtain ⟨e, he, rfl⟩ := List.mem_map.mp h
      obtain ⟨u, hafter, hbefore⟩ := ih he
      exact ⟨u, hafter, hbefore⟩

/-! ## Repetitions -/

/-- A repetition in front of something that cannot begin with a character of the class
consumes as much as it can. -/
theorem run_many_seq {p : α → Bool} {q : Pattern α}
    (hq : ∀ b a v g, p a = true → q.run ⟨b, a :: v, g⟩ = []) {u v : List α}
    (hu : ∀ a ∈ u, p a = true) (hv : ∀ a ∈ v.head?, p a = false) (b : List α)
    (g : List (ℕ × List α)) :
    (seq (many p) q).run ⟨b, u ++ v, g⟩ = q.run ⟨u.reverse ++ b, v, g⟩ := by
  induction u generalizing b with
  | nil =>
      show (runMany p b g v).flatMap q.run = _
      cases v with
      | nil => exact List.flatMap_singleton _ _
      | cons a v =>
          rw [runMany, if_neg (by simp [hv a (by simp)])]
          exact List.flatMap_singleton _ _
  | cons a u ih =>
      obtain ⟨ha, hu⟩ := List.forall_mem_cons.mp hu
      have hrest : (runMany p (a :: b) g (u ++ v)).flatMap q.run
          = q.run ⟨u.reverse ++ a :: b, v, g⟩ := ih hu (a :: b)
      show (runMany p b g (a :: (u ++ v))).flatMap q.run = _
      -- stopping before `a` leads nowhere
      rw [runMany, if_pos ha, List.flatMap_append, hrest, List.flatMap_singleton, hq b a _ g ha,
        List.append_nil, List.reverse_cons, List.append_assoc, List.singleton_append]

/-- **Where a repetition can end**: after every front part of the run of the class. -/
theorem runMany_append {p : α → Bool} {u v : List α} (hu : ∀ a ∈ u, p a = true)
    (hv : ∀ a ∈ v.head?, p a = false) (b : List α) (g : List (ℕ × List α)) :
    runMany p b g (u ++ v)
      = u.inits.reverse.map (fun w => ⟨w.reverse ++ b, u.drop w.length ++ v, g⟩) := by
  induction u generalizing b with
  | nil =>
      cases v with
      | nil => rfl
      | cons a v => exact if_neg (by simp [hv a (by simp)])
  | cons a u ih =>
      obtain ⟨ha, hu⟩ := List.forall_mem_cons.mp hu
      rw [List.cons_append, runMany, if_pos ha, ih hu, List.inits_cons, List.reverse_cons,
        List.map_append, ← List.map_reverse, List.map_map]
      congr 1
      refine List.map_congr_left (fun w _ => ?_)
      simp

/-! ## All matches -/

/-- The matches that are reported at one place, given the possible ends: the first one;
if it is empty, then also the first one that is not. -/
def report (n : ℕ) (ends : List (Cursor α)) : List (Cursor α) :=
  match ends with
  | [] => []
  | d :: _ =>
      if d.after.length < n then [d] else d :: (ends.find? (fun e => e.after.length < n)).toList

/-- How many characters the reported matches consume. -/
def consumed (n : ℕ) (reported : List (Cursor α)) : ℕ :=
  match reported.getLast? with
  | none => 0
  | some d => n - d.after.length

/-- `finditer`: the matches in `before ++ after` that start in `after`, `skip` characters of
which belong to the last match. -/
def findAll (a : Pattern α) : ℕ → List α → List α → List (Cursor α)
  | 0, before, [] => report 0 (a.run ⟨before, [], []⟩)
  | _ + 1, _, [] => []
  | skip + 1, before, c :: after => findAll a skip (c :: before) after
  | 0, before, c :: after =>
      let here := report (after.length + 1) (a.run ⟨before, c :: after, []⟩)
      here ++ findAll a (consumed (after.length + 1) here - 1) (c :: before) after

theorem findAll_skip (a : Pattern α) (before u v : List α) :
    findAll a u.length before (u ++ v) = findAll a 0 (u.reverse ++ before) v := by
  induction u generalizing before with
  | nil => rfl
  | cons c u ih =>
      rw [List.length_cons, List.cons_append, findAll, ih, List.reverse_cons, List.append_assoc,
        List.singleton_append]

/-- Where no match starts, the scan goes on. -/
theorem findAll_of_eq_nil {a : Pattern α} {before after : List α} {c : α}
    (h : a.run ⟨before, c :: after, []⟩ = []) :
    findAll a 0 before (c :: after) = findAll a 0 (c :: before) after := by
  rw [findAll, h]
  rfl

/-- A stretch in which no match starts is passed over. -/
theorem findAll_of_forall_eq_nil {a : Pattern α} {before u v : List α}
    (h : ∀ u₁ u₂, u = u₁ ++ u₂ → u₂ ≠ [] → a.run ⟨u₁.reverse ++ before, u₂ ++ v, []⟩ = []) :
    findAll a 0 before (u ++ v) = findAll a 0 (u.reverse ++ before) v := by
  induction u generalizing before with
  | nil => rfl
  | cons c u ih =>
      have hhere : a.run ⟨before, c :: (u ++ v), []⟩ = [] :=
        h [] (c :: u) rfl (List.cons_ne_nil c u)
      rw [List.cons_append, findAll_of_eq_nil hhere, ih, List.reverse_cons, List.append_assoc,
        List.singleton_append]
      intro u₁ u₂ hu hne
      have := h (c :: u₁) u₂ (by rw [hu]; rfl) hne
      rwa [List.reverse_cons, List.append_assoc, List.singleton_append] at this

/-- **After a match the scan goes on at its end.** -/
theorem findAll_of_match {a : Pattern α} {before u v : List α} {g : List (ℕ × List α)}
    (hu : u ≠ [])
    (h : (a.run ⟨before, u ++ v, []⟩).head? = some ⟨u.reverse ++ before, v, g⟩) :
    findAll a 0 before (u ++ v)
      = ⟨u.reverse ++ before, v, g⟩ :: findAll a 0 (u.reverse ++ before) v := by
  cases u with
  | nil => exact absurd rfl hu
  | cons c u =>
      have hlt : v.length < (u ++ v).length + 1 := by
        rw [List.length_append]
        omega
      have hreport : report ((u ++ v).length + 1) (a.run ⟨before, c :: (u ++ v), []⟩)
          = [⟨(c :: u).reverse ++ before, v, g⟩] := by
        rw [List.cons_append] at h
        obtain ⟨rest, hrest⟩ := List.head?_eq_some_iff.mp h
        rw [hrest]
        exact if_pos hlt
      have hconsumed : (u ++ v).length + 1 - v.length - 1 = u.length := by
        rw [List.length_append]
        omega
      rw [List.cons_append, findAll, hreport]
      show _ :: findAll a ((u ++ v).length + 1 - v.length - 1) (c :: before) (u ++ v) = _
      rw [hconsumed, findAll_skip, List.reverse_cons, List.append_assoc, List.singleton_append]

/-- What is reported is a match. -/
theorem mem_of_mem_report {n : ℕ} {ends : List (Cursor α)} {m : Cursor α} (h : m ∈ report n ends) :
    m ∈ ends := by
  unfold report at h
  split at h
  · exact h
  · split_ifs at h
    · rw [List.mem_singleton.mp h]
      exact List.mem_cons_self
    · rcases List.mem_cons.mp h with rfl | h
      · exact List.mem_cons_self
      · exact List.mem_of_find?_eq_some (Option.mem_toList.mp h)

theorem exists_of_mem_findAll {a : Pattern α} {skip : ℕ} {before after : List α} {m : Cursor α}
    (h : m ∈ findAll a skip before after) : ∃ c, m ∈ a.run c := by
  induction after generalizing skip before with
  | nil =>
      cases skip with
      | zero => exact ⟨_, mem_of_mem_report h⟩
      | succ skip => cases h
  | cons c after ih =>
      cases skip with
      | zero =>
          rcases List.mem_append.mp h with h | h
          · exact ⟨_, mem_of_mem_report h⟩
          · exact ih h
      | succ skip => exact ih h

/-! ## Search -/

/-- `search` succeeds. -/
def search (a : Pattern α) (before : List α) : List α → Bool
  | [] => !(a.run ⟨before, [], []⟩).isEmpty
  | c :: after => !(a.run ⟨before, c :: after, []⟩).isEmpty || search a (c :: before) after

/-- **A search succeeds if the pattern matches somewhere.** -/
theorem search_iff (a : Pattern α) (before after : List α) :
    search a before after = true ↔
      ∃ u v, after = u ++ v ∧ a.run ⟨u.reverse ++ before, v, []⟩ ≠ [] := by
  induction after generalizing before with
  | nil =>
      rw [search, Bool.not_eq_true', List.isEmpty_eq_false_iff]
      constructor
      · exact fun h => ⟨[], [], rfl, h⟩
      · rintro ⟨u, v, huv, h⟩
        obtain ⟨rfl, rfl⟩ := List.append_eq_nil_iff.mp huv.symm
        exact h
  | cons c after ih =>
      rw [search, Bool.or_eq_true, ih, Bool.not_eq_true', List.isEmpty_eq_false_iff]
      constructor
      · rintro (h | ⟨u, v, rfl, h⟩)
        · exact ⟨[], c :: after, rfl, h⟩
        · exact ⟨c :: u, v, rfl, by simpa using h⟩
      · rintro ⟨u, v, huv, h⟩
        cases u with
        | nil => exact Or.inl (by rw [List.nil_append] at huv; rw [huv]; exact h)
        | cons e u =>
            obtain ⟨rfl, rfl⟩ := List.cons.inj huv
            exact Or.inr ⟨u, v, rfl, by simpa using h⟩

end Pattern
