/-
# Scripts that run programs

A script runs programs one after the other and stops at the first one that fails.  Each program
declares the locations of the store that it reads and those that it writes, with the proof that
nothing else matters to it and that nothing else changes.

* `run_agree`: a script that only reads what is given or what it has written before does the same
  from stores that agree on what is given; what other runs have left does not matter.
* `upToDate`: after a script has completed, running one of its programs once more changes
  nothing, unless a later program writes what it reads or writes.
* `run_induction`: invariants.
-/
import Mathlib

namespace Script

variable {Loc : Type*} {Val : Loc → Type*}

/-- A value for every location. -/
abbrev Store (Val : Loc → Type*) := (l : Loc) → Val l

/-- Two stores have the same values at some locations. -/
def Agree (L : Set Loc) (s s' : Store Val) : Prop := ∀ l ∈ L, s l = s' l

/-- A program leaves a store and an exit status; zero is success.  Where it fails, what it has
written may depend on anything. -/
structure Program (Val : Loc → Type*) where
  run : Store Val → Store Val × ℕ
  reads : Set Loc
  writes : Set Loc
  frame : ∀ s, ∀ l ∉ writes, (run s).1 l = s l
  status_eq : ∀ {s s'}, Agree reads s s' → (run s).2 = (run s').2
  agree : ∀ {s s'}, Agree reads s s' → (run s).2 = 0 → Agree writes (run s).1 (run s').1

/-- A script under `set -e`. -/
def run : List (Program Val) → Store Val → Store Val × ℕ
  | [], s => (s, 0)
  | p :: ps, s => if (p.run s).2 = 0 then run ps (p.run s).1 else p.run s

/-- What the programs of a script write. -/
def writes (ps : List (Program Val)) : Set Loc := {l | ∃ p ∈ ps, l ∈ p.writes}

@[simp] theorem writes_nil : writes ([] : List (Program Val)) = ∅ := by
  ext l
  simp [writes]

@[simp] theorem writes_cons (p : Program Val) (ps : List (Program Val)) :
    writes (p :: ps) = p.writes ∪ writes ps := by
  ext l
  simp [writes]

@[simp] theorem writes_append (ps qs : List (Program Val)) :
    writes (ps ++ qs) = writes ps ∪ writes qs := by
  ext l
  simp [writes, or_and_right, exists_or]

/-! ## Agreement -/

section

variable {L M : Set Loc} {s s' : Store Val}

theorem Agree.mono (h : Agree L s s') (hM : M ⊆ L) : Agree M s s' := fun l hl => h l (hM hl)

/-- A program that only reads where two stores agree keeps the agreement and extends it to what it
writes. -/
theorem Program.agree_union (p : Program Val) (h : Agree L s s') (hreads : p.reads ⊆ L)
    (hstatus : (p.run s).2 = 0) : Agree (L ∪ p.writes) (p.run s).1 (p.run s').1 := by
  have hwritten := p.agree (h.mono hreads) hstatus
  intro l hl
  by_cases hw : l ∈ p.writes
  · exact hwritten l hw
  · rw [p.frame s l hw, p.frame s' l hw]
    exact h l (hl.resolve_right hw)

end

/-! ## Runs -/

variable {ps qs : List (Program Val)} {p : Program Val} {s s' : Store Val}

theorem run_cons_of_eq_zero (h : (p.run s).2 = 0) : run (p :: ps) s = run ps (p.run s).1 :=
  if_pos h

theorem run_cons_of_ne_zero (h : (p.run s).2 ≠ 0) : run (p :: ps) s = p.run s := if_neg h

@[simp] theorem run_singleton (p : Program Val) (s : Store Val) : run [p] s = p.run s := by
  by_cases h : (p.run s).2 = 0
  · rw [run_cons_of_eq_zero h]
    exact Prod.ext rfl h.symm
  · exact run_cons_of_ne_zero h

/-- A script that has completed has run all its programs. -/
theorem eq_zero_of_run_cons (h : (run (p :: ps) s).2 = 0) :
    (p.run s).2 = 0 ∧ run (p :: ps) s = run ps (p.run s).1 := by
  by_cases hp : (p.run s).2 = 0
  · exact ⟨hp, run_cons_of_eq_zero hp⟩
  · rw [run_cons_of_ne_zero hp] at h
    exact absurd h hp

theorem exists_of_run_snd (h : (run ps s).2 = 0) : ∃ s', run ps s = (s', 0) :=
  ⟨(run ps s).1, Prod.ext rfl h⟩

/-- A script in two parts. -/
theorem run_append (ps qs : List (Program Val)) (s : Store Val) :
    run (ps ++ qs) s = if (run ps s).2 = 0 then run qs (run ps s).1 else run ps s := by
  induction ps generalizing s with
  | nil => rfl
  | cons p ps ih =>
      by_cases hp : (p.run s).2 = 0
      · rw [List.cons_append, run_cons_of_eq_zero hp, run_cons_of_eq_zero hp, ih]
      · rw [List.cons_append, run_cons_of_ne_zero hp, run_cons_of_ne_zero hp, if_neg hp]

theorem eq_of_run_append (h : (run (ps ++ qs) s).2 = 0) :
    (run ps s).2 = 0 ∧ run (ps ++ qs) s = run qs (run ps s).1 := by
  rw [run_append] at h ⊢
  by_cases hps : (run ps s).2 = 0
  · exact ⟨hps, if_pos hps⟩
  · rw [if_neg hps] at h
    exact absurd h hps

/-- The stores around one program of a script that has completed. -/
theorem exists_of_run_append_cons (h : (run (ps ++ p :: qs) s).2 = 0) :
    (run ps s).2 = 0 ∧ (p.run (run ps s).1).2 = 0 ∧ (run qs (p.run (run ps s).1).1).2 = 0 ∧
      run (ps ++ p :: qs) s = run qs (p.run (run ps s).1).1 := by
  obtain ⟨hps, hrun⟩ := eq_of_run_append h
  rw [hrun] at h ⊢
  obtain ⟨hp, hrest⟩ := eq_zero_of_run_cons h
  rw [hrest] at h
  exact ⟨hps, hp, h, hrest⟩

/-- **The frame of a script.** -/
theorem run_frame {l : Loc} (hl : l ∉ writes ps) : (run ps s).1 l = s l := by
  induction ps generalizing s with
  | nil => rfl
  | cons p ps ih =>
      rw [writes_cons] at hl
      have hp : l ∉ p.writes := fun h => hl (Or.inl h)
      have hps : l ∉ writes ps := fun h => hl (Or.inr h)
      by_cases hstatus : (p.run s).2 = 0
      · rw [run_cons_of_eq_zero hstatus, ih hps, p.frame s l hp]
      · rw [run_cons_of_ne_zero hstatus, p.frame s l hp]

/-- Where a script fails either its last program has failed, or that program has not been
reached. -/
theorem run_concat_cases {l : Loc} (hl : l ∉ writes ps) (h : (run (ps ++ [p]) s).2 ≠ 0) :
    (run (ps ++ [p]) s).1 l = s l ∨
      ∃ t, t l = s l ∧ (p.run t).2 ≠ 0 ∧ (run (ps ++ [p]) s).1 = (p.run t).1 := by
  rw [run_append, run_singleton] at h ⊢
  split_ifs at h ⊢ with hps
  · exact Or.inr ⟨_, run_frame hl, h, rfl⟩
  · exact Or.inl (run_frame hl)

/-- What the last program writes when it succeeds stays as it is if the script fails. -/
theorem run_concat_frame {l : Loc} (hl : l ∉ writes ps) (h : (run (ps ++ [p]) s).2 ≠ 0)
    (hp : ∀ s, (p.run s).2 ≠ 0 → (p.run s).1 l = s l) : (run (ps ++ [p]) s).1 l = s l := by
  rcases run_concat_cases hl h with hsame | ⟨t, ht, hlast, hrun⟩
  · exact hsame
  · rw [hrun, hp t hlast, ht]

/-- Programs that do the same while something holds. -/
theorem run_map_congr {P : Store Val → Prop} {ι : Type*} {f g : ι → Program Val} {is : List ι}
    (hstep : ∀ i ∈ is, ∀ s, P s → P ((f i).run s).1)
    (hfg : ∀ i ∈ is, ∀ s, P s → (f i).run s = (g i).run s) (hs : P s) :
    run (is.map f) s = run (is.map g) s := by
  induction is generalizing s with
  | nil => rfl
  | cons i is ih =>
      have hi := hfg i List.mem_cons_self s hs
      rw [List.map_cons, List.map_cons, run, run, ← hi]
      split_ifs with hstatus
      · exact ih (fun j hj => hstep j (List.mem_cons_of_mem _ hj))
          (fun j hj => hfg j (List.mem_cons_of_mem _ hj)) (hstep i List.mem_cons_self s hs)
      · rfl

/-! ## Leftovers of other runs -/

/-- Every program reads only what is given or what programs before it have written. -/
def Closed : Set Loc → List (Program Val) → Prop
  | _, [] => True
  | L, p :: ps => p.reads ⊆ L ∧ Closed (L ∪ p.writes) ps

theorem closed_of_forall {L : Set Loc} (h : ∀ p ∈ ps, p.reads ⊆ L) : Closed L ps := by
  induction ps generalizing L with
  | nil => trivial
  | cons p ps ih =>
      exact ⟨h p List.mem_cons_self, ih fun q hq =>
        (h q (List.mem_cons_of_mem _ hq)).trans Set.subset_union_left⟩

theorem closed_append {L : Set Loc} (h : Closed L ps) (h' : Closed (L ∪ writes ps) qs) :
    Closed L (ps ++ qs) := by
  induction ps generalizing L with
  | nil =>
      rw [writes_nil, Set.union_empty] at h'
      exact h'
  | cons p ps ih =>
      rw [writes_cons, ← Set.union_assoc] at h'
      exact ⟨h.1, ih h.2 h'⟩

/-- **Leftovers do not matter.**  From stores that agree on what is given, a closed script ends
with the same status; if it completes, the stores agree on what it has written as well. -/
theorem run_agree {L : Set Loc} (hclosed : Closed L ps) (h : Agree L s s') :
    (run ps s).2 = (run ps s').2 ∧
      ((run ps s).2 = 0 → Agree (L ∪ writes ps) (run ps s).1 (run ps s').1) := by
  induction ps generalizing L s s' with
  | nil =>
      refine ⟨rfl, fun _ => ?_⟩
      rw [writes_nil, Set.union_empty]
      exact h
  | cons p ps ih =>
      have hstatus := p.status_eq (h.mono hclosed.1)
      by_cases hp : (p.run s).2 = 0
      · have hp' : (p.run s').2 = 0 := hstatus ▸ hp
        obtain ⟨heq, hagree⟩ := ih hclosed.2 (p.agree_union h hclosed.1 hp)
        rw [run_cons_of_eq_zero hp, run_cons_of_eq_zero hp', writes_cons, ← Set.union_assoc]
        exact ⟨heq, hagree⟩
      · have hp' : (p.run s').2 ≠ 0 := hstatus ▸ hp
        rw [run_cons_of_ne_zero hp, run_cons_of_ne_zero hp']
        exact ⟨hstatus, fun h0 => absurd h0 hp⟩

/-- **Up to date.**  After a script has completed, one of its programs would succeed again and
change nothing, if it does not write what it reads and no later program writes what it reads or
writes. -/
theorem upToDate (h : run (ps ++ p :: qs) s = (s', 0)) (hreads : Disjoint p.reads p.writes)
    (hlater : ∀ l ∈ p.reads ∪ p.writes, l ∉ writes qs) : p.run s' = (s', 0) := by
  obtain ⟨-, hp, -, hrun⟩ := exists_of_run_append_cons (congrArg Prod.snd h)
  rw [h] at hrun
  set before := (run ps s).1 with hbefore
  have hkept : ∀ l ∈ p.reads ∪ p.writes, s' l = (p.run before).1 l := by
    intro l hl
    have hframe := run_frame (s := (p.run before).1) (hlater l hl)
    rwa [← hrun] at hframe
  have hsame : Agree p.reads before s' := by
    intro l hl
    rw [hkept l (Or.inl hl), p.frame before l (Set.disjoint_left.mp hreads hl)]
  refine Prod.ext (funext fun l => ?_) ((p.status_eq hsame).symm.trans hp)
  by_cases hl : l ∈ p.writes
  · exact (p.agree hsame hp l hl).symm.trans (hkept l (Or.inr hl)).symm
  · exact p.frame s' l hl

/-! ## Programs -/

section

variable [DecidableEq Loc]

/-- Write values to locations, one after the other. -/
def updates (ws : List (Σ l, Val l)) (s : Store Val) : Store Val :=
  ws.foldl (fun s w => Function.update s w.1 w.2) s

theorem updates_of_notMem {ws : List (Σ l, Val l)} {l : Loc} (h : ∀ w ∈ ws, w.1 ≠ l)
    (s : Store Val) : updates ws s l = s l := by
  induction ws generalizing s with
  | nil => rfl
  | cons w ws ih =>
      have hw := h w List.mem_cons_self
      show updates ws (Function.update s w.1 w.2) l = s l
      rw [ih (fun v hv => h v (List.mem_cons_of_mem _ hv)), Function.update_of_ne hw.symm]

/-- A location that is written does not depend on what has been there. -/
theorem updates_congr {ws : List (Σ l, Val l)} {l : Loc} (h : ∃ w ∈ ws, w.1 = l)
    (s s' : Store Val) : updates ws s l = updates ws s' l := by
  induction ws generalizing s s' with
  | nil =>
      obtain ⟨w, hw, -⟩ := h
      cases hw
  | cons w ws ih =>
      show updates ws (Function.update s w.1 w.2) l = updates ws (Function.update s' w.1 w.2) l
      by_cases hlater : ∃ v ∈ ws, v.1 = l
      · exact ih hlater _ _
      · have hl : w.1 = l := by
          obtain ⟨v, hv, hvl⟩ := h
          obtain rfl | hv := List.mem_cons.mp hv
          · exact hvl
          · exact absurd ⟨v, hv, hvl⟩ hlater
        subst hl
        push Not at hlater
        rw [updates_of_notMem hlater, updates_of_notMem hlater, Function.update_self,
          Function.update_self]

/-- A program that computes from what it reads what it writes. -/
def compute (reads writes : Set Loc) (f : Store Val → List (Σ l, Val l) × ℕ)
    (hf : ∀ s s', Agree reads s s' → f s = f s')
    (hwrites : ∀ s, ∀ w ∈ (f s).1, w.1 ∈ writes)
    (hall : ∀ s, (f s).2 = 0 → ∀ l ∈ writes, ∃ w ∈ (f s).1, w.1 = l) : Program Val where
  run s := (updates (f s).1 s, (f s).2)
  reads := reads
  writes := writes
  frame s l hl := by
    refine updates_of_notMem (fun w hw h => hl ?_) s
    rw [← h]
    exact hwrites s w hw
  status_eq h := by rw [hf _ _ h]
  agree {s s'} h hstatus l hl := by
    dsimp only
    rw [← hf s s' h]
    exact updates_congr (hall s hstatus l hl) s s'

section

variable {reads writes : Set Loc} {f : Store Val → List (Σ l, Val l) × ℕ}
  {hf : ∀ s s', Agree reads s s' → f s = f s'} {hwrites : ∀ s, ∀ w ∈ (f s).1, w.1 ∈ writes}
  {hall : ∀ s, (f s).2 = 0 → ∀ l ∈ writes, ∃ w ∈ (f s).1, w.1 = l}

@[simp] theorem compute_reads : (compute reads writes f hf hwrites hall).reads = reads := rfl

@[simp] theorem compute_writes : (compute reads writes f hf hwrites hall).writes = writes := rfl

end

theorem updates_of_mem {ws : List (Σ l, Val l)} (hnodup : (ws.map Sigma.fst).Nodup)
    {w : Σ l, Val l} (hw : w ∈ ws) (s : Store Val) : updates ws s w.1 = w.2 := by
  induction ws generalizing s with
  | nil => cases hw
  | cons v ws ih =>
      rw [List.map_cons, List.nodup_cons] at hnodup
      show updates ws (Function.update s v.1 v.2) w.1 = w.2
      obtain rfl | hw := List.mem_cons.mp hw
      · have hlater : ∀ v ∈ ws, v.1 ≠ w.1 := by
          intro v hv h
          rw [← h] at hnodup
          exact hnodup.1 (List.mem_map_of_mem hv)
        rw [updates_of_notMem hlater, Function.update_self]
      · exact ih hnodup.2 hw _

/-- A computation that succeeds leaves its results in the store. -/
theorem compute_run {reads writes : Set Loc} {f : Store Val → List (Σ l, Val l) × ℕ}
    {hf : ∀ s s', Agree reads s s' → f s = f s'} {hwrites : ∀ s, ∀ w ∈ (f s).1, w.1 ∈ writes}
    {hall : ∀ s, (f s).2 = 0 → ∀ l ∈ writes, ∃ w ∈ (f s).1, w.1 = l} {s : Store Val}
    {ws : List (Σ l, Val l)} (h : f s = (ws, 0)) (hnodup : (ws.map Sigma.fst).Nodup) :
    ((compute reads writes f hf hwrites hall).run s).2 = 0 ∧
      ∀ w ∈ ws, ((compute reads writes f hf hwrites hall).run s).1 w.1 = w.2 := by
  have hrun : (compute reads writes f hf hwrites hall).run s = (updates ws s, 0) := by
    show (updates (f s).1 s, (f s).2) = _
    rw [h]
  rw [hrun]
  exact ⟨rfl, fun w hw => updates_of_mem hnodup hw s⟩

/-- A computation that changes nothing has its results in the store. -/
theorem eq_of_compute_run {reads writes : Set Loc} {f : Store Val → List (Σ l, Val l) × ℕ}
    {hf : ∀ s s', Agree reads s s' → f s = f s'} {hwrites : ∀ s, ∀ w ∈ (f s).1, w.1 ∈ writes}
    {hall : ∀ s, (f s).2 = 0 → ∀ l ∈ writes, ∃ w ∈ (f s).1, w.1 = l} {s : Store Val}
    (h : (compute reads writes f hf hwrites hall).run s = (s, 0))
    (hnodup : ((f s).1.map Sigma.fst).Nodup) :
    (f s).2 = 0 ∧ ∀ w ∈ (f s).1, s w.1 = w.2 := by
  refine ⟨congrArg Prod.snd h, fun w hw => ?_⟩
  have hstore : updates (f s).1 s = s := congrArg Prod.fst h
  calc s w.1 = updates (f s).1 s w.1 := by rw [hstore]
    _ = w.2 := updates_of_mem hnodup hw s

/-- Write a constant. -/
def set (l : Loc) (v : Val l) : Program Val :=
  compute ∅ {l} (fun _ => ([⟨l, v⟩], 0)) (fun _ _ _ => rfl)
    (fun _ w hw => by rw [List.mem_singleton.mp hw]; rfl)
    (fun _ _ l' hl' => ⟨⟨l, v⟩, List.mem_cons_self, hl'.symm⟩)

@[simp] theorem set_reads (l : Loc) (v : Val l) : (set l v).reads = ∅ := rfl

@[simp] theorem set_writes (l : Loc) (v : Val l) : (set l v).writes = {l} := rfl

/-- Run a program that may fail, and keep its status.  What such a program writes must depend only
on what it reads. -/
def capture (p : Program Val)
    (hp : ∀ {s s'}, Agree p.reads s s' → Agree p.writes (p.run s).1 (p.run s').1) (l : Loc)
    (f : ℕ → Val l) : Program Val where
  run s := (Function.update (p.run s).1 l (f (p.run s).2), 0)
  reads := p.reads
  writes := insert l p.writes
  frame s l' hl' := by
    dsimp only
    rw [Function.update_of_ne (fun h => hl' (Or.inl h))]
    exact p.frame s l' (fun h => hl' (Or.inr h))
  status_eq _ := rfl
  agree {s s'} h _ := by
    intro l' hl'
    dsimp only
    by_cases heq : l' = l
    · subst heq
      rw [Function.update_self, Function.update_self, p.status_eq h]
    · rw [Function.update_of_ne heq, Function.update_of_ne heq]
      exact hp h l' (hl'.resolve_left heq)

section

variable (p : Program Val)
  (hp : ∀ {s s'}, Agree p.reads s s' → Agree p.writes (p.run s).1 (p.run s').1) (l : Loc)
  (f : ℕ → Val l) (s : Store Val)

theorem capture_run_self : ((capture p hp l f).run s).1 l = f (p.run s).2 :=
  Function.update_self _ _ _

theorem capture_run_of_ne {l' : Loc} (h : l' ≠ l) :
    ((capture p hp l f).run s).1 l' = (p.run s).1 l' := Function.update_of_ne h _ _

end

end

/-- Fail unless a test succeeds. -/
def require (reads : Set Loc) (test : Store Val → Bool)
    (htest : ∀ s s', Agree reads s s' → test s = test s') : Program Val where
  run s := (s, if test s then 0 else 1)
  reads := reads
  writes := ∅
  frame _ _ _ := rfl
  status_eq h := by rw [htest _ _ h]
  agree _ _ _ hl := absurd hl (Set.notMem_empty _)

/-- Run a program unless a test succeeds. -/
def runUnless (reads : Set Loc) (test : Store Val → Bool)
    (htest : ∀ s s', Agree reads s s' → test s = test s') (p : Program Val) : Program Val where
  run s := if test s then (s, 0) else p.run s
  reads := reads ∪ p.reads ∪ p.writes
  writes := p.writes
  frame s l hl := by
    split_ifs
    · rfl
    · exact p.frame s l hl
  status_eq h := by
    rw [htest _ _ (h.mono (fun _ hl => Or.inl (Or.inl hl)))]
    split_ifs
    · rfl
    · exact p.status_eq (h.mono (fun _ hl => Or.inl (Or.inr hl)))
  agree {s s'} h hstatus := by
    have htests := htest _ _ (h.mono (fun _ hl => Or.inl (Or.inl hl)))
    rw [← htests]
    split_ifs at hstatus ⊢ with htrue
    · exact h.mono (fun _ hl => Or.inr hl)
    · exact p.agree (h.mono (fun _ hl => Or.inl (Or.inr hl))) hstatus

theorem runUnless_run_snd {reads : Set Loc} {test : Store Val → Bool}
    {htest : ∀ s s', Agree reads s s' → test s = test s'} {p : Program Val}
    (hp : ∀ s, (p.run s).2 = 0) (s : Store Val) : ((runUnless reads test htest p).run s).2 = 0 := by
  show (if test s then (s, 0) else p.run s).2 = 0
  split_ifs
  · rfl
  · exact hp s

/-- Run a program if it can be started. -/
def startIf (ok : Bool) (p : Program Val) : Program Val where
  run s := if ok then p.run s else (s, 1)
  reads := p.reads
  writes := p.writes
  frame s l hl := by
    split_ifs
    · exact p.frame s l hl
    · rfl
  status_eq h := by
    split_ifs
    · exact p.status_eq h
    · rfl
  agree h hstatus := by
    split_ifs at hstatus ⊢
    exact p.agree h hstatus

section

variable {ok : Bool} {p : Program Val} {s : Store Val}

@[simp] theorem startIf_reads : (startIf ok p).reads = p.reads := rfl

@[simp] theorem startIf_writes : (startIf ok p).writes = p.writes := rfl

theorem startIf_run (h : ok = true) (s : Store Val) : (startIf ok p).run s = p.run s := if_pos h

/-- A program that has succeeded has been started. -/
theorem run_of_startIf_run (h : ((startIf ok p).run s).2 = 0) :
    (startIf ok p).run s = p.run s := by
  refine startIf_run ?_ s
  by_contra hok
  rw [show (startIf ok p).run s = (s, 1) from if_neg hok] at h
  cases h

/-- A program that cannot fail has not been started where it has failed. -/
theorem startIf_run_of_ne_zero (hp : (p.run s).2 = 0) (h : ((startIf ok p).run s).2 ≠ 0) :
    ((startIf ok p).run s).1 = s := by
  cases hok : ok with
  | true =>
      rw [startIf_run hok] at h
      exact absurd hp h
  | false => rfl

end

end Script
