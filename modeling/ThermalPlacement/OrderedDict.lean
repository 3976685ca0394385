/-
# Insertion-ordered dictionaries

A dictionary in the sense of Python's `dict`: a finite map that remembers the
order in which its keys were first inserted.  Distinctness of the keys is a field
of the structure, so no operation can break it.

* `get?`, `setdefault`, `modify`, `insert`, `upsert` and `ofList` are the dictionary
  operations;
* `mapVals` changes every value in place and is what a run of `modify` calls
  amounts to;
* `setdefaults` is a run of `setdefault` calls: the first value offered for a key
  stays (`get?_setdefaults`), keys stand in order of first offer
  (`keys_setdefaults`);
* a run of `upsert` calls groups a list by a key (`get?_foldl_upsert`), and sums over
  the groups add up to sums over the list (`sum_map_sum_filter`).
-/
import Mathlib

/-- A dictionary with its entries in order of first insertion. -/
structure OrderedDict (κ α : Type*) where
  entries : List (κ × α)
  /-- No key occurs twice. -/
  nodup : (entries.map Prod.fst).Nodup

namespace OrderedDict

variable {κ α β γ : Type*}

@[ext] theorem ext {d d' : OrderedDict κ α} (h : d.entries = d'.entries) : d = d' := by
  cases d
  cases d'
  cases h
  rfl

/-- The empty dictionary. -/
def empty : OrderedDict κ α := ⟨[], List.nodup_nil⟩

/-- The keys, in order of insertion. -/
def keys (d : OrderedDict κ α) : List κ := d.entries.map Prod.fst

/-- The values, in the order of their keys. -/
def values (d : OrderedDict κ α) : List α := d.entries.map Prod.snd

theorem nodup_keys (d : OrderedDict κ α) : d.keys.Nodup := d.nodup

/-- Dictionaries with the same keys hold them in some order. -/
theorem keys_perm {d : OrderedDict κ α} {d' : OrderedDict κ β} (h : ∀ k, k ∈ d.keys ↔ k ∈ d'.keys) :
    d.keys.Perm d'.keys :=
  (List.perm_ext_iff_of_nodup d.nodup d'.nodup).mpr h

@[simp] theorem entries_empty : (empty : OrderedDict κ α).entries = [] := rfl
@[simp] theorem keys_empty : (empty : OrderedDict κ α).keys = [] := rfl

/-- Change every value in place. -/
def mapVals (d : OrderedDict κ α) (f : κ → α → β) : OrderedDict κ β where
  entries := d.entries.map (fun e => (e.1, f e.1 e.2))
  nodup := by simpa [List.map_map, Function.comp_def] using d.nodup

@[simp] theorem entries_mapVals (d : OrderedDict κ α) (f : κ → α → β) :
    (d.mapVals f).entries = d.entries.map (fun e => (e.1, f e.1 e.2)) := rfl

@[simp] theorem keys_mapVals (d : OrderedDict κ α) (f : κ → α → β) :
    (d.mapVals f).keys = d.keys := by
  simp [keys, mapVals, List.map_map, Function.comp_def]

theorem mapVals_mapVals (d : OrderedDict κ α) (f : κ → α → β) (g : κ → β → γ) :
    (d.mapVals f).mapVals g = d.mapVals (fun k a => g k (f k a)) := by
  apply ext
  simp [mapVals, List.map_map, Function.comp_def]

theorem mapVals_congr {d : OrderedDict κ α} {f g : κ → α → β}
    (h : ∀ e ∈ d.entries, f e.1 e.2 = g e.1 e.2) : d.mapVals f = d.mapVals g := by
  apply ext
  simp only [mapVals]
  exact List.map_congr_left (fun e he => by rw [h e he])

@[simp] theorem mapVals_id (d : OrderedDict κ α) : d.mapVals (fun _ a => a) = d := by
  apply ext
  simp [mapVals]

variable [DecidableEq κ]

/-- `d.get(k)`. -/
def get? (d : OrderedDict κ α) (k : κ) : Option α :=
  (d.entries.find? (fun e => e.1 = k)).map Prod.snd

@[simp] theorem get?_empty (k : κ) : (empty : OrderedDict κ α).get? k = none := rfl

theorem get?_eq_none_iff (d : OrderedDict κ α) (k : κ) : d.get? k = none ↔ k ∉ d.keys := by
  simp only [get?, Option.map_eq_none_iff, List.find?_eq_none, decide_eq_true_eq, keys,
    List.mem_map, not_exists, not_and]

/-- Lookup and membership agree, since no key occurs twice. -/
theorem get?_eq_some_iff (d : OrderedDict κ α) (k : κ) (v : α) :
    d.get? k = some v ↔ (k, v) ∈ d.entries := by
  constructor
  · intro h
    rw [get?, Option.map_eq_some_iff] at h
    obtain ⟨⟨k', v'⟩, hfind, rfl⟩ := h
    have hk : k' = k := by simpa using List.find?_some hfind
    exact hk ▸ List.mem_of_find?_eq_some hfind
  · intro h
    cases hget : d.get? k with
    | none =>
        rw [get?_eq_none_iff] at hget
        exact absurd (List.mem_map.mpr ⟨(k, v), h, rfl⟩) hget
    | some v' =>
        rw [get?, Option.map_eq_some_iff] at hget
        obtain ⟨⟨k', v''⟩, hfind, rfl⟩ := hget
        have hk : k' = k := by simpa using List.find?_some hfind
        have hmem := List.mem_of_find?_eq_some hfind
        have := List.inj_on_of_nodup_map d.nodup hmem h hk
        simpa using congrArg Prod.snd this

theorem mem_keys_iff (d : OrderedDict κ α) (k : κ) : k ∈ d.keys ↔ ∃ v, d.get? k = some v := by
  rw [← not_iff_not, ← get?_eq_none_iff]
  cases d.get? k <;> simp

theorem get?_mapVals (d : OrderedDict κ α) (f : κ → α → β) (k : κ) :
    (d.mapVals f).get? k = (d.get? k).map (f k) := by
  cases hget : d.get? k with
  | none =>
      rw [get?_eq_none_iff] at hget
      rw [Option.map_none, get?_eq_none_iff, keys_mapVals]
      exact hget
  | some v =>
      rw [get?_eq_some_iff] at hget
      rw [Option.map_some, get?_eq_some_iff]
      exact List.mem_map.mpr ⟨(k, v), hget, rfl⟩

/-- At most one entry has a given key. -/
theorem filter_entries (d : OrderedDict κ α) (k : κ) :
    d.entries.filter (fun e => e.1 = k) = (d.entries.find? (fun e => e.1 = k)).toList := by
  obtain ⟨l, hnodup⟩ := d
  dsimp only
  induction l with
  | nil => rfl
  | cons e l ih =>
      obtain ⟨hnew, hl⟩ := List.nodup_cons.mp hnodup
      by_cases he : e.1 = k
      · have hrest : l.filter (fun e => e.1 = k) = [] := by
          refine List.filter_eq_nil_iff.mpr (fun e' he' hk => hnew ?_)
          rw [decide_eq_true_eq] at hk
          exact List.mem_map.mpr ⟨e', he', hk.trans he.symm⟩
        rw [List.filter_cons_of_pos (by simpa using he), List.find?_cons_of_pos (by simpa using he),
          hrest]
        rfl
      · rw [List.filter_cons_of_neg (by simpa using he), List.find?_cons_of_neg (by simpa using he),
          ih hl]

/-! ## Updates -/

/-- `d[k] = f(d[k])` for a key that is present; nothing for one that is not. -/
def modify (d : OrderedDict κ α) (k : κ) (f : α → α) : OrderedDict κ α :=
  d.mapVals (fun k' v => if k' = k then f v else v)

/-- `d.setdefault(k, v)`: a new key goes to the end, a present one keeps its
value. -/
def setdefault (d : OrderedDict κ α) (k : κ) (v : α) : OrderedDict κ α :=
  if h : k ∈ d.keys then d
  else
    { entries := d.entries ++ [(k, v)]
      nodup := by
        rw [List.map_append]
        exact List.Nodup.append d.nodup (by simp) (by simpa [keys] using h) }

/-- `d[k] = f(d[k])` in a `defaultdict`: a missing key starts from `v`. -/
def upsert (d : OrderedDict κ α) (k : κ) (v : α) (f : α → α) : OrderedDict κ α :=
  (d.setdefault k v).modify k f

/-- `d[k] = v`. -/
def insert (d : OrderedDict κ α) (k : κ) (v : α) : OrderedDict κ α :=
  (d.setdefault k v).modify k (fun _ => v)

/-- `dict(l)`: of several values for a key the last one stays, at the place of the
first. -/
def ofList (l : List (κ × α)) : OrderedDict κ α :=
  l.foldl (fun d e => d.insert e.1 e.2) empty

@[simp] theorem keys_modify (d : OrderedDict κ α) (k : κ) (f : α → α) :
    (d.modify k f).keys = d.keys := keys_mapVals _ _

theorem get?_modify (d : OrderedDict κ α) (k k' : κ) (f : α → α) :
    (d.modify k f).get? k' = if k' = k then (d.get? k').map f else d.get? k' := by
  rw [modify, get?_mapVals]
  split_ifs <;> simp

/-- Modifying an absent key does nothing. -/
theorem modify_of_get?_eq_none {d : OrderedDict κ α} {k : κ} (f : α → α)
    (h : d.get? k = none) : d.modify k f = d := by
  rw [get?_eq_none_iff] at h
  refine (mapVals_congr (fun e he => ?_)).trans (mapVals_id d)
  exact if_neg (fun hk : e.1 = k => h (hk ▸ List.mem_map_of_mem he))

/-- Only the value that is present counts. -/
theorem modify_congr {d : OrderedDict κ α} {k : κ} {f g : α → α}
    (h : ∀ v, d.get? k = some v → f v = g v) : d.modify k f = d.modify k g := by
  refine mapVals_congr (fun e he => ?_)
  by_cases hk : e.1 = k
  · rw [if_pos hk, if_pos hk, h e.2 ((get?_eq_some_iff d k e.2).mpr (hk ▸ he))]
  · rw [if_neg hk, if_neg hk]

theorem setdefault_of_mem {d : OrderedDict κ α} {k : κ} (v : α) (h : k ∈ d.keys) :
    d.setdefault k v = d := dif_pos h

theorem entries_setdefault_of_notMem {d : OrderedDict κ α} {k : κ} (v : α) (h : k ∉ d.keys) :
    (d.setdefault k v).entries = d.entries ++ [(k, v)] := by
  rw [setdefault, dif_neg h]

theorem keys_setdefault (d : OrderedDict κ α) (k : κ) (v : α) :
    (d.setdefault k v).keys = if k ∈ d.keys then d.keys else d.keys ++ [k] := by
  split_ifs with h
  · rw [setdefault_of_mem v h]
  · rw [keys, entries_setdefault_of_notMem v h, List.map_append]
    rfl

theorem mem_keys_setdefault (d : OrderedDict κ α) (k k' : κ) (v : α) :
    k' ∈ (d.setdefault k v).keys ↔ k' ∈ d.keys ∨ k' = k := by
  rw [keys_setdefault]
  split_ifs with h
  · constructor
    · exact Or.inl
    · rintro (h' | rfl)
      · exact h'
      · exact h
  · simp

/-- A present value stays; an absent key gets the default. -/
theorem get?_setdefault (d : OrderedDict κ α) (k k' : κ) (v : α) :
    (d.setdefault k v).get? k' = (d.get? k').or (if k' = k then some v else none) := by
  by_cases h : k ∈ d.keys
  · rw [setdefault_of_mem v h]
    cases hget : d.get? k' with
    | some _ => rfl
    | none =>
        rw [get?_eq_none_iff] at hget
        rw [if_neg (fun hk : k' = k => hget (hk ▸ h))]
        rfl
  · cases hget : d.get? k' with
    | some w =>
        rw [get?_eq_some_iff] at hget
        rw [Option.some_or, get?_eq_some_iff, entries_setdefault_of_notMem v h]
        exact List.mem_append_left _ hget
    | none =>
        rw [Option.none_or]
        split_ifs with hk
        · rw [get?_eq_some_iff, entries_setdefault_of_notMem v h, hk]
          simp
        · rw [get?_eq_none_iff] at hget ⊢
          rw [mem_keys_setdefault]
          simp [hget, hk]

/-! ## Runs of `setdefault` -/

/-- A run of `setdefault` calls. -/
def setdefaults (d : OrderedDict κ α) (l : List (κ × α)) : OrderedDict κ α :=
  l.foldl (fun d e => d.setdefault e.1 e.2) d

@[simp] theorem setdefaults_nil (d : OrderedDict κ α) : d.setdefaults [] = d := rfl

@[simp] theorem setdefaults_cons (d : OrderedDict κ α) (e : κ × α) (l : List (κ × α)) :
    d.setdefaults (e :: l) = (d.setdefault e.1 e.2).setdefaults l := rfl

/-- **The first value offered for a key stays.** -/
theorem get?_setdefaults (d : OrderedDict κ α) (l : List (κ × α)) (k : κ) :
    (d.setdefaults l).get? k =
      (d.get? k).or ((l.find? (fun e => e.1 = k)).map Prod.snd) := by
  induction l generalizing d with
  | nil => simp
  | cons e l ih =>
      rw [setdefaults_cons, ih, get?_setdefault, List.find?_cons]
      by_cases hk : e.1 = k
      · cases d.get? k <;> simp [hk]
      · cases d.get? k <;> simp [hk, Ne.symm hk]

/-- **Keys stand in order of first offer.** -/
theorem keys_setdefaults [BEq κ] [LawfulBEq κ] (d : OrderedDict κ α) (l : List (κ × α)) :
    (d.setdefaults l).keys
      = d.keys ++ ((l.map Prod.fst).removeAll d.keys).eraseDups := by
  induction l generalizing d with
  | nil => simp [List.removeAll]
  | cons e l ih =>
      rw [setdefaults_cons, ih, keys_setdefault, List.map_cons]
      split_ifs with h
      · rw [List.cons_removeAll]
        simp [h]
      · rw [List.cons_removeAll]
        simp only [List.contains_eq_mem, h, not_false_eq_true, if_true,
          decide_eq_false_iff_not, List.eraseDups_cons, List.append_assoc,
          List.singleton_append]
        congr 3
        simp only [List.removeAll, List.filter_filter]
        refine List.filter_congr (fun k _ => ?_)
        by_cases hk : k = e.1 <;> simp [hk]

/-- Into the empty dictionary: the distinct keys, by first occurrence. -/
theorem keys_setdefaults_empty [BEq κ] [LawfulBEq κ] (l : List (κ × α)) :
    ((empty : OrderedDict κ α).setdefaults l).keys = (l.map Prod.fst).eraseDups := by
  rw [keys_setdefaults]
  simp [List.removeAll]

/-! ## Literals -/

/-- A new key goes to the end. -/
theorem entries_insert_of_notMem {d : OrderedDict κ α} {k : κ} (v : α) (h : k ∉ d.keys) :
    (d.insert k v).entries = d.entries ++ [(k, v)] := by
  have hold : ∀ e ∈ d.entries, e.1 ≠ k := fun e he hk => h (hk ▸ List.mem_map_of_mem he)
  unfold insert modify
  rw [entries_mapVals, entries_setdefault_of_notMem v h, List.map_append]
  congr 1
  · refine (List.map_congr_left (fun e he => ?_)).trans (List.map_id _)
    rw [if_neg (hold e he)]
    rfl
  · simp

/-- A dictionary of distinct keys is the list of its entries. -/
theorem entries_ofList {l : List (κ × α)} (h : (l.map Prod.fst).Nodup) :
    (ofList l).entries = l := by
  have hstep : ∀ (l : List (κ × α)) (d : OrderedDict κ α), (d.keys ++ l.map Prod.fst).Nodup →
      (l.foldl (fun d e => d.insert e.1 e.2) d).entries = d.entries ++ l := by
    intro l
    induction l with
    | nil => intro d _; exact (List.append_nil _).symm
    | cons e l ih =>
        intro d hnodup
        have hnew : e.1 ∉ d.keys := fun he =>
          List.disjoint_of_nodup_append hnodup he (by simp)
        have hentries := entries_insert_of_notMem e.2 hnew
        rw [List.foldl_cons, ih, hentries, List.append_assoc]
        · rfl
        · unfold keys
          rw [hentries, List.map_append, List.append_assoc]
          exact hnodup
  exact hstep l empty h

theorem get?_ofList {l : List (κ × α)} (h : (l.map Prod.fst).Nodup) {k : κ} {v : α}
    (hmem : (k, v) ∈ l) : (ofList l).get? k = some v := by
  rw [get?_eq_some_iff, entries_ofList h]
  exact hmem

theorem get?_insert (d : OrderedDict κ α) (k k' : κ) (v : α) :
    (d.insert k v).get? k' = if k' = k then some v else d.get? k' := by
  rw [insert, get?_modify, get?_setdefault]
  split_ifs
  · cases d.get? k' <;> rfl
  · rw [Option.or_none]

/-- What a literal holds under a key is one of the values given for it. -/
theorem mem_of_get?_ofList {l : List (κ × α)} {k : κ} {v : α} (h : (ofList l).get? k = some v) :
    (k, v) ∈ l := by
  induction l using List.reverseRecOn with
  | nil => cases h
  | append_singleton l e ih =>
      have hlast : ofList (l ++ [e]) = (ofList l).insert e.1 e.2 :=
        List.foldl_concat _ _ _ _
      rw [hlast, get?_insert] at h
      split_ifs at h with hk
      · subst hk
        rw [← Option.some.inj h]
        exact List.mem_append_right _ List.mem_cons_self
      · exact List.mem_append_left _ (ih h)

/-! ## Grouping -/

theorem mem_keys_upsert (d : OrderedDict κ α) (k k' : κ) (v : α) (f : α → α) :
    k' ∈ (d.upsert k v f).keys ↔ k' ∈ d.keys ∨ k' = k := by
  rw [upsert, keys_modify, mem_keys_setdefault]

theorem keys_upsert (d : OrderedDict κ α) (k : κ) (v : α) (f : α → α) :
    (d.upsert k v f).keys = if k ∈ d.keys then d.keys else d.keys ++ [k] := by
  rw [upsert, keys_modify, keys_setdefault]

theorem get?_upsert (d : OrderedDict κ α) (k k' : κ) (v : α) (f : α → α) :
    (d.upsert k v f).get? k' = if k' = k then some (f ((d.get? k').getD v)) else d.get? k' := by
  rw [upsert, get?_modify, get?_setdefault]
  split_ifs with h
  · cases d.get? k' <;> rfl
  · exact Option.or_none

theorem mem_keys_foldl_upsert (key : β → κ) (v : α) (f : β → α → α) (l : List β)
    (d : OrderedDict κ α) (k : κ) :
    k ∈ (l.foldl (fun d b => d.upsert (key b) v (f b)) d).keys ↔
      k ∈ d.keys ∨ k ∈ l.map key := by
  induction l generalizing d with
  | nil => simp
  | cons b l ih =>
      rw [List.foldl_cons, ih, mem_keys_upsert, List.map_cons, List.mem_cons, or_assoc]

/-- **Grouping.**  A run of `upsert` calls folds the members of each group, in order,
into the group's entry. -/
theorem get?_foldl_upsert (key : β → κ) (v : α) (f : β → α → α) (l : List β)
    (d : OrderedDict κ α) {k : κ} (hk : k ∈ d.keys ∨ k ∈ l.map key) :
    (l.foldl (fun d b => d.upsert (key b) v (f b)) d).get? k
      = some ((l.filter (fun b => key b = k)).foldl (fun a b => f b a) ((d.get? k).getD v)) := by
  induction l generalizing d with
  | nil =>
      rcases hk with hk | hk
      · obtain ⟨a, ha⟩ := (mem_keys_iff d k).mp hk
        rw [List.foldl_nil, List.filter_nil, List.foldl_nil, ha]
        rfl
      · exact absurd hk List.not_mem_nil
  | cons b l ih =>
      have hk' : k ∈ (d.upsert (key b) v (f b)).keys ∨ k ∈ l.map key := by
        rw [mem_keys_upsert, or_assoc]
        rwa [List.map_cons, List.mem_cons] at hk
      rw [List.foldl_cons, ih _ hk', get?_upsert]
      by_cases hb : key b = k
      · rw [if_pos hb.symm, List.filter_cons_of_pos (by simpa using hb), List.foldl_cons]
        rfl
      · rw [if_neg (Ne.symm hb), List.filter_cons_of_neg (by simpa using hb)]

/-- The group of a key, which is empty for an absent one. -/
theorem getD_foldl_upsert (key : β → κ) (v : α) (f : β → α → α) (l : List β)
    (d : OrderedDict κ α) (k : κ) :
    ((l.foldl (fun d b => d.upsert (key b) v (f b)) d).get? k).getD v
      = (l.filter (fun b => key b = k)).foldl (fun a b => f b a) ((d.get? k).getD v) := by
  by_cases hk : k ∈ d.keys ∨ k ∈ l.map key
  · rw [get?_foldl_upsert key v f l d hk, Option.getD_some]
  · have habsent : (l.foldl (fun d b => d.upsert (key b) v (f b)) d).get? k = none := by
      rw [get?_eq_none_iff, mem_keys_foldl_upsert]
      exact hk
    have hnone : d.get? k = none := (get?_eq_none_iff d k).mpr (fun h => hk (Or.inl h))
    have hfilter : l.filter (fun b => key b = k) = [] := by
      refine List.filter_eq_nil_iff.mpr (fun b hb hkey => hk (Or.inr ?_))
      rw [decide_eq_true_eq] at hkey
      exact hkey ▸ List.mem_map_of_mem hb
    rw [habsent, hnone, hfilter]
    rfl

/-- New keys go to the end, in order of first occurrence. -/
theorem keys_foldl_upsert [BEq κ] [LawfulBEq κ] (key : β → κ) (v : α) (f : β → α → α) (l : List β)
    (d : OrderedDict κ α) :
    (l.foldl (fun d b => d.upsert (key b) v (f b)) d).keys
      = d.keys ++ ((l.map key).removeAll d.keys).eraseDups := by
  -- only the keys matter, and there `upsert` is `setdefault`
  have hkeys : ∀ (l : List β) (d d' : OrderedDict κ α), d.keys = d'.keys →
      (l.foldl (fun d b => d.upsert (key b) v (f b)) d).keys
        = (d'.setdefaults (l.map (fun b => (key b, v)))).keys := by
    intro l
    induction l with
    | nil => exact fun d d' h => h
    | cons b l ih =>
        intro d d' h
        refine ih _ _ ?_
        rw [keys_upsert, keys_setdefault, h]
  rw [hkeys l d d rfl, keys_setdefaults, List.map_map]
  rfl

/-- Grouping into a dictionary keeps its keys in front. -/
theorem exists_keys_foldl_upsert (key : β → κ) (v : α) (f : β → α → α) (l : List β)
    (d : OrderedDict κ α) :
    ∃ rest, (l.foldl (fun d b => d.upsert (key b) v (f b)) d).keys = d.keys ++ rest := by
  induction l generalizing d with
  | nil => exact ⟨[], (List.append_nil _).symm⟩
  | cons b l ih =>
      obtain ⟨rest, hrest⟩ := ih (d.upsert (key b) v (f b))
      rw [List.foldl_cons, hrest, keys_upsert]
      split_ifs
      · exact ⟨rest, rfl⟩
      · exact ⟨key b :: rest, by rw [List.append_assoc, List.singleton_append]⟩

/-- **Sums over groups.**  If every member has its key among distinct keys, the sums
of the groups add up to the sum of the list. -/
theorem sum_map_sum_filter {M : Type*} [AddCommMonoid M] (key : β → κ) (f : β → M) {ks : List κ}
    (hnodup : ks.Nodup) {l : List β} (h : ∀ b ∈ l, key b ∈ ks) :
    (ks.map (fun k => ((l.filter (fun b => key b = k)).map f).sum)).sum = (l.map f).sum := by
  induction l with
  | nil => simp
  | cons b l ih =>
      have hgroup : ∀ k, (((b :: l).filter (fun b => key b = k)).map f).sum
          = (if key b = k then f b else 0) + ((l.filter (fun b => key b = k)).map f).sum := by
        intro k
        rw [List.filter_cons]
        by_cases hb : key b = k
        · simp [hb]
        · simp [hb]
      have hone : (ks.map (fun k => if key b = k then f b else 0)).sum = f b := by
        rw [← List.sum_toFinset _ hnodup, Finset.sum_ite_eq, if_pos]
        exact List.mem_toFinset.mpr (h b List.mem_cons_self)
      simp only [hgroup]
      rw [List.sum_map_add, hone, ih (fun c hc => h c (List.mem_cons_of_mem _ hc)), List.map_cons,
        List.sum_cons]

end OrderedDict
