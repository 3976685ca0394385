/-
# Categories and their terms

`load_category_terms` and `classify` of `scripts/extract_vcd_activity.py`.  A category
is a thermal region; its terms are texts, and a signal path belongs to the first
category with a term that occurs in it, ignoring case.

A hierarchy map is a YAML document (`Yaml`).  Documents have text keys: a category key of
another type makes `write_outputs` raise when it sorts the regions, so no report is
written for it.
-/
import ThermalPlacement.PyDocument
import ThermalPlacement.FirstMatch

open PyText

namespace Activity

section

variable [PyStr]

/-! ## Terms -/

/-- Category terms: a dictionary of lists of texts. -/
abbrev Terms := OrderedDict Str (List Str)

/-- The dictionary that `load_category_terms` starts from. -/
def builtinTerms : Terms where
  entries :=
    [("pe_array", ["gemmini", "mesh", "pe", "tile"]),
      ("scratchpad", ["scratchpad", "spad", "sp_bank"]),
      ("accumulator", ["accumulator", "acc_", "accumulator_mem"]),
      ("load_store_dma",
        ["load_controller", "store_controller", "streamreader", "streamwriter", "dma"]),
      ("controller", ["controller", "reservationstation", "cmd", "rob"]),
      ("tl_soc_glue", ["tl", "axi", "cache", "bus"]),
      ("non_gemmini_context", ["rocket", "system", "debug", "jtag", "uart"])].map
        (fun e => (e.1.toList, e.2.map String.toList))
  nodup := by decide

/-- The modules listed under a category. -/
def categoryModules (value : Yaml) : Except PyError (List Yaml) :=
  match value with
  | .map entries =>
      match (OrderedDict.ofList entries).get? "modules".toList with
      | some modules => modules.iter
      | none => .ok []
  | _ => .ok []

/-- The terms of a category, extended by modules. -/
def addModules (terms : Terms) (category : Str) (modules : List Yaml) : Terms :=
  terms.upsert category []
    (fun categoryTerms => categoryTerms ++ modules.map (fun module => PyStr.lower module.text))

/-- `load_category_terms`: the built-in terms, extended by the hierarchy map.  There is
no document when no path is given, the file does not exist or PyYAML is missing. -/
def loadCategoryTerms (document : Option Yaml) : Except PyError Terms :=
  match document with
  | none => .ok builtinTerms
  | some data =>
      -- `yaml.safe_load(...) or {}`, whose `get` only a dictionary has
      match (if data.truthy then data else .map []) with
      | .map entries =>
          match ((OrderedDict.ofList entries).get? "categories".toList).getD (.map []) with
          | .map categories =>
              (OrderedDict.ofList categories).entries.foldlM
                (fun terms e => (categoryModules e.2).map (addModules terms e.1)) builtinTerms
          | _ => .error .attributeError
      | _ => .error .attributeError

/-- Reading a document with categories. -/
theorem loadCategoryTerms_of_categories {entries categories : List (Str × Yaml)}
    (h : (OrderedDict.ofList entries).get? "categories".toList = some (.map categories)) :
    loadCategoryTerms (some (.map entries)) =
      (OrderedDict.ofList categories).entries.foldlM
        (fun terms e => (categoryModules e.2).map (addModules terms e.1)) builtinTerms := by
  cases entries with
  | nil => cases h
  | cons e entries =>
      have htruthy : Yaml.truthy (.map (e :: entries)) = true := rfl
      unfold loadCategoryTerms
      dsimp only
      rw [if_pos htruthy]
      dsimp only
      rw [h]
      rfl

/-! ## Classification -/

/-- A nonempty term occurs in the path, ignoring case. -/
def Matches (path term : Str) : Prop := term ≠ [] ∧ PyStr.lower term <:+: PyStr.lower path

instance (path term : Str) : Decidable (Matches path term) :=
  inferInstanceAs (Decidable (_ ∧ _))

/-- One of the terms matches. -/
def MatchesAny (path : Str) (categoryTerms : List Str) : Prop :=
  ∃ term ∈ categoryTerms, Matches path term

instance (path : Str) (categoryTerms : List Str) : Decidable (MatchesAny path categoryTerms) :=
  inferInstanceAs (Decidable (∃ term ∈ categoryTerms, _))

/-- `classify`. -/
def classify (path : Str) (terms : Terms) : Str :=
  match terms.entries.find? (fun e => MatchesAny path e.2) with
  | some e => e.1
  | none => "other".toList

/-- The category is the first key with a matching term. -/
theorem classify_eq_firstKey (path : Str) (terms : Terms) :
    classify path terms = (terms.firstKey (MatchesAny path)).getD "other".toList := by
  unfold classify OrderedDict.firstKey
  cases terms.entries.find? (fun e => MatchesAny path e.2) with
  | some e => rfl
  | none => rfl

/-- **Where a path can go**: to a category of the dictionary, exactly if a term matches
or `other` is itself a category. -/
theorem classify_mem_keys_iff (path : Str) (terms : Terms) :
    classify path terms ∈ terms.keys ↔
      (∃ e ∈ terms.entries, MatchesAny path e.2) ∨ "other".toList ∈ terms.keys := by
  unfold classify
  cases hfind : terms.entries.find? (fun e => MatchesAny path e.2) with
  | some e =>
      have hmem : e ∈ terms.entries := List.mem_of_find?_eq_some hfind
      have hmatch : MatchesAny path e.2 := by simpa using List.find?_some hfind
      exact iff_of_true (List.mem_map_of_mem hmem) (Or.inl ⟨e, hmem, hmatch⟩)
  | none =>
      constructor
      · exact Or.inr
      · rintro (⟨e, he, hmatch⟩ | hother)
        · exact absurd hmatch (by simpa using List.find?_eq_none.mp hfind e he)
        · exact hother

/-! ## The categories of a hierarchy map -/

/-- Loading a map forgets no category. -/
theorem keys_subset_foldlM_addModules {categories : List (Str × Yaml)} {terms terms' : Terms}
    (h : categories.foldlM (fun terms e => (categoryModules e.2).map (addModules terms e.1)) terms
      = .ok terms') : ∀ k ∈ terms.keys, k ∈ terms'.keys := by
  refine foldlM_induction (P := fun terms' : Terms => ∀ k ∈ terms.keys, k ∈ terms'.keys)
    (fun terms₁ e terms₂ hkeys hadd k hk => ?_) (fun k hk => hk) h
  obtain ⟨modules, -, rfl⟩ := exists_of_map_eq_ok hadd
  exact (OrderedDict.mem_keys_upsert terms₁ e.1 k [] _).mpr (Or.inl (hkeys k hk))

/-- **The built-in categories are always there.** -/
theorem builtin_keys_subset {document : Option Yaml} {terms : Terms}
    (h : loadCategoryTerms document = .ok terms) : ∀ k ∈ builtinTerms.keys, k ∈ terms.keys := by
  unfold loadCategoryTerms at h
  cases document with
  | none =>
      obtain rfl := Except.ok.inj h
      exact fun k hk => hk
  | some data =>
      dsimp only at h
      split at h
      · split at h
        · exact keys_subset_foldlM_addModules h
        · cases h
      · cases h

end

end Activity
