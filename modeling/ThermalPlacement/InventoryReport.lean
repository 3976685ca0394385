/-
# The inventory report

`write_markdown` of `scripts/inspect_gemmini_hierarchy.py`: a table of the categories and a
section for each of them, next to the hierarchy map that `write_yaml` dumps.

`readBuckets` reads the categories of a map back (`readBuckets_writeYaml`).  They are a partition of
the modules (`flatMap_membersOf_perm`), and the lines of the report are about the same buckets
(`markdownLines_eq`).
-/
import ThermalPlacement.ModuleScan
import ThermalPlacement.Buckets

open PyText Activity

namespace Inventory

/-! ## The report -/

/-- `str(n)` -/
def decimal (n : ℕ) : Str := Nat.toDigits 10 n

/-- `descriptions` -/
def descriptions : OrderedDict Str Str :=
  ((OrderedDict.ofList (categoryRules.map (fun rule => (rule.category, rule.description)))).insert
    "gemmini_other".toList "Other modules with Gemmini in the module name".toList).insert
      "non_gemmini_context".toList "Generated SoC/test harness context".toList

/-- `descriptions.get(category, category)` -/
def description (category : Str) : Str := (descriptions.get? category).getD category

/-- The lines up to the table. -/
def reportHead (moduleCount : ℕ) (hierarchyNames : List Str) : List Str :=
  ["# Gemmini Module Inventory".toList, [],
    ("This file is generated by `scripts/inspect_gemmini_hierarchy.py` from " ++
      "Chipyard/Gemmini RTL collateral.").toList, [],
    "## Summary".toList, [],
    "- RTL modules found: ".toList ++ decimal moduleCount,
    if hierarchyNames ≠ [] then
      "- Hierarchy names found: ".toList ++ decimal hierarchyNames.length
    else "- Hierarchy JSON: not available".toList,
    [], "## Thermal Study Buckets".toList, [],
    "| Bucket | Description | Module Count | Initial Treatment |".toList,
    "| --- | --- | ---: | --- |".toList]

/-- `treatment` -/
def treatment (category : Str) : Str :=
  if category ∉ ["tl_soc_glue".toList, "non_gemmini_context".toList] then "include".toList
  else "defer".toList

/-- A row of the table. -/
def tableRow (category : Str) (moduleCount : ℕ) (treatment : Str) : Str :=
  "| `".toList ++ category ++ "` | ".toList ++ description category ++ " | ".toList ++
    decimal moduleCount ++ " | ".toList ++ treatment ++ " |".toList

/-- `rel_files`: the names of up to three files. -/
def relFiles (files : List Str) : Str :=
  ", ".toList.intercalate (sortedBy id ((files.take 3).map pathName)) ++
    if 3 < files.length then ", ... (".toList ++ decimal files.length ++ " files)".toList else []

/-- A module in the section of its category. -/
def moduleLine (modules : OrderedDict Str (List Str)) (moduleName : Str) : Str :=
  "- `".toList ++ moduleName ++ "` (".toList ++ relFiles ((modules.get? moduleName).getD []) ++
    ")".toList

/-- The section of a category. -/
def bucketLines (modules : OrderedDict Str (List Str)) (category : Str) (names : List Str) :
    List Str :=
  ["### ".toList ++ category, []] ++ names.map (moduleLine modules) ++ [[]]

/-- The lines after the sections. -/
def hierarchySample (hierarchyNames : List Str) : List Str :=
  if hierarchyNames ≠ [] then
    ["## Hierarchy Name Sample".toList, []] ++
      (hierarchyNames.take 200).map (fun name => "- `".toList ++ name ++ "`".toList) ++ [[]]
  else []

/-- `lines` in `write_markdown`. -/
def markdownLines (modules categorized : OrderedDict Str (List Str)) (hierarchyNames : List Str) :
    List Str :=
  let members := fun category => (categorized.get? category).getD []
  reportHead modules.keys.length hierarchyNames ++
    (sortedBy id categorized.keys).map
      (fun category => tableRow category (members category).length (treatment category)) ++
    [[], "## Modules By Bucket".toList, []] ++
    (sortedBy id categorized.keys).flatMap
      (fun category => bucketLines modules category (members category)) ++
    hierarchySample hierarchyNames

/-- `write_markdown` -/
def writeMarkdown (modules categorized : OrderedDict Str (List Str)) (hierarchyNames : List Str) :
    Str :=
  ['\n'].intercalate (markdownLines modules categorized hierarchyNames)

/-! ## Buckets of a map -/

/-- `x[k]` of a document. -/
def field (x : Yaml) (k : Str) : Option Yaml :=
  match x with
  | .map entries => (OrderedDict.ofList entries).get? k
  | _ => none

/-- A document that is a text. -/
def asText : Yaml → Option Str
  | .str s => some s
  | _ => none

/-- A document that is a list of texts. -/
def asTexts : Yaml → Option (List Str)
  | .seq items => items.mapM asText
  | _ => none

/-- A category of a hierarchy map. -/
structure Bucket where
  category : Str
  included : Bool
  modules : List Str
  deriving DecidableEq

/-- The category in an entry of the map. -/
def readBucket (e : Str × Yaml) : Option Bucket := do
  let included ← field e.2 "include_in_thermal_study".toList
  let modules ← field e.2 "modules".toList
  let names ← asTexts modules
  pure ⟨e.1, included.truthy, names⟩

/-- `categories` of a hierarchy map. -/
def readBuckets (document : Yaml) : Option (List Bucket) :=
  match field document "categories".toList with
  | some (.map entries) => (OrderedDict.ofList entries).entries.mapM readBucket
  | _ => none

/-- `all_modules` of a hierarchy map. -/
def readAllModules (document : Yaml) : Option (List Str) :=
  (field document "all_modules".toList).bind asTexts

theorem mapM_eq_some_map {α β : Type*} {f : α → Option β} {g : α → β} {l : List α}
    (h : ∀ a ∈ l, f a = some (g a)) : l.mapM f = some (l.map g) := by
  induction l with
  | nil => rfl
  | cons a l ih =>
      rw [List.mapM_cons, h a List.mem_cons_self, ih (fun b hb => h b (List.mem_cons_of_mem _ hb))]
      rfl

theorem asTexts_seq_str (names : List Str) : asTexts (.seq (names.map Yaml.str)) = some names := by
  show (names.map Yaml.str).mapM asText = some names
  rw [List.mapM_map]
  exact (mapM_eq_some_map (fun a _ => rfl)).trans (congrArg some (List.map_id names))

theorem field_of_mem {entries : List (Str × Yaml)} (hnodup : (entries.map Prod.fst).Nodup)
    {k : Str} {v : Yaml} (hmem : (k, v) ∈ entries) : field (.map entries) k = some v :=
  OrderedDict.get?_ofList hnodup hmem

section

variable [PyStr]

/-- The modules of a category. -/
def membersOf (modules : OrderedDict Str (List Str)) (category : Str) : List Str :=
  (sortedBy id modules.keys).filter (fun m => categoryFor m = category)

/-- The categories that modules are in, sorted. -/
def usedCategories (modules : OrderedDict Str (List Str)) : List Str :=
  sortedBy id (categorized modules).keys

/-- What `write_yaml` writes about a category. -/
def bucketOf (modules : OrderedDict Str (List Str)) (category : Str) : Bucket where
  category := category
  included := category ∈ includeCategories
  modules := membersOf modules category

theorem readBucket_categoryEntry (modules : OrderedDict Str (List Str)) (category : Str) :
    readBucket (category, categoryEntry (categorized modules) category)
      = some (bucketOf modules category) := by
  have hnodup : (["include_in_thermal_study".toList, "modules".toList] : List Str).Nodup := by
    decide
  have hincluded : field (categoryEntry (categorized modules) category)
      "include_in_thermal_study".toList = some (boolean (category ∈ includeCategories)) := by
    apply field_of_mem
    · exact hnodup
    · exact List.mem_cons_self
  have hmodules : field (categoryEntry (categorized modules) category) "modules".toList
      = some (.seq ((((categorized modules).get? category).getD []).map Yaml.str)) := by
    apply field_of_mem
    · exact hnodup
    · exact List.mem_cons_of_mem _ List.mem_cons_self
  unfold readBucket
  dsimp only
  rw [hincluded, hmodules]
  show (asTexts _).bind _ = _
  rw [asTexts_seq_str, members_categorized]
  rfl

/-- **Reading the map back.** -/
theorem readBuckets_writeYaml (modules : OrderedDict Str (List Str)) :
    readBuckets (writeYaml modules (categorized modules))
        = some ((usedCategories modules).map (bucketOf modules)) ∧
      readAllModules (writeYaml modules (categorized modules))
        = some (sortedBy id modules.keys) := by
  have hnodup : (["source".toList, "notes".toList, "categories".toList, "all_modules".toList] :
      List Str).Nodup := by decide
  constructor
  · have hcategories : field (writeYaml modules (categorized modules)) "categories".toList
        = some (.map ((usedCategories modules).map
            (fun category => (category, categoryEntry (categorized modules) category)))) := by
      apply field_of_mem
      · exact hnodup
      · exact List.mem_cons_of_mem _ (List.mem_cons_of_mem _ List.mem_cons_self)
    have hkeys : (((usedCategories modules).map
        (fun category => (category, categoryEntry (categorized modules) category))).map
          Prod.fst).Nodup := by
      rw [List.map_map]
      exact (List.map_id (usedCategories modules)).symm ▸
        nodup_sortedBy (categorized modules).nodup_keys
    unfold readBuckets
    rw [hcategories]
    dsimp only
    rw [OrderedDict.entries_ofList hkeys, List.mapM_map]
    exact mapM_eq_some_map (fun category _ => readBucket_categoryEntry modules category)
  · have hall : field (writeYaml modules (categorized modules)) "all_modules".toList
        = some (.seq ((sortedBy id modules.keys).map Yaml.str)) := by
      apply field_of_mem
      · exact hnodup
      · exact List.mem_cons_of_mem _
          (List.mem_cons_of_mem _ (List.mem_cons_of_mem _ List.mem_cons_self))
    unfold readAllModules
    rw [hall]
    exact asTexts_seq_str _

/-! ## The partition -/

theorem mem_usedCategories (modules : OrderedDict Str (List Str)) (category : Str) :
    category ∈ usedCategories modules ↔ ∃ m ∈ modules.keys, categoryFor m = category := by
  unfold usedCategories categorized
  rw [mem_sortedBy, OrderedDict.mem_keys_foldl_upsert categoryFor []
    (fun m names => names ++ [m])]
  simp only [OrderedDict.keys_empty, List.not_mem_nil, false_or, List.mem_map, mem_sortedBy]

theorem nodup_usedCategories (modules : OrderedDict Str (List Str)) :
    (usedCategories modules).Nodup := nodup_sortedBy (categorized modules).nodup_keys

theorem mem_membersOf (modules : OrderedDict Str (List Str)) (category m : Str) :
    m ∈ membersOf modules category ↔ m ∈ modules.keys ∧ categoryFor m = category := by
  unfold membersOf
  rw [List.mem_filter, mem_sortedBy, decide_eq_true_eq]

/-- The modules of a category are listed in order, none of them twice. -/
theorem pairwise_membersOf (modules : OrderedDict Str (List Str)) (category : Str) :
    (membersOf modules category).Pairwise (· < ·) := by
  have hkeys : (modules.keys.map id).Nodup := by
    rw [List.map_id]
    exact modules.nodup_keys
  have hlt := pairwise_lt_sortedBy hkeys
  rw [List.map_id] at hlt
  exact hlt.filter _

theorem membersOf_ne_nil {modules : OrderedDict Str (List Str)} {category : Str}
    (h : category ∈ usedCategories modules) : membersOf modules category ≠ [] := by
  obtain ⟨m, hm, hcategory⟩ := (mem_usedCategories modules category).mp h
  exact List.ne_nil_of_mem ((mem_membersOf modules category m).mpr ⟨hm, hcategory⟩)

/-- The module determines its category. -/
theorem pairwise_disjoint_membersOf (modules : OrderedDict Str (List Str)) :
    (usedCategories modules).Pairwise (fun category category' =>
      category ≠ category' ∧
        (membersOf modules category).Disjoint (membersOf modules category')) := by
  refine (nodup_usedCategories modules).imp (fun {c c'} hne => ⟨hne, fun m hm hm' => hne ?_⟩)
  rw [← ((mem_membersOf modules c m).mp hm).2, ((mem_membersOf modules c' m).mp hm').2]

/-- **A partition**: every module is in one category. -/
theorem flatMap_membersOf_perm (modules : OrderedDict Str (List Str)) :
    ((usedCategories modules).flatMap (membersOf modules)).Perm (sortedBy id modules.keys) := by
  have hnodup : ((usedCategories modules).flatMap (membersOf modules)).Nodup := by
    rw [List.nodup_flatMap]
    exact ⟨fun category _ => (pairwise_membersOf modules category).imp (fun h => h.ne),
      (pairwise_disjoint_membersOf modules).imp (fun h => h.2)⟩
  rw [List.perm_ext_iff_of_nodup hnodup (nodup_sortedBy modules.nodup_keys)]
  intro m
  rw [List.mem_flatMap, mem_sortedBy]
  constructor
  · rintro ⟨category, _, hm⟩
    exact ((mem_membersOf modules category m).mp hm).1
  · intro hm
    exact ⟨categoryFor m, (mem_usedCategories modules _).mpr ⟨m, hm, rfl⟩,
      (mem_membersOf modules _ m).mpr ⟨hm, rfl⟩⟩

/-! ## Treatment -/

/-- The categories that a name can be put in. -/
theorem categoryFor_mem (m : Str) : categoryFor m ∈ categoryRules.map CategoryRule.category ++
    ["gemmini_other".toList, "non_gemmini_context".toList] := by
  rw [List.mem_append]
  cases hfind : categoryRules.find? (fun rule => HasKeyword m rule.keywords) with
  | some rule =>
      rw [categoryFor_of_some hfind]
      exact Or.inl (List.mem_map_of_mem (List.mem_of_find?_eq_some hfind))
  | none =>
      rw [categoryFor_of_none hfind]
      split_ifs
      · exact Or.inr List.mem_cons_self
      · exact Or.inr (List.mem_cons_of_mem _ List.mem_cons_self)

/-- The two lists of categories, in `write_markdown` and in `write_yaml`, say the same. -/
theorem treatment_of_mem {modules : OrderedDict Str (List Str)} {category : Str}
    (h : category ∈ usedCategories modules) :
    treatment category
      = if category ∈ includeCategories then "include".toList else "defer".toList := by
  have hall : ∀ c ∈ categoryRules.map CategoryRule.category ++
      ["gemmini_other".toList, "non_gemmini_context".toList],
        treatment c = if c ∈ includeCategories then "include".toList else "defer".toList := by
    decide +kernel
  obtain ⟨m, -, rfl⟩ := (mem_usedCategories modules category).mp h
  exact hall _ (categoryFor_mem m)

/-! ## The report and the map -/

/-- A row of the table, from a category of the map. -/
def Bucket.row (b : Bucket) : Str :=
  tableRow b.category b.modules.length (if b.included then "include".toList else "defer".toList)

theorem map_category_bucketOf (modules : OrderedDict Str (List Str)) :
    ((usedCategories modules).map (bucketOf modules)).map Bucket.category
      = usedCategories modules := by
  rw [List.map_map]
  exact List.map_id _

/-- **The report in terms of the map**: a row and a section for every category. -/
theorem markdownLines_eq (modules : OrderedDict Str (List Str)) (hierarchyNames : List Str) :
    markdownLines modules (categorized modules) hierarchyNames =
      reportHead modules.keys.length hierarchyNames ++
        ((usedCategories modules).map (bucketOf modules)).map Bucket.row ++
        [[], "## Modules By Bucket".toList, []] ++
        ((usedCategories modules).map (bucketOf modules)).flatMap
          (fun b => bucketLines modules b.category b.modules) ++
        hierarchySample hierarchyNames := by
  have hmembers : ∀ category, ((categorized modules).get? category).getD []
      = membersOf modules category := members_categorized modules
  have hrows : (usedCategories modules).map
        (fun category => tableRow category (membersOf modules category).length
          (treatment category))
      = ((usedCategories modules).map (bucketOf modules)).map Bucket.row := by
    rw [List.map_map]
    refine List.map_congr_left (fun category hcategory => ?_)
    rw [treatment_of_mem hcategory, Function.comp_apply]
    unfold Bucket.row bucketOf
    simp only [decide_eq_true_eq]
  rw [← hrows, List.flatMap_map]
  unfold markdownLines
  simp only [hmembers]
  rfl

/-- The extended terms have the built-in categories and those of the map. -/
theorem mem_keys_extendedTerms (modules : OrderedDict Str (List Str)) (category : Str) :
    category ∈ (extendedTerms (categorized modules)).keys ↔
      category ∈ builtinTerms.keys ∨ category ∈ usedCategories modules := by
  have hkeys := OrderedDict.mem_keys_foldl_upsert id [] (fun category categoryTerms =>
    categoryTerms ++ (((categorized modules).get? category).getD []).map PyStr.lower)
      (usedCategories modules) builtinTerms category
  rw [List.map_id] at hkeys
  exact hkeys

/-- A category that is not in the map keeps its built-in terms. -/
theorem getD_extendedTerms_of_notMem {modules : OrderedDict Str (List Str)} {category : Str}
    (h : category ∉ usedCategories modules) :
    ((extendedTerms (categorized modules)).get? category).getD []
      = (builtinTerms.get? category).getD [] := by
  have hnone : (categorized modules).get? category = none := by
    rw [OrderedDict.get?_eq_none_iff]
    exact fun hmem => h (mem_sortedBy.mpr hmem)
  rw [getD_extendedTerms, hnone]
  exact List.append_nil _

end

end Inventory
