/-
# Buckets of modules and buckets of paths

A module is put in a category twice: by `category_for`, which writes the hierarchy map,
and by `classify`, which reads the map back and sorts signal paths.  The second one
starts from built-in terms of its own, and `gemmini`, `load_controller`,
`store_controller`, `axi`, `cache` and `bus` among them contain no keyword of their
category.

`classify_eq_categoryFor_iff` says for which names the two agree.
-/
import ThermalPlacement.CategoryTerms
import ThermalPlacement.Inventory

open PyText Activity

namespace Inventory

/-! ## Reading the map back -/

theorem categoryModules_categoryEntry (categorized : OrderedDict Str (List Str)) (category : Str) :
    categoryModules (categoryEntry categorized category)
      = .ok (((categorized.get? category).getD []).map Yaml.str) := by
  have hget : (OrderedDict.ofList
      [("include_in_thermal_study".toList, boolean (category ∈ includeCategories)),
        ("modules".toList, .seq (((categorized.get? category).getD []).map Yaml.str))]).get?
          "modules".toList = some (.seq (((categorized.get? category).getD []).map Yaml.str)) := by
    apply OrderedDict.get?_ofList
    · show ["include_in_thermal_study".toList, "modules".toList].Nodup
      decide
    · exact List.mem_cons_of_mem _ List.mem_cons_self
  unfold categoryModules categoryEntry
  dsimp only
  rw [hget]
  rfl

section

variable [PyStr]

/-- The built-in terms, extended by the lower-cased members of each category. -/
def extendedTerms (categorized : OrderedDict Str (List Str)) : Terms :=
  (sortedBy id categorized.keys).foldl
    (fun terms category => terms.upsert category []
      (fun categoryTerms => categoryTerms ++
        ((categorized.get? category).getD []).map PyStr.lower))
    builtinTerms

/-- **What `load_category_terms` reads from the map.** -/
theorem loadCategoryTerms_writeYaml (modules categorized : OrderedDict Str (List Str)) :
    loadCategoryTerms (some (writeYaml modules categorized)) = .ok (extendedTerms categorized) := by
  have hkeys : ((sortedBy id categorized.keys).map
      (fun category => (category, categoryEntry categorized category))).map Prod.fst
        = sortedBy id categorized.keys := by
    rw [List.map_map]
    exact List.map_id _
  have hnodup : (sortedBy id categorized.keys).Nodup := nodup_sortedBy categorized.nodup_keys
  have hstep : ∀ (terms : Terms) (category : Str),
      (categoryModules (categoryEntry categorized category)).map (addModules terms category)
        = pure (terms.upsert category [] (fun categoryTerms => categoryTerms ++
            ((categorized.get? category).getD []).map PyStr.lower)) := by
    intro terms category
    rw [categoryModules_categoryEntry]
    show Except.ok (addModules terms category _) = _
    unfold addModules
    rw [List.map_map]
    rfl
  unfold writeYaml
  rw [loadCategoryTerms_of_categories, OrderedDict.entries_ofList (hkeys.symm ▸ hnodup),
    List.foldlM_map]
  · simp only [hstep]
    exact List.foldlM_pure
  · apply OrderedDict.get?_ofList
    · show ["source".toList, "notes".toList, "categories".toList, "all_modules".toList].Nodup
      decide
    · exact List.mem_cons_of_mem _ (List.mem_cons_of_mem _ List.mem_cons_self)

/-- The built-in categories come first. -/
theorem exists_keys_extendedTerms (categorized : OrderedDict Str (List Str)) :
    ∃ rest, (extendedTerms categorized).keys = builtinTerms.keys ++ rest :=
  OrderedDict.exists_keys_foldl_upsert id [] _ _ _

/-- **The terms of a category**: the built-in ones, then its members. -/
theorem getD_extendedTerms (categorized : OrderedDict Str (List Str)) (category : Str) :
    ((extendedTerms categorized).get? category).getD [] = (builtinTerms.get? category).getD [] ++
      ((categorized.get? category).getD []).map PyStr.lower := by
  have hnodup : (sortedBy id categorized.keys).Nodup := nodup_sortedBy categorized.nodup_keys
  have hfold := OrderedDict.getD_foldl_upsert id [] (fun category categoryTerms =>
    categoryTerms ++ ((categorized.get? category).getD []).map PyStr.lower)
      (sortedBy id categorized.keys) builtinTerms category
  have hfilter : (sortedBy id categorized.keys).filter (fun k => id k = category) =
      List.replicate (if category ∈ sortedBy id categorized.keys then 1 else 0) category := by
    rw [← hnodup.count]
    exact List.filter_eq category
  refine hfold.trans ?_
  rw [hfilter]
  split_ifs with hmem
  · rfl
  · have hnone : categorized.get? category = none := by
      rw [OrderedDict.get?_eq_none_iff]
      exact fun h => hmem (mem_sortedBy.mpr h)
    rw [hnone]
    exact (List.append_nil _).symm

end

/-! ## The tables -/

/-- The built-in terms of a category. -/
def builtinOf (category : Str) : List Str := (builtinTerms.get? category).getD []

/-- The built-in terms of a rule's category that contain no keyword of the rule. -/
def foreignTerms (rule : CategoryRule) : List Str :=
  (builtinOf rule.category).filter (fun term => ¬ ∃ keyword ∈ rule.keywords, keyword <:+: term)

theorem keys_builtinTerms : builtinTerms.keys =
    categoryRules.map CategoryRule.category ++ ["non_gemmini_context".toList] := by
  decide +kernel

theorem categoryRules_nodup : (categoryRules.map CategoryRule.category).Nodup := by decide +kernel

/-- The foreign terms of each rule. -/
theorem foreignTerms_categoryRules : categoryRules.map foreignTerms =
    [["gemmini"], [], [], ["load_controller", "store_controller"], [], ["axi", "cache", "bus"]].map
      (fun terms => terms.map String.toList) := by
  decide +kernel

/-- No rule is about the categories without a rule. -/
theorem category_ne {rule : CategoryRule} (hrule : rule ∈ categoryRules) :
    rule.category ≠ "gemmini_other".toList ∧ rule.category ≠ "non_gemmini_context".toList := by
  have hall : ∀ rule ∈ categoryRules, rule.category ≠ "gemmini_other".toList ∧
      rule.category ≠ "non_gemmini_context".toList := by decide +kernel
  exact hall rule hrule

/-- A rule's category has `gemmini` among its built-in terms. -/
theorem gemmini_builtin : ∃ rule ∈ categoryRules, "gemmini".toList ∈ builtinOf rule.category := by
  decide +kernel

/-- Built-in terms are in lower case. -/
theorem lower_builtin [PyStr] {category term : Str} (hterm : term ∈ builtinOf category) :
    term ≠ [] ∧ PyStr.lower term = term := by
  have hall : ∀ e ∈ builtinTerms.entries, ∀ term ∈ e.2,
      term ≠ [] ∧ IsAscii term ∧ term.map Char.toLower = term := by decide +kernel
  unfold builtinOf at hterm
  cases hget : builtinTerms.get? category with
  | none =>
      rw [hget] at hterm
      cases hterm
  | some terms =>
      rw [hget] at hterm
      obtain ⟨hne, hascii, hlower⟩ :=
        hall _ ((OrderedDict.get?_eq_some_iff _ _ _).mp hget) term hterm
      exact ⟨hne, (PyStr.lower_ascii term hascii).trans hlower⟩

section

variable [PyStr]

/-! ## Rules and module names -/

theorem categoryFor_of_some {m : Str} {rule : CategoryRule}
    (h : categoryRules.find? (fun rule => HasKeyword m rule.keywords) = some rule) :
    categoryFor m = rule.category := by
  unfold categoryFor
  rw [h]

theorem categoryFor_of_none {m : Str}
    (h : categoryRules.find? (fun rule => HasKeyword m rule.keywords) = none) :
    categoryFor m = if HasKeyword m ["gemmini".toList] then "gemmini_other".toList
      else "non_gemmini_context".toList := by
  unfold categoryFor
  rw [h]

/-- A module in the category of a rule has one of the rule's keywords. -/
theorem hasKeyword_of_categoryFor {m : Str} {rule : CategoryRule} (hrule : rule ∈ categoryRules)
    (h : categoryFor m = rule.category) : HasKeyword m rule.keywords := by
  cases hfind : categoryRules.find? (fun rule => HasKeyword m rule.keywords) with
  | some rule' =>
      rw [categoryFor_of_some hfind] at h
      obtain rfl := List.inj_on_of_nodup_map categoryRules_nodup (List.mem_of_find?_eq_some hfind)
        hrule h
      simpa using List.find?_some hfind
  | none =>
      rw [categoryFor_of_none hfind] at h
      split_ifs at h
      · exact absurd h.symm (category_ne hrule).1
      · exact absurd h.symm (category_ne hrule).2

theorem matches_iff_of_lower {m term : Str} (hne : term ≠ []) (hlower : PyStr.lower term = term) :
    Matches m term ↔ term <:+: PyStr.lower m := by
  unfold Matches
  rw [hlower]
  exact and_iff_right hne

/-! ## Two first matches -/

/-- A foreign term of the rule's category occurs in the name. -/
def HasForeignTerm (m : Str) (rule : CategoryRule) : Prop := HasKeyword m (foreignTerms rule)

/-- The name matches a term of the category in the map that is read back. -/
def MatchesCategory (modules : RtlModules) (m category : Str) : Prop :=
  MatchesAny m (((extendedTerms (categorized modules.files)).get? category).getD [])

instance (modules : RtlModules) (m category : Str) :
    Decidable (MatchesCategory modules m category) :=
  inferInstanceAs (Decidable (MatchesAny m _))

/-- **What belongs to a category that is read back**: names with a built-in term, and names
that a module of the category occurs in. -/
theorem matchesCategory_iff (modules : RtlModules) (m category : Str) :
    MatchesCategory modules m category ↔
      (∃ term ∈ builtinOf category, term <:+: PyStr.lower m) ∨
        ∃ x ∈ modules.files.keys, categoryFor x = category ∧ PyStr.lower x <:+: PyStr.lower m := by
  have hbuiltin : ∀ term ∈ builtinOf category, (Matches m term ↔ term <:+: PyStr.lower m) := by
    intro term hterm
    obtain ⟨hne, hlower⟩ := lower_builtin hterm
    exact matches_iff_of_lower hne hlower
  have hmember : ∀ x ∈ modules.files.keys,
      (Matches m (PyStr.lower x) ↔ PyStr.lower x <:+: PyStr.lower m) := by
    intro x hx
    have hid := modules.isIdentifier x hx
    refine matches_iff_of_lower (fun hnil => hid.ne_nil ?_) (lower_lower hid.isAscii)
    rwa [PyStr.lower_ascii x hid.isAscii, List.map_eq_nil_iff] at hnil
  have hmem : ∀ x, x ∈ (sortedBy id modules.files.keys).filter (fun m => categoryFor m = category) ↔
      x ∈ modules.files.keys ∧ categoryFor x = category := by
    intro x
    rw [List.mem_filter, mem_sortedBy, decide_eq_true_eq]
  unfold MatchesCategory MatchesAny
  rw [getD_extendedTerms, members_categorized]
  constructor
  · rintro ⟨term, hterm, hmatch⟩
    rcases List.mem_append.mp hterm with hterm | hterm
    · exact Or.inl ⟨term, hterm, (hbuiltin term hterm).mp hmatch⟩
    · obtain ⟨x, hx, rfl⟩ := List.mem_map.mp hterm
      obtain ⟨hx, hcategory⟩ := (hmem x).mp hx
      exact Or.inr ⟨x, hx, hcategory, (hmember x hx).mp hmatch⟩
  · rintro (⟨term, hterm, hmatch⟩ | ⟨x, hx, hcategory, hmatch⟩)
    · exact ⟨term, List.mem_append_left _ hterm, (hbuiltin term hterm).mpr hmatch⟩
    · have hlower := List.mem_map_of_mem (f := PyStr.lower) ((hmem x).mpr ⟨hx, hcategory⟩)
      exact ⟨PyStr.lower x, List.mem_append_right _ hlower, (hmember x hx).mpr hmatch⟩

/-- A module matches its own category. -/
theorem matchesCategory_self {modules : RtlModules} {m : Str} (hm : m ∈ modules.files.keys) :
    MatchesCategory modules m (categoryFor m) :=
  (matchesCategory_iff modules m _).mpr (Or.inr ⟨m, hm, rfl, List.infix_rfl⟩)

/-- `classify` looks through the categories of the rules, then through the others. -/
theorem classify_eq_find? (modules : RtlModules) (m : Str) :
    ∃ rest, classify m (extendedTerms (categorized modules.files)) =
      (((categoryRules.find? (fun rule => MatchesCategory modules m rule.category)).map
        CategoryRule.category).or
          (("non_gemmini_context".toList :: rest).find? (MatchesCategory modules m ·))).getD
            "other".toList := by
  obtain ⟨rest, hrest⟩ := exists_keys_extendedTerms (categorized modules.files)
  refine ⟨rest, ?_⟩
  rw [classify_eq_firstKey, OrderedDict.firstKey_eq_find? _ _ [], hrest, keys_builtinTerms,
    List.append_assoc, List.find?_append, List.find?_map]
  rfl

theorem classify_of_some {modules : RtlModules} {m : Str} {rule : CategoryRule}
    (h : categoryRules.find? (fun rule => MatchesCategory modules m rule.category) = some rule) :
    classify m (extendedTerms (categorized modules.files)) = rule.category := by
  obtain ⟨rest, hclassify⟩ := classify_eq_find? modules m
  rw [hclassify, h]
  rfl

theorem classify_of_none {modules : RtlModules} {m : Str}
    (h : categoryRules.find? (fun rule => MatchesCategory modules m rule.category) = none)
    (hcontext : MatchesCategory modules m "non_gemmini_context".toList) :
    classify m (extendedTerms (categorized modules.files)) = "non_gemmini_context".toList := by
  obtain ⟨rest, hclassify⟩ := classify_eq_find? modules m
  have hfind : ("non_gemmini_context".toList :: rest).find? (MatchesCategory modules m ·)
      = some "non_gemmini_context".toList := List.find?_cons_of_pos (decide_eq_true hcontext)
  rw [hclassify, h, hfind]
  rfl

/-- **The two first matches decide.** -/
theorem classify_eq_iff {modules : RtlModules} {m : Str} (hm : m ∈ modules.files.keys) :
    classify m (extendedTerms (categorized modules.files)) = categoryFor m ↔
      categoryRules.find? (fun rule => MatchesCategory modules m rule.category)
        = categoryRules.find? (fun rule => HasKeyword m rule.keywords) := by
  have hself := matchesCategory_self hm
  cases hmatch : categoryRules.find? (fun rule => MatchesCategory modules m rule.category) with
  | some rule =>
      have hrule := List.mem_of_find?_eq_some hmatch
      rw [classify_of_some hmatch]
      cases hkeyword : categoryRules.find? (fun rule => HasKeyword m rule.keywords) with
      | some rule' =>
          have hrule' := List.mem_of_find?_eq_some hkeyword
          rw [categoryFor_of_some hkeyword, Option.some_inj]
          constructor
          · exact List.inj_on_of_nodup_map categoryRules_nodup hrule hrule'
          · exact congrArg CategoryRule.category
      | none =>
          rw [categoryFor_of_none hkeyword]
          refine iff_of_false ?_ (fun h => by cases h)
          split_ifs
          · exact (category_ne hrule).1
          · exact (category_ne hrule).2
  | none =>
      have hnone : ∀ rule ∈ categoryRules, ¬ MatchesCategory modules m rule.category :=
        fun rule hrule h => List.find?_eq_none.mp hmatch rule hrule (decide_eq_true h)
      cases hkeyword : categoryRules.find? (fun rule => HasKeyword m rule.keywords) with
      | some rule =>
          -- impossible: the module itself is among the terms of the rule's category
          rw [categoryFor_of_some hkeyword] at hself
          exact absurd hself (hnone rule (List.mem_of_find?_eq_some hkeyword))
      | none =>
          have hgemmini : ¬ HasKeyword m ["gemmini".toList] := by
            rintro ⟨keyword, hmem, hoccurs⟩
            obtain ⟨rule, hrule, hbuiltin⟩ := gemmini_builtin
            rw [List.mem_singleton] at hmem
            exact hnone rule hrule ((matchesCategory_iff modules m rule.category).mpr
              (Or.inl ⟨_, hbuiltin, hmem ▸ hoccurs⟩))
          have hcategory := categoryFor_of_none hkeyword
          rw [if_neg hgemmini] at hcategory
          rw [hcategory] at hself
          exact iff_of_true ((classify_of_none hmatch hself).trans hcategory.symm) rfl

/-- **When the first matches agree.**  A rule's category matches a name through a keyword or
through a foreign term, so a foreign term must not come before the first keyword. -/
theorem find?_matchesCategory_iff {modules : RtlModules} {m : Str} (hm : m ∈ modules.files.keys) :
    categoryRules.find? (fun rule => MatchesCategory modules m rule.category)
        = categoryRules.find? (fun rule => HasKeyword m rule.keywords) ↔
      ∀ (i : ℕ) (h : i < categoryRules.length), HasForeignTerm m categoryRules[i] →
        ∃ rule ∈ categoryRules.take (i + 1), HasKeyword m rule.keywords := by
  apply find?_eq_find?_iff
  · intro rule hfind
    rw [← categoryFor_of_some hfind]
    exact matchesCategory_self hm
  · intro rule hrule hmatch
    rcases (matchesCategory_iff modules m rule.category).mp hmatch with
      ⟨term, hterm, hoccurs⟩ | ⟨x, _, hx, hoccurs⟩
    · by_cases hkeyword : ∃ keyword ∈ rule.keywords, keyword <:+: term
      · obtain ⟨keyword, hmem, hinfix⟩ := hkeyword
        exact Or.inl ⟨keyword, hmem, hinfix.trans hoccurs⟩
      · exact Or.inr ⟨term, List.mem_filter.mpr ⟨hterm, by simpa using hkeyword⟩, hoccurs⟩
    · -- a keyword of the shorter name is one of the longer name
      obtain ⟨keyword, hmem, hinfix⟩ := hasKeyword_of_categoryFor hrule hx
      exact Or.inl ⟨keyword, hmem, hinfix.trans hoccurs⟩
  · rintro rule _ ⟨term, hterm, hoccurs⟩
    exact (matchesCategory_iff modules m rule.category).mpr
      (Or.inl ⟨term, (List.mem_filter.mp hterm).1, hoccurs⟩)

/-! ## Agreement -/

/-- Each term that only `classify` knows comes with a keyword: of its own category or of one
before it. -/
def BucketsAgree (m : Str) : Prop :=
  (HasKeyword m ["gemmini".toList] → ∃ rule ∈ categoryRules.take 1, HasKeyword m rule.keywords) ∧
    (HasKeyword m ["load_controller".toList, "store_controller".toList] →
      ∃ rule ∈ categoryRules.take 4, HasKeyword m rule.keywords) ∧
    (HasKeyword m ["axi".toList, "cache".toList, "bus".toList] →
      ∃ rule ∈ categoryRules, HasKeyword m rule.keywords)

instance : DecidablePred BucketsAgree := fun _ => inferInstanceAs (Decidable (_ ∧ _ ∧ _))

theorem bucketsAgree_iff (m : Str) : BucketsAgree m ↔
    ∀ (i : ℕ) (h : i < categoryRules.length), HasForeignTerm m categoryRules[i] →
      ∃ rule ∈ categoryRules.take (i + 1), HasKeyword m rule.keywords := by
  have hforeign : ∀ (i : ℕ) (h : i < categoryRules.length), HasForeignTerm m categoryRules[i] ↔
      HasKeyword m (([["gemmini"], [], [], ["load_controller", "store_controller"], [],
        ["axi", "cache", "bus"]].map (fun terms => terms.map String.toList)).getD i []) := by
    intro i h
    rw [← foreignTerms_categoryRules, List.getD_eq_getElem?_getD, List.getElem?_map,
      List.getElem?_eq_getElem h]
    rfl
  have hnothing : ¬ HasKeyword m [] := by
    rintro ⟨keyword, hkeyword, _⟩
    cases hkeyword
  have htake : categoryRules.take 6 = categoryRules := List.take_of_length_le (le_of_eq rfl)
  constructor
  · rintro ⟨hpe, hdma, hsoc⟩ i h hterm
    rw [hforeign i h] at hterm
    have hi : i < 6 := h
    interval_cases i
    · exact hpe hterm
    · exact absurd hterm hnothing
    · exact absurd hterm hnothing
    · exact hdma hterm
    · exact absurd hterm hnothing
    · exact htake.symm ▸ hsoc hterm
  · intro hall
    refine ⟨fun h => ?_, fun h => ?_, fun h => ?_⟩
    · exact hall 0 (by decide) ((hforeign 0 (by decide)).mpr h)
    · exact hall 3 (by decide) ((hforeign 3 (by decide)).mpr h)
    · exact htake ▸ hall 5 (by decide) ((hforeign 5 (by decide)).mpr h)

/-- **The two bucketings**: a module of the map, taken as a path, goes to the bucket that
the map puts it in, exactly if the terms that only `classify` knows do not get in the way. -/
theorem classify_eq_categoryFor_iff (modules : RtlModules) :
    ∃ terms, loadCategoryTerms (some modules.hierarchyMap) = .ok terms ∧
      ∀ m ∈ modules.files.keys, (classify m terms = categoryFor m ↔ BucketsAgree m) := by
  refine ⟨_, loadCategoryTerms_writeYaml modules.files (categorized modules.files), fun m hm => ?_⟩
  rw [classify_eq_iff hm, find?_matchesCategory_iff hm, bucketsAgree_iff]

end

/-! ## Two inventories -/

/-- Modules declared in one file. -/
def moduleFiles (names : List String) : OrderedDict Str (List Str) :=
  OrderedDict.ofList (names.map (fun name => (name.toList, ["top.sv".toList])))

/-- The top module of the accelerator. -/
def gemminiModules : RtlModules where
  files := moduleFiles ["Gemmini"]
  isIdentifier := by decide +kernel

/-- `Gemmini` is listed under `gemmini_other` and counted under `pe_array`. -/
theorem classify_ne_categoryFor_gemmini :
    ∃ terms, @loadCategoryTerms asciiStr (some (@RtlModules.hierarchyMap asciiStr gemminiModules))
        = .ok terms ∧
      ∃ m ∈ gemminiModules.files.keys, @categoryFor asciiStr m = "gemmini_other".toList ∧
        @classify asciiStr m terms = "pe_array".toList := by
  refine ⟨_, @loadCategoryTerms_writeYaml asciiStr _ _, "Gemmini".toList, ?_, ?_, ?_⟩
  · decide +kernel
  · decide +kernel
  · decide +kernel

/-- Modules that the two bucketings agree on. -/
def meshModules : RtlModules where
  files := moduleFiles ["Mesh", "MeshWithDelays", "Scratchpad", "TLBuffer", "Queue"]
  isIdentifier := by decide +kernel

theorem classify_eq_categoryFor_mesh :
    ∃ terms, @loadCategoryTerms asciiStr (some (@RtlModules.hierarchyMap asciiStr meshModules))
        = .ok terms ∧
      ∀ m ∈ meshModules.files.keys, @classify asciiStr m terms = @categoryFor asciiStr m := by
  have hagree : ∀ m ∈ meshModules.files.keys, @BucketsAgree asciiStr m := by decide +kernel
  obtain ⟨terms, hload, hiff⟩ := @classify_eq_categoryFor_iff asciiStr meshModules
  exact ⟨terms, hload, fun m hm => (hiff m hm).mpr (hagree m hm)⟩

end Inventory
