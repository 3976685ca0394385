/-
# Extending the hierarchy map

How the region of a path depends on the hierarchy map.  A map only adds terms: categories
keep their place, new ones go to the end, and a category's terms are the built-in ones
followed by the modules that the map lists.  So a path that a built-in term decides stays
with its category or moves forward (`classify_load`), and more modules under one category
move paths to that category only (`classify_extends`).
-/
import ThermalPlacement.CategoryTerms

open PyText

namespace Activity

section

variable [PyStr]

/-! ## What a map adds -/

/-- The categories of a document, as `load_category_terms` finds them. -/
def documentCategories (document : Option Yaml) : OrderedDict Str Yaml :=
  match document with
  | none => .empty
  | some data =>
      match (if data.truthy then data else .map []) with
      | .map entries =>
          match ((OrderedDict.ofList entries).get? "categories".toList).getD (.map []) with
          | .map categories => OrderedDict.ofList categories
          | _ => .empty
      | _ => .empty

/-- The module names that the entry of a category lists. -/
def moduleNames (value : Yaml) : List Str :=
  match categoryModules value with
  | .ok modules => modules.map Yaml.text
  | .error _ => []

/-- The module names that a document lists under a category. -/
def listedModules (document : Option Yaml) (category : Str) : List Str :=
  (((documentCategories document).get? category).map moduleNames).getD []

/-- One entry of a map. -/
def addEntry (terms : Terms) (e : Str × Yaml) : Terms :=
  terms.upsert e.1 [] (fun categoryTerms => categoryTerms ++ (moduleNames e.2).map PyStr.lower)

theorem foldlM_addModules_eq {categories : List (Str × Yaml)} {terms terms' : Terms}
    (h : categories.foldlM (fun terms e => (categoryModules e.2).map (addModules terms e.1)) terms
      = .ok terms') : terms' = categories.foldl addEntry terms := by
  induction categories generalizing terms with
  | nil => exact (Except.ok.inj h).symm
  | cons e categories ih =>
      rw [List.foldlM_cons] at h
      obtain ⟨added, hadded, h⟩ := exists_of_bind_eq_ok h
      obtain ⟨modules, hmodules, rfl⟩ := exists_of_map_eq_ok hadded
      have hentry : addModules terms e.1 modules = addEntry terms e := by
        unfold addModules addEntry moduleNames
        rw [hmodules]
        dsimp only
        rw [List.map_map]
        rfl
      rw [List.foldl_cons, ← hentry]
      exact ih h

/-- **What `load_category_terms` returns**, if it returns. -/
theorem terms_eq_foldl {document : Option Yaml} {terms : Terms}
    (h : loadCategoryTerms document = .ok terms) :
    terms = (documentCategories document).entries.foldl addEntry builtinTerms := by
  unfold loadCategoryTerms at h
  unfold documentCategories
  cases document with
  | none => exact (Except.ok.inj h).symm
  | some data =>
      dsimp only at h ⊢
      generalize (if data.truthy = true then data else Yaml.map []) = contents at h ⊢
      cases contents with
      | map entries =>
          dsimp only at h ⊢
          generalize ((OrderedDict.ofList entries).get? "categories".toList).getD (Yaml.map [])
            = categories at h ⊢
          cases categories with
          | map categories => exact foldlM_addModules_eq h
          | _ => cases h
      | _ => cases h

/-- The built-in categories keep their places; new ones follow in the order of the map. -/
theorem keys_load {document : Option Yaml} {terms : Terms}
    (h : loadCategoryTerms document = .ok terms) :
    terms.keys = builtinTerms.keys ++
      ((documentCategories document).keys.removeAll builtinTerms.keys).eraseDups := by
  rw [terms_eq_foldl h]
  exact OrderedDict.keys_foldl_upsert Prod.fst []
    (fun e categoryTerms => categoryTerms ++ (moduleNames e.2).map PyStr.lower) _ _

/-- **The terms of a category**: the built-in ones, then the listed modules in lower case. -/
theorem getD_load {document : Option Yaml} {terms : Terms}
    (h : loadCategoryTerms document = .ok terms) (category : Str) :
    (terms.get? category).getD [] = (builtinTerms.get? category).getD [] ++
      (listedModules document category).map PyStr.lower := by
  have hfold := OrderedDict.getD_foldl_upsert Prod.fst []
    (fun e categoryTerms => categoryTerms ++ (moduleNames e.2).map PyStr.lower)
    (documentCategories document).entries builtinTerms category
  rw [terms_eq_foldl h]
  refine hfold.trans ?_
  rw [OrderedDict.filter_entries]
  unfold listedModules OrderedDict.get?
  cases (documentCategories document).entries.find? (fun e => e.1 = category) with
  | none => exact (List.append_nil _).symm
  | some e => rfl

/-! ## Paths under a map -/

theorem classify_eq_find?_keys (path : Str) (terms : Terms) :
    classify path terms = (terms.keys.find?
      (fun category => MatchesAny path ((terms.get? category).getD []))).getD "other".toList := by
  rw [classify_eq_firstKey, OrderedDict.firstKey_eq_find? _ _ []]

theorem MatchesAny.mono {path : Str} {categoryTerms categoryTerms' : List Str}
    (hsub : ∀ term ∈ categoryTerms, term ∈ categoryTerms') (h : MatchesAny path categoryTerms) :
    MatchesAny path categoryTerms' := by
  obtain ⟨term, hterm, hmatch⟩ := h
  exact ⟨term, hsub term hterm, hmatch⟩

/-- **A path that a built-in term decides** stays in its category, or goes to a built-in category
that stands before it. -/
theorem classify_load {document : Option Yaml} {terms : Terms}
    (h : loadCategoryTerms document = .ok terms) {path : Str}
    (hother : classify path builtinTerms ≠ "other".toList) :
    classify path terms = classify path builtinTerms ∨
      [classify path terms, classify path builtinTerms].Sublist builtinTerms.keys := by
  rw [classify_eq_find?_keys path builtinTerms] at hother ⊢
  cases hfind : builtinTerms.keys.find?
      (fun category => MatchesAny path ((builtinTerms.get? category).getD [])) with
  | none =>
      rw [hfind] at hother
      exact absurd rfl hother
  | some c =>
      have hmono : ∀ category ∈ builtinTerms.keys,
          MatchesAny path ((builtinTerms.get? category).getD []) →
            MatchesAny path ((terms.get? category).getD []) := by
        intro category _ hmatch
        rw [getD_load h]
        exact hmatch.mono (fun term hterm => List.mem_append_left _ hterm)
      obtain ⟨b, hb, hbefore⟩ := find?_mono hmono hfind
      have hclassify : classify path terms = b := by
        rw [classify_eq_find?_keys, keys_load h, List.find?_append, hb]
        rfl
      rw [hclassify]
      exact hbefore

/-- The second document lists more modules under one category that exists, and is otherwise
like the first. -/
structure ExtendsAt (category : Str) (document document' : Option Yaml) : Prop where
  newCategories : (documentCategories document').keys.filter (· ∉ builtinTerms.keys)
    = (documentCategories document).keys.filter (· ∉ builtinTerms.keys)
  other : ∀ c, c ≠ category → listedModules document' c = listedModules document c
  more : ∀ name ∈ listedModules document category, name ∈ listedModules document' category

/-- **More modules under one category** move paths to that category only. -/
theorem classify_extends {category : Str} {document document' : Option Yaml} {terms terms' : Terms}
    (hext : ExtendsAt category document document') (h : loadCategoryTerms document = .ok terms)
    (h' : loadCategoryTerms document' = .ok terms') (path : Str) :
    classify path terms' = classify path terms ∨ classify path terms' = category := by
  have hkeys : terms'.keys = terms.keys := by
    have hremove : ∀ l : List Str, l.removeAll builtinTerms.keys
        = l.filter (· ∉ builtinTerms.keys) := by
      intro l
      unfold List.removeAll
      exact List.filter_congr (fun c _ => by simp)
    rw [keys_load h, keys_load h', hremove, hremove, hext.newCategories]
  have hother : ∀ c ∈ terms.keys, c ≠ category →
      (MatchesAny path ((terms.get? c).getD []) ↔ MatchesAny path ((terms'.get? c).getD [])) := by
    intro c _ hc
    rw [getD_load h, getD_load h', hext.other c hc]
  have hmore : MatchesAny path ((terms.get? category).getD []) →
      MatchesAny path ((terms'.get? category).getD []) := by
    rw [getD_load h, getD_load h']
    refine MatchesAny.mono (fun term hterm => ?_)
    rcases List.mem_append.mp hterm with hterm | hterm
    · exact List.mem_append_left _ hterm
    · obtain ⟨name, hname, rfl⟩ := List.mem_map.mp hterm
      exact List.mem_append_right _ (List.mem_map_of_mem (hext.more name hname))
  rw [classify_eq_find?_keys, classify_eq_find?_keys, hkeys]
  rcases find?_eq_or_eq_some hother hmore with hsame | hmoved
  · exact Or.inl (by rw [hsame])
  · exact Or.inr (by rw [hmoved]; rfl)

/-- **Extending the map moves paths only where it says.** -/
theorem map_extension :
    (∀ (document : Option Yaml) (terms : Terms), loadCategoryTerms document = .ok terms →
      ∀ path, classify path builtinTerms ≠ "other".toList →
        (classify path terms = classify path builtinTerms ∨
          [classify path terms, classify path builtinTerms].Sublist builtinTerms.keys) ∧
        classify path terms ∈ builtinTerms.keys ∧ classify path terms ≠ "other".toList) ∧
    (∀ (category : Str) (document document' : Option Yaml) (terms terms' : Terms),
      ExtendsAt category document document' → loadCategoryTerms document = .ok terms →
        loadCategoryTerms document' = .ok terms' → ∀ path,
          classify path terms' = classify path terms ∨ classify path terms' = category) := by
  refine ⟨fun document terms h path hpath => ?_,
    fun category document document' terms terms' hext h h' path => classify_extends hext h h' path⟩
  have hload := classify_load h hpath
  have hbuiltin : classify path builtinTerms ∈ builtinTerms.keys := by
    rw [classify_eq_find?_keys] at hpath ⊢
    cases hfind : builtinTerms.keys.find?
        (fun category => MatchesAny path ((builtinTerms.get? category).getD [])) with
    | none =>
        rw [hfind] at hpath
        exact absurd rfl hpath
    | some c => exact List.mem_of_find?_eq_some hfind
  have hmem : classify path terms ∈ builtinTerms.keys := by
    rcases hload with hsame | hbefore
    · rw [hsame]
      exact hbuiltin
    · exact hbefore.subset List.mem_cons_self
  refine ⟨hload, hmem, fun hother => ?_⟩
  rw [hother] at hmem
  exact absurd hmem (by decide +kernel)

end

/-! ## A map with a category of its own -/

/-- A map that lists modules under the category `dram`. -/
def dramMap (names : List String) : Option Yaml :=
  some (.map [("categories".toList,
    .map [("dram".toList, .map [("modules".toList, .seq (names.map (fun n => .str n.toList)))])])])

/-- The terms it is read as. -/
def dramTerms (names : List String) : Terms :=
  builtinTerms.upsert "dram".toList []
    (fun categoryTerms => categoryTerms ++ names.map (fun n => n.toList.map Char.toLower))

theorem load_dramMap (names : List String) :
    @loadCategoryTerms asciiStr (dramMap names) = .ok (dramTerms names) := by
  have hmap : (names.map (fun n => Yaml.str n.toList)).map
        (fun module => @PyStr.lower asciiStr (@Yaml.text asciiStr module))
      = names.map (fun n => n.toList.map Char.toLower) := by
    rw [List.map_map]
    rfl
  unfold dramTerms
  rw [← hmap]
  rfl

theorem listedModules_dramMap (names : List String) (category : Str) :
    @listedModules asciiStr (dramMap names) category
      = if category = "dram".toList then names.map String.toList else [] := by
  have hget : (documentCategories (dramMap names)).get? category = if category = "dram".toList
      then some (.map [("modules".toList, .seq (names.map (fun n => .str n.toList)))])
      else none := by
    set value : Yaml := .map [("modules".toList, .seq (names.map (fun n => .str n.toList)))]
    have hentries : (OrderedDict.ofList [("dram".toList, value)]).entries
        = [("dram".toList, value)] := OrderedDict.entries_ofList (by simp)
    show (OrderedDict.ofList [("dram".toList, value)]).get? category = _
    unfold OrderedDict.get?
    rw [hentries]
    by_cases hc : category = "dram".toList
    · rw [if_pos hc, hc]
      rfl
    · rw [if_neg hc, List.find?_cons_of_neg (by simpa using Ne.symm hc)]
      rfl
  unfold listedModules
  rw [hget]
  split_ifs
  · show (names.map (fun n => Yaml.str n.toList)).map (@Yaml.text asciiStr) = _
    rw [List.map_map]
    rfl
  · rfl

theorem extendsAt_dramMap {names names' : List String} (h : ∀ n ∈ names, n ∈ names') :
    @ExtendsAt asciiStr "dram".toList (dramMap names) (dramMap names') := by
  refine @ExtendsAt.mk asciiStr _ _ _ rfl (fun c hc => ?_) (fun name hname => ?_)
  · rw [listedModules_dramMap, listedModules_dramMap, if_neg hc, if_neg hc]
  · rw [listedModules_dramMap, if_pos rfl] at hname ⊢
    obtain ⟨n, hn, rfl⟩ := List.mem_map.mp hname
    exact List.mem_map_of_mem (h n hn)

/-- Listing `Phy` moves `soc.phy.d` to `dram` or leaves it where it was, and a path of the mesh
stays in a built-in category. -/
theorem map_extension_dram :
    @classify asciiStr "soc.phy.d".toList (dramTerms ["Bank"]) = "other".toList ∧
      (@classify asciiStr "soc.phy.d".toList (dramTerms ["Bank", "Phy"]) = "other".toList ∨
        @classify asciiStr "soc.phy.d".toList (dramTerms ["Bank", "Phy"]) = "dram".toList) ∧
      @classify asciiStr "soc.mesh.phy".toList (dramTerms ["Bank", "Phy"]) ∈ builtinTerms.keys := by
  obtain ⟨hbuiltin, hmore⟩ := @map_extension asciiStr
  have hother : @classify asciiStr "soc.phy.d".toList (dramTerms ["Bank"]) = "other".toList := by
    decide +kernel
  refine ⟨hother, ?_, ?_⟩
  · have hmoved := hmore "dram".toList _ _ _ _ (extendsAt_dramMap (by simp))
      (load_dramMap ["Bank"]) (load_dramMap ["Bank", "Phy"]) "soc.phy.d".toList
    rwa [hother] at hmoved
  · exact (hbuiltin _ _ (load_dramMap ["Bank", "Phy"]) "soc.mesh.phy".toList
      (by decide +kernel)).2.1

end Activity
