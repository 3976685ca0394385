/-
# The names in a module hierarchy

`iter_hierarchy_names` of `scripts/inspect_gemmini_hierarchy.py` walks through a JSON document
and collects the texts under the name keys of its dictionaries.

`StepsTo` says where the walk may go: from a dictionary into the value under a child key, and
from a list into its elements.  `StandsAt` says that a name stands at a place: under a name key
of the dictionary to which a way leads.  `hierarchy_walk` says that every name is collected as
often as there are places at which it stands, and that the walk through an instance tree lists
its nodes in preorder.
-/
import ThermalPlacement.PyText
import ThermalPlacement.OrderedDict
import ThermalPlacement.StableSort
import ThermalPlacement.Ways

open PyText

namespace Inventory

/-! ## The walk -/

/-- A value that `json.loads` returns. -/
inductive Json where
  | null
  | bool (b : Bool)
  /-- An integer or a float, as it is written. -/
  | number (text : Str)
  | str (s : Str)
  | array (items : List Json)
  /-- The pairs of an object: of several pairs for a key the last one counts. -/
  | object (fields : List (Str × Json))

/-- `value.get(key)` of a dictionary. -/
def dictGet (fields : List (Str × Json)) (key : Str) : Option Json :=
  (OrderedDict.ofList fields).get? key

theorem dictGet_of_mem {fields : List (Str × Json)} (hnodup : (fields.map Prod.fst).Nodup)
    {key : Str} {value : Json} (h : (key, value) ∈ fields) : dictGet fields key = some value :=
  OrderedDict.get?_ofList hnodup h

theorem dictGet_eq_none {fields : List (Str × Json)} {key : Str} (h : key ∉ fields.map Prod.fst) :
    dictGet fields key = none := by
  rw [Option.eq_none_iff_forall_ne_some]
  exact fun value hget => h (List.mem_map_of_mem (OrderedDict.mem_of_get?_ofList hget))

/-- The keys under which the walk looks for names. -/
def nameKeys : List Str :=
  ["module_name", "module", "name", "class", "instance_name", "instance"].map String.toList

/-- The keys that the walk follows. -/
def childKeys : List Str := ["children", "instances", "modules", "hierarchy"].map String.toList

theorem sizeOf_lt_of_dictGet {fields : List (Str × Json)} {key : Str} {value : Json}
    (h : dictGet fields key = some value) : sizeOf value < sizeOf (Json.object fields) := by
  have hmem := List.sizeOf_lt_of_mem (OrderedDict.mem_of_get?_ofList h)
  simp only [Prod.mk.sizeOf_spec] at hmem
  simp only [Json.object.sizeOf_spec]
  omega

theorem sizeOf_lt_of_mem_items {items : List Json} {item : Json} (h : item ∈ items) :
    sizeOf item < sizeOf (Json.array items) := by
  have := List.sizeOf_lt_of_mem h
  simp only [Json.array.sizeOf_spec]
  omega

/-- `walk`, which appends to the names found so far. -/
def walk (names : List Str) : Json → List Str
  | .object fields =>
      let names := nameKeys.foldl (fun names key =>
        match dictGet fields key with
        | some (.str found) => names ++ [found]
        | _ => names) names
      childKeys.foldl (fun names childKey =>
        match _hchild : dictGet fields childKey with
        | none | some .null => names
        | some child => walk names child) names
  | .array items => items.foldl (fun names item => walk names item) names
  | _ => names
termination_by value => sizeOf value
decreasing_by
  · exact sizeOf_lt_of_dictGet _hchild
  · exact sizeOf_lt_of_mem_items ‹item ∈ items›

/-- `iter_hierarchy_names`. -/
def iterHierarchyNames (node : Json) : List Str := walk [] node

/-- `hierarchy_names` in `main`: the names, sorted and without repetition. -/
def hierarchyNames : Option Json → List Str
  | none | some .null => []
  | some hierarchy => sortedBy id (iterHierarchyNames hierarchy).dedup

/-! ## Where the walk goes -/

/-- A step into a value. -/
inductive Step where
  | key (key : Str)
  | index (i : ℕ)

/-- The steps that follow child keys and the elements of lists. -/
inductive StepsTo : Json → Step → Json → Prop
  | child {fields : List (Str × Json)} {key : Str} {value : Json} (hkey : key ∈ childKeys)
      (hget : dictGet fields key = some value) : StepsTo (.object fields) (.key key) value
  | element {items : List Json} {i : ℕ} {item : Json} (hitem : items[i]? = some item) :
      StepsTo (.array items) (.index i) item

/-- The name stands at a place, which is a way from the root to a dictionary and one of the
name keys. -/
def StandsAt (root : Json) (name : Str) (place : List Step × Str) : Prop :=
  ∃ fields, Way StepsTo root place.1 (.object fields) ∧ place.2 ∈ nameKeys ∧
    dictGet fields place.2 = some (.str name)

/-- The steps from a value in the order in which the walk takes them. -/
def steps : Json → List (Step × Json)
  | .object fields =>
      childKeys.filterMap (fun key => (dictGet fields key).map (fun value => (.key key, value)))
  | .array items => items.zipIdx.map (fun x => (.index x.2, x.1))
  | _ => []

/-- The texts under the name keys. -/
def namesOf : Json → List (Str × Str)
  | .object fields =>
      nameKeys.filterMap (fun key =>
        match dictGet fields key with
        | some (.str found) => some (key, found)
        | _ => none)
  | _ => []

theorem mem_steps {value child : Json} {s : Step} :
    (s, child) ∈ steps value ↔ StepsTo value s child := by
  constructor
  · intro h
    cases value with
    | object fields =>
        obtain ⟨key, hkey, hmap⟩ := List.mem_filterMap.mp h
        obtain ⟨value, hget, heq⟩ := Option.map_eq_some_iff.mp hmap
        cases heq
        exact .child hkey hget
    | array items =>
        obtain ⟨⟨item, i⟩, hmem, heq⟩ := List.mem_map.mp h
        cases heq
        exact .element (List.mk_mem_zipIdx_iff_getElem?.mp hmem)
    | _ => cases h
  · intro h
    cases h with
    | child hkey hget =>
        refine List.mem_filterMap.mpr ⟨_, hkey, ?_⟩
        rw [hget]
        rfl
    | element hitem =>
        exact List.mem_map.mpr ⟨(_, _), List.mk_mem_zipIdx_iff_getElem?.mpr hitem, rfl⟩

theorem nodup_steps (value : Json) : ((steps value).map Prod.fst).Nodup := by
  cases value with
  | object fields =>
      have hinjective : Function.Injective Step.key := fun k k' h => Step.key.inj h
      apply nodup_map_fst_filterMap hinjective
      · intro key x hx
        obtain ⟨value, -, rfl⟩ := Option.map_eq_some_iff.mp hx
        rfl
      · decide
  | array items =>
      have hindex : (steps (.array items)).map Prod.fst
          = (List.range items.length).map Step.index := by
        rw [List.range_eq_range', ← List.zipIdx_map_snd 0 items, List.map_map]
        show List.map _ (items.zipIdx.map _) = _
        rw [List.map_map]
        rfl
      rw [hindex]
      exact List.nodup_range.map (fun i j h => Step.index.inj h)
  | _ => exact List.nodup_nil

theorem sizeOf_lt_of_stepsTo {value child : Json} {s : Step} (h : StepsTo value s child) :
    sizeOf child < sizeOf value := by
  cases h with
  | child hkey hget => exact sizeOf_lt_of_dictGet hget
  | element hitem => exact sizeOf_lt_of_mem_items (List.mem_of_getElem? hitem)

/-- The walk branches over the steps. -/
def branching : Branching StepsTo where
  next := steps
  mem_next := mem_steps
  nodup_next := nodup_steps
  wf := (measure sizeOf).wf.mono (fun _ _ ⟨_, h⟩ => sizeOf_lt_of_stepsTo h)

theorem mem_namesOf {value : Json} {key name : Str} :
    (key, name) ∈ namesOf value ↔ ∃ fields, value = .object fields ∧ key ∈ nameKeys ∧
      dictGet fields key = some (.str name) := by
  cases value with
  | object fields =>
      unfold namesOf
      rw [List.mem_filterMap]
      constructor
      · rintro ⟨k, hk, hmatch⟩
        split at hmatch
        · next found hget =>
            cases hmatch
            exact ⟨fields, rfl, hk, hget⟩
        · cases hmatch
      · rintro ⟨_, heq, hkey, hget⟩
        cases heq
        refine ⟨key, hkey, ?_⟩
        rw [hget]
  | _ => simp [namesOf]

theorem nodup_namesOf (value : Json) : ((namesOf value).map Prod.fst).Nodup := by
  cases value with
  | object fields =>
      apply nodup_map_fst_filterMap Function.injective_id
      · intro key x hx
        split at hx
        · cases hx
          rfl
        · cases hx
      · decide
  | _ => exact List.nodup_nil

/-! ## What the walk collects -/

/-- The walk finds nothing in a value that is neither a dictionary nor a list. -/
theorem walk_of_ne {value : Json} (hobject : ∀ fields, value ≠ .object fields)
    (harray : ∀ items, value ≠ .array items) (names : List Str) : walk names value = names := by
  rw [walk]
  · exact hobject
  · exact harray

/-- The names of a dictionary. -/
theorem foldl_nameKeys (fields : List (Str × Json)) (names : List Str) :
    nameKeys.foldl (fun names key =>
        match dictGet fields key with
        | some (.str found) => names ++ [found]
        | _ => names) names
      = names ++ (namesOf (.object fields)).map Prod.snd := by
  unfold namesOf
  rw [List.map_filterMap, List.filterMap_eq_flatMap_toList]
  apply foldl_eq_append_flatMap
  intro acc key _
  cases dictGet fields key with
  | none => exact (List.append_nil acc).symm
  | some value =>
      cases value with
      | str found => rfl
      | _ => exact (List.append_nil acc).symm

/-- One value: its own names, then those of what the walk steps into. -/
theorem walk_eq {value : Json}
    (ih : ∀ s child, (s, child) ∈ steps value →
      ∀ names, walk names child = names ++ walk [] child)
    (names : List Str) :
    walk names value
      = names ++ ((namesOf value).map Prod.snd
        ++ (steps value).flatMap (fun x => walk [] x.2)) := by
  cases value with
  | object fields =>
      rw [walk, foldl_nameKeys, ← List.append_assoc, steps, List.filterMap_eq_flatMap_toList,
        List.flatMap_assoc]
      apply foldl_eq_append_flatMap
      intro acc key hkey
      split
      · next hget =>
          rw [hget]
          exact (List.append_nil acc).symm
      · next hget =>
          rw [hget]
          show acc = acc ++ (walk [] .null ++ [])
          rw [walk_of_ne (by simp) (by simp), List.append_nil]
          exact (List.append_nil acc).symm
      · next child _ hget =>
          rw [hget]
          show walk acc child = acc ++ (walk [] child ++ [])
          rw [List.append_nil]
          exact ih _ child (mem_steps.mpr (.child hkey hget)) acc
  | array items =>
      show _ = names ++ ([] ++ _)
      rw [walk, steps, List.flatMap_map, List.nil_append, flatMap_zipIdx (walk [])]
      apply foldl_eq_append_flatMap
      intro acc item hitem
      obtain ⟨i, hi⟩ := List.mem_iff_getElem?.mp hitem
      exact ih (.index i) item (mem_steps.mpr (.element hi)) acc
  | _ =>
      rw [walk_of_ne (by simp) (by simp)]
      exact (List.append_nil names).symm

/-- The names found before do not matter. -/
theorem walk_append (value : Json) : ∀ names, walk names value = names ++ walk [] value := by
  induction value using branching.step_induction with
  | h value ih =>
      intro names
      rw [walk_eq ih names, walk_eq ih [], List.nil_append]

theorem iterHierarchyNames_eq (value : Json) :
    iterHierarchyNames value
      = (namesOf value).map Prod.snd
        ++ (steps value).flatMap (fun x => iterHierarchyNames x.2) := by
  show walk [] value = _
  rw [walk_eq (fun _ child _ names => walk_append child names), List.nil_append]
  rfl

theorem iterHierarchyNames_array (items : List Json) :
    iterHierarchyNames (.array items) = items.flatMap iterHierarchyNames := by
  rw [iterHierarchyNames_eq, steps, List.flatMap_map]
  exact flatMap_zipIdx iterHierarchyNames items

/-- The names along all ways, in preorder. -/
theorem iterHierarchyNames_eq_flatMap (value : Json) :
    iterHierarchyNames value
      = (branching.ways value).flatMap (fun y => (namesOf y.2).map Prod.snd) :=
  branching.collect_eq iterHierarchyNames_eq value

/-- **Every name is found as often as it stands in the hierarchy.** -/
theorem encard_standsAt (root : Json) (name : Str) :
    {place | StandsAt root name place}.encard = (iterHierarchyNames root).count name := by
  rw [iterHierarchyNames_eq_flatMap, ← branching.encard_places nodup_namesOf root name]
  congr 1
  ext ⟨way, key⟩
  constructor
  · rintro ⟨fields, hway, hkey, hget⟩
    exact ⟨_, hway, mem_namesOf.mpr ⟨fields, rfl, hkey, hget⟩⟩
  · rintro ⟨value, hway, hmem⟩
    obtain ⟨fields, rfl, hkey, hget⟩ := mem_namesOf.mp hmem
    exact ⟨fields, hway, hkey, hget⟩

theorem mem_iterHierarchyNames {root : Json} {name : Str} :
    name ∈ iterHierarchyNames root ↔ ∃ place, StandsAt root name place := by
  rw [← List.count_pos_iff, ← Nat.cast_pos (α := ℕ∞), ← encard_standsAt, Set.encard_pos]
  rfl

/-- The report lists every name of the hierarchy. -/
theorem mem_hierarchyNames {hierarchy : Json} {name : Str} :
    name ∈ hierarchyNames (some hierarchy) ↔ ∃ place, StandsAt hierarchy name place := by
  rw [← mem_iterHierarchyNames]
  cases hierarchy with
  | null =>
      unfold iterHierarchyNames
      rw [walk_of_ne (by simp) (by simp)]
      rfl
  | _ => exact mem_sortedBy.trans List.mem_dedup

/-- The names in the report are sorted, none of them twice. -/
theorem pairwise_hierarchyNames (hierarchy : Option Json) :
    (hierarchyNames hierarchy).Pairwise (· < ·) := by
  unfold hierarchyNames
  split
  · exact List.Pairwise.nil
  · exact List.Pairwise.nil
  · next hierarchy _ =>
      have hnodup : ((iterHierarchyNames hierarchy).dedup.map id).Nodup := by
        rw [List.map_id]
        exact List.nodup_dedup _
      have hlt := pairwise_lt_sortedBy hnodup
      rwa [List.map_id] at hlt

/-! ## Instance trees -/

/-- An instance of a module with the instances inside it. -/
inductive InstanceTree where
  | node (instanceName moduleName : Str) (instances : List InstanceTree)

namespace InstanceTree

/-- The name of the instance at the root. -/
def instanceName : InstanceTree → Str
  | node instanceName _ _ => instanceName

/-- The name of its module. -/
def moduleName : InstanceTree → Str
  | node _ moduleName _ => moduleName

mutual
/-- The nodes of a tree in preorder. -/
def nodes : InstanceTree → List InstanceTree
  | node instanceName moduleName instances =>
      node instanceName moduleName instances :: forestNodes instances

/-- The nodes of several trees, one tree after the other. -/
def forestNodes : List InstanceTree → List InstanceTree
  | [] => []
  | tree :: trees => tree.nodes ++ forestNodes trees
end

/-- The keys of a node. -/
def nodeKeys : List Str := ["instance_name", "module_name", "instances"].map String.toList

/-- The entries of a node in the list of names. -/
def entries (node : InstanceTree) : List Str := [node.moduleName, node.instanceName]

end InstanceTree

/-- A tree as JSON: every node is a dictionary with its two names and the list of its
instances, and without any other key that the walk looks at. -/
inductive IsInstanceTree : Json → InstanceTree → Prop
  | node {fields : List (Str × Json)} {instanceName moduleName : Str} {items : List Json}
      {instances : List InstanceTree}
      (hinstanceName : dictGet fields "instance_name".toList = some (.str instanceName))
      (hmoduleName : dictGet fields "module_name".toList = some (.str moduleName))
      (hinstances : dictGet fields "instances".toList = some (.array items))
      (hother : ∀ key ∈ nameKeys ++ childKeys, key ∉ InstanceTree.nodeKeys →
        dictGet fields key = none)
      (hitems : List.Forall₂ IsInstanceTree items instances) :
      IsInstanceTree (.object fields) (.node instanceName moduleName instances)

/-- A node of an instance tree: its two names, then those of its instances. -/
theorem iterHierarchyNames_node {fields : List (Str × Json)} {instanceName moduleName : Str}
    {items : List Json}
    (hinstanceName : dictGet fields "instance_name".toList = some (.str instanceName))
    (hmoduleName : dictGet fields "module_name".toList = some (.str moduleName))
    (hinstances : dictGet fields "instances".toList = some (.array items))
    (hother : ∀ key ∈ nameKeys ++ childKeys, key ∉ InstanceTree.nodeKeys →
      dictGet fields key = none) :
    iterHierarchyNames (.object fields)
      = moduleName :: instanceName :: items.flatMap iterHierarchyNames := by
  have hnames : namesOf (.object fields)
      = [("module_name".toList, moduleName), ("instance_name".toList, instanceName)] := by
    rw [namesOf, nameKeys]
    simp only [List.map_cons, List.map_nil, List.filterMap_cons, List.filterMap_nil, hmoduleName,
      hinstanceName, hother "module".toList (by decide) (by decide),
      hother "name".toList (by decide) (by decide), hother "class".toList (by decide) (by decide),
      hother "instance".toList (by decide) (by decide)]
  have hsteps : steps (.object fields) = [(.key "instances".toList, .array items)] := by
    rw [steps, childKeys]
    simp only [List.map_cons, List.map_nil, List.filterMap_cons, List.filterMap_nil, hinstances,
      hother "children".toList (by decide) (by decide), Option.map_none, Option.map_some,
      hother "modules".toList (by decide) (by decide),
      hother "hierarchy".toList (by decide) (by decide)]
  rw [iterHierarchyNames_eq, hnames, hsteps, List.flatMap_singleton, iterHierarchyNames_array]
  rfl

mutual
theorem iterHierarchyNames_tree : ∀ (tree : InstanceTree) {json : Json},
    IsInstanceTree json tree → iterHierarchyNames json = tree.nodes.flatMap InstanceTree.entries
  | .node instanceName moduleName instances, _, h => by
      cases h with
      | node hinstanceName hmoduleName hinstances hother hitems =>
          rw [iterHierarchyNames_node hinstanceName hmoduleName hinstances hother,
            iterHierarchyNames_forest instances hitems, InstanceTree.nodes, List.flatMap_cons]
          rfl

theorem iterHierarchyNames_forest : ∀ (trees : List InstanceTree) {items : List Json},
    List.Forall₂ IsInstanceTree items trees →
      items.flatMap iterHierarchyNames
        = (InstanceTree.forestNodes trees).flatMap InstanceTree.entries
  | [], _, h => by
      cases h
      rfl
  | tree :: trees, _, h => by
      cases h with
      | cons htree htrees =>
          rw [List.flatMap_cons, InstanceTree.forestNodes, List.flatMap_append,
            iterHierarchyNames_tree tree htree, iterHierarchyNames_forest trees htrees]
end

mutual
/-- The JSON form that `firtool` writes. -/
def InstanceTree.json : InstanceTree → Json
  | .node instanceName moduleName instances =>
      .object
        [("instance_name".toList, .str instanceName), ("module_name".toList, .str moduleName),
          ("instances".toList, .array (InstanceTree.forestJson instances))]

/-- The JSON forms of several trees. -/
def InstanceTree.forestJson : List InstanceTree → List Json
  | [] => []
  | tree :: trees => tree.json :: InstanceTree.forestJson trees
end

mutual
theorem isInstanceTree_json : ∀ tree : InstanceTree, IsInstanceTree tree.json tree
  | .node instanceName moduleName instances => by
      rw [InstanceTree.json]
      set fields : List (Str × Json) := [("instance_name".toList, .str instanceName),
        ("module_name".toList, .str moduleName),
        ("instances".toList, .array (InstanceTree.forestJson instances))]
      have hkeys : fields.map Prod.fst = InstanceTree.nodeKeys := rfl
      have hget : ∀ e ∈ fields, dictGet fields e.1 = some e.2 := by
        intro e he
        apply dictGet_of_mem _ he
        rw [hkeys]
        decide
      have hinstanceName := hget ("instance_name".toList, .str instanceName) List.mem_cons_self
      have hmoduleName := hget ("module_name".toList, .str moduleName)
        (List.mem_cons_of_mem _ List.mem_cons_self)
      have hinstances := hget ("instances".toList, .array (InstanceTree.forestJson instances))
        (List.mem_cons_of_mem _ (List.mem_cons_of_mem _ List.mem_cons_self))
      refine .node hinstanceName hmoduleName hinstances ?_ (forall₂_forestJson instances)
      intro key _ hkey
      rw [← hkeys] at hkey
      exact dictGet_eq_none hkey

theorem forall₂_forestJson : ∀ trees : List InstanceTree,
    List.Forall₂ IsInstanceTree (InstanceTree.forestJson trees) trees
  | [] => by
      rw [InstanceTree.forestJson]
      exact .nil
  | tree :: trees => by
      rw [InstanceTree.forestJson]
      exact .cons (isInstanceTree_json tree) (forall₂_forestJson trees)
end

/-- **The walk is complete and exact.**  It finds every name as often as there are places at
which the name stands, and in an instance tree it lists the module and the instance of every
node, the nodes in preorder. -/
theorem hierarchy_walk (root : Json) :
    (∀ name, {place | StandsAt root name place}.encard = (iterHierarchyNames root).count name) ∧
      ∀ tree, IsInstanceTree root tree →
        iterHierarchyNames root
          = tree.nodes.flatMap (fun node => [node.moduleName, node.instanceName]) :=
  ⟨encard_standsAt root, fun tree htree => iterHierarchyNames_tree tree htree⟩

/-- The upper end of the exported instance tree. -/
def testHarness : InstanceTree :=
  .node "TestHarness".toList "TestHarness".toList
    [.node "chiptop0".toList "ChipTop".toList
      [.node "system".toList "DigitalTop".toList
        [.node "sbus".toList "SystemBus".toList []]]]

theorem hierarchy_walk_testHarness :
    iterHierarchyNames testHarness.json
      = ["TestHarness", "TestHarness", "ChipTop", "chiptop0", "DigitalTop", "system", "SystemBus",
          "sbus"].map String.toList :=
  (hierarchy_walk testHarness.json).2 testHarness (isInstanceTree_json testHarness)

end Inventory
