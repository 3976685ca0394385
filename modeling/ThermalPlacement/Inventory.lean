/-
# The module inventory

`scripts/inspect_gemmini_hierarchy.py`: the RTL modules, sorted into categories by their
names, and the hierarchy map that records the result.

The map is given as the document that `yaml.safe_load` reads back from it.
-/
import ThermalPlacement.PyDocument
import ThermalPlacement.StableSort

open PyText

namespace Inventory

/-! ## Modules -/

/-- `[A-Za-z_]` -/
def IsIdentStart (c : Char) : Prop := 'A' ≤ c ∧ c ≤ 'Z' ∨ 'a' ≤ c ∧ c ≤ 'z' ∨ c = '_'

instance (c : Char) : Decidable (IsIdentStart c) := inferInstanceAs (Decidable (_ ∨ _ ∨ _))

/-- `[A-Za-z0-9_$]` -/
def IsIdentPart (c : Char) : Prop := IsIdentStart c ∨ '0' ≤ c ∧ c ≤ '9' ∨ c = '$'

instance (c : Char) : Decidable (IsIdentPart c) := inferInstanceAs (Decidable (_ ∨ _ ∨ _))

/-- A module name: `[A-Za-z_][A-Za-z0-9_$]*`. -/
def IsIdentifier : Str → Prop
  | [] => False
  | c :: s => IsIdentStart c ∧ ∀ d ∈ s, IsIdentPart d

instance : DecidablePred IsIdentifier
  | [] => inferInstanceAs (Decidable False)
  | _ :: s => inferInstanceAs (Decidable (_ ∧ ∀ d ∈ s, _))

theorem IsIdentPart.isAscii {c : Char} (h : IsIdentPart c) : c.toNat < 128 := by
  have hrange : ∀ d : Char, d.toNat < 128 → c ≤ d → c.toNat < 128 :=
    fun d hd hcd => lt_of_le_of_lt (show c.toNat ≤ d.toNat from hcd) hd
  rcases h with (⟨-, h⟩ | ⟨-, h⟩ | rfl) | ⟨-, h⟩ | rfl
  · exact hrange 'Z' (by decide) h
  · exact hrange 'z' (by decide) h
  · decide
  · exact hrange '9' (by decide) h
  · decide

theorem IsIdentifier.ne_nil {s : Str} (h : IsIdentifier s) : s ≠ [] := by
  rintro rfl
  exact h

theorem IsIdentifier.isAscii {s : Str} (h : IsIdentifier s) : IsAscii s := by
  cases s with
  | nil => exact h.elim
  | cons c s =>
      intro d hd
      rcases List.mem_cons.mp hd with rfl | hd
      · exact IsIdentPart.isAscii (Or.inl h.1)
      · exact (h.2 d hd).isAscii

/-- The result of `read_modules`: the files that declare a module, by its name. -/
structure RtlModules where
  files : OrderedDict Str (List Str)
  /-- The name is what `MODULE_RE` captures. -/
  isIdentifier : ∀ m ∈ files.keys, IsIdentifier m

/-! ## Categories -/

/-- An entry of `CATEGORY_RULES`. -/
structure CategoryRule where
  category : Str
  description : Str
  keywords : List Str

/-- `CATEGORY_RULES`. -/
def categoryRules : List CategoryRule :=
  [("pe_array", "PE array / mesh / compute datapath", ["mesh", "tile", "pe", "mac", "systolic"]),
    ("scratchpad", "Scratchpad / local buffer", ["scratchpad", "spad", "sp_bank", "spadmem"]),
    ("accumulator", "Accumulator / partial-sum storage",
      ["accumulator", "accumulator", "acc_", "accbank"]),
    ("load_store_dma", "Load/store DMA and memory movement",
      ["dma", "streamreader", "streamwriter", "loadcontroller", "storecontroller"]),
    ("controller", "Command, execute, loop, and scheduling control",
      ["controller", "cmd", "reservationstation", "scheduler", "fsm", "unroller", "rob"]),
    ("tl_soc_glue", "TileLink / RoCC / SoC glue",
      ["tl", "tilelink", "rocc", "frontend", "memport", "ptw"])].map
    (fun r => ⟨r.1.toList, r.2.1.toList, r.2.2.map String.toList⟩)

section

variable [PyStr]

/-- One of the keywords occurs in the lower-cased name. -/
def HasKeyword (moduleName : Str) (keywords : List Str) : Prop :=
  ∃ keyword ∈ keywords, keyword <:+: PyStr.lower moduleName

instance (moduleName : Str) (keywords : List Str) : Decidable (HasKeyword moduleName keywords) :=
  inferInstanceAs (Decidable (∃ keyword ∈ keywords, _))

/-- `category_for`. -/
def categoryFor (moduleName : Str) : Str :=
  match categoryRules.find? (fun rule => HasKeyword moduleName rule.keywords) with
  | some rule => rule.category
  | none =>
      if HasKeyword moduleName ["gemmini".toList] then "gemmini_other".toList
      else "non_gemmini_context".toList

/-- `categorized` in `main`: the sorted module names by category. -/
def categorized (modules : OrderedDict Str (List Str)) : OrderedDict Str (List Str) :=
  (sortedBy id modules.keys).foldl
    (fun d moduleName => d.upsert (categoryFor moduleName) [] (fun names => names ++ [moduleName]))
    OrderedDict.empty

end

/-! ## The hierarchy map -/

/-- The categories of the thermal study. -/
def includeCategories : List Str :=
  ["pe_array", "scratchpad", "accumulator", "load_store_dma", "controller", "gemmini_other"].map
    String.toList

/-- A boolean in a document. -/
def boolean (b : Bool) : Yaml := .scalar (if b then "True" else "False").toList b

/-- The entry of a category in the map. -/
def categoryEntry (categorized : OrderedDict Str (List Str)) (category : Str) : Yaml :=
  .map
    [("include_in_thermal_study".toList, boolean (category ∈ includeCategories)),
      ("modules".toList, .seq (((categorized.get? category).getD []).map Yaml.str))]

/-- The document that `write_yaml` dumps. -/
def writeYaml (modules categorized : OrderedDict Str (List Str)) : Yaml :=
  .map
    [("source".toList, .str "generated by scripts/inspect_gemmini_hierarchy.py".toList),
      ("notes".toList,
        .seq
          (["First-pass module map for activity extraction.",
            "Review generated buckets before treating this as a final thermal hierarchy."].map
              (fun note => .str note.toList))),
      ("categories".toList,
        .map ((sortedBy id categorized.keys).map
          (fun category => (category, categoryEntry categorized category)))),
      ("all_modules".toList, .seq ((sortedBy id modules.keys).map Yaml.str))]

/-- The map that `main` writes. -/
def RtlModules.hierarchyMap [PyStr] (modules : RtlModules) : Yaml :=
  writeYaml modules.files (categorized modules.files)

/-! ## Members -/

/-- **A category holds the modules that the rules put there**, sorted. -/
theorem members_categorized [PyStr] (modules : OrderedDict Str (List Str)) (category : Str) :
    ((categorized modules).get? category).getD [] =
      (sortedBy id modules.keys).filter (fun m => categoryFor m = category) := by
  unfold categorized
  rw [OrderedDict.getD_foldl_upsert categoryFor [] (fun m names => names ++ [m])]
  show List.foldl (fun names m => names ++ [m]) [] _ = _
  rw [List.foldl_append_eq_append, List.nil_append, ← List.flatMap_def, List.flatMap_singleton']

end Inventory
