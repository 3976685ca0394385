/-
# The generation of the RTL

`scripts/run_gemmini_rtl_generation.sh`: generate the Verilog, mirror it in the repository, copy
what else the build has left, and run `scripts/inspect_gemmini_hierarchy.py`, under `set -e`.

* `generation_completed`: what is on the disk after a completed generation.  The collateral is
  mirrored, if `rsync` finds the files that have changed, but the other artifacts are copied only if
  the build has left them: an artifact of an earlier generation stays where this one has none.
* `generation_lists_modules`: the hierarchy map lists the modules that the exported files declare.
* `generation_keeps`: what a generation leaves alone, however it ends.
* `generation_leftovers`: if the build leaves all of them, what earlier generations have left does
  not matter.
* `calls_consistent`: whatever is generated and simulated, in any order and with any success, the
  inventory and the hierarchy map on the disk describe the same modules, unless the inventory is
  empty.
* `generation_then_smokeFlow`: the reports of the smoke flow use the modules of the generated RTL.
-/
import ThermalPlacement.HierarchyWalk
import ThermalPlacement.InventoryReport
import ThermalPlacement.ModuleNames
import ThermalPlacement.SmokeFlow

namespace RtlGeneration

open PyText Activity Inventory SmokeFlow

/-! ## The texts of RTL files -/

/-- The character that the bytes begin with; no character is longer than four bytes. -/
def headChar? (bytes : List UInt8) : Option Char := (bytes.take 4).toByteArray.utf8DecodeChar? 0

/-- `encoding="utf-8", errors="ignore"`: bytes that begin no character are left out, one by one.
The first `skip` bytes belong to the character before. -/
def decodeIgnore : ℕ → List UInt8 → Str
  | _, [] => []
  | skip + 1, _ :: bytes => decodeIgnore skip bytes
  | 0, b :: bytes =>
      match headChar? (b :: bytes) with
      | some c => c :: decodeIgnore (c.utf8Size - 1) bytes
      | none => decodeIgnore 0 bytes

theorem decodeIgnore_length (u v : List UInt8) :
    decodeIgnore u.length (u ++ v) = decodeIgnore 0 v := by
  induction u with
  | nil => rfl
  | cons b u ih => exact ih

theorem headChar?_utf8EncodeChar (c : Char) (bytes : List UInt8) :
    headChar? (String.utf8EncodeChar c ++ bytes) = some c := by
  have hlength : (String.utf8EncodeChar c).length ≤ 4 := by
    rw [String.length_utf8EncodeChar]
    exact c.utf8Size_le_four
  rw [headChar?, List.take_append, List.take_of_length_le hlength, List.toByteArray_append]
  exact ByteArray.utf8DecodeChar?_utf8EncodeChar_append

/-- **A text is read as it is**, whatever undecodable bytes the other files contain. -/
theorem decodeIgnore_encodeUtf8 (s : Str) (bytes : List UInt8) :
    decodeIgnore 0 (encodeUtf8 s ++ bytes) = s ++ decodeIgnore 0 bytes := by
  induction s with
  | nil => rfl
  | cons c s ih =>
      have hcons : encodeUtf8 (c :: s) ++ bytes
          = String.utf8EncodeChar c ++ (encodeUtf8 s ++ bytes) := by
        rw [encodeUtf8, List.flatMap_cons, List.append_assoc]
        rfl
      cases hchar : String.utf8EncodeChar c with
      | nil =>
          have hlength := congrArg List.length hchar
          rw [String.length_utf8EncodeChar] at hlength
          exact absurd hlength c.utf8Size_pos.ne'
      | cons b u =>
          have hhead := headChar?_utf8EncodeChar c (encodeUtf8 s ++ bytes)
          have hsize : c.utf8Size - 1 = u.length := by
            rw [← String.length_utf8EncodeChar, hchar]
            rfl
          rw [hcons]
          rw [hchar] at hhead ⊢
          rw [List.cons_append] at hhead ⊢
          rw [decodeIgnore, hhead]
          show c :: decodeIgnore (c.utf8Size - 1) (u ++ (encodeUtf8 s ++ bytes)) = _
          rw [hsize, decodeIgnore_length, ih]
          rfl

/-- A path determines the directory and the name in it. -/
theorem append_slash_inj {x y u v : Str} (hu : '/' ∉ u) (hv : '/' ∉ v)
    (h : x ++ '/' :: u = y ++ '/' :: v) : x = y ∧ u = v := by
  rcases List.append_eq_append_iff.mp h with ⟨w, rfl, hw⟩ | ⟨w, rfl, hw⟩
  · cases w with
    | nil => exact ⟨(List.append_nil x).symm, (List.cons.inj hw).2⟩
    | cons c w => exact absurd ((List.cons.inj hw).2 ▸ by simp) hu
  · cases w with
    | nil => exact ⟨List.append_nil y, (List.cons.inj hw).2.symm⟩
    | cons c w => exact absurd ((List.cons.inj hw).2 ▸ by simp) hv

/-! ## The inspection -/

/-- A file of the RTL directory, as `read_modules` finds it. -/
def rtlFile (rtlDir : Str) (file : Str × List UInt8) : RtlFile where
  path := rtlDir ++ '/' :: file.1
  text := universalNewlines (decodeIgnore 0 file.2)

/-- A directory that `read_modules` takes for a file, because of its name. -/
def HasRtlDirectory (files : List (Str × List UInt8)) : Prop :=
  ∃ file ∈ files, ∃ name ∈ (file.1.splitOn '/').dropLast,
    pathSuffix name ∈ [".v".toList, ".sv".toList]

instance (files : List (Str × List UInt8)) : Decidable (HasRtlDirectory files) :=
  inferInstanceAs (Decidable (∃ _ ∈ _, _))

/-- `load_hierarchy`; `none` if it raises. -/
def loadHierarchy (jsonLoads : Str → Option Json) (file : Option (List UInt8)) :
    Option (Option Json) :=
  match file with
  | none => some none
  | some bytes => (((decodeUtf8 bytes).map universalNewlines).bind jsonLoads).map some

section

variable [PyStr] [PyWord]

/-- `modules` in `main`. -/
def modulesIn (rtlDir : Str) (files : List (Str × List UInt8)) : OrderedDict Str (List Str) :=
  readModules (files.map (rtlFile rtlDir))

/-- The text of the inventory. -/
def inventoryOf (modules : OrderedDict Str (List Str)) (hierarchy : Option Json) : Str :=
  writeMarkdown modules (categorized modules) (hierarchyNames hierarchy)

/-- The document of the hierarchy map. -/
def hierarchyMapOf (modules : OrderedDict Str (List Str)) : Yaml :=
  writeYaml modules (categorized modules)

/-- `main` of `scripts/inspect_gemmini_hierarchy.py`: the inventory and the document of the
hierarchy map, unless it exits before it has written them. -/
def inspectMain (jsonLoads : Str → Option Json) (rtlDir : Str)
    (rtl : Option (List (Str × List UInt8))) (hierarchyJson : Option (List UInt8)) :
    Option (Str × Yaml) :=
  match rtl with
  | none => none
  | some files =>
      if HasRtlDirectory files then none
      else
        let modules := modulesIn rtlDir files
        (loadHierarchy jsonLoads hierarchyJson).map
          (fun hierarchy => (inventoryOf modules hierarchy, hierarchyMapOf modules))

theorem exists_of_inspectMain {jsonLoads : Str → Option Json} {rtlDir : Str}
    {rtl : Option (List (Str × List UInt8))} {hierarchyJson : Option (List UInt8)}
    {out : Str × Yaml} (h : inspectMain jsonLoads rtlDir rtl hierarchyJson = some out) :
    ∃ files hierarchy, rtl = some files ∧ loadHierarchy jsonLoads hierarchyJson = some hierarchy ∧
      out = (inventoryOf (modulesIn rtlDir files) hierarchy,
        hierarchyMapOf (modulesIn rtlDir files)) := by
  unfold inspectMain at h
  cases rtl with
  | none => cases h
  | some files =>
      dsimp only at h
      split_ifs at h
      obtain ⟨hierarchy, hhierarchy, rfl⟩ := Option.map_eq_some_iff.mp h
      exact ⟨files, hierarchy, rfl, hhierarchy, rfl⟩

end

/-! ## Files -/

/-- The variables that the script reads.  `CONFIG` names a class. -/
structure Env where
  rootDir : Str
  CONFIG : Option Str
  BUILD_SIM : Option Str
  BUILD_DEBUG_SIM : Option Str
  chipyardHome : Str
  slash_notMem : '/' ∉ EnvScript.orDefault CONFIG "GemminiRocketConfig".toList

/-- What the build leaves besides the collateral, in the order in which the script copies it. -/
inductive BuildArtifact where
  | fir
  | annoJson
  | appendedAnnoJson
  | chiselLog
  | firtoolLog
  | allF
  | modelF
  | topF
  | bbF
  | modelHierarchy
  | uniquifiedHierarchy
  | topHierarchy
  deriving DecidableEq, Repr

namespace BuildArtifact

/-- The order of the copies. -/
def all : List BuildArtifact :=
  [fir, annoJson, appendedAnnoJson, chiselLog, firtoolLog, allF, modelF, topF, bbF, modelHierarchy,
    uniquifiedHierarchy, topHierarchy]

theorem mem_all (a : BuildArtifact) : a ∈ all := by cases a <;> decide

/-- Most names begin with the name of the build. -/
def stem (longName : Str) : BuildArtifact → Str
  | modelHierarchy | uniquifiedHierarchy | topHierarchy => []
  | _ => longName

/-- How the name of the file ends. -/
def suffix : BuildArtifact → Str
  | fir => ".fir".toList
  | annoJson => ".anno.json".toList
  | appendedAnnoJson => ".appended.anno.json".toList
  | chiselLog => ".chisel.log".toList
  | firtoolLog => ".firtool.log".toList
  | allF => ".all.f".toList
  | modelF => ".model.f".toList
  | topF => ".top.f".toList
  | bbF => ".bb.f".toList
  | modelHierarchy => "model_module_hierarchy.json".toList
  | uniquifiedHierarchy => "model_module_hierarchy.uniquified.json".toList
  | topHierarchy => "top_module_hierarchy.json".toList

/-- The name of the file. -/
def name (longName : Str) (a : BuildArtifact) : Str := a.stem longName ++ a.suffix

theorem stem_cases (longName : Str) (a : BuildArtifact) :
    a.stem longName = longName ∧ a.suffix.head? = some '.' ∨
      a.stem longName = [] ∧ a.suffix.head? ≠ some 'c' := by
  cases a <;> first | exact Or.inl ⟨rfl, rfl⟩ | exact Or.inr ⟨rfl, by decide⟩

theorem suffix_injective : Function.Injective suffix := by
  intro a b
  cases a <;> cases b <;> decide

theorem slash_notMem_suffix (a : BuildArtifact) : '/' ∉ a.suffix := by
  cases a <;> decide

theorem slash_notMem_name {longName : Str} (h : '/' ∉ longName) (a : BuildArtifact) :
    '/' ∉ a.name longName := by
  rw [name, List.mem_append, not_or]
  refine ⟨?_, a.slash_notMem_suffix⟩
  rcases a.stem_cases longName with ⟨hstem, -⟩ | ⟨hstem, -⟩
  · rw [hstem]
    exact h
  · rw [hstem]
    exact List.not_mem_nil

theorem name_injective {longName : Str} (h : longName.head? = some 'c') :
    Function.Injective (name longName) := by
  intro a b hab
  have hne : longName ≠ [] := by
    rintro rfl
    cases h
  refine suffix_injective ?_
  unfold name at hab
  rcases a.stem_cases longName with ⟨ha, -⟩ | ⟨ha, hhead⟩ <;>
    rcases b.stem_cases longName with ⟨hb, -⟩ | ⟨hb, hhead'⟩ <;> rw [ha, hb] at hab
  · exact List.append_cancel_left hab
  · have hc := congrArg List.head? hab
    rw [List.head?_append_of_ne_nil _ hne, h] at hc
    exact absurd hc.symm hhead'
  · have hc := congrArg List.head? hab
    rw [List.head?_append_of_ne_nil _ hne, h] at hc
    exact absurd hc hhead
  · exact hab

end BuildArtifact

/-- The files that the script writes besides the copies. -/
inductive Report where
  | manifest
  | inventory
  | hierarchyMap
  deriving DecidableEq, Repr

namespace Report

/-- The name of the file. -/
def name : Report → Str
  | manifest => "manifest.txt".toList
  | inventory => "gemmini_module_inventory.md".toList
  | hierarchyMap => "hierarchy_map.yaml".toList

theorem slash_notMem_name (r : Report) : '/' ∉ r.name := by
  cases r <;> decide

theorem name_injective : Function.Injective name := by
  intro r r'
  cases r <;> cases r' <;> decide

end Report

theorem BuildArtifact.name_ne {longName : Str} (h : longName.head? = some 'c') (a : BuildArtifact)
    (r : Report) : a.name longName ≠ r.name := by
  have hne : longName ≠ [] := by
    rintro rfl
    cases h
  intro heq
  rcases a.stem_cases longName with ⟨hstem, -⟩ | ⟨hstem, -⟩
  · have hc : r.name.head? = some 'c' := by
      rw [← heq, name, hstem, List.head?_append_of_ne_nil _ hne, h]
    revert hc
    cases r <;> decide
  · rw [name, hstem, List.nil_append] at heq
    revert heq
    cases a <;> cases r <;> decide

/-- The files that the script reads and writes. -/
inductive Place where
  | built (a : BuildArtifact)
  | exported (a : BuildArtifact)
  | report (r : Report)
  deriving DecidableEq, Repr

namespace Env

variable (env : Env)

/-- `CONFIG`, or its default. -/
def config : Str := EnvScript.orDefault env.CONFIG "GemminiRocketConfig".toList

/-- `LONG_NAME`. -/
def longName : Str := "chipyard.harness.TestHarness.".toList ++ env.config

/-- `BUILD_DIR`. -/
def buildDir : Str :=
  env.chipyardHome ++ "/sims/verilator/generated-src".toList ++ '/' :: env.longName

/-- `GEN_COLLATERAL_DIR`. -/
def genCollateralDir : Str := env.buildDir ++ "/gen-collateral".toList

/-- `EXPORT_DIR`. -/
def exportDir : Str := env.rootDir ++ "/rtl_exports/generated-verilog".toList ++ '/' :: env.config

/-- Where the collateral is mirrored. -/
def exportedCollateralDir : Str := env.exportDir ++ "/gen-collateral".toList

/-- The directory of a file. -/
def dir : Place → Str
  | .built _ => env.buildDir
  | .exported _ => env.exportDir
  | .report .manifest => env.exportDir
  | .report .inventory => env.rootDir ++ "/reports/notes".toList
  | .report .hierarchyMap => env.rootDir ++ "/configs/gemmini".toList

/-- The name of a file in its directory. -/
def name : Place → Str
  | .built a => a.name env.longName
  | .exported a => a.name env.longName
  | .report r => r.name

/-- The path of a file. -/
def path (p : Place) : Str := env.dir p ++ '/' :: env.name p

/-- Its location in the store. -/
def loc (p : Place) : Loc := .file (env.path p)

/-- The contents of a file. -/
def get (s : Store) (p : Place) : Option (List UInt8) := s (env.loc p)

/-! ## No file is written over another one -/

theorem slash_notMem_longName : '/' ∉ env.longName := by
  show '/' ∉ "chipyard.harness.TestHarness.".toList ++ env.config
  rw [List.mem_append]
  exact fun h => h.elim (by decide) env.slash_notMem

theorem head?_longName : env.longName.head? = some 'c' := rfl

theorem slash_notMem_name (p : Place) : '/' ∉ env.name p := by
  cases p with
  | built a => exact a.slash_notMem_name env.slash_notMem_longName
  | exported a => exact a.slash_notMem_name env.slash_notMem_longName
  | report r => exact r.slash_notMem_name

/-- The build and the exports are in different directories. -/
theorem buildDir_ne_exportDir : env.buildDir ≠ env.exportDir := by
  intro h
  have hname := (append_slash_inj env.slash_notMem_longName env.slash_notMem h).2
  have hlength := congrArg List.length hname
  change ("chipyard.harness.TestHarness.".toList ++ env.config).length = env.config.length
    at hlength
  rw [List.length_append] at hlength
  have hlong : 0 < "chipyard.harness.TestHarness.".toList.length := by decide
  omega

theorem genCollateralDir_ne : env.genCollateralDir ≠ env.exportedCollateralDir :=
  fun h => env.buildDir_ne_exportDir (List.append_cancel_right h)

/-- **No file of the generation is written over another one**, whatever the variables are. -/
theorem path_injective : Function.Injective env.path := by
  intro p q h
  obtain ⟨hdir, hname⟩ := append_slash_inj (env.slash_notMem_name p) (env.slash_notMem_name q) h
  have hartifact := BuildArtifact.name_injective env.head?_longName
  have hreport := BuildArtifact.name_ne env.head?_longName
  cases p with
  | built a =>
      cases q with
      | built b => exact congrArg Place.built (hartifact hname)
      | exported b => exact absurd hdir env.buildDir_ne_exportDir
      | report r => exact absurd hname (hreport a r)
  | exported a =>
      cases q with
      | built b => exact absurd hdir.symm env.buildDir_ne_exportDir
      | exported b => exact congrArg Place.exported (hartifact hname)
      | report r => exact absurd hname (hreport a r)
  | report r =>
      cases q with
      | built b => exact absurd hname.symm (hreport b r)
      | exported b => exact absurd hname.symm (hreport b r)
      | report r' => exact congrArg Place.report (Report.name_injective hname)

@[simp] theorem loc_inj {p q : Place} : env.loc p = env.loc q ↔ p = q := by
  constructor
  · intro h
    exact env.path_injective (Loc.file.inj h)
  · exact congrArg env.loc

/-- The collateral of the build, and its mirror. -/
def collateral : Loc := .tree env.genCollateralDir

/-- The mirror of the collateral. -/
def exportedCollateral : Loc := .tree env.exportedCollateralDir

@[simp] theorem loc_ne_collateral {p : Place} : env.loc p ≠ env.collateral := fun h => by cases h

@[simp] theorem loc_ne_exportedCollateral {p : Place} : env.loc p ≠ env.exportedCollateral :=
  fun h => by cases h

@[simp] theorem exportedCollateral_ne_loc {p : Place} : env.exportedCollateral ≠ env.loc p :=
  fun h => by cases h

@[simp] theorem collateral_ne : env.collateral ≠ env.exportedCollateral :=
  fun h => env.genCollateralDir_ne (Loc.tree.inj h)

/-- What the script writes. -/
def outputs : Set Loc :=
  {l | l = env.exportedCollateral ∨ (∃ a, l = env.loc (.exported a)) ∨ ∃ r, l = env.loc (.report r)}

/-! ## The programs -/

/-- `[[ -d "$GEN_COLLATERAL_DIR" ]]`, or the script exits. -/
def requireCollateral : Program :=
  Script.require {env.collateral} (fun s => (s env.collateral).isSome) (fun s s' h => by
    rw [h env.collateral rfl])

/-- `cp -f`. -/
def copyFile (a : BuildArtifact) : Program :=
  Script.compute {env.loc (.built a)} {env.loc (.exported a)}
    (fun s => ([⟨env.loc (.exported a), env.get s (.built a)⟩], 0))
    (fun s s' h => by rw [show env.get s (.built a) = env.get s' (.built a) from h _ rfl])
    (fun _ w hw => by rw [List.mem_singleton.mp hw]; rfl)
    (fun _ _ l hl => ⟨_, List.mem_cons_self, hl.symm⟩)

/-- An artifact is copied if it is there. -/
def copyArtifact (a : BuildArtifact) : Program :=
  Script.runUnless {env.loc (.built a)} (fun s => (env.get s (.built a)).isNone)
    (fun s s' h => by rw [show env.get s (.built a) = env.get s' (.built a) from h _ rfl])
    (env.copyFile a)

end Env

/-- The programs that the script calls.  `make` writes nothing that the script writes, and `rsync`
writes nothing but the mirror; whether it completes or stops half-way, and which files it takes for
unchanged, is left open.  `jsonLoads` and `safeDump` are the parser of JSON and the writer of YAML,
and the three texts come from `git` and `date`. -/
structure Tools (env : Env) where
  jsonLoads : Str → Option Json
  /-- Whether the inspection of these files with this hierarchy gets to the inventory, but a name in
  it, such as `"\ud800"` in the hierarchy, cannot be encoded.  Such a name is no `Str`. -/
  unencodable : Option (List (Str × List UInt8)) → Option (List UInt8) → Bool
  safeDump : Yaml → Str
  chipyardCommit : Str
  gemminiCommit : Str
  generatedAt : Str
  makeVerilog : Program
  makeSim : Program
  makeDebugSim : Program
  /-- `rsync -a --delete`, into a directory that is made for it. -/
  mirror : Program
  make_writes : ∀ p ∈ [makeVerilog, makeSim, makeDebugSim], ∀ l ∈ env.outputs, l ∉ p.writes
  mirror_writes : mirror.writes = {env.exportedCollateral}

section

variable [PyStr] [PyWord] {env : Env} (tools : Tools env)

namespace Tools

/-- The text of the manifest. -/
def manifestText : Str :=
  "config=".toList ++ env.config
    ++ "\nlong_name=".toList ++ env.longName
    ++ "\nchipyard_home=".toList ++ env.chipyardHome
    ++ "\nchipyard_commit=".toList ++ tools.chipyardCommit
    ++ "\ngemmini_commit=".toList ++ tools.gemminiCommit
    ++ "\nsource_build_dir=".toList ++ env.buildDir
    ++ "\nsource_gen_collateral_dir=".toList ++ env.genCollateralDir
    ++ "\nexport_dir=".toList ++ env.exportDir
    ++ "\ngenerated_at_utc=".toList ++ tools.generatedAt ++ ['\n']

/-- `cat > "$EXPORT_DIR/manifest.txt"`. -/
def writeManifest : Program :=
  Script.set (env.loc (.report .manifest)) (some (encodeUtf8 tools.manifestText))

/-- What the inspection finds; `none` if it exits before it writes anything. -/
def inspection (s : Store) : Option (Str × Yaml) :=
  inspectMain tools.jsonLoads env.exportedCollateralDir (s env.exportedCollateral)
    (env.get s (.exported .uniquifiedHierarchy))

/-- What the inspection writes, and its status.  `write_markdown` has emptied the inventory when it
finds that the text cannot be encoded. -/
def inspectWrites (s : Store) : List (Σ l, Val l) × ℕ :=
  if tools.unencodable (s env.exportedCollateral) (env.get s (.exported .uniquifiedHierarchy)) then
    ([⟨env.loc (.report .inventory), some []⟩], 1)
  else
    match tools.inspection s with
    | none => ([], 1)
    | some (inventory, map) =>
        ([⟨env.loc (.report .inventory), some (encodeUtf8 inventory)⟩,
          ⟨env.loc (.report .hierarchyMap), some (encodeUtf8 (tools.safeDump map))⟩], 0)

/-- The inspection fails at once, or with an empty inventory, or writes both files. -/
theorem inspectWrites_cases (s : Store) :
    tools.inspectWrites s = ([], 1) ∨
      tools.inspectWrites s = ([⟨env.loc (.report .inventory), some []⟩], 1) ∨
        ∃ inventory map, tools.inspection s = some (inventory, map) ∧
          tools.inspectWrites s
            = ([⟨env.loc (.report .inventory), some (encodeUtf8 inventory)⟩,
              ⟨env.loc (.report .hierarchyMap), some (encodeUtf8 (tools.safeDump map))⟩], 0) := by
  unfold inspectWrites
  split_ifs
  · exact Or.inr (Or.inl rfl)
  · cases hout : tools.inspection s with
    | none => exact Or.inl rfl
    | some out => exact Or.inr (Or.inr ⟨out.1, out.2, rfl, rfl⟩)

/-- `inspect_gemmini_hierarchy.py`. -/
def inspect : Program :=
  Script.compute {env.exportedCollateral, env.loc (.exported .uniquifiedHierarchy)}
    {env.loc (.report .inventory), env.loc (.report .hierarchyMap)} tools.inspectWrites
    (fun s s' h => by
      have hjson : env.get s (.exported .uniquifiedHierarchy)
          = env.get s' (.exported .uniquifiedHierarchy) := h _ (Or.inr rfl)
      unfold inspectWrites inspection
      rw [h _ (Or.inl rfl), hjson])
    (fun s w hw => by
      rcases tools.inspectWrites_cases s with hnone | hempty | ⟨inventory, map, -, hsome⟩
      · rw [hnone] at hw
        cases hw
      · rw [hempty] at hw
        rw [List.mem_singleton.mp hw]
        exact Or.inl rfl
      · rw [hsome] at hw
        obtain rfl | hw := List.mem_cons.mp hw
        · exact Or.inl rfl
        · rw [List.mem_singleton.mp hw]
          exact Or.inr rfl)
    (fun s hstatus l hl => by
      rcases tools.inspectWrites_cases s with hnone | hempty | ⟨inventory, map, -, hsome⟩
      · rw [hnone] at hstatus
        cases hstatus
      · rw [hempty] at hstatus
        cases hstatus
      · rw [hsome]
        obtain rfl | rfl := hl
        · exact ⟨_, List.mem_cons_self, rfl⟩
        · exact ⟨_, List.mem_cons_of_mem _ List.mem_cons_self, rfl⟩)

/-! ## The script -/

/-- The Verilog and its mirror. -/
def generation : List Program := [tools.makeVerilog, env.requireCollateral, tools.mirror]

/-- The simulators that are asked for. -/
def simulators : List Program :=
  (if EnvScript.orDefault env.BUILD_SIM ['0'] = ['1'] then [tools.makeSim] else []) ++
    if EnvScript.orDefault env.BUILD_DEBUG_SIM ['0'] = ['1'] then [tools.makeDebugSim] else []

/-- What comes after the copies. -/
def evaluation : List Program := (tools.writeManifest :: tools.simulators) ++ [tools.inspect]

/-- `run_gemmini_rtl_generation.sh`. -/
def flow : List Program :=
  tools.generation ++ (BuildArtifact.all.map env.copyArtifact ++ tools.evaluation)

end Tools

/-! ## What the programs write -/

omit [PyStr] [PyWord] in
@[simp] theorem writes_requireCollateral : env.requireCollateral.writes = ∅ := rfl

omit [PyStr] [PyWord] in
@[simp] theorem writes_mirror : tools.mirror.writes = {env.exportedCollateral} :=
  tools.mirror_writes

omit [PyStr] [PyWord] in
@[simp] theorem writes_copyArtifact (a : BuildArtifact) :
    (env.copyArtifact a).writes = {env.loc (.exported a)} := rfl

omit [PyStr] [PyWord] in
@[simp] theorem writes_copyFile (a : BuildArtifact) :
    (env.copyFile a).writes = {env.loc (.exported a)} := rfl

omit [PyStr] [PyWord] in
@[simp] theorem writes_writeManifest :
    tools.writeManifest.writes = {env.loc (.report .manifest)} := rfl

@[simp] theorem writes_inspect :
    tools.inspect.writes = {env.loc (.report .inventory), env.loc (.report .hierarchyMap)} := rfl

@[simp] theorem reads_inspect : tools.inspect.reads
    = {env.exportedCollateral, env.loc (.exported .uniquifiedHierarchy)} := rfl

omit [PyStr] [PyWord] in
@[simp] theorem reads_requireCollateral : env.requireCollateral.reads = {env.collateral} := rfl

omit [PyStr] [PyWord] in
@[simp] theorem reads_copyFile (a : BuildArtifact) :
    (env.copyFile a).reads = {env.loc (.built a)} := rfl

omit [PyStr] [PyWord] in
@[simp] theorem reads_writeManifest : tools.writeManifest.reads = ∅ := rfl

omit [PyStr] [PyWord] in
@[simp] theorem exportedCollateral_mem_outputs : env.exportedCollateral ∈ env.outputs := Or.inl rfl

omit [PyStr] [PyWord] in
@[simp] theorem exported_mem_outputs (a : BuildArtifact) : env.loc (.exported a) ∈ env.outputs :=
  Or.inr (Or.inl ⟨a, rfl⟩)

omit [PyStr] [PyWord] in
@[simp] theorem report_mem_outputs (r : Report) : env.loc (.report r) ∈ env.outputs :=
  Or.inr (Or.inr ⟨r, rfl⟩)

omit [PyStr] [PyWord] in
@[simp] theorem collateral_notMem_outputs : env.collateral ∉ env.outputs := by
  rintro (h | ⟨a, h⟩ | ⟨r, h⟩)
  · exact env.collateral_ne h
  · cases h
  · cases h

omit [PyStr] [PyWord] in
@[simp] theorem built_notMem_outputs (a : BuildArtifact) : env.loc (.built a) ∉ env.outputs := by
  simp [Env.outputs]

omit [PyStr] [PyWord] in
theorem notMem_writes_makeVerilog {l : Loc} (hl : l ∈ env.outputs) : l ∉ tools.makeVerilog.writes :=
  tools.make_writes _ (by simp) l hl

omit [PyStr] [PyWord] in
theorem mem_of_mem_simulators {p : Program} (hp : p ∈ tools.simulators) :
    p ∈ [tools.makeVerilog, tools.makeSim, tools.makeDebugSim] := by
  unfold Tools.simulators at hp
  split_ifs at hp <;> simp_all

omit [PyStr] [PyWord] in
theorem notMem_writes_simulators {l : Loc} (hl : l ∈ env.outputs) :
    l ∉ Script.writes tools.simulators := by
  rintro ⟨p, hp, hw⟩
  exact tools.make_writes p (mem_of_mem_simulators tools hp) l hl hw

/-! ## The copies -/

omit [PyStr] [PyWord] in
theorem mem_writes_copies {as : List BuildArtifact} {l : Loc} :
    l ∈ Script.writes (as.map env.copyArtifact) ↔ ∃ a ∈ as, l = env.loc (.exported a) := by
  simp [Script.writes]

omit [PyStr] [PyWord] in
/-- One copy. -/
theorem get_copyArtifact (env : Env) (a b : BuildArtifact) (s : Store) :
    ((env.copyArtifact a).run s).2 = 0 ∧
      env.get ((env.copyArtifact a).run s).1 (.exported b)
        = if b = a then (env.get s (.built a)).or (env.get s (.exported a))
          else env.get s (.exported b) := by
  have hrun : (env.copyArtifact a).run s
      = if (env.get s (.built a)).isNone = true then (s, 0) else (env.copyFile a).run s := rfl
  rw [hrun]
  cases hbuilt : env.get s (.built a) with
  | none =>
      rw [if_pos Option.isNone_none, Option.none_or]
      refine ⟨rfl, ?_⟩
      split_ifs with heq
      · rw [heq]
      · rfl
  | some bytes =>
      rw [if_neg (fun h => by cases h)]
      refine ⟨rfl, ?_⟩
      split_ifs with heq
      · rw [heq]
        exact (Function.update_self (env.loc (.exported a)) _ s).trans hbuilt
      · exact (env.copyFile a).frame s _ (by simpa using heq)

omit [PyStr] [PyWord] in
/-- **The copies** always succeed.  Where the build has left an artifact the export is that one, and
otherwise it is the old one. -/
theorem run_copies (env : Env) (as : List BuildArtifact) (s : Store) :
    (Script.run (as.map env.copyArtifact) s).2 = 0 ∧
      ∀ b, env.get (Script.run (as.map env.copyArtifact) s).1 (.exported b)
        = if b ∈ as then (env.get s (.built b)).or (env.get s (.exported b))
          else env.get s (.exported b) := by
  induction as generalizing s with
  | nil => exact ⟨rfl, fun b => (if_neg List.not_mem_nil).symm⟩
  | cons a as ih =>
      obtain ⟨hstatus, hcopy⟩ := get_copyArtifact env a a s
      have hbuilt : ∀ b, env.get ((env.copyArtifact a).run s).1 (.built b) = env.get s (.built b) :=
        fun b => (env.copyArtifact a).frame s _ (by simp)
      rw [List.map_cons, Script.run_cons_of_eq_zero hstatus]
      refine ⟨(ih _).1, fun b => ?_⟩
      rw [(ih _).2 b, hbuilt, (get_copyArtifact env a b s).2]
      by_cases hba : b = a
      · rw [hba, if_pos List.mem_cons_self, if_pos rfl]
        split_ifs
        · cases env.get s (.built a) <;> rfl
        · rfl
      · rw [if_neg hba]
        simp only [List.mem_cons, hba, false_or]

/-! ## A small generation -/

section

/-- A mirror that is made anew. -/
def wholeMirror (env : Env) : Program :=
  Script.compute {env.collateral} {env.exportedCollateral}
    (fun s => ([⟨env.exportedCollateral, s env.collateral⟩], 0))
    (fun s s' h => by rw [h env.collateral rfl])
    (fun _ w hw => by rw [List.mem_singleton.mp hw]; rfl)
    (fun _ _ l hl => ⟨_, List.mem_cons_self, hl.symm⟩)

/-- A checkout in which no simulator is asked for. -/
def meshEnv : Env := ⟨"/work".toList, none, none, none, "/chipyard".toList, by decide⟩

/-- A module in a file of its own. -/
def meshSource : List SourceLine :=
  [declares "Mesh" "input clock);" (by decide) (by decide), endmodule]

/-- The collateral with this file. -/
def meshRtl : List (Str × List UInt8) := [("Mesh.sv".toList, encodeUtf8 (sourceText meshSource))]

/-- What a build of it leaves. -/
def meshBuild : List (Σ l, Val l) :=
  BuildArtifact.all.map (fun a => ⟨meshEnv.loc (.built a), some (encodeUtf8 "{}".toList)⟩) ++
    [⟨meshEnv.collateral, some meshRtl⟩]

/-- Its hierarchy map. -/
def meshMap : Str :=
  ("source: generated by scripts/inspect_gemmini_hierarchy.py\nnotes:\n" ++
    "- First-pass module map for activity extraction.\n" ++
    "- Review generated buckets before treating this as a final thermal hierarchy.\n" ++
    "categories:\n  pe_array:\n    include_in_thermal_study: true\n    modules:\n    - Mesh\n" ++
    "all_modules:\n- Mesh\n").toList

omit [PyStr] [PyWord] in
theorem mem_meshBuild {w : Σ l, Val l} (h : w ∈ meshBuild) : w.1 ∉ meshEnv.outputs := by
  rcases List.mem_append.mp h with h | h
  · obtain ⟨a, -, rfl⟩ := List.mem_map.mp h
    exact built_notMem_outputs a
  · rw [List.mem_singleton.mp h]
    exact collateral_notMem_outputs

omit [PyStr] [PyWord] in
theorem executable_notMem_outputs (path : Str) : .executable path ∉ env.outputs := by
  rintro (h | ⟨a, h⟩ | ⟨r, h⟩) <;> cases h

/-- A build, and libraries that know the two documents. -/
def meshTools : Tools meshEnv where
  jsonLoads text := if text = "{}".toList then some (.object []) else none
  unencodable _ _ := false
  safeDump _ := meshMap
  chipyardCommit := "0123abc".toList
  gemminiCommit := "4567def".toList
  generatedAt := "2026-01-01T00:00:00Z".toList
  makeVerilog := Script.compute ∅ {l | ∃ w ∈ meshBuild, w.1 = l} (fun _ => (meshBuild, 0))
    (fun _ _ _ => rfl) (fun _ w hw => ⟨w, hw, rfl⟩) (fun _ _ _ hl => hl)
  makeSim := Script.set (.executable "/chipyard/simulator".toList) true
  makeDebugSim := Script.set (.executable "/chipyard/simulator-debug".toList) true
  mirror := wholeMirror meshEnv
  make_writes := by
    intro p hp l hl hw
    obtain rfl | hp := List.mem_cons.mp hp
    · have hbuild : ∃ w ∈ meshBuild, w.1 = l := hw
      obtain ⟨w, hmem, rfl⟩ := hbuild
      exact mem_meshBuild hmem hl
    · obtain rfl | hp := List.mem_cons.mp hp
      · exact executable_notMem_outputs _ (Set.mem_singleton_iff.mp hw ▸ hl)
      · obtain rfl := List.mem_singleton.mp hp
        exact executable_notMem_outputs _ (Set.mem_singleton_iff.mp hw ▸ hl)
  mirror_writes := rfl

omit [PyStr] [PyWord] in
theorem safeDump_meshTools (document : Yaml) : meshTools.safeDump document = meshMap := by
  simp only [meshTools]

/-- The generation of the mesh. -/
def meshFlow : List Program := @Tools.flow asciiStr asciiWord _ meshTools

omit [PyStr] [PyWord] in
theorem exists_run_meshFlow : ∃ s', Script.run meshFlow pulseStart = (s', 0) :=
  Script.exists_of_run_snd (by decide +kernel)

omit [PyStr] [PyWord] in
/-- What the build leaves. -/
theorem run_meshBuild {w : Σ l, Val l} (h : w ∈ meshBuild) (s : Store) :
    (meshTools.makeVerilog.run s).1 w.1 = w.2 :=
  Script.updates_of_mem (by decide +kernel) h s

end

/-! ## A completed generation -/

section

variable {tools} {s s' : Store}

/-- What comes after the copies changes neither the mirror nor the copies. -/
theorem frame_evaluation {l : Loc}
    (hl : l = env.exportedCollateral ∨ ∃ a, l = env.loc (.exported a)) (s : Store) :
    (Script.run tools.evaluation s).1 l = s l := by
  refine Script.run_frame ?_
  obtain rfl | ⟨a, rfl⟩ := hl
  · simp [Tools.evaluation, notMem_writes_simulators]
  · simp [Tools.evaluation, notMem_writes_simulators]

omit [PyStr] [PyWord] in
/-- The build has left collateral. -/
theorem built_of_required
    (h : (Script.run [tools.makeVerilog, env.requireCollateral] s).2 = 0) :
    ∃ built files, tools.makeVerilog.run s = (built, 0) ∧ built env.collateral = some files ∧
      Script.run [tools.makeVerilog, env.requireCollateral] s = (built, 0) := by
  obtain ⟨hmake, hrun⟩ := Script.eq_zero_of_run_cons h
  rw [hrun, Script.run_singleton] at h ⊢
  have hthere : (if ((tools.makeVerilog.run s).1 env.collateral).isSome then 0 else 1) = 0 := h
  split_ifs at hthere with hfiles
  obtain ⟨files, hfiles⟩ := Option.isSome_iff_exists.mp hfiles
  exact ⟨_, files, Prod.ext rfl hmake, hfiles, Prod.ext rfl h⟩

omit [PyStr] [PyWord] in
/-- The mirror is made from the collateral of this build, if the script gets there. -/
theorem generation_cases (tools : Tools env) (s : Store) :
    ((Script.run tools.generation s).2 ≠ 0 ∧
        (Script.run tools.generation s).1 env.exportedCollateral = s env.exportedCollateral) ∨
      ∃ built files, tools.makeVerilog.run s = (built, 0) ∧ built env.collateral = some files ∧
        Script.run tools.generation s = tools.mirror.run built := by
  -- `rsync` runs only if the programs before it succeed
  have hsplit : tools.generation
      = [tools.makeVerilog, env.requireCollateral] ++ [tools.mirror] := rfl
  rw [hsplit, Script.run_append, Script.run_singleton]
  split_ifs with hrequired
  · obtain ⟨built, files, hmake, hfiles, hrun⟩ := built_of_required hrequired
    exact Or.inr ⟨built, files, hmake, hfiles, by rw [hrun]⟩
  · refine Or.inl ⟨hrequired, Script.run_frame ?_⟩
    simp [notMem_writes_makeVerilog tools exportedCollateral_mem_outputs]

omit [PyStr] [PyWord] in
theorem mirrored_of_completed (h : (Script.run tools.generation s).2 = 0) :
    ∃ built files, tools.makeVerilog.run s = (built, 0) ∧ built env.collateral = some files ∧
      Script.run tools.generation s = tools.mirror.run built ∧ (tools.mirror.run built).2 = 0 := by
  rcases generation_cases tools s with ⟨hfail, -⟩ | ⟨built, files, hmake, hfiles, hrun⟩
  · exact absurd h hfail
  · exact ⟨built, files, hmake, hfiles, hrun, by rw [← hrun, h]⟩

/-- After the generation the copies succeed, whatever comes then. -/
theorem run_flow (h : (Script.run tools.generation s).2 = 0) :
    Script.run tools.flow s = Script.run tools.evaluation (Script.run
      (BuildArtifact.all.map env.copyArtifact) (Script.run tools.generation s).1).1 := by
  rw [Tools.flow, Script.run_append, if_pos h, Script.run_append,
    if_pos (run_copies env BuildArtifact.all _).1]

/-- The mirror and the copies, if the generation succeeds. -/
theorem exports_of_generation (h : (Script.run tools.generation s).2 = 0) :
    ∃ built files, tools.makeVerilog.run s = (built, 0) ∧ built env.collateral = some files ∧
      (tools.mirror.run built).2 = 0 ∧
      (Script.run tools.flow s).1 env.exportedCollateral
        = (tools.mirror.run built).1 env.exportedCollateral ∧
      ∀ a, env.get (Script.run tools.flow s).1 (.exported a)
        = (env.get built (.built a)).or (env.get s (.exported a)) := by
  obtain ⟨built, files, hmake, hfiles, hmirrored, hrsync⟩ := mirrored_of_completed h
  rw [run_flow h, hmirrored]
  refine ⟨built, files, hmake, hfiles, hrsync, ?_, fun a => ?_⟩
  · rw [frame_evaluation (Or.inl rfl), Script.run_frame (by simp [mem_writes_copies])]
  · -- `rsync` touches neither the artifacts of the build nor their copies
    have hmirror : ∀ p, env.get (tools.mirror.run built).1 p = env.get built p :=
      fun p => tools.mirror.frame built _ (by simp)
    have hold : env.get built (.exported a) = env.get s (.exported a) := by
      have hframe := tools.makeVerilog.frame s _
        (notMem_writes_makeVerilog tools (exported_mem_outputs a))
      rwa [hmake] at hframe
    have hcopied := (run_copies env BuildArtifact.all (tools.mirror.run built).1).2 a
    rw [if_pos a.mem_all, hmirror, hmirror, hold] at hcopied
    rw [← hcopied]
    exact frame_evaluation (Or.inr ⟨a, rfl⟩) _

/-- The inspection is up to date. -/
theorem upToDate_inspect (h : Script.run tools.flow s = (s', 0)) :
    tools.inspect.run s' = (s', 0) := by
  have hflow : Script.run ((tools.generation ++ (BuildArtifact.all.map env.copyArtifact
      ++ (tools.writeManifest :: tools.simulators))) ++ tools.inspect :: []) s = (s', 0) := by
    rw [← h, Tools.flow, Tools.evaluation]
    simp only [List.append_assoc]
  exact Script.upToDate hflow (by simp) (by simp)

theorem texts_of_upToDate {s : Store} (h : tools.inspect.run s = (s, 0)) :
    ∃ inventory map, tools.inspection s = some (inventory, map) ∧
      env.get s (.report .inventory) = some (encodeUtf8 inventory) ∧
      env.get s (.report .hierarchyMap) = some (encodeUtf8 (tools.safeDump map)) := by
  rcases tools.inspectWrites_cases s with hnone | hempty | ⟨inventory, map, hout, hwrites⟩
  · have hstatus : (tools.inspectWrites s).2 = 0 := congrArg Prod.snd h
    rw [hnone] at hstatus
    cases hstatus
  · have hstatus : (tools.inspectWrites s).2 = 0 := congrArg Prod.snd h
    rw [hempty] at hstatus
    cases hstatus
  · obtain ⟨-, hall⟩ := Script.eq_of_compute_run h (by
      rw [hwrites]
      simp)
    rw [hwrites] at hall
    exact ⟨inventory, map, hout, hall _ List.mem_cons_self,
      hall _ (List.mem_cons_of_mem _ List.mem_cons_self)⟩

/-- The inventory and the hierarchy map are made from the exports. -/
theorem results_of_completed (h : Script.run tools.flow s = (s', 0)) :
    ∃ files hierarchy, s' env.exportedCollateral = some files ∧
      loadHierarchy tools.jsonLoads (env.get s' (.exported .uniquifiedHierarchy)) = some hierarchy ∧
      env.get s' (.report .inventory) = some (encodeUtf8
        (inventoryOf (modulesIn env.exportedCollateralDir files) hierarchy)) ∧
      env.get s' (.report .hierarchyMap) = some (encodeUtf8
        (tools.safeDump (hierarchyMapOf (modulesIn env.exportedCollateralDir files)))) := by
  obtain ⟨inventory, map, hout, hinventory, hmap⟩ := texts_of_upToDate (upToDate_inspect h)
  obtain ⟨files, hierarchy, hfiles, hhierarchy, heq⟩ := exists_of_inspectMain hout
  obtain ⟨rfl, rfl⟩ := Prod.mk.inj heq
  exact ⟨files, hierarchy, hfiles, hhierarchy, hinventory, hmap⟩

/-- An `rsync` that completes has made the mirror equal to the collateral: it has found all files
that differ, by their sizes and times. -/
def Tools.Mirrors (tools : Tools env) : Prop :=
  ∀ s, (tools.mirror.run s).2 = 0 →
    (tools.mirror.run s).1 env.exportedCollateral = s env.collateral

/-- **A completed generation.**  The exported collateral is the one that this build has left.  Each
other artifact is the one of this build if there is one, and otherwise that of an earlier
generation, if there is one.  The inventory and the hierarchy map are those of the exported
collateral, with the names of the exported hierarchy. -/
theorem generation_completed (hmirrors : tools.Mirrors) (h : Script.run tools.flow s = (s', 0)) :
    ∃ built files hierarchy, tools.makeVerilog.run s = (built, 0) ∧
      built env.collateral = some files ∧ s' env.exportedCollateral = some files ∧
      (∀ a, env.get s' (.exported a)
        = (env.get built (.built a)).or (env.get s (.exported a))) ∧
      loadHierarchy tools.jsonLoads (env.get s' (.exported .uniquifiedHierarchy)) = some hierarchy ∧
      env.get s' (.report .inventory) = some (encodeUtf8
        (inventoryOf (modulesIn env.exportedCollateralDir files) hierarchy)) ∧
      env.get s' (.report .hierarchyMap) = some (encodeUtf8
        (tools.safeDump (hierarchyMapOf (modulesIn env.exportedCollateralDir files)))) := by
  have hgeneration := (Script.eq_of_run_append (congrArg Prod.snd h)).1
  obtain ⟨built, files, hmake, hfiles, hrsync, hmirror, hcopies⟩ :=
    exports_of_generation hgeneration
  rw [h] at hmirror hcopies
  rw [hmirrors built hrsync, hfiles] at hmirror
  obtain ⟨files', hierarchy, hmirror', hresults⟩ := results_of_completed h
  obtain rfl := Option.some.inj (hmirror.symm.trans hmirror')
  exact ⟨built, files, hierarchy, hmake, hfiles, hmirror, hcopies, hresults⟩

omit [PyStr] [PyWord] in
theorem mirrors_meshTools : meshTools.Mirrors :=
  fun s _ => Function.update_self meshEnv.exportedCollateral _ s

omit [PyStr] [PyWord] in
/-- The mirror after the small generation. -/
theorem get_run_meshFlow {s s' : Store} (h : Script.run meshFlow s = (s', 0)) :
    s' meshEnv.exportedCollateral = some meshRtl := by
  have hgeneration := (Script.eq_of_run_append (congrArg Prod.snd h)).1
  obtain ⟨built, files, hmake, hfiles, hrsync, hmirror, -⟩ :=
    @exports_of_generation asciiStr asciiWord meshEnv meshTools s hgeneration
  rw [mirrors_meshTools built hrsync] at hmirror
  have hbuild := @run_meshBuild ⟨meshEnv.collateral, some meshRtl⟩
    (List.mem_append_right _ List.mem_cons_self) s
  rw [hmake] at hbuild
  obtain rfl : meshRtl = files := Option.some.inj (hbuild.symm.trans hfiles)
  have hrun : (Script.run (@Tools.flow asciiStr asciiWord _ meshTools) s).1 = s' :=
    congrArg Prod.fst h
  rw [hrun] at hmirror
  exact hmirror.trans hfiles

omit [PyStr] [PyWord] in
theorem generation_completed_mesh :
    ∃ s' hierarchy, Script.run meshFlow pulseStart = (s', 0) ∧
      meshEnv.get s' (.report .inventory) = some (encodeUtf8 (@inventoryOf asciiStr
        (@modulesIn asciiWord meshEnv.exportedCollateralDir meshRtl) hierarchy)) := by
  obtain ⟨s', hrun⟩ := exists_run_meshFlow
  obtain ⟨built, files, hierarchy, -, -, hmirror, -, -, hinventory, -⟩ :=
    @generation_completed asciiStr asciiWord _ meshTools _ _ mirrors_meshTools hrun
  obtain rfl : meshRtl = files := Option.some.inj ((get_run_meshFlow hrun).symm.trans hmirror)
  exact ⟨s', hierarchy, hrun, hinventory⟩

/-- **The map lists what the RTL declares.**  If the exported Verilog files are texts of source
lines without carriage returns, the modules of the hierarchy map are sorted and are those that
`MODULE_RE` records for a declaration in one of the files. -/
theorem generation_lists_modules (h : Script.run tools.flow s = (s', 0))
    {files : List (Str × List UInt8)} (hfiles : s' env.exportedCollateral = some files)
    {source : Str × List UInt8 → List SourceLine}
    (hsource : ∀ file ∈ files,
      pathSuffix (rtlFile env.exportedCollateralDir file).path ∈ [".v".toList, ".sv".toList] →
        '\r' ∉ sourceText (source file) ∧ file.2 = encodeUtf8 (sourceText (source file))) :
    ∃ document names,
      env.get s' (.report .hierarchyMap) = some (encodeUtf8 (tools.safeDump document)) ∧
      readAllModules document = some names ∧ names.Pairwise (· < ·) ∧
      ∀ name, name ∈ names ↔ ∃ file ∈ files,
        pathSuffix (rtlFile env.exportedCollateralDir file).path ∈ [".v".toList, ".sv".toList] ∧
        name ∈ (source file).filterMap SourceLine.recorded := by
  obtain ⟨files', hierarchy, hmirror, -, -, hmap⟩ := results_of_completed h
  obtain rfl := Option.some.inj (hfiles.symm.trans hmirror)
  set modules := modulesIn env.exportedCollateralDir files with hmodules
  have hsorted : (sortedBy id modules.keys).Pairwise (· < ·) := by
    have hkeys : (modules.keys.map id).Nodup := by
      rw [List.map_id]
      exact modules.nodup_keys
    have hlt := pairwise_lt_sortedBy hkeys
    rwa [List.map_id] at hlt
  -- the inspection reads each of these files as its source
  have htext : ∀ file ∈ files,
      pathSuffix (rtlFile env.exportedCollateralDir file).path ∈ [".v".toList, ".sv".toList] →
      scanModules (rtlFile env.exportedCollateralDir file).text
        = (source file).filterMap SourceLine.recorded := by
    intro file hfile hsuffix
    obtain ⟨hreturn, hbytes⟩ := hsource file hfile hsuffix
    have hread : (rtlFile env.exportedCollateralDir file).text = sourceText (source file) := by
      have hdecode := decodeIgnore_encodeUtf8 (sourceText (source file)) []
      rw [List.append_nil, ← hbytes, decodeIgnore, List.append_nil] at hdecode
      show universalNewlines (decodeIgnore 0 file.2) = _
      rw [hdecode, universalNewlines_of_notMem hreturn]
    rw [hread, scanModules_sourceText]
  refine ⟨_, _, hmap, (readBuckets_writeYaml modules).2, hsorted, fun name => ?_⟩
  rw [mem_sortedBy, hmodules, modulesIn, mem_keys_readModules]
  simp only [List.mem_map, exists_exists_and_eq_and]
  refine exists_congr fun file => and_congr_right fun hfile => and_congr_right fun hsuffix => ?_
  rw [htext file hfile hsuffix]

omit [PyStr] [PyWord] in
theorem generation_lists_modules_mesh :
    ∃ s' document names, Script.run meshFlow pulseStart = (s', 0) ∧
      meshEnv.get s' (.report .hierarchyMap) = some (encodeUtf8 (meshTools.safeDump document)) ∧
      readAllModules document = some names ∧ "Mesh".toList ∈ names := by
  obtain ⟨s', hrun⟩ := exists_run_meshFlow
  have hsource : ∀ file ∈ meshRtl,
      pathSuffix (rtlFile meshEnv.exportedCollateralDir file).path ∈ [".v".toList, ".sv".toList] →
        '\r' ∉ sourceText meshSource ∧ file.2 = encodeUtf8 (sourceText meshSource) := by
    intro file hfile _
    rw [List.mem_singleton.mp hfile]
    exact ⟨by decide +kernel, rfl⟩
  obtain ⟨document, names, hmap, hnames, -, hmem⟩ :=
    @generation_lists_modules asciiStr asciiWord _ meshTools _ _ hrun _ (get_run_meshFlow hrun)
      (fun _ => meshSource) hsource
  exact ⟨s', document, names, hrun, hmap, hnames,
    (hmem _).mpr ⟨_, List.mem_cons_self, by decide +kernel, by decide +kernel⟩⟩

/-- An inspection that fails leaves the hierarchy map, and leaves the inventory or empties it. -/
theorem inspect_run_of_failed {t : Store} (h : (tools.inspect.run t).2 ≠ 0) :
    env.get (tools.inspect.run t).1 (.report .hierarchyMap) = env.get t (.report .hierarchyMap) ∧
      (env.get (tools.inspect.run t).1 (.report .inventory) = env.get t (.report .inventory) ∨
        env.get (tools.inspect.run t).1 (.report .inventory) = some []) := by
  have hrun : tools.inspect.run t
      = (Script.updates (tools.inspectWrites t).1 t, (tools.inspectWrites t).2) := rfl
  rw [hrun] at h ⊢
  rcases tools.inspectWrites_cases t with hnone | hempty | ⟨inventory, map, -, hwrites⟩
  · rw [hnone]
    exact ⟨rfl, Or.inl rfl⟩
  · rw [hempty]
    refine ⟨Script.updates_of_notMem (fun w hw => ?_) t, Or.inr ?_⟩
    · rw [List.mem_singleton.mp hw]
      simp
    · exact Function.update_self (env.loc (.report .inventory)) _ t
  · rw [hwrites] at h
    exact absurd rfl h

/-- The results of an earlier generation stay until one completes, except that the inventory may be
emptied. -/
theorem reports_of_failed (hfail : (Script.run tools.flow s).2 ≠ 0) :
    env.get (Script.run tools.flow s).1 (.report .hierarchyMap)
        = env.get s (.report .hierarchyMap) ∧
      (env.get (Script.run tools.flow s).1 (.report .inventory) = env.get s (.report .inventory) ∨
        env.get (Script.run tools.flow s).1 (.report .inventory) = some []) := by
  have hflow : tools.flow = (tools.generation ++ (BuildArtifact.all.map env.copyArtifact
      ++ (tools.writeManifest :: tools.simulators))) ++ [tools.inspect] := by
    simp only [Tools.flow, Tools.evaluation, List.append_assoc]
  -- the programs before the inspection touch neither report
  have hbefore : ∀ r, r ≠ .manifest → env.loc (.report r) ∉ Script.writes (tools.generation ++
      (BuildArtifact.all.map env.copyArtifact ++ (tools.writeManifest :: tools.simulators))) := by
    intro r hr
    have hmake : env.loc (.report r) ∉ tools.makeVerilog.writes :=
      notMem_writes_makeVerilog tools (report_mem_outputs r)
    simp [Tools.generation, hmake, mem_writes_copies, notMem_writes_simulators, hr]
  rw [hflow] at hfail ⊢
  constructor
  · exact Script.run_concat_frame (hbefore .hierarchyMap (by decide)) hfail
      (fun t ht => (inspect_run_of_failed ht).1)
  · rcases Script.run_concat_cases (hbefore .inventory (by decide)) hfail with
      hsame | ⟨t, ht, hlast, hrun⟩
    · exact Or.inl hsame
    · rw [hrun]
      exact (inspect_run_of_failed hlast).2.imp_left (fun h => h.trans ht)

/-- What the script does not write is only changed by `make`. -/
theorem frame_flow {l : Loc} (hl : l ∉ env.outputs)
    (hprograms : ∀ p ∈ [tools.makeVerilog, tools.makeSim, tools.makeDebugSim], l ∉ p.writes)
    (s : Store) : (Script.run tools.flow s).1 l = s l := by
  refine Script.run_frame fun hw => ?_
  have hmirror : l ≠ env.exportedCollateral := fun h => hl (h ▸ exportedCollateral_mem_outputs)
  have hcopy : ∀ a, l ≠ env.loc (.exported a) := fun a h => hl (h ▸ exported_mem_outputs a)
  have hreport : ∀ r, l ≠ env.loc (.report r) := fun r h => hl (h ▸ report_mem_outputs r)
  have hsimulators : l ∉ Script.writes tools.simulators := by
    rintro ⟨p, hp, hsim⟩
    exact hprograms p (mem_of_mem_simulators tools hp) hsim
  have hverilog : l ∉ tools.makeVerilog.writes := hprograms _ List.mem_cons_self
  simp [Tools.flow, Tools.generation, Tools.evaluation, mem_writes_copies, hmirror, hcopy, hreport,
    hsimulators, hverilog] at hw

/-- The mirror and each other export, however the generation ends. -/
theorem exports_of_flow (tools : Tools env) (s : Store) :
    ((Script.run tools.flow s).1 env.exportedCollateral = s env.exportedCollateral ∨
        ∃ built files, tools.makeVerilog.run s = (built, 0) ∧ built env.collateral = some files ∧
          (Script.run tools.flow s).1 env.exportedCollateral
            = (tools.mirror.run built).1 env.exportedCollateral) ∧
      ∀ a, env.get (Script.run tools.flow s).1 (.exported a) = env.get s (.exported a) ∨
        env.get (Script.run tools.flow s).1 (.exported a)
          = env.get (tools.makeVerilog.run s).1 (.built a) := by
  by_cases hgeneration : (Script.run tools.generation s).2 = 0
  · obtain ⟨built, files, hbuilt, hfiles, -, hmirror, hcopies⟩ := exports_of_generation hgeneration
    refine ⟨Or.inr ⟨built, files, hbuilt, hfiles, hmirror⟩, fun a => ?_⟩
    rw [hcopies a, hbuilt]
    cases env.get built (.built a) with
    | none => exact Or.inl rfl
    | some bytes => exact Or.inr rfl
  · -- the copies are not reached
    have hflow : Script.run tools.flow s = Script.run tools.generation s :=
      (Script.run_append _ _ s).trans (if_neg hgeneration)
    have hmake : ∀ l ∈ env.outputs, l ∉ tools.makeVerilog.writes :=
      fun l => notMem_writes_makeVerilog tools
    rw [hflow]
    refine ⟨?_, fun a => Or.inl (Script.run_frame (by simp [Tools.generation, hmake]))⟩
    rcases generation_cases tools s with ⟨-, hsame⟩ | ⟨built, files, hbuilt, hfiles, hrun⟩
    · exact Or.inl hsame
    · exact Or.inr ⟨built, files, hbuilt, hfiles, by rw [hrun]⟩

/-- **What a generation leaves alone.**  However it ends, the mirror is the old one or what `rsync`
has left after this build, and each other export is the old one or that of this build; unless it
completes, the hierarchy map is what it was, and the inventory is what it was or is empty; and
nothing else changes but what `make` writes. -/
theorem generation_keeps (tools : Tools env) (s : Store) :
    let s' := (Script.run tools.flow s).1
    let built := (tools.makeVerilog.run s).1
    (s' env.exportedCollateral = s env.exportedCollateral ∨
        (tools.makeVerilog.run s).2 = 0 ∧ built env.collateral ≠ none ∧
          s' env.exportedCollateral = (tools.mirror.run built).1 env.exportedCollateral) ∧
      (∀ a, env.get s' (.exported a) = env.get s (.exported a) ∨
        env.get s' (.exported a) = env.get built (.built a)) ∧
      ((Script.run tools.flow s).2 ≠ 0 →
        env.get s' (.report .hierarchyMap) = env.get s (.report .hierarchyMap) ∧
          (env.get s' (.report .inventory) = env.get s (.report .inventory) ∨
            env.get s' (.report .inventory) = some [])) ∧
      ∀ l ∉ env.outputs, (∀ p ∈ [tools.makeVerilog, tools.makeSim, tools.makeDebugSim],
        l ∉ p.writes) → s' l = s l := by
  intro s' built
  obtain ⟨hmirror, hcopies⟩ := exports_of_flow tools s
  refine ⟨hmirror.imp_right ?_, hcopies, reports_of_failed,
    fun l hl hprograms => frame_flow hl hprograms s⟩
  rintro ⟨built', files, hbuilt, hfiles, hmirror⟩
  obtain ⟨rfl, hstatus⟩ := Prod.ext_iff.mp hbuilt
  exact ⟨hstatus, fun hnone => absurd (hfiles.symm.trans hnone) (by simp), hmirror⟩

/-! ## Leftovers of earlier generations -/

/-- `make` reads nothing that the script writes.  Nor does `rsync`: what it leaves when it completes
does not depend on the mirror of an earlier generation. -/
def Tools.InOrder (tools : Tools env) : Prop :=
  ∀ p ∈ [tools.makeVerilog, tools.makeSim, tools.makeDebugSim, tools.mirror],
    ∀ l ∈ env.outputs, l ∉ p.reads

/-- The script with copies that do not look whether there is something to copy. -/
def Tools.plainFlow (tools : Tools env) : List Program :=
  tools.generation ++ (BuildArtifact.all.map env.copyFile ++ tools.evaluation)

omit [PyStr] [PyWord] in
/-- Copies of artifacts that are there are plain copies. -/
theorem run_copies_eq (h : ∀ a, env.get s (.built a) ≠ none) :
    Script.run (BuildArtifact.all.map env.copyArtifact) s
      = Script.run (BuildArtifact.all.map env.copyFile) s := by
  refine Script.run_map_congr (P := fun t => ∀ a, env.get t (.built a) ≠ none)
    (fun a _ t ht b => ?_) (fun a _ t ht => ?_) h
  · have hframe := (env.copyArtifact a).frame t (env.loc (.built b)) (by simp)
    exact fun hnone => ht b (hframe.symm.trans hnone)
  · have hthere : (env.get t (.built a)).isNone ≠ true := by
      rw [ne_eq, Option.isNone_iff_eq_none]
      exact ht a
    exact if_neg hthere

theorem run_flow_eq_plainFlow
    (h : (tools.makeVerilog.run s).2 = 0 →
      ∀ a, env.get (tools.makeVerilog.run s).1 (.built a) ≠ none) :
    Script.run tools.flow s = Script.run tools.plainFlow s := by
  rw [Tools.flow, Tools.plainFlow, Script.run_append tools.generation,
    Script.run_append tools.generation]
  split_ifs with hgeneration
  · obtain ⟨built, files, hmake, -, hmirrored, -⟩ := mirrored_of_completed hgeneration
    rw [hmake] at h
    have hthere : ∀ a, env.get (Script.run tools.generation s).1 (.built a) ≠ none := by
      intro a
      rw [hmirrored]
      have hframe := tools.mirror.frame built (env.loc (.built a)) (by simp)
      exact fun hnone => h rfl a (hframe.symm.trans hnone)
    rw [Script.run_append, Script.run_append, run_copies_eq hthere]
  · rfl

/-- Every program reads what is given or what has been exported before. -/
theorem closed_plainFlow (h : tools.InOrder) : Script.Closed env.outputsᶜ tools.plainFlow := by
  have hgiven : ∀ p ∈ [tools.makeVerilog, tools.makeSim, tools.makeDebugSim, tools.mirror],
      p.reads ⊆ env.outputsᶜ := fun p hp l hl hout => h p hp l hout hl
  have hgeneration : ∀ p ∈ tools.generation, p.reads ⊆ env.outputsᶜ := by
    intro p hp
    obtain rfl | rfl | rfl : p = tools.makeVerilog ∨ p = env.requireCollateral
        ∨ p = tools.mirror := by simpa [Tools.generation] using hp
    · exact hgiven _ List.mem_cons_self
    · simp
    · exact hgiven _ (by simp)
  have hcopies : ∀ p ∈ BuildArtifact.all.map env.copyFile, p.reads ⊆ env.outputsᶜ := by
    intro p hp
    obtain ⟨a, -, rfl⟩ := List.mem_map.mp hp
    simp
  have hevaluation : ∀ p ∈ tools.writeManifest :: tools.simulators, p.reads ⊆ env.outputsᶜ := by
    intro p hp
    obtain rfl | hp := List.mem_cons.mp hp
    · simp
    · refine hgiven p ?_
      have hmake := mem_of_mem_simulators tools hp
      simp only [List.mem_cons, List.not_mem_nil, or_false] at hmake ⊢
      tauto
  refine Script.closed_append (Script.closed_of_forall hgeneration) (Script.closed_append
    (Script.closed_of_forall fun p hp => (hcopies p hp).trans Set.subset_union_left)
    (Script.closed_append (Script.closed_of_forall fun p hp => ?_) ⟨?_, trivial⟩))
  · exact (hevaluation p hp).trans (Set.subset_union_left.trans Set.subset_union_left)
  · -- the inspection reads the mirror and one of the copies
    have hcopy : env.loc (.exported .uniquifiedHierarchy)
        ∈ Script.writes (BuildArtifact.all.map env.copyFile) :=
      ⟨env.copyFile .uniquifiedHierarchy, List.mem_map_of_mem (BuildArtifact.mem_all _), rfl⟩
    simp [Set.insert_subset_iff, Tools.generation, hcopy]

/-- Everything that the script writes is written by a completed run. -/
theorem mem_writes_plainFlow {l : Loc} (hl : l ∈ env.outputs) :
    l ∈ Script.writes tools.plainFlow := by
  obtain rfl | ⟨a, rfl⟩ | ⟨r, rfl⟩ := hl
  · simp [Tools.plainFlow, Tools.generation]
  · have hcopy : env.loc (.exported a) ∈ Script.writes (BuildArtifact.all.map env.copyFile) :=
      ⟨env.copyFile a, List.mem_map_of_mem a.mem_all, rfl⟩
    simp [Tools.plainFlow, hcopy]
  · cases r <;> simp [Tools.plainFlow, Tools.evaluation]

/-- **Leftovers of earlier generations**, also of ones that have failed, do not matter if the build
leaves all artifacts: from disks that agree on everything that the script does not write, it ends
with the same status, and if it completes with the same files. -/
theorem generation_leftovers (h : tools.InOrder) {s s' : Store}
    (hagree : Script.Agree env.outputsᶜ s s')
    (hbuilt : (tools.makeVerilog.run s).2 = 0 →
      ∀ a, env.get (tools.makeVerilog.run s).1 (.built a) ≠ none) :
    (Script.run tools.flow s).2 = (Script.run tools.flow s').2 ∧
      ((Script.run tools.flow s).2 = 0 →
        (Script.run tools.flow s).1 = (Script.run tools.flow s').1) := by
  have hgiven := hagree.mono (fun l hl hout => h _ List.mem_cons_self l hout hl)
  have hbuilt' : (tools.makeVerilog.run s').2 = 0 →
      ∀ a, env.get (tools.makeVerilog.run s').1 (.built a) ≠ none := by
    intro hstatus a
    -- the build reads nothing in which the disks differ
    have hstatus' : (tools.makeVerilog.run s).2 = 0 :=
      (tools.makeVerilog.status_eq hgiven).trans hstatus
    have hsame := tools.makeVerilog.agree_union hagree
      (fun l hl hout => h _ List.mem_cons_self l hout hl) hstatus' (env.loc (.built a))
      (Or.inl (built_notMem_outputs a))
    exact fun hnone => hbuilt hstatus' a (hsame.trans hnone)
  obtain ⟨hstatus, hfiles⟩ := Script.run_agree (closed_plainFlow h) hagree
  rw [run_flow_eq_plainFlow hbuilt, run_flow_eq_plainFlow hbuilt']
  refine ⟨hstatus, fun hzero => funext fun l => hfiles hzero l ?_⟩
  -- a completed run has written all outputs anew
  by_cases hl : l ∈ env.outputs
  · exact Or.inr (mem_writes_plainFlow hl)
  · exact Or.inl hl

omit [PyStr] [PyWord] in
/-- A hierarchy of an earlier generation makes no difference to a build that leaves one. -/
theorem generation_leftovers_mesh :
    ∃ s', Script.run meshFlow pulseStart = (s', 0) ∧
      Script.run meshFlow ((Script.set (meshEnv.loc (.exported .uniquifiedHierarchy))
        (some (encodeUtf8 "[]".toList))).run pulseStart).1 = (s', 0) := by
  have hinOrder : meshTools.InOrder := by
    intro p hp l hout hl
    have hreads : p.reads = ∅ ∨ p.reads = {meshEnv.collateral} := by
      simp only [List.mem_cons, List.not_mem_nil, or_false] at hp
      obtain rfl | rfl | rfl | rfl := hp
      · exact Or.inl rfl
      · exact Or.inl rfl
      · exact Or.inl rfl
      · exact Or.inr rfl
    rcases hreads with hreads | hreads
    · rw [hreads] at hl
      exact hl
    · rw [hreads] at hl
      exact collateral_notMem_outputs (Set.mem_singleton_iff.mp hl ▸ hout)
  have hagree : Script.Agree meshEnv.outputsᶜ pulseStart
      ((Script.set (meshEnv.loc (.exported .uniquifiedHierarchy))
        (some (encodeUtf8 "[]".toList))).run pulseStart).1 := by
    intro l hl
    refine (Script.Program.frame _ _ l fun hw => hl ?_).symm
    rw [Set.mem_singleton_iff.mp hw]
    exact exported_mem_outputs _
  have hbuilt : (meshTools.makeVerilog.run pulseStart).2 = 0 →
      ∀ a, meshEnv.get (meshTools.makeVerilog.run pulseStart).1 (.built a) ≠ none := by
    intro _ a hnone
    have hbuild := @run_meshBuild ⟨meshEnv.loc (.built a), some (encodeUtf8 "{}".toList)⟩
      (List.mem_append_left _ (List.mem_map_of_mem a.mem_all)) pulseStart
    cases hnone.symm.trans hbuild
  obtain ⟨s', hrun⟩ := exists_run_meshFlow
  have hleftovers := @generation_leftovers asciiStr asciiWord _ meshTools hinOrder _ _ hagree hbuilt
  change (Script.run meshFlow _).2 = (Script.run meshFlow _).2 ∧ ((Script.run meshFlow _).2 = 0 →
    (Script.run meshFlow _).1 = (Script.run meshFlow _).1) at hleftovers
  rw [hrun] at hleftovers
  exact ⟨s', hrun, Prod.ext (hleftovers.2 rfl).symm hleftovers.1.symm⟩

end

/-! ## Generations and smoke flows in one checkout -/

/-- A checkout, and the writer of YAML of its Python. -/
structure Checkout where
  rootDir : Str
  safeDump : Yaml → Str

/-- The contents of a file. -/
def contents (s : Store) (path : Str) : Option (List UInt8) := s (.file path)

namespace Checkout

/-- The path of the inventory. -/
def inventory (c : Checkout) : Str :=
  c.rootDir ++ "/reports/notes".toList ++ '/' :: Report.inventory.name

/-- The path of the hierarchy map. -/
def hierarchyMap (c : Checkout) : Str :=
  c.rootDir ++ "/configs/gemmini".toList ++ '/' :: Report.hierarchyMap.name

end Checkout

/-- A call of one of the scripts in a checkout, with variables and programs of its own. -/
inductive Call (c : Checkout) where
  | generation (env : Env) (tools : Tools env) (rootDir_eq : env.rootDir = c.rootDir)
      (safeDump_eq : tools.safeDump = c.safeDump)
  | smokeFlow (env : SmokeFlow.Env) (tools : SmokeFlow.Tools env)
      (rootDir_eq : env.rootDir = c.rootDir)
      (inventory_notMem : ∀ p ∈ [tools.gcc, tools.make, tools.simulator, tools.hotspot],
        .file c.inventory ∉ p.writes)

/-- What is on the disk after a call, whether it completes or not. -/
def Call.run {c : Checkout} : Call c → Store → Store
  | generation _ tools _ _, s => (Script.run tools.flow s).1
  | smokeFlow _ tools _ _, s => (Script.run tools.flow s).1

/-- The inventory and the hierarchy map are of the same modules, or there is none of them, or the
inventory is empty. -/
def Checkout.Consistent (c : Checkout) (s : Store) : Prop :=
  contents s c.inventory = none ∧ contents s c.hierarchyMap = none ∨
    (contents s c.inventory = some [] ∧
      (contents s c.hierarchyMap = none ∨ ∃ modules,
        contents s c.hierarchyMap = some (encodeUtf8 (c.safeDump (hierarchyMapOf modules))))) ∨
      ∃ modules hierarchy,
        contents s c.inventory = some (encodeUtf8 (inventoryOf modules hierarchy)) ∧
        contents s c.hierarchyMap = some (encodeUtf8 (c.safeDump (hierarchyMapOf modules)))

omit [PyWord] in
/-- With an empty inventory the map stays as it was. -/
theorem Checkout.Consistent.emptied {c : Checkout} {s s' : Store} (h : c.Consistent s)
    (hmap : contents s' c.hierarchyMap = contents s c.hierarchyMap)
    (hinventory : contents s' c.inventory = contents s c.inventory ∨
      contents s' c.inventory = some []) : c.Consistent s' := by
  unfold Checkout.Consistent at h ⊢
  rw [hmap]
  rcases hinventory with hsame | hempty
  · rw [hsame]
    exact h
  · refine Or.inr (Or.inl ⟨hempty, ?_⟩)
    rcases h with ⟨-, hnone⟩ | ⟨-, hold⟩ | ⟨modules, -, -, hmodules⟩
    · exact Or.inl hnone
    · exact hold
    · exact Or.inr ⟨modules, hmodules⟩

omit [PyStr] [PyWord] in
/-- The smoke flow reads the map where the generation has written it. -/
theorem path_hierarchyMap {c : Checkout} {env : SmokeFlow.Env} (h : env.rootDir = c.rootDir) :
    env.path .hierarchyMap = c.hierarchyMap := by
  have hname : "/configs/gemmini/hierarchy_map".toList ++ ".yaml".toList
      = "/configs/gemmini".toList ++ '/' :: Report.hierarchyMap.name := by decide
  show env.rootDir ++ "/configs/gemmini/hierarchy_map".toList ++ ".yaml".toList
    = c.rootDir ++ "/configs/gemmini".toList ++ '/' :: Report.hierarchyMap.name
  rw [h, List.append_assoc, hname, List.append_assoc]

omit [PyStr] [PyWord] in
theorem inventory_ne_path (c : Checkout) (env : SmokeFlow.Env) (a : SmokeFlow.Artifact) :
    c.inventory ≠ env.path a := by
  intro h
  have hname : Report.inventory.name <:+ env.path a := by
    rw [← h]
    exact (List.suffix_cons _ _).trans (List.suffix_append _ _)
  have hsuffix : ¬ Report.inventory.name <:+ a.suffix ∧ ¬ a.suffix <:+ Report.inventory.name := by
    cases a <;> decide
  exact (List.suffix_or_suffix_of_suffix hname (List.suffix_append _ _)).elim hsuffix.1 hsuffix.2

/-- A completed generation leaves both files, of the same modules; one that fails leaves the map as
it is, and the inventory as it is or empty. -/
theorem consistent_generation {c : Checkout} {env : Env} {tools : Tools env}
    (hroot : env.rootDir = c.rootDir) (hdump : tools.safeDump = c.safeDump) {s : Store}
    (h : c.Consistent s) : c.Consistent (Script.run tools.flow s).1 := by
  have hinventory : c.inventory = env.path (.report .inventory) := by
    rw [Checkout.inventory, ← hroot]
    rfl
  have hmap : c.hierarchyMap = env.path (.report .hierarchyMap) := by
    rw [Checkout.hierarchyMap, ← hroot]
    rfl
  -- only the inspection writes these files, as the last program
  by_cases hstatus : (Script.run tools.flow s).2 = 0
  · obtain ⟨s', hrun⟩ := Script.exists_of_run_snd hstatus
    obtain ⟨files, hierarchy, -, -, hresults⟩ := results_of_completed hrun
    unfold Checkout.Consistent
    rw [hinventory, hmap, ← hdump, hrun]
    exact Or.inr (Or.inr ⟨modulesIn env.exportedCollateralDir files, hierarchy, hresults⟩)
  · obtain ⟨hkept, hreport⟩ := reports_of_failed hstatus
    refine h.emptied ?_ ?_
    · rw [hmap]
      exact hkept
    · rw [hinventory]
      exact hreport

omit [PyWord] in
/-- The smoke flow changes neither of them. -/
theorem consistent_smokeFlow {c : Checkout} {env : SmokeFlow.Env} {tools : SmokeFlow.Tools env}
    (hroot : env.rootDir = c.rootDir)
    (hprograms : ∀ p ∈ [tools.gcc, tools.make, tools.simulator, tools.hotspot],
      .file c.inventory ∉ p.writes) {s : Store} (h : c.Consistent s) :
    c.Consistent (Script.run tools.flow s).1 := by
  have hmap : contents (Script.run tools.flow s).1 c.hierarchyMap = contents s c.hierarchyMap := by
    rw [← path_hierarchyMap hroot]
    exact SmokeFlow.frame_hierarchyMap s
  have hinventory : contents (Script.run tools.flow s).1 c.inventory = contents s c.inventory := by
    refine SmokeFlow.frame_flow (fun h => by cases h) (fun a h => ?_) hprograms s
    exact inventory_ne_path c env a (Loc.file.inj h)
  unfold Checkout.Consistent at h ⊢
  rw [hmap, hinventory]
  exact h

/-- **The inventory and the hierarchy map belong together.**  Whatever is generated and simulated in
a checkout, with any variables, in any order, and however the calls end: if it has been so before,
both files are missing, or both describe the same modules, or the inventory is empty. -/
theorem calls_consistent {c : Checkout} (calls : List (Call c)) {s : Store} (h : c.Consistent s) :
    c.Consistent (calls.foldl (fun s call => call.run s) s) := by
  induction calls generalizing s with
  | nil => exact h
  | cons call calls ih =>
      refine ih ?_
      cases call with
      | generation env tools hroot hdump => exact consistent_generation hroot hdump h
      | smokeFlow env tools hroot hprograms => exact consistent_smokeFlow hroot hprograms h

/-- The checkout of the small generation. -/
def meshCheckout : Checkout := ⟨"/work".toList, fun _ => meshMap⟩

/-- A smoke flow between two generations. -/
def meshCalls : List (Call meshCheckout) :=
  [.generation meshEnv meshTools rfl rfl,
    .smokeFlow pulseEnv pulseTools rfl (by
      have hne : ∀ a, Loc.file meshCheckout.inventory ≠ pulseEnv.loc a :=
        fun a h => inventory_ne_path meshCheckout pulseEnv a (Loc.file.inj h)
      simp only [List.mem_cons, List.not_mem_nil, or_false, forall_eq_or_imp, forall_eq]
      exact ⟨hne .binary, fun h => (by cases h), hne .vcd, hne .ttrace⟩),
    .generation meshEnv meshTools rfl rfl]

omit [PyStr] [PyWord] in
theorem calls_consistent_mesh :
    @Checkout.Consistent asciiStr meshCheckout
      (meshCalls.foldl (fun s call => @Call.run asciiStr asciiWord _ call s) pulseStart) :=
  @calls_consistent asciiStr asciiWord meshCheckout meshCalls _ (Or.inl ⟨rfl, rfl⟩)

/-! ## A generation and a smoke flow -/

omit [PyWord] in
/-- What an extraction with the map of a generation writes. -/
theorem exists_of_extractMain {modules : OrderedDict Str (List Str)} {vcd : List UInt8}
    {workload : Str} {topSignals : ℤ} {excludeClocks : Bool} {texts : Str × Str}
    (h : extractMain (some (hierarchyMapOf modules)) vcd workload topSignals excludeClocks
      = .ok texts) :
    ∃ signals timeSteps lastTime out, Vcd.iterVcd vcd = .ok (signals, timeSteps, lastTime) ∧
      out = Job.writeOutputsWith double ⟨timeSteps, lastTime, workload,
        extendedTerms (categorized modules), excludeClocks⟩ signals topSignals ∧
      texts = (signalCsv out.1, regionCsv out.2) := by
  unfold extractMain Job.mainWith at h
  cases hread : Vcd.iterVcd vcd with
  | error e =>
      rw [hread] at h
      cases h
  | ok table =>
      obtain ⟨signals, timeSteps, lastTime⟩ := table
      rw [hread, hierarchyMapOf, loadCategoryTerms_writeYaml] at h
      exact ⟨signals, timeSteps, lastTime, _, rfl, rfl, (Except.ok.inj h).symm⟩

omit [PyWord] in
/-- The used categories are regions of the report. -/
theorem exists_region_of_mem {modules : OrderedDict Str (List Str)} {category : Str}
    (h : category ∈ builtinTerms.keys ∨ category ∈ usedCategories modules) (job : Job)
    (hterms : job.terms = extendedTerms (categorized modules))
    (signals : OrderedDict Str Vcd.Signal) (topSignals : ℤ) :
    ∃ row ∈ (job.writeOutputsWith double signals topSignals).2, row.region = category := by
  have hname : category ∈ job.regionNames signals := by
    refine (job.mem_regionNames signals category).mpr (Or.inl ?_)
    rw [hterms]
    exact (mem_keys_extendedTerms modules category).mpr h
  rw [← map_region_writeOutputsWith double job signals topSignals] at hname
  exact List.mem_map.mp hname

/-- **From the RTL to the blocks.**  If a generation and then a smoke flow complete in one checkout,
the reports are those of the dump with the modules of the exported collateral among the terms, and
every category that the inventory uses is a region of them, as are the built-in ones. -/
theorem generation_then_smokeFlow {env : Env} {tools : Tools env} {smoke : SmokeFlow.Env}
    {smokeTools : SmokeFlow.Tools smoke} (hroot : smoke.rootDir = env.rootDir)
    {s s' s'' : Store} (hgeneration : Script.run tools.flow s = (s', 0))
    (hsmoke : Script.run smokeTools.flow s' = (s'', 0)) {files : List (Str × List UInt8)}
    (hfiles : s' env.exportedCollateral = some files) {modules : OrderedDict Str (List Str)}
    (hmodules : modules = modulesIn env.exportedCollateralDir files)
    (hload : smokeTools.safeLoad (encodeUtf8 (tools.safeDump (hierarchyMapOf modules)))
      = some (hierarchyMapOf modules)) :
    ∃ vcd signals timeSteps lastTime out,
      smoke.get s'' .vcd = some vcd ∧ Vcd.iterVcd vcd = .ok (signals, timeSteps, lastTime) ∧
      out = Job.writeOutputsWith double ⟨timeSteps, lastTime, smoke.runTag,
        extendedTerms (categorized modules), true⟩ signals 10000 ∧
      smoke.get s'' .signalCsv = some (encodeUtf8 (signalCsv out.1)) ∧
      smoke.get s'' .regionCsv = some (encodeUtf8 (regionCsv out.2)) ∧
      ∀ category, category ∈ builtinTerms.keys ∨ category ∈ usedCategories modules →
        ∃ row ∈ out.2, row.region = category := by
  obtain ⟨files', hierarchy, hfiles', -, -, hmap⟩ := results_of_completed hgeneration
  obtain rfl := Option.some.inj (hfiles.symm.trans hfiles')
  rw [← hmodules] at hmap
  obtain ⟨vcd, document, signalText, regionText, floorplan, ptrace, hvcd, hdocument, hextract,
    hsignal, hregion, -⟩ := SmokeFlow.reports_of_completed hsmoke
  have hpath : smoke.path .hierarchyMap = env.path (.report .hierarchyMap) :=
    @path_hierarchyMap ⟨env.rootDir, tools.safeDump⟩ smoke hroot
  have hkept : smoke.get s'' .hierarchyMap
      = some (encodeUtf8 (tools.safeDump (hierarchyMapOf modules))) := by
    have hframe := @SmokeFlow.frame_hierarchyMap _ _ smokeTools s'
    rw [hsmoke] at hframe
    refine hframe.trans (Eq.trans ?_ hmap)
    show contents s' (smoke.path .hierarchyMap) = contents s' (env.path (.report .hierarchyMap))
    rw [hpath]
  have hloaded : document = some (hierarchyMapOf modules) := by
    rw [hkept, SmokeFlow.Tools.document, hload] at hdocument
    exact (Option.some.inj hdocument).symm
  rw [hloaded] at hextract
  obtain ⟨signals, timeSteps, lastTime, out, hread, hout, htexts⟩ := exists_of_extractMain hextract
  obtain ⟨rfl, rfl⟩ := Prod.mk.inj htexts
  refine ⟨vcd, signals, timeSteps, lastTime, out, hvcd, hread, hout, hsignal, hregion,
    fun category hcategory => ?_⟩
  rw [hout]
  exact exists_region_of_mem hcategory _ rfl signals 10000

/-- The smoke flow with a library that knows the map of the mesh. -/
def meshSmokeTools : SmokeFlow.Tools pulseEnv :=
  { pulseTools with
    safeLoad := fun bytes =>
      if bytes = encodeUtf8 meshMap then
        some (@hierarchyMapOf asciiStr (@modulesIn asciiWord meshEnv.exportedCollateralDir meshRtl))
      else none }

/-- The smoke flow after the generation of the mesh. -/
def meshSmokeFlow : List Program := @SmokeFlow.Tools.flow asciiStr _ meshSmokeTools

/-- The modules of the exported mesh. -/
def exportedMesh : OrderedDict Str (List Str) :=
  @modulesIn asciiWord meshEnv.exportedCollateralDir meshRtl

omit [PyStr] [PyWord] in
theorem safeLoad_meshMap :
    meshSmokeTools.safeLoad (encodeUtf8 meshMap)
      = some (@hierarchyMapOf asciiStr exportedMesh) := by
  simp only [meshSmokeTools, if_true]
  rfl

omit [PyStr] [PyWord] in
/-- The flow completes on every disk with this map. -/
theorem exists_run_meshSmokeFlow {s : Store}
    (hmap : pulseEnv.get s .hierarchyMap = some (encodeUtf8 meshMap)) :
    ∃ s', Script.run meshSmokeFlow s = (s', 0) := by
  have hbuilt : (Script.run [meshSmokeTools.gcc, meshSmokeTools.buildSimulator] s).2 = 0 := by
    have hbuild : ∀ t : Store, (meshSmokeTools.buildSimulator.run t).2 = 0 :=
      Script.runUnless_run_snd fun _ => rfl
    rw [Script.run_cons_of_eq_zero rfl, Script.run_cons_of_eq_zero (hbuild _)]
    rfl
  have hdocument : meshSmokeTools.document (pulseEnv.get s .hierarchyMap)
      = some (some (@hierarchyMapOf asciiStr exportedMesh)) := by
    rw [hmap, SmokeFlow.Tools.document, safeLoad_meshMap]
    rfl
  refine @exists_run_flow asciiStr _ meshSmokeTools _ pulseDump _ _ (by decide) opens_pulseTools
    hbuilt (fun start _ => get_put_run pulseEnv .vcd (some pulseDump) start) (by decide) (by decide)
    hdocument rfl (by decide +kernel) (fun start ptrace hget hne => ⟨rfl, ptrace, ?_, hne⟩)
  exact (Function.update_self (pulseEnv.loc .ttrace) _ start).trans hget

omit [PyStr] [PyWord] in
theorem generation_then_smokeFlow_mesh :
    ∃ s' s'' vcd out, Script.run meshFlow pulseStart = (s', 0) ∧
      Script.run meshSmokeFlow s' = (s'', 0) ∧ pulseEnv.get s'' .vcd = some vcd ∧
      pulseEnv.get s'' .regionCsv = some (encodeUtf8 (regionCsv out)) ∧
      ∃ row ∈ out, row.region = "pe_array".toList := by
  obtain ⟨s', hrun⟩ := exists_run_meshFlow
  have hmap : pulseEnv.get s' .hierarchyMap = some (encodeUtf8 meshMap) := by
    obtain ⟨files, hierarchy, -, -, -, hmap⟩ :=
      @results_of_completed asciiStr asciiWord _ meshTools _ _ hrun
    rw [safeDump_meshTools] at hmap
    refine Eq.trans ?_ hmap
    show contents s' (pulseEnv.path .hierarchyMap)
      = contents s' (meshEnv.path (.report .hierarchyMap))
    rw [@path_hierarchyMap meshCheckout pulseEnv rfl]
    rfl
  obtain ⟨s'', hsmoke⟩ := exists_run_meshSmokeFlow hmap
  have hload : meshSmokeTools.safeLoad
      (encodeUtf8 (meshTools.safeDump (@hierarchyMapOf asciiStr exportedMesh)))
        = some (@hierarchyMapOf asciiStr exportedMesh) := by
    rw [safeDump_meshTools, safeLoad_meshMap]
  obtain ⟨vcd, signals, timeSteps, lastTime, out, hvcd, -, -, -, hregion, hcategories⟩ :=
    @generation_then_smokeFlow asciiStr asciiWord _ meshTools _ meshSmokeTools rfl _ _ _ hrun hsmoke
      _ (get_run_meshFlow hrun) exportedMesh rfl hload
  exact ⟨s', s'', vcd, out.2, hrun, hsmoke, hvcd, hregion,
    hcategories _ (Or.inl (by decide))⟩

end

end RtlGeneration
