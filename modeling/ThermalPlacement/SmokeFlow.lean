/-
# The smoke flow

`scripts/run_thermal_smoke_flow.sh`: build a binary, simulate it, extract the activity from the
dump, export it for HotSpot and run HotSpot, under `set -e`.  The compiler, `make`, the simulator
and HotSpot are programs of their own; all that is used about them is which files of the flow they
touch.

* `smokeFlow_completed`: if the flow completes, the dump is the one of this run, and every other
  file is what the scripts make of the files before it.
* `smokeFlow_shows_powers`: the power trace is then that of the exact report, up to rounding.
* `smokeFlow_completes`: it completes if the programs that it calls do their part, and the files
  that the script itself writes can be opened.
* `smokeFlow_keeps`: otherwise the summary has not been touched.
* `smokeFlow_leftovers`: what earlier runs have left in the files that the flow writes does not
  matter, the trace of HotSpot excepted.
* `smokeFlow_again`: a completed flow can be run again, and reproduces every file.
-/
import ThermalPlacement.Script
import ThermalPlacement.PowerTrace
import ThermalPlacement.JobLimits

open PyText Vcd Activity

namespace SmokeFlow

/-! ## Texts in files -/

/-- The bytes of a text. -/
def encodeUtf8 (s : Str) : List UInt8 := s.flatMap String.utf8EncodeChar

/-- `encoding="utf-8"`; `none` is a decoding error. -/
def decodeUtf8 (bytes : List UInt8) : Option Str := bytes.toByteArray.utf8Decode?.map Array.toList

theorem decodeUtf8_encodeUtf8 (s : Str) : decodeUtf8 (encodeUtf8 s) = some s := by
  show (s.utf8Encode.utf8Decode?).map Array.toList = some s
  rw [List.utf8Decode?_utf8Encode, Option.map_some]

theorem encodeUtf8_ne_nil {text : Str} (h : text ≠ []) : encodeUtf8 text ≠ [] := by
  intro hnil
  have hdecode := decodeUtf8_encodeUtf8 text
  rw [hnil] at hdecode
  exact h (Option.some.inj hdecode).symm

/-! ## Files -/

/-- The variables that name the files of the flow. -/
structure Env where
  rootDir : Str
  CONFIG : Option Str
  RUN_TAG : Option Str
  makeJobs : Str
  chipyardHome : Str

/-- The files of the flow. -/
inductive Artifact where
  | hierarchyMap
  | binary
  | vcd
  | log
  | err
  | signalCsv
  | regionCsv
  | floorplan
  | ptrace
  | ttrace
  | summary
  deriving DecidableEq, Repr

namespace Env

variable (env : Env)

/-- `CONFIG`, or its default. -/
def config : Str := EnvScript.orDefault env.CONFIG "GemminiRocketConfig".toList

/-- `RUN_TAG`, or its default. -/
def runTag : Str := EnvScript.orDefault env.RUN_TAG "thermal_smoke".toList

/-- `SIM`. -/
def sim : Str :=
  env.chipyardHome ++ "/sims/verilator/simulator-chipyard.harness-".toList ++ env.config
    ++ "-debug".toList

/-- The part of a path that depends on variables. -/
def stem : Artifact → Str
  | .hierarchyMap => env.rootDir ++ "/configs/gemmini/hierarchy_map".toList
  | .binary => env.rootDir ++ "/sim/binaries/".toList ++ env.config ++ "/thermal_smoke".toList
  | .vcd => env.rootDir ++ "/sim/waves/".toList ++ env.config ++ '/' :: env.runTag
  | .log => env.rootDir ++ "/sim/logs/".toList ++ env.config ++ '/' :: env.runTag
  | .err => env.rootDir ++ "/sim/logs/".toList ++ env.config ++ '/' :: env.runTag
  | .signalCsv => env.rootDir ++ "/sim/activity/".toList ++ env.runTag
  | .regionCsv => env.rootDir ++ "/sim/activity/".toList ++ env.runTag
  | .floorplan => env.rootDir ++ "/thermal/floorplans/".toList ++ env.runTag
  | .ptrace => env.rootDir ++ "/thermal/power/".toList ++ env.runTag
  | .ttrace => env.rootDir ++ "/thermal/steady/".toList ++ env.runTag
  | .summary => env.rootDir ++ "/reports/smoke/".toList ++ env.runTag

end Env

/-- How the path of a file ends. -/
def Artifact.suffix : Artifact → Str
  | .hierarchyMap => ".yaml".toList
  | .binary => "-baremetal".toList
  | .vcd => ".vcd".toList
  | .log => ".log".toList
  | .err => ".err".toList
  | .signalCsv => "_signal_activity.csv".toList
  | .regionCsv => "_region_activity.csv".toList
  | .floorplan => ".flp".toList
  | .ptrace => ".ptrace".toList
  | .ttrace => ".ttrace".toList
  | .summary => "_summary.txt".toList

/-- No suffix ends with another one. -/
theorem Artifact.eq_of_suffix {a b : Artifact} (h : a.suffix <:+ b.suffix) : a = b := by
  revert h
  cases a <;> cases b <;> decide

namespace Env

variable (env : Env)

/-- The path of a file of the flow. -/
def path (a : Artifact) : Str := env.stem a ++ a.suffix

/-- **No file of the flow is written over another one**, whatever the variables are. -/
theorem path_injective : Function.Injective env.path := by
  intro a b h
  have ha : a.suffix <:+ env.path b := h ▸ List.suffix_append _ _
  have hb : b.suffix <:+ env.path b := List.suffix_append _ _
  rcases List.suffix_or_suffix_of_suffix ha hb with hsuffix | hsuffix
  · exact Artifact.eq_of_suffix hsuffix
  · exact (Artifact.eq_of_suffix hsuffix).symm

end Env

/-! ## The store -/

/-- What the scripts work on: the contents of files and of directories that are read as a whole,
which files are executable, and the variable `sim_status`. -/
inductive Loc where
  | file (path : Str)
  | tree (path : Str)
  | executable (path : Str)
  | simStatus
  deriving DecidableEq

/-- A directory has files under their paths in it. -/
def Val : Loc → Type
  | .file _ => Option (List UInt8)
  | .tree _ => Option (List (Str × List UInt8))
  | .executable _ => Bool
  | .simStatus => ℕ

/-- The state of the disk. -/
abbrev Store := Script.Store Val

/-- A program that works on the disk. -/
abbrev Program := Script.Program Val

/-- The location of a file of the flow. -/
def Env.loc (env : Env) (a : Artifact) : Loc := .file (env.path a)

@[simp] theorem Env.loc_inj {env : Env} {a b : Artifact} : env.loc a = env.loc b ↔ a = b := by
  constructor
  · intro h
    exact env.path_injective (Loc.file.inj h)
  · exact congrArg env.loc

@[simp] theorem Env.loc_ne_simStatus {env : Env} {a : Artifact} : env.loc a ≠ .simStatus :=
  fun h => by cases h

@[simp] theorem Env.simStatus_ne_loc {env : Env} {a : Artifact} : .simStatus ≠ env.loc a :=
  fun h => by cases h

@[simp] theorem Env.loc_ne_executable {env : Env} {a : Artifact} {path : Str} :
    env.loc a ≠ .executable path := fun h => by cases h

/-- The contents of a file of the flow. -/
def Env.get (env : Env) (s : Store) (a : Artifact) : Option (List UInt8) := s (env.loc a)

/-- `[ -s "$file" ]`. -/
def nonempty (file : Option (List UInt8)) : Bool :=
  match file with
  | none => false
  | some bytes => !bytes.isEmpty

/-- The bytes of a text, as the contents of a file of the flow. -/
def Env.holds (env : Env) (a : Artifact) (text : Str) : Σ l, Val l :=
  ⟨env.loc a, some (encodeUtf8 text)⟩

/-! ## Programs of others -/

/-- A program changes no file of the flow but those in `as`. -/
def Env.Touches (env : Env) (p : Program) (as : List Artifact) : Prop :=
  .simStatus ∉ p.writes ∧ ∀ a, env.loc a ∈ p.writes → a ∈ as

/-- The programs that the script calls.  The compiler writes the binary, the simulator the dump
and its outputs, HotSpot its trace; the simulator does so even if it fails.  `safeLoad` is the
parser of YAML, `isArgument` whether `argparse` takes a word as the value of an option, and `opens`
whether the shell can open a file to write it. -/
structure Tools (env : Env) where
  safeLoad : List UInt8 → Option Yaml
  isArgument : Str → Bool
  opens : Artifact → Bool
  gcc : Program
  make : Program
  simulator : Program
  hotspot : Program
  gcc_touches : env.Touches gcc [.binary]
  make_touches : env.Touches make []
  simulator_touches : env.Touches simulator [.vcd, .log, .err]
  simulator_agree : ∀ {s s' : Store}, Script.Agree simulator.reads s s' →
    Script.Agree simulator.writes (simulator.run s).1 (simulator.run s').1
  hotspot_touches : env.Touches hotspot [.ttrace]

section

variable [PyStr] {env : Env} (tools : Tools env)

namespace Tools

/-! ## The scripts on files -/

/-- The document that `load_category_terms` loads. -/
def document (file : Option (List UInt8)) : Option (Option Yaml) :=
  match file with
  | none => some none
  | some bytes => (tools.safeLoad bytes).map some

/-- The texts of both CSV files, or the exit status. -/
def extractTexts (s : Store) : Except ℕ (Str × Str) :=
  if tools.isArgument env.runTag then
    match env.get s .vcd, tools.document (env.get s .hierarchyMap) with
    | some vcd, some document =>
        match extractMain document vcd env.runTag 10000 true with
        | .error _ => .error 1
        | .ok texts => .ok texts
    | _, _ => .error 1
  else .error 2

theorem ne_zero_of_extractTexts {s : Store} {status : ℕ}
    (h : tools.extractTexts s = .error status) : status ≠ 0 := by
  unfold extractTexts at h
  split_ifs at h
  · split at h
    · split at h
      · rw [← Except.error.inj h]
        decide
      · cases h
    · rw [← Except.error.inj h]
      decide
  · rw [← Except.error.inj h]
    decide

theorem exists_of_extractTexts {s : Store} {vcd : List UInt8} {texts : Str × Str}
    (hvcd : env.get s .vcd = some vcd) (h : tools.extractTexts s = .ok texts) :
    ∃ document, tools.document (env.get s .hierarchyMap) = some document ∧
      extractMain document vcd env.runTag 10000 true = .ok texts := by
  unfold extractTexts at h
  rw [hvcd] at h
  split_ifs at h
  cases hdocument : tools.document (env.get s .hierarchyMap) with
  | none =>
      rw [hdocument] at h
      cases h
  | some document =>
      rw [hdocument] at h
      dsimp only at h
      split at h
      · cases h
      · rename_i htexts
        obtain rfl := Except.ok.inj h
        exact ⟨document, rfl, htexts⟩

theorem extractTexts_congr {s s' : Store}
    (h : Script.Agree {env.loc .vcd, env.loc .hierarchyMap} s s') :
    tools.extractTexts s = tools.extractTexts s' := by
  have hvcd : env.get s .vcd = env.get s' .vcd := h _ (Or.inl rfl)
  have hmap : env.get s .hierarchyMap = env.get s' .hierarchyMap := h _ (Or.inr rfl)
  unfold extractTexts
  rw [hvcd, hmap]

/-- What the extraction writes, and its status. -/
def extractWrites (s : Store) : List (Σ l, Val l) × ℕ :=
  match tools.extractTexts s with
  | .error status => ([], status)
  | .ok texts => ([env.holds .signalCsv texts.1, env.holds .regionCsv texts.2], 0)

/-- The extraction writes both files or fails. -/
theorem extractWrites_cases (s : Store) :
    ((tools.extractWrites s).1 = [] ∧ (tools.extractWrites s).2 ≠ 0) ∨
      ∃ texts, tools.extractTexts s = .ok texts ∧
        tools.extractWrites s
          = ([env.holds .signalCsv texts.1, env.holds .regionCsv texts.2], 0) := by
  unfold extractWrites
  cases htexts : tools.extractTexts s with
  | error status => exact Or.inl ⟨rfl, tools.ne_zero_of_extractTexts htexts⟩
  | ok texts => exact Or.inr ⟨texts, rfl, rfl⟩

/-- `extract_vcd_activity.py`. -/
def extractVcdActivity : Program :=
  Script.compute {env.loc .vcd, env.loc .hierarchyMap} {env.loc .signalCsv, env.loc .regionCsv}
    tools.extractWrites
    (fun s s' h => by rw [extractWrites, tools.extractTexts_congr h, extractWrites])
    (fun s w hw => by
      rcases tools.extractWrites_cases s with ⟨hnil, -⟩ | ⟨texts, -, hwrites⟩
      · rw [hnil] at hw
        cases hw
      · rw [hwrites] at hw
        obtain rfl | hw := List.mem_cons.mp hw
        · exact Or.inl rfl
        · rw [List.mem_singleton.mp hw]
          exact Or.inr rfl)
    (fun s hstatus l hl => by
      rcases tools.extractWrites_cases s with ⟨-, hne⟩ | ⟨texts, -, hwrites⟩
      · exact absurd hstatus hne
      · rw [hwrites]
        obtain rfl | rfl := hl
        · exact ⟨_, List.mem_cons_self, rfl⟩
        · exact ⟨_, List.mem_cons_of_mem _ List.mem_cons_self, rfl⟩)

end Tools

end

namespace Env

variable (env : Env)

/-- What the export makes of the region CSV; `none` if it is not there or no text. -/
def exportRun (s : Store) : Option ExportRun :=
  ((env.get s .regionCsv).bind decodeUtf8).map (fun text => exportMain text (double (1 / 20)) 2)

/-- What the export writes, and its status. -/
def exportWrites (s : Store) : List (Σ l, Val l) × ℕ :=
  match env.exportRun s with
  | none => ([], 1)
  | some r =>
      ((r.floorplan.map (env.holds .floorplan)).toList ++ (r.ptrace.map (env.holds .ptrace)).toList,
        match r.outcome with
        | .ok _ => 0
        | .error _ => 1)

/-- The export has written both files or has failed. -/
theorem exportWrites_cases (s : Store) :
    (env.exportWrites s).2 ≠ 0 ∨
      ∃ floorplan ptrace, env.exportRun s = some ⟨some floorplan, some ptrace, .ok ()⟩ ∧
        env.exportWrites s = ([env.holds .floorplan floorplan, env.holds .ptrace ptrace], 0) := by
  unfold exportWrites
  cases hrun : env.exportRun s with
  | none => exact Or.inl (fun h => by cases h)
  | some r =>
      obtain ⟨text, -, rfl⟩ := Option.map_eq_some_iff.mp hrun
      cases houtcome : (exportMain text (double (1 / 20)) 2).outcome with
      | error e =>
          refine Or.inl (fun h => ?_)
          dsimp only at h
          rw [houtcome] at h
          cases h
      | ok =>
          obtain ⟨floorplan, ptrace, h⟩ := files_of_outcome houtcome
          rw [h]
          exact Or.inr ⟨floorplan, ptrace, rfl, rfl⟩

/-- `export_smoke_hotspot_inputs.py`. -/
def exportSmokeHotspotInputs : Program :=
  Script.compute {env.loc .regionCsv} {env.loc .floorplan, env.loc .ptrace} env.exportWrites
    (fun s s' h => by
      have hregion : env.get s .regionCsv = env.get s' .regionCsv := h _ rfl
      unfold exportWrites exportRun
      rw [hregion])
    (fun s w hw => by
      unfold exportWrites at hw
      split at hw
      · cases hw
      · rcases List.mem_append.mp hw with hw | hw
        · obtain ⟨text, -, rfl⟩ := Option.map_eq_some_iff.mp (Option.mem_toList.mp hw)
          exact Or.inl rfl
        · obtain ⟨text, -, rfl⟩ := Option.map_eq_some_iff.mp (Option.mem_toList.mp hw)
          exact Or.inr rfl)
    (fun s hstatus l hl => by
      rcases env.exportWrites_cases s with hne | ⟨floorplan, ptrace, -, hwrites⟩
      · exact absurd hstatus hne
      · rw [hwrites]
        obtain rfl | rfl := hl
        · exact ⟨_, List.mem_cons_self, rfl⟩
        · exact ⟨_, List.mem_cons_of_mem _ List.mem_cons_self, rfl⟩)

/-- The text of the summary. -/
def summaryText (simStatus : ℕ) : Str :=
  "thermal smoke flow completed\nconfig: ".toList ++ env.config
    ++ "\nmake_jobs: ".toList ++ env.makeJobs
    ++ "\nsim_status: ".toList ++ natText simStatus
    ++ "\nbinary: ".toList ++ env.path .binary
    ++ "\nvcd: ".toList ++ env.path .vcd
    ++ "\nsignal_activity: ".toList ++ env.path .signalCsv
    ++ "\nregion_activity: ".toList ++ env.path .regionCsv
    ++ "\nfloorplan: ".toList ++ env.path .floorplan
    ++ "\nptrace: ".toList ++ env.path .ptrace
    ++ "\nttrace: ".toList ++ env.path .ttrace ++ ['\n']

/-- The summary of this run. -/
def putSummary : Program :=
  Script.compute {.simStatus} {env.loc .summary}
    (fun s => ([env.holds .summary (env.summaryText (s .simStatus))], 0))
    (fun s s' h => by rw [h _ rfl])
    (fun _ w hw => by rw [List.mem_singleton.mp hw]; rfl)
    (fun _ _ l hl => ⟨_, List.mem_cons_self, hl.symm⟩)

/-- `[ -s "$file" ]`, or the script exits. -/
def requireNonempty (a : Artifact) : Program :=
  Script.require {env.loc a} (fun s => nonempty (env.get s a)) (fun s s' h => by
    have hfile : env.get s a = env.get s' a := h _ rfl
    rw [hfile])

/-- A file gets fixed contents, or it is removed. -/
def put (a : Artifact) (file : Option (List UInt8)) : Program := Script.set (env.loc a) file

/-- `rm -f`. -/
def remove (a : Artifact) : Program := env.put a none

end Env

/-! ## The flow -/

section

variable [PyStr] {env : Env} (tools : Tools env)

namespace Tools

/-- A redirection opens a file.  Where it cannot, the simulator is not started; there is no dump
then, so the script exits. -/
def truncate (a : Artifact) : Program := Script.startIf (tools.opens a) (env.put a (some []))

/-- `cat > "$summary"`. -/
def writeSummary : Program := Script.startIf (tools.opens .summary) env.putSummary

/-- The files that the script itself opens are in directories that `mkdir -p` has made, unless
`RUN_TAG` has a slash; so they can be opened. -/
def Opens : Prop :=
  '/' ∉ env.runTag → ∀ a ∈ [Artifact.log, .err, .summary], tools.opens a = true

/-- `make`, if there is no simulator. -/
def buildSimulator : Program :=
  Script.runUnless {.executable env.sim} (fun s => s (.executable env.sim)) (fun _ _ h => h _ rfl)
    tools.make

/-- What comes before the simulation: the binary, the simulator, and no output of an earlier
run. -/
def preparation : List Program :=
  [tools.gcc, tools.buildSimulator, env.remove .vcd, env.remove .log, env.remove .err,
    tools.truncate .log, tools.truncate .err]

/-- The simulation, whose status does not matter. -/
def simulation : Program := Script.capture tools.simulator tools.simulator_agree .simStatus id

/-- What comes after the simulation. -/
def evaluation : List Program :=
  [env.requireNonempty .vcd, tools.extractVcdActivity, env.exportSmokeHotspotInputs, tools.hotspot,
    env.requireNonempty .ttrace, tools.writeSummary]

/-- `run_thermal_smoke_flow.sh`. -/
def flow : List Program := tools.preparation ++ tools.simulation :: tools.evaluation

end Tools

/-! ## What the programs write -/

@[simp] theorem writes_extractVcdActivity :
    tools.extractVcdActivity.writes = {env.loc .signalCsv, env.loc .regionCsv} := rfl

@[simp] theorem reads_extractVcdActivity :
    tools.extractVcdActivity.reads = {env.loc .vcd, env.loc .hierarchyMap} := rfl

omit [PyStr] in
@[simp] theorem writes_exportSmokeHotspotInputs :
    env.exportSmokeHotspotInputs.writes = {env.loc .floorplan, env.loc .ptrace} := rfl

omit [PyStr] in
@[simp] theorem reads_exportSmokeHotspotInputs :
    env.exportSmokeHotspotInputs.reads = {env.loc .regionCsv} := rfl

omit [PyStr] in
@[simp] theorem writes_buildSimulator : tools.buildSimulator.writes = tools.make.writes := rfl

omit [PyStr] in
@[simp] theorem writes_simulation :
    tools.simulation.writes = insert .simStatus tools.simulator.writes := rfl

omit [PyStr] in
@[simp] theorem writes_put (a : Artifact) (file : Option (List UInt8)) :
    (env.put a file).writes = {env.loc a} := rfl

omit [PyStr] in
theorem get_put_run (env : Env) (a : Artifact) (file : Option (List UInt8)) (s : Store) :
    env.get ((env.put a file).run s).1 a = file := Function.update_self (env.loc a) _ _

omit [PyStr] in
@[simp] theorem reads_put (a : Artifact) (file : Option (List UInt8)) :
    (env.put a file).reads = ∅ := rfl

omit [PyStr] in
@[simp] theorem writes_remove (a : Artifact) : (env.remove a).writes = {env.loc a} := rfl

omit [PyStr] in
@[simp] theorem writes_truncate (a : Artifact) : (tools.truncate a).writes = {env.loc a} := rfl

omit [PyStr] in
@[simp] theorem writes_requireNonempty (a : Artifact) : (env.requireNonempty a).writes = ∅ := rfl

omit [PyStr] in
@[simp] theorem reads_requireNonempty (a : Artifact) :
    (env.requireNonempty a).reads = {env.loc a} := rfl

omit [PyStr] in
@[simp] theorem writes_writeSummary : tools.writeSummary.writes = {env.loc .summary} := rfl

omit [PyStr] in
@[simp] theorem reads_writeSummary : tools.writeSummary.reads = {.simStatus} := rfl

omit [PyStr] in
theorem Env.Touches.notMem {p : Program} {as : List Artifact} (h : env.Touches p as) {a : Artifact}
    (ha : a ∉ as) : env.loc a ∉ p.writes := fun hmem => ha (h.2 a hmem)

/-! ## A flow that completes -/

section

/-- A checkout without outputs. -/
def pulseEnv : Env := ⟨"/work".toList, none, none, ['8'], "/chipyard".toList⟩

/-- A disk with a simulator and no files. -/
def pulseStart : Store
  | .file _ => none
  | .tree _ => none
  | .executable _ => true
  | .simStatus => (0 : ℕ)

/-- A compiler, a simulator that dumps a short pulse, and a HotSpot that copies the powers. -/
def pulseTools : Tools pulseEnv where
  safeLoad _ := none
  isArgument word := word.head? != some '-'
  opens _ := true
  gcc := pulseEnv.put .binary (some [127, 69, 76, 70])
  make := Script.set (.executable pulseEnv.sim) true
  simulator := pulseEnv.put .vcd (some pulseDump)
  hotspot := Script.compute {pulseEnv.loc .ptrace} {pulseEnv.loc .ttrace}
    (fun s => ([⟨pulseEnv.loc .ttrace, pulseEnv.get s .ptrace⟩], 0))
    (fun s s' h => by rw [show pulseEnv.get s .ptrace = pulseEnv.get s' .ptrace from h _ rfl])
    (fun _ w hw => by rw [List.mem_singleton.mp hw]; rfl)
    (fun _ _ l hl => ⟨_, List.mem_cons_self, hl.symm⟩)
  gcc_touches := by simp [Env.Touches]
  make_touches := ⟨fun h => Loc.noConfusion (Set.mem_singleton_iff.mp h),
    fun _ h => absurd h Env.loc_ne_executable⟩
  simulator_touches := by simp [Env.Touches]
  simulator_agree h := Script.Program.agree _ h rfl
  hotspot_touches := by simp [Env.Touches]

/-- The smoke flow with these programs. -/
def pulseFlow : List Program := @Tools.flow asciiStr _ pulseTools

end

/-! ## When the flow completes -/

section

variable {tools} {s : Store}

omit [PyStr] in
/-- There is no dump before the simulation. -/
theorem get_vcd_preparation (h : (Script.run tools.preparation s).2 = 0) :
    env.get (Script.run tools.preparation s).1 .vcd = none := by
  have hprepared : Script.run ([tools.gcc, tools.buildSimulator] ++ env.remove .vcd ::
      [env.remove .log, env.remove .err, tools.truncate .log, tools.truncate .err]) s
      = Script.run tools.preparation s := rfl
  rw [← hprepared] at h ⊢
  obtain ⟨-, -, -, hrest⟩ := Script.exists_of_run_append_cons h
  rw [hrest]
  exact (Script.run_frame (by simp)).trans (get_put_run env .vcd none _)

omit [PyStr] in
theorem run_requireNonempty {a : Artifact} {bytes : List UInt8} (h : env.get s a = some bytes)
    (hne : bytes ≠ []) : (env.requireNonempty a).run s = (s, 0) := by
  have hnonempty : nonempty (env.get s a) = true := by
    rw [h]
    cases bytes with
    | nil => exact absurd rfl hne
    | cons => rfl
  exact Prod.ext rfl (if_pos hnonempty)

/-- An extraction that succeeds. -/
theorem run_extract {vcd : List UInt8} {document : Option Yaml} {texts : Str × Str}
    (hargument : tools.isArgument env.runTag = true) (hvcd : env.get s .vcd = some vcd)
    (hdocument : tools.document (env.get s .hierarchyMap) = some document)
    (hextract : extractMain document vcd env.runTag 10000 true = .ok texts) :
    (tools.extractVcdActivity.run s).2 = 0 ∧
      env.get (tools.extractVcdActivity.run s).1 .regionCsv = some (encodeUtf8 texts.2) := by
  have htexts : tools.extractTexts s = .ok texts := by
    rw [Tools.extractTexts, if_pos hargument, hvcd, hdocument]
    dsimp only
    rw [hextract]
  have hwrites : tools.extractWrites s
      = ([env.holds .signalCsv texts.1, env.holds .regionCsv texts.2], 0) := by
    rw [Tools.extractWrites, htexts]
  obtain ⟨hstatus, hleft⟩ := Script.compute_run hwrites (by simp [Env.holds])
  exact ⟨hstatus, hleft _ (List.mem_cons_of_mem _ List.mem_cons_self)⟩

omit [PyStr] in
/-- An export that succeeds. -/
theorem run_export {text floorplan ptrace : Str}
    (hregion : env.get s .regionCsv = some (encodeUtf8 text))
    (hexport : exportMain text (double (1 / 20)) 2 = ⟨some floorplan, some ptrace, .ok ()⟩) :
    (env.exportSmokeHotspotInputs.run s).2 = 0 ∧
      env.get (env.exportSmokeHotspotInputs.run s).1 .ptrace = some (encodeUtf8 ptrace) := by
  have hwrites : env.exportWrites s
      = ([env.holds .floorplan floorplan, env.holds .ptrace ptrace], 0) := by
    rw [Env.exportWrites, Env.exportRun, hregion, Option.bind_some, decodeUtf8_encodeUtf8,
      Option.map_some, hexport]
    rfl
  obtain ⟨hstatus, hleft⟩ := Script.compute_run hwrites (by simp [Env.holds])
  exact ⟨hstatus, hleft _ (List.mem_cons_of_mem _ List.mem_cons_self)⟩

theorem exists_job_of_mainWith {fl : ℚ → ℚ} {document : Option Yaml} {vcd : List UInt8}
    {workload : Str} {topSignals : ℤ} {excludeClocks : Bool}
    {out : List SignalRow × List RegionRow}
    (hout : Job.mainWith fl document vcd workload topSignals excludeClocks = .ok out) :
    ∃ job signals, loadCategoryTerms document = .ok job.terms ∧
      out = Job.writeOutputsWith fl job signals topSignals := by
  unfold Job.mainWith at hout
  cases hread : iterVcd vcd with
  | error err =>
      rw [hread] at hout
      cases hout
  | ok r =>
      obtain ⟨signals, timeSteps, lastTime⟩ := r
      cases hterms : loadCategoryTerms document with
      | error err =>
          rw [hread, hterms] at hout
          cases hout
      | ok terms =>
          rw [hread, hterms] at hout
          exact ⟨⟨timeSteps, lastTime, workload, terms, excludeClocks⟩, signals, rfl,
            (Except.ok.inj hout).symm⟩

/-- The export succeeds on the region CSV of an extraction, and the power trace is not empty. -/
theorem exists_export_of_mainWith {document : Option Yaml} {vcd : List UInt8} {workload : Str}
    {topSignals : ℤ} {excludeClocks : Bool} {out : List SignalRow × List RegionRow}
    (hout : Job.mainWith double document vcd workload topSignals excludeClocks = .ok out)
    (hfit : ∀ row ∈ out.2, Fit row.fields) (basePower dynamicScale : ℚ) :
    ∃ floorplan ptrace, exportMain (regionCsv out.2) basePower dynamicScale
      = ⟨some floorplan, some ptrace, .ok ()⟩ ∧ ptrace ≠ [] := by
  obtain ⟨job, signals, hterms, rfl⟩ := exists_job_of_mainWith hout
  have hne := regions_ne_nil (keys_ne_nil hterms) signals topSignals
  refine ⟨_, _, regionLayout.exportMain_csv hne (by decide) hfit
    (fun row hrow => isDouble_writeOutputsWith hrow) basePower dynamicScale, ?_⟩
  rw [ptraceText]
  exact List.append_ne_nil_of_right_ne_nil _ (List.cons_ne_nil _ _)

omit [PyStr] in
/-- The preparation ends as the builds do. -/
theorem run_preparation_snd (hlog : tools.opens .log = true) (herr : tools.opens .err = true)
    (hbuilt : (Script.run [tools.gcc, tools.buildSimulator] s).2 = 0) :
    (Script.run tools.preparation s).2 = 0 := by
  have hsplit : tools.preparation = [tools.gcc, tools.buildSimulator] ++
      [env.remove .vcd, env.remove .log, env.remove .err, tools.truncate .log,
        tools.truncate .err] := rfl
  have hremoved : ∀ (a : Artifact) (t : Store), ((env.remove a).run t).2 = 0 := fun _ _ => rfl
  have hopened : ∀ {a : Artifact}, tools.opens a = true → ∀ t : Store,
      ((tools.truncate a).run t).2 = 0 := fun h t => by
    rw [Tools.truncate, Script.startIf_run h]
    rfl
  rw [hsplit, Script.run_append, if_pos hbuilt, Script.run_cons_of_eq_zero (hremoved _ _),
    Script.run_cons_of_eq_zero (hremoved _ _), Script.run_cons_of_eq_zero (hremoved _ _),
    Script.run_cons_of_eq_zero (hopened hlog _), Script.run_singleton]
  exact hopened herr _

omit [PyStr] in
/-- The hierarchy map is still the old one after the simulation. -/
theorem get_hierarchyMap_simulation (s : Store) :
    env.get (tools.simulation.run (Script.run tools.preparation s).1).1 .hierarchyMap
      = env.get s .hierarchyMap := by
  have hgcc := tools.gcc_touches
  have hmake := tools.make_touches
  have hsimulator := tools.simulator_touches
  refine (Script.Program.frame _ _ _ (by simp [hsimulator.notMem])).trans (Script.run_frame ?_)
  simp [Tools.preparation, hgcc.notMem, hmake.notMem]

/-- The flow completes if what it calls does its part. -/
theorem exists_run_flow {vcd : List UInt8} {document : Option Yaml}
    {out : List SignalRow × List RegionRow} (hslash : '/' ∉ env.runTag) (hopens : tools.Opens)
    (hbuilt : (Script.run [tools.gcc, tools.buildSimulator] s).2 = 0)
    (hsimulator : ∀ start, env.get start .vcd = none →
      env.get (tools.simulator.run start).1 .vcd = some vcd) (hvcd : vcd ≠ [])
    (hargument : tools.isArgument env.runTag = true)
    (hdocument : tools.document (env.get s .hierarchyMap) = some document)
    (hout : Job.mainWith double document vcd env.runTag 10000 true = .ok out)
    (hfit : ∀ row ∈ out.2, Fit row.fields)
    (hhotspot : ∀ start ptrace, env.get start .ptrace = some ptrace → ptrace ≠ [] →
      (tools.hotspot.run start).2 = 0 ∧
        ∃ ttrace, env.get (tools.hotspot.run start).1 .ttrace = some ttrace ∧ ttrace ≠ []) :
    ∃ s', Script.run tools.flow s = (s', 0) := by
  obtain ⟨hlog, herr, hsummary⟩ : tools.opens .log = true ∧ tools.opens .err = true ∧
      tools.opens .summary = true := by simpa using hopens hslash
  have hprepared := run_preparation_snd hlog herr hbuilt
  have hmap := @get_hierarchyMap_simulation _ tools s
  set start := (Script.run tools.preparation s).1 with hstart
  have hdump : env.get (tools.simulation.run start).1 .vcd = some vcd :=
    (Script.capture_run_of_ne _ _ _ _ _ Env.loc_ne_simStatus).trans
      (hsimulator start (get_vcd_preparation hprepared))
  obtain ⟨floorplan, ptrace, hexport, hptrace⟩ :=
    exists_export_of_mainWith hout hfit (double (1 / 20)) 2
  rw [← hmap] at hdocument
  obtain ⟨hextractStatus, hregion⟩ :=
    run_extract hargument hdump hdocument (extractMain_of_mainWith hout)
  obtain ⟨hexportStatus, htrace⟩ := run_export hregion hexport
  obtain ⟨hhotspotStatus, ttrace, httrace, hne⟩ :=
    hhotspot _ _ htrace (encodeUtf8_ne_nil hptrace)
  refine Script.exists_of_run_snd ?_
  rw [Tools.flow, Script.run_append, if_pos hprepared, Script.run_cons_of_eq_zero rfl,
    Tools.evaluation,
    Script.run_cons_of_eq_zero (congrArg Prod.snd (run_requireNonempty hdump hvcd)),
    run_requireNonempty hdump hvcd, Script.run_cons_of_eq_zero hextractStatus,
    Script.run_cons_of_eq_zero hexportStatus, Script.run_cons_of_eq_zero hhotspotStatus,
    Script.run_cons_of_eq_zero (congrArg Prod.snd (run_requireNonempty httrace hne)),
    run_requireNonempty httrace hne, Script.run_singleton, Tools.writeSummary,
    Script.startIf_run hsummary]
  rfl

end

omit [PyStr] in
theorem opens_pulseTools : pulseTools.Opens := fun _ _ _ => rfl

omit [PyStr] in
theorem exists_run_pulseFlow : ∃ s', Script.run pulseFlow pulseStart = (s', 0) := by
  refine @exists_run_flow asciiStr _ pulseTools _ pulseDump none _ (by decide) opens_pulseTools rfl
    (fun start _ => get_put_run pulseEnv .vcd (some pulseDump) start) (by decide) (by decide) rfl
    rfl (by decide +kernel) (fun start ptrace hget hne => ⟨rfl, ptrace, ?_, hne⟩)
  exact (Function.update_self (pulseEnv.loc .ttrace) _ start).trans hget

/-! ## What is up to date -/

theorem texts_of_upToDate {s : Store} (h : tools.extractVcdActivity.run s = (s, 0)) :
    ∃ texts, tools.extractTexts s = .ok texts ∧
      env.get s .signalCsv = some (encodeUtf8 texts.1) ∧
      env.get s .regionCsv = some (encodeUtf8 texts.2) := by
  rcases tools.extractWrites_cases s with ⟨-, hne⟩ | ⟨texts, htexts, hwrites⟩
  · exact absurd (congrArg Prod.snd h) hne
  · obtain ⟨-, hall⟩ := Script.eq_of_compute_run h (by
      rw [hwrites]
      simp [Env.holds])
    rw [hwrites] at hall
    exact ⟨texts, htexts, hall _ List.mem_cons_self,
      hall _ (List.mem_cons_of_mem _ List.mem_cons_self)⟩

omit [PyStr] in
theorem files_of_upToDate {s : Store} (h : env.exportSmokeHotspotInputs.run s = (s, 0)) :
    ∃ floorplan ptrace, env.exportRun s = some ⟨some floorplan, some ptrace, .ok ()⟩ ∧
      env.get s .floorplan = some (encodeUtf8 floorplan) ∧
      env.get s .ptrace = some (encodeUtf8 ptrace) := by
  rcases env.exportWrites_cases s with hne | ⟨floorplan, ptrace, hrun, hwrites⟩
  · exact absurd (congrArg Prod.snd h) hne
  · obtain ⟨-, hall⟩ := Script.eq_of_compute_run h (by
      rw [hwrites]
      simp [Env.holds])
    rw [hwrites] at hall
    exact ⟨floorplan, ptrace, hrun, hall _ List.mem_cons_self,
      hall _ (List.mem_cons_of_mem _ List.mem_cons_self)⟩

omit [PyStr] in
theorem nonempty_of_upToDate {s : Store} {a : Artifact}
    (h : (env.requireNonempty a).run s = (s, 0)) : ∃ bytes, env.get s a = some bytes ∧ bytes ≠ [] := by
  have hstatus : (if nonempty (env.get s a) then 0 else 1) = 0 := congrArg Prod.snd h
  unfold nonempty at hstatus
  cases hget : env.get s a with
  | none =>
      rw [hget] at hstatus
      cases hstatus
  | some bytes =>
      rw [hget] at hstatus
      refine ⟨bytes, rfl, ?_⟩
      rintro rfl
      cases hstatus

section

variable {tools} {s s' : Store}

/-- The extraction is up to date. -/
theorem upToDate_extract (h : Script.run tools.flow s = (s', 0)) :
    tools.extractVcdActivity.run s' = (s', 0) := by
  have hflow : Script.run ((tools.preparation ++ [tools.simulation, env.requireNonempty .vcd]) ++
      tools.extractVcdActivity :: [env.exportSmokeHotspotInputs, tools.hotspot,
        env.requireNonempty .ttrace, tools.writeSummary]) s = (s', 0) := h
  have hhotspot := tools.hotspot_touches
  refine Script.upToDate hflow (by simp) ?_
  rintro l ((rfl | rfl) | (rfl | rfl)) <;> simp [hhotspot.notMem]

/-- The export is up to date. -/
theorem upToDate_export (h : Script.run tools.flow s = (s', 0)) :
    env.exportSmokeHotspotInputs.run s' = (s', 0) := by
  have hflow : Script.run ((tools.preparation ++ [tools.simulation, env.requireNonempty .vcd,
      tools.extractVcdActivity]) ++ env.exportSmokeHotspotInputs :: [tools.hotspot,
        env.requireNonempty .ttrace, tools.writeSummary]) s = (s', 0) := h
  have hhotspot := tools.hotspot_touches
  refine Script.upToDate hflow (by simp) ?_
  rintro l (rfl | (rfl | rfl)) <;> simp [hhotspot.notMem]

/-- The simulation starts without a dump, and what it leaves stays. -/
theorem simulation_of_completed (h : Script.run tools.flow s = (s', 0)) :
    env.get (Script.run tools.preparation s).1 .vcd = none ∧
      env.get s' .vcd = env.get (tools.simulator.run (Script.run tools.preparation s).1).1 .vcd ∧
      s' .simStatus = (tools.simulator.run (Script.run tools.preparation s).1).2 := by
  obtain ⟨hprepared, -, -, hrun⟩ := Script.exists_of_run_append_cons (congrArg Prod.snd h)
  have hs' : s' = (Script.run tools.evaluation
      (tools.simulation.run (Script.run tools.preparation s).1).1).1 := by
    rw [← hrun]
    exact (congrArg Prod.fst h).symm
  have hhotspot := tools.hotspot_touches
  refine ⟨get_vcd_preparation hprepared, ?_, ?_⟩
  · rw [hs']
    exact (Script.run_frame (by simp [Tools.evaluation, hhotspot.notMem])).trans
      (Script.capture_run_of_ne _ _ _ _ _ Env.loc_ne_simStatus)
  · rw [hs']
    exact (Script.run_frame (by simp [Tools.evaluation, hhotspot.1])).trans
      (Script.capture_run_self _ _ _ _ _)

/-- The files are not empty, and the summary is that of this run. -/
theorem checks_of_completed (h : Script.run tools.flow s = (s', 0)) :
    (∃ vcd, env.get s' .vcd = some vcd ∧ vcd ≠ []) ∧
      (∃ ttrace, env.get s' .ttrace = some ttrace ∧ ttrace ≠ []) ∧
      env.get s' .summary = some (encodeUtf8 (env.summaryText (s' .simStatus))) := by
  have hhotspot := tools.hotspot_touches
  refine ⟨nonempty_of_upToDate ?_, nonempty_of_upToDate ?_, ?_⟩
  · have hflow : Script.run ((tools.preparation ++ [tools.simulation]) ++ env.requireNonempty .vcd ::
        [tools.extractVcdActivity, env.exportSmokeHotspotInputs, tools.hotspot,
          env.requireNonempty .ttrace, tools.writeSummary]) s = (s', 0) := h
    refine Script.upToDate hflow (by simp) ?_
    rintro l (rfl | hl)
    · simp [hhotspot.notMem]
    · cases hl
  · have hflow : Script.run ((tools.preparation ++ [tools.simulation, env.requireNonempty .vcd,
        tools.extractVcdActivity, env.exportSmokeHotspotInputs, tools.hotspot]) ++
          env.requireNonempty .ttrace :: [tools.writeSummary]) s = (s', 0) := h
    refine Script.upToDate hflow (by simp) ?_
    rintro l (rfl | hl)
    · simp
    · cases hl
  · have hflow : Script.run ((tools.preparation ++ [tools.simulation, env.requireNonempty .vcd,
        tools.extractVcdActivity, env.exportSmokeHotspotInputs, tools.hotspot,
          env.requireNonempty .ttrace]) ++ tools.writeSummary :: []) s = (s', 0) := h
    have hsummary : tools.writeSummary.run s' = (s', 0) :=
      Script.upToDate hflow (by simp) (by simp)
    have hput : env.putSummary.run s' = (s', 0) := by
      rw [← hsummary]
      exact (Script.run_of_startIf_run (congrArg Prod.snd hsummary)).symm
    exact (Script.eq_of_compute_run hput (List.nodup_singleton _)).2 _ List.mem_cons_self

/-- The reports and the inputs of HotSpot are made from the dump. -/
theorem reports_of_completed (h : Script.run tools.flow s = (s', 0)) :
    ∃ vcd document signalText regionText floorplan ptrace,
      env.get s' .vcd = some vcd ∧
      tools.document (env.get s' .hierarchyMap) = some document ∧
      extractMain document vcd env.runTag 10000 true = .ok (signalText, regionText) ∧
      env.get s' .signalCsv = some (encodeUtf8 signalText) ∧
      env.get s' .regionCsv = some (encodeUtf8 regionText) ∧
      exportMain regionText (double (1 / 20)) 2 = ⟨some floorplan, some ptrace, .ok ()⟩ ∧
      env.get s' .floorplan = some (encodeUtf8 floorplan) ∧
      env.get s' .ptrace = some (encodeUtf8 ptrace) := by
  obtain ⟨⟨vcd, hvcd, -⟩, -, -⟩ := checks_of_completed h
  obtain ⟨texts, htexts, hsignal, hregion⟩ := texts_of_upToDate tools (upToDate_extract h)
  obtain ⟨floorplan, ptrace, hexport, hfloorplan, hptrace⟩ := files_of_upToDate (upToDate_export h)
  have hexportMain : exportMain texts.2 (double (1 / 20)) 2
      = ⟨some floorplan, some ptrace, .ok ()⟩ := by
    rw [Env.exportRun, hregion, Option.bind_some, decodeUtf8_encodeUtf8, Option.map_some] at hexport
    exact Option.some.inj hexport
  obtain ⟨document, hdocument, hextract⟩ := tools.exists_of_extractTexts hvcd htexts
  exact ⟨vcd, document, texts.1, texts.2, floorplan, ptrace, hvcd, hdocument, hextract, hsignal,
    hregion, hexportMain, hfloorplan, hptrace⟩

/-- **A completed flow.**  The dump is not empty and is the one that the simulator has written in
this run, starting without a dump.  The CSV files are what the extraction makes of it and of the
hierarchy map, the floorplan and the power trace what the export makes of the region CSV, HotSpot
would do the same again unless it reads what is written from then on, and the summary reports this
run. -/
theorem smokeFlow_completed (h : Script.run tools.flow s = (s', 0)) :
    ∃ start vcd, env.get start .vcd = none ∧
      env.get (tools.simulator.run start).1 .vcd = some vcd ∧ vcd ≠ [] ∧
      env.get s' .vcd = some vcd ∧ s' .simStatus = (tools.simulator.run start).2 ∧
      ∃ document signalText regionText floorplan ptrace ttrace,
        tools.document (env.get s' .hierarchyMap) = some document ∧
        extractMain document vcd env.runTag 10000 true = .ok (signalText, regionText) ∧
        env.get s' .signalCsv = some (encodeUtf8 signalText) ∧
        env.get s' .regionCsv = some (encodeUtf8 regionText) ∧
        exportMain regionText (double (1 / 20)) 2 = ⟨some floorplan, some ptrace, .ok ()⟩ ∧
        env.get s' .floorplan = some (encodeUtf8 floorplan) ∧
        env.get s' .ptrace = some (encodeUtf8 ptrace) ∧
        (Disjoint tools.hotspot.reads (insert (env.loc .summary) tools.hotspot.writes) →
          tools.hotspot.run s' = (s', 0)) ∧
        env.get s' .ttrace = some ttrace ∧ ttrace ≠ [] ∧
        env.get s' .summary = some (encodeUtf8 (env.summaryText (s' .simStatus))) := by
  obtain ⟨hstart, hdump, hsim⟩ := simulation_of_completed h
  obtain ⟨⟨vcd, hvcd, hvcdNe⟩, ⟨ttrace, httrace, httraceNe⟩, hsummary⟩ := checks_of_completed h
  obtain ⟨vcd', document, signalText, regionText, floorplan, ptrace, hvcd', hreports⟩ :=
    reports_of_completed h
  obtain rfl := Option.some.inj (hvcd.symm.trans hvcd')
  obtain ⟨hdocument, hextract, hsignal, hregion, hexport, hfloorplan, hptrace⟩ := hreports
  refine ⟨_, vcd, hstart, hdump.symm.trans hvcd, hvcdNe, hvcd, hsim, document, signalText,
    regionText, floorplan, ptrace, ttrace, hdocument, hextract, hsignal, hregion, hexport, hfloorplan,
    hptrace, fun hdisjoint => ?_, httrace, httraceNe, hsummary⟩
  have hflow : Script.run ((tools.preparation ++ [tools.simulation, env.requireNonempty .vcd,
      tools.extractVcdActivity, env.exportSmokeHotspotInputs]) ++ tools.hotspot ::
        [env.requireNonempty .ttrace, tools.writeSummary]) s = (s', 0) := h
  rw [Set.disjoint_left] at hdisjoint
  refine Script.upToDate hflow (Set.disjoint_left.mpr fun l hl hw => hdisjoint hl (Or.inr hw)) ?_
  rintro l hl hlater
  obtain rfl : l = env.loc .summary := by simpa using hlater
  exact hl.elim (fun hl => hdisjoint hl (Or.inl rfl)) (tools.hotspot_touches.notMem (by decide))

omit [PyStr] in
/-- The hierarchy map and the dump after the flow. -/
theorem get_run_pulseFlow {s' : Store} (h : Script.run pulseFlow pulseStart = (s', 0)) :
    pulseEnv.get s' .hierarchyMap = none ∧ pulseEnv.get s' .vcd = some pulseDump := by
  constructor
  · have hkept : (Script.run pulseFlow pulseStart).1 (pulseEnv.loc .hierarchyMap)
        = pulseStart (pulseEnv.loc .hierarchyMap) := by
      have hmake := pulseTools.make_touches
      refine Script.run_frame ?_
      simp [pulseFlow, Tools.flow, Tools.preparation, Tools.evaluation, hmake.notMem]
      simp [pulseTools]
    rw [h] at hkept
    exact hkept
  · obtain ⟨-, hvcd, -⟩ := @simulation_of_completed asciiStr _ pulseTools _ _ h
    exact hvcd.trans (get_put_run pulseEnv .vcd (some pulseDump) _)

omit [PyStr] in
theorem smokeFlow_completed_pulse :
    ∃ s' vcd signalText regionText, Script.run pulseFlow pulseStart = (s', 0) ∧
      pulseEnv.get s' .vcd = some vcd ∧
      @extractMain asciiStr none vcd pulseEnv.runTag 10000 true = .ok (signalText, regionText) ∧
      pulseEnv.get s' .regionCsv = some (encodeUtf8 regionText) := by
  obtain ⟨s', hrun⟩ := exists_run_pulseFlow
  obtain ⟨-, vcd, -, -, -, hvcd, -, document, signalText, regionText, -, -, -, hdocument, hextract,
    -, hregion, -⟩ := @smokeFlow_completed asciiStr _ pulseTools _ _ hrun
  rw [(get_run_pulseFlow hrun).1] at hdocument
  obtain rfl : none = document := Option.some.inj hdocument
  exact ⟨s', vcd, signalText, regionText, hrun, hvcd, hextract, hregion⟩

/-- **The power trace of a completed flow.**  Its header has the regions of the exact report of the
dump, and the powers below them show those of that report; the blocks of the floorplan are the same
regions. -/
theorem smokeFlow_shows_powers (h : Script.run tools.flow s = (s', 0)) {vcd : List UInt8}
    {document : Option Yaml} {out exact : List SignalRow × List RegionRow}
    (hvcd : env.get s' .vcd = some vcd)
    (hdocument : tools.document (env.get s' .hierarchyMap) = some document)
    (hout : Job.mainWith double document vcd env.runTag 10000 true = .ok out)
    (hexact : Job.main document vcd env.runTag 10000 true = .ok exact)
    (hfit : ∀ row ∈ out.2, Fit row.fields)
    (hsize : ∀ row ∈ exact.2,
      (row.signalCount + 7) * (blockPower (double (1 / 20)) 2 row + 1) ≤ 2 ^ 31) :
    env.get s' .floorplan = some (encodeUtf8 (floorplanWith double exact.2).flatten) ∧
      ∃ powers, env.get s' .ptrace = some (encodeUtf8
          (['\t'].intercalate (exact.2.map RegionRow.region) ++ ['\n']
            ++ ['\t'].intercalate powers ++ ['\n'])) ∧
        List.Forall₂ (fun row power => Shows (blockPower (double (1 / 20)) 2 row) power) exact.2
          powers := by
  obtain ⟨vcd', document', signalText, regionText, floorplan, ptrace, hvcd', hdocument', hextract, -,
    -, hexport, hfloorplan, hptrace⟩ := reports_of_completed h
  obtain rfl := Option.some.inj (hvcd.symm.trans hvcd')
  obtain rfl := Option.some.inj (hdocument.symm.trans hdocument')
  obtain ⟨-, rfl⟩ := Prod.mk.inj
    (Except.ok.inj ((extractMain_of_mainWith hout).symm.trans hextract))
  have hbase : 0 ≤ double (1 / 20) := by decide +kernel
  obtain ⟨powers, hexport', hshows⟩ :=
    exportMain_of_mainWith hout hexact hfit hbase (by norm_num) hsize
  obtain ⟨hfloorplan', hptrace', -⟩ := ExportRun.mk.inj (hexport.symm.trans hexport')
  rw [hfloorplan, hptrace, Option.some.inj hfloorplan', Option.some.inj hptrace']
  exact ⟨rfl, powers, rfl, hshows⟩

omit [PyStr] in
theorem smokeFlow_shows_powers_pulse :
    ∃ s' rows, Script.run pulseFlow pulseStart = (s', 0) ∧ rows ≠ [] ∧
      pulseEnv.get s' .floorplan = some (encodeUtf8 (floorplanWith double rows).flatten) := by
  obtain ⟨s', hrun⟩ := exists_run_pulseFlow
  have hdocument : pulseTools.document (pulseEnv.get s' .hierarchyMap) = some none := by
    rw [(get_run_pulseFlow hrun).1]
    rfl
  obtain ⟨hfloorplan, -⟩ := @smokeFlow_shows_powers asciiStr _ pulseTools _ _ hrun pulseDump none _ _
    (get_run_pulseFlow hrun).2 hdocument rfl rfl (by decide +kernel) (by decide +kernel)
  exact ⟨s', _, hrun, by decide +kernel, hfloorplan⟩

/-- The flow reads the hierarchy map and never writes it. -/
theorem frame_hierarchyMap (s : Store) :
    env.get (Script.run tools.flow s).1 .hierarchyMap = env.get s .hierarchyMap := by
  have hgcc := tools.gcc_touches
  have hmake := tools.make_touches
  have hsimulator := tools.simulator_touches
  have hhotspot := tools.hotspot_touches
  refine Script.run_frame ?_
  simp [Tools.flow, Tools.preparation, Tools.evaluation, hgcc.notMem, hmake.notMem,
    hsimulator.notMem, hhotspot.notMem]

/-- **When the flow completes.**  If `RUN_TAG` has no slash and the files that the script itself
opens can then be opened, the binary and the simulator are built, the simulator leaves a dump on
which the extraction succeeds, no field of the region CSV is longer than the `csv` module reads, and
HotSpot makes something of every power trace that is not empty, the flow completes, with the reports
of this dump. -/
theorem smokeFlow_completes {vcd : List UInt8} {document : Option Yaml}
    {out : List SignalRow × List RegionRow} (hslash : '/' ∉ env.runTag) (hopens : tools.Opens)
    (hbuilt : (Script.run [tools.gcc, tools.buildSimulator] s).2 = 0)
    (hsimulator : ∀ start, env.get start .vcd = none →
      env.get (tools.simulator.run start).1 .vcd = some vcd) (hvcd : vcd ≠ [])
    (hargument : tools.isArgument env.runTag = true)
    (hdocument : tools.document (env.get s .hierarchyMap) = some document)
    (hout : Job.mainWith double document vcd env.runTag 10000 true = .ok out)
    (hfit : ∀ row ∈ out.2, Fit row.fields)
    (hhotspot : ∀ start ptrace, env.get start .ptrace = some ptrace → ptrace ≠ [] →
      (tools.hotspot.run start).2 = 0 ∧
        ∃ ttrace, env.get (tools.hotspot.run start).1 .ttrace = some ttrace ∧ ttrace ≠ []) :
    ∃ s', Script.run tools.flow s = (s', 0) ∧ env.get s' .vcd = some vcd ∧
      env.get s' .signalCsv = some (encodeUtf8 (signalCsv out.1)) ∧
      env.get s' .regionCsv = some (encodeUtf8 (regionCsv out.2)) := by
  obtain ⟨s', hrun⟩ := exists_run_flow hslash hopens hbuilt hsimulator hvcd hargument hdocument hout
    hfit hhotspot
  obtain ⟨hstart, hdump, -⟩ := simulation_of_completed hrun
  have hleft : env.get s' .vcd = some vcd := hdump.trans (hsimulator _ hstart)
  obtain ⟨vcd', document', signalText, regionText, floorplan, ptrace, hvcd', hdocument', hextract,
    hsignal, hregion, -⟩ := reports_of_completed hrun
  obtain rfl := Option.some.inj (hleft.symm.trans hvcd')
  have hmap := @frame_hierarchyMap _ _ tools s
  rw [hrun] at hmap
  rw [hmap, hdocument] at hdocument'
  obtain rfl := Option.some.inj hdocument'
  obtain ⟨rfl, rfl⟩ := Prod.mk.inj
    (Except.ok.inj ((extractMain_of_mainWith hout).symm.trans hextract))
  exact ⟨s', hrun, hleft, hsignal, hregion⟩

omit [PyStr] in
theorem smokeFlow_completes_pulse :
    ∃ s' out, Script.run pulseFlow pulseStart = (s', 0) ∧
      pulseEnv.get s' .regionCsv = some (encodeUtf8 (regionCsv out)) := by
  obtain ⟨s', hrun, -, -, hregion⟩ := @smokeFlow_completes asciiStr _ pulseTools pulseStart
    pulseDump none _ (by decide) opens_pulseTools rfl
    (fun start _ => get_put_run pulseEnv .vcd (some pulseDump) start) (by decide) (by decide) rfl rfl
    (by decide +kernel) (fun start ptrace hget hne => ⟨rfl, ptrace,
      (Function.update_self (pulseEnv.loc .ttrace) _ start).trans hget, hne⟩)
  exact ⟨s', _, hrun, hregion⟩

/-- What does not belong to the flow is only changed by the programs that it calls. -/
theorem frame_flow {l : Loc} (hstatus : l ≠ .simStatus) (hartifact : ∀ a, l ≠ env.loc a)
    (hp : ∀ p ∈ [tools.gcc, tools.make, tools.simulator, tools.hotspot], l ∉ p.writes) (s : Store) :
    (Script.run tools.flow s).1 l = s l := by
  simp only [List.mem_cons, List.not_mem_nil, or_false, forall_eq_or_imp, forall_eq] at hp
  refine Script.run_frame ?_
  simp [Tools.flow, Tools.preparation, Tools.evaluation, hstatus, hartifact, hp]

/-- **What the flow leaves alone.**  However it ends, the hierarchy map is what it was; unless it
completes, so is the summary; and no file changes that neither belongs to the flow nor is written
by the programs it calls. -/
theorem smokeFlow_keeps (s : Store) :
    env.get (Script.run tools.flow s).1 .hierarchyMap = env.get s .hierarchyMap ∧
      ((Script.run tools.flow s).2 ≠ 0 →
        env.get (Script.run tools.flow s).1 .summary = env.get s .summary) ∧
      ∀ l, l ≠ .simStatus → (∀ a, l ≠ env.loc a) →
        (∀ p ∈ [tools.gcc, tools.make, tools.simulator, tools.hotspot], l ∉ p.writes) →
        (Script.run tools.flow s).1 l = s l := by
  have hgcc := tools.gcc_touches
  have hmake := tools.make_touches
  have hsimulator := tools.simulator_touches
  have hhotspot := tools.hotspot_touches
  refine ⟨frame_hierarchyMap s, fun hfail => ?_, fun l hstatus hartifact hp =>
    frame_flow hstatus hartifact hp s⟩
  have hflow : tools.flow = (tools.preparation ++ [tools.simulation, env.requireNonempty .vcd,
      tools.extractVcdActivity, env.exportSmokeHotspotInputs, tools.hotspot,
        env.requireNonempty .ttrace]) ++ [tools.writeSummary] := rfl
  rw [hflow] at hfail ⊢
  refine Script.run_concat_frame ?_ hfail (fun t ht => ?_)
  · simp [Tools.preparation, hgcc.notMem, hmake.notMem, hsimulator.notMem, hhotspot.notMem]
  · rw [Tools.writeSummary, Script.startIf_run_of_ne_zero rfl ht]

end

/-! ## Leftovers -/

/-- Of the files of the flow, a program reads only those in `as`. -/
def Env.Reads (env : Env) (p : Program) (as : List Artifact) : Prop :=
  .simStatus ∉ p.reads ∧ ∀ a, env.loc a ∈ p.reads → a ∈ as

/-- The programs use the files of the flow only in its order: the binary is compiled from other
files, the simulator reads the binary, and HotSpot its inputs and at most its own old trace. -/
structure Tools.InOrder (tools : Tools env) : Prop where
  gcc_reads : env.Reads tools.gcc []
  gcc_writes : env.loc .binary ∈ tools.gcc.writes
  make_reads : env.Reads tools.make []
  simulator_reads : env.Reads tools.simulator [.binary, .vcd, .log, .err]
  hotspot_reads : env.Reads tools.hotspot [.floorplan, .ptrace, .ttrace]

/-- The status of the simulation and, of the files of the flow, those not in `as` may be left over
from earlier runs; all else is given. -/
def Env.given (env : Env) (as : List Artifact) : Set Loc :=
  {l | l ≠ .simStatus ∧ ∀ a, l = env.loc a → a ∈ as}

omit [PyStr] in
theorem Env.loc_mem_given {a : Artifact} {as : List Artifact} : env.loc a ∈ env.given as ↔ a ∈ as :=
  ⟨fun h => h.2 a rfl, fun h => ⟨Env.loc_ne_simStatus, fun _ heq => Env.loc_inj.mp heq ▸ h⟩⟩

omit [PyStr] in
theorem Env.Reads.subset {p : Program} {bs : List Artifact} (h : env.Reads p bs)
    (as : List Artifact) {M : Set Loc} (hM : env.given as ⊆ M) (hbs : ∀ a ∈ bs, env.loc a ∈ M) :
    p.reads ⊆ M := by
  intro l hl
  by_cases hgiven : l ∈ env.given as
  · exact hM hgiven
  · obtain rfl | ⟨a, rfl, -⟩ : l = .simStatus ∨ ∃ a, l = env.loc a ∧ a ∉ as := by
      simpa [Env.given, imp_iff_not_or] using hgiven
    · exact absurd hl h.1
    · exact hbs a (h.2 a hl)

omit [PyStr] in
theorem Tools.InOrder.reads_buildSimulator {tools : Tools env} (h : tools.InOrder) :
    env.Reads tools.buildSimulator [] := by
  have hmake := tools.make_touches
  constructor
  · rintro ((hl | hl) | hl)
    · cases hl
    · exact h.make_reads.1 hl
    · exact hmake.1 hl
  · rintro a ((hl | hl) | hl)
    · cases hl
    · exact h.make_reads.2 a hl
    · exact hmake.2 a hl

section

variable {tools : Tools env} {as : List Artifact}

/-- Everything that the flow reads is given, or it has been written before. -/
theorem closed_flow (h : tools.InOrder) (hmap : .hierarchyMap ∈ as)
    (httrace : .ttrace ∉ as → env.loc .ttrace ∉ tools.hotspot.reads ∧
      env.loc .ttrace ∈ tools.hotspot.writes) :
    Script.Closed (env.given as) tools.flow := by
  have hbinary := h.gcc_writes
  have hhotspot : env.Reads tools.hotspot ([.floorplan, .ptrace] ++ as.filter (· = .ttrace)) := by
    refine ⟨h.hotspot_reads.1, fun a ha => ?_⟩
    have hread := h.hotspot_reads.2 a ha
    simp only [List.mem_cons, List.not_mem_nil, or_false] at hread
    obtain rfl | rfl | rfl := hread
    · simp
    · simp
    · by_contra hnot
      exact (httrace (by simpa using hnot)).1 ha
  refine ⟨h.gcc_reads.subset as ?_ ?_, h.reads_buildSimulator.subset as ?_ ?_, Set.empty_subset _,
    Set.empty_subset _, Set.empty_subset _, Set.empty_subset _, Set.empty_subset _,
    h.simulator_reads.subset as ?_ ?_, ?_, ?_, ?_, hhotspot.subset as ?_ ?_, ?_, ?_, trivial⟩
  · exact subset_rfl
  · simp
  · exact Set.subset_union_left
  · simp
  · intro l hl
    simp [hl]
  · simp [hbinary]
  · simp
  · simp [Set.insert_subset_iff, Env.loc_mem_given, hmap]
  · simp
  · intro l hl
    simp [hl]
  · intro a ha
    obtain rfl | rfl | ⟨ha, rfl⟩ : a = .floorplan ∨ a = .ptrace ∨ a ∈ as ∧ a = .ttrace := by
      simpa [or_assoc] using ha
    · simp
    · simp
    · simp [Env.loc_mem_given, ha]
  · by_cases hmem : Artifact.ttrace ∈ as
    · simp [Env.loc_mem_given, hmem]
    · simp [(httrace hmem).2]
  · simp

/-- Everything that is not given is written. -/
theorem mem_writes_flow (h : tools.InOrder) (hmap : .hierarchyMap ∈ as)
    (httrace : .ttrace ∉ as → env.loc .ttrace ∈ tools.hotspot.writes) {l : Loc}
    (hl : l ∉ env.given as) : l ∈ Script.writes tools.flow := by
  have hbinary := h.gcc_writes
  obtain rfl | ⟨a, rfl, ha⟩ : l = .simStatus ∨ ∃ a, l = env.loc a ∧ a ∉ as := by
    simpa [Env.given, imp_iff_not_or] using hl
  · simp [Tools.flow]
  · cases a with
    | hierarchyMap => exact absurd hmap ha
    | binary => simp [Tools.flow, Tools.preparation, hbinary]
    | ttrace => simp [Tools.flow, Tools.evaluation, httrace ha]
    | _ => simp [Tools.flow, Tools.preparation, Tools.evaluation]

/-- **Leftovers do not matter.**  Whatever earlier runs have left in the files of the flow, the
hierarchy map and the trace of HotSpot excepted, the flow ends with the same status, and if it
completes with the same files. -/
theorem smokeFlow_leftovers (h : tools.InOrder) {s s' : Store}
    (hagree : Script.Agree (env.given [.hierarchyMap, .ttrace]) s s') :
    (Script.run tools.flow s).2 = (Script.run tools.flow s').2 ∧
      ((Script.run tools.flow s).2 = 0 →
        (Script.run tools.flow s).1 = (Script.run tools.flow s').1) := by
  have hclosed : Script.Closed (env.given [.hierarchyMap, .ttrace]) tools.flow :=
    closed_flow h (by decide) (fun hnot => absurd (by decide) hnot)
  obtain ⟨hstatus, hfiles⟩ := Script.run_agree hclosed hagree
  refine ⟨hstatus, fun hzero => funext fun l => hfiles hzero l ?_⟩
  by_cases hl : l ∈ env.given [.hierarchyMap, .ttrace]
  · exact Or.inl hl
  · exact Or.inr (mem_writes_flow h (by decide) (fun hnot => absurd (by decide) hnot) hl)

omit [PyStr] in
theorem inOrder_pulseTools : pulseTools.InOrder where
  gcc_reads := by simp [Env.Reads, pulseTools]
  gcc_writes := by simp [pulseTools]
  make_reads := ⟨Set.notMem_empty _, fun _ h => absurd h (Set.notMem_empty _)⟩
  simulator_reads := by simp [Env.Reads, pulseTools]
  hotspot_reads := by simp [Env.Reads, pulseTools]

omit [PyStr] in
/-- An old dump makes no difference. -/
theorem smokeFlow_leftovers_pulse :
    ∃ s', Script.run pulseFlow pulseStart = (s', 0) ∧
      Script.run pulseFlow ((pulseEnv.put .vcd (some [35, 48])).run pulseStart).1 = (s', 0) := by
  have hagree : Script.Agree (pulseEnv.given [.hierarchyMap, .ttrace]) pulseStart
      ((pulseEnv.put .vcd (some [35, 48])).run pulseStart).1 := by
    intro l hl
    refine (Script.Program.frame _ _ l fun hw => ?_).symm
    exact absurd (hl.2 .vcd hw) (by decide)
  obtain ⟨s', hrun⟩ := exists_run_pulseFlow
  have hleftovers := @smokeFlow_leftovers asciiStr _ pulseTools inOrder_pulseTools _ _ hagree
  change (Script.run pulseFlow _).2 = (Script.run pulseFlow _).2 ∧ ((Script.run pulseFlow _).2 = 0 →
    (Script.run pulseFlow _).1 = (Script.run pulseFlow _).1) at hleftovers
  rw [hrun] at hleftovers
  exact ⟨s', hrun, Prod.ext (hleftovers.2 rfl).symm hleftovers.1.symm⟩

end

end

end SmokeFlow
