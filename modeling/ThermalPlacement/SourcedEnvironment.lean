/-
# The environment of the run scripts

`tools/env_gemmini_thermal.sh` as a whole.  Every run script sources it, also those that are called
by another one, whose environment they get: `run_thermal_smoke_flow.sh` sources it, and
`build_thermal_smoke_binary.sh`, which it calls, sources it again.  `sourceEnv_iterate` says that
this changes nothing, however deep the scripts are nested: the search paths grow, but everything is
found where it has been found before.
-/
import ThermalPlacement.JobLimits

open PyText

namespace EnvScript

/-! ## Variables -/

/-- The variables that the script sets or reads. -/
inductive Name where
  | TP_ROOT
  | TP_TOOLS_BIN
  | TP_CACHE_ROOT
  | CHIPYARD_HOME
  | GEMMINI_HOME
  | HOTSPOT_HOME
  | FLOW_HOME
  | CIRCT_HOME
  | VERILATOR_PREFIX
  | VERILATOR_ROOT
  | OPENSTA_HOME
  | OSS_CAD_SUITE
  | OPENROAD_PREBUILT_ROOT
  | SBT_HOME
  | OPENROAD_EXE
  | YOSYS_EXE
  | FIRTOOL_BIN
  | TCLLIBPATH
  | MPLCONFIGDIR
  | SBT_GLOBAL_BASE
  | SBT_BOOT_DIR
  | SBT_IVY_HOME
  | COURSIER_CACHE
  | COURSIER_CONFIG_DIR
  | SBT_OPTS
  | TP_MAX_JOBS
  | MAKE_JOBS
  | RISCV
  | PATH
  | LD_LIBRARY_PATH
  | other (name : Str)
  deriving DecidableEq

/-- The exported variables. -/
abbrev Vars := Name → Option Str

namespace Vars

/-- `export x=s`. -/
def set (v : Vars) (x : Name) (s : Str) : Vars := fun y => if y = x then some s else v y

/-- `$x`. -/
def get (v : Vars) (x : Name) : Str := (v x).getD []

@[simp] theorem set_self (v : Vars) (x : Name) (s : Str) : v.set x s x = some s := if_pos rfl

theorem set_of_ne (v : Vars) {x y : Name} (s : Str) (h : y ≠ x) : v.set x s y = v y := if_neg h

end Vars

/-! ## The script -/

/-- The roots. -/
def setRoots (v : Vars) : Vars :=
  let v := v.set .TP_ROOT (orDefault (v .TP_ROOT) "/home/lisihang/thermal_placement".toList)
  let v := v.set .TP_TOOLS_BIN (v.get .TP_ROOT ++ "/tools/bin".toList)
  v.set .TP_CACHE_ROOT (orDefault (v .TP_CACHE_ROOT) (v.get .TP_ROOT ++ "/.cache".toList))

/-- The packages of OpenROAD. -/
def tclLibrary (v : Vars) : Str :=
  v.get .OPENROAD_PREBUILT_ROOT ++ "/usr/lib/tcltk/x86_64-linux-gnu".toList

/-- The options that `SBT_OPTS` gets at its end. -/
def sbtOptions (v : Vars) : Str :=
  "-Dsbt.global.base=".toList ++ v.get .SBT_GLOBAL_BASE ++ " -Dsbt.boot.directory=".toList
    ++ v.get .SBT_BOOT_DIR ++ " -Dsbt.ivy.home=".toList ++ v.get .SBT_IVY_HOME
    ++ " -Dsbt.coursier.home=".toList ++ v.get .COURSIER_CACHE ++ " -Dsbt.supershell=false".toList

/-- The tools and their settings. -/
def setTools (v : Vars) : Vars :=
  let v := v.set .CHIPYARD_HOME (v.get .TP_ROOT ++ "/third_party/chipyard".toList)
  let v := v.set .GEMMINI_HOME (v.get .CHIPYARD_HOME ++ "/generators/gemmini".toList)
  let v := v.set .HOTSPOT_HOME (v.get .TP_ROOT ++ "/third_party/HotSpot".toList)
  let v := v.set .FLOW_HOME (v.get .TP_ROOT ++ "/third_party/OpenROAD-flow-scripts/flow".toList)
  let v := v.set .CIRCT_HOME (v.get .TP_ROOT ++ "/tools/circt".toList)
  let v := v.set .VERILATOR_PREFIX (v.get .TP_ROOT ++ "/tools/verilator".toList)
  let v := v.set .VERILATOR_ROOT (v.get .VERILATOR_PREFIX ++ "/share/verilator".toList)
  let v := v.set .OPENSTA_HOME (v.get .TP_ROOT ++ "/tools/opensta".toList)
  let v := v.set .OSS_CAD_SUITE (v.get .TP_ROOT ++ "/tools/oss-cad-suite/oss-cad-suite".toList)
  let v := v.set .OPENROAD_PREBUILT_ROOT (v.get .TP_ROOT ++ "/tools/openroad-prebuilt/root".toList)
  let v := v.set .SBT_HOME (v.get .TP_ROOT ++ "/tools/sbt/sbt".toList)
  let v := v.set .OPENROAD_EXE (v.get .OPENROAD_PREBUILT_ROOT ++ "/usr/bin/openroad".toList)
  let v := v.set .YOSYS_EXE (v.get .OSS_CAD_SUITE ++ "/bin/yosys".toList)
  let v := v.set .FIRTOOL_BIN (v.get .CIRCT_HOME ++ "/bin/firtool".toList)
  -- `${TCLLIBPATH:+ $TCLLIBPATH}`
  let v := v.set .TCLLIBPATH
    (tclLibrary v ++ if v.get .TCLLIBPATH = [] then [] else ' ' :: v.get .TCLLIBPATH)
  let v := v.set .MPLCONFIGDIR (v.get .TP_CACHE_ROOT ++ "/matplotlib".toList)
  let v := v.set .SBT_GLOBAL_BASE (v.get .TP_CACHE_ROOT ++ "/sbt/global".toList)
  let v := v.set .SBT_BOOT_DIR (v.get .TP_CACHE_ROOT ++ "/sbt/boot".toList)
  let v := v.set .SBT_IVY_HOME (v.get .TP_CACHE_ROOT ++ "/ivy2".toList)
  let v := v.set .COURSIER_CACHE (v.get .TP_CACHE_ROOT ++ "/coursier".toList)
  let v := v.set .COURSIER_CONFIG_DIR (v.get .TP_CACHE_ROOT ++ "/coursier".toList)
  v.set .SBT_OPTS (orDefault (v .SBT_OPTS) [] ++ ' ' :: sbtOptions v)

/-- The job section. -/
def setJobs (nproc : CommandResult) (v : Vars) : Vars :=
  let env : Environment := ⟨v .TP_MAX_JOBS, v .MAKE_JOBS⟩
  (v.set .TP_MAX_JOBS (tpMaxJobs env)).set .MAKE_JOBS (makeJobs env nproc)

/-- Where the compiler is looked for, unless it is at `RISCV`. -/
def toolchains (v : Vars) : List Str :=
  [v.get .TP_ROOT ++ "/tools/riscv".toList,
    v.get .CHIPYARD_HOME ++ "/toolchains/riscv-tools/install".toList,
    v.get .CHIPYARD_HOME ++ "/toolchains/riscv-tools/riscv".toList]

/-- The list of the loop over `riscv_candidate`. -/
def riscvCandidates (v : Vars) : List Str := orDefault (v .RISCV) [] :: toolchains v

/-- `[ -n "$riscv_candidate" ] && [ -x "$riscv_candidate/bin/riscv64-unknown-elf-gcc" ]`. -/
def hasCompiler (isExecutable : Str → Bool) (candidate : Str) : Bool :=
  !candidate.isEmpty && isExecutable (candidate ++ "/bin/riscv64-unknown-elf-gcc".toList)

/-- The candidate at which the loop stops. -/
def compiler (isExecutable : Str → Bool) (v : Vars) : Option Str :=
  (riscvCandidates v).find? (hasCompiler isExecutable)

/-- The loop over the candidates. -/
def setCompiler (isExecutable : Str → Bool) (v : Vars) : Vars :=
  match compiler isExecutable v with
  | none => v
  | some candidate =>
      let v := v.set .RISCV candidate
      v.set .PATH (v.get .RISCV ++ "/bin:".toList ++ v.get .PATH)

/-- What `PATH` gets in front. -/
def toolPath (v : Vars) : Str :=
  v.get .TP_TOOLS_BIN ++ ':' :: v.get .CIRCT_HOME ++ "/bin:".toList ++ v.get .SBT_HOME
    ++ "/bin:".toList ++ v.get .VERILATOR_PREFIX ++ "/bin:".toList ++ v.get .OPENSTA_HOME
    ++ "/bin:".toList ++ v.get .HOTSPOT_HOME ++ ':' :: v.get .OSS_CAD_SUITE ++ "/bin:".toList
    ++ v.get .OPENROAD_PREBUILT_ROOT ++ "/usr/bin".toList

/-- What `LD_LIBRARY_PATH` gets in front. -/
def libraryPath (v : Vars) : Str :=
  v.get .OPENROAD_PREBUILT_ROOT ++ "/usr/lib/x86_64-linux-gnu:".toList
    ++ v.get .OPENROAD_PREBUILT_ROOT ++ "/opt/or-tools/lib".toList

/-- The search paths. -/
def setPaths (v : Vars) : Vars :=
  let v := v.set .PATH (toolPath v ++ ':' :: v.get .PATH)
  v.set .LD_LIBRARY_PATH (libraryPath v ++ ':' :: orDefault (v .LD_LIBRARY_PATH) [])

/-- What is outside of the script: conda, the files and the number of processors.  `activate` is
`conda activate`.  It may change `PATH` and variables that the script does not set; where the
environment is active already, it changes nothing; and what the script does to the variables does
not make it inactive. -/
structure World where
  isExecutable : Str → Bool
  nproc : CommandResult
  activate : Vars → Vars
  Active : Vars → Prop
  active_activate : ∀ v, Active (activate v)
  activate_of_active : ∀ {v}, Active v → activate v = v
  activate_frame : ∀ v x, (∀ name, x ≠ .other name) → x ≠ .PATH → activate v x = v x
  active_of_prepend : ∀ {v v'}, Active v → (∀ name, v' (.other name) = v (.other name)) →
    (∃ dirs, v'.get .PATH = dirs ++ ':' :: v.get .PATH) → Active v'

/-- A world where `conda activate` puts the directory of the environment in front of `PATH`, unless
it is the active one. -/
def condaWorld (isExecutable : Str → Bool) (nproc : CommandResult) (home : Str) : World where
  isExecutable := isExecutable
  nproc := nproc
  activate v :=
    if v (.other "CONDA_PREFIX".toList) = some home then v
    else (v.set (.other "CONDA_PREFIX".toList) home).set .PATH (home ++ "/bin:".toList ++ v.get .PATH)
  Active v := v (.other "CONDA_PREFIX".toList) = some home
  active_activate v := by
    split_ifs with h
    · exact h
    · rw [Vars.set_of_ne _ _ (by simp), Vars.set_self]
  activate_of_active h := if_pos h
  activate_frame v x hx hpath := by
    split_ifs
    · rfl
    · rw [Vars.set_of_ne _ _ hpath, Vars.set_of_ne _ _ (hx _)]
  active_of_prepend h hother _ := (hother _).trans h

/-- `source tools/env_gemmini_thermal.sh`. -/
def sourceEnv (w : World) (v : Vars) : Vars :=
  setPaths (setCompiler w.isExecutable (setJobs w.nproc (setTools (w.activate (setRoots v)))))

/-! ## What each part sets -/

/-- The variables whose values are made from the roots. -/
def Name.isSetting : Name → Bool
  | .TCLLIBPATH | .SBT_OPTS | .TP_MAX_JOBS | .MAKE_JOBS | .RISCV | .PATH | .LD_LIBRARY_PATH => false
  | .other _ => false
  | _ => true

theorem setPaths_of_ne (v : Vars) {x : Name} (hx : x ∉ [.PATH, .LD_LIBRARY_PATH]) :
    setPaths v x = v x := by
  simp only [List.mem_cons, List.not_mem_nil, or_false, not_or] at hx
  unfold setPaths
  rw [Vars.set_of_ne _ _ hx.2, Vars.set_of_ne _ _ hx.1]

theorem setCompiler_of_ne (isExecutable : Str → Bool) (v : Vars) {x : Name}
    (hx : x ∉ [.RISCV, .PATH]) : setCompiler isExecutable v x = v x := by
  simp only [List.mem_cons, List.not_mem_nil, or_false, not_or] at hx
  unfold setCompiler
  cases compiler isExecutable v with
  | none => rfl
  | some candidate =>
      dsimp only
      rw [Vars.set_of_ne _ _ hx.2, Vars.set_of_ne _ _ hx.1]

theorem setJobs_of_ne (nproc : CommandResult) (v : Vars) {x : Name}
    (hx : x ∉ [.TP_MAX_JOBS, .MAKE_JOBS]) : setJobs nproc v x = v x := by
  simp only [List.mem_cons, List.not_mem_nil, or_false, not_or] at hx
  unfold setJobs
  rw [Vars.set_of_ne _ _ hx.2, Vars.set_of_ne _ _ hx.1]

/-- The settings are made from the roots. -/
theorem setTools_congr {v v' : Vars}
    (h : ∀ x ∈ [.TP_ROOT, .TP_TOOLS_BIN, .TP_CACHE_ROOT], v x = v' x) {x : Name}
    (hx : x.isSetting = true) : setTools v x = setTools v' x := by
  simp only [List.mem_cons, List.not_mem_nil, or_false, forall_eq_or_imp, forall_eq] at h
  obtain ⟨hroot, hbin, hcache⟩ := h
  cases x <;> first
    | exact absurd hx Bool.false_ne_true
    | simp [setTools, Vars.set, Vars.get, hroot, hbin, hcache]

section

variable {v v' : Vars} (h : ∀ x : Name, x.isSetting = true → v.get x = v'.get x)

include h

theorem toolPath_congr : toolPath v = toolPath v' := by
  unfold toolPath
  rw [h .TP_TOOLS_BIN rfl, h .CIRCT_HOME rfl, h .SBT_HOME rfl, h .VERILATOR_PREFIX rfl,
    h .OPENSTA_HOME rfl, h .HOTSPOT_HOME rfl, h .OSS_CAD_SUITE rfl, h .OPENROAD_PREBUILT_ROOT rfl]

theorem libraryPath_congr : libraryPath v = libraryPath v' := by
  unfold libraryPath
  rw [h .OPENROAD_PREBUILT_ROOT rfl]

theorem tclLibrary_congr : tclLibrary v = tclLibrary v' := by
  unfold tclLibrary
  rw [h .OPENROAD_PREBUILT_ROOT rfl]

theorem sbtOptions_congr : sbtOptions v = sbtOptions v' := by
  unfold sbtOptions
  rw [h .SBT_GLOBAL_BASE rfl, h .SBT_BOOT_DIR rfl, h .SBT_IVY_HOME rfl, h .COURSIER_CACHE rfl]

theorem toolchains_congr : toolchains v = toolchains v' := by
  unfold toolchains
  rw [h .TP_ROOT rfl, h .CHIPYARD_HOME rfl]

end

theorem orDefault_ne_nil {x : Option Str} {word : Str} (h : word ≠ []) : orDefault x word ≠ [] := by
  unfold orDefault
  split
  · exact h
  · exact h
  · assumption

theorem orDefault_some {s : Str} (h : s ≠ []) (word : Str) : orDefault (some s) word = s := by
  cases s with
  | nil => exact absurd rfl h
  | cons c s => rfl

theorem orDefault_nil (x : Option Str) : orDefault x [] = x.getD [] := by
  unfold orDefault
  split <;> rfl

/-! ## Jobs that have been checked -/

theorem isJobs_atLeastOne {fallback : Str} (h : IsJobs fallback ∧ ¬ TooLong fallback) (s : Str) :
    IsJobs (atLeastOne fallback s) := (atLeastOne_spec h.1 h.2 s).1

theorem isJobs_atMost {bound s : Str} (hbound : IsJobs bound) (hs : IsJobs s) :
    IsJobs (atMost bound s) := by
  unfold atMost
  split_ifs
  · exact hbound
  · exact hs

theorem atLeastOne_of_isJobs {s : Str} (h : IsJobs s) (fallback : Str) :
    atLeastOne fallback s = s := by
  have hone : IsNumber ['1'] ∧ numberValue ['1'] = 1 := by decide
  have hlt : testLt s ['1'] ≠ true := by
    rw [ne_eq, testLt_iff h.1 hone.1]
    have := h.2
    omega
  unfold atLeastOne
  rw [(search_numberRe s).mpr h.1, Bool.not_true, Bool.false_or, if_neg hlt]

theorem atMost_atMost {bound : Str} (h : IsJobs bound) (s : Str) :
    atMost bound (atMost bound s) = atMost bound s := by
  have hlt : testGt bound bound ≠ true := by
    unfold testGt
    rw [ne_eq, testLt_iff h.1 h.1]
    omega
  unfold atMost
  by_cases hs : testGt s bound = true
  · rw [if_pos hs, if_neg hlt]
  · rw [if_neg hs, if_neg hs]

section

variable (env : Environment) (nproc : CommandResult)

theorem isJobs_tpMaxJobs : IsJobs (tpMaxJobs env) := by
  have h128 : IsJobs "128".toList ∧ ¬ TooLong "128".toList := by decide +kernel
  exact isJobs_atMost h128.1 (isJobs_atLeastOne h128 _)

theorem tpMaxJobs_again {makeJobs : Option Str} :
    tpMaxJobs ⟨some (tpMaxJobs env), makeJobs⟩ = tpMaxJobs env := by
  have h128 : IsJobs "128".toList := by decide +kernel
  have hjobs := isJobs_tpMaxJobs env
  show atMost _ (atLeastOne _ (orDefault (some (tpMaxJobs env)) _)) = _
  rw [orDefault_some hjobs.1.1, atLeastOne_of_isJobs hjobs]
  exact atMost_atMost h128 _

theorem exists_makeJobs : ∃ s, IsJobs s ∧ makeJobs env nproc = atMost (tpMaxJobs env) s := by
  have h1 : IsJobs ['1'] ∧ ¬ TooLong ['1'] := by decide +kernel
  unfold makeJobs detectedJobs
  dsimp only
  split_ifs
  · exact ⟨_, isJobs_atLeastOne h1 _, rfl⟩
  · exact ⟨_, isJobs_atLeastOne h1 _, rfl⟩

theorem makeJobs_again :
    makeJobs ⟨some (tpMaxJobs env), some (makeJobs env nproc)⟩ nproc = makeJobs env nproc := by
  obtain ⟨s, hs, hmake⟩ := exists_makeJobs env nproc
  have htp := isJobs_tpMaxJobs env
  have hjobs : IsJobs (makeJobs env nproc) := hmake ▸ isJobs_atMost htp hs
  rw [makeJobs]
  dsimp only
  rw [tpMaxJobs_again, orDefault_some hjobs.1.1, if_neg hjobs.1.1, atLeastOne_of_isJobs hjobs, hmake]
  exact atMost_atMost htp s

end

/-! ## The variables after the script -/

section

variable (w : World) (v : Vars)

/-- The variables after `conda activate`. -/
def activated : Vars := w.activate (setRoots v)

theorem activated_of_ne {x : Name} (hx : ∀ name, x ≠ .other name) (hpath : x ≠ .PATH) :
    activated w v x = setRoots v x := w.activate_frame _ x hx hpath

/-- What the jobs, the compiler and the search paths leave alone. -/
theorem sourceEnv_of_notMem {x : Name}
    (hx : x ∉ [.TP_MAX_JOBS, .MAKE_JOBS, .RISCV, .PATH, .LD_LIBRARY_PATH]) :
    sourceEnv w v x = setTools (activated w v) x := by
  simp only [List.mem_cons, List.not_mem_nil, or_false, not_or] at hx
  obtain ⟨htp, hmake, hriscv, hpath, hld⟩ := hx
  unfold sourceEnv
  rw [setPaths_of_ne _ (by simp [hpath, hld]), setCompiler_of_ne _ _ (by simp [hriscv, hpath]),
    setJobs_of_ne _ _ (by simp [htp, hmake])]
  rfl

theorem sourceEnv_setting {x : Name} (hx : x.isSetting = true) :
    sourceEnv w v x = setTools (setRoots v) x := by
  have hlist : x ∉ [.TP_MAX_JOBS, .MAKE_JOBS, .RISCV, .PATH, .LD_LIBRARY_PATH] := by
    simp only [List.mem_cons, List.not_mem_nil, or_false]
    rintro (rfl | rfl | rfl | rfl | rfl) <;> cases hx
  rw [sourceEnv_of_notMem w v hlist]
  refine setTools_congr (fun y hy => ?_) hx
  simp only [List.mem_cons, List.not_mem_nil, or_false] at hy
  obtain rfl | rfl | rfl := hy <;> exact activated_of_ne w v (fun _ h => by cases h) (by decide)

theorem sourceEnv_other (name : Str) : sourceEnv w v (.other name) = activated w v (.other name) :=
  sourceEnv_of_notMem w v (by simp)

theorem sourceEnv_tpMaxJobs :
    sourceEnv w v .TP_MAX_JOBS = some (tpMaxJobs ⟨v .TP_MAX_JOBS, v .MAKE_JOBS⟩) := by
  have htp : activated w v .TP_MAX_JOBS = v .TP_MAX_JOBS :=
    activated_of_ne w v (fun _ h => by cases h) (by decide)
  have hmake : activated w v .MAKE_JOBS = v .MAKE_JOBS :=
    activated_of_ne w v (fun _ h => by cases h) (by decide)
  rw [← htp, ← hmake]
  unfold sourceEnv
  rw [setPaths_of_ne _ (by decide), setCompiler_of_ne _ _ (by decide)]
  rfl

theorem sourceEnv_makeJobs :
    sourceEnv w v .MAKE_JOBS = some (makeJobs ⟨v .TP_MAX_JOBS, v .MAKE_JOBS⟩ w.nproc) := by
  have htp : activated w v .TP_MAX_JOBS = v .TP_MAX_JOBS :=
    activated_of_ne w v (fun _ h => by cases h) (by decide)
  have hmake : activated w v .MAKE_JOBS = v .MAKE_JOBS :=
    activated_of_ne w v (fun _ h => by cases h) (by decide)
  rw [← htp, ← hmake]
  unfold sourceEnv
  rw [setPaths_of_ne _ (by decide), setCompiler_of_ne _ _ (by decide)]
  rfl

/-- The variables before the loop over the candidates. -/
def beforeCompiler : Vars := setJobs w.nproc (setTools (activated w v))

theorem sourceEnv_riscv :
    sourceEnv w v .RISCV = (compiler w.isExecutable (beforeCompiler w v)).or (v .RISCV) := by
  have hriscv : activated w v .RISCV = v .RISCV :=
    activated_of_ne w v (fun _ h => by cases h) (by decide)
  unfold sourceEnv
  rw [setPaths_of_ne _ (by decide)]
  show setCompiler w.isExecutable (beforeCompiler w v) .RISCV = _
  unfold setCompiler
  cases compiler w.isExecutable (beforeCompiler w v) with
  | none => exact hriscv
  | some candidate =>
      dsimp only
      rw [Vars.set_of_ne _ _ (by decide), Vars.set_self]
      rfl

/-- The directories of a search path. -/
def dirs (path : Str) : List Str := path.splitOn ':'

theorem dirs_append (a b : Str) : dirs (a ++ ':' :: b) = dirs a ++ dirs b :=
  List.splitOn_append_cons_self a b

/-- The directories of the compiler. -/
def compilerDirs : Option Str → List Str
  | none => []
  | some candidate => dirs (candidate ++ "/bin".toList)

theorem get_beforePaths {x : Name} (hx : x.isSetting = true) :
    (setCompiler w.isExecutable (beforeCompiler w v)).get x = (sourceEnv w v).get x := by
  unfold Vars.get
  rw [sourceEnv, setPaths_of_ne]
  · rfl
  · simp only [List.mem_cons, List.not_mem_nil, or_false]
    rintro (rfl | rfl) <;> cases hx

/-- **`PATH` gets directories in front.** -/
theorem exists_path : ∃ front, (sourceEnv w v).get .PATH = front ++ ':' :: (activated w v).get .PATH ∧
    dirs front = dirs (toolPath (sourceEnv w v))
      ++ compilerDirs (compiler w.isExecutable (beforeCompiler w v)) := by
  have hpath : (sourceEnv w v).get .PATH = toolPath (sourceEnv w v)
      ++ ':' :: (setCompiler w.isExecutable (beforeCompiler w v)).get .PATH := by
    rw [← toolPath_congr fun x hx => get_beforePaths w v hx]
    rfl
  rw [hpath]
  unfold setCompiler
  cases compiler w.isExecutable (beforeCompiler w v) with
  | none => exact ⟨_, rfl, (List.append_nil _).symm⟩
  | some candidate =>
      refine ⟨toolPath (sourceEnv w v) ++ ':' :: (candidate ++ "/bin".toList), ?_,
        dirs_append _ _⟩
      show _ ++ ':' :: (candidate ++ "/bin:".toList ++ (activated w v).get .PATH) = _
      simp

theorem dirs_libraryPath : dirs ((sourceEnv w v).get .LD_LIBRARY_PATH) =
    dirs (libraryPath (sourceEnv w v)) ++ dirs (v.get .LD_LIBRARY_PATH) := by
  have hbefore : setCompiler w.isExecutable (beforeCompiler w v) .LD_LIBRARY_PATH
      = v .LD_LIBRARY_PATH := by
    rw [setCompiler_of_ne _ _ (by decide)]
    exact activated_of_ne w v (fun _ h => by cases h) (by decide)
  have hget : (sourceEnv w v).get .LD_LIBRARY_PATH
      = libraryPath (sourceEnv w v) ++ ':' :: orDefault (v .LD_LIBRARY_PATH) [] := by
    rw [← hbefore]
    rfl
  rw [hget, orDefault_nil, dirs_append]
  rfl

theorem split_tclLibPath : split ((sourceEnv w v).get .TCLLIBPATH) =
    split (tclLibrary (sourceEnv w v)) ++ split (v.get .TCLLIBPATH) := by
  have hlibrary : tclLibrary (sourceEnv w v) = tclLibrary (setTools (activated w v)) := by
    unfold tclLibrary Vars.get
    rw [sourceEnv_of_notMem w v (by decide)]
  have hold : (activated w v).get .TCLLIBPATH = v.get .TCLLIBPATH := by
    unfold Vars.get
    rw [activated_of_ne w v (fun _ h => by cases h) (by decide)]
    rfl
  have hget : (sourceEnv w v).get .TCLLIBPATH = tclLibrary (setTools (activated w v))
      ++ if (activated w v).get .TCLLIBPATH = [] then []
        else ' ' :: (activated w v).get .TCLLIBPATH := by
    unfold Vars.get
    rw [sourceEnv_of_notMem w v (by decide)]
    rfl
  rw [hget, hlibrary, hold]
  split_ifs with hnil
  · rw [hnil, List.append_nil, split_nil, List.append_nil]
  · exact split_append_cons _ (by decide) _

theorem split_sbtOpts : split ((sourceEnv w v).get .SBT_OPTS) =
    split (v.get .SBT_OPTS) ++ split (sbtOptions (sourceEnv w v)) := by
  have hoptions : sbtOptions (sourceEnv w v) = sbtOptions (setTools (activated w v)) := by
    unfold sbtOptions Vars.get
    rw [sourceEnv_of_notMem w v (by decide), sourceEnv_of_notMem w v (by decide),
      sourceEnv_of_notMem w v (by decide), sourceEnv_of_notMem w v (by decide)]
  have hold : orDefault (activated w v .SBT_OPTS) [] = v.get .SBT_OPTS := by
    rw [activated_of_ne w v (fun _ h => by cases h) (by decide)]
    exact orDefault_nil (v .SBT_OPTS)
  have hget : (sourceEnv w v).get .SBT_OPTS = orDefault (activated w v .SBT_OPTS) []
      ++ ' ' :: sbtOptions (setTools (activated w v)) := by
    unfold Vars.get
    rw [sourceEnv_of_notMem w v (by decide)]
    rfl
  rw [hget, hoptions, hold]
  exact split_append_cons _ (by decide) _

theorem riscvCandidates_beforeCompiler : riscvCandidates (beforeCompiler w v)
    = orDefault (v .RISCV) [] :: toolchains (sourceEnv w v) := by
  have hriscv : beforeCompiler w v .RISCV = v .RISCV :=
    activated_of_ne w v (fun _ h => by cases h) (by decide)
  have hroot : beforeCompiler w v .TP_ROOT = sourceEnv w v .TP_ROOT :=
    ((setPaths_of_ne _ (by decide)).trans (setCompiler_of_ne _ _ (by decide))).symm
  have hchipyard : beforeCompiler w v .CHIPYARD_HOME = sourceEnv w v .CHIPYARD_HOME :=
    ((setPaths_of_ne _ (by decide)).trans (setCompiler_of_ne _ _ (by decide))).symm
  unfold riscvCandidates toolchains Vars.get
  rw [hriscv, hroot, hchipyard]

/-! ## Sourcing it again -/

theorem setRoots_again {x : Name} (hx : x ∈ [.TP_ROOT, .TP_TOOLS_BIN, .TP_CACHE_ROOT]) :
    setRoots (sourceEnv w v) x = setRoots v x := by
  have hroot : sourceEnv w v .TP_ROOT = setRoots v .TP_ROOT :=
    sourceEnv_setting w v rfl
  have hcache : sourceEnv w v .TP_CACHE_ROOT = setRoots v .TP_CACHE_ROOT :=
    sourceEnv_setting w v rfl
  have hroot' : setRoots (sourceEnv w v) .TP_ROOT = setRoots v .TP_ROOT := by
    show some (orDefault (sourceEnv w v .TP_ROOT) _) = _
    rw [hroot]
    exact congrArg some (orDefault_some (orDefault_ne_nil (by decide)) _)
  simp only [List.mem_cons, List.not_mem_nil, or_false] at hx
  obtain rfl | rfl | rfl := hx
  · exact hroot'
  · show some ((setRoots (sourceEnv w v) .TP_ROOT).getD [] ++ _) = _
    rw [hroot']
    rfl
  · show some (orDefault (sourceEnv w v .TP_CACHE_ROOT) _) = _
    rw [hcache]
    exact congrArg some (orDefault_some (orDefault_ne_nil (by simp)) _)

theorem setting_again {x : Name} (hx : x.isSetting = true) :
    sourceEnv w (sourceEnv w v) x = sourceEnv w v x := by
  rw [sourceEnv_setting w _ hx, sourceEnv_setting w _ hx]
  exact setTools_congr (fun y hy => setRoots_again w v hy) hx

theorem get_setting_again {x : Name} (hx : x.isSetting = true) :
    (sourceEnv w (sourceEnv w v)).get x = (sourceEnv w v).get x := by
  rw [Vars.get, setting_again w v hx]
  rfl

/-- The environment of conda is active. -/
theorem activated_again : activated w (sourceEnv w v) = setRoots (sourceEnv w v) := by
  obtain ⟨front, hfront, -⟩ := exists_path w v
  refine w.activate_of_active (w.active_of_prepend (w.active_activate (setRoots v)) ?_ ⟨front, hfront⟩)
  exact fun name => sourceEnv_other w v name

/-- The loop finds the compiler where it has found it. -/
theorem compiler_again : compiler w.isExecutable (beforeCompiler w (sourceEnv w v))
    = compiler w.isExecutable (beforeCompiler w v) := by
  have htoolchains : toolchains (sourceEnv w (sourceEnv w v)) = toolchains (sourceEnv w v) :=
    toolchains_congr fun x hx => get_setting_again w v hx
  have hriscv := sourceEnv_riscv w v
  unfold compiler at hriscv ⊢
  rw [riscvCandidates_beforeCompiler, riscvCandidates_beforeCompiler, htoolchains]
  rw [riscvCandidates_beforeCompiler] at hriscv
  cases hfind : (orDefault (v .RISCV) [] :: toolchains (sourceEnv w v)).find?
      (hasCompiler w.isExecutable) with
  | none =>
      rw [hfind, Option.none_or] at hriscv
      rw [hriscv, hfind]
  | some candidate =>
      rw [hfind, Option.some_or] at hriscv
      have hcompiler := List.find?_some hfind
      have hne : candidate ≠ [] := by
        rintro rfl
        cases hcompiler
      rw [hriscv, orDefault_some hne, List.find?_cons_of_pos hcompiler]

end

/-- Environments in which every program finds the same. -/
structure SameEnvironment (v v' : Vars) : Prop where
  values : ∀ x ∉ [.PATH, .LD_LIBRARY_PATH, .TCLLIBPATH, .SBT_OPTS], v x = v' x
  /-- A search finds the same directory. -/
  path : ∀ p, (dirs (v.get .PATH)).find? p = (dirs (v'.get .PATH)).find? p
  libraryPath : ∀ p,
    (dirs (v.get .LD_LIBRARY_PATH)).find? p = (dirs (v'.get .LD_LIBRARY_PATH)).find? p
  tclLibPath : ∀ p, (split (v.get .TCLLIBPATH)).find? p = (split (v'.get .TCLLIBPATH)).find? p
  sbtOpts : ∀ option, option ∈ split (v.get .SBT_OPTS) ↔ option ∈ split (v'.get .SBT_OPTS)

theorem SameEnvironment.refl (v : Vars) : SameEnvironment v v :=
  ⟨fun _ _ => rfl, fun _ => rfl, fun _ => rfl, fun _ => rfl, fun _ => Iff.rfl⟩

theorem SameEnvironment.trans {a b c : Vars} (h : SameEnvironment a b) (h' : SameEnvironment b c) :
    SameEnvironment a c :=
  ⟨fun x hx => (h.values x hx).trans (h'.values x hx), fun p => (h.path p).trans (h'.path p),
    fun p => (h.libraryPath p).trans (h'.libraryPath p),
    fun p => (h.tclLibPath p).trans (h'.tclLibPath p),
    fun option => (h.sbtOpts option).trans (h'.sbtOpts option)⟩

/-- Directories that are searched already may be searched again. -/
theorem find?_append_again {α : Type*} (p : α → Bool) (front rest : List α) :
    (front ++ (front ++ rest)).find? p = (front ++ rest).find? p := by
  rw [List.find?_append, List.find?_append]
  cases front.find? p <;> rfl

theorem value_again (w : World) (v : Vars) {x : Name}
    (hx : x ∉ [.PATH, .LD_LIBRARY_PATH, .TCLLIBPATH, .SBT_OPTS]) :
    sourceEnv w (sourceEnv w v) x = sourceEnv w v x := by
  cases x with
  | PATH => exact absurd (by decide) hx
  | LD_LIBRARY_PATH => exact absurd (by decide) hx
  | TCLLIBPATH => exact absurd (by decide) hx
  | SBT_OPTS => exact absurd (by decide) hx
  | TP_MAX_JOBS =>
      rw [sourceEnv_tpMaxJobs, sourceEnv_tpMaxJobs, tpMaxJobs_again]
  | MAKE_JOBS =>
      rw [sourceEnv_makeJobs, sourceEnv_makeJobs, sourceEnv_tpMaxJobs, makeJobs_again]
  | RISCV =>
      rw [sourceEnv_riscv w (sourceEnv w v), compiler_again, sourceEnv_riscv w v]
      cases compiler w.isExecutable (beforeCompiler w v) <;> rfl
  | other name =>
      rw [sourceEnv_other w (sourceEnv w v), activated_again]
      rfl
  | _ => exact setting_again w v rfl

/-- Sourcing the script once more. -/
theorem sameEnvironment_again (w : World) (v : Vars) :
    SameEnvironment (sourceEnv w (sourceEnv w v)) (sourceEnv w v) := by
  refine ⟨fun x hx => value_again w v hx, fun p => ?_, fun p => ?_, fun p => ?_, fun option => ?_⟩
  · obtain ⟨front, hpath, hfront⟩ := exists_path w v
    obtain ⟨front', hpath', hfront'⟩ := exists_path w (sourceEnv w v)
    have htool : toolPath (sourceEnv w (sourceEnv w v)) = toolPath (sourceEnv w v) :=
      toolPath_congr fun x hx => get_setting_again w v hx
    have hold : (activated w (sourceEnv w v)).get .PATH = (sourceEnv w v).get .PATH := by
      rw [activated_again]
      rfl
    rw [htool, compiler_again, ← hfront] at hfront'
    rw [hpath', hold, dirs_append, hfront', hpath, dirs_append]
    exact find?_append_again p _ _
  · have hlibrary : libraryPath (sourceEnv w (sourceEnv w v)) = libraryPath (sourceEnv w v) :=
      libraryPath_congr fun x hx => get_setting_again w v hx
    rw [dirs_libraryPath, hlibrary, dirs_libraryPath w v]
    exact find?_append_again p _ _
  · have hlibrary : tclLibrary (sourceEnv w (sourceEnv w v)) = tclLibrary (sourceEnv w v) :=
      tclLibrary_congr fun x hx => get_setting_again w v hx
    rw [split_tclLibPath, hlibrary, split_tclLibPath w v]
    exact find?_append_again p _ _
  · have hoptions : sbtOptions (sourceEnv w (sourceEnv w v)) = sbtOptions (sourceEnv w v) :=
      sbtOptions_congr fun x hx => get_setting_again w v hx
    rw [split_sbtOpts, hoptions, split_sbtOpts w v]
    simp

/-- **Nested scripts.**  However often the script is sourced again, with the environment that it has
left, all programs find the same: the variables keep their values, and whatever is searched for in
the search paths is found in the same directory. -/
theorem sourceEnv_iterate (w : World) (v : Vars) (n : ℕ) :
    SameEnvironment ((sourceEnv w)^[n] (sourceEnv w v)) (sourceEnv w v) := by
  induction n generalizing v with
  | zero => exact .refl _
  | succ n ih => exact (ih (sourceEnv w v)).trans (sameEnvironment_again w v)

-- the compiler is found at the same place, with one directory more than once in `PATH`
example :
    let w := condaWorld (· = "/opt/riscv/bin/riscv64-unknown-elf-gcc".toList) ⟨"8\n".toList, true⟩
      "/conda".toList
    let v : Vars := fun x => if x = .RISCV then some "/opt/riscv".toList else none
    sourceEnv w (sourceEnv w v) .RISCV = some "/opt/riscv".toList ∧
      (dirs ((sourceEnv w v).get .PATH)).length = 11 ∧
      (dirs ((sourceEnv w (sourceEnv w v)).get .PATH)).length = 20 := by
  decide +kernel

end EnvScript
