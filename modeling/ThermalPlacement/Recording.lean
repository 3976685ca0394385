/-
# What a dump records

A dump gives codes to the nets and lists their changes in some order.  A `Recording` has neither:
it has the nets in the order of their declarations, each with the values that it has taken, and the
time steps.  The reports are a function of the recording (`extractMain_eq_of_recordingOf`), so it
does not matter which codes the simulator chooses and in which order it writes the changes of a
time step (`extractMain_of_rename`).
-/
import ThermalPlacement.PowerTrace

namespace OrderedDict

/-! ## Renamed keys -/

section

variable {κ κ' α : Type*}

/-- The same entries under other keys. -/
def Renamed (f : κ → κ') (d : OrderedDict κ α) (d' : OrderedDict κ' α) : Prop :=
  d'.entries = d.entries.map (Prod.map f id)

variable {f : κ → κ'} {d : OrderedDict κ α} {d' : OrderedDict κ' α}

theorem Renamed.keys_eq (h : Renamed f d d') : d'.keys = d.keys.map f := by
  unfold keys
  rw [h, List.map_map, List.map_map]
  rfl

variable [DecidableEq κ] [DecidableEq κ']

theorem Renamed.setdefault (hf : Function.Injective f) (h : Renamed f d d') (k : κ) (v : α) :
    Renamed f (d.setdefault k v) (d'.setdefault (f k) v) := by
  have hmem : f k ∈ d'.keys ↔ k ∈ d.keys := by
    rw [h.keys_eq, List.mem_map_of_injective hf]
  by_cases hk : k ∈ d.keys
  · rw [setdefault_of_mem v hk, setdefault_of_mem v (hmem.mpr hk)]
    exact h
  · unfold Renamed
    rw [entries_setdefault_of_notMem v hk, entries_setdefault_of_notMem v (mt hmem.mp hk), h,
      List.map_append]
    rfl

theorem Renamed.setdefaults (hf : Function.Injective f) (h : Renamed f d d') (l : List (κ × α)) :
    Renamed f (d.setdefaults l) (d'.setdefaults (l.map (Prod.map f id))) := by
  induction l generalizing d d' with
  | nil => exact h
  | cons e l ih =>
      rw [List.map_cons, setdefaults_cons, setdefaults_cons]
      exact ih (h.setdefault hf e.1 e.2)

end

end OrderedDict

open PyText

namespace Vcd

/-! ## Recordings -/

/-- A net and the values that it has taken. -/
structure Net where
  path : Str
  width : ℤ
  values : List Str
  deriving DecidableEq

/-- What a dump records: its nets, and how many time marks it has and which is the last. -/
structure Recording where
  nets : List Net
  timeSteps : ℕ
  lastTime : ℤ
  deriving DecidableEq

/-- What the commands of a dump record. -/
def recordingOf (header body : List Command) : Recording where
  nets := (declaredTable header).entries.map (fun e => ⟨e.2.path, e.2.width, valuesOf e.1 body⟩)
  timeSteps := (timesOf body).length
  lastTime := (timesOf body).reduceOption.getLast?.getD 0

/-- The signal that has recorded a net. -/
def Net.signal (net : Net) : Signal := (Signal.fresh net.path net.width).recordAll net.values

/-- A table that has only seen declarations. -/
theorem eq_fresh_of_mem_declaredTable {header : List Command} {e : Str × Signal}
    (he : e ∈ (declaredTable header).entries) : e.2 = Signal.fresh e.2.path e.2.width := by
  have hget := (OrderedDict.get?_eq_some_iff _ _ _).mpr he
  unfold declaredTable at hget
  rw [OrderedDict.get?_setdefaults, OrderedDict.get?_empty, Option.none_or] at hget
  obtain ⟨e', hfind, hsnd⟩ := Option.map_eq_some_iff.mp hget
  obtain ⟨d, -, rfl⟩ := List.mem_map.mp (List.mem_of_find?_eq_some hfind)
  rw [← hsnd]
  rfl

/-- **The reader records the recording.** -/
theorem values_finalTable (header body : List Command) :
    (finalTable header body).values = (recordingOf header body).nets.map Net.signal := by
  unfold finalTable recordingOf OrderedDict.values
  rw [OrderedDict.entries_mapVals, List.map_map, List.map_map]
  refine List.map_congr_left (fun e he => ?_)
  show e.2.recordAll _ = (Signal.fresh e.2.path e.2.width).recordAll _
  rw [← eq_fresh_of_mem_declaredTable he]

/-! ## Other codes -/

/-- The same command for other identifier codes. -/
def Command.rename (f : Str → Str) : Command → Command
  | .var width code name => .var width (f code) name
  | .change value code => .change value (f code)
  | .scope name => .scope name
  | .upscope => .upscope
  | .enddefinitions => .enddefinitions
  | .time t => .time t
  | .skip => .skip

variable {f : Str → Str}

theorem declarations_rename (scopes : List Str) (header : List Command) :
    declarations scopes (header.map (Command.rename f))
      = (declarations scopes header).map (fun d => { d with code := f d.code }) := by
  induction header generalizing scopes with
  | nil => rfl
  | cons c header ih =>
      cases c with
      | var width code name =>
          show (⟨f code, _, width⟩ : Declaration) :: declarations scopes _ = _
          rw [ih]
          rfl
      | scope name => exact ih _
      | upscope => exact ih _
      | enddefinitions => exact ih _
      | time t => exact ih _
      | change value code => exact ih _
      | skip => exact ih _

theorem declaredTable_rename (hf : Function.Injective f) (header : List Command) :
    OrderedDict.Renamed f (declaredTable header)
      (declaredTable (header.map (Command.rename f))) := by
  unfold declaredTable
  rw [declarations_rename, List.map_map]
  have hentries : ((declarations [] header).map Declaration.entry).map (Prod.map f id)
      = (declarations [] header).map
          (Declaration.entry ∘ fun d => { d with code := f d.code }) := by
    rw [List.map_map]
    rfl
  rw [← hentries]
  have hempty : OrderedDict.Renamed f (OrderedDict.empty : OrderedDict Str Signal) .empty := rfl
  exact hempty.setdefaults hf _

/-- Dumps record the same if one has the other's declarations under other codes, gives every net
the values that it has in the other, and has as many time steps and the same last time. -/
theorem recordingOf_rename (hf : Function.Injective f) {header body body' : List Command}
    (hvalues : ∀ code ∈ (declaredTable header).keys, valuesOf (f code) body' = valuesOf code body)
    (hsteps : (timesOf body').length = (timesOf body).length)
    (hlast : (timesOf body').reduceOption.getLast? = (timesOf body).reduceOption.getLast?) :
    recordingOf (header.map (Command.rename f)) body' = recordingOf header body := by
  unfold recordingOf
  rw [declaredTable_rename hf header, List.map_map, hsteps, hlast]
  congr 1
  refine List.map_congr_left (fun e he => ?_)
  show (⟨e.2.path, e.2.width, valuesOf (f e.1) body'⟩ : Net) = _
  rw [hvalues e.1 (List.mem_map_of_mem he)]

end Vcd

open Vcd

namespace Activity

section

variable [PyStr]

/-! ## The reports -/

/-- **The reports are made from the recording.** -/
theorem mainWith_eq_of_recordingOf {vcd vcd' : List UInt8} {header header' body body' : List Command}
    (hvcd : ReadsAs vcd header body) (hvcd' : ReadsAs vcd' header' body')
    (h : recordingOf header body = recordingOf header' body') (fl : ℚ → ℚ)
    (document : Option Yaml) (workload : Str) (topSignals : ℤ) (excludeClocks : Bool) :
    Job.mainWith fl document vcd workload topSignals excludeClocks
      = Job.mainWith fl document vcd' workload topSignals excludeClocks := by
  have hvalues : (finalTable header body).values = (finalTable header' body').values := by
    rw [values_finalTable, values_finalTable, h]
  have hsteps : (timesOf body).length = (timesOf body').length := congrArg Recording.timeSteps h
  have hlast : (timesOf body).reduceOption.getLast?.getD 0
      = (timesOf body').reduceOption.getLast?.getD 0 := congrArg Recording.lastTime h
  unfold Job.mainWith
  rw [iterVcd_of_readsAs hvcd, iterVcd_of_readsAs hvcd']
  dsimp only
  unfold Job.writeOutputsWith
  rw [hvalues, hsteps, hlast]

theorem extractMain_eq_of_recordingOf {vcd vcd' : List UInt8}
    {header header' body body' : List Command}
    (hvcd : ReadsAs vcd header body) (hvcd' : ReadsAs vcd' header' body')
    (h : recordingOf header body = recordingOf header' body')
    (document : Option Yaml) (workload : Str) (topSignals : ℤ) (excludeClocks : Bool) :
    extractMain document vcd workload topSignals excludeClocks
      = extractMain document vcd' workload topSignals excludeClocks := by
  unfold extractMain
  rw [mainWith_eq_of_recordingOf hvcd hvcd' h]

/-- **Codes and order do not matter.**  Another dump with the same declarations under other codes,
and with the changes of every declared net in the same order, however those of different nets and
of undeclared ones stand to each other and to the time marks, gives the same CSV files, floats
included, or the same error. -/
theorem extractMain_of_rename {f : Str → Str} (hf : Function.Injective f) {vcd vcd' : List UInt8}
    {header body body' : List Command} (hvcd : ReadsAs vcd header body)
    (hvcd' : ReadsAs vcd' (header.map (Command.rename f)) body')
    (hvalues : ∀ code ∈ (declaredTable header).keys, valuesOf (f code) body' = valuesOf code body)
    (hsteps : (timesOf body').length = (timesOf body).length)
    (hlast : (timesOf body').reduceOption.getLast? = (timesOf body).reduceOption.getLast?)
    (document : Option Yaml) (workload : Str) (topSignals : ℤ) (excludeClocks : Bool) :
    extractMain document vcd' workload topSignals excludeClocks
      = extractMain document vcd workload topSignals excludeClocks :=
  extractMain_eq_of_recordingOf hvcd' hvcd (recordingOf_rename hf hvalues hsteps hlast) document
    workload topSignals excludeClocks

/-- Two nets that change at one time. -/
def pairHeader : List Command := [.var 1 ['!'] ['a'], .var 1 ['"'] ['b']]

/-- Both start at time 0, and one changes at time 5. -/
def pairBody : List Command :=
  [.time (some 0), .change ['0'] ['!'], .change ['1'] ['"'], .time (some 5), .change ['1'] ['!']]

/-- The dump with this header and this body. -/
def pairDump : List UInt8 :=
  linesFile (["$var wire 1 ! a $end", "$var wire 1 \" b $end", "$enddefinitions $end", "#0", "0!",
    "1\"", "#5", "1!"].map String.toList)

/-- Another simulator writes the changes the other way round. -/
def pairDump' : List UInt8 :=
  linesFile (["$var wire 1 n! a $end", "$var wire 1 n\" b $end", "$enddefinitions $end", "#0",
    "1n\"", "0n!", "#5", "1n!"].map String.toList)

omit [PyStr] in
theorem extractMain_of_rename_pair :
    @extractMain asciiStr none pairDump' ['w'] 0 false
      = @extractMain asciiStr none pairDump ['w'] 0 false := by
  have hheader : ∀ c ∈ pairHeader, c.InHeader := by simp [pairHeader, Command.InHeader]
  have hheader' : ∀ c ∈ pairHeader.map (Command.rename (List.cons 'n')), c.InHeader := by
    simp [pairHeader, Command.rename, Command.InHeader]
  have hlines : rawLines pairDump = (rawLines pairDump).take 2
      ++ "$enddefinitions $end\n".toList :: (rawLines pairDump).drop 3 := by decide +kernel
  have hlines' : rawLines pairDump' = (rawLines pairDump').take 2
      ++ "$enddefinitions $end\n".toList :: (rawLines pairDump').drop 3 := by decide +kernel
  have hvcd : ReadsAs pairDump pairHeader pairBody :=
    ⟨hheader, _, _, _, hlines, .cons rfl (.cons rfl .nil), rfl, by decide +kernel⟩
  have hvcd' : ReadsAs pairDump' (pairHeader.map (Command.rename (List.cons 'n'))) _ :=
    ⟨hheader', _, _, _, hlines', .cons rfl (.cons rfl .nil), rfl, rfl⟩
  exact @extractMain_of_rename asciiStr _ (List.cons_injective) _ _ _ _ _ hvcd hvcd'
    (by decide +kernel) (by decide +kernel) (by decide +kernel) none ['w'] 0 false

end

end Activity
