/-
# The CSV files between the scripts

`write_outputs` of `scripts/extract_vcd_activity.py` writes two CSV files, and
`scripts/export_smoke_hotspot_inputs.py` reads the second one by column names.  Here both scripts
work on the texts of the files, with floats.

* `readSignalCsv_signalCsv`, `readRegionCsv_regionCsv`: the files hold the rows, whatever
  characters their names contain.
* `exportMain_of_table`: the export reads two columns of a table; the other columns, and where
  the two stand, do not matter.
-/
import ThermalPlacement.RoundedReports
import ThermalPlacement.FloatText
import ThermalPlacement.Csv

open PyText Vcd

namespace Activity

/-- The dialect `excel`, with the field limit that the module starts with. -/
def excel : Csv.Dialect Char where
  delimiter := ','
  quotechar := '"'
  cr := '\r'
  lf := '\n'
  fieldLimit := 131072
  distinct := by decide

/-! ## Integers as text -/

/-- `str` of an integer. -/
def intText (n : ℤ) : Str := (if n < 0 then ['-'] else []) ++ Nat.toDigits 10 n.natAbs

/-- **An integer is read back.** -/
theorem int_intText (n : ℤ) : int (intText n) = some n := by
  obtain ⟨hne, hdigits⟩ := isNumber_toDigits n.natAbs
  have hvalue := Nat.ofDigitChars_ten_toDigits (n := n.natAbs)
  unfold intText
  split_ifs with hneg
  · have hspace : ∀ c ∈ '-' :: Nat.toDigits 10 n.natAbs, isLiteralSpace c = false := by
      intro c hc
      obtain rfl | hc := List.mem_cons.mp hc
      · decide
      · exact isLiteralSpace_of_isDigit (hdigits c hc)
    have htrim : (('-' :: Nat.toDigits 10 n.natAbs).dropWhile isLiteralSpace).rdropWhile
        isLiteralSpace = '-' :: Nat.toDigits 10 n.natAbs := by
      rw [List.dropWhile_cons_of_neg (by decide), List.rdropWhile_eq_self_iff]
      intro h
      rw [hspace _ (List.getLast_mem h)]
      decide
    have hliteral : intLiteral (Nat.toDigits 10 n.natAbs) = some n.natAbs := by
      cases hds : Nat.toDigits 10 n.natAbs with
      | nil => exact absurd hds hne
      | cons c cs =>
          rw [hds] at hdigits
          rw [hds, Nat.ofDigitChars_cons] at hvalue
          rw [intLiteral, if_pos (hdigits c List.mem_cons_self),
            intDigits_of_isDigit cs (fun c' hc' => hdigits c' (List.mem_cons_of_mem _ hc')),
            ← hvalue]
          simp
    rw [List.singleton_append, int, htrim]
    simp only [hliteral]
    show some (-(n.natAbs : ℤ)) = some n
    congr 1
    omega
  · have h := int_digits ⟨Nat.toDigits 10 n.natAbs, hne, List.all_eq_true.mpr hdigits⟩
    rw [List.nil_append, h, Decimal.value, hvalue]
    congr 1
    omega

/-- A number of things. -/
def natText (n : ℕ) : Str := intText n

/-- `int` of a number of things. -/
def nat (s : Str) : Option ℕ := (int s).bind (fun n => if 0 ≤ n then some n.toNat else none)

theorem nat_natText (n : ℕ) : nat (natText n) = some n := by
  rw [nat, natText, int_intText]
  simp

/-! ## Writing the files -/

/-- The columns of the signal CSV. -/
def signalFields : List Str :=
  ["workload".toList, "signal_path".toList, "region".toList, "width".toList,
    "toggle_count".toList, "value_change_count".toList, "time_steps".toList,
    "last_time_ps".toList, "normalized_activity".toList]

/-- The columns of the region CSV. -/
def regionFields : List Str :=
  ["workload".toList, "region".toList, "signal_count".toList, "toggle_count".toList,
    "avg_normalized_activity".toList, "time_steps".toList, "last_time_ps".toList]

/-- The texts of a signal row, in the order of the columns. -/
def SignalRow.fields (row : SignalRow) : List Str :=
  [row.workload, row.signalPath, row.region, intText row.width, natText row.toggleCount,
    natText row.valueChangeCount, natText row.timeSteps, intText row.lastTimePs,
    reprFloat row.normalizedActivity]

/-- The texts of a region row, in the order of the columns. -/
def RegionRow.fields (row : RegionRow) : List Str :=
  [row.workload, row.region, natText row.signalCount, natText row.toggleCount,
    reprFloat row.avgNormalizedActivity, natText row.timeSteps, intText row.lastTimePs]

/-- The text of the signal CSV. -/
def signalCsv (rows : List SignalRow) : Str :=
  excel.writeRows (signalFields :: rows.map SignalRow.fields)

/-- The text of the region CSV. -/
def regionCsv (rows : List RegionRow) : Str :=
  excel.writeRows (regionFields :: rows.map RegionRow.fields)

/-! ## What the files hold -/

/-- A row of the signal CSV, from its fields. -/
def SignalRow.ofFields : List Str → Option SignalRow
  | [workload, signalPath, region, width, toggleCount, valueChangeCount, timeSteps, lastTimePs,
      normalizedActivity] => do
      let width ← int width
      let toggleCount ← nat toggleCount
      let valueChangeCount ← nat valueChangeCount
      let timeSteps ← nat timeSteps
      let lastTimePs ← int lastTimePs
      let normalizedActivity ← readFloat normalizedActivity
      return ⟨workload, signalPath, region, width, toggleCount, valueChangeCount, timeSteps,
        lastTimePs, normalizedActivity⟩
  | _ => none

/-- A row of the region CSV, from its fields. -/
def RegionRow.ofFields : List Str → Option RegionRow
  | [workload, region, signalCount, toggleCount, avgNormalizedActivity, timeSteps, lastTimePs] =>
    do
      let signalCount ← nat signalCount
      let toggleCount ← nat toggleCount
      let avgNormalizedActivity ← readFloat avgNormalizedActivity
      let timeSteps ← nat timeSteps
      let lastTimePs ← int lastTimePs
      return ⟨workload, region, signalCount, toggleCount, avgNormalizedActivity, timeSteps,
        lastTimePs⟩
  | _ => none

theorem SignalRow.ofFields_fields {row : SignalRow} (h : IsDouble row.normalizedActivity) :
    SignalRow.ofFields row.fields = some row := by
  simp [ofFields, fields, int_intText, nat_natText, readFloat_reprFloat h]

theorem RegionRow.ofFields_fields {row : RegionRow} (h : IsDouble row.avgNormalizedActivity) :
    RegionRow.ofFields row.fields = some row := by
  simp [ofFields, fields, int_intText, nat_natText, readFloat_reprFloat h]

/-- The rows under a header. -/
def tableUnder (header : List Str) {α : Type*} (ofFields : List Str → Option α) (text : Str) :
    Option (List α) :=
  match excel.read text with
  | .ok (fieldnames :: rows) => if fieldnames = header then rows.mapM ofFields else none
  | _ => none

/-- No field is longer than the module reads. -/
def Fit (fields : List Str) : Prop := ∀ field ∈ fields, field.length ≤ excel.fieldLimit

instance (fields : List Str) : Decidable (Fit fields) :=
  inferInstanceAs (Decidable (∀ field ∈ fields, _))

theorem mapM_map_eq_some {α β : Type*} {f : α → β} {g : β → Option α} {l : List α}
    (h : ∀ a ∈ l, g (f a) = some a) : (l.map f).mapM g = some l := by
  induction l with
  | nil => rfl
  | cons a l ih =>
      rw [List.map_cons, List.mapM_cons, h a List.mem_cons_self,
        ih (fun a ha => h a (List.mem_cons_of_mem _ ha))]
      rfl

/-- Writing rows under a header and reading them. -/
theorem tableUnder_writeRows {α : Type*} {header : List Str} (hheader : Fit header)
    {fields : α → List Str} {ofFields : List Str → Option α} {rows : List α}
    (hfit : ∀ row ∈ rows, Fit (fields row)) (h : ∀ row ∈ rows, ofFields (fields row) = some row) :
    tableUnder header ofFields (excel.writeRows (header :: rows.map fields)) = some rows := by
  have hread : excel.read (excel.writeRows (header :: rows.map fields))
      = .ok (header :: rows.map fields) := by
    refine excel.read_writeRows (fun row hrow => ?_)
    obtain rfl | hrow := List.mem_cons.mp hrow
    · exact hheader
    · obtain ⟨a, ha, rfl⟩ := List.mem_map.mp hrow
      exact hfit a ha
  rw [tableUnder, hread]
  exact (if_pos rfl).trans (mapM_map_eq_some h)

/-- **The signal CSV holds the rows.** -/
theorem tableUnder_signalCsv {rows : List SignalRow} (hfit : ∀ row ∈ rows, Fit row.fields)
    (hdouble : ∀ row ∈ rows, IsDouble row.normalizedActivity) :
    tableUnder signalFields SignalRow.ofFields (signalCsv rows) = some rows :=
  tableUnder_writeRows (by decide) hfit (fun row hrow => row.ofFields_fields (hdouble row hrow))

/-- **The region CSV holds the rows.** -/
theorem tableUnder_regionCsv {rows : List RegionRow} (hfit : ∀ row ∈ rows, Fit row.fields)
    (hdouble : ∀ row ∈ rows, IsDouble row.avgNormalizedActivity) :
    tableUnder regionFields RegionRow.ofFields (regionCsv rows) = some rows :=
  tableUnder_writeRows (by decide) hfit (fun row hrow => row.ofFields_fields (hdouble row hrow))

/-! ## Reading by column names -/

/-- What ends the export early. -/
inductive ExportError where
  | csvError
  | keyError
  | typeError
  | valueError
  | systemExit
  deriving DecidableEq, Repr

/-- A row of `csv.DictReader`: a column without a field is `None`.  Fields without a column are
kept under the key `None`, which nobody asks for. -/
abbrev DictRow := OrderedDict Str (Option Str)

/-- `dict(zip(fieldnames, row))`, and `None` for the remaining columns. -/
def dictRow (fieldnames row : List Str) : DictRow :=
  (fieldnames.drop row.length).foldl (fun d key => d.insert key none)
    (OrderedDict.ofList (fieldnames.zip (row.map some)))

/-- `list(csv.DictReader(f))`.  Blank records are skipped. -/
def dictRows : List (List Str) → List DictRow
  | [] => []
  | fieldnames :: rows => (rows.filter (fun row => row ≠ [])).map (dictRow fieldnames)

/-- `row[name]`. -/
def column (name : Str) (row : DictRow) : Except ExportError (Option Str) :=
  match row.get? name with
  | none => .error .keyError
  | some value => .ok value

/-- `row["region"]`, once the rows have been sorted by it. -/
def regionName (row : DictRow) : Option Str := (row.get? "region".toList).join

/-- `read_regions`.  `None` is not comparable, so that two rows cannot be sorted if one has no
region. -/
def readRegionsCsv (text : Str) : Except ExportError (List DictRow) :=
  match excel.read text with
  | .error _ => .error .csvError
  | .ok records =>
      let rows := dictRows records
      match rows.mapM (column "region".toList) with
      | .error e => .error e
      | .ok names =>
          if 2 ≤ names.length ∧ none ∈ names then .error .typeError
          else .ok (sortedBy (fun row => (regionName row).getD []) rows)

/-! ## The export -/

/-- The texts of the files that the export has written, `none` for a file it did not open, and
how it ended. -/
structure ExportRun where
  floorplan : Option Str := none
  ptrace : Option Str := none
  outcome : Except ExportError Unit

/-- A name in an f-string. -/
def nameText (name : Option Str) : Str := name.getD "None".toList

/-- The text of the floorplan. -/
def floorplanText (names : List Str) : Str :=
  "# Smoke floorplan generated from VCD activity. Dimensions are meters.\n".toList ++
    (names.mapIdx (fun idx name => floorplanLineWith double names.length name idx)).flatten

/-- The text of the power trace. -/
def ptraceText (names : List Str) (powers : List ℚ) : Str :=
  ['\t'].intercalate names ++ ['\n'] ++ ['\t'].intercalate (powers.map (fixed 6)) ++ ['\n']

/-- `float(row["avg_normalized_activity"])`. -/
def rowActivity (row : DictRow) : Except ExportError ℚ :=
  match column "avg_normalized_activity".toList row with
  | .error e => .error e
  | .ok none => .error .typeError
  | .ok (some s) =>
      match readFloat s with
      | none => .error .valueError
      | some activity => .ok activity

/-- `args.base_power + args.dynamic_scale * activity`. -/
def powerWith (fl : ℚ → ℚ) (basePower dynamicScale activity : ℚ) : ℚ :=
  fl (basePower + fl (dynamicScale * activity))

/-- `main`.  The floorplan is written before any activity is read. -/
def exportMain (text : Str) (basePower dynamicScale : ℚ) : ExportRun :=
  match readRegionsCsv text with
  | .error e => { outcome := .error e }
  | .ok [] => { outcome := .error .systemExit }
  | .ok (row :: rows) =>
      let names := (row :: rows).map regionName
      let floorplan := floorplanText (names.map nameText)
      match (row :: rows).mapM rowActivity with
      | .error e => { floorplan := some floorplan, outcome := .error e }
      | .ok activities =>
          -- joining the names fails if the only row has none
          match names.mapM id with
          | none => { floorplan := some floorplan, ptrace := some [], outcome := .error .typeError }
          | some names =>
              { floorplan := some floorplan
                ptrace := some (ptraceText names
                  (activities.map (powerWith double basePower dynamicScale)))
                outcome := .ok () }

/-- An export that succeeds has written both files. -/
theorem files_of_outcome {text : Str} {basePower dynamicScale : ℚ}
    (h : (exportMain text basePower dynamicScale).outcome = .ok ()) :
    ∃ floorplan ptrace, exportMain text basePower dynamicScale
      = ⟨some floorplan, some ptrace, .ok ()⟩ := by
  unfold exportMain at h ⊢
  dsimp only at h ⊢
  split at h
  · cases h
  · cases h
  · split at h
    · cases h
    · split at h
      · cases h
      · exact ⟨_, _, rfl⟩

/-! ## What the export reads -/

theorem get?_dictRow {fieldnames row : List Str} (hnodup : fieldnames.Nodup)
    (hlength : row.length = fieldnames.length) {i : ℕ} {name field : Str}
    (hname : fieldnames[i]? = some name) (hfield : row[i]? = some field) :
    (dictRow fieldnames row).get? name = some (some field) := by
  have hdrop : fieldnames.drop row.length = [] := by rw [hlength, List.drop_length]
  have hkeys : ((fieldnames.zip (row.map some)).map Prod.fst).Nodup := by
    rw [List.map_fst_zip (by rw [List.length_map, hlength])]
    exact hnodup
  have hmem : (name, some field) ∈ fieldnames.zip (row.map some) := by
    refine List.mem_of_getElem? (i := i) ?_
    rw [List.getElem?_zip_eq_some]
    exact ⟨hname, by rw [List.getElem?_map, hfield]; rfl⟩
  rw [dictRow, hdrop]
  exact OrderedDict.get?_ofList hkeys hmem

/-- Changing the elements of a sorted list without changing the keys of its elements. -/
theorem map_sortedBy_of_mem {α β κ : Type*} [LinearOrder κ] {key : α → κ} {key' : β → κ}
    {f : α → β} {l : List α} (h : ∀ a ∈ l, key' (f a) = key a) :
    (sortedBy key l).map f = sortedBy key' (l.map f) :=
  List.map_insertionSort _ _ f l (fun a ha b hb => by rw [h a ha, h b hb])

theorem mapM_map_eq_ok {ε α β γ : Type*} {f : α → β} {g : β → Except ε γ} {k : α → γ} {l : List α}
    (h : ∀ a ∈ l, g (f a) = .ok (k a)) : (l.map f).mapM g = .ok (l.map k) := by
  induction l with
  | nil => rfl
  | cons a l ih =>
      rw [List.map_cons, List.mapM_cons, h a List.mem_cons_self,
        ih (fun a ha => h a (List.mem_cons_of_mem _ ha))]
      rfl

/-- A way to lay out region rows in a table: the names of the columns, the fields of a row, and
the columns of the region and of its activity. -/
structure Layout where
  fieldnames : List Str
  fields : RegionRow → List Str
  regionColumn : ℕ
  activityColumn : ℕ
  nodup : fieldnames.Nodup
  length : ∀ row, (fields row).length = fieldnames.length
  regionColumn_name : fieldnames[regionColumn]? = some "region".toList
  activityColumn_name : fieldnames[activityColumn]? = some "avg_normalized_activity".toList
  region : ∀ row, (fields row)[regionColumn]? = some row.region
  activity : ∀ row, (fields row)[activityColumn]? = some (reprFloat row.avgNormalizedActivity)

/-- The region CSV. -/
def regionLayout : Layout where
  fieldnames := regionFields
  fields := RegionRow.fields
  regionColumn := 1
  activityColumn := 4
  nodup := by decide
  length _ := rfl
  regionColumn_name := rfl
  activityColumn_name := rfl
  region _ := rfl
  activity _ := rfl

namespace Layout

variable (layout : Layout)

/-- The table as a text. -/
def csv (rows : List RegionRow) : Str :=
  excel.writeRows (layout.fieldnames :: rows.map layout.fields)

/-- A row as the export reads it. -/
def dictRow (row : RegionRow) : DictRow := Activity.dictRow layout.fieldnames (layout.fields row)

theorem get?_region (row : RegionRow) :
    (layout.dictRow row).get? "region".toList = some (some row.region) :=
  get?_dictRow layout.nodup (layout.length row) layout.regionColumn_name (layout.region row)

theorem regionName_dictRow (row : RegionRow) :
    regionName (layout.dictRow row) = some row.region := by
  rw [regionName, layout.get?_region row]
  rfl

theorem rowActivity_dictRow {row : RegionRow} (h : IsDouble row.avgNormalizedActivity) :
    rowActivity (layout.dictRow row) = .ok row.avgNormalizedActivity := by
  have hget : (layout.dictRow row).get? "avg_normalized_activity".toList
      = some (some (reprFloat row.avgNormalizedActivity)) :=
    get?_dictRow layout.nodup (layout.length row) layout.activityColumn_name (layout.activity row)
  rw [rowActivity, column, hget]
  dsimp only
  rw [readFloat_reprFloat h]

theorem fields_ne_nil (row : RegionRow) : layout.fields row ≠ [] := by
  intro h
  have hregion := layout.region row
  rw [h] at hregion
  cases hregion

/-- **The rows are read back, sorted by region.** -/
theorem readRegionsCsv_csv {rows : List RegionRow} (hheader : Fit layout.fieldnames)
    (hfit : ∀ row ∈ rows, Fit (layout.fields row)) :
    readRegionsCsv (layout.csv rows) = .ok ((readRegions rows).map layout.dictRow) := by
  have hread : excel.read (layout.csv rows) = .ok (layout.fieldnames :: rows.map layout.fields) := by
    refine excel.read_writeRows (fun row hrow => ?_)
    obtain rfl | hrow := List.mem_cons.mp hrow
    · exact hheader
    · obtain ⟨a, ha, rfl⟩ := List.mem_map.mp hrow
      exact hfit a ha
  have hblank : (rows.map layout.fields).filter (fun row => row ≠ []) = rows.map layout.fields := by
    refine List.filter_eq_self.mpr (fun fields hfields => ?_)
    obtain ⟨row, -, rfl⟩ := List.mem_map.mp hfields
    exact decide_eq_true (layout.fields_ne_nil row)
  have hrows : dictRows (layout.fieldnames :: rows.map layout.fields)
      = rows.map layout.dictRow := by
    rw [dictRows, hblank, List.map_map]
    rfl
  have hnames : (rows.map layout.dictRow).mapM (column "region".toList)
      = .ok (rows.map (fun row => some row.region)) := by
    refine mapM_map_eq_ok (fun row _ => ?_)
    rw [column, layout.get?_region row]
  have hnone : none ∉ rows.map (fun row => some row.region) := by simp
  rw [readRegionsCsv, hread]
  dsimp only
  rw [hrows, hnames]
  dsimp only
  rw [if_neg (fun h => hnone h.2)]
  congr 1
  exact (map_sortedBy_of_mem (fun row _ => by rw [layout.regionName_dictRow]; rfl)).symm

/-- **What the export makes of a table.**  For every layout and all rows with floats as
activities, the two files are those of the rows sorted by region: nothing is lost on the way
through the text, and no other column has an influence. -/
theorem exportMain_csv {rows : List RegionRow} (hrows : rows ≠ []) (hheader : Fit layout.fieldnames)
    (hfit : ∀ row ∈ rows, Fit (layout.fields row))
    (hdouble : ∀ row ∈ rows, IsDouble row.avgNormalizedActivity) (basePower dynamicScale : ℚ) :
    exportMain (layout.csv rows) basePower dynamicScale =
      { floorplan := some (floorplanWith double rows).flatten
        ptrace := some (ptraceText ((readRegions rows).map RegionRow.region)
          ((readRegions rows).map (blockPowerWith double basePower dynamicScale)))
        outcome := .ok () } := by
  have hsorted : readRegions rows ≠ [] := fun h => hrows ((readRegions_eq_nil_iff rows).mp h)
  have hnames : ((readRegions rows).map layout.dictRow).map regionName
      = ((readRegions rows).map RegionRow.region).map some := by
    rw [List.map_map, List.map_map]
    exact List.map_congr_left (fun row _ => layout.regionName_dictRow row)
  have htexts : (((readRegions rows).map layout.dictRow).map regionName).map nameText
      = (readRegions rows).map RegionRow.region := by
    rw [hnames, List.map_map]
    exact List.map_id _
  have hjoin : (((readRegions rows).map layout.dictRow).map regionName).mapM id
      = some ((readRegions rows).map RegionRow.region) := by
    rw [hnames]
    exact mapM_map_eq_some (fun _ _ => rfl)
  have hactivities : ((readRegions rows).map layout.dictRow).mapM rowActivity
      = .ok ((readRegions rows).map RegionRow.avgNormalizedActivity) :=
    mapM_map_eq_ok (fun row hrow => layout.rowActivity_dictRow (hdouble row (mem_sortedBy.mp hrow)))
  unfold exportMain
  rw [layout.readRegionsCsv_csv hheader hfit]
  cases hds : (readRegions rows).map layout.dictRow with
  | nil => exact absurd (List.map_eq_nil_iff.mp hds) hsorted
  | cons d ds =>
      rw [hds] at htexts hjoin hactivities
      dsimp only
      rw [hactivities]
      dsimp only
      rw [hjoin, htexts]
      dsimp only
      rw [List.map_map]
      rfl

end Layout

/-- The two columns that are read, in the other order. -/
def narrowLayout : Layout where
  fieldnames := ["avg_normalized_activity".toList, "region".toList]
  fields row := [reprFloat row.avgNormalizedActivity, row.region]
  regionColumn := 1
  activityColumn := 0
  nodup := by decide
  length _ := rfl
  regionColumn_name := rfl
  activityColumn_name := rfl
  region _ := rfl
  activity _ := rfl

/-- A region whose name has a comma and a line feed. -/
def oddRegion : RegionRow where
  workload := []
  region := "pe,\n\"a\"".toList
  signalCount := 1
  toggleCount := 0
  avgNormalizedActivity := 1 / 4
  timeSteps := 0
  lastTimePs := 0

theorem exportMain_csv_narrow :
    exportMain (narrowLayout.csv [oddRegion]) (1 / 20) 2 =
      exportMain (regionCsv [oddRegion]) (1 / 20) 2 := by
  have hdouble : ∀ row ∈ [oddRegion], IsDouble row.avgNormalizedActivity := by
    intro row hrow
    rw [List.mem_singleton.mp hrow, isDouble_iff]
    decide +kernel
  exact (narrowLayout.exportMain_csv (List.cons_ne_nil _ _) (by decide) (by decide +kernel) hdouble
    (1 / 20) 2).trans (regionLayout.exportMain_csv (List.cons_ne_nil _ _) (by decide)
      (by decide +kernel) hdouble (1 / 20) 2).symm

/-! ## The extraction -/

section

variable [PyStr]

/-- `main` of `scripts/extract_vcd_activity.py`: the texts of the signal CSV and of the region
CSV. -/
def extractMain (document : Option Yaml) (vcd : List UInt8) (workload : Str) (topSignals : ℤ)
    (excludeClocks : Bool) : Except PyError (Str × Str) :=
  (Job.mainWith double document vcd workload topSignals excludeClocks).map
    (fun out => (signalCsv out.1, regionCsv out.2))

end

end Activity
