/-
# Reading the inventory back

A reader of the Markdown that `write_markdown` of `scripts/inspect_gemmini_hierarchy.py` writes.
It knows the layout of the report and nothing about the modules: a table under its rule, the
number of modules in the summary, and a section of entries for each category.

`inventory_agrees`: the hierarchy map is a partition of the modules, the report that is read back
shows the same buckets and its counts add up to the printed number, and `load_category_terms`
adds just these names to the built-in terms.
-/
import ThermalPlacement.InventoryReport
import ThermalPlacement.PrintedNumbers

open PyText Activity

namespace Inventory

/-! ## The reader -/

/-- The lines of a text. -/
def textLines (text : Str) : List Str := text.splitOn '\n'

/-- A text without its first and its last character. -/
def inner (s : Str) : Str := s.tail.dropLast

/-- A printed number. -/
def readCount (s : Str) : Option ℕ := if IsNumber s then some (numberValue s) else none

/-- A row of the table. -/
structure TableRow where
  category : Str
  description : Str
  moduleCount : ℕ
  treatment : Str
  deriving DecidableEq

/-- The cells between the bars, each with a blank on both sides; the category is quoted. -/
def readTableRow (line : Str) : Option TableRow :=
  match line.splitOn '|' with
  | [_, category, description, moduleCount, treatment, _] =>
      (readCount (inner moduleCount)).map
        (fun n => ⟨inner (inner category), inner description, n, inner treatment⟩)
  | _ => none

/-- The rule under the header of the table. -/
def tableRule : Str := "| --- | --- | ---: | --- |".toList

/-- The rows of the table: from its rule to the next empty line. -/
def readTable (lines : List Str) : Option (List TableRow) :=
  (((lines.dropWhile (· ≠ tableRule)).drop 1).takeWhile (· ≠ [])).mapM readTableRow

/-- What stands before the number of modules. -/
def countLabel : Str := "- RTL modules found: ".toList

/-- The printed number of modules. -/
def readModuleCount (lines : List Str) : Option ℕ :=
  lines.findSome? (fun line =>
    if countLabel <+: line then readCount (line.drop countLabel.length) else none)

/-- The heading of the sections. -/
def bucketHeading : Str := "## Modules By Bucket".toList

/-- The quoted name of an entry. -/
def readEntry (line : Str) : Option Str :=
  if "- `".toList <+: line then some ((line.drop 3).takeWhile (· ≠ '`')) else none

/-- One more line at the top of what has been read: the heading of a section takes the entries
that have been read below it. -/
def addLine (line : Str) (read : List Str × List (Str × List Str)) :
    List Str × List (Str × List Str) :=
  if "### ".toList <+: line then ([], (line.drop 4, read.1) :: read.2)
  else ((readEntry line).toList ++ read.1, read.2)

/-- The sections under their heading, up to the next heading of this level. -/
def readSections (lines : List Str) : List (Str × List Str) :=
  ((((lines.dropWhile (· ≠ bucketHeading)).drop 1).takeWhile
    (fun line => ¬ "## ".toList <+: line)).foldr addLine ([], [])).2

/-! ## Lines -/

/-- Lines before the first one with a line feed in it can be told from the text. -/
theorem textLines_intercalate_append {front back : List Str} (hfront : ∀ line ∈ front, '\n' ∉ line)
    (hback : back ≠ []) :
    textLines (['\n'].intercalate (front ++ back))
      = front ++ textLines (['\n'].intercalate back) := by
  induction front with
  | nil => rfl
  | cons line front ih =>
      obtain ⟨hline, hfront⟩ := List.forall_mem_cons.mp hfront
      have hne : front ++ back ≠ [] := List.append_ne_nil_of_right_ne_nil _ hback
      have hcons : ['\n'].intercalate (line :: (front ++ back))
          = line ++ '\n' :: ['\n'].intercalate (front ++ back) := by
        -- the line feed behind the first line is the first one
        cases hrest : front ++ back with
        | nil => exact absurd hrest hne
        | cons next rest =>
            rw [List.intercalate_cons_cons, List.append_assoc]
            rfl
      rw [List.cons_append, List.cons_append, hcons, textLines,
        List.splitOn_append_cons_self_of_not_mem hline]
      exact congrArg (line :: ·) (ih hfront)

/-- What comes before the first element that stops. -/
theorem takeWhile_append_eq_left {α : Type*} {p : α → Prop} [DecidablePred p] {u v : List α}
    (hu : ∀ a ∈ u, p a) (hv : ∀ a ∈ v.head?, ¬ p a) :
    (u ++ v).takeWhile (fun a => decide (p a)) = u := by
  rw [List.takeWhile_append_of_pos (fun a ha => decide_eq_true (hu a ha))]
  cases v with
  | nil => exact List.append_nil u
  | cons a v => rw [List.takeWhile_cons_of_neg (by simpa using hv a rfl), List.append_nil]

/-- What is left from there on. -/
theorem dropWhile_append_eq_right {α : Type*} {p : α → Prop} [DecidablePred p] {u v : List α}
    (hu : ∀ a ∈ u, p a) (hv : ∀ a ∈ v.head?, ¬ p a) :
    (u ++ v).dropWhile (fun a => decide (p a)) = v := by
  rw [List.dropWhile_append_of_pos (fun a ha => decide_eq_true (hu a ha))]
  cases v with
  | nil => rfl
  | cons a v => exact List.dropWhile_cons_of_neg (by simpa using hv a rfl)

/-! ## Numbers -/

theorem readCount_decimal (n : ℕ) : readCount (decimal n) = some n := by
  rw [readCount, decimal, if_pos (isNumber_toDigits n)]
  exact congrArg some Nat.ofDigitChars_ten_toDigits

theorem notMem_decimal {c : Char} (hc : c.isDigit = false) (n : ℕ) : c ∉ decimal n := by
  intro hmem
  rw [(isNumber_toDigits n).2 c hmem] at hc
  cases hc

/-! ## The table -/

/-- A cell of the table. -/
def cell (s : Str) : Str := ' ' :: (s ++ [' '])

/-- A quoted name. -/
def quoted (s : Str) : Str := '`' :: (s ++ ['`'])

@[simp] theorem inner_cell (s : Str) : inner (cell s) = s := by
  simp [inner, cell]

@[simp] theorem inner_quoted (s : Str) : inner (quoted s) = s := by
  simp [inner, quoted]

theorem bar_notMem_cell {s : Str} (h : '|' ∉ s) : '|' ∉ cell s := by
  simp [cell, h]

theorem bar_notMem_quoted {s : Str} (h : '|' ∉ s) : '|' ∉ quoted s := by
  simp [quoted, h]

/-- Four cells between bars. -/
def cellsRow (a b c d : Str) : Str :=
  '|' :: (a ++ '|' :: (b ++ '|' :: (c ++ '|' :: (d ++ ['|']))))

theorem splitOn_cellsRow {a b c d : Str} (ha : '|' ∉ a) (hb : '|' ∉ b) (hc : '|' ∉ c)
    (hd : '|' ∉ d) : (cellsRow a b c d).splitOn '|' = [[], a, b, c, d, []] := by
  have hrow : cellsRow a b c d = [] ++ '|' :: (a ++ '|' :: (b ++ '|' :: (c ++ '|' ::
      (d ++ '|' :: [])))) := rfl
  rw [hrow, List.splitOn_append_cons_self_of_not_mem List.not_mem_nil,
    List.splitOn_append_cons_self_of_not_mem ha, List.splitOn_append_cons_self_of_not_mem hb,
    List.splitOn_append_cons_self_of_not_mem hc, List.splitOn_append_cons_self_of_not_mem hd]
  rfl

theorem tableRow_eq (category : Str) (moduleCount : ℕ) (treatment : Str) :
    tableRow category moduleCount treatment = cellsRow (cell (quoted category))
      (cell (description category)) (cell (decimal moduleCount)) (cell treatment) := by
  unfold tableRow cellsRow cell quoted
  generalize description category = d
  generalize decimal moduleCount = n
  have hopen : "| `".toList = ['|', ' ', '`'] := by decide
  have hquote : "` | ".toList = ['`', ' ', '|', ' '] := by decide
  have hbar : " | ".toList = [' ', '|', ' '] := by decide
  have hclose : " |".toList = [' ', '|'] := by decide
  rw [hopen, hquote, hbar, hclose]
  simp only [List.append_assoc, List.cons_append, List.nil_append]

/-- A row is read back if its texts hold no bar. -/
theorem readTableRow_tableRow {category treatment : Str} (hcategory : '|' ∉ category)
    (hdescription : '|' ∉ description category) (htreatment : '|' ∉ treatment) (moduleCount : ℕ) :
    readTableRow (tableRow category moduleCount treatment)
      = some ⟨category, description category, moduleCount, treatment⟩ := by
  have hcount : '|' ∉ decimal moduleCount := notMem_decimal (by decide) moduleCount
  rw [readTableRow, tableRow_eq,
    splitOn_cellsRow (bar_notMem_cell (bar_notMem_quoted hcategory)) (bar_notMem_cell hdescription)
      (bar_notMem_cell hcount) (bar_notMem_cell htreatment)]
  simp only [inner_cell, inner_quoted, readCount_decimal, Option.map_some]

/-- A line that begins in another way is another line. -/
theorem ne_of_head?_ne {line line' : Str} (h : line.head? ≠ line'.head?) : line ≠ line' :=
  fun heq => h (congrArg List.head? heq)

/-- What is said about the lines above the table. -/
def AboveTable (line : Str) : Prop := line ≠ tableRule ∧ line ≠ bucketHeading ∧ '\n' ∉ line

instance : DecidablePred AboveTable := fun _ => inferInstanceAs (Decidable (_ ∧ _ ∧ _))

theorem aboveTable_count {label : Str} (hhead : label.head? = some '-') (hline : '\n' ∉ label)
    (n : ℕ) : AboveTable (label ++ decimal n) := by
  have hfirst : (label ++ decimal n).head? = some '-' := by
    cases label with
    | nil => cases hhead
    | cons c label => exact hhead
  refine ⟨ne_of_head?_ne ?_, ne_of_head?_ne ?_, ?_⟩
  · rw [hfirst]
    decide
  · rw [hfirst]
    decide
  · rw [List.mem_append, not_or]
    exact ⟨hline, notMem_decimal (by decide) n⟩

/-- The rule is the last line above the table, and the heading of the sections comes later. -/
theorem exists_reportHead_eq (moduleCount : ℕ) (hierarchyNames : List Str) :
    ∃ front, reportHead moduleCount hierarchyNames = front ++ [tableRule] ∧
      ∀ line ∈ front, AboveTable line := by
  refine ⟨(reportHead moduleCount hierarchyNames).dropLast, rfl, fun line hline => ?_⟩
  simp only [reportHead, List.dropLast, List.mem_cons, List.not_mem_nil, or_false] at hline
  rcases hline with rfl | rfl | rfl | rfl | rfl | rfl | rfl | rfl | rfl | rfl | rfl | rfl
  -- only two lines of the head depend on the modules
  case inr.inr.inr.inr.inr.inr.inl => exact aboveTable_count (by decide) (by decide) moduleCount
  case inr.inr.inr.inr.inr.inr.inr.inl =>
    split_ifs
    · exact aboveTable_count (by decide) (by decide) hierarchyNames.length
    · decide
  all_goals decide

/-- The printed number of modules stands in the summary. -/
theorem readModuleCount_reportHead (moduleCount : ℕ) (hierarchyNames lines : List Str) :
    readModuleCount (reportHead moduleCount hierarchyNames ++ lines) = some moduleCount := by
  have hlabel : countLabel <+: countLabel ++ decimal moduleCount := List.prefix_append _ _
  have hfirst : ∀ line ∈ ((reportHead moduleCount hierarchyNames).take 6),
      ¬ countLabel <+: line := by
    -- the lines above the number do not depend on the modules
    have htake : (reportHead moduleCount hierarchyNames).take 6 = (reportHead 0 []).take 6 := rfl
    rw [htake]
    decide
  have hsplit : reportHead moduleCount hierarchyNames ++ lines
      = (reportHead moduleCount hierarchyNames).take 6 ++ (countLabel ++ decimal moduleCount) ::
        ((reportHead moduleCount hierarchyNames).drop 7 ++ lines) := rfl
  rw [hsplit, readModuleCount, List.findSome?_append]
  have hnone : ((reportHead moduleCount hierarchyNames).take 6).findSome? (fun line =>
      if countLabel <+: line then readCount (line.drop countLabel.length) else none) = none := by
    rw [List.findSome?_eq_none_iff]
    exact fun line hline => if_neg (hfirst line hline)
  rw [hnone, Option.none_or, List.findSome?_cons, if_pos hlabel, List.drop_left,
    readCount_decimal]

/-! ## Rows of buckets -/

/-- A category of the report: its name and its description hold no bar and no line feed. -/
def Printable (category : Str) : Prop :=
  ('|' ∉ category ∧ '|' ∉ description category) ∧ '\n' ∉ category ∧ '\n' ∉ description category

instance : DecidablePred Printable := fun _ => inferInstanceAs (Decidable (_ ∧ _ ∧ _))

theorem printable_categoryFor [PyStr] (m : Str) : Printable (categoryFor m) := by
  have hall : ∀ c ∈ categoryRules.map CategoryRule.category ++
      ["gemmini_other".toList, "non_gemmini_context".toList], Printable c := by decide +kernel
  exact hall _ (categoryFor_mem m)

/-- The row of a bucket, as it is read. -/
def Bucket.tableRow (b : Bucket) : TableRow where
  category := b.category
  description := description b.category
  moduleCount := b.modules.length
  treatment := if b.included then "include".toList else "defer".toList

theorem readTableRow_row {b : Bucket} (h : Printable b.category) :
    readTableRow b.row = some b.tableRow := by
  refine readTableRow_tableRow h.1.1 h.1.2 ?_ b.modules.length
  split_ifs <;> decide

theorem row_head? (b : Bucket) : b.row.head? = some '|' := by
  rw [Bucket.row, tableRow_eq]
  rfl

theorem newline_notMem_row {b : Bucket} (h : Printable b.category) : '\n' ∉ b.row := by
  have hcount : '\n' ∉ decimal b.modules.length := notMem_decimal (by decide) _
  have htreatment : '\n' ∉ if b.included = true then "include".toList else "defer".toList := by
    split_ifs <;> decide
  rw [Bucket.row, tableRow_eq]
  generalize (if b.included = true then "include".toList else "defer".toList) = t at htreatment ⊢
  simp [cellsRow, cell, quoted, h.2.1, h.2.2, hcount, htreatment]

/-- **The table is read back**, whatever comes after it. -/
theorem readTable_report {buckets : List Bucket} (h : ∀ b ∈ buckets, Printable b.category)
    (moduleCount : ℕ) (hierarchyNames lines : List Str) :
    readTable (reportHead moduleCount hierarchyNames ++ (buckets.map Bucket.row ++ [] :: lines))
      = some (buckets.map Bucket.tableRow) := by
  obtain ⟨front, hhead, hfront⟩ := exists_reportHead_eq moduleCount hierarchyNames
  have hdrop : (reportHead moduleCount hierarchyNames ++ (buckets.map Bucket.row ++ [] :: lines)
      ).dropWhile (· ≠ tableRule) = tableRule :: (buckets.map Bucket.row ++ [] :: lines) := by
    rw [hhead, List.append_assoc]
    exact dropWhile_append_eq_right (fun line hline => (hfront line hline).1) (by simp)
  -- an empty line ends the table, and no row is empty
  have htake : (buckets.map Bucket.row ++ [] :: lines).takeWhile (· ≠ [])
      = buckets.map Bucket.row := by
    refine takeWhile_append_eq_left (fun line hline => ?_) (by simp)
    obtain ⟨b, -, rfl⟩ := List.mem_map.mp hline
    exact ne_of_head?_ne (by rw [row_head?]; decide)
  rw [readTable, hdrop, List.drop_one, List.tail_cons, htake, List.mapM_map]
  exact mapM_eq_some_map (fun b hb => readTableRow_row (h b hb))

/-! ## Sections of buckets -/

theorem not_prefix_of_head? {u line : Str} {c : Char} (hu : u.head? = some c)
    (hline : line.head? ≠ some c) : ¬ u <+: line := by
  rintro ⟨v, rfl⟩
  cases u with
  | nil => cases hu
  | cons d u => exact hline hu

theorem readEntry_moduleLine (modules : OrderedDict Str (List Str)) {name : Str}
    (hname : '`' ∉ name) : readEntry (moduleLine modules name) = some name := by
  have hopen : "- `".toList = ['-', ' ', '`'] := by decide
  have hclose : "` (".toList = ['`', ' ', '('] := by decide
  unfold readEntry moduleLine
  generalize relFiles _ = files
  rw [hopen, hclose, if_pos ⟨name ++ ['`', ' ', '('] ++ files ++ ")".toList, by simp⟩]
  have hdrop : (['-', ' ', '`'] ++ name ++ ['`', ' ', '('] ++ files ++ ")".toList).drop 3
      = name ++ '`' :: ([' ', '('] ++ files ++ ")".toList) := by simp
  rw [hdrop, takeWhile_append_eq_left (fun c hc => ne_of_mem_of_not_mem hc hname) (by simp)]

theorem moduleLine_head? (modules : OrderedDict Str (List Str)) (name : Str) :
    (moduleLine modules name).head? = some '-' := rfl

/-- An entry is added to those below it. -/
theorem addLine_moduleLine (modules : OrderedDict Str (List Str)) {name : Str}
    (hname : '`' ∉ name) (read : List Str × List (Str × List Str)) :
    addLine (moduleLine modules name) read = (name :: read.1, read.2) := by
  rw [addLine, if_neg (not_prefix_of_head? rfl (by rw [moduleLine_head?]; decide)),
    readEntry_moduleLine modules hname]
  rfl

theorem foldr_moduleLine (modules : OrderedDict Str (List Str)) {names : List Str}
    (hnames : ∀ name ∈ names, '`' ∉ name) (read : List Str × List (Str × List Str)) :
    (names.map (moduleLine modules)).foldr addLine read = (names ++ read.1, read.2) := by
  induction names with
  | nil => rfl
  | cons name names ih =>
      obtain ⟨hname, hnames⟩ := List.forall_mem_cons.mp hnames
      rw [List.map_cons, List.foldr_cons, ih hnames, addLine_moduleLine modules hname]
      rfl

/-- The lines of a section. -/
theorem eq_of_mem_bucketLines {modules : OrderedDict Str (List Str)} {category line : Str}
    {names : List Str} (h : line ∈ bucketLines modules category names) :
    line = "### ".toList ++ category ∨ line = [] ∨
      ∃ name ∈ names, line = moduleLine modules name := by
  simp only [bucketLines, List.mem_append, List.mem_cons, List.not_mem_nil, or_false,
    List.mem_map] at h
  rcases h with ((rfl | rfl) | ⟨name, hname, rfl⟩) | rfl
  · exact Or.inl rfl
  · exact Or.inr (Or.inl rfl)
  · exact Or.inr (Or.inr ⟨name, hname, rfl⟩)
  · exact Or.inr (Or.inl rfl)

/-- A section is read as the category and its names. -/
theorem foldr_bucketLines (modules : OrderedDict Str (List Str)) (category : Str)
    {names : List Str} (hnames : ∀ name ∈ names, '`' ∉ name) (read : List (Str × List Str)) :
    (bucketLines modules category names).foldr addLine ([], read)
      = ([], (category, names) :: read) := by
  have hopen : "### ".toList = ['#', '#', '#', ' '] := by decide
  have hempty : ∀ r, addLine [] r = r := fun _ => rfl
  simp only [bucketLines, List.foldr_append, List.foldr_cons, List.foldr_nil, hempty,
    foldr_moduleLine modules hnames, List.append_nil]
  rw [addLine, if_pos (List.prefix_append _ _), hopen]
  rfl

theorem foldr_flatMap_bucketLines (modules : OrderedDict Str (List Str)) {buckets : List Bucket}
    (h : ∀ b ∈ buckets, ∀ name ∈ b.modules, '`' ∉ name) :
    (buckets.flatMap (fun b => bucketLines modules b.category b.modules)).foldr addLine ([], [])
      = ([], buckets.map (fun b => (b.category, b.modules))) := by
  induction buckets with
  | nil => rfl
  | cons b buckets ih =>
      obtain ⟨hb, h⟩ := List.forall_mem_cons.mp h
      rw [List.flatMap_cons, List.foldr_append, ih h, foldr_bucketLines modules b.category hb]
      rfl

/-- **The sections are read back**, whatever stands above their heading and below their end. -/
theorem readSections_report (modules : OrderedDict Str (List Str)) {buckets : List Bucket}
    (h : ∀ b ∈ buckets, ∀ name ∈ b.modules, '`' ∉ name) {front back : List Str}
    (hfront : ∀ line ∈ front, line ≠ bucketHeading)
    (hback : ∀ line ∈ back.head?, "## ".toList <+: line) :
    readSections (front ++ (bucketHeading :: [] ::
      (buckets.flatMap (fun b => bucketLines modules b.category b.modules) ++ back)))
        = buckets.map (fun b => (b.category, b.modules)) := by
  set sections := buckets.flatMap (fun b => bucketLines modules b.category b.modules) with hsections
  have hdrop : (front ++ (bucketHeading :: [] :: (sections ++ back))).dropWhile (· ≠ bucketHeading)
      = bucketHeading :: [] :: (sections ++ back) :=
    dropWhile_append_eq_right hfront (by simp)
  -- inside the sections no line is a heading of this level
  have hinside : ∀ line ∈ [] :: sections, ¬ "## ".toList <+: line := by
    intro line hline
    rcases List.mem_cons.mp hline with rfl | hline
    · decide
    · obtain ⟨b, -, hline⟩ := List.mem_flatMap.mp hline
      rcases eq_of_mem_bucketLines hline with rfl | rfl | ⟨name, -, rfl⟩
      · -- a heading of the next level
        rintro ⟨v, hv⟩
        have hthird := congrArg (fun l => l[2]?) hv
        cases hthird
      · decide
      · exact not_prefix_of_head? rfl (by rw [moduleLine_head?]; decide)
  have htake : ([] :: (sections ++ back)).takeWhile (fun line => ¬ "## ".toList <+: line)
      = [] :: sections := by
    rw [← List.cons_append]
    exact takeWhile_append_eq_left hinside (fun line hline => not_not.mpr (hback line hline))
  rw [readSections, hdrop, List.drop_one, List.tail_cons, htake, List.foldr_cons, hsections,
    foldr_flatMap_bucketLines modules h]
  rfl

/-! ## The text -/

theorem newline_notMem_relFiles {files : List Str} (h : ∀ file ∈ files, '\n' ∉ pathName file) :
    '\n' ∉ relFiles files := by
  have hnames : '\n' ∉ ", ".toList.intercalate (sortedBy id ((files.take 3).map pathName)) := by
    intro hmem
    rcases mem_or_mem_of_mem_intercalate hmem with hmem | ⟨name, hname, hmem⟩
    · revert hmem
      decide
    · obtain ⟨file, hfile, rfl⟩ := List.mem_map.mp (mem_sortedBy.mp hname)
      exact h file (List.mem_of_mem_take hfile) hmem
  have hcount : '\n' ∉ decimal files.length := notMem_decimal (by decide) _
  rw [relFiles, List.mem_append, not_or]
  refine ⟨hnames, ?_⟩
  split_ifs
  · simp [hcount]
  · exact List.not_mem_nil

theorem newline_notMem_of_isIdentifier {name : Str} (h : IsIdentifier name) : '\n' ∉ name ∧
    '`' ∉ name := by
  have hpart : ∀ c, IsIdentPart c → c ≠ '\n' ∧ c ≠ '`' := by
    rintro c hc
    constructor <;> rintro rfl <;> revert hc <;> decide
  cases name with
  | nil => exact h.elim
  | cons c name =>
      have hall : ∀ d ∈ c :: name, IsIdentPart d := by
        intro d hd
        rcases List.mem_cons.mp hd with rfl | hd
        · exact Or.inl h.1
        · exact h.2 d hd
      exact ⟨fun hmem => (hpart _ (hall _ hmem)).1 rfl, fun hmem => (hpart _ (hall _ hmem)).2 rfl⟩

/-- The sections hold no line feed if the names of the files hold none. -/
theorem newline_notMem_bucketLines {modules : OrderedDict Str (List Str)} {category : Str}
    {names : List Str} (hcategory : '\n' ∉ category) (hnames : ∀ name ∈ names, '\n' ∉ name)
    (hfiles : ∀ name ∈ names, ∀ file ∈ (modules.get? name).getD [], '\n' ∉ pathName file) :
    ∀ line ∈ bucketLines modules category names, '\n' ∉ line := by
  intro line hline
  rcases eq_of_mem_bucketLines hline with rfl | rfl | ⟨name, hname, rfl⟩
  · simp [hcategory]
  · exact List.not_mem_nil
  · have hrel := newline_notMem_relFiles (hfiles name hname)
    simp [moduleLine, hnames name hname, hrel]

/-- The sample of names begins with a heading. -/
theorem head?_hierarchySample {hierarchyNames : List Str} {line : Str}
    (h : line ∈ (hierarchySample hierarchyNames).head?) :
    "## ".toList <+: line ∧ '\n' ∉ line := by
  unfold hierarchySample at h
  split_ifs at h
  · obtain rfl := Option.some.inj h
    decide
  · cases h

/-- Below lines without line feeds, the text goes on as its next line does. -/
theorem exists_textLines_eq {front back : List Str} (hfront : ∀ line ∈ front, '\n' ∉ line)
    (hne : front ≠ []) (hback : ∀ line ∈ back.head?, '\n' ∉ line) :
    ∃ rest, textLines (['\n'].intercalate (front ++ back)) = front ++ rest ∧
      rest.head? = back.head? := by
  cases back with
  | nil =>
      refine ⟨[], ?_, rfl⟩
      rw [List.append_nil]
      exact List.splitOn_intercalate '\n' hfront hne
  | cons line back =>
      refine ⟨_, textLines_intercalate_append hfront (List.cons_ne_nil _ _), ?_⟩
      have hline := hback line rfl
      cases back with
      | nil =>
          show (textLines (['\n'].intercalate [line])).head? = _
          rw [textLines, List.splitOn_intercalate '\n' (by simpa using hline) (by simp)]
      | cons next back =>
          show (textLines (['\n'].intercalate ([line] ++ next :: back))).head? = _
          rw [textLines_intercalate_append (by simpa using hline) (List.cons_ne_nil _ _)]
          rfl

section

variable [PyStr]

theorem printable_of_mem {modules : OrderedDict Str (List Str)} {b : Bucket}
    (h : b ∈ (usedCategories modules).map (bucketOf modules)) : Printable b.category := by
  obtain ⟨category, hcategory, rfl⟩ := List.mem_map.mp h
  obtain ⟨m, -, rfl⟩ := (mem_usedCategories modules category).mp hcategory
  exact printable_categoryFor m

/-- The lines of a report, cut where its parts begin. -/
theorem markdownLines_cut (modules : OrderedDict Str (List Str)) (hierarchyNames : List Str) :
    markdownLines modules (categorized modules) hierarchyNames =
      (reportHead modules.keys.length hierarchyNames ++
        (((usedCategories modules).map (bucketOf modules)).map Bucket.row ++ [[]])) ++
      (bucketHeading :: [] :: (((usedCategories modules).map (bucketOf modules)).flatMap
        (fun b => bucketLines modules b.category b.modules)
          ++ hierarchySample hierarchyNames)) := by
  have hheading : "## Modules By Bucket".toList = bucketHeading := rfl
  rw [markdownLines_eq, hheading]
  simp only [List.append_assoc, List.cons_append, List.nil_append]

/-- The lines above the heading of the sections. -/
theorem aboveSections {modules : OrderedDict Str (List Str)} {hierarchyNames : List Str}
    {line : Str} (h : line ∈ reportHead modules.keys.length hierarchyNames ++
      (((usedCategories modules).map (bucketOf modules)).map Bucket.row ++ [[]])) :
    line ≠ bucketHeading ∧ '\n' ∉ line := by
  obtain ⟨front, hhead, hfront⟩ := exists_reportHead_eq modules.keys.length hierarchyNames
  rw [hhead] at h
  rcases List.mem_append.mp h with h | h
  · rcases List.mem_append.mp h with h | h
    · exact (hfront line h).2
    · rw [List.mem_singleton.mp h]
      decide
  · rcases List.mem_append.mp h with h | h
    · obtain ⟨b, hb, rfl⟩ := List.mem_map.mp h
      exact ⟨ne_of_head?_ne (by rw [row_head?]; decide), newline_notMem_row (printable_of_mem hb)⟩
    · rw [List.mem_singleton.mp h]
      decide

/-- **The summary and the table are read back from the text.** -/
theorem readTable_writeMarkdown (modules : OrderedDict Str (List Str)) (hierarchyNames : List Str) :
    readTable (textLines (writeMarkdown modules (categorized modules) hierarchyNames))
        = some (((usedCategories modules).map (bucketOf modules)).map Bucket.tableRow) ∧
      readModuleCount (textLines (writeMarkdown modules (categorized modules) hierarchyNames))
        = some modules.keys.length := by
  rw [writeMarkdown, markdownLines_cut, textLines_intercalate_append
    (fun line hline => (aboveSections hline).2) (List.cons_ne_nil _ _), List.append_assoc,
    List.append_assoc, List.singleton_append]
  exact ⟨readTable_report (fun b hb => printable_of_mem hb) _ _ _,
    readModuleCount_reportHead _ _ _⟩

/-- **The sections are read back from the lines**, and from the text if the names of the files
hold no line feed. -/
theorem readSections_writeMarkdown {modules : OrderedDict Str (List Str)}
    (hnames : ∀ m ∈ modules.keys, IsIdentifier m) (hierarchyNames : List Str) :
    readSections (markdownLines modules (categorized modules) hierarchyNames)
        = ((usedCategories modules).map (bucketOf modules)).map
          (fun b => (b.category, b.modules)) ∧
      ((∀ m ∈ modules.keys, ∀ file ∈ (modules.get? m).getD [], '\n' ∉ pathName file) →
        readSections (textLines (writeMarkdown modules (categorized modules) hierarchyNames))
          = ((usedCategories modules).map (bucketOf modules)).map
            (fun b => (b.category, b.modules))) := by
  have hmembers : ∀ b ∈ (usedCategories modules).map (bucketOf modules), ∀ name ∈ b.modules,
      name ∈ modules.keys := by
    intro b hb name hname
    obtain ⟨category, -, rfl⟩ := List.mem_map.mp hb
    exact ((mem_membersOf modules category name).mp hname).1
  have hquote : ∀ b ∈ (usedCategories modules).map (bucketOf modules), ∀ name ∈ b.modules,
      '`' ∉ name := fun b hb name hname =>
    (newline_notMem_of_isIdentifier (hnames name (hmembers b hb name hname))).2
  constructor
  · rw [markdownLines_cut]
    exact readSections_report modules hquote (fun line hline => (aboveSections hline).1)
      (fun line hline => (head?_hierarchySample hline).1)
  · intro hfiles
    -- no line above the sample of names holds a line feed
    have hfront : ∀ line ∈ (reportHead modules.keys.length hierarchyNames ++
        (((usedCategories modules).map (bucketOf modules)).map Bucket.row ++ [[]])) ++
          (bucketHeading :: [] :: ((usedCategories modules).map (bucketOf modules)).flatMap
            (fun b => bucketLines modules b.category b.modules)), '\n' ∉ line := by
      intro line hline
      rcases List.mem_append.mp hline with hline | hline
      · exact (aboveSections hline).2
      · rcases List.mem_cons.mp hline with rfl | hline
        · decide
        · rcases List.mem_cons.mp hline with rfl | hline
          · exact List.not_mem_nil
          · obtain ⟨b, hb, hline⟩ := List.mem_flatMap.mp hline
            exact newline_notMem_bucketLines (printable_of_mem hb).2.1
              (fun name hname =>
                (newline_notMem_of_isIdentifier (hnames name (hmembers b hb name hname))).1)
              (fun name hname => hfiles name (hmembers b hb name hname)) line hline
    have hassoc : ∀ above sections back : List Str,
        (above ++ (bucketHeading :: [] :: sections)) ++ back
          = above ++ (bucketHeading :: [] :: (sections ++ back)) :=
      fun above sections back => List.append_assoc _ _ _
    obtain ⟨rest, htext, hrest⟩ := @exists_textLines_eq _ (hierarchySample hierarchyNames) hfront
      (by simp) (fun line hline => (head?_hierarchySample hline).2)
    rw [hassoc, hassoc] at htext
    rw [writeMarkdown, markdownLines_cut, htext]
    refine readSections_report modules hquote (fun line hline => (aboveSections hline).1) ?_
    rw [hrest]
    exact fun line hline => (head?_hierarchySample hline).1

/-- **The outputs agree and lose nothing.**  The map is a partition of the modules into sorted
lists.  In the text of the report the table has a row for each of them, and the counts add up to
the printed number of modules; its sections list the same names.  What `load_category_terms` adds
to the built-in terms is these lists in lower case. -/
theorem inventory_agrees (modules : OrderedDict Str (List Str)) (hierarchyNames : List Str) :
    ∃ buckets allModules terms,
      readBuckets (writeYaml modules (categorized modules)) = some buckets ∧
      readAllModules (writeYaml modules (categorized modules)) = some allModules ∧
      loadCategoryTerms (some (writeYaml modules (categorized modules))) = .ok terms ∧
      (∀ b ∈ buckets, b.modules ≠ [] ∧ b.modules.Pairwise (· < ·)) ∧
      buckets.Pairwise (fun b b' => b.category ≠ b'.category ∧ b.modules.Disjoint b'.modules) ∧
      (buckets.flatMap Bucket.modules).Perm allModules ∧
      allModules = sortedBy id modules.keys ∧
      (∃ rows printed,
        readTable (textLines (writeMarkdown modules (categorized modules) hierarchyNames))
          = some rows ∧
        readModuleCount (textLines (writeMarkdown modules (categorized modules) hierarchyNames))
          = some printed ∧
        rows = buckets.map (fun b => ⟨b.category, description b.category, b.modules.length,
          if b.included then "include".toList else "defer".toList⟩) ∧
        (rows.map TableRow.moduleCount).sum = printed ∧ printed = modules.keys.length) ∧
      ((∀ m ∈ modules.keys, IsIdentifier m) →
        readSections (markdownLines modules (categorized modules) hierarchyNames)
          = buckets.map (fun b => (b.category, b.modules)) ∧
        ((∀ m ∈ modules.keys, ∀ file ∈ (modules.get? m).getD [], '\n' ∉ pathName file) →
          readSections (textLines (writeMarkdown modules (categorized modules) hierarchyNames))
            = buckets.map (fun b => (b.category, b.modules)))) ∧
      (∀ b ∈ buckets, (terms.get? b.category).getD []
        = (builtinTerms.get? b.category).getD [] ++ b.modules.map PyStr.lower) ∧
      ∀ category, (category ∈ terms.keys ↔
          category ∈ builtinTerms.keys ∨ category ∈ buckets.map Bucket.category) ∧
        (category ∉ buckets.map Bucket.category →
          (terms.get? category).getD [] = (builtinTerms.get? category).getD []) := by
  obtain ⟨htable, hcount⟩ := readTable_writeMarkdown modules hierarchyNames
  refine ⟨_, _, _, (readBuckets_writeYaml modules).1, (readBuckets_writeYaml modules).2,
    loadCategoryTerms_writeYaml modules (categorized modules), ?_, ?_, ?_, rfl,
    ⟨_, _, htable, hcount, rfl, ?_, rfl⟩,
    fun hnames => readSections_writeMarkdown hnames hierarchyNames, ?_, fun category => ?_⟩
  · intro b hb
    obtain ⟨category, hcategory, rfl⟩ := List.mem_map.mp hb
    exact ⟨membersOf_ne_nil hcategory, pairwise_membersOf modules category⟩
  · rw [List.pairwise_map]
    exact pairwise_disjoint_membersOf modules
  · rw [List.flatMap_map]
    exact flatMap_membersOf_perm modules
  · rw [List.map_map, List.map_map]
    have hlength := (flatMap_membersOf_perm modules).length_eq
    rw [List.length_flatMap, (sortedBy_perm id modules.keys).length_eq] at hlength
    exact hlength
  · intro b hb
    obtain ⟨category, -, rfl⟩ := List.mem_map.mp hb
    rw [getD_extendedTerms, members_categorized]
    rfl
  · rw [map_category_bucketOf]
    exact ⟨mem_keys_extendedTerms modules category, getD_extendedTerms_of_notMem⟩

end

end Inventory
