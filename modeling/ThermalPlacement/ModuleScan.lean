/-
# Reading module names

`MODULE_RE` and `read_modules` of `scripts/inspect_gemmini_hierarchy.py`.  A source file is
a list of lines, some of which declare a module (`SourceLine`).  The scan finds the
declarations and nothing else (`scanModules_sourceText`), but the name that it records must
end at a word boundary, and `$` is not a word character: `Declaration.recorded` is the
longest front part of the declared name that does.
-/
import ThermalPlacement.Backtracking
import ThermalPlacement.Inventory

open PyText

/-- The letters and digits of `\w`, whose table outside ASCII is not spelled out. -/
class PyWord where
  isWord : Char → Bool
  isWord_ascii : ∀ c, c.toNat < 128 → isWord c = (c.isAlphanum || c == '_')

/-- Word characters that are right on ASCII texts. -/
@[reducible] def asciiWord : PyWord where
  isWord c := c.isAlphanum || c == '_'
  isWord_ascii _ _ := rfl

namespace Inventory

/-! ## The pattern -/

/-- `^` with `re.MULTILINE`. -/
def lineStart (before : Str) : Bool := before.head?.all (· == '\n')

section

variable [PyWord]

/-- `\b` -/
def wordBoundary (before after : Str) : Bool :=
  before.head?.any PyWord.isWord != after.head?.any PyWord.isWord

/-- `([A-Za-z_][A-Za-z0-9_$]*)\b` -/
def nameRe : Pattern Char :=
  .seq (.group 1 (.seq (.one (fun c => IsIdentStart c)) (.many (fun c => IsIdentPart c))))
    (.assert wordBoundary)

/-- `module\s+`, then the name. -/
def keywordRe : Pattern Char :=
  .seq (.lit "module".toList) (.seq (.one isSpace) (.seq (.many isSpace) nameRe))

/-- `MODULE_RE` -/
def moduleRe : Pattern Char :=
  .seq (.assert (fun before _ => lineStart before)) (.seq (.many isSpace) keywordRe)

/-- The names that `MODULE_RE.finditer` captures. -/
def scanModules (text : Str) : List Str :=
  (moduleRe.findAll 0 [] text).filterMap (fun m => m.group? 1)

end

/-! ## Files -/

/-- A file under the RTL directory: its path and what `read_text` returns. -/
structure RtlFile where
  path : Str
  text : Str

/-- `path.name` -/
def pathName (path : Str) : Str := (path.splitOn '/').getLast?.getD []

/-- `path.suffix`: from the last dot of the name, unless the name begins or ends there. -/
def pathSuffix (path : Str) : Str :=
  let name := pathName path
  let stem := name.rdropWhile (· ≠ '.')
  if stem.length ≤ 1 ∨ stem.length = name.length then [] else '.' :: name.drop stem.length

/-- `read_modules`: the files of each module, by name. -/
def readModules [PyWord] (files : List RtlFile) : OrderedDict Str (List Str) :=
  ((sortedBy (fun file => file.path.splitOn '/') files).filter
    (fun file => pathSuffix file.path ∈ [".v".toList, ".sv".toList])).foldl
      (fun modules file => (scanModules file.text).foldl
        (fun modules name => modules.upsert name [] (fun paths => paths ++ [file.path])) modules)
      OrderedDict.empty

/-! ## Lines of a source file -/

/-- A line that declares a module. -/
structure Declaration where
  lead : Str
  gap : Str
  name : Str
  /-- What follows the name on its line. -/
  rest : Str
  lead_space : ∀ c ∈ lead, isSpace c = true
  gap_space : ∀ c ∈ gap, isSpace c = true
  gap_ne_nil : gap ≠ []
  isIdentifier : IsIdentifier name
  /-- The name ends where no character continues it. -/
  rest_head : ∀ c ∈ rest.head?, ¬ IsIdentPart c
  oneLine : '\n' ∉ lead ++ gap ++ rest

namespace Declaration

/-- The line, without its end. -/
def text (d : Declaration) : Str := d.lead ++ ("module".toList ++ (d.gap ++ (d.name ++ d.rest)))

variable [PyWord]

/-- A front part of the name ends at a word boundary. -/
def EndsWord (d : Declaration) (w : Str) : Prop :=
  wordBoundary w.reverse ((d.name ++ d.rest).drop w.length) = true

instance (d : Declaration) : DecidablePred d.EndsWord :=
  fun _ => inferInstanceAs (Decidable (_ = _))

/-- The name that the scan records: the longest front part that ends at a word boundary. -/
def recorded (d : Declaration) : Option Str :=
  d.name.inits.tail.reverse.find? (fun w => d.EndsWord w)

end Declaration

/-- A line of a source file.  Only declarations begin with the word `module`. -/
inductive SourceLine where
  | declaration (d : Declaration)
  | other (text : Str) (oneLine : '\n' ∉ text)
      (notModule : (split text).head? ≠ some "module".toList)

namespace SourceLine

/-- The line, without its end. -/
def text : SourceLine → Str
  | declaration d => d.text
  | other text _ _ => text

/-- The module that the line declares. -/
def declared : SourceLine → Option Str
  | declaration d => some d.name
  | other _ _ _ => none

/-- The name that the scan records for the line. -/
def recorded [PyWord] : SourceLine → Option Str
  | declaration d => d.recorded
  | other _ _ _ => none

end SourceLine

/-- The text of a source file. -/
def sourceText (lines : List SourceLine) : Str := ['\n'].intercalate (lines.map SourceLine.text)

/-- The modules that a source file declares. -/
def declaredNames (lines : List SourceLine) : List Str := lines.filterMap SourceLine.declared

/-! ## Characters of a line -/

/-- No white space begins a name. -/
theorem not_isIdentStart_of_isSpace {c : Char} (hc : isSpace c = true) : ¬ IsIdentStart c := by
  have hle : ∀ d : Char, (d ≤ c ↔ d.toNat ≤ c.toNat) ∧ (c ≤ d ↔ c.toNat ≤ d.toNat) :=
    fun d => ⟨Iff.rfl, Iff.rfl⟩
  have hvalues : 'A'.toNat = 65 ∧ 'Z'.toNat = 90 ∧ 'a'.toNat = 97 ∧ 'z'.toNat = 122 ∧
      '_'.toNat = 95 := by decide
  simp only [isSpace, Bool.or_eq_true, Bool.and_eq_true, decide_eq_true_eq, beq_iff_eq] at hc
  rintro (⟨h, h'⟩ | ⟨h, h'⟩ | rfl)
  · rw [(hle _).1] at h
    rw [(hle _).2] at h'
    omega
  · rw [(hle _).1] at h
    rw [(hle _).2] at h'
    omega
  · omega

theorem lineStart_append_of_notMem {u : Str} (hne : u ≠ []) (hu : '\n' ∉ u) (b : Str) :
    lineStart (u.reverse ++ b) = false := by
  obtain ⟨v, c, rfl⟩ := (List.eq_nil_or_concat' u).resolve_left hne
  have hc : c ≠ '\n' := fun h => hu (by simp [h])
  simp [lineStart, hc]

theorem Declaration.newline_notMem_text (d : Declaration) : '\n' ∉ d.text := by
  have hname : '\n' ∉ d.name := by
    intro h
    obtain ⟨c, s, hcs⟩ := List.exists_cons_of_ne_nil d.isIdentifier.ne_nil
    have hid := d.isIdentifier
    rw [hcs] at hid h
    rcases List.mem_cons.mp h with rfl | h
    · exact absurd hid.1 (by decide)
    · exact absurd (hid.2 _ h) (by decide)
  have hline := d.oneLine
  unfold Declaration.text
  simp only [List.mem_append, not_or] at hline ⊢
  exact ⟨hline.1.1, by decide, hline.1.2, hname, hline.2⟩

/-- What may be captured of a name: its nonempty front parts. -/
theorem prefix_of_mem_tail_inits {α : Type*} {u w : List α} (hw : w ∈ u.inits.tail) :
    w <+: u ∧ w ≠ [] := by
  refine ⟨(List.mem_inits _ _).mp (List.mem_of_mem_tail hw), ?_⟩
  rintro rfl
  cases u with
  | nil => cases hw
  | cons a u =>
      rw [List.inits_cons, List.tail_cons, List.mem_map] at hw
      obtain ⟨v, -, hv⟩ := hw
      cases hv

section

variable [PyWord]

/-! ## The name -/

theorem isWord_newline : PyWord.isWord '\n' = false := PyWord.isWord_ascii '\n' (by decide)

theorem run_nameRe_space (b v : Str) {c : Char} (g : List (ℕ × Str)) (hc : isSpace c = true) :
    nameRe.run ⟨b, c :: v, g⟩ = [] := by
  refine Pattern.run_seq_of_eq_nil ?_ _
  show List.map _ ((Pattern.seq _ _).run _) = []
  rw [Pattern.run_one_seq_of_head?, List.map_nil]
  intro d hd
  obtain rfl : c = d := by simpa using hd
  exact decide_eq_false (not_isIdentStart_of_isSpace hc)

/-- Whether a word ends at a place is decided by the rest of the line, if the line does not
go on with a word character. -/
theorem wordBoundary_append {before after tail : Str}
    (htail : ∀ c ∈ tail.head?, PyWord.isWord c = false) :
    wordBoundary before (after ++ tail) = wordBoundary before after := by
  cases after with
  | cons c after => rfl
  | nil =>
      unfold wordBoundary
      rw [List.nil_append]
      cases tail with
      | nil => rfl
      | cons c tail => simp [htail c (by simp)]

omit [PyWord] in
/-- The ends of the captured text, the last one first: the front parts of the name. -/
theorem run_group_identifier {name v : Str} (hname : IsIdentifier name)
    (hv : ∀ c ∈ v.head?, ¬ IsIdentPart c) (b : Str) :
    (Pattern.group 1 (.seq (.one (fun c => decide (IsIdentStart c)))
        (.many (fun c => decide (IsIdentPart c))))).run ⟨b, name ++ v, []⟩
      = name.inits.tail.reverse.map
          (fun w => ⟨w.reverse ++ b, (name ++ v).drop w.length, [(1, w)]⟩) := by
  obtain ⟨c, s, rfl⟩ := List.exists_cons_of_ne_nil hname.ne_nil
  obtain ⟨hstart, hpart⟩ := hname
  rw [List.inits_cons, List.tail_cons, ← List.map_reverse, List.map_map]
  show List.map _ ((Pattern.seq _ _).run _) = _
  rw [List.cons_append,
    Pattern.run_one_seq (p := fun c => decide (IsIdentStart c)) (decide_eq_true hstart)]
  show List.map _ (Pattern.runMany _ _ _ _) = _
  rw [Pattern.runMany_append (fun e he => decide_eq_true (hpart e he))
    (fun e he => decide_eq_false (hv e he)), List.map_map]
  refine List.map_congr_left (fun w hw => ?_)
  have hw : w.length ≤ s.length := ((List.mem_inits _ _).mp (List.mem_reverse.mp hw)).length_le
  have hbetween := Cursor.between_append b (c :: w) (c :: (s ++ v)) (s.drop w.length ++ v) [] []
  rw [List.reverse_cons, List.append_assoc, List.singleton_append] at hbetween
  simp only [Function.comp_apply, hbetween, List.reverse_cons, List.append_assoc,
    List.singleton_append, List.length_cons, List.drop_succ_cons,
    List.drop_append_of_le_length hw]

/-- Whether a front part of the name ends at a word boundary is seen on the line alone. -/
theorem Declaration.wordBoundary_eq (d : Declaration) {w : Str} (hw : w <+: d.name) (hne : w ≠ [])
    (b : Str) {tail : Str} (htail : ∀ c ∈ tail.head?, PyWord.isWord c = false) :
    wordBoundary (w.reverse ++ b) ((d.name ++ (d.rest ++ tail)).drop w.length)
      = wordBoundary w.reverse ((d.name ++ d.rest).drop w.length) := by
  have hlength : w.length ≤ (d.name ++ d.rest).length :=
    (hw.trans (List.prefix_append _ _)).length_le
  have hbefore : (w.reverse ++ b).head? = w.reverse.head? :=
    List.head?_append_of_ne_nil _ (by simpa using hne)
  rw [← List.append_assoc, List.drop_append_of_le_length hlength, wordBoundary_append htail]
  unfold wordBoundary
  rw [hbefore]

/-- **The name that is captured.** -/
theorem head?_run_nameRe (d : Declaration) (b : Str) {tail : Str}
    (htail : ∀ c ∈ tail.head?, PyWord.isWord c = false ∧ ¬ IsIdentPart c) :
    (nameRe.run ⟨b, d.name ++ (d.rest ++ tail), []⟩).head? = d.recorded.map
      (fun w => ⟨w.reverse ++ b, (d.name ++ (d.rest ++ tail)).drop w.length, [(1, w)]⟩) := by
  have hrest : ∀ c ∈ (d.rest ++ tail).head?, ¬ IsIdentPart c := by
    intro c hc
    cases hd : d.rest with
    | nil =>
        rw [hd] at hc
        exact (htail c hc).2
    | cons e rest =>
        rw [hd] at hc
        exact d.rest_head c (hd ▸ hc)
  unfold nameRe Declaration.recorded
  rw [Pattern.run_seq_assert, run_group_identifier d.isIdentifier hrest, List.head?_filter,
    List.find?_map]
  congr 1
  refine List.find?_congr (fun w hw => ?_)
  obtain ⟨hinit, hne⟩ := prefix_of_mem_tail_inits (List.mem_reverse.mp hw)
  rw [Function.comp_apply, d.wordBoundary_eq hinit hne b (fun c hc => (htail c hc).1)]
  exact Bool.decide_eq_true.symm

/-! ## The keyword -/

theorem run_keywordRe_space (b v : Str) {c : Char} (g : List (ℕ × Str)) (hc : isSpace c = true) :
    keywordRe.run ⟨b, c :: v, g⟩ = [] := by
  refine Pattern.run_seq_of_eq_nil (Pattern.run_lit_of_not_prefix ?_ _ _) _
  rintro ⟨t, ht⟩
  obtain ⟨rfl, -⟩ := List.cons.inj ht
  exact absurd hc (by decide)

/-- The keyword and the white space after it are passed over. -/
theorem run_keywordRe (b : Str) {gap v : Str} (hne : gap ≠ []) (hgap : ∀ c ∈ gap, isSpace c = true)
    (hv : ∀ c ∈ v.head?, isSpace c = false) :
    keywordRe.run ⟨b, "module".toList ++ (gap ++ v), []⟩
      = nameRe.run ⟨("module".toList ++ gap).reverse ++ b, v, []⟩ := by
  obtain ⟨c, gap, rfl⟩ := List.exists_cons_of_ne_nil hne
  obtain ⟨hc, hgap⟩ := List.forall_mem_cons.mp hgap
  unfold keywordRe
  rw [Pattern.run_lit_seq, List.cons_append, Pattern.run_one_seq hc,
    Pattern.run_many_seq (fun b c v g hc => run_nameRe_space b v g hc) hgap hv]
  simp

/-- A text whose first word is not `module` is not matched. -/
theorem run_keywordRe_eq_nil (b : Str) {v : Str}
    (hv : v.takeWhile (fun c => !isSpace c) ≠ "module".toList) :
    keywordRe.run ⟨b, v, []⟩ = [] := by
  by_cases hpre : "module".toList <+: v
  · obtain ⟨v, rfl⟩ := hpre
    unfold keywordRe
    rw [Pattern.run_lit_seq]
    refine Pattern.run_one_seq_of_head? (fun c hc => ?_) _ _ _
    cases v with
    | nil => cases hc
    | cons e v =>
        obtain rfl : e = c := by simpa using hc
        -- white space here would end the word `module`
        rw [← Bool.not_eq_true]
        intro he
        refine hv ?_
        have hword : ∀ c ∈ "module".toList, (!isSpace c) = true := by decide
        rw [List.takeWhile_append_of_pos hword, List.takeWhile_cons_of_neg (by simp [he]),
          List.append_nil]
  · exact Pattern.run_seq_of_eq_nil (Pattern.run_lit_of_not_prefix hpre _ _) _

/-! ## The start of a line -/

theorem run_moduleRe_of_not_lineStart {b : Str} (hb : lineStart b = false) (v : Str) :
    moduleRe.run ⟨b, v, []⟩ = [] := by
  refine Pattern.run_seq_of_eq_nil ?_ _
  rw [Pattern.run_assert, if_neg (by simp [hb])]

/-- White space at the start of a line is passed over, with the blank lines in it. -/
theorem run_moduleRe {b u v : Str} (hb : lineStart b = true) (hu : ∀ c ∈ u, isSpace c = true)
    (hv : ∀ c ∈ v.head?, isSpace c = false) :
    moduleRe.run ⟨b, u ++ v, []⟩ = keywordRe.run ⟨u.reverse ++ b, v, []⟩ := by
  have hassert : (Pattern.assert (fun before _ => lineStart before)).run ⟨b, u ++ v, []⟩
      = [⟨b, u ++ v, []⟩] := if_pos hb
  unfold moduleRe
  rw [Pattern.run_seq_of_eq_singleton hassert,
    Pattern.run_many_seq (fun b c v g hc => run_keywordRe_space b v g hc) hu hv]

/-! ## Lines -/

/-- `finditer` from a place, and the names captured. -/
def scanFrom (before after : Str) : List Str :=
  (moduleRe.findAll 0 before after).filterMap (fun m => m.group? 1)

/-- A stretch within a line holds no further match. -/
theorem findAll_moduleRe_of_eq_nil {b u v : Str} (hrun : moduleRe.run ⟨b, u ++ v, []⟩ = [])
    (hu : '\n' ∉ u.dropLast) :
    moduleRe.findAll 0 b (u ++ v) = moduleRe.findAll 0 (u.reverse ++ b) v := by
  refine Pattern.findAll_of_forall_eq_nil (fun u₁ u₂ huu hne => ?_)
  cases u₁ with
  | nil =>
      obtain rfl : u = u₂ := huu
      exact hrun
  | cons c u₁ =>
      refine run_moduleRe_of_not_lineStart
        (lineStart_append_of_notMem (List.cons_ne_nil c u₁) (fun hmem => hu ?_) b) _
      rw [huu, List.dropLast_append_of_ne_nil hne]
      exact List.mem_append_left _ hmem

/-- A match takes at least the keyword. -/
theorem length_lt_of_mem_run_moduleRe {b v : Str} {m : Cursor Char}
    (h : m ∈ moduleRe.run ⟨b, v, []⟩) : m.after.length < v.length := by
  by_cases hb : lineStart b = true
  · have hhead : ∀ c ∈ (v.dropWhile isSpace).head?, isSpace c = false := by
      intro c hc
      have := List.head?_dropWhile_not isSpace v
      rw [hc] at this
      simpa using this
    rw [← List.takeWhile_append_dropWhile (p := isSpace) (l := v),
      run_moduleRe hb (fun c hc => List.mem_takeWhile_imp hc) hhead] at h
    have hle : (v.dropWhile isSpace).length ≤ v.length := (List.dropWhile_suffix _).length_le
    by_cases hpre : "module".toList <+: v.dropWhile isSpace
    · obtain ⟨rest, hrest⟩ := hpre
      rw [← hrest] at h hle
      unfold keywordRe at h
      rw [Pattern.run_lit_seq] at h
      obtain ⟨u, hafter, -⟩ := Pattern.exists_of_mem_run h
      have hlength := congrArg List.length hafter
      rw [List.length_append] at hlength hle
      have hkeyword : "module".toList.length = 6 := rfl
      dsimp only at hlength
      omega
    · have hnil :
          keywordRe.run ⟨(v.takeWhile isSpace).reverse ++ b, v.dropWhile isSpace, []⟩ = [] :=
        Pattern.run_seq_of_eq_nil (Pattern.run_lit_of_not_prefix hpre _ _) _
      rw [hnil] at h
      cases h
  · rw [run_moduleRe_of_not_lineStart (by simpa using hb)] at h
    cases h

theorem scanFrom_nil (b : Str) : scanFrom b [] = [] := by
  have hrun : moduleRe.run ⟨b, [], []⟩ = [] := by
    by_cases hb : lineStart b = true
    · exact (run_moduleRe (u := []) hb (by simp) (by simp)).trans
        (run_keywordRe_eq_nil b (by decide))
    · exact run_moduleRe_of_not_lineStart (by simpa using hb) []
  unfold scanFrom
  rw [Pattern.findAll, hrun]
  rfl

/-- From two line starts with only white space between them the matcher gets to the same
place. -/
theorem run_moduleRe_blank {b u : Str} (hb : lineStart b = true) (hu : ∀ c ∈ u, isSpace c = true)
    (hend : lineStart (u.reverse ++ b) = true) (v : Str) :
    moduleRe.run ⟨b, u ++ v, []⟩ = moduleRe.run ⟨u.reverse ++ b, v, []⟩ := by
  have hspace : ∀ c ∈ v.takeWhile isSpace, isSpace c = true :=
    fun c hc => List.mem_takeWhile_imp hc
  have hhead : ∀ c ∈ (v.dropWhile isSpace).head?, isSpace c = false :=
    fun c hc => eq_false_of_mem_head?_dropWhile hc
  have hall : ∀ c ∈ u ++ v.takeWhile isSpace, isSpace c = true := by
    intro c hc
    rcases List.mem_append.mp hc with hc | hc
    · exact hu c hc
    · exact hspace c hc
  conv_lhs => rw [← List.takeWhile_append_dropWhile (p := isSpace) (l := v), ← List.append_assoc]
  conv_rhs => rw [← List.takeWhile_append_dropWhile (p := isSpace) (l := v)]
  rw [run_moduleRe hb hall hhead, run_moduleRe hend hspace hhead]
  simp

/-- A blank line is passed over, and the next lines are read as if it were not there. -/
theorem scanFrom_blank {b u v : Str} (hb : lineStart b = true) (hu : ∀ c ∈ u, isSpace c = true)
    (hend : lineStart (u.reverse ++ b) = true) :
    scanFrom b (u ++ v) = scanFrom (u.reverse ++ b) v := by
  have hhere := run_moduleRe_blank hb hu hend v
  unfold scanFrom
  cases hmatch : (moduleRe.run ⟨u.reverse ++ b, v, []⟩).head? with
  | none =>
      have hnil := List.head?_eq_none_iff.mp hmatch
      rw [Pattern.findAll_of_forall_eq_nil]
      intro u₁ u₂ huu _
      by_cases hstart : lineStart (u₁.reverse ++ b) = true
      · have hu₂ : ∀ c ∈ u₂, isSpace c = true :=
          fun c hc => hu c (huu ▸ List.mem_append_right u₁ hc)
        have heq : u₂.reverse ++ (u₁.reverse ++ b) = u.reverse ++ b := by
          rw [huu, List.reverse_append, List.append_assoc]
        rw [run_moduleRe_blank hstart hu₂ (heq ▸ hend), heq, hnil]
      · exact run_moduleRe_of_not_lineStart (by simpa using hstart) _
  | some m =>
      obtain ⟨before, after, g⟩ := m
      obtain ⟨w, hafter, hbefore⟩ := Pattern.exists_of_mem_run (List.mem_of_mem_head? hmatch)
      dsimp only at hafter hbefore
      subst hafter hbefore
      have hw : w ≠ [] := by
        rintro rfl
        exact absurd (length_lt_of_mem_run_moduleRe (List.mem_of_mem_head? hmatch)) (lt_irrefl _)
      have hlong : (moduleRe.run ⟨b, (u ++ w) ++ after, []⟩).head?
          = some ⟨(u ++ w).reverse ++ b, after, g⟩ := by
        rw [List.append_assoc, hhere, hmatch, List.reverse_append, List.append_assoc]
      rw [Pattern.findAll_of_match hw hmatch, ← List.append_assoc,
        Pattern.findAll_of_match (by simp [hw]) hlong, List.reverse_append, List.append_assoc]

/-- What follows a line: its end and further lines, or nothing. -/
def LineEnd (e v : Str) : Prop := e = ['\n'] ∨ e = [] ∧ v = []

omit [PyWord] in
theorem LineEnd.notMem_dropLast {e v : Str} (he : LineEnd e v) {t : Str} (ht : '\n' ∉ t) :
    '\n' ∉ (t ++ e).dropLast := by
  rcases he with rfl | ⟨rfl, -⟩
  · rw [List.dropLast_concat]
    exact ht
  · rw [List.append_nil]
    exact fun h => ht (List.mem_of_mem_dropLast h)

omit [PyWord] in
/-- The first word of a line that has one ends before the end of the line. -/
theorem LineEnd.takeWhile_append {e v : Str} (he : LineEnd e v) (t : Str) :
    (t ++ (e ++ v)).takeWhile (fun c => !isSpace c) = t.takeWhile (fun c => !isSpace c) := by
  have htail : (e ++ v).takeWhile (fun c => !isSpace c) = [] := by
    rcases he with rfl | ⟨rfl, rfl⟩
    · exact List.takeWhile_cons_of_neg (by decide)
    · rfl
  rw [List.takeWhile_append]
  split_ifs with hall
  · rw [htail, List.append_nil]
    exact ((List.takeWhile_prefix _).eq_of_length hall).symm
  · rfl

/-- A line that does not begin with the word `module` is passed over. -/
theorem scanFrom_other {text : Str} (hline : '\n' ∉ text)
    (hmodule : (split text).head? ≠ some "module".toList) {b e v : Str} (hb : lineStart b = true)
    (he : LineEnd e v) :
    scanFrom b (text ++ (e ++ v)) = scanFrom ((text ++ e).reverse ++ b) v := by
  by_cases hblank : e = ['\n'] ∧ ∀ c ∈ text, isSpace c = true
  · obtain ⟨rfl, hblank⟩ := hblank
    rw [← List.append_assoc, scanFrom_blank hb]
    · intro c hc
      rcases List.mem_append.mp hc with hc | hc
      · exact hblank c hc
      · rw [List.mem_singleton.mp hc]
        rfl
    · simp [lineStart]
  · -- the first word of the line is not the keyword
    have hword : ∀ rest, text.dropWhile isSpace = rest →
        (∀ c ∈ (rest ++ (e ++ v)).head?, isSpace c = false) ∧
          (rest ++ (e ++ v)).takeWhile (fun c => !isSpace c) ≠ "module".toList := by
      intro rest hrest
      cases rest with
      | nil =>
          have htext := List.dropWhile_eq_nil_iff.mp hrest
          rcases he with rfl | ⟨rfl, rfl⟩
          · exact absurd ⟨rfl, htext⟩ hblank
          · exact ⟨by simp, by decide⟩
      | cons c rest =>
          have hc : isSpace c = false := by
            have hhead : c ∈ (text.dropWhile isSpace).head? := by rw [hrest]; rfl
            exact eq_false_of_mem_head?_dropWhile hhead
          refine ⟨fun d hd => ?_, fun h => hmodule ?_⟩
          · obtain rfl : c = d := by simpa using hd
            exact hc
          · rw [← split_dropWhile, hrest, split_takeWhile_append c rest hc,
              ← he.takeWhile_append, h]
            rfl
    obtain ⟨hhead, hfirst⟩ := hword _ rfl
    have hrun : moduleRe.run ⟨b, (text ++ e) ++ v, []⟩ = [] := by
      rw [List.append_assoc, ← List.takeWhile_append_dropWhile (p := isSpace) (l := text),
        List.append_assoc, run_moduleRe hb (fun c hc => List.mem_takeWhile_imp hc) hhead]
      exact run_keywordRe_eq_nil _ hfirst
    unfold scanFrom
    rw [← List.append_assoc, findAll_moduleRe_of_eq_nil hrun (he.notMem_dropLast hline)]

/-- What is recorded is a front part of the name. -/
theorem Declaration.exists_of_recorded {d : Declaration} {w : Str} (h : d.recorded = some w) :
    w ≠ [] ∧ ∃ s, d.name = w ++ s := by
  have hmem : w ∈ d.name.inits.tail := List.mem_reverse.mp (List.mem_of_find?_eq_some h)
  obtain ⟨⟨s, hs⟩, hne⟩ := prefix_of_mem_tail_inits hmem
  exact ⟨hne, s, hs.symm⟩

/-- The first match on the line of a declaration captures the recorded name. -/
theorem head?_run_moduleRe (d : Declaration) {b e v : Str} (hb : lineStart b = true)
    (he : LineEnd e v) :
    (moduleRe.run ⟨b, d.text ++ (e ++ v), []⟩).head? = d.recorded.map
      (fun w => ⟨w.reverse ++ (("module".toList ++ d.gap).reverse ++ (d.lead.reverse ++ b)),
        (d.name ++ (d.rest ++ (e ++ v))).drop w.length, [(1, w)]⟩) := by
  have htail : ∀ c ∈ (e ++ v).head?, PyWord.isWord c = false ∧ ¬ IsIdentPart c := by
    rcases he with rfl | ⟨rfl, rfl⟩
    · intro c hc
      obtain rfl : '\n' = c := by simpa using hc
      exact ⟨isWord_newline, by decide⟩
    · simp
  have hnameHead : ∀ c ∈ (d.name ++ (d.rest ++ (e ++ v))).head?, isSpace c = false := by
    obtain ⟨c, s, hcs⟩ := List.exists_cons_of_ne_nil d.isIdentifier.ne_nil
    have hid := d.isIdentifier
    rw [hcs] at hid ⊢
    intro a ha
    obtain rfl : c = a := by simpa using ha
    rw [← Bool.not_eq_true]
    exact fun hspace => not_isIdentStart_of_isSpace hspace hid.1
  have htext : d.text ++ (e ++ v)
      = d.lead ++ ("module".toList ++ (d.gap ++ (d.name ++ (d.rest ++ (e ++ v))))) := by
    simp [Declaration.text]
  rw [htext, run_moduleRe hb d.lead_space (by simp [isSpace]),
    run_keywordRe (d.lead.reverse ++ b) d.gap_ne_nil d.gap_space hnameHead]
  exact head?_run_nameRe d _ htail

/-- **A declaration gives its recorded name.** -/
theorem scanFrom_declaration (d : Declaration) {b e v : Str} (hb : lineStart b = true)
    (he : LineEnd e v) :
    scanFrom b (d.text ++ (e ++ v))
      = d.recorded.toList ++ scanFrom ((d.text ++ e).reverse ++ b) v := by
  have hmatch := head?_run_moduleRe d hb he
  have hnewline := d.newline_notMem_text
  unfold scanFrom
  cases hrec : d.recorded with
  | none =>
      rw [hrec, Option.map_none, List.head?_eq_none_iff, ← List.append_assoc] at hmatch
      rw [← List.append_assoc, findAll_moduleRe_of_eq_nil hmatch (he.notMem_dropLast hnewline)]
      rfl
  | some w =>
      obtain ⟨hw, s, hs⟩ := Declaration.exists_of_recorded hrec
      -- the match ends after `w`; the rest of the line holds no other
      set u := d.lead ++ ("module".toList ++ (d.gap ++ w)) with hu
      have hut : d.text = u ++ (s ++ d.rest) := by
        rw [hu]
        simp [Declaration.text, hs]
      have huv : d.text ++ (e ++ v) = u ++ (s ++ d.rest ++ e ++ v) := by
        rw [hut]
        simp
      have hune : u ≠ [] := by simp [hu]
      have hhead : (moduleRe.run ⟨b, u ++ (s ++ d.rest ++ e ++ v), []⟩).head?
          = some ⟨u.reverse ++ b, s ++ d.rest ++ e ++ v, [(1, w)]⟩ := by
        rw [← huv, hmatch, hrec, Option.map_some, hs]
        simp [hu]
      rw [hut, List.mem_append, not_or] at hnewline
      rw [huv, Pattern.findAll_of_match hune hhead, findAll_moduleRe_of_eq_nil
        (run_moduleRe_of_not_lineStart (lineStart_append_of_notMem hune hnewline.1 b) _)
        (he.notMem_dropLast hnewline.2), hut]
      simp [Cursor.group?]

/-! ## The scan -/

/-- One line of a source file. -/
theorem scanFrom_line (l : SourceLine) {b e v : Str} (hb : lineStart b = true)
    (he : LineEnd e v) :
    scanFrom b (l.text ++ (e ++ v))
      = l.recorded.toList ++ scanFrom ((l.text ++ e).reverse ++ b) v := by
  cases l with
  | declaration d => exact scanFrom_declaration d hb he
  | other text oneLine notModule => exact scanFrom_other oneLine notModule hb he

theorem scanFrom_sourceText (lines : List SourceLine) {b : Str} (hb : lineStart b = true) :
    scanFrom b (sourceText lines) = lines.filterMap SourceLine.recorded := by
  induction lines generalizing b with
  | nil => exact scanFrom_nil b
  | cons l lines ih =>
      cases lines with
      | nil =>
          have h := scanFrom_line l (e := []) (v := []) hb (Or.inr ⟨rfl, rfl⟩)
          rw [scanFrom_nil, List.append_nil, List.append_nil] at h
          show scanFrom b (['\n'].intercalate [l.text]) = _
          rw [List.intercalate_singleton, h]
          cases hrec : l.recorded with
          | none => simp [hrec]
          | some w => simp [hrec]
      | cons l' lines =>
          have htext : sourceText (l :: l' :: lines)
              = l.text ++ (['\n'] ++ sourceText (l' :: lines)) := by
            unfold sourceText
            rw [List.map_cons, List.map_cons, List.intercalate_cons_cons, List.append_assoc]
          rw [htext, scanFrom_line l hb (Or.inl rfl), ih (by simp [lineStart])]
          cases hrec : l.recorded with
          | none => simp [hrec]
          | some w => simp [hrec]

/-- **What the scan records**: for every declaration, the longest front part of its name
that ends at a word boundary. -/
theorem scanModules_sourceText (lines : List SourceLine) :
    scanModules (sourceText lines) = lines.filterMap SourceLine.recorded :=
  scanFrom_sourceText lines rfl

end

end Inventory
