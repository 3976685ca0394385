/-
# The clock filter

`clock_re` in `write_outputs` of `scripts/extract_vcd_activity.py`, and what it says about
the paths that the reader assembles.  The pattern treats `.` and `_` alike, so it looks for a
clock word among the fields of the whole path (`clockSearch_iff_hasClockField`): in the
variable's own name, but also in the names of the scopes around it (`clockSearch_fullPath`).
A bit range is glued to the name and hides its last field (`hasClockField_append_range`).

`clock_filter` : what is dropped, and for which variables that is the verdict of the own name.
-/
import ThermalPlacement.Backtracking
import ThermalPlacement.Outputs
import ThermalPlacement.VcdSyntax

open PyText Vcd

namespace Vcd

/-! ## The names in a dump -/

/-- The name of a scope is one of the words of its line. -/
theorem mem_split_of_headerCommand_scope {line name : Str}
    (h : headerCommand line = .ok (.scope name)) : ∃ w ∈ split line, name = cleanName w := by
  unfold headerCommand at h
  split_ifs at h
  · split at h
    · rename_i w _ hsplit
      refine ⟨w, by rw [hsplit]; simp, ?_⟩
      injection h with h
      injection h with h
      exact h.symm
    · cases h
  · cases h
  · split at h
    · split_ifs at h
      · split at h <;> cases h
      · cases h
    · cases h
  · cases h
  · cases h

/-- The name of a variable is what stands between its code and the last word of its line. -/
theorem name_of_headerCommand_var {line code name : Str} {width : ℤ}
    (h : headerCommand line = .ok (.var width code name)) :
    name = cleanName ((split line).drop 4).dropLast.flatten := by
  unfold headerCommand at h
  split_ifs at h
  · split at h <;> cases h
  · cases h
  · split at h
    · rename_i hsplit
      split_ifs at h
      · split at h
        · rw [hsplit]
          injection h with h
          injection h with _ _ h
          exact h.symm
        · cases h
      · cases h
    · cases h
  · cases h
  · cases h

theorem noSpace_cleanName {w : Str} (h : ∀ c ∈ w, isSpace c = false) :
    ∀ c ∈ cleanName w, isSpace c = false := fun c hc => h c (List.mem_of_mem_filter hc)

/-- The name of a variable holds no white space. -/
theorem noSpace_of_headerCommand_var {line code name : Str} {width : ℤ}
    (h : headerCommand line = .ok (.var width code name)) : ∀ c ∈ name, isSpace c = false := by
  rw [name_of_headerCommand_var h]
  refine noSpace_cleanName (fun c hc => ?_)
  obtain ⟨w, hw, hc⟩ := List.mem_flatten.mp hc
  exact (isWord_of_mem_split (List.mem_of_mem_drop (List.mem_of_mem_dropLast hw))).2 c hc

/-- The names of the open scopes hold no white space. -/
theorem noSpace_scopes {s : Reader} {lines : List Str}
    (hread : Reader.init.readLines lines = .ok s) :
    ∀ scope ∈ s.scopes, ∀ c ∈ scope, isSpace c = false := by
  refine Reader.readLines_induction (P := fun s => ∀ scope ∈ s.scopes, ∀ c ∈ scope,
    isSpace c = false) (fun s s' line hs hline => ?_) (by simp [Reader.init]) hread
  obtain ⟨c, rfl, hc⟩ := Reader.exists_exec_of_readLine hline
  cases c with
  | scope name =>
      intro scope hscope
      rcases List.mem_append.mp hscope with hscope | hscope
      · exact hs scope hscope
      · rw [List.mem_singleton.mp hscope]
        obtain ⟨w, hw, rfl⟩ := mem_split_of_headerCommand_scope (hc.resolve_right id)
        exact noSpace_cleanName (isWord_of_mem_split hw).2
  | upscope => exact fun scope hscope => hs scope (List.mem_of_mem_dropLast hscope)
  | change v code =>
      rw [Reader.exec_change]
      exact hs
  | var width code name => exact hs
  | enddefinitions => exact hs
  | time t => exact hs
  | skip => exact hs

/-- A signal keeps the path of its declaration. -/
theorem path_of_readLines {s s' : Reader} {lines : List Str} {code path : Str}
    (hread : s.readLines lines = .ok s')
    (hpath : (s.signals.get? code).map Signal.path = some path) :
    (s'.signals.get? code).map Signal.path = some path := by
  refine Reader.readLines_induction (P := fun s => (s.signals.get? code).map Signal.path
    = some path) (fun s s' line hs hline => ?_) hpath hread
  obtain ⟨c, rfl, -⟩ := Reader.exists_exec_of_readLine hline
  cases c with
  | var width code' name =>
      show ((s.signals.setdefault code' _).get? code).map Signal.path = some path
      obtain ⟨signal, hsignal, hpath⟩ := Option.map_eq_some_iff.mp hs
      rw [OrderedDict.get?_setdefault, hsignal]
      exact congrArg some hpath
  | change v code' =>
      rw [Reader.exec_change]
      show ((s.signals.modify code' _).get? code).map Signal.path = some path
      rw [OrderedDict.get?_modify]
      split_ifs
      · rw [Option.map_map, ← hs]
        congr 1
        funext signal
        exact Signal.path_record signal v
      · exact hs
  | scope name => exact hs
  | upscope => exact hs
  | enddefinitions => exact hs
  | time t => exact hs
  | skip => exact hs

end Vcd

namespace Activity

/-! ## The pattern -/

/-- `[._]` -/
def isSeparator (c : Char) : Bool := c == '.' || c == '_'

/-- The words of the pattern. -/
def clockWords : List Str := ["clock", "clk", "reset"].map String.toList

/-- `(clock|clk|reset)`, ignoring case -/
def clockWordRe : Pattern Char :=
  .alt (.foldedWord foldCase "clock".toList)
    (.alt (.foldedWord foldCase "clk".toList) (.foldedWord foldCase "reset".toList))

/-- `([._]|$)` -/
def fieldEndRe : Pattern Char :=
  .alt (.one isSeparator) (.assert (fun _ after => after = [] || after = ['\n']))

/-- `clock_re` -/
def clockRe : Pattern Char :=
  .seq (.group 1 (.alt (.assert (fun before _ => before = [])) (.one isSeparator)))
    (.seq (.group 2 clockWordRe) (.group 3 fieldEndRe))

theorem run_fieldEndRe (c : Cursor Char) : fieldEndRe.run c ≠ [] ↔ endsField c.after = true := by
  obtain ⟨b, v, g⟩ := c
  rw [fieldEndRe, Pattern.run, Pattern.run_assert]
  cases v with
  | nil => simp [Pattern.run, endsField]
  | cons c v =>
      rw [Pattern.run_one_cons]
      by_cases hline : c = '\n' ∧ v = []
      · obtain ⟨rfl, rfl⟩ := hline
        simp [endsField]
      · have hends : endsField (c :: v) = isSeparator c := by
          unfold endsField
          split <;> simp_all [isSeparator]
        rw [hends]
        cases hc : isSeparator c <;> simp [hline]

/-- Where a word of the clock pattern ends. -/
theorem exists_mem_run_clockWordRe (P : Str → Prop) (b v : Str) (g : List (ℕ × Str)) :
    (∃ d ∈ clockWordRe.run ⟨b, v, g⟩, P d.after) ↔
      ∃ word ∈ clockWords, (v.take word.length).map foldCase = word ∧ P (v.drop word.length) := by
  have hword : ∀ word : Str,
      (∃ d ∈ (Pattern.foldedWord foldCase word).run ⟨b, v, g⟩, P d.after) ↔
        (v.take word.length).map foldCase = word ∧ P (v.drop word.length) := by
    intro word
    rw [Pattern.run_foldedWord]
    split_ifs with h
    · simp [h]
    · exact ⟨fun ⟨_, hd, _⟩ => absurd hd List.not_mem_nil, fun h' => absurd h'.1 h⟩
  simp only [clockWordRe, clockWords, Pattern.run, List.mem_append, or_and_right, exists_or, hword,
    List.mem_map, List.mem_cons, List.not_mem_nil, or_false]
  simp

/-- A word and the end of its field match here. -/
theorem run_clockWordRe (c : Cursor Char) :
    (Pattern.seq (.group 2 clockWordRe) (.group 3 fieldEndRe)).run c ≠ [] ↔
      matchesClock c.after = true := by
  obtain ⟨b, v, g⟩ := c
  have hends : ∀ d : Cursor Char,
      (Pattern.group 3 fieldEndRe).run d ≠ [] ↔ endsField d.after = true := by
    intro d
    rw [Pattern.run, ne_eq, List.map_eq_nil_iff]
    exact run_fieldEndRe d
  rw [Pattern.run_seq_ne_nil_iff]
  simp only [hends]
  rw [Pattern.exists_mem_run_group 2 clockWordRe ⟨b, v, g⟩ (fun rest => endsField rest = true),
    exists_mem_run_clockWordRe (fun rest => endsField rest = true)]
  unfold matchesClock
  simp [clockWords]

/-- Where the pattern matches: at the beginning, or after a separator. -/
theorem run_clockRe (b v : Str) :
    clockRe.run ⟨b, v, []⟩ ≠ [] ↔ (b = [] ∧ matchesClock v = true) ∨
      ∃ c w, v = c :: w ∧ isSeparator c = true ∧ matchesClock w = true := by
  rw [clockRe, Pattern.run_seq_ne_nil_iff]
  simp only [run_clockWordRe]
  rw [Pattern.exists_mem_run_group 1 _ ⟨b, v, []⟩ (fun rest => matchesClock rest = true),
    Pattern.run, Pattern.run_assert]
  cases v with
  | nil =>
      cases b with
      | nil => simp [Pattern.run]
      | cons e b => simp [Pattern.run]
  | cons c v =>
      rw [Pattern.run_one_cons]
      cases b with
      | nil => cases hc : isSeparator c <;> simp [hc]
      | cons e b => cases hc : isSeparator c <;> simp [hc]

/-- `clockSearch` looks behind every separator. -/
theorem clockAfterSeparator_iff (path : Str) :
    clockAfterSeparator path = true ↔
      ∃ u c w, path = u ++ c :: w ∧ isSeparator c = true ∧ matchesClock w = true := by
  induction path with
  | nil => simp [clockAfterSeparator]
  | cons c path ih =>
      rw [clockAfterSeparator, Bool.or_eq_true, Bool.and_eq_true, ih]
      constructor
      · rintro (⟨hc, hmatch⟩ | ⟨u, e, w, rfl, he, hmatch⟩)
        · exact ⟨[], c, path, rfl, hc, hmatch⟩
        · exact ⟨c :: u, e, w, rfl, he, hmatch⟩
      · rintro ⟨u, e, w, hpath, he, hmatch⟩
        cases u with
        | nil =>
            obtain ⟨rfl, rfl⟩ := List.cons.inj hpath
            exact Or.inl ⟨he, hmatch⟩
        | cons a u =>
            obtain ⟨rfl, rfl⟩ := List.cons.inj hpath
            exact Or.inr ⟨u, e, w, rfl, he, hmatch⟩

/-- **The pattern and its search.**  What `search` finds is what `clockSearch` tests. -/
theorem search_clockRe (path : Str) : clockRe.search [] path = clockSearch path := by
  refine Bool.eq_iff_iff.mpr ?_
  rw [Pattern.search_iff, clockSearch, Bool.or_eq_true, clockAfterSeparator_iff]
  constructor
  · rintro ⟨u, v, rfl, h⟩
    rcases (run_clockRe _ _).mp h with ⟨hu, hmatch⟩ | ⟨c, w, rfl, hc, hmatch⟩
    · obtain rfl : u = [] := by simpa using hu
      exact Or.inl hmatch
    · exact Or.inr ⟨u, c, w, rfl, hc, hmatch⟩
  · rintro (hmatch | ⟨u, c, w, rfl, hc, hmatch⟩)
    · exact ⟨[], path, rfl, (run_clockRe _ _).mpr (Or.inl ⟨rfl, hmatch⟩)⟩
    · exact ⟨u, c :: w, rfl, (run_clockRe _ _).mpr (Or.inr ⟨c, w, rfl, hc, hmatch⟩)⟩

/-! ## Fields -/

/-- One of the fields of a path is a clock word, ignoring case. -/
def HasClockField (path : Str) : Prop :=
  ∃ field ∈ path.splitOnP isSeparator, field.map foldCase ∈ clockWords

instance (path : Str) : Decidable (HasClockField path) :=
  inferInstanceAs (Decidable (∃ field ∈ path.splitOnP isSeparator, _))

/-- A text without line ends ends its field at a separator only. -/
theorem endsField_iff {s : Str} (hline : '\n' ∉ s) :
    endsField s = true ↔ ∀ c ∈ s.head?, isSeparator c = true := by
  unfold endsField
  split
  · simp
  · simp at hline
  · simp [isSeparator]

/-- A clock word holds no separator. -/
theorem isSeparator_of_foldCase_mem {word : Str} (hword : word ∈ clockWords) {c : Char}
    (hc : foldCase c ∈ word) : isSeparator c = false := by
  rw [Bool.eq_false_iff]
  intro hsep
  rcases (Bool.or_eq_true _ _).mp hsep with h | h
  · obtain rfl := eq_of_beq h
    revert hc
    revert word
    decide
  · obtain rfl := eq_of_beq h
    revert hc
    revert word
    decide

/-- **The pattern looks at one field**: the text up to the next separator. -/
theorem matchesClock_append {field rest : Str} (hfield : ∀ c ∈ field, isSeparator c = false)
    (hrest : ∀ c ∈ rest.head?, isSeparator c = true) (hline : '\n' ∉ field ++ rest) :
    matchesClock (field ++ rest) = true ↔ field.map foldCase ∈ clockWords := by
  have hiff : matchesClock (field ++ rest) = true ↔ ∃ word ∈ clockWords,
      ((field ++ rest).take word.length).map foldCase = word ∧
        endsField ((field ++ rest).drop word.length) = true := by
    unfold matchesClock
    simp [clockWords]
  rw [hiff]
  constructor
  · rintro ⟨word, hword, htake, hends⟩
    have hdrop : '\n' ∉ (field ++ rest).drop word.length :=
      fun h => hline (List.mem_of_mem_drop h)
    rw [endsField_iff hdrop] at hends
    -- the word can end neither inside the field nor behind it
    rcases lt_trichotomy word.length field.length with hlt | heq | hgt
    · have hmem : field[word.length] ∈ ((field ++ rest).drop word.length).head? := by
        rw [List.head?_drop, List.getElem?_append_left hlt, List.getElem?_eq_getElem hlt]
        exact rfl
      exact absurd (hends _ hmem) (by simp [hfield _ (List.getElem_mem hlt)])
    · rw [List.take_left' heq.symm] at htake
      rwa [htake]
    · cases rest with
      | nil =>
          rw [List.append_nil, List.take_of_length_le hgt.le] at htake
          rwa [htake]
      | cons c rest =>
          have hc : foldCase c ∈ word := by
            rw [← htake, List.take_append, List.map_append]
            refine List.mem_append_right _ (List.mem_map_of_mem ?_)
            rw [show word.length - field.length = word.length - field.length - 1 + 1 from by omega,
              List.take_succ_cons]
            exact List.mem_cons_self
          have hsep := hrest c rfl
          rw [isSeparator_of_foldCase_mem hword hc] at hsep
          cases hsep
  · intro hmem
    refine ⟨_, hmem, ?_, ?_⟩
    · rw [List.length_map, List.take_left]
    · rw [List.length_map, List.drop_left, endsField_iff]
      · exact hrest
      · exact fun h => hline (List.mem_append_right _ h)

/-- The search passes over the rest of a field. -/
theorem clockAfterSeparator_append {field : Str} (hfield : ∀ c ∈ field, isSeparator c = false)
    (t : Str) : clockAfterSeparator (field ++ t) = clockAfterSeparator t := by
  induction field with
  | nil => rfl
  | cons c field ih =>
      obtain ⟨hc, hfield⟩ := List.forall_mem_cons.mp hfield
      rw [List.cons_append, clockAfterSeparator, ih hfield]
      show ((isSeparator c && _) || _) = _
      rw [hc, Bool.false_and, Bool.false_or]

/-- After a separator the search begins again. -/
theorem clockAfterSeparator_cons {c : Char} (hc : isSeparator c = true) (t : Str) :
    clockAfterSeparator (c :: t) = clockSearch t := by
  rw [clockAfterSeparator, clockSearch]
  show ((isSeparator c && _) || _) = _
  rw [hc, Bool.true_and]

/-- **The clock filter looks at the fields of the path**, between `.` and `_`. -/
theorem clockSearch_iff_hasClockField {path : Str} (hline : '\n' ∉ path) :
    clockSearch path = true ↔ HasClockField path := by
  induction hn : path.length using Nat.strongRecOn generalizing path with
  | ind n ih =>
      obtain ⟨field, rest, hfield, hrest, rfl⟩ : ∃ field rest,
          (∀ c ∈ field, isSeparator c = false) ∧ (∀ c ∈ rest.head?, isSeparator c = true) ∧
            path = field ++ rest := by
        refine ⟨path.takeWhile (fun c => !isSeparator c), path.dropWhile (fun c => !isSeparator c),
          fun c hc => ?_, fun c hc => ?_, (List.takeWhile_append_dropWhile).symm⟩
        · simpa using List.mem_takeWhile_imp hc
        · simpa using eq_false_of_mem_head?_dropWhile hc
      rw [clockSearch, Bool.or_eq_true, matchesClock_append hfield hrest hline,
        clockAfterSeparator_append hfield]
      cases rest with
      | nil =>
          unfold HasClockField
          rw [List.append_nil, List.splitOnP_eq_singleton hfield]
          simp [clockAfterSeparator]
      | cons c rest =>
          have hlt : rest.length < n := by
            rw [← hn, List.length_append, List.length_cons]
            omega
          have hrestLine : '\n' ∉ rest :=
            fun h => hline (List.mem_append_right _ (List.mem_cons_of_mem _ h))
          rw [clockAfterSeparator_cons (hrest c rfl), ih _ hlt hrestLine rfl]
          unfold HasClockField
          rw [List.splitOnP_append_cons _ _ (hrest c rfl), List.splitOnP_eq_singleton hfield]
          simp

/-! ## Paths -/

theorem hasClockField_append (u : Str) {c : Char} (hc : isSeparator c = true) (v : Str) :
    HasClockField (u ++ c :: v) ↔ HasClockField u ∨ HasClockField v := by
  unfold HasClockField
  rw [List.splitOnP_append_cons u v hc]
  simp only [List.mem_append, or_and_right, exists_or]

/-- A dotted path has the fields of its parts. -/
theorem hasClockField_intercalate {parts : List Str} (hne : parts ≠ []) :
    HasClockField (['.'].intercalate parts) ↔ ∃ part ∈ parts, HasClockField part := by
  induction parts with
  | nil => exact absurd rfl hne
  | cons part parts ih =>
      cases parts with
      | nil => simp
      | cons next parts =>
          rw [List.intercalate_cons_cons, List.append_assoc, List.singleton_append,
            hasClockField_append _ rfl, ih (List.cons_ne_nil _ _)]
          simp

/-- **The verdict on a declared path**: a scope around the variable has a clock word, or its
own name is found. -/
theorem clockSearch_fullPath {scopes : List Str} {name : Str}
    (hscopes : ∀ scope ∈ scopes, '\n' ∉ scope) (hname : '\n' ∉ name) :
    clockSearch (Reader.fullPath scopes name) = true ↔
      (∃ scope ∈ scopes, HasClockField scope) ∨ clockSearch name = true := by
  have hline : '\n' ∉ Reader.fullPath scopes name := by
    intro h
    rcases mem_or_mem_of_mem_intercalate h with h | ⟨part, hpart, h⟩
    · revert h
      decide
    · rcases List.mem_append.mp hpart with hpart | hpart
      · exact hscopes part hpart h
      · rw [List.mem_singleton.mp hpart] at h
        exact hname h
  rw [clockSearch_iff_hasClockField hline, clockSearch_iff_hasClockField hname, Reader.fullPath,
    hasClockField_intercalate (by simp)]
  simp [or_and_right, exists_or]

/-! ## Ranges -/

/-- A clock word before the last separator of a name. -/
def HasInnerClockField (name : Str) : Prop :=
  ∃ field ∈ (name.splitOnP isSeparator).dropLast, field.map foldCase ∈ clockWords

instance (name : Str) : Decidable (HasInnerClockField name) :=
  inferInstanceAs (Decidable (∃ field ∈ (name.splitOnP isSeparator).dropLast, _))

/-- `[msb:lsb]` or `[bit]`. -/
def IsBitRange (range : Str) : Prop :=
  ∃ body, range = '[' :: (body ++ [']']) ∧ ∀ c ∈ body, c.isDigit = true ∨ c = ':' ∨ c = '-'

theorem IsBitRange.isSeparator {range : Str} (h : IsBitRange range) :
    ∀ c ∈ range, isSeparator c = false := by
  obtain ⟨body, rfl, hbody⟩ := h
  have hinside : ∀ c, c.isDigit = true ∨ c = ':' ∨ c = '-' → Activity.isSeparator c = false := by
    rintro c (hc | rfl | rfl)
    · rw [Bool.eq_false_iff]
      intro hsep
      rcases (Bool.or_eq_true _ _).mp hsep with h | h
      · obtain rfl := eq_of_beq h
        revert hc
        decide
      · obtain rfl := eq_of_beq h
        revert hc
        decide
    · decide
    · decide
  intro c hc
  rcases List.mem_cons.mp hc with rfl | hc
  · decide
  · rcases List.mem_append.mp hc with hc | hc
    · exact hinside c (hbody c hc)
    · rw [List.mem_singleton.mp hc]
      decide

/-- No word of the pattern has a bracket. -/
theorem not_hasClockField_of_bracket {field : Str} (hfield : ∀ c ∈ field, isSeparator c = false)
    (hbracket : '[' ∈ field) : ¬ HasClockField field := by
  unfold HasClockField
  rw [List.splitOnP_eq_singleton hfield]
  rintro ⟨_, hmem, hword⟩
  rw [List.mem_singleton.mp hmem] at hword
  have hfold : '[' ∈ field.map foldCase := by
    have hsame : foldCase '[' = '[' := by decide
    rw [← hsame]
    exact List.mem_map_of_mem hbracket
  revert hfold
  revert hword
  generalize field.map foldCase = word
  revert word
  decide

theorem exists_last_separator (s : Str) : (∀ c ∈ s, isSeparator c = false) ∨
    ∃ u c v, s = u ++ c :: v ∧ isSeparator c = true ∧ ∀ d ∈ v, isSeparator d = false := by
  induction s with
  | nil => exact Or.inl (fun c hc => absurd hc List.not_mem_nil)
  | cons d s ih =>
      rcases ih with hs | ⟨u, c, v, rfl, hc, hv⟩
      · cases hd : isSeparator d with
        | false => exact Or.inl (List.forall_mem_cons.mpr ⟨hd, hs⟩)
        | true => exact Or.inr ⟨[], d, s, rfl, hd, hs⟩
      · exact Or.inr ⟨d :: u, c, v, rfl, hc, hv⟩

/-- **A range hides the last field** of the name it is glued to, and no other one. -/
theorem hasClockField_append_range (name : Str) {range : Str} (h : IsBitRange range) :
    HasClockField (name ++ range) ↔ HasInnerClockField name := by
  have hbracket : '[' ∈ range := by
    obtain ⟨body, rfl, -⟩ := h
    exact List.mem_cons_self
  have hlast : ∀ field : Str, (∀ c ∈ field, isSeparator c = false) →
      ¬ HasClockField (field ++ range) := by
    intro field hfield
    refine not_hasClockField_of_bracket (fun c hc => ?_) (List.mem_append_right _ hbracket)
    exact (List.mem_append.mp hc).elim (hfield c) (h.isSeparator c)
  unfold HasInnerClockField
  rcases exists_last_separator name with hname | ⟨u, c, v, rfl, hc, hv⟩
  · rw [List.splitOnP_eq_singleton hname]
    simpa using hlast name hname
  · rw [List.append_assoc, List.cons_append, hasClockField_append u hc,
      List.splitOnP_append_cons u v hc, List.splitOnP_eq_singleton hv, List.dropLast_concat]
    exact or_iff_left (hlast v hv)

/-! ## The verdict -/

theorem newline_notMem {s : Str} (h : ∀ c ∈ s, isSpace c = false) : '\n' ∉ s :=
  fun hmem => absurd (h '\n' hmem) (by decide)

/-- The path of a new variable. -/
theorem exists_path_of_readLines {before after : List Str} {line code name : Str} {width : ℤ}
    {s s' : Reader} (hin : s.inHeader = true)
    (hline : headerCommand (strip line) = .ok (.var width code name))
    (hnew : s.signals.get? code = none) (hafter : s.readLines (line :: after) = .ok s')
    (hbefore : Reader.init.readLines before = .ok s) :
    ∃ signal, s'.signals.get? code = some signal ∧
      signal.path = Reader.fullPath s.scopes name ∧
      (clockSearch signal.path = true ↔
        (∃ scope ∈ s.scopes, HasClockField scope) ∨ clockSearch name = true) := by
  have hname : ∀ c ∈ name, isSpace c = false := noSpace_of_headerCommand_var hline
  have hpath : (s'.signals.get? code).map Signal.path = some (Reader.fullPath s.scopes name) := by
    rw [Reader.readLines_cons, Reader.readLine_header hin, hline] at hafter
    refine path_of_readLines hafter ?_
    show ((s.signals.setdefault code _).get? code).map Signal.path = _
    rw [OrderedDict.get?_setdefault, hnew, if_pos rfl]
    rfl
  obtain ⟨signal, hsignal, hpath⟩ := Option.map_eq_some_iff.mp hpath
  refine ⟨signal, hsignal, hpath, ?_⟩
  rw [hpath]
  exact clockSearch_fullPath (fun scope hscope => newline_notMem (noSpace_scopes hbefore scope
    hscope)) (newline_notMem hname)

/-- The reader glues the words between the code and the last field. -/
theorem name_eq_of_fields {line code name leaf last : Str} {range : List Str} {width : ℤ}
    (hline : headerCommand (strip line) = .ok (.var width code name))
    (hfields : (split line).drop 4 = leaf :: (range ++ [last])) : name = leaf ++ range.flatten := by
  have hspace : ∀ c ∈ leaf ++ range.flatten, isSpace c = false := by
    intro c hc
    have hmem : ∃ w ∈ leaf :: (range ++ [last]), c ∈ w := by
      rcases List.mem_append.mp hc with hc | hc
      · exact ⟨leaf, List.mem_cons_self, hc⟩
      · obtain ⟨w, hw, hc⟩ := List.mem_flatten.mp hc
        exact ⟨w, List.mem_cons_of_mem _ (List.mem_append_left _ hw), hc⟩
    obtain ⟨w, hw, hc⟩ := hmem
    rw [← hfields] at hw
    exact (isWord_of_mem_split (List.mem_of_mem_drop hw)).2 c hc
  rw [name_of_headerCommand_var hline, split_strip, hfields, ← List.cons_append,
    List.dropLast_concat]
  exact cleanName_of_noSpace hspace

/-- **What the clock filter judges.**  Take a variable whose code no earlier line of the header
declares.  The pattern is searched in its whole path.  Its signal is dropped if a scope around it
has a clock field, whatever its own name is.  If no scope has one, the verdict is that of its own
name, with the range glued to it.  So the variable is judged by its own name exactly if this name
has a clock field that the range does not hide, or that a scope makes up for, or if neither the
name nor a scope has one.  A bit range hides the last field. -/
theorem clock_filter (job : Job) (hexclude : job.excludeClocks = true) {before after : List Str}
    {line code name : Str} {width : ℤ} {s s' : Reader}
    (hbefore : Reader.init.readLines before = .ok s) (hin : s.inHeader = true)
    (hline : headerCommand (strip line) = .ok (.var width code name))
    (hnew : s.signals.get? code = none) (hafter : s.readLines (line :: after) = .ok s') :
    ∃ signal, s'.signals.get? code = some signal ∧
      (signal.path = Reader.fullPath s.scopes name ∧
        job.keeps signal = !clockRe.search [] signal.path) ∧
      ((∃ scope ∈ s.scopes, HasClockField scope) → job.keeps signal = false) ∧
      ((∀ scope ∈ s.scopes, ¬ HasClockField scope) → job.keeps signal = !clockSearch name) ∧
      (∀ leaf last, (split line).drop 4 = [leaf, last] →
        (clockSearch name = true ↔ HasClockField leaf)) ∧
      ∀ leaf range last, (split line).drop 4 = leaf :: (range ++ [last]) →
        ((job.keeps signal = false ↔ HasClockField leaf) ↔
          (if HasClockField leaf then
            HasClockField (leaf ++ range.flatten) ∨ ∃ scope ∈ s.scopes, HasClockField scope
          else
            ¬ HasClockField (leaf ++ range.flatten) ∧
              ∀ scope ∈ s.scopes, ¬ HasClockField scope)) ∧
        ∀ r, range = [r] → IsBitRange r →
          (HasClockField (leaf ++ range.flatten) ↔ HasInnerClockField leaf) := by
  have hname : ∀ c ∈ name, isSpace c = false := noSpace_of_headerCommand_var hline
  obtain ⟨signal, hsignal, hpath, hverdict⟩ :=
    exists_path_of_readLines hin hline hnew hafter hbefore
  have hkeeps : job.keeps signal = !clockSearch signal.path := by
    rw [Job.keeps, hexclude, Bool.true_and]
  have hfield : clockSearch name = true ↔ HasClockField name :=
    clockSearch_iff_hasClockField (newline_notMem hname)
  refine ⟨signal, hsignal, ⟨hpath, ?_⟩, fun hscope => ?_, fun hscope => ?_,
    fun leaf last hleaf => ?_, fun leaf range last hfields => ⟨?_, ?_⟩⟩
  · rw [hkeeps, search_clockRe]
  · rw [hkeeps, hverdict.mpr (Or.inl hscope)]
    rfl
  · have hown : clockSearch signal.path = clockSearch name := by
      refine Bool.eq_iff_iff.mpr (hverdict.trans (or_iff_right ?_))
      rintro ⟨scope, hmem, hfield⟩
      exact hscope scope hmem hfield
    rw [hkeeps, hown]
  · have heq : name = leaf := by
      have hglued : name = leaf ++ [].flatten := name_eq_of_fields hline hleaf
      rw [hglued]
      exact List.append_nil leaf
    rw [hfield, heq]
  · have hdropped : job.keeps signal = false ↔
        (∃ scope ∈ s.scopes, HasClockField scope) ∨ HasClockField (leaf ++ range.flatten) := by
      rw [← name_eq_of_fields hline hfields, ← hfield, ← hverdict, hkeeps]
      simp
    rw [hdropped]
    split_ifs with hleaf
    · simp only [hleaf, iff_true]
      exact or_comm
    · simp only [hleaf, iff_false, not_or, not_exists, not_and]
      exact and_comm
  · rintro r rfl hr
    rw [List.flatten_singleton]
    exact hasClockField_append_range leaf hr

/-- A data signal in a scope `clock_domain` is dropped. -/
theorem clock_filter_domain :
    ∃ s signal, Reader.init.readLines
        ["$scope module clock_domain $end".toList, "$var wire 8 ! data $end".toList] = .ok s ∧
      s.signals.get? ['!'] = some signal ∧
      (⟨0, 0, [], .empty, true⟩ : Job).keeps signal = false := by
  set scope : Str := "$scope module clock_domain $end".toList with hscope
  set line : Str := "$var wire 8 ! data $end".toList with hline
  set s₁ : Reader := Reader.init.exec (.scope "clock_domain".toList) with hs₁
  have hbefore : Reader.init.readLines [scope] = .ok s₁ := rfl
  have hvar : headerCommand (strip line) = .ok (.var 8 ['!'] "data".toList) := rfl
  have hafter : s₁.readLines [line] = .ok (s₁.exec (.var 8 ['!'] "data".toList)) := rfl
  obtain ⟨signal, hsignal, -, hdrop, -⟩ :=
    clock_filter ⟨0, 0, [], .empty, true⟩ rfl hbefore rfl hvar rfl hafter
  exact ⟨_, signal, rfl, hsignal, hdrop (by decide)⟩

/-- The signals of a header that pass the clock filter. -/
def keptPaths (header : List String) : Option (List Str) :=
  (Reader.init.readLines (header.map String.toList)).toOption.map
    (fun s => ((⟨0, 0, [], .empty, true⟩ : Job).kept s.signals).map Signal.path)

/-- The name of a scope decides about the signals in it, and a bit range hides a clock. -/
theorem clock_filter_scope_and_range :
    keptPaths ["$scope module element_reset_domain_rockettile $end", "$scope module gemmini $end",
        "$var wire 8 ! data $end"] = some [] ∧
    keptPaths ["$scope module top $end", "$var wire 8 ! data $end"] = some ["top.data".toList] ∧
      keptPaths ["$scope module clock $end", "$var wire 8 ! data $end"] = some [] ∧
      keptPaths ["$scope module top $end", "$var wire 1 ! clk $end"] = some [] ∧
      keptPaths ["$scope module top $end", "$var wire 4 ! clk [3:0] $end"]
        = some ["top.clk[3:0]".toList] := by
  refine ⟨?_, ?_, ?_, ?_, ?_⟩ <;> decide +kernel

end Activity
