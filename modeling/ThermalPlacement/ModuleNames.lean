/-
# Whole module names

When `read_modules` of `scripts/inspect_gemmini_hierarchy.py` finds the names that are
declared.  A name is recorded as a whole if it ends at a word boundary (`Declaration.Whole`),
and a name that ends in `$` does not unless a letter outside ASCII follows it.
-/
import ThermalPlacement.ModuleScan

open PyText

/-! ## Lists -/

/-- Of the nonempty front parts of a text, the text itself is the longest. -/
theorem exists_reverse_tail_inits {α : Type*} {u : List α} (hu : u ≠ []) :
    ∃ shorter, u.inits.tail.reverse = u :: shorter := by
  obtain ⟨s, c, rfl⟩ := (List.eq_nil_or_concat' u).resolve_left hu
  obtain ⟨w, ws, hws⟩ := List.exists_cons_of_ne_nil
    (List.ne_nil_of_mem ((List.mem_inits [] s).mpr List.nil_prefix))
  refine ⟨ws.reverse, ?_⟩
  rw [List.inits_append, hws]
  simp

theorem length_filterMap_le {α β : Type*} {f g : α → Option β} {l : List α}
    (h : ∀ a ∈ l, g a = none → f a = none) :
    (l.filterMap f).length ≤ (l.filterMap g).length := by
  induction l with
  | nil => simp
  | cons a l ih =>
      have ih := ih (fun b hb => h b (List.mem_cons_of_mem _ hb))
      cases hg : g a with
      | none => simpa [List.filterMap_cons, hg, h a List.mem_cons_self hg] using ih
      | some b =>
          cases hf : f a with
          | none =>
              simp only [List.filterMap_cons, hg, hf, List.length_cons]
              omega
          | some c => simpa [List.filterMap_cons, hg, hf] using ih

/-- Two selections from a list, one of which selects no less than the other. -/
theorem filterMap_eq_filterMap_iff {α β : Type*} {f g : α → Option β} {l : List α}
    (h : ∀ a ∈ l, g a = none → f a = none) :
    l.filterMap f = l.filterMap g ↔ ∀ a ∈ l, f a = g a := by
  refine ⟨fun heq => ?_, fun hall => List.filterMap_congr hall⟩
  induction l with
  | nil => simp
  | cons a l ih =>
      have htail : ∀ b ∈ l, g b = none → f b = none := fun b hb => h b (List.mem_cons_of_mem _ hb)
      rw [List.forall_mem_cons]
      cases hg : g a with
      | none =>
          have hf := h a List.mem_cons_self hg
          rw [List.filterMap_cons_none hf, List.filterMap_cons_none hg] at heq
          exact ⟨hf, ih htail heq⟩
      | some b =>
          rw [List.filterMap_cons_some hg] at heq
          cases hf : f a with
          | none =>
              -- then the first selection is too short
              rw [List.filterMap_cons_none hf] at heq
              have := length_filterMap_le htail
              rw [heq, List.length_cons] at this
              omega
          | some c =>
              rw [List.filterMap_cons_some hf] at heq
              obtain ⟨rfl, hrest⟩ := List.cons.inj heq
              exact ⟨rfl, ih htail hrest⟩

namespace Inventory

section

variable [PyWord]

/-! ## Whole names -/

/-- The name ends at a word boundary: exactly one of its last character and the character
after it is a word character. -/
def Declaration.Whole (d : Declaration) : Prop :=
  d.name.getLast?.any PyWord.isWord ≠ d.rest.head?.any PyWord.isWord

instance (d : Declaration) : Decidable d.Whole := inferInstanceAs (Decidable (_ ≠ _))

theorem Declaration.endsWord_name_iff (d : Declaration) : d.EndsWord d.name ↔ d.Whole := by
  unfold Declaration.EndsWord Declaration.Whole wordBoundary
  rw [List.head?_reverse, List.drop_left, bne_iff_ne]

/-- The longest front part is the name itself. -/
theorem Declaration.recorded_eq_name_iff (d : Declaration) :
    d.recorded = some d.name ↔ d.Whole := by
  rw [← d.endsWord_name_iff]
  unfold Declaration.recorded
  constructor
  · intro h
    simpa using List.find?_some h
  · intro h
    obtain ⟨shorter, hfirst⟩ := exists_reverse_tail_inits d.isIdentifier.ne_nil
    rw [hfirst]
    exact List.find?_cons_of_pos (by simpa using h)

/-! ## Modules -/

/-- The declarations that `read_modules` runs over: name and path. -/
def scannedPairs (files : List RtlFile) : List (Str × Str) :=
  ((sortedBy (fun file => file.path.splitOn '/') files).filter
    (fun file => pathSuffix file.path ∈ [".v".toList, ".sv".toList])).flatMap
      (fun file => (scanModules file.text).map (fun name => (name, file.path)))

theorem readModules_eq (files : List RtlFile) :
    readModules files = (scannedPairs files).foldl
      (fun modules e => modules.upsert e.1 [] (fun paths => paths ++ [e.2])) OrderedDict.empty := by
  unfold readModules scannedPairs
  rw [List.foldl_flatMap]
  simp only [List.foldl_map]

theorem mem_keys_readModules (files : List RtlFile) (name : Str) :
    name ∈ (readModules files).keys ↔ ∃ file ∈ files,
      pathSuffix file.path ∈ [".v".toList, ".sv".toList] ∧ name ∈ scanModules file.text := by
  rw [readModules_eq, OrderedDict.mem_keys_foldl_upsert Prod.fst []
    (fun e paths => paths ++ [e.2])]
  unfold scannedPairs
  simp only [OrderedDict.keys_empty, List.not_mem_nil, false_or, List.mem_map, List.mem_flatMap,
    List.mem_filter, mem_sortedBy, decide_eq_true_eq]
  constructor
  · rintro ⟨_, ⟨file, ⟨hfile, hsuffix⟩, n, hn, rfl⟩, rfl⟩
    exact ⟨file, hfile, hsuffix, hn⟩
  · rintro ⟨file, hfile, hsuffix, hn⟩
    exact ⟨_, ⟨file, ⟨hfile, hsuffix⟩, name, hn, rfl⟩, rfl⟩

/-- The files of a module: one entry for each declaration. -/
theorem getD_readModules (files : List RtlFile) (name : Str) :
    ((readModules files).get? name).getD []
      = ((scannedPairs files).filter (fun e => e.1 = name)).map Prod.snd := by
  rw [readModules_eq, OrderedDict.getD_foldl_upsert Prod.fst [] (fun e paths => paths ++ [e.2])]
  rw [OrderedDict.get?_empty, Option.getD_none, List.foldl_append_eq_append, List.nil_append,
    ← List.flatMap_def]
  exact List.map_eq_flatMap.symm

/-- A match of the name pattern captures an identifier. -/
theorem isIdentifier_of_mem_run_nameRe {c m : Cursor Char} (h : m ∈ nameRe.run c) {name : Str}
    (hname : m.group? 1 = some name) : IsIdentifier name := by
  obtain ⟨b, v, g⟩ := c
  unfold nameRe at h
  rw [Pattern.run_seq_assert] at h
  obtain ⟨e, he, rfl⟩ := List.mem_map.mp (List.mem_filter.mp h).1
  cases v with
  | nil => cases he
  | cons a v =>
      rw [Pattern.run_seq, Pattern.run_one_cons] at he
      split_ifs at he with ha
      · rw [List.flatMap_singleton] at he
        obtain ⟨u, hu, -, hbefore, -⟩ := Pattern.exists_of_mem_runMany he
        obtain ⟨before, after, groups⟩ := e
        dsimp only at hbefore
        subst hbefore
        have hbetween := Cursor.between_append b (a :: u) (a :: v) after g groups
        rw [List.reverse_cons, List.append_assoc, List.singleton_append] at hbetween
        rw [hbetween] at hname
        obtain rfl : a :: u = name := by simpa [Cursor.group?] using hname
        exact ⟨of_decide_eq_true ha, fun d hd => of_decide_eq_true (hu d hd)⟩
      · cases he

theorem isIdentifier_of_mem_scanModules {text name : Str} (h : name ∈ scanModules text) :
    IsIdentifier name := by
  obtain ⟨m, hm, hname⟩ := List.mem_filterMap.mp h
  obtain ⟨c, hrun⟩ := Pattern.exists_of_mem_findAll hm
  -- the capture is made by the last part of the pattern
  obtain ⟨_, -, hrun⟩ := List.mem_flatMap.mp hrun
  obtain ⟨_, -, hrun⟩ := List.mem_flatMap.mp hrun
  obtain ⟨_, -, hrun⟩ := List.mem_flatMap.mp hrun
  obtain ⟨_, -, hrun⟩ := List.mem_flatMap.mp hrun
  obtain ⟨_, -, hrun⟩ := List.mem_flatMap.mp hrun
  exact isIdentifier_of_mem_run_nameRe hrun hname

/-- The result of `read_modules`. -/
def RtlModules.read (files : List RtlFile) : RtlModules where
  files := readModules files
  isIdentifier m hm := by
    obtain ⟨file, -, -, hmem⟩ := (mem_keys_readModules files m).mp hm
    exact isIdentifier_of_mem_scanModules hmem

/-- **Whole names**: the scan finds the declared names if and only if each of them ends at a
word boundary; then `read_modules` has one entry for each declared name. -/
theorem scanModules_eq_declaredNames_iff (lines : List SourceLine) :
    (scanModules (sourceText lines) = declaredNames lines ↔
        ∀ d, SourceLine.declaration d ∈ lines → d.Whole) ∧
      ((∀ d, SourceLine.declaration d ∈ lines → d.Whole) → ∀ path,
        pathSuffix path ∈ [".v".toList, ".sv".toList] →
          ∀ name, ((readModules [⟨path, sourceText lines⟩]).get? name).getD []
            = List.replicate ((declaredNames lines).count name) path) := by
  have hscan : scanModules (sourceText lines) = declaredNames lines ↔
      ∀ d, SourceLine.declaration d ∈ lines → d.Whole := by
    rw [scanModules_sourceText]
    unfold declaredNames
    rw [filterMap_eq_filterMap_iff]
    · constructor
      · intro h d hd
        exact d.recorded_eq_name_iff.mp (h _ hd)
      · intro h l hl
        cases l with
        | declaration d => exact d.recorded_eq_name_iff.mpr (h d hl)
        | other _ _ _ => rfl
    · intro l _ hl
      cases l with
      | declaration d => cases hl
      | other _ _ _ => rfl
  refine ⟨hscan, fun hwhole path hsuffix name => ?_⟩
  have hpairs : scannedPairs [⟨path, sourceText lines⟩]
      = (declaredNames lines).map (fun name => (name, path)) := by
    rw [← hscan.mpr hwhole]
    show (([RtlFile.mk path (sourceText lines)]).filter _).flatMap _ = _
    rw [List.filter_cons_of_pos (by simpa using hsuffix)]
    exact List.append_nil _
  rw [getD_readModules, hpairs, List.filter_map, List.map_map]
  show List.map (fun _ => path) ((declaredNames lines).filter (fun n => n = name)) = _
  rw [List.map_const', ← List.countP_eq_length_filter]
  congr 1
  exact List.countP_congr (fun n _ => by simp)

end

/-! ## Two modules under one name -/

/-- The declaration of a module with ports in parentheses. -/
def declares (name ports : String) (h : IsIdentifier name.toList)
    (hline : '\n' ∉ ports.toList) : SourceLine :=
  .declaration
    { lead := []
      gap := [' ']
      name := name.toList
      rest := '(' :: ports.toList
      lead_space := by decide
      gap_space := by decide
      gap_ne_nil := by decide
      isIdentifier := h
      rest_head := by
        intro c hc
        obtain rfl : '(' = c := by simpa using hc
        decide
      oneLine := by simpa using hline }

/-- The line that ends a module. -/
def endmodule : SourceLine :=
  .other "endmodule".toList (by decide) (by rw [split_word (by decide)]; decide)

/-- A file that declares `foo$` and `foo`. -/
def dollarFile : List SourceLine :=
  [declares "foo$" "input a);" (by decide) (by decide), endmodule,
    declares "foo" "input b);" (by decide) (by decide), endmodule]

/-- The two modules are recorded under the name `foo`. -/
theorem scanModules_ne_declaredNames_dollar :
    declaredNames dollarFile = ["foo$".toList, "foo".toList] ∧
      @scanModules asciiWord (sourceText dollarFile) = ["foo".toList, "foo".toList] ∧
      @scanModules asciiWord (sourceText dollarFile) ≠ declaredNames dollarFile ∧
      (@readModules asciiWord [⟨"rtl/top.v".toList, sourceText dollarFile⟩]).keys
        = ["foo".toList] := by
  refine ⟨?_, ?_, ?_, ?_⟩ <;> decide +kernel

end Inventory
