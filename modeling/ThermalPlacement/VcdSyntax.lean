/-
# The written form of a value change dump

A `Statement` is one command of a VCD file as a writer puts it down: its keyword,
all its fields and the closing `$end`.  `Statement.tokens` is the written form as
a sequence of words, `Statement.command` is what it means to the reader.

The facts here are about one line: when the words of a line are the tokens of a
statement, the reader's dispatch recognises that statement
(`headerCommand_of_split`, `bodyCommand_of_split`).
-/
import ThermalPlacement.VcdRun

open PyText

namespace Vcd

/-- A command of a VCD file, with all its fields. -/
inductive Statement where
  | scope (kind name : Str)
  | upscope
  /-- `range` holds the words between the name and `$end`, such as `[7:0]`. -/
  | var (kind : Str) (width : Decimal) (code name : Str) (range : List Str)
  | enddefinitions
  | time (t : Decimal)
  | scalar (value : Char) (code : Str)
  /-- A vector or real value: `radix` is one of `bBrR`. -/
  | vector (radix : Char) (value code : Str)
  /-- `$dumpvars`, `$dumpall`, `$dumpon`, `$dumpoff` or the `$end` that closes
  their section. -/
  | keyword (kw : Str)
  /-- A section that declares nothing: `$comment`, `$date`, `$version`,
  `$timescale`. -/
  | text (kw : Str) (words : List Str)

namespace Statement

/-- The words of a statement. -/
def tokens : Statement → List Str
  | scope kind name => ["$scope".toList, kind, name, "$end".toList]
  | upscope => ["$upscope".toList, "$end".toList]
  | var kind width code name range =>
      "$var".toList :: kind :: width.digits :: code :: name :: (range ++ ["$end".toList])
  | enddefinitions => ["$enddefinitions".toList, "$end".toList]
  | time t => ['#' :: t.digits]
  | scalar value code => [value :: code]
  | vector radix value code => [radix :: value, code]
  | keyword kw => [kw]
  | text kw words => kw :: (words ++ ["$end".toList])

/-- What a statement tells the reader. -/
def command : Statement → Command
  | scope _ name => .scope name
  | upscope => .upscope
  | var _ width code name range => .var width.value code (name ++ range.flatten)
  | enddefinitions => .enddefinitions
  | time t => .time (some t.value)
  | scalar value code => .change [value.toLower] code
  | vector _ value code => .change (value.map Char.toLower) code
  | keyword _ => .skip
  | text _ _ => .skip

/-- The statements that declare: scopes and variables. -/
def IsDeclaration : Statement → Prop
  | scope _ _ | upscope | var _ _ _ _ _ => True
  | _ => False

/-- The statements that simulate, with the value letters the format allows. -/
def IsSimulation : Statement → Prop
  | time _ => True
  | scalar value _ => value ∈ "01xzXZ".toList
  | vector radix _ _ => radix ∈ "bBrR".toList
  | _ => False

end Statement

/-! ## Header lines -/

theorem cleanName_of_noSpace {name : Str} (h : ∀ c ∈ name, isSpace c = false) :
    cleanName name = name := by
  refine List.filter_eq_self.mpr (fun c hc => ?_)
  have hcs := h c hc
  rw [decide_eq_true_eq]
  rintro rfl
  exact absurd hcs (by decide)

/-- The words of a line hold no white space. -/
theorem noSpace_of_mem_split {line w : Str} (h : w ∈ split line) :
    ∀ c ∈ w, isSpace c = false := (isWord_of_mem_split h).2

/-- The third word of a `$scope` line is the name, whatever follows. -/
theorem headerCommand_scope {line kind name : Str} {after : List Str}
    (h : split line = "$scope".toList :: kind :: name :: after) :
    headerCommand (strip line) = .ok (.scope name) := by
  have hname : name ∈ split line := by
    rw [h]
    simp
  unfold headerCommand
  rw [if_pos ((prefix_strip_iff h rfl).mpr (by decide)), split_strip, h]
  show Except.ok (Command.scope (cleanName name)) = _
  rw [cleanName_of_noSpace (noSpace_of_mem_split hname)]

theorem headerCommand_upscope {line : Str} {after : List Str}
    (h : split line = "$upscope".toList :: after) : headerCommand (strip line) = .ok .upscope := by
  unfold headerCommand
  rw [if_neg ((prefix_strip_iff h rfl).not.mpr (by decide)),
    if_pos ((prefix_strip_iff h rfl).mpr (by decide))]

theorem headerCommand_enddefinitions {line : Str} {after : List Str}
    (h : split line = "$enddefinitions".toList :: after) :
    headerCommand (strip line) = .ok .enddefinitions := by
  unfold headerCommand
  rw [if_neg ((prefix_strip_iff h rfl).not.mpr (by decide)),
    if_neg ((prefix_strip_iff h rfl).not.mpr (by decide)),
    if_neg ((prefix_strip_iff h rfl).not.mpr (by decide)),
    if_pos ((prefix_strip_iff h rfl).mpr (by decide))]

/-- The last word of a `$var` line is dropped, the ones before it are glued to the name. -/
theorem headerCommand_var {line kind code name : Str} {width : Decimal} {range : List Str}
    (h : split line = Statement.tokens (.var kind width code name range)) :
    headerCommand (strip line) = .ok (.var width.value code (name ++ range.flatten)) := by
  have hrest : (name :: (range ++ ["$end".toList])).dropLast = name :: range := by
    rw [← List.cons_append, List.dropLast_concat]
  have hclean : cleanName (name :: range).flatten = name ++ range.flatten := by
    rw [List.flatten_cons]
    refine cleanName_of_noSpace (fun c hc => ?_)
    rcases List.mem_append.mp hc with hc | hc
    · have hmem : name ∈ split line := by
        rw [h]
        simp [Statement.tokens]
      exact noSpace_of_mem_split hmem c hc
    · rcases List.mem_flatten.mp hc with ⟨r, hr, hcr⟩
      have hmem : r ∈ split line := by
        rw [h]
        simp [Statement.tokens, hr]
      exact noSpace_of_mem_split hmem c hcr
  unfold headerCommand
  rw [if_neg ((prefix_strip_iff h rfl).not.mpr (by decide)),
    if_neg ((prefix_strip_iff h rfl).not.mpr (by decide)),
    if_pos ((prefix_strip_iff h rfl).mpr (by decide)), split_strip, h]
  simp only [Statement.tokens]
  rw [if_pos (by simp), int_digits, hrest, hclean]

/-- **A declaration on a line of its own is recognised.** -/
theorem headerCommand_of_split {line : Str} {st : Statement} (hst : st.IsDeclaration)
    (h : split line = st.tokens) : headerCommand (strip line) = .ok st.command := by
  cases st with
  | scope kind name => exact headerCommand_scope h
  | upscope => exact headerCommand_upscope h
  | var kind width code name range => exact headerCommand_var h
  | enddefinitions => exact hst.elim
  | time _ => exact hst.elim
  | scalar _ _ => exact hst.elim
  | vector _ _ _ => exact hst.elim
  | keyword _ => exact hst.elim
  | text _ _ => exact hst.elim

theorem inHeader_command {st : Statement} (hst : st.IsDeclaration) : st.command.InHeader := by
  cases st with
  | enddefinitions => exact hst.elim
  | _ => trivial

/-! ## Body lines -/

theorem scalar_letter {c : Char} (hc : c ∈ "01xzXZ".toList) : c ≠ '$' ∧ c ≠ '#' := by
  fin_cases hc <;> decide

theorem radix_letter {c : Char} (hc : c ∈ "bBrR".toList) :
    c ≠ '$' ∧ c ≠ '#' ∧ c ∉ "01xzXZ".toList := by
  fin_cases hc <;> decide

/-- A line that does not begin with `#` is no time mark. -/
theorem notPrefix_hash {c : Char} {s : Str} (hc : c ≠ '#') : ¬ "#".toList <+: c :: s := by
  rintro ⟨t, ht⟩
  exact hc (List.cons.inj ht).1.symm

theorem bodyCommand_time (t : Decimal) : bodyCommand ('#' :: t.digits) = .time (some t.value) := by
  unfold bodyCommand
  rw [if_pos ⟨t.digits, rfl⟩]
  show Command.time (int t.digits) = _
  rw [int_digits]

/-- After a scalar value the rest of the line is the code. -/
theorem bodyCommand_scalar {c : Char} (hc : c ∈ "01xzXZ".toList) (code : Str) :
    bodyCommand (c :: code) = .change [c.toLower] code := by
  unfold bodyCommand
  rw [if_neg (notPrefix_hash (scalar_letter hc).2)]
  unfold parseChange
  dsimp only
  rw [if_pos hc]

/-- A vector value needs exactly two words. -/
theorem bodyCommand_radix {c : Char} (hc : c ∈ "bBrR".toList) (s : Str) :
    bodyCommand (c :: s) =
      match split (c :: s) with
      | [value, code] => .change (value.tail.map Char.toLower) code
      | _ => .skip := by
  unfold bodyCommand
  rw [if_neg (notPrefix_hash (radix_letter hc).2.1)]
  unfold parseChange
  dsimp only
  rw [if_neg (radix_letter hc).2.2, if_pos hc]
  generalize split (c :: s) = words
  match words with
  | [] => rfl
  | [_] => rfl
  | [_, _] => rfl
  | _ :: _ :: _ :: _ => rfl

/-- No other line is a command. -/
theorem bodyCommand_other {c : Char} (hhash : c ≠ '#') (hscalar : c ∉ "01xzXZ".toList)
    (hradix : c ∉ "bBrR".toList) {s : Str} : bodyCommand (c :: s) = .skip := by
  unfold bodyCommand
  rw [if_neg (notPrefix_hash hhash)]
  unfold parseChange
  dsimp only
  rw [if_neg hscalar, if_neg hradix]

/-- **A time mark or a value change on a line of its own is recognised.** -/
theorem bodyCommand_of_split {line : Str} {st : Statement} (hst : st.IsSimulation)
    (h : split line = st.tokens) : bodyCommand (strip line) = st.command := by
  cases st with
  | time t =>
      rw [strip_of_split_singleton h]
      exact bodyCommand_time t
  | scalar value code =>
      rw [strip_of_split_singleton h]
      exact bodyCommand_scalar hst code
  | vector radix value code =>
      -- the stripped line is the first word and something after it
      obtain ⟨t, hstrip, -, -⟩ := strip_eq_append_of_split h
      have hsplit : split (radix :: (value ++ t)) = [radix :: value, code] := by
        rw [← List.cons_append, ← hstrip, split_strip, h]
        rfl
      rw [hstrip, List.cons_append, bodyCommand_radix hst, hsplit]
      rfl
  | scope _ _ => exact hst.elim
  | upscope => exact hst.elim
  | var _ _ _ _ _ => exact hst.elim
  | enddefinitions => exact hst.elim
  | keyword _ => exact hst.elim
  | text _ _ => exact hst.elim

/-! ## Files with one statement per line -/

/-- A file whose lines hold one statement each. -/
def RendersAs (file : List UInt8) (statements : List Statement) : Prop :=
  (rawLines file).map split = statements.map Statement.tokens

/-- Lines of declarations are read as the declared commands. -/
theorem headerReads_of_map_split {lines : List Str} {statements : List Statement}
    (hdecl : ∀ st ∈ statements, st.IsDeclaration)
    (h : lines.map split = statements.map Statement.tokens) :
    HeaderReads lines (statements.map Statement.command) := by
  induction statements generalizing lines with
  | nil =>
      rw [List.map_nil, List.map_eq_nil_iff] at h
      rw [h]
      exact List.Forall₂.nil
  | cons st statements ih =>
      rw [List.map_cons] at h
      obtain ⟨line, lines, rfl, hline, hlines⟩ := List.map_eq_cons_iff.mp h
      exact List.Forall₂.cons (headerCommand_of_split (hdecl st List.mem_cons_self) hline)
        (ih (fun d hd => hdecl d (List.mem_cons_of_mem _ hd)) hlines)

/-- Lines of time marks and value changes are read as these. -/
theorem bodyCommands_of_map_split {lines : List Str} {statements : List Statement}
    (hsim : ∀ st ∈ statements, st.IsSimulation)
    (h : lines.map split = statements.map Statement.tokens) :
    bodyCommands lines = statements.map Statement.command := by
  induction statements generalizing lines with
  | nil =>
      rw [List.map_nil, List.map_eq_nil_iff] at h
      rw [h]
      rfl
  | cons st statements ih =>
      rw [List.map_cons] at h
      obtain ⟨line, lines, rfl, hline, hlines⟩ := List.map_eq_cons_iff.mp h
      show bodyCommand (strip line) :: bodyCommands lines = _
      rw [bodyCommand_of_split (hsim st List.mem_cons_self) hline,
        ih (fun d hd => hsim d (List.mem_cons_of_mem _ hd)) hlines]
      rfl

/-- **A rendered file reads as what it renders.** -/
theorem readsAs_of_rendersAs {file : List UInt8} {header body : List Statement}
    (hheader : ∀ st ∈ header, st.IsDeclaration) (hbody : ∀ st ∈ body, st.IsSimulation)
    (h : RendersAs file (header ++ .enddefinitions :: body)) :
    ReadsAs file (header.map Statement.command) (body.map Statement.command) := by
  unfold RendersAs at h
  rw [List.map_append, List.map_cons] at h
  obtain ⟨H, R, hlines, hH, hR⟩ := List.map_eq_append_iff.mp h
  obtain ⟨e, B, rfl, he, hB⟩ := List.map_eq_cons_iff.mp hR
  refine ⟨fun c hc => ?_, H, e, B, hlines, headerReads_of_map_split hheader hH,
    headerCommand_enddefinitions he, (bodyCommands_of_map_split hbody hB).symm⟩
  rcases List.mem_map.mp hc with ⟨st, hst, rfl⟩
  exact inHeader_command (hheader st hst)

/-! ## A rendering -/

/-- The canonical line of a statement: its words with single spaces between. -/
def Statement.line (st : Statement) : Str := [' '].intercalate st.tokens

/-- **Every list of statements is rendered by a file**, provided their words are
ASCII words. -/
theorem rendersAs_linesFile {statements : List Statement}
    (h : ∀ st ∈ statements, ∀ w ∈ st.tokens, IsWord w ∧ ∀ c ∈ w, c.toNat < 128) :
    RendersAs (linesFile (statements.map Statement.line)) statements := by
  have hlines : ∀ l ∈ statements.map Statement.line, IsLine l := by
    intro l hl
    rcases List.mem_map.mp hl with ⟨st, hst, rfl⟩
    refine (isLine_iff _).mpr (fun c hc => ?_)
    rcases mem_or_mem_of_mem_intercalate hc with hc | ⟨w, hw, hcw⟩
    · rw [List.mem_singleton.mp hc]
      decide
    · obtain ⟨⟨-, hspace⟩, hascii⟩ := h st hst w hw
      refine ⟨hascii c hcw, ?_, ?_⟩
      · rintro rfl
        exact absurd (hspace _ hcw) (by decide)
      · rintro rfl
        exact absurd (hspace _ hcw) (by decide)
  unfold RendersAs
  rw [rawLines_linesFile hlines, List.map_map, List.map_map]
  refine List.map_congr_left (fun st hst => ?_)
  show split ([' '].intercalate st.tokens ++ ['\n']) = st.tokens
  rw [split_append_space _ rfl,
    split_intercalate_of_isSpace rfl (fun w hw => (h st hst w hw).1)]

end Vcd
