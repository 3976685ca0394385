/-
# Tables as text

The CSV format as Python's `csv` module writes and reads it, over any alphabet with four special
characters.  The writer quotes a field that contains one of them and doubles its quotes.  The
reader is a state machine that gets the text line by line; a quoted field may go on for several
lines.

`read_writeRows`: tables are read as they were written, whatever their fields contain.
-/
import Mathlib

namespace Csv

/-- The special characters, and how long a field may be. -/
structure Dialect (C : Type*) where
  delimiter : C
  quotechar : C
  cr : C
  lf : C
  fieldLimit : ℕ
  distinct : [delimiter, quotechar, cr, lf].Nodup

variable {C : Type*}

namespace Dialect

variable (d : Dialect C)

/-- A line end. -/
def IsNewline (c : C) : Prop := c = d.lf ∨ c = d.cr

/-- A character that makes the writer quote a field. -/
def IsSpecial (c : C) : Prop := c = d.delimiter ∨ c = d.quotechar ∨ d.IsNewline c

theorem quotechar_ne_delimiter : d.quotechar ≠ d.delimiter := by
  have h := d.distinct
  simp at h
  tauto

theorem isNewline_lf : d.IsNewline d.lf := Or.inl rfl

theorem isNewline_cr : d.IsNewline d.cr := Or.inr rfl

theorem lf_ne_cr : d.lf ≠ d.cr := by
  have h := d.distinct
  simp at h
  tauto

theorem not_isNewline_delimiter : ¬ d.IsNewline d.delimiter := by
  have h := d.distinct
  simp at h
  unfold IsNewline
  tauto

theorem not_isNewline_quotechar : ¬ d.IsNewline d.quotechar := by
  have h := d.distinct
  simp at h
  unfold IsNewline
  tauto

variable [DecidableEq C]

instance (c : C) : Decidable (d.IsNewline c) := inferInstanceAs (Decidable (_ ∨ _))

instance (c : C) : Decidable (d.IsSpecial c) := inferInstanceAs (Decidable (_ ∨ _ ∨ _))

/-! ## Writing -/

/-- `doublequote=True`: every quote of a field is written twice. -/
def doubleQuotes (s : List C) : List C :=
  s.flatMap (fun c => if c = d.quotechar then [c, c] else [c])

/-- A field between quotes. -/
def quote (s : List C) : List C := d.quotechar :: (d.doubleQuotes s ++ [d.quotechar])

/-- `QUOTE_MINIMAL`: a field is quoted if it has a special character. -/
def writeField (s : List C) : List C := if ∃ c ∈ s, d.IsSpecial c then d.quote s else s

/-- `writer.writerow`.  A record of one empty field is quoted, or it would read as no field. -/
def writeRow (fields : List (List C)) : List C :=
  let record := [d.delimiter].intercalate (fields.map d.writeField)
  (if fields ≠ [] ∧ record = [] then d.quote [] else record) ++ [d.cr, d.lf]

/-- `writer.writerows`. -/
def writeRows (rows : List (List (List C))) : List C := rows.flatMap d.writeRow

/-! ## Reading -/

/-- The lines of a text.  Each keeps its line end: a line feed, a carriage return or both. -/
def lines : List C → List (List C)
  | [] => []
  | [c] => [[c]]
  | c :: c' :: s =>
      if c = d.cr ∧ c' = d.lf then [c, c'] :: lines s
      else if d.IsNewline c then [c] :: lines (c' :: s)
      else
        match lines (c' :: s) with
        | [] => [[c]]
        | l :: ls => (c :: l) :: ls

end Dialect

/-- Where in a record the reader is: the states of the parser of the `csv` module. -/
inductive Phase where
  | startRecord
  | startField
  | inField
  | inQuotedField
  | quoteInQuotedField
  | eatCrnl
  deriving DecidableEq, Repr

/-- Why the reader fails: a field is too long, or a line goes on after its end. -/
inductive Error where
  | fieldLimit
  | newline
  deriving DecidableEq, Repr

/-- The reader within a record. -/
structure Parser (C : Type*) where
  phase : Phase := .startRecord
  field : List C := []
  fields : List (List C) := []

/-- `parse_save_field`: the field is complete. -/
def Parser.saveField (p : Parser C) (phase : Phase) : Parser C where
  phase := phase
  field := []
  fields := p.fields ++ [p.field]

namespace Dialect

variable [DecidableEq C] (d : Dialect C)

/-- `parse_add_char`. -/
def addChar (p : Parser C) (phase : Phase) (c : C) : Except Error (Parser C) :=
  if d.fieldLimit ≤ p.field.length then .error .fieldLimit
  else .ok { p with phase := phase, field := p.field ++ [c] }

/-- The first character of a field. -/
def startField (p : Parser C) (c : C) : Except Error (Parser C) :=
  if c = d.quotechar then .ok { p with phase := .inQuotedField }
  else if c = d.delimiter then .ok (p.saveField .startField)
  else d.addChar p .inField c

/-- `parse_process_char`; after the characters of a line it gets `none`. -/
def processChar (p : Parser C) (c : Option C) : Except Error (Parser C) :=
  match p.phase, c with
  | .startRecord, none => .ok p
  | .startRecord, some c =>
      if d.IsNewline c then .ok { p with phase := .eatCrnl } else d.startField p c
  | .startField, none => .ok (p.saveField .startRecord)
  | .startField, some c =>
      if d.IsNewline c then .ok (p.saveField .eatCrnl) else d.startField p c
  | .inField, none => .ok (p.saveField .startRecord)
  | .inField, some c =>
      if d.IsNewline c then .ok (p.saveField .eatCrnl)
      else if c = d.delimiter then .ok (p.saveField .startField)
      else d.addChar p .inField c
  | .inQuotedField, none => .ok p
  | .inQuotedField, some c =>
      if c = d.quotechar then .ok { p with phase := .quoteInQuotedField }
      else d.addChar p .inQuotedField c
  | .quoteInQuotedField, none => .ok (p.saveField .startRecord)
  | .quoteInQuotedField, some c =>
      if c = d.quotechar then d.addChar p .inQuotedField c
      else if c = d.delimiter then .ok (p.saveField .startField)
      else if d.IsNewline c then .ok (p.saveField .eatCrnl)
      else d.addChar p .inField c
  | .eatCrnl, none => .ok { p with phase := .startRecord }
  | .eatCrnl, some c => if d.IsNewline c then .ok p else .error .newline

/-- The characters of a line. -/
def feed (p : Parser C) : List C → Except Error (Parser C)
  | [] => d.processChar p none
  | c :: line => (d.processChar p (some c)).bind (fun p => feed p line)

/-- What `reader` yields from the remaining lines.  A record ends with the line after which a new
one can start; at the end of the text an open field is saved. -/
def records (p : Parser C) : List (List C) → Except Error (List (List (List C)))
  | [] => .ok (if p.field ≠ [] ∨ p.phase = .inQuotedField then
      [(p.saveField .startRecord).fields] else [])
  | line :: lines => (d.feed p line).bind (fun p =>
      if p.phase = .startRecord then (records {} lines).map (p.fields :: ·)
      else records p lines)

/-- `list(csv.reader(f))`. -/
def read (text : List C) : Except Error (List (List (List C))) := d.records {} (d.lines text)

/-! ## One character -/

theorem lines_ne_nil {s : List C} (hs : s ≠ []) : d.lines s ≠ [] := by
  match s with
  | [] => exact absurd rfl hs
  | [c] => simp [lines]
  | c :: c' :: s =>
      rw [lines]
      split_ifs
      · exact List.cons_ne_nil _ _
      · exact List.cons_ne_nil _ _
      · split <;> exact List.cons_ne_nil _ _

theorem lines_cons_of_not_isNewline {c : C} (hc : ¬ d.IsNewline c) {s l : List C}
    {ls : List (List C)} (hs : d.lines s = l :: ls) : d.lines (c :: s) = (c :: l) :: ls := by
  match s with
  | [] => simp [lines] at hs
  | c' :: s =>
      have hcr : ¬ (c = d.cr ∧ c' = d.lf) := fun h => hc (Or.inr h.1)
      rw [lines, if_neg hcr, if_neg hc, hs]

theorem lines_lf (s : List C) : d.lines (d.lf :: s) = [d.lf] :: d.lines s := by
  match s with
  | [] => rfl
  | c :: s =>
      have hcr : ¬ (d.lf = d.cr ∧ c = d.lf) := fun h => d.lf_ne_cr h.1
      rw [lines, if_neg hcr, if_pos d.isNewline_lf]

theorem lines_cr_lf (s : List C) : d.lines (d.cr :: d.lf :: s) = [d.cr, d.lf] :: d.lines s := by
  rw [lines, if_pos ⟨rfl, rfl⟩]

/-- The characters of a line are processed one after the other. -/
theorem records_cons_cons (p : Parser C) (c : C) (l : List C) (ls : List (List C)) :
    d.records p ((c :: l) :: ls)
      = (d.processChar p (some c)).bind (fun p => d.records p (l :: ls)) := by
  show (Except.bind (d.processChar p (some c)) _).bind _ = _
  cases d.processChar p (some c) <;> rfl

/-- A character that is no line end. -/
theorem records_lines_cons {c : C} (hc : ¬ d.IsNewline c) (p : Parser C) {s : List C}
    (hs : s ≠ []) :
    d.records p (d.lines (c :: s))
      = (d.processChar p (some c)).bind (fun p => d.records p (d.lines s)) := by
  obtain ⟨l, ls, hls⟩ := List.exists_cons_of_ne_nil (d.lines_ne_nil hs)
  rw [d.lines_cons_of_not_isNewline hc hls, records_cons_cons, hls]

/-- Within quotes every character but a quote is part of the field. -/
theorem processChar_inQuotedField {p : Parser C} (hp : p.phase = .inQuotedField) {c : C}
    (hc : c ≠ d.quotechar) : d.processChar p (some c) = d.addChar p .inQuotedField c := by
  unfold processChar
  simp only [hp, if_neg hc]

/-- Within quotes the end of a line is not the end of the record. -/
theorem records_nil_cons {p : Parser C} (hp : p.phase = .inQuotedField) (ls : List (List C)) :
    d.records p ([] :: ls) = d.records p ls := by
  have hend : d.feed p [] = .ok p := by
    unfold feed processChar
    simp only [hp]
  have hphase : p.phase ≠ .startRecord := by
    rw [hp]
    decide
  rw [records, hend]
  exact if_neg hphase

omit [DecidableEq C] in
/-- A step that adds a character can be followed by one that depends on the phase. -/
theorem addChar_bind_congr {α : Type*} {p : Parser C} {phase : Phase} {c : C}
    {f g : Parser C → Except Error α} (h : ∀ p, p.phase = phase → f p = g p) :
    (d.addChar p phase c).bind f = (d.addChar p phase c).bind g := by
  unfold addChar
  split_ifs
  · rfl
  · exact h _ rfl

/-- A line end within quotes is a character like others. -/
theorem records_lines_newline {c : C} (hc : d.IsNewline c) {p : Parser C}
    (hp : p.phase = .inQuotedField) (s : List C) :
    d.records p (d.lines (c :: s))
      = (d.processChar p (some c)).bind (fun p => d.records p (d.lines s)) := by
  have hquote : c ≠ d.quotechar := fun h => d.not_isNewline_quotechar (h ▸ hc)
  have hone : ∀ ls, d.records p ([c] :: ls)
      = (d.processChar p (some c)).bind (fun p => d.records p ls) := by
    intro ls
    rw [records_cons_cons, d.processChar_inQuotedField hp hquote]
    exact d.addChar_bind_congr (fun p hp => d.records_nil_cons hp ls)
  match s with
  | [] => exact hone []
  | c' :: s =>
      by_cases hcrlf : c = d.cr ∧ c' = d.lf
      · -- both characters stand on the line, but nothing happens between two lines
        obtain ⟨rfl, rfl⟩ := hcrlf
        rw [lines_cr_lf, lines_lf, records_cons_cons]
      · rw [lines, if_neg hcrlf, if_pos hc]
        exact hone _

/-! ## Reading what has been written -/

/-- `t` takes the parser from `p` to `p'`, whatever follows. -/
def Reads (p : Parser C) (t : List C) (p' : Parser C) : Prop :=
  ∀ s, s ≠ [] → d.records p (d.lines (t ++ s)) = d.records p' (d.lines s)

theorem Reads.refl (p : Parser C) : d.Reads p [] p := fun _ _ => rfl

variable {d} in
theorem Reads.append {p p' p'' : Parser C} {t t' : List C} (h : d.Reads p t p')
    (h' : d.Reads p' t' p'') : d.Reads p (t ++ t') p'' := by
  intro s hs
  rw [List.append_assoc, h _ (List.append_ne_nil_of_right_ne_nil t' hs), h' s hs]

/-- One character outside quotes. -/
theorem reads_singleton {p p' : Parser C} {c : C} (hc : ¬ d.IsNewline c)
    (h : d.processChar p (some c) = .ok p') : d.Reads p [c] p' := by
  intro s hs
  rw [List.singleton_append, d.records_lines_cons hc p hs, h]
  rfl

/-- One character within quotes. -/
theorem reads_quoted {p : Parser C} {c : C} (hp : p.phase = .inQuotedField)
    (hc : c ≠ d.quotechar) (hlimit : p.field.length < d.fieldLimit) :
    d.Reads p [c] { p with field := p.field ++ [c] } := by
  intro s hs
  have hchar : d.processChar p (some c) = .ok { p with field := p.field ++ [c] } := by
    rw [d.processChar_inQuotedField hp hc, addChar, if_neg (Nat.not_le.mpr hlimit), hp]
  rw [List.singleton_append]
  by_cases hnewline : d.IsNewline c
  · rw [d.records_lines_newline hnewline hp, hchar]
    rfl
  · rw [d.records_lines_cons hnewline p hs, hchar]
    rfl

/-- Two quotes within quotes are one. -/
theorem reads_quotechar {p : Parser C} (hp : p.phase = .inQuotedField)
    (hlimit : p.field.length < d.fieldLimit) :
    d.Reads p [d.quotechar, d.quotechar] { p with field := p.field ++ [d.quotechar] } := by
  have hfirst : d.processChar p (some d.quotechar)
      = .ok { p with phase := .quoteInQuotedField } := by
    unfold processChar
    simp only [hp, if_true]
  refine Reads.append (d.reads_singleton d.not_isNewline_quotechar hfirst)
    (d.reads_singleton d.not_isNewline_quotechar ?_)
  unfold processChar addChar
  simp only [if_true, if_neg (Nat.not_le.mpr hlimit), hp]

theorem reads_doubleQuotes {p : Parser C} (hp : p.phase = .inQuotedField) {s : List C}
    (hlimit : p.field.length + s.length ≤ d.fieldLimit) :
    d.Reads p (d.doubleQuotes s) { p with field := p.field ++ s } := by
  induction s generalizing p with
  | nil =>
      rw [List.append_nil]
      exact Reads.refl d p
  | cons c s ih =>
      rw [List.length_cons] at hlimit
      have hstep : d.Reads p (if c = d.quotechar then [c, c] else [c])
          { p with field := p.field ++ [c] } := by
        split_ifs with hc
        · rw [hc]
          exact d.reads_quotechar hp (by omega)
        · exact d.reads_quoted hp hc (by omega)
      have hrest := ih (p := { p with field := p.field ++ [c] }) hp (by
        rw [List.length_append, List.length_singleton]
        omega)
      rw [List.append_assoc, List.singleton_append] at hrest
      exact hstep.append hrest

/-- An unquoted field. -/
theorem reads_plain {p : Parser C} (hp : p.phase = .inField) {s : List C}
    (hs : ∀ c ∈ s, ¬ d.IsSpecial c) (hlimit : p.field.length + s.length ≤ d.fieldLimit) :
    d.Reads p s { p with field := p.field ++ s } := by
  induction s generalizing p with
  | nil =>
      rw [List.append_nil]
      exact Reads.refl d p
  | cons c s ih =>
      rw [List.length_cons] at hlimit
      have hc := hs c List.mem_cons_self
      unfold IsSpecial at hc
      push Not at hc
      have hstep : d.Reads p [c] { p with field := p.field ++ [c] } := by
        refine d.reads_singleton hc.2.2 ?_
        unfold processChar addChar
        simp only [hp, if_neg hc.2.2, if_neg hc.1, if_neg (by omega : ¬ d.fieldLimit ≤ p.field.length)]
      have hrest := ih (p := { p with field := p.field ++ [c] }) hp
        (fun c hc => hs c (List.mem_cons_of_mem _ hc)) (by
          rw [List.length_append, List.length_singleton]
          omega)
      rw [List.append_assoc, List.singleton_append] at hrest
      exact hstep.append hrest

/-- Before a field. -/
structure AtField (p : Parser C) : Prop where
  phase : p.phase = .startRecord ∨ p.phase = .startField
  field : p.field = []

/-- After a field that has not been saved yet. -/
structure AfterField (p : Parser C) (s : List C) (p' : Parser C) : Prop where
  field : p'.field = s
  fields : p'.fields = p.fields
  phase : p'.phase = .inField ∨ p'.phase = .quoteInQuotedField ∨ (s = [] ∧ p' = p)

omit [DecidableEq C] in
theorem AfterField.ne_startRecord {p p' : Parser C} {s : List C} (h : AfterField p s p')
    (hp : p.phase = .startRecord → s ≠ []) : p'.phase ≠ .startRecord := by
  intro hstart
  obtain hphase | hphase | ⟨hs, rfl⟩ := h.phase
  · rw [hphase] at hstart
    cases hstart
  · rw [hphase] at hstart
    cases hstart
  · exact hp hstart hs

theorem processChar_of_atField {p : Parser C} (hp : AtField p) {c : C} (hc : ¬ d.IsNewline c) :
    d.processChar p (some c) = d.startField p c := by
  unfold processChar
  obtain hphase | hphase := hp.phase <;> simp only [hphase, if_neg hc]

/-- A quoted field: the opening quote, the text with its quotes doubled, the closing quote. -/
theorem reads_quote {phase : Phase} (hphase : phase = .startRecord ∨ phase = .startField)
    {s : List C} (hlimit : s.length ≤ d.fieldLimit) (fields : List (List C)) :
    d.Reads ⟨phase, [], fields⟩ (d.quote s) ⟨.quoteInQuotedField, s, fields⟩ := by
  have hopen : d.Reads ⟨phase, [], fields⟩ [d.quotechar] ⟨.inQuotedField, [], fields⟩ := by
    refine d.reads_singleton d.not_isNewline_quotechar ?_
    rw [d.processChar_of_atField ⟨hphase, rfl⟩ d.not_isNewline_quotechar, startField, if_pos rfl]
  have htext := d.reads_doubleQuotes (p := ⟨.inQuotedField, [], fields⟩) rfl (s := s) (by
    rw [List.length_nil, Nat.zero_add]
    exact hlimit)
  have hclose : d.Reads ⟨.inQuotedField, s, fields⟩ [d.quotechar]
      ⟨.quoteInQuotedField, s, fields⟩ := by
    refine d.reads_singleton d.not_isNewline_quotechar ?_
    unfold processChar
    simp only [if_true]
  exact hopen.append (htext.append hclose)

/-- **A field is read as it was written.** -/
theorem reads_writeField {p : Parser C} (hp : AtField p) {s : List C}
    (hlimit : s.length ≤ d.fieldLimit) :
    ∃ p', d.Reads p (d.writeField s) p' ∧ AfterField p s p' := by
  obtain ⟨phase, field, fields⟩ := p
  obtain rfl : field = [] := hp.field
  unfold writeField
  split_ifs with hspecial
  · exact ⟨_, d.reads_quote hp.phase hlimit _, rfl, rfl, Or.inr (Or.inl rfl)⟩
  · push Not at hspecial
    match s with
    | [] => exact ⟨_, Reads.refl d _, rfl, rfl, Or.inr (Or.inr ⟨rfl, rfl⟩)⟩
    | c :: s =>
        have hc := hspecial c List.mem_cons_self
        unfold IsSpecial at hc
        push Not at hc
        rw [List.length_cons] at hlimit
        have hfirst : d.Reads ⟨phase, [], fields⟩ [c] ⟨.inField, [c], fields⟩ := by
          refine d.reads_singleton hc.2.2 ?_
          have hroom : ¬ d.fieldLimit ≤ 0 := by omega
          rw [d.processChar_of_atField hp hc.2.2, startField, if_neg hc.2.1, if_neg hc.1, addChar,
            List.length_nil, if_neg hroom, List.nil_append]
        have hrest := d.reads_plain (p := ⟨.inField, [c], fields⟩) rfl (s := s)
          (fun c hc => hspecial c (List.mem_cons_of_mem _ hc)) (by
            rw [List.length_singleton]
            omega)
        exact ⟨_, hfirst.append hrest, rfl, rfl, Or.inl rfl⟩

/-- A delimiter saves the field. -/
theorem reads_delimiter {p p' : Parser C} (hp : AtField p) {s : List C} (h : AfterField p s p') :
    d.Reads p' [d.delimiter] ⟨.startField, [], p.fields ++ [s]⟩ := by
  have hquote := d.quotechar_ne_delimiter.symm
  have hnewline := d.not_isNewline_delimiter
  refine d.reads_singleton hnewline ?_
  rw [← h.fields, ← h.field]
  obtain hphase | hphase | ⟨-, rfl⟩ := h.phase
  · unfold processChar
    simp only [hphase, if_neg hnewline, if_true]
    rfl
  · unfold processChar
    simp only [hphase, if_neg hquote, if_true]
    rfl
  · rw [d.processChar_of_atField hp hnewline, startField, if_neg hquote, if_pos rfl]
    rfl

/-- A line end saves the field and ends the record. -/
theorem records_crlf {p p' : Parser C} (hp : AtField p) {s : List C} (h : AfterField p s p')
    (hstart : p'.phase ≠ .startRecord) (t : List C) :
    d.records p' (d.lines (d.cr :: d.lf :: t)) = (d.read t).map ((p.fields ++ [s]) :: ·) := by
  have hquote : d.cr ≠ d.quotechar := fun hcr => d.not_isNewline_quotechar (hcr ▸ d.isNewline_cr)
  have hdelimiter : d.cr ≠ d.delimiter :=
    fun hcr => d.not_isNewline_delimiter (hcr ▸ d.isNewline_cr)
  have hsave : d.processChar p' (some d.cr) = .ok ⟨.eatCrnl, [], p.fields ++ [s]⟩ := by
    rw [← h.fields, ← h.field]
    unfold processChar
    obtain hphase | hphase | ⟨-, rfl⟩ := h.phase
    · simp only [hphase, if_pos d.isNewline_cr]
      rfl
    · simp only [hphase, if_neg hquote, if_neg hdelimiter, if_pos d.isNewline_cr]
      rfl
    · simp only [hp.phase.resolve_left hstart, if_pos d.isNewline_cr]
      rfl
  have hline : d.feed p' [d.cr, d.lf] = .ok ⟨.startRecord, [], p.fields ++ [s]⟩ := by
    rw [feed, hsave]
    show d.feed _ [d.lf] = _
    simp [feed, processChar, Except.bind, d.isNewline_lf]
  rw [lines_cr_lf, records, hline]
  rfl

/-- **A record is read as it was written.** -/
theorem records_record {fields : List (List C)} (hfields : fields ≠ []) {p : Parser C}
    (hp : AtField p) (hstart : p.phase = .startRecord → fields ≠ [[]])
    (hlimit : ∀ field ∈ fields, field.length ≤ d.fieldLimit) (t : List C) :
    d.records p (d.lines ([d.delimiter].intercalate (fields.map d.writeField)
        ++ d.cr :: d.lf :: t))
      = (d.read t).map ((p.fields ++ fields) :: ·) := by
  induction fields generalizing p with
  | nil => exact absurd rfl hfields
  | cons s fields ih =>
      obtain ⟨p', hreads, hafter⟩ := d.reads_writeField hp (hlimit s List.mem_cons_self)
      cases fields with
      | nil =>
          rw [List.map_singleton, List.intercalate_singleton, hreads _ (List.cons_ne_nil _ _)]
          refine d.records_crlf hp hafter (hafter.ne_startRecord (fun hphase hs => ?_)) t
          exact hstart hphase (by rw [hs])
      | cons s' fields =>
          have hrest := ih (List.cons_ne_nil _ _) (p := ⟨.startField, [], p.fields ++ [s]⟩)
            ⟨Or.inr rfl, rfl⟩ (fun h => by cases h)
            (fun field hfield => hlimit field (List.mem_cons_of_mem _ hfield))
          rw [List.append_assoc, List.singleton_append] at hrest
          rw [List.map_cons, List.map_cons, List.intercalate_cons_cons, List.append_assoc,
            List.append_assoc, ← List.map_cons, ← hrest]
          have hsep := hreads.append (d.reads_delimiter hp hafter)
          rw [← List.append_assoc]
          exact hsep _ (List.append_ne_nil_of_right_ne_nil _ (List.cons_ne_nil _ _))

theorem writeField_eq_nil_iff (s : List C) : d.writeField s = [] ↔ s = [] := by
  unfold writeField
  constructor
  · intro h
    split_ifs at h
    · cases h
    · exact h
  · rintro rfl
    rw [if_neg (by simp)]

/-- Only a record of one empty field is written without any character. -/
theorem record_eq_nil_iff {fields : List (List C)} (hfields : fields ≠ []) :
    [d.delimiter].intercalate (fields.map d.writeField) = [] ↔ fields = [[]] := by
  match fields with
  | [] => exact absurd rfl hfields
  | [s] => simp [List.intercalate_singleton, writeField_eq_nil_iff]
  | s :: s' :: fields => simp [List.intercalate_cons_cons]

/-- **A row is read as it was written**, and the rows after it. -/
theorem read_writeRow_append {row : List (List C)}
    (hlimit : ∀ field ∈ row, field.length ≤ d.fieldLimit) (t : List C) :
    d.read (d.writeRow row ++ t) = (d.read t).map (row :: ·) := by
  unfold writeRow
  dsimp only
  rw [List.append_assoc]
  show d.records _ (d.lines (_ ++ d.cr :: d.lf :: t)) = _
  by_cases hnil : row = []
  · subst hnil
    have hline : d.feed {} [d.cr, d.lf] = .ok ⟨.startRecord, [], []⟩ := by
      simp [feed, processChar, Except.bind, d.isNewline_cr, d.isNewline_lf]
    rw [if_neg (fun h => h.1 rfl), List.map_nil, List.intercalate_nil, List.nil_append,
      lines_cr_lf, records, hline]
    rfl
  · by_cases hempty : row = [[]]
    · rw [if_pos ⟨hnil, (d.record_eq_nil_iff hnil).mpr hempty⟩, hempty,
        d.reads_quote (Or.inl rfl) (Nat.zero_le _) [] _ (List.cons_ne_nil _ _)]
      have hfield : AfterField ({} : Parser C) [] ⟨.quoteInQuotedField, [], []⟩ :=
        ⟨rfl, rfl, Or.inr (Or.inl rfl)⟩
      exact d.records_crlf ⟨Or.inl rfl, rfl⟩ hfield (fun h => by cases h) t
    · rw [if_neg (fun h => hempty ((d.record_eq_nil_iff hnil).mp h.2))]
      exact d.records_record hnil ⟨Or.inl rfl, rfl⟩ (fun _ => hempty) hlimit t

/-- **A table is read as it was written.** -/
theorem read_writeRows {rows : List (List (List C))}
    (hlimit : ∀ row ∈ rows, ∀ field ∈ row, field.length ≤ d.fieldLimit) :
    d.read (d.writeRows rows) = .ok rows := by
  induction rows with
  | nil => rfl
  | cons row rows ih =>
      rw [writeRows, List.flatMap_cons, d.read_writeRow_append (hlimit row List.mem_cons_self)]
      have hrest := ih (fun row hrow => hlimit row (List.mem_cons_of_mem _ hrow))
      rw [writeRows] at hrest
      rw [hrest]
      rfl

end Dialect

end Csv
