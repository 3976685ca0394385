/-
# A reader of words

What a value change dump means as a sequence of words: sections `$kw … $end`,
`#` marks, scalar changes in one word and vector changes in two.  `tokenRead` runs
over the words of a file and never looks at its lines; a section that declares
nothing, such as `$comment`, is skipped.

This is the reference against which the line reader `iterVcd` is compared.  On the
words of well-formed statements it performs the commands of the statements
(`tokenRead_statements`).
-/
import ThermalPlacement.VcdSyntax

open PyText

namespace Vcd

/-! ## The reference reader -/

/-- The keywords that stand alone. -/
def plainKeywords : List Str :=
  ["$dumpvars", "$dumpall", "$dumpon", "$dumpoff", "$end"].map String.toList

/-- The keywords of sections that declare nothing. -/
def textKeywords : List Str := ["$comment", "$date", "$version", "$timescale"].map String.toList

/-- What a complete section means. -/
def sectionCommand (kw : Str) (args : List Str) : Command :=
  if kw = "$scope".toList then
    match args with
    | [_, name] => .scope name
    | _ => .skip
  else if kw = "$upscope".toList then .upscope
  else if kw = "$var".toList then
    match args with
    | _ :: w :: code :: name :: range =>
        match int w with
        | some width => .var width code (name ++ range.flatten)
        | none => .skip
    | _ => .skip
  else if kw = "$enddefinitions".toList then .enddefinitions
  else .skip

/-- What the reader waits for. -/
inductive TokenMode where
  | command
  /-- The `$end` of a section. -/
  | sectionEnd (kw : Str) (args : List Str)
  /-- The code of a vector change. -/
  | code (value : Str)

/-- The reader of words: the variables of `iter_vcd`, and what it waits for. -/
structure TokenReader where
  state : Reader
  mode : TokenMode

namespace TokenReader

/-- One word. -/
def readToken (r : TokenReader) (t : Str) : TokenReader :=
  match r.mode with
  | .sectionEnd kw args =>
      if t = "$end".toList then ⟨r.state.exec (sectionCommand kw args), .command⟩
      else { r with mode := .sectionEnd kw (args ++ [t]) }
  | .code value => ⟨r.state.exec (.change value t), .command⟩
  | .command =>
      match t with
      | [] => r
      | c :: rest =>
          if c = '$' then
            if t ∈ plainKeywords then r else { r with mode := .sectionEnd t [] }
          else if c = '#' then ⟨r.state.exec (.time (int rest)), .command⟩
          else if c ∈ "01xzXZ".toList then ⟨r.state.exec (.change [c.toLower] rest), .command⟩
          else if c ∈ "bBrR".toList then { r with mode := .code (rest.map Char.toLower) }
          else r

/-- A sequence of words. -/
def readTokens (r : TokenReader) (ts : List Str) : TokenReader := ts.foldl readToken r

theorem readTokens_append (r : TokenReader) (ts us : List Str) :
    r.readTokens (ts ++ us) = (r.readTokens ts).readTokens us := List.foldl_append

end TokenReader

/-- The table, `time_steps` and `last_time` of a sequence of words. -/
def tokenRead (ts : List Str) : OrderedDict Str Signal × ℕ × ℤ :=
  (TokenReader.readTokens ⟨Reader.init, .command⟩ ts).state.result

/-! ## Well-formed statements -/

/-- Sections end at their own `$end`, values begin with the letters of the format,
and the other keywords are the ones the format has. -/
def Statement.WellFormed : Statement → Prop
  | .scope kind name => "$end".toList ∉ [kind, name]
  | .var kind _ code name range => "$end".toList ∉ kind :: code :: name :: range
  | .scalar value _ => value ∈ "01xzXZ".toList
  | .vector radix _ _ => radix ∈ "bBrR".toList
  | .keyword kw => kw ∈ plainKeywords
  | .text kw words => kw ∈ textKeywords ∧ "$end".toList ∉ words
  | .upscope | .enddefinitions | .time _ => True

namespace TokenReader

/-- The words of a section are collected up to its `$end`. -/
theorem readTokens_sectionEnd (s : Reader) (kw : Str) (args words : List Str)
    (h : "$end".toList ∉ words) :
    readTokens ⟨s, .sectionEnd kw args⟩ (words ++ ["$end".toList])
      = ⟨s.exec (sectionCommand kw (args ++ words)), .command⟩ := by
  induction words generalizing args with
  | nil => rw [List.append_nil]; rfl
  | cons w words ih =>
      have hw : w ≠ "$end".toList := fun e => h (e ▸ List.mem_cons_self)
      have hstep : readToken ⟨s, .sectionEnd kw args⟩ w = ⟨s, .sectionEnd kw (args ++ [w])⟩ := by
        unfold readToken
        dsimp only
        rw [if_neg hw]
      show readTokens (readToken ⟨s, .sectionEnd kw args⟩ w) (words ++ ["$end".toList]) = _
      rw [hstep, ih _ (fun e => h (List.mem_cons_of_mem _ e)), List.append_assoc]
      rfl

/-- A section is read as a whole. -/
theorem readTokens_section (s : Reader) {kw : Str} (hkw : kw.head? = some '$')
    (hplain : kw ∉ plainKeywords) {words : List Str} (h : "$end".toList ∉ words) :
    readTokens ⟨s, .command⟩ (kw :: (words ++ ["$end".toList]))
      = ⟨s.exec (sectionCommand kw words), .command⟩ := by
  have hstep : readToken ⟨s, .command⟩ kw = ⟨s, .sectionEnd kw []⟩ := by
    cases kw with
    | nil => cases hkw
    | cons c rest =>
        obtain rfl : c = '$' := Option.some.inj hkw
        unfold readToken
        dsimp only
        rw [if_pos rfl, if_neg hplain]
  show readTokens (readToken ⟨s, .command⟩ kw) (words ++ ["$end".toList]) = _
  rw [hstep, readTokens_sectionEnd s kw [] words h, List.nil_append]

/-- The words of a `$var` section before its `$end`. -/
theorem end_notMem_var {kind code name : Str} {width : Decimal} {range : List Str}
    (h : "$end".toList ∉ kind :: code :: name :: range) :
    "$end".toList ∉ kind :: width.digits :: code :: name :: range := by
  have hdigits : "$end".toList ≠ width.digits := by
    intro e
    have hall := width.isDigit
    rw [← e] at hall
    exact absurd hall (by decide)
  intro hmem
  rcases List.mem_cons.mp hmem with hkind | hmem
  · exact h (hkind ▸ List.mem_cons_self)
  · rcases List.mem_cons.mp hmem with hwidth | hmem
    · exact hdigits hwidth
    · exact h (List.mem_cons_of_mem _ hmem)

theorem sectionCommand_var (kind code name : Str) (width : Decimal) (range : List Str) :
    sectionCommand "$var".toList (kind :: width.digits :: code :: name :: range)
      = .var width.value code (name ++ range.flatten) := by
  unfold sectionCommand
  rw [if_neg (by decide), if_neg (by decide), if_pos rfl]
  dsimp only
  rw [int_digits]

theorem readToken_time (s : Reader) (t : Decimal) :
    readToken ⟨s, .command⟩ ('#' :: t.digits) = ⟨s.exec (.time (some t.value)), .command⟩ := by
  unfold readToken
  dsimp only
  rw [if_neg (by decide), if_pos rfl, int_digits]

theorem readToken_scalar (s : Reader) {c : Char} (hc : c ∈ "01xzXZ".toList) (code : Str) :
    readToken ⟨s, .command⟩ (c :: code) = ⟨s.exec (.change [c.toLower] code), .command⟩ := by
  unfold readToken
  dsimp only
  rw [if_neg (scalar_letter hc).1, if_neg (scalar_letter hc).2, if_pos hc]

theorem readToken_radix (s : Reader) {c : Char} (hc : c ∈ "bBrR".toList) (value : Str) :
    readToken ⟨s, .command⟩ (c :: value) = ⟨s, .code (value.map Char.toLower)⟩ := by
  obtain ⟨hdollar, hhash, hscalar⟩ := radix_letter hc
  unfold readToken
  dsimp only
  rw [if_neg hdollar, if_neg hhash, if_neg hscalar, if_pos hc]

theorem readToken_plain (s : Reader) {kw : Str} (hkw : kw ∈ plainKeywords) :
    readToken ⟨s, .command⟩ kw = ⟨s, .command⟩ := by
  have hhead : kw.head? = some '$' := by
    fin_cases hkw <;> rfl
  cases kw with
  | nil => cases hhead
  | cons c rest =>
      obtain rfl : c = '$' := Option.some.inj hhead
      unfold readToken
      dsimp only
      rw [if_pos rfl, if_pos hkw]

/-- **The words of a statement perform its command.** -/
theorem readTokens_statement (s : Reader) {st : Statement} (hst : st.WellFormed) :
    readTokens ⟨s, .command⟩ st.tokens = ⟨s.exec st.command, .command⟩ := by
  cases st with
  | scope kind name =>
      have hend : "$end".toList ∉ [kind, name] := hst
      exact readTokens_section s rfl (by decide) hend
  | upscope => exact readTokens_section s rfl (by decide) (List.not_mem_nil (a := "$end".toList))
  | var kind width code name range =>
      have hkw : "$var".toList ∉ plainKeywords := by decide
      have hread := readTokens_section s rfl hkw (@end_notMem_var kind code name width range hst)
      rw [sectionCommand_var] at hread
      exact hread
  | enddefinitions =>
      exact readTokens_section s rfl (by decide) (List.not_mem_nil (a := "$end".toList))
  | time t => exact readToken_time s t
  | scalar value code => exact readToken_scalar s hst code
  | vector radix value code =>
      show readToken (readToken ⟨s, .command⟩ (radix :: value)) code = _
      rw [readToken_radix s hst]
      rfl
  | keyword kw => exact readToken_plain s hst
  | text kw words =>
      -- no keyword of such a section declares anything
      have hkw : kw.head? = some '$' ∧ kw ∉ plainKeywords ∧ sectionCommand kw words = .skip := by
        have hmem : kw ∈ textKeywords := hst.1
        fin_cases hmem
        all_goals exact ⟨rfl, by decide, rfl⟩
      have hread := readTokens_section s hkw.1 hkw.2.1 hst.2
      rw [hkw.2.2] at hread
      exact hread

theorem readTokens_statements (s : Reader) {sts : List Statement}
    (h : ∀ st ∈ sts, st.WellFormed) :
    readTokens ⟨s, .command⟩ (sts.flatMap Statement.tokens)
      = ⟨s.execAll (sts.map Statement.command), .command⟩ := by
  induction sts generalizing s with
  | nil => rfl
  | cons st sts ih =>
      rw [List.flatMap_cons, readTokens_append, readTokens_statement s (h st List.mem_cons_self),
        ih _ (fun st' hst' => h st' (List.mem_cons_of_mem _ hst'))]
      rfl

end TokenReader

/-- **The reference reader on statements.** -/
theorem tokenRead_statements {sts : List Statement} (h : ∀ st ∈ sts, st.WellFormed) :
    tokenRead (sts.flatMap Statement.tokens)
      = (Reader.init.execAll (sts.map Statement.command)).result := by
  unfold tokenRead
  rw [TokenReader.readTokens_statements _ h]

/-- A section without declarations between two statements means nothing. -/
theorem tokenRead_insert_text {pre post : List Statement} {kw : Str} {words : List Str}
    (h : ∀ st ∈ pre ++ .text kw words :: post, st.WellFormed) :
    tokenRead ((pre ++ .text kw words :: post).flatMap Statement.tokens)
      = tokenRead ((pre ++ post).flatMap Statement.tokens) := by
  have hpost : ∀ st ∈ pre ++ post, st.WellFormed := by
    intro st hst
    refine h st ?_
    rcases List.mem_append.mp hst with hst | hst
    · exact List.mem_append_left _ hst
    · exact List.mem_append_right _ (List.mem_cons_of_mem _ hst)
  rw [tokenRead_statements h, tokenRead_statements hpost, List.map_append, List.map_append,
    Reader.execAll_append, Reader.execAll_append]
  rfl

end Vcd
