/-
# Lines against words

`iterVcd` decides by the first characters of a line, so it agrees with the reference
reader `tokenRead` only on texts whose commands stand on lines of their own.

`Layout lines statements` says that: every variable, time mark and value change has a
line to itself, every other command begins a line, and no line inside a section looks
like a command.  Then the line reader and the word reader agree
(`iterVcd_eq_tokenRead`), so the line breaks of such a text are immaterial and
comments may be inserted between its commands.
-/
import ThermalPlacement.TokenReader
import ThermalPlacement.HeaderForest

open PyText

namespace Vcd

/-! ## Lines that are not commands -/

/-- The keywords a header line is searched for. -/
def headerKeywords : List Str :=
  ["$scope", "$upscope", "$var", "$enddefinitions"].map String.toList

/-- The first word of the line begins with none of the header keywords. -/
def HeaderInert (line : Str) : Prop :=
  ∀ w ∈ (split line).head?, ∀ kw ∈ headerKeywords, ¬ kw <+: w

/-- The line is no `#` line and no value change of one of the codes. -/
def BodyInert (codes : List Str) (line : Str) : Prop :=
  match split line with
  | [] => True
  | w :: ws =>
      w.head? ≠ some '#' ∧
        (∀ c code, w = c :: code → c ∈ "01xzXZ".toList → ws = [] → code ∉ codes) ∧
        (∀ c value code, w = c :: value → c ∈ "bBrR".toList → ws = [code] → code ∉ codes)

theorem headerCommand_of_headerInert {line : Str} (h : HeaderInert line) :
    headerCommand (strip line) = .ok .skip := by
  cases hsplit : split line with
  | nil =>
      rw [(strip_eq_nil_iff line).mpr hsplit]
      rfl
  | cons w ws =>
      have hnot : ∀ kw ∈ headerKeywords, ¬ kw <+: w := h w (by rw [hsplit]; rfl)
      unfold headerCommand
      rw [if_neg ((prefix_strip_iff hsplit rfl).not.mpr (hnot _ (by decide))),
        if_neg ((prefix_strip_iff hsplit rfl).not.mpr (hnot _ (by decide))),
        if_neg ((prefix_strip_iff hsplit rfl).not.mpr (hnot _ (by decide))),
        if_neg ((prefix_strip_iff hsplit rfl).not.mpr (hnot _ (by decide)))]

/-- What an inert body line is parsed as, if anything, is a change of another code. -/
theorem bodyCommand_of_bodyInert {codes : List Str} (hcodes : ∀ code ∈ codes, IsWord code)
    {line : Str} (h : BodyInert codes line) :
    bodyCommand (strip line) = .skip ∨
      ∃ v code, bodyCommand (strip line) = .change v code ∧ code ∉ codes := by
  cases hsplit : split line with
  | nil =>
      rw [(strip_eq_nil_iff line).mpr hsplit]
      exact Or.inl rfl
  | cons w ws =>
      unfold BodyInert at h
      rw [hsplit] at h
      obtain ⟨hhash, hscalar, hvector⟩ := h
      obtain ⟨t, hstrip, ht, hspace⟩ := strip_eq_append_of_split hsplit
      have hw : IsWord w := isWord_of_mem_split (s := line) (by rw [hsplit]; simp)
      cases w with
      | nil => exact absurd rfl hw.1
      | cons c w =>
          have hline : split (c :: (w ++ t)) = (c :: w) :: ws := by
            rw [← List.cons_append, ← hstrip, split_strip, hsplit]
          have hc : c ≠ '#' := fun e => hhash (e ▸ rfl)
          rw [hstrip, List.cons_append]
          by_cases hscalar' : c ∈ "01xzXZ".toList
          · refine Or.inr ⟨_, w ++ t, bodyCommand_scalar hscalar' _, fun hmem => ?_⟩
            -- a second word would put white space into the code
            cases t with
            | nil =>
                rw [List.append_nil] at hmem
                exact hscalar c w rfl hscalar' (by rw [← ht]; rfl) hmem
            | cons d t =>
                have hd : isSpace d = true := hspace d rfl
                have hnd := (hcodes _ hmem).2 d (by simp)
                rw [hd] at hnd
                cases hnd
          · by_cases hradix : c ∈ "bBrR".toList
            · rw [bodyCommand_radix hradix, hline]
              match ws with
              | [] => exact Or.inl rfl
              | [code] => exact Or.inr ⟨_, code, rfl, hvector c w code rfl hradix rfl⟩
              | _ :: _ :: _ => exact Or.inl rfl
            · exact Or.inl (bodyCommand_other hc hscalar' hradix)

/-- A line whose first letter begins no body command is inert. -/
theorem bodyInert_of_head {codes : List Str} {line w : Str} {c : Char} {ws : List Str}
    (h : split line = (c :: w) :: ws) (hc : c ∉ "#01xzXZbBrR".toList) : BodyInert codes line := by
  unfold BodyInert
  rw [h]
  refine ⟨?_, ?_, ?_⟩
  · intro hhash
    obtain rfl : c = '#' := Option.some.inj hhash
    exact hc (by decide)
  · intro c' code heq hmem _
    obtain ⟨rfl, -⟩ := List.cons.inj heq
    exact absurd (List.mem_append_left "bBrR".toList (List.mem_cons_of_mem '#' hmem)) hc
  · intro c' value code heq hmem _
    obtain ⟨rfl, -⟩ := List.cons.inj heq
    exact absurd (List.mem_append_right "#01xzXZ".toList hmem) hc

/-! ## Layouts -/

/-- Sections without declarations and keywords that stand alone. -/
def Statement.IsInert : Statement → Prop
  | .keyword _ | .text _ _ => True
  | _ => False

/-- Commands that the reader takes from the beginning of a line. -/
def Statement.BeginsLine : Statement → Prop
  | .scope _ _ | .upscope | .enddefinitions => True
  | _ => False

/-- The words of `st` and of the inert statements after it, on one line and then on
the lines of a block. -/
structure Opens (st : Statement) (inert : List Statement) (line : Str) (block : List Str) :
    Prop where
  isInert : ∀ st' ∈ inert, st'.IsInert
  words : ∃ after, split line = st.tokens.dropLast ++ after ∧
    after ++ block.flatMap split = "$end".toList :: inert.flatMap Statement.tokens

/-- How a header is laid out. -/
inductive HeaderLayout : List Str → List Statement → Prop
  | nil : HeaderLayout [] []
  | var {kind : Str} {width : Decimal} {code name : Str} {range : List Str} {line : Str}
      {lines : List Str} {sts : List Statement}
      (hline : split line = (Statement.var kind width code name range).tokens)
      (h : HeaderLayout lines sts) :
      HeaderLayout (line :: lines) (.var kind width code name range :: sts)
  /-- A `$scope` or `$upscope` begins a line. -/
  | opening {st : Statement} {inert : List Statement} {line : Str} {block lines : List Str}
      {sts : List Statement} (hst : st.BeginsLine) (hdecl : st.IsDeclaration)
      (hopens : Opens st inert line block) (hblock : ∀ l ∈ block, HeaderInert l)
      (h : HeaderLayout lines sts) :
      HeaderLayout (line :: (block ++ lines)) (st :: (inert ++ sts))
  | inert {inert : List Statement} {block lines : List Str} {sts : List Statement}
      (hinert : ∀ st ∈ inert, st.IsInert)
      (hwords : block.flatMap split = inert.flatMap Statement.tokens)
      (hblock : ∀ l ∈ block, HeaderInert l) (h : HeaderLayout lines sts) :
      HeaderLayout (block ++ lines) (inert ++ sts)

/-- How a body is laid out under a header that declares `codes`. -/
inductive BodyLayout (codes : List Str) : List Str → List Statement → Prop
  | nil : BodyLayout codes [] []
  | command {st : Statement} {line : Str} {lines : List Str} {sts : List Statement}
      (hst : st.IsSimulation) (hline : split line = st.tokens) (h : BodyLayout codes lines sts) :
      BodyLayout codes (line :: lines) (st :: sts)
  | inert {inert : List Statement} {block lines : List Str} {sts : List Statement}
      (hinert : ∀ st ∈ inert, st.IsInert)
      (hwords : block.flatMap split = inert.flatMap Statement.tokens)
      (hblock : ∀ l ∈ block, BodyInert codes l) (h : BodyLayout codes lines sts) :
      BodyLayout codes (block ++ lines) (inert ++ sts)

/-- The code that a statement declares. -/
def Statement.declaredCode : Statement → Option Str
  | .var _ _ code _ _ => some code
  | _ => none

/-- The codes that a header declares. -/
def declaredCodes (header : List Statement) : List Str := header.filterMap Statement.declaredCode

/-- How a whole text is laid out: header, `$enddefinitions` at the beginning of a
line, body. -/
inductive Layout : List Str → List Statement → Prop
  | mk {H B block : List Str} {e : Str} {header inert body : List Statement}
      (hheader : HeaderLayout H header) (hopens : Opens .enddefinitions inert e block)
      (hblock : ∀ l ∈ block, BodyInert (declaredCodes header) l)
      (hbody : BodyLayout (declaredCodes header) B body) :
      Layout (H ++ e :: (block ++ B)) (header ++ .enddefinitions :: (inert ++ body))

/-! ## The words of a layout -/

theorem flatMap_split_of_opens {st : Statement} {inert : List Statement} {line : Str}
    {block : List Str} (hst : st.BeginsLine) (h : Opens st inert line block) :
    (line :: block).flatMap split = (st :: inert).flatMap Statement.tokens := by
  obtain ⟨-, after, hline, hafter⟩ := h
  have htokens : st.tokens = st.tokens.dropLast ++ ["$end".toList] := by
    cases st with
    | scope _ _ => rfl
    | upscope => rfl
    | enddefinitions => rfl
    | _ => exact hst.elim
  rw [List.flatMap_cons, List.flatMap_cons, hline, List.append_assoc, hafter, htokens,
    List.append_assoc, List.dropLast_concat]
  rfl

theorem flatMap_split_of_headerLayout {lines : List Str} {sts : List Statement}
    (h : HeaderLayout lines sts) : lines.flatMap split = sts.flatMap Statement.tokens := by
  induction h with
  | nil => rfl
  | var hline _ ih => rw [List.flatMap_cons, hline, ih, List.flatMap_cons]
  | opening hst _ hopens _ _ ih =>
      rw [← List.cons_append, List.flatMap_append, flatMap_split_of_opens hst hopens, ih,
        ← List.flatMap_append]
      rfl
  | inert _ hwords _ _ ih => rw [List.flatMap_append, hwords, ih, List.flatMap_append]

theorem flatMap_split_of_bodyLayout {codes lines : List Str} {sts : List Statement}
    (h : BodyLayout codes lines sts) : lines.flatMap split = sts.flatMap Statement.tokens := by
  induction h with
  | nil => rfl
  | command _ hline _ ih => rw [List.flatMap_cons, hline, ih, List.flatMap_cons]
  | inert _ hwords _ _ ih => rw [List.flatMap_append, hwords, ih, List.flatMap_append]

/-- A layout has the words of its statements. -/
theorem flatMap_split_of_layout {lines : List Str} {sts : List Statement} (h : Layout lines sts) :
    lines.flatMap split = sts.flatMap Statement.tokens := by
  obtain ⟨hheader, hopens, -, hbody⟩ := h
  have hend : Statement.BeginsLine .enddefinitions := trivial
  rw [List.flatMap_append, ← List.cons_append, List.flatMap_append,
    flatMap_split_of_headerLayout hheader, flatMap_split_of_opens hend hopens,
    flatMap_split_of_bodyLayout hbody, ← List.flatMap_append, ← List.flatMap_append]
  rfl

/-! ## The line reader on a layout -/

theorem headerCommand_of_opens {st : Statement} {inert : List Statement} {line : Str}
    {block : List Str} (hst : st.BeginsLine) (h : Opens st inert line block) :
    headerCommand (strip line) = .ok st.command := by
  obtain ⟨-, after, hline, -⟩ := h
  cases st with
  | scope kind name => exact headerCommand_scope hline
  | upscope => exact headerCommand_upscope hline
  | enddefinitions => exact headerCommand_enddefinitions hline
  | _ => exact hst.elim

namespace Reader

theorem execAll_inert (s : Reader) {inert : List Statement} (h : ∀ st ∈ inert, st.IsInert) :
    s.execAll (inert.map Statement.command) = s := by
  induction inert with
  | nil => rfl
  | cons st inert ih =>
      have hskip : st.command = .skip := by
        have hst := h st List.mem_cons_self
        cases st with
        | keyword _ => rfl
        | text _ _ => rfl
        | _ => exact hst.elim
      rw [List.map_cons, hskip]
      exact ih (fun st' hst' => h st' (List.mem_cons_of_mem _ hst'))

/-- Inert lines of a header leave the reader alone. -/
theorem readLines_headerInert {s : Reader} (hs : s.inHeader = true) {block : List Str}
    (h : ∀ l ∈ block, HeaderInert l) : s.readLines block = .ok s := by
  induction block with
  | nil => rfl
  | cons l block ih =>
      rw [readLines_cons, readLine_header hs, headerCommand_of_headerInert (h l List.mem_cons_self)]
      exact ih (fun l' hl' => h l' (List.mem_cons_of_mem _ hl'))

/-- **The header.**  The lines of a laid-out header perform its statements. -/
theorem readLines_headerLayout {s : Reader} (hs : s.inHeader = true) {lines : List Str}
    {sts : List Statement} (h : HeaderLayout lines sts) :
    s.readLines lines = .ok (s.execAll (sts.map Statement.command)) := by
  -- one declaration keeps the reader in the header
  have hstays : ∀ (s : Reader) (st : Statement), s.inHeader = true → st.IsDeclaration →
      (s.exec st.command).inHeader = true := by
    intro s st hs hst
    exact (inHeader_execAll_header s [st.command] (by simpa using inHeader_command hst)).trans hs
  induction h generalizing s with
  | nil => rfl
  | @var kind width code name range line lines sts hline _ ih =>
      have hdecl : (Statement.var kind width code name range).IsDeclaration := trivial
      rw [readLines_cons, readLine_header hs, headerCommand_of_split hdecl hline]
      exact ih (hstays s _ hs hdecl)
  | @opening st inert line block lines sts hst hdecl hopens hblock _ ih =>
      have hs' := hstays s st hs hdecl
      rw [readLines_cons, readLine_header hs, headerCommand_of_opens hst hopens]
      show (s.exec st.command).readLines (block ++ lines) = _
      rw [readLines_append, readLines_headerInert hs' hblock]
      show (s.exec st.command).readLines lines = _
      rw [ih hs', List.map_cons, List.map_append, execAll_cons, execAll_append,
        execAll_inert _ hopens.isInert]
  | inert hinert _ hblock _ ih =>
      rw [readLines_append, readLines_headerInert hs hblock]
      show s.readLines _ = _
      rw [ih hs, List.map_append, execAll_append, execAll_inert _ hinert]

theorem keys_exec_body (s : Reader) {c : Command} (hc : c.InBody) :
    (s.exec c).signals.keys = s.signals.keys := by
  have h := signals_execAll_body s [c] (by simpa using hc)
  rw [execAll_cons, execAll_nil] at h
  rw [h, OrderedDict.keys_mapVals]

/-- Inert lines of a body leave the reader alone. -/
theorem execAll_bodyInert {codes : List Str} (hcodes : ∀ code ∈ codes, IsWord code) (s : Reader)
    (hkeys : ∀ code ∈ s.signals.keys, code ∈ codes) {block : List Str}
    (h : ∀ l ∈ block, BodyInert codes l) : s.execAll (bodyCommands block) = s := by
  induction block with
  | nil => rfl
  | cons l block ih =>
      have hline : s.exec (bodyCommand (strip l)) = s := by
        rcases bodyCommand_of_bodyInert hcodes (h l List.mem_cons_self) with
          hskip | ⟨v, code, hchange, hcode⟩
        · rw [hskip]
          rfl
        · have hnone : s.signals.get? code = none :=
            (OrderedDict.get?_eq_none_iff _ _).mpr (fun hmem => hcode (hkeys code hmem))
          rw [hchange]
          unfold exec
          dsimp only
          rw [hnone]
      show (s.exec (bodyCommand (strip l))).execAll (bodyCommands block) = s
      rw [hline]
      exact ih (fun l' hl' => h l' (List.mem_cons_of_mem _ hl'))

/-- **The body.**  The lines of a laid-out body perform its statements. -/
theorem execAll_bodyLayout {codes : List Str} (hcodes : ∀ code ∈ codes, IsWord code) (s : Reader)
    (hkeys : ∀ code ∈ s.signals.keys, code ∈ codes) {lines : List Str} {sts : List Statement}
    (h : BodyLayout codes lines sts) :
    s.execAll (bodyCommands lines) = s.execAll (sts.map Statement.command) := by
  induction h generalizing s with
  | nil => rfl
  | @command st line lines sts hst hline _ ih =>
      have hbody : bodyCommand (strip line) = st.command := bodyCommand_of_split hst hline
      show (s.exec (bodyCommand (strip line))).execAll (bodyCommands lines) = _
      have hkeys' := keys_exec_body s (inBody_bodyCommand (strip line))
      rw [ih _ (fun code hcode => hkeys code (hkeys' ▸ hcode)), hbody]
      rfl
  | inert hinert _ hblock _ ih =>
      show s.execAll (List.map _ (_ ++ _)) = _
      rw [List.map_append, execAll_append]
      show (s.execAll (bodyCommands _)).execAll (bodyCommands _) = _
      rw [execAll_bodyInert hcodes s hkeys hblock, ih s hkeys, List.map_append, execAll_append,
        execAll_inert _ hinert]

end Reader

/-! ## Declared codes -/

theorem code_declarations (scopes : List Str) (header : List Statement) :
    (declarations scopes (header.map Statement.command)).map Declaration.code
      = declaredCodes header := by
  induction header generalizing scopes with
  | nil => rfl
  | cons st header ih =>
      cases st with
      | scope kind name => exact ih (scopes ++ [name])
      | upscope => exact ih scopes.dropLast
      | var kind width code name range => exact congrArg (code :: ·) (ih scopes)
      | _ => exact ih scopes

theorem mem_tokens_of_declaredCode {st : Statement} {code : Str} (h : st.declaredCode = some code) :
    code ∈ st.tokens := by
  cases st with
  | var kind width code' name range =>
      obtain rfl := Option.some.inj h
      simp [Statement.tokens]
  | _ => cases h

theorem isWord_declaredCodes {lines : List Str} {sts : List Statement}
    (h : HeaderLayout lines sts) : ∀ code ∈ declaredCodes sts, IsWord code := by
  intro code hcode
  rcases List.mem_filterMap.mp hcode with ⟨st, hst, hst'⟩
  have hmem : code ∈ sts.flatMap Statement.tokens :=
    List.mem_flatMap.mpr ⟨st, hst, mem_tokens_of_declaredCode hst'⟩
  rw [← flatMap_split_of_headerLayout h] at hmem
  rcases List.mem_flatMap.mp hmem with ⟨line, -, hline⟩
  exact isWord_of_mem_split hline

theorem inHeader_command_of_isInert {st : Statement} (h : st.IsInert) : st.command.InHeader := by
  cases st with
  | keyword _ => trivial
  | text _ _ => trivial
  | _ => exact h.elim

theorem inHeader_headerLayout {lines : List Str} {sts : List Statement}
    (h : HeaderLayout lines sts) : ∀ c ∈ sts.map Statement.command, c.InHeader := by
  have hstatement : ∀ st ∈ sts, st.IsDeclaration ∨ st.IsInert := by
    induction h with
    | nil => exact fun st hst => absurd hst List.not_mem_nil
    | var _ _ ih =>
        intro st hst
        rcases List.mem_cons.mp hst with rfl | hst
        · exact Or.inl trivial
        · exact ih st hst
    | opening _ hdecl hopens _ _ ih =>
        intro st hst
        rcases List.mem_cons.mp hst with rfl | hst
        · exact Or.inl hdecl
        · rcases List.mem_append.mp hst with hst | hst
          · exact Or.inr (hopens.isInert st hst)
          · exact ih st hst
    | inert hinert _ _ _ ih =>
        intro st hst
        rcases List.mem_append.mp hst with hst | hst
        · exact Or.inr (hinert st hst)
        · exact ih st hst
  intro c hc
  rcases List.mem_map.mp hc with ⟨st, hst, rfl⟩
  rcases hstatement st hst with hdecl | hinert
  · exact inHeader_command hdecl
  · exact inHeader_command_of_isInert hinert

/-! ## The line reader is the word reader -/

/-- A text of well-formed statements, laid out for a line reader. -/
structure LaidOut (file : List UInt8) (sts : List Statement) : Prop where
  layout : Layout (rawLines file) sts
  wellFormed : ∀ st ∈ sts, st.WellFormed

theorem LaidOut.fileTokens_eq {file : List UInt8} {sts : List Statement} (h : LaidOut file sts) :
    fileTokens file = sts.flatMap Statement.tokens := by
  rw [PyText.fileTokens_eq, flatMap_split_of_layout h.layout]

/-- The reader on a laid-out text performs its statements. -/
theorem iterVcd_of_layout {file : List UInt8} {sts : List Statement}
    (h : Layout (rawLines file) sts) :
    iterVcd file = .ok (Reader.init.execAll (sts.map Statement.command)).result := by
  generalize hlines : rawLines file = lines at h
  obtain @⟨H, B, block, e, header, inert, body, hheader, hopens, hblock, hbody⟩ := h
  -- the reader before and after the `$enddefinitions` line
  set s₁ := Reader.init.execAll (header.map Statement.command) with hs₁
  set s₂ := s₁.exec .enddefinitions with hs₂
  have hin : s₁.inHeader = true :=
    Reader.inHeader_execAll_header _ _ (inHeader_headerLayout hheader)
  have hcodes := isWord_declaredCodes hheader
  have hkeys : ∀ code ∈ s₂.signals.keys, code ∈ declaredCodes header := by
    intro code hcode
    have hsignals : s₂.signals = declaredTable (header.map Statement.command) :=
      Reader.signals_execAll_header _ _ (inHeader_headerLayout hheader)
    rw [hsignals, keys_declaredTable, List.mem_eraseDups, code_declarations] at hcode
    exact hcode
  have hend : Statement.BeginsLine .enddefinitions := trivial
  unfold iterVcd
  rw [hlines, Reader.readLines_append, Reader.readLines_headerLayout rfl hheader, ← hs₁]
  show (s₁.readLines (e :: (block ++ B))).map Reader.result = _
  rw [Reader.readLines_cons, Reader.readLine_header hin, headerCommand_of_opens hend hopens]
  show (s₂.readLines (block ++ B)).map Reader.result = _
  rw [Reader.readLines_body rfl]
  show Except.ok (Reader.result (s₂.execAll (List.map _ (block ++ B)))) = _
  rw [List.map_append, Reader.execAll_append]
  show Except.ok (Reader.result ((s₂.execAll (bodyCommands block)).execAll (bodyCommands B))) = _
  rw [Reader.execAll_bodyInert hcodes s₂ hkeys hblock,
    Reader.execAll_bodyLayout hcodes s₂ hkeys hbody, List.map_append, Reader.execAll_append,
    List.map_cons, Reader.execAll_cons, List.map_append, Reader.execAll_append]
  show _ = Except.ok (Reader.result ((s₂.execAll (inert.map Statement.command)).execAll _))
  rw [Reader.execAll_inert _ hopens.isInert]

/-- **Lines against words.**  On a laid-out text the line reader returns what the
reference reader returns on its words.  Hence two laid-out texts with the same words
read alike, and so do a laid-out text and the same text with a comment between two of
its statements. -/
theorem iterVcd_eq_tokenRead (file file' : List UInt8) (sts sts' : List Statement)
    (h : LaidOut file sts) (h' : LaidOut file' sts') :
    iterVcd file = .ok (tokenRead (fileTokens file)) ∧
      (fileTokens file = fileTokens file' → iterVcd file = iterVcd file') ∧
      (∀ pre post words, sts = pre ++ post → sts' = pre ++ .text "$comment".toList words :: post →
        iterVcd file' = iterVcd file) := by
  have hread : ∀ file sts, LaidOut file sts → iterVcd file = .ok (tokenRead (fileTokens file)) := by
    intro file sts h
    rw [iterVcd_of_layout h.layout, h.fileTokens_eq, tokenRead_statements h.wellFormed]
  refine ⟨hread file sts h, fun heq => ?_, fun pre post words hsts hsts' => ?_⟩
  · rw [hread file sts h, hread file' sts' h', heq]
  · subst hsts hsts'
    rw [hread file _ h, hread file' _ h', h.fileTokens_eq, h'.fileTokens_eq,
      tokenRead_insert_text h'.wellFormed]

/-! ## A dump with a comment -/

/-- One net, two values and a comment between them. -/
def netHeader : List Statement :=
  [.scope "module".toList "top".toList,
    .var "wire".toList (.digit 1) ['!'] "a".toList [], .upscope]

/-- The first value. -/
def netBefore : List Statement := [.time (.digit 0), .scalar '0' ['!']]

/-- The second value. -/
def netAfter : List Statement := [.time (.digit 5), .scalar '0' ['!']]

/-- The declaration as lines. -/
def netHeaderLines : List Str :=
  ["$scope module top $end", "$var wire 1 ! a $end", "$upscope $end"].map String.toList

/-- The first value as lines. -/
def netBeforeLines : List Str := ["#0", "0!"].map String.toList

/-- The second value as lines. -/
def netAfterLines : List Str := ["#5", "0!"].map String.toList

/-- The header, the first value, the lines of a comment, the second value. -/
def netDump (comment : List Str) : List UInt8 :=
  linesFile (netHeaderLines ++ "$enddefinitions $end".toList ::
    (netBeforeLines ++ (comment ++ netAfterLines)))

/-- The statements of that dump. -/
def netStatements (comment : List Statement) : List Statement :=
  netHeader ++ .enddefinitions :: (netBefore ++ (comment ++ netAfter))

/-- The text of a comment may look like a value change to a line reader. -/
theorem iterVcd_ne_tokenRead_comment :
    (∀ st ∈ netStatements [.text "$comment".toList [['1', '!']]], st.WellFormed) ∧
      fileTokens (netDump (["$comment", "1!", "$end"].map String.toList))
        = (netStatements [.text "$comment".toList [['1', '!']]]).flatMap Statement.tokens ∧
      ¬ iterVcd (netDump (["$comment", "1!", "$end"].map String.toList))
        = .ok (tokenRead
            (fileTokens (netDump (["$comment", "1!", "$end"].map String.toList)))) := by
  refine ⟨?_, rfl, fun h => ?_⟩
  · intro st hst
    fin_cases hst <;> simp [Statement.WellFormed, textKeywords]
  · have htoggles := congrArg
      (fun r => r.toOption.bind (fun r => (r.1.get? ['!']).map Signal.toggles)) h
    exact absurd htoggles (by decide +kernel)

theorem opens_of_split {st : Statement} {line : Str}
    (h : split line = st.tokens.dropLast ++ ["$end".toList]) : Opens st [] line [] :=
  ⟨fun _ hst => absurd hst List.not_mem_nil, _, h, rfl⟩

/-- The dump is laid out if the lines of the comment are inert. -/
theorem layout_netDump {comment : List Str} {inert : List Statement}
    (hlines : ∀ l ∈ comment, IsLine l) (hinert : ∀ st ∈ inert, st.IsInert)
    (hwords : (comment.map (· ++ ['\n'])).flatMap split = inert.flatMap Statement.tokens)
    (hblock : ∀ l ∈ comment.map (· ++ ['\n']), BodyInert [['!']] l) :
    Layout (rawLines (netDump comment)) (netStatements inert) := by
  have hfixed : ∀ l ∈ netHeaderLines ++ "$enddefinitions $end".toList ::
      (netBeforeLines ++ netAfterLines), IsLine l := by decide +kernel
  have hall : ∀ l ∈ netHeaderLines ++ "$enddefinitions $end".toList ::
      (netBeforeLines ++ (comment ++ netAfterLines)), IsLine l := by
    intro l hl
    simp only [List.mem_append, List.mem_cons] at hl hfixed
    rcases hl with hl | rfl | hl | hl | hl
    · exact hfixed l (Or.inl hl)
    · exact hfixed _ (Or.inr (Or.inl rfl))
    · exact hfixed l (Or.inr (Or.inr (Or.inl hl)))
    · exact hlines l hl
    · exact hfixed l (Or.inr (Or.inr (Or.inr hl)))
  have hscope : Statement.BeginsLine (.scope "module".toList "top".toList) := trivial
  have hupscope : Statement.BeginsLine .upscope := trivial
  have hheader : HeaderLayout (netHeaderLines.map (· ++ ['\n'])) netHeader :=
    .opening hscope trivial (opens_of_split rfl) (by simp)
      (.var rfl (.opening hupscope trivial (opens_of_split rfl) (by simp) .nil))
  have hscalar : Statement.IsSimulation (.scalar '0' ['!']) := by
    show '0' ∈ "01xzXZ".toList
    decide
  have htime : ∀ t, Statement.IsSimulation (.time t) := fun _ => trivial
  have hafter : BodyLayout [['!']] (netAfterLines.map (· ++ ['\n'])) netAfter :=
    .command (htime _) rfl (.command hscalar rfl .nil)
  have hcomment : BodyLayout [['!']] (comment.map (· ++ ['\n']) ++ netAfterLines.map (· ++ ['\n']))
      (inert ++ netAfter) := .inert hinert hwords hblock hafter
  have hbody : BodyLayout [['!']] (netBeforeLines.map (· ++ ['\n']) ++
      (comment.map (· ++ ['\n']) ++ netAfterLines.map (· ++ ['\n'])))
      (netBefore ++ (inert ++ netAfter)) :=
    .command (htime _) rfl (.command hscalar rfl hcomment)
  have hend : Opens .enddefinitions [] ("$enddefinitions $end".toList ++ ['\n']) [] :=
    opens_of_split rfl
  unfold netDump netStatements
  rw [rawLines_linesFile hall, List.map_append, List.map_cons, List.map_append, List.map_append]
  exact @Layout.mk _ _ [] _ _ [] _ hheader hend (by simp) hbody

theorem iterVcd_eq_tokenRead_comment :
    iterVcd (netDump (["$comment", "no 1! here", "$end"].map String.toList))
      = iterVcd (netDump []) := by
  have hplain : LaidOut (netDump []) (netStatements []) :=
    ⟨layout_netDump (by simp) (by simp) rfl (by simp), by
      intro st hst
      fin_cases hst <;> simp [Statement.WellFormed]⟩
  have hcomment : LaidOut (netDump (["$comment", "no 1! here", "$end"].map String.toList))
      (netStatements [.text "$comment".toList (["no", "1!", "here"].map String.toList)]) := by
    refine ⟨layout_netDump (by decide +kernel) (by simp [Statement.IsInert]) rfl ?_, ?_⟩
    · intro l hl
      fin_cases hl
      · exact bodyInert_of_head rfl (by decide)
      · exact bodyInert_of_head rfl (by decide)
      · exact bodyInert_of_head rfl (by decide)
    · intro st hst
      fin_cases hst <;> simp [Statement.WellFormed, textKeywords]
  exact (iterVcd_eq_tokenRead _ _ _ _ hplain hcomment).2.2
    (netHeader ++ .enddefinitions :: netBefore) netAfter _ rfl rfl

end Vcd
