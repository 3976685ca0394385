/-
# Runs of the VCD reader

What the loop of `iterVcd` does over a whole file, in terms of the commands its
lines stand for.

* A header only pushes and pops scopes and offers declarations to the table
  (`declarations`, `signals_execAll_header`).
* A body never adds, removes or reorders signals, and every signal sees exactly
  the value changes of its own code (`signals_execAll_body`).  This is the
  non-interference fact behind most results about the reader.
* A signal's counters are sums over the consecutive pairs of its values
  (`recordAll_eq`).

`ReadsAs file header body` says that the lines of `file` stand for the commands
`header`, an `$enddefinitions` line, and the commands `body`;
`iterVcd_of_readsAs` is the table the reader returns for such a file, and every file
with an end of the header on which the reader does not raise is one (`exists_readsAs`).
-/
import ThermalPlacement.VcdReader
import ThermalPlacement.PairSum

open PyText

namespace Vcd

/-! ## One signal over a sequence of values -/

/-- The toggles counted over a sequence of values. -/
def toggleSum (width : ℤ) (values : List Str) : ℕ :=
  pairSum (fun a b => valueToggleDelta a b width) values

/-- The value changes counted over a sequence of values. -/
def changeCount (width : ℤ) (values : List Str) : ℕ :=
  pairSum (fun a b => if valueToggleDelta a b width ≠ 0 then 1 else 0) values

/-- A signal that records a sequence of values. -/
def Signal.recordAll (signal : Signal) (values : List Str) : Signal :=
  values.foldl Signal.record signal

@[simp] theorem Signal.recordAll_nil (signal : Signal) : signal.recordAll [] = signal := rfl

@[simp] theorem Signal.recordAll_cons (signal : Signal) (v : Str) (values : List Str) :
    signal.recordAll (v :: values) = (signal.record v).recordAll values := rfl

@[simp] theorem Signal.path_record (signal : Signal) (v : Str) :
    (signal.record v).path = signal.path := by
  unfold Signal.record
  split
  · rfl
  · dsimp only
    split_ifs <;> rfl

@[simp] theorem Signal.width_record (signal : Signal) (v : Str) :
    (signal.record v).width = signal.width := by
  unfold Signal.record
  split
  · rfl
  · dsimp only
    split_ifs <;> rfl

/-- The first value is only remembered. -/
theorem Signal.record_of_last_none {signal : Signal} (h : signal.last = none) (v : Str) :
    signal.record v = { signal with last := some v } := by
  unfold Signal.record
  rw [h]

/-- A later value adds its delta, and one change if the delta is not zero. -/
theorem Signal.record_of_last_some {signal : Signal} {u : Str} (h : signal.last = some u)
    (v : Str) :
    signal.record v =
      { signal with
        toggles := signal.toggles + valueToggleDelta u v signal.width
        changes := signal.changes + if valueToggleDelta u v signal.width ≠ 0 then 1 else 0
        last := some v } := by
  unfold Signal.record
  rw [h]
  dsimp only
  split_ifs with hd
  · rfl
  · have h0 : valueToggleDelta u v signal.width = 0 := by simpa using hd
    rw [h0]
    rfl

/-- **The counters in closed form.**  With the value remembered at the start put in
front, they are sums over the consecutive pairs. -/
theorem Signal.recordAll_eq (signal : Signal) (values : List Str) :
    signal.recordAll values =
      { signal with
        last := (signal.last.toList ++ values).getLast?
        toggles := signal.toggles + toggleSum signal.width (signal.last.toList ++ values)
        changes := signal.changes + changeCount signal.width (signal.last.toList ++ values) } := by
  induction values generalizing signal with
  | nil =>
      obtain ⟨path, width, last, toggles, changes⟩ := signal
      cases last <;> simp [toggleSum, changeCount]
  | cons v values ih =>
      rw [Signal.recordAll_cons, ih]
      cases hlast : signal.last with
      | none =>
          rw [Signal.record_of_last_none hlast]
          rfl
      | some u =>
          rw [Signal.record_of_last_some hlast]
          simp only [Option.toList_some, List.singleton_append, toggleSum, changeCount,
            pairSum_cons_cons, List.getLast?_cons_cons]
          congr 1 <;> omega

/-- A freshly declared signal. -/
def Signal.fresh (path : Str) (width : ℤ) : Signal := { path := path, width := width }

theorem Signal.recordAll_fresh (path : Str) (width : ℤ) (values : List Str) :
    (Signal.fresh path width).recordAll values =
      { path := path
        width := width
        last := values.getLast?
        toggles := toggleSum width values
        changes := changeCount width values } := by
  rw [Signal.recordAll_eq]
  simp [Signal.fresh]

/-! ## Runs of commands -/

/-- Commands that only occur before `$enddefinitions`. -/
def Command.InHeader : Command → Prop
  | .scope _ | .upscope | .var _ _ _ | .skip => True
  | _ => False

/-- Commands that only occur after `$enddefinitions`. -/
def Command.InBody : Command → Prop
  | .time _ | .change _ _ | .skip => True
  | _ => False

/-- The values that a run of commands gives to one code. -/
def valuesOf (code : Str) (cmds : List Command) : List Str :=
  cmds.filterMap fun
    | .change value code' => if code' = code then some value else none
    | _ => none

/-- The `#` lines of a run of commands. -/
def timesOf (cmds : List Command) : List (Option ℤ) :=
  cmds.filterMap fun
    | .time t => some t
    | _ => none

@[simp] theorem valuesOf_nil (code : Str) : valuesOf code [] = [] := rfl
@[simp] theorem timesOf_nil : timesOf [] = [] := rfl

theorem valuesOf_append (code : Str) (xs ys : List Command) :
    valuesOf code (xs ++ ys) = valuesOf code xs ++ valuesOf code ys :=
  List.filterMap_append

theorem valuesOf_cons_change (code v code' : Str) (cmds : List Command) :
    valuesOf code (.change v code' :: cmds) =
      if code' = code then v :: valuesOf code cmds else valuesOf code cmds := by
  unfold valuesOf
  rw [List.filterMap_cons]
  split_ifs <;> simp_all

/-- A declaration in a header: identifier code, full path and width. -/
structure Declaration where
  code : Str
  path : Str
  width : ℤ
  deriving DecidableEq, Repr

/-- The table entry a declaration offers. -/
def Declaration.entry (d : Declaration) : Str × Signal := (d.code, Signal.fresh d.path d.width)

/-- The declarations of a header, with the scopes open at its start. -/
def declarations : List Str → List Command → List Declaration
  | _, [] => []
  | scopes, .scope name :: cmds => declarations (scopes ++ [name]) cmds
  | scopes, .upscope :: cmds => declarations scopes.dropLast cmds
  | scopes, .var width code name :: cmds =>
      ⟨code, Reader.fullPath scopes name, width⟩ :: declarations scopes cmds
  | scopes, _ :: cmds => declarations scopes cmds

/-- The scopes open after a header. -/
def scopesAfter : List Str → List Command → List Str
  | scopes, [] => scopes
  | scopes, .scope name :: cmds => scopesAfter (scopes ++ [name]) cmds
  | scopes, .upscope :: cmds => scopesAfter scopes.dropLast cmds
  | scopes, _ :: cmds => scopesAfter scopes cmds

namespace Reader

/-- A run of commands. -/
def execAll (s : Reader) (cmds : List Command) : Reader := cmds.foldl exec s

@[simp] theorem execAll_nil (s : Reader) : s.execAll [] = s := rfl

@[simp] theorem execAll_cons (s : Reader) (c : Command) (cmds : List Command) :
    s.execAll (c :: cmds) = (s.exec c).execAll cmds := rfl

theorem execAll_append (s : Reader) (xs ys : List Command) :
    s.execAll (xs ++ ys) = (s.execAll xs).execAll ys :=
  List.foldl_append

/-- A change modifies the entry of its code; without one it does nothing. -/
theorem exec_change (s : Reader) (v code : Str) :
    s.exec (.change v code) =
      { s with signals := s.signals.modify code (fun signal => signal.record v) } := by
  unfold exec
  dsimp only
  cases h : s.signals.get? code with
  | none => rw [OrderedDict.modify_of_get?_eq_none _ h]
  | some _ => rfl

/-- **Non-interference.**  After a run of body commands every signal has recorded
the changes of its own code, in order, and nothing else. -/
theorem signals_execAll_body (s : Reader) (cmds : List Command) (h : ∀ c ∈ cmds, c.InBody) :
    (s.execAll cmds).signals
      = s.signals.mapVals (fun code signal => signal.recordAll (valuesOf code cmds)) := by
  induction cmds generalizing s with
  | nil => exact (OrderedDict.mapVals_id s.signals).symm
  | cons c cmds ih =>
      have hc := h c List.mem_cons_self
      rw [execAll_cons, ih _ (fun d hd => h d (List.mem_cons_of_mem _ hd))]
      cases c with
      | time t => rfl
      | skip => rfl
      | change v code =>
          rw [exec_change]
          unfold OrderedDict.modify
          dsimp only
          rw [OrderedDict.mapVals_mapVals]
          -- only the entry of `code` records `v`, and there `v` comes first
          refine OrderedDict.mapVals_congr (fun e _ => ?_)
          rw [valuesOf_cons_change]
          by_cases he : e.1 = code
          · rw [if_pos he, if_pos he.symm, Signal.recordAll_cons]
          · rw [if_neg he, if_neg (Ne.symm he)]
      | scope _ => exact hc.elim
      | upscope => exact hc.elim
      | var _ _ _ => exact hc.elim
      | enddefinitions => exact hc.elim

/-- `time_steps` counts the `#` lines. -/
theorem timeSteps_execAll (s : Reader) (cmds : List Command) :
    (s.execAll cmds).timeSteps = s.timeSteps + (timesOf cmds).length := by
  induction cmds generalizing s with
  | nil => rfl
  | cons c cmds ih =>
      rw [execAll_cons, ih]
      cases c with
      | time t =>
          show s.timeSteps + 1 + (timesOf cmds).length = s.timeSteps + (timesOf cmds).length.succ
          omega
      | change v code => rw [exec_change]; rfl
      | _ => rfl

/-- `last_time` is the last integer on a `#` line. -/
theorem lastTime_execAll (s : Reader) (cmds : List Command) :
    (s.execAll cmds).lastTime = ((timesOf cmds).reduceOption.getLast?).getD s.lastTime := by
  induction cmds generalizing s with
  | nil => rfl
  | cons c cmds ih =>
      rw [execAll_cons, ih]
      cases c with
      | time t =>
          show (timesOf cmds).reduceOption.getLast?.getD (t.getD s.lastTime)
            = (t :: timesOf cmds).reduceOption.getLast?.getD s.lastTime
          cases t with
          | none => rfl
          | some t =>
              rw [List.reduceOption_cons_of_some, List.getLast?_cons]
              rfl
      | change v code => rw [exec_change]; rfl
      | _ => rfl

/-- **A header offers its declarations to the table, in order.** -/
theorem signals_execAll_header (s : Reader) (cmds : List Command)
    (h : ∀ c ∈ cmds, c.InHeader) :
    (s.execAll cmds).signals
      = s.signals.setdefaults ((declarations s.scopes cmds).map Declaration.entry) := by
  induction cmds generalizing s with
  | nil => rfl
  | cons c cmds ih =>
      have hc := h c List.mem_cons_self
      rw [execAll_cons, ih _ (fun d hd => h d (List.mem_cons_of_mem _ hd))]
      cases c with
      | scope name => rfl
      | upscope => rfl
      | var width code name => rfl
      | skip => rfl
      | enddefinitions => exact hc.elim
      | time _ => exact hc.elim
      | change _ _ => exact hc.elim

theorem scopes_execAll_header (s : Reader) (cmds : List Command) (h : ∀ c ∈ cmds, c.InHeader) :
    (s.execAll cmds).scopes = scopesAfter s.scopes cmds := by
  induction cmds generalizing s with
  | nil => rfl
  | cons c cmds ih =>
      have hc := h c List.mem_cons_self
      rw [execAll_cons, ih _ (fun d hd => h d (List.mem_cons_of_mem _ hd))]
      cases c with
      | scope name => rfl
      | upscope => rfl
      | var width code name => rfl
      | skip => rfl
      | enddefinitions => exact hc.elim
      | time _ => exact hc.elim
      | change _ _ => exact hc.elim

theorem inHeader_execAll_header (s : Reader) (cmds : List Command)
    (h : ∀ c ∈ cmds, c.InHeader) : (s.execAll cmds).inHeader = s.inHeader := by
  induction cmds generalizing s with
  | nil => rfl
  | cons c cmds ih =>
      have hc := h c List.mem_cons_self
      rw [execAll_cons, ih _ (fun d hd => h d (List.mem_cons_of_mem _ hd))]
      cases c with
      | enddefinitions => exact hc.elim
      | time _ => exact hc.elim
      | change _ _ => exact hc.elim
      | _ => rfl

theorem inHeader_exec_body (s : Reader) {c : Command} (hc : c.InBody) :
    (s.exec c).inHeader = s.inHeader := by
  cases c with
  | change v code => rw [exec_change]
  | time _ => rfl
  | skip => rfl
  | scope _ => exact hc.elim
  | upscope => exact hc.elim
  | var _ _ _ => exact hc.elim
  | enddefinitions => exact hc.elim

/-! ## Runs of lines -/

theorem readLines_append (s : Reader) (xs ys : List Str) :
    s.readLines (xs ++ ys) = (s.readLines xs).bind (fun s' => s'.readLines ys) :=
  List.foldlM_append

theorem readLines_cons (s : Reader) (x : Str) (xs : List Str) :
    s.readLines (x :: xs) = (s.readLine x).bind (fun s' => s'.readLines xs) :=
  List.foldlM_cons

/-- In the header a line does what `headerCommand` says; a blank line is no
command. -/
theorem readLine_header {s : Reader} (h : s.inHeader = true) (line : Str) :
    s.readLine line = (headerCommand (strip line)).map s.exec := by
  unfold readLine
  dsimp only
  by_cases hblank : strip line = []
  · rw [if_pos hblank, hblank]
    rfl
  · rw [if_neg hblank, if_pos h]

/-- In the body a line does what `bodyCommand` says. -/
theorem readLine_body {s : Reader} (h : s.inHeader = false) (line : Str) :
    s.readLine line = .ok (s.exec (bodyCommand (strip line))) := by
  unfold readLine
  dsimp only
  by_cases hblank : strip line = []
  · rw [if_pos hblank, hblank]
    rfl
  · rw [if_neg hblank, if_neg (by simp [h])]

end Reader

/-- A body line never stands for a header command. -/
theorem inBody_bodyCommand (line : Str) : (bodyCommand line).InBody := by
  unfold bodyCommand
  split_ifs
  · trivial
  · cases parseChange line <;> trivial

/-- The commands that lines of the body stand for. -/
def bodyCommands (lines : List Str) : List Command :=
  lines.map (fun line => bodyCommand (strip line))

theorem inBody_of_mem_bodyCommands {lines : List Str} {c : Command}
    (hc : c ∈ bodyCommands lines) : c.InBody := by
  rcases List.mem_map.mp hc with ⟨line, _, rfl⟩
  exact inBody_bodyCommand _

/-- Lines of the header and the commands they stand for. -/
def HeaderReads (lines : List Str) (cmds : List Command) : Prop :=
  List.Forall₂ (fun line c => headerCommand (strip line) = .ok c) lines cmds

namespace Reader

/-- Once the header is over, reading lines is running their commands: nothing in
the body raises. -/
theorem readLines_body {s : Reader} (h : s.inHeader = false) (lines : List Str) :
    s.readLines lines = .ok (s.execAll (bodyCommands lines)) := by
  induction lines generalizing s with
  | nil => rfl
  | cons line lines ih =>
      have hnext : (s.exec (bodyCommand (strip line))).inHeader = false := by
        rw [inHeader_exec_body s (inBody_bodyCommand _), h]
      rw [readLines_cons, readLine_body h]
      exact ih hnext

theorem readLines_header {s : Reader} (h : s.inHeader = true) {lines : List Str}
    {cmds : List Command} (hreads : HeaderReads lines cmds) (hcmds : ∀ c ∈ cmds, c.InHeader) :
    s.readLines lines = .ok (s.execAll cmds) := by
  induction hreads generalizing s with
  | nil => rfl
  | @cons line c lines cmds hline _ ih =>
      have hc : ∀ d ∈ [c], d.InHeader := by simpa using hcmds c List.mem_cons_self
      have hnext : (s.exec c).inHeader = true := (inHeader_execAll_header s [c] hc).trans h
      rw [readLines_cons, readLine_header h, hline]
      exact ih hnext (fun d hd => hcmds d (List.mem_cons_of_mem _ hd))

end Reader

/-! ## The end of the header -/

/-- The line that ends the header. -/
def IsEnddefinitions (line : Str) : Prop := "$enddefinitions".toList <+: strip line

theorem headerCommand_of_isEnddefinitions {line : Str} (h : IsEnddefinitions line) :
    headerCommand (strip line) = .ok .enddefinitions := by
  obtain ⟨rest, hline⟩ := h
  -- the other keywords differ from this one within the text that is given
  have hother : ∀ kw : Str, ¬ kw <+: "$enddefinitions".toList →
      kw.length ≤ "$enddefinitions".toList.length → ¬ kw <+: strip line := by
    intro kw hkw hlen hpre
    exact hkw (List.prefix_of_prefix_length_le hpre ⟨rest, hline⟩ hlen)
  unfold headerCommand
  rw [if_neg (hother _ (by decide) (by decide)), if_neg (hother _ (by decide) (by decide)),
    if_neg (hother _ (by decide) (by decide)), if_pos ⟨rest, hline⟩]

namespace Reader

/-- **Invariants of runs.**  What every line that is read preserves holds after any number of
lines. -/
theorem readLines_induction {P : Reader → Prop}
    (hstep : ∀ s s' line, P s → s.readLine line = .ok s' → P s') {s s' : Reader}
    {lines : List Str} (hs : P s) (hread : s.readLines lines = .ok s') : P s' :=
  foldlM_induction (fun s line s' => hstep s s' line) hs hread

/-- A line that is read executes one command, of the header or of the body. -/
theorem exists_exec_of_readLine {s s' : Reader} {line : Str} (hread : s.readLine line = .ok s') :
    ∃ c, s' = s.exec c ∧ (headerCommand (strip line) = .ok c ∨ c.InBody) := by
  cases hin : s.inHeader with
  | false =>
      rw [readLine_body hin] at hread
      exact ⟨_, (Except.ok.inj hread).symm, Or.inr (inBody_bodyCommand _)⟩
  | true =>
      rw [readLine_header hin] at hread
      obtain ⟨c, hcommand, rfl⟩ := exists_of_map_eq_ok hread
      exact ⟨c, rfl, Or.inl hcommand⟩

/-- Once the header is over it stays over. -/
theorem inHeader_readLine {s s' : Reader} {line : Str} (h : s.inHeader = false)
    (hread : s.readLine line = .ok s') : s'.inHeader = false := by
  rw [readLine_body h] at hread
  obtain rfl := Except.ok.inj hread
  rw [inHeader_exec_body s (inBody_bodyCommand _), h]

/-- The line that ends the header ends it, wherever it stands. -/
theorem inHeader_readLine_enddefinitions {s s' : Reader} {line : Str}
    (hline : IsEnddefinitions line) (hread : s.readLine line = .ok s') : s'.inHeader = false := by
  cases h : s.inHeader with
  | false => exact inHeader_readLine h hread
  | true =>
      rw [readLine_header h, headerCommand_of_isEnddefinitions hline] at hread
      obtain rfl := Except.ok.inj hread
      rfl

theorem inHeader_readLines {s s' : Reader} {lines : List Str}
    (h : s.inHeader = false ∨ ∃ e ∈ lines, IsEnddefinitions e)
    (hread : s.readLines lines = .ok s') : s'.inHeader = false := by
  induction lines generalizing s with
  | nil =>
      obtain rfl := Except.ok.inj hread
      rcases h with h | ⟨e, he, -⟩
      · exact h
      · exact absurd he List.not_mem_nil
  | cons line lines ih =>
      rw [readLines_cons] at hread
      obtain ⟨s₁, hline, hread⟩ := exists_of_bind_eq_ok hread
      refine ih ?_ hread
      rcases h with h | ⟨e, he, hend⟩
      · exact Or.inl (inHeader_readLine h hline)
      · rcases List.mem_cons.mp he with rfl | he
        · exact Or.inl (inHeader_readLine_enddefinitions hend hline)
        · exact Or.inr ⟨e, he, hend⟩

end Reader

/-- A line that does not end the header is a header command, if it is read at all. -/
theorem inHeader_of_headerCommand {line : Str} {c : Command}
    (hline : ¬ "$enddefinitions".toList <+: line) (h : headerCommand line = .ok c) :
    c.InHeader := by
  unfold headerCommand at h
  rw [if_neg hline] at h
  split_ifs at h
  · split at h
    · obtain rfl := Except.ok.inj h
      trivial
    · obtain rfl := Except.ok.inj h
      trivial
  · obtain rfl := Except.ok.inj h
    trivial
  · split at h
    · split_ifs at h
      · split at h
        · obtain rfl := Except.ok.inj h
          trivial
        · cases h
      · obtain rfl := Except.ok.inj h
        trivial
    · obtain rfl := Except.ok.inj h
      trivial
  · obtain rfl := Except.ok.inj h
    trivial

/-- Lines that are read without an exception, cut at the end of the header. -/
theorem exists_header_of_readLines {s s' : Reader} {lines : List Str} (hin : s.inHeader = true)
    (hread : s.readLines lines = .ok s') (hend : ∃ e ∈ lines, IsEnddefinitions e) :
    ∃ H e B header, lines = H ++ e :: B ∧ HeaderReads H header ∧ (∀ c ∈ header, c.InHeader) ∧
      IsEnddefinitions e := by
  induction lines generalizing s with
  | nil =>
      obtain ⟨e, he, -⟩ := hend
      exact absurd he List.not_mem_nil
  | cons line lines ih =>
      by_cases hline : IsEnddefinitions line
      · exact ⟨[], line, lines, [], rfl, List.Forall₂.nil, by simp, hline⟩
      · rw [Reader.readLines_cons, Reader.readLine_header hin] at hread
        obtain ⟨s₁, hfirst, hread⟩ := exists_of_bind_eq_ok hread
        obtain ⟨c, hcommand, rfl⟩ := exists_of_map_eq_ok hfirst
        have hc : c.InHeader := inHeader_of_headerCommand hline hcommand
        have hnext : (s.exec c).inHeader = true :=
          (Reader.inHeader_execAll_header s [c] (by simpa using hc)).trans hin
        have hrest : ∃ e ∈ lines, IsEnddefinitions e := by
          obtain ⟨e, he, hisEnd⟩ := hend
          rcases List.mem_cons.mp he with rfl | he
          · exact absurd hisEnd hline
          · exact ⟨e, he, hisEnd⟩
        obtain ⟨H, e, B, header, rfl, hreads, hheader, he⟩ := ih hnext hread hrest
        refine ⟨line :: H, e, B, c :: header, rfl, List.Forall₂.cons hcommand hreads, ?_, he⟩
        intro d hd
        rcases List.mem_cons.mp hd with rfl | hd
        · exact hc
        · exact hheader d hd

/-! ## Whole files -/

/-- The lines of `file` stand for the commands `header`, an `$enddefinitions`
line, and the commands `body`. -/
structure ReadsAs (file : List UInt8) (header body : List Command) : Prop where
  inHeader : ∀ c ∈ header, c.InHeader
  lines : ∃ H e B, rawLines file = H ++ e :: B ∧ HeaderReads H header ∧
    headerCommand (strip e) = .ok .enddefinitions ∧ body = bodyCommands B

/-- The table after the header: every code with its first declaration. -/
def declaredTable (header : List Command) : OrderedDict Str Signal :=
  OrderedDict.empty.setdefaults ((declarations [] header).map Declaration.entry)

/-- The table `iter_vcd` returns: every signal has recorded its own changes. -/
def finalTable (header body : List Command) : OrderedDict Str Signal :=
  (declaredTable header).mapVals (fun code signal => signal.recordAll (valuesOf code body))

/-- **The reader on a whole file.** -/
theorem iterVcd_of_readsAs {file : List UInt8} {header body : List Command}
    (h : ReadsAs file header body) :
    iterVcd file = .ok (finalTable header body, (timesOf body).length,
      ((timesOf body).reduceOption.getLast?).getD 0) := by
  obtain ⟨hheader, H, e, B, hlines, hreads, he, rfl⟩ := h
  set s₁ := Reader.init.execAll header with hs₁
  have hin : s₁.inHeader = true := Reader.inHeader_execAll_header _ _ hheader
  -- no header command is a time mark
  have htimes : s₁.timeSteps = 0 ∧ s₁.lastTime = 0 := by
    have hnone : timesOf header = [] := by
      refine List.filterMap_eq_nil_iff.mpr (fun c hc => ?_)
      have := hheader c hc
      cases c <;> first | rfl | exact this.elim
    rw [hs₁, Reader.timeSteps_execAll, Reader.lastTime_execAll, hnone]
    exact ⟨rfl, rfl⟩
  have hsignals : s₁.signals = declaredTable header := Reader.signals_execAll_header _ _ hheader
  unfold iterVcd
  rw [hlines, Reader.readLines_append, Reader.readLines_header rfl hreads hheader, ← hs₁]
  show ((s₁.readLines (e :: B)).map Reader.result) = _
  rw [Reader.readLines_cons, Reader.readLine_header hin, he]
  show (((s₁.exec .enddefinitions).readLines B).map Reader.result) = _
  rw [Reader.readLines_body rfl]
  show Except.ok (Reader.result _) = _
  unfold Reader.result
  rw [Reader.signals_execAll_body _ _ (fun c hc => inBody_of_mem_bodyCommands hc),
    Reader.timeSteps_execAll, Reader.lastTime_execAll]
  show Except.ok (s₁.signals.mapVals _, s₁.timeSteps + _, Option.getD _ s₁.lastTime) = _
  rw [htimes.1, htimes.2, hsignals, Nat.zero_add]
  rfl

/-- **Every file with an end of the header stands for commands**, unless the reader raises. -/
theorem exists_readsAs {file : List UInt8} (hend : ∃ e ∈ rawLines file, IsEnddefinitions e)
    {result : OrderedDict Str Signal × ℕ × ℤ} (h : iterVcd file = .ok result) :
    ∃ header body, ReadsAs file header body := by
  obtain ⟨s, hread, -⟩ := exists_of_map_eq_ok h
  obtain ⟨H, e, B, header, hlines, hreads, hheader, he⟩ :=
    exists_header_of_readLines rfl hread hend
  exact ⟨header, bodyCommands B, hheader, H, e, B, hlines, hreads,
    headerCommand_of_isEnddefinitions he, rfl⟩

end Vcd
