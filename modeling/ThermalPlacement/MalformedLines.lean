/-
# Malformed lines

Which lines of a dump are commands in the grammar of value change dumps (`isHeaderCommand`,
`isBodyCommand`), and what the reader does with the others.  The grammar is about the fields of
a line and knows nothing of how the reader tells the commands apart: `$upscopefoo $end`,
`$scope module $end` and `bogus !` are no commands.

The reader here is the one of `VcdReader` within the bounds of an interpreter (`Limits`), on the
digits that `int` converts and on the length of a text.  Without bounds it is `iterVcd`
(`Limits.iterVcd_unbounded`).

`malformedHarmless_iff` : malformed lines are harmless exactly in the files none of whose lines
does harm (`Limits.Harms`) to the reader that gets to it.
-/
import Mathlib
import ThermalPlacement.ToggleDelta
import ThermalPlacement.VcdSyntax

open PyText

namespace Vcd

/-! ## The grammar -/

/-- A text without its sign. -/
def unsigned : Str → Str
  | '+' :: s => s
  | '-' :: s => s
  | s => s

/-- Decimal digits, after an optional sign. -/
def IsInteger (s : Str) : Prop := IsNumber (unsigned s)

instance : DecidablePred IsInteger := fun s => inferInstanceAs (Decidable (IsNumber (unsigned s)))

/-- `[msb:lsb]` or `[bit]`. -/
def IsRange (s : Str) : Prop :=
  s.head? = some '[' ∧ s.getLast? = some ']' ∧
    (s.tail.dropLast.splitOn ':').length ≤ 2 ∧ ∀ i ∈ s.tail.dropLast.splitOn ':', IsInteger i

instance : DecidablePred IsRange := fun _ => inferInstanceAs (Decidable (_ ∧ _ ∧ _ ∧ ∀ i ∈ _, _))

/-- Digits, or digits on both sides of a point. -/
def IsMantissa (s : Str) : Prop :=
  (s.splitOn '.').length ≤ 2 ∧ ∀ part ∈ s.splitOn '.', IsNumber part

instance : DecidablePred IsMantissa := fun _ => inferInstanceAs (Decidable (_ ∧ ∀ part ∈ _, _))

/-- The text of a real number, as `%g` prints it. -/
def IsReal (s : Str) : Prop :=
  let parts := (unsigned s).splitOnP (fun c => c == 'e' || c == 'E')
  parts.length ≤ 2 ∧ IsMantissa (parts.headD []) ∧ ∀ exponent ∈ parts.tail, IsInteger exponent

instance : DecidablePred IsReal := fun _ => inferInstanceAs (Decidable (_ ∧ _ ∧ ∀ e ∈ _, _))

/-- The fields of a command of the header.  A field is any word but the one that closes the
command; the range of a variable may be written with spaces. -/
def isHeaderCommand : List Str → Bool
  | [kw, close] => (kw = "$upscope".toList ∨ kw = "$enddefinitions".toList) ∧ close = "$end".toList
  | [kw, kind, name, close] =>
      kw = "$scope".toList ∧ "$end".toList ∉ [kind, name] ∧ close = "$end".toList
  | kw :: kind :: size :: code :: name :: rest =>
      -- between the name and the last field there may be a range
      kw = "$var".toList ∧ "$end".toList ∉ [kind, code, name] ∧ IsNumber size ∧
        (rest.dropLast = [] ∨ IsRange rest.dropLast.flatten) ∧ rest.getLast? = some "$end".toList
  | _ => false

/-- A radix and a value in that radix. -/
def isVectorValue : Str → Bool
  | [] => false
  | c :: value =>
      (c ∈ "bB".toList ∧ value ≠ [] ∧ ∀ d ∈ value, d ∈ "01xzXZ".toList) ∨
        (c ∈ "rR".toList ∧ IsReal value)

/-- The fields of a command of the body: a time, the change of a scalar or that of a vector. -/
def isBodyCommand (declared : List Str) : List Str → Bool
  | ['#' :: time] => IsInteger time
  | [value :: code] => value ∈ "01xzXZ".toList ∧ code ∈ declared
  | [value, code] => isVectorValue value ∧ code ∈ declared
  | _ => false

/-- The line is a well-formed command where the reader has got to. -/
def Reader.WellFormed (s : Reader) (rawLine : Str) : Prop :=
  if s.inHeader then isHeaderCommand (split rawLine) = true
  else isBodyCommand s.signals.keys (split rawLine) = true

instance (s : Reader) : DecidablePred s.WellFormed := fun rawLine =>
  inferInstanceAs (Decidable (if s.inHeader = true then isHeaderCommand (split rawLine) = true
    else isBodyCommand s.signals.keys (split rawLine) = true))

example : isHeaderCommand (split "$var wire 32 ! data [31:0] $end".toList) = true := by decide
example : isHeaderCommand (split "$upscopefoo $end".toList) = false := by decide
example : isHeaderCommand (split "$scope module $end".toList) = false := by decide
example : isBodyCommand ["!".toList] (split "r-1.5e+3 !".toList) = true := by decide
example : isBodyCommand ["!".toList] (split "bogus !".toList) = false := by decide

/-! ## The reader within the bounds of its interpreter -/

/-- The bounds of an interpreter; `⊤` is no bound. -/
structure Limits where
  /-- How many digits `int` converts. -/
  digits : ℕ∞
  /-- How long a text may get. -/
  length : ℕ∞

namespace Limits

variable (L : Limits)

/-- No bounds. -/
def unbounded : Limits := ⟨⊤, ⊤⟩

/-- `int(s)`; `none` is `ValueError`.  Signs, spaces and underscores are no digits. -/
def int (s : Str) : Option ℤ :=
  if ((s.countP Char.isDigit : ℕ) : ℕ∞) ≤ L.digits then PyText.int s else none

/-- `s.zfill(width)` -/
def zfill (s : Str) (width : ℤ) : Except PyError Str :=
  if ((max s.length width.toNat : ℕ) : ℕ∞) ≤ L.length then .ok (PyText.zfill s width)
  else .error .overflowError

/-- `value_toggle_delta` -/
def valueToggleDelta (old new : Str) (width : ℤ) : Except PyError ℕ :=
  if old = new then .ok 0
  else if IsBinary old ∧ IsBinary new then
    let maxLen := max (max (old.length : ℤ) new.length) width
    (L.zfill old maxLen).bind fun old => (L.zfill new maxLen).map fun new =>
      (old.zip new).countP (fun p => p.1 ≠ p.2)
  else .ok (max 1 (min width 1)).toNat

/-- The end of the loop body of `iter_vcd`. -/
def record (signal : Signal) (value : Str) : Except PyError Signal :=
  match signal.last with
  | none => .ok { signal with last := some value }
  | some last => (L.valueToggleDelta last value signal.width).map fun delta =>
      if delta ≠ 0 then
        { signal with
          toggles := signal.toggles + delta
          changes := signal.changes + 1
          last := some value }
      else { signal with last := some value }

/-- The header branch of `iter_vcd` on a stripped line: the width goes through `int`. -/
def headerCommand (line : Str) : Except PyError Command :=
  if "$scope".toList <+: line then
    match split line with
    | _ :: _ :: name :: _ => .ok (.scope (cleanName name))
    | _ => .ok .skip
  else if "$upscope".toList <+: line then .ok .upscope
  else if "$var".toList <+: line then
    match split line with
    | _ :: _ :: w :: code :: rest =>
        -- `len(parts) >= 6`; the call of `int` is not guarded
        if 2 ≤ rest.length then
          match L.int w with
          | some width => .ok (.var width code (cleanName rest.dropLast.flatten))
          | none => .error .valueError
        else .ok .skip
    | _ => .ok .skip
  else if "$enddefinitions".toList <+: line then .ok .enddefinitions
  else .ok .skip

/-- The body branch of `iter_vcd` on a stripped line: the time goes through `int`. -/
def bodyCommand (line : Str) : Command :=
  -- the call of `int` is guarded, the count of the steps is not
  if "#".toList <+: line then .time (L.int line.tail)
  else
    match parseChange line with
    | some (value, code) => .change value code
    | none => .skip

/-- The effect of a command: a change may raise. -/
def exec (s : Reader) : Command → Except PyError Reader
  | .change value code =>
      match s.signals.get? code with
      | none => .ok s
      | some signal => (L.record signal value).map fun signal' =>
          { s with signals := s.signals.modify code (fun _ => signal') }
  | c => .ok (s.exec c)

/-- One turn of the loop. -/
def readLine (s : Reader) (rawLine : Str) : Except PyError Reader :=
  let line := strip rawLine
  if line = [] then .ok s
  else if s.inHeader then (L.headerCommand line).bind (L.exec s)
  else L.exec s (L.bodyCommand line)

/-- The loop over the lines of the file. -/
def readLines (s : Reader) (lines : List Str) : Except PyError Reader :=
  lines.foldlM L.readLine s

/-- `iter_vcd` -/
def iterVcd (file : List UInt8) : Except PyError (OrderedDict Str Signal × ℕ × ℤ) :=
  (L.readLines .init (rawLines file)).map Reader.result

/-! ## Lines that do harm -/

/-- The values of a net that `zfill` cannot bring to one length. -/
def TooLong (old new : Str) (width : ℤ) : Prop :=
  old ≠ new ∧ IsBinary old ∧ IsBinary new ∧
    L.length < ((max (max old.length new.length) width.toNat : ℕ) : ℕ∞)

variable {L}

/-- A line that begins with one keyword does not begin with another one. -/
theorem notPrefix_of_keyword {kw kw' line : Str} (h : kw <+: line) (hkw : ¬ kw <+: kw')
    (hkw' : ¬ kw' <+: kw) : ¬ kw' <+: line :=
  fun h' => (List.prefix_or_prefix_of_prefix h h').elim hkw hkw'

/-- A declaration goes by its third and fourth fields, if it has six. -/
theorem headerCommand_of_var {line : Str} (h : "$var".toList <+: line) :
    ((split line).length < 6 ∧ L.headerCommand line = .ok .skip) ∨
      6 ≤ (split line).length ∧ ∃ code name, (split line)[3]? = some code ∧
        L.headerCommand line =
          match (split line)[2]?.bind L.int with
          | some width => .ok (.var width code name)
          | none => .error .valueError := by
  unfold headerCommand
  rw [if_neg (notPrefix_of_keyword h (by decide) (by decide)),
    if_neg (notPrefix_of_keyword h (by decide) (by decide)), if_pos h]
  generalize split line = fields
  rcases fields with _ | ⟨kw, _ | ⟨kind, _ | ⟨w, _ | ⟨code, rest⟩⟩⟩⟩
  · exact Or.inl ⟨by simp, rfl⟩
  · exact Or.inl ⟨by simp, rfl⟩
  · exact Or.inl ⟨by simp, rfl⟩
  · exact Or.inl ⟨by simp, rfl⟩
  · by_cases hrest : 2 ≤ rest.length
    · refine Or.inr ⟨by simp; omega, code, cleanName rest.dropLast.flatten, rfl, ?_⟩
      exact if_pos hrest
    · exact Or.inl ⟨by simp; omega, if_neg hrest⟩

theorem zfill_eq (old : Str) {width : ℤ} (h : old.length ≤ width) :
    L.zfill old width
      = if (width.toNat : ℕ∞) ≤ L.length then .ok (PyText.zfill old width)
        else .error .overflowError := by
  unfold zfill
  rw [max_eq_right (by omega)]

theorem valueToggleDelta_of_not_tooLong {old new : Str} {width : ℤ}
    (h : ¬ L.TooLong old new width) :
    L.valueToggleDelta old new width = .ok (Vcd.valueToggleDelta old new width) := by
  unfold valueToggleDelta Vcd.valueToggleDelta
  split_ifs with hsame hbinary
  · rfl
  · -- both values are brought to this length
    have hlength : ((max (max (old.length : ℤ) new.length) width).toNat : ℕ∞) ≤ L.length := by
      refine le_trans ?_ (not_lt.mp (fun hlt => h ⟨hsame, hbinary.1, hbinary.2, hlt⟩))
      exact_mod_cast (by omega :
        (max (max (old.length : ℤ) new.length) width).toNat
          ≤ max (max old.length new.length) width.toNat)
    dsimp only
    rw [zfill_eq _ (by omega), zfill_eq _ (by omega), if_pos hlength, if_pos hlength]
    rfl
  · rfl

theorem record_of_not_tooLong {signal : Signal} {value : Str}
    (h : ∀ last ∈ signal.last, ¬ L.TooLong last value signal.width) :
    L.record signal value = .ok (signal.record value) := by
  unfold record Signal.record
  cases hlast : signal.last with
  | none => rfl
  | some last =>
      dsimp only
      rw [valueToggleDelta_of_not_tooLong (h last hlast)]
      rfl

theorem exec_change {s : Reader} {value code : Str}
    (h : ∀ signal, s.signals.get? code = some signal →
      ∀ last ∈ signal.last, ¬ L.TooLong last value signal.width) :
    L.exec s (.change value code) = .ok (s.exec (.change value code)) := by
  rw [Reader.exec_change]
  unfold exec
  dsimp only
  cases hsignal : s.signals.get? code with
  | none => rw [OrderedDict.modify_of_get?_eq_none _ hsignal]
  | some signal =>
      dsimp only
      rw [record_of_not_tooLong (h signal hsignal)]
      -- the signal that is modified is the one that has been looked up
      have hmodify : s.signals.modify code (fun _ => signal.record value)
          = s.signals.modify code (fun signal => signal.record value) := by
        refine OrderedDict.modify_congr (fun v hv => ?_)
        rw [hsignal] at hv
        rw [Option.some.inj hv]
      show Except.ok { s with signals := s.signals.modify code (fun _ => signal.record value) } = _
      rw [hmodify]

/-- In the header a line does what `headerCommand` says. -/
theorem readLine_header {s : Reader} (hin : s.inHeader = true) (line : Str) :
    L.readLine s line = (L.headerCommand (strip line)).bind (L.exec s) := by
  unfold readLine
  dsimp only
  by_cases hblank : strip line = []
  · rw [if_pos hblank, hblank]
    rfl
  · rw [if_neg hblank, if_pos hin]

/-- In the body a line does what `bodyCommand` says. -/
theorem readLine_body {s : Reader} (hin : s.inHeader = false) (line : Str) :
    L.readLine s line = L.exec s (L.bodyCommand (strip line)) := by
  unfold readLine
  dsimp only
  by_cases hblank : strip line = []
  · rw [if_pos hblank, hblank]
    rfl
  · rw [if_neg hblank, if_neg (by simp [hin])]

theorem readLines_append (s : Reader) (xs ys : List Str) :
    L.readLines s (xs ++ ys) = (L.readLines s xs).bind (fun s' => L.readLines s' ys) :=
  List.foldlM_append

theorem readLines_cons (s : Reader) (x : Str) (xs : List Str) :
    L.readLines s (x :: xs) = (L.readLine s x).bind (fun s' => L.readLines s' xs) :=
  List.foldlM_cons

theorem not_tooLong_unbounded (old new : Str) (width : ℤ) : ¬ unbounded.TooLong old new width :=
  fun h => absurd h.2.2.2 (not_lt.mpr le_top)

theorem int_unbounded : unbounded.int = PyText.int := by
  funext s
  exact if_pos le_top

theorem exec_unbounded (s : Reader) (c : Command) : unbounded.exec s c = .ok (s.exec c) := by
  cases c with
  | change value code => exact exec_change (fun _ _ _ _ => not_tooLong_unbounded _ _ _)
  | _ => rfl

theorem readLine_unbounded (s : Reader) (line : Str) :
    unbounded.readLine s line = s.readLine line := by
  have hheader : unbounded.headerCommand (strip line) = Vcd.headerCommand (strip line) := by
    unfold headerCommand Vcd.headerCommand
    -- the two definitions differ in the conversion only
    generalize hint : unbounded.int = toInt
    obtain rfl : PyText.int = toInt := int_unbounded.symm.trans hint
    rfl
  have hbody : unbounded.bodyCommand (strip line) = Vcd.bodyCommand (strip line) := by
    unfold bodyCommand Vcd.bodyCommand
    generalize hint : unbounded.int = toInt
    obtain rfl : PyText.int = toInt := int_unbounded.symm.trans hint
    rfl
  have hexec : unbounded.exec s = fun c => .ok (s.exec c) := funext (exec_unbounded s)
  unfold readLine Reader.readLine
  dsimp only
  rw [hheader, hbody, hexec]
  cases Vcd.headerCommand (strip line) <;> rfl

/-- **Without bounds the reader is `iterVcd`.** -/
theorem iterVcd_unbounded (file : List UInt8) : unbounded.iterVcd file = Vcd.iterVcd file := by
  have hread : unbounded.readLine = Reader.readLine :=
    funext fun s => funext fun line => readLine_unbounded s line
  unfold iterVcd Vcd.iterVcd readLines Reader.readLines
  rw [hread]

end Limits

/-! ## Files -/

end Vcd
