/-
# The VCD reader of `scripts/extract_vcd_activity.py`

`iterVcd` is `iter_vcd`: it reads a value change dump line by line, keeps a stack
of open scopes and a table of signals keyed by identifier code, and counts
toggles.  The loop body is cut in two:

* `headerCommand` and `bodyCommand` are the dispatch on a stripped line, before
  and after `$enddefinitions`;
* `Reader.exec` is what the recognised command does to the reader's variables.

A line the dispatch does not recognise is the command `skip`.
-/
import ThermalPlacement.TextFile
import ThermalPlacement.OrderedDict

open PyText

namespace Vcd

/-! ## Signals -/

/-- The dataclass `Signal`. -/
structure Signal where
  path : Str
  width : ℤ
  last : Option Str := none
  toggles : ℕ := 0
  changes : ℕ := 0
  deriving DecidableEq, Repr

/-- `set(s) <= {"0", "1"}`. -/
def IsBinary (s : Str) : Prop := ∀ c ∈ s, c = '0' ∨ c = '1'

instance (s : Str) : Decidable (IsBinary s) := inferInstanceAs (Decidable (∀ c ∈ s, _))

/-- `value_toggle_delta`: how many toggles the change from `old` to `new` counts. -/
def valueToggleDelta (old new : Str) (width : ℤ) : ℕ :=
  if old = new then 0
  else if IsBinary old ∧ IsBinary new then
    let maxLen := max (max (old.length : ℤ) new.length) width
    ((zfill old maxLen).zip (zfill new maxLen)).countP (fun p => p.1 ≠ p.2)
  else (max 1 (min width 1)).toNat

/-- The end of the loop body of `iter_vcd`: the first value is only remembered,
each later one is compared with the one before it. -/
def Signal.record (signal : Signal) (value : Str) : Signal :=
  match signal.last with
  | none => { signal with last := some value }
  | some last =>
      let delta := valueToggleDelta last value signal.width
      if delta ≠ 0 then
        { signal with
          toggles := signal.toggles + delta
          changes := signal.changes + 1
          last := some value }
      else { signal with last := some value }

/-! ## The dispatch on a line -/

/-- What one line tells the reader to do. -/
inductive Command where
  | scope (name : Str)
  | upscope
  | var (width : ℤ) (code name : Str)
  | enddefinitions
  /-- A `#` line; `none` when its rest is not an integer. -/
  | time (t : Option ℤ)
  | change (value code : Str)
  | skip
  deriving DecidableEq, Repr

/-- `clean_name`. -/
def cleanName (name : Str) : Str := name.filter (· ≠ ' ')

/-- The header branch of `iter_vcd` on a stripped line. -/
def headerCommand (line : Str) : Except PyError Command :=
  if "$scope".toList <+: line then
    match split line with
    | _ :: _ :: name :: _ => .ok (.scope (cleanName name))
    | _ => .ok .skip
  else if "$upscope".toList <+: line then .ok .upscope
  else if "$var".toList <+: line then
    match split line with
    | _ :: _ :: w :: code :: rest =>
        -- six fields or more: `rest` is `parts[4:]`, the last of them is `$end`
        if 2 ≤ rest.length then
          match int w with
          | some width => .ok (.var width code (cleanName rest.dropLast.flatten))
          | none => .error .valueError
        else .ok .skip
    | _ => .ok .skip
  else if "$enddefinitions".toList <+: line then .ok .enddefinitions
  else .ok .skip

/-- The value and the code of a value change line. -/
def parseChange (line : Str) : Option (Str × Str) :=
  match line with
  | [] => none
  | c :: code =>
      if c ∈ "01xzXZ".toList then some ([c.toLower], code)
      else if c ∈ "bBrR".toList then
        match split line with
        | [value, code] => some (value.tail.map Char.toLower, code)
        -- `len(parts) != 2`
        | _ => none
      else none

/-- The body branch of `iter_vcd` on a stripped line. -/
def bodyCommand (line : Str) : Command :=
  -- a `#` line counts as a time step whatever its rest is
  if "#".toList <+: line then .time (int line.tail)
  else
    match parseChange line with
    | some (value, code) => .change value code
    | none => .skip

/-! ## The loop -/

/-- The local variables of `iter_vcd`. -/
structure Reader where
  signals : OrderedDict Str Signal
  scopes : List Str
  inHeader : Bool
  timeSteps : ℕ
  lastTime : ℤ

namespace Reader

/-- The variables before the first line. -/
def init : Reader where
  signals := .empty
  scopes := []
  inHeader := true
  timeSteps := 0
  lastTime := 0

/-- `".".join(scopes + [name])`. -/
def fullPath (scopes : List Str) (name : Str) : Str :=
  ['.'].intercalate (scopes ++ [name])

/-- The effect of a command.  A change of an undeclared code has none. -/
def exec (s : Reader) : Command → Reader
  | .scope name => { s with scopes := s.scopes ++ [name] }
  | .upscope => { s with scopes := s.scopes.dropLast }
  | .var width code name =>
      { s with
        signals := s.signals.setdefault code { path := fullPath s.scopes name, width := width } }
  | .enddefinitions => { s with inHeader := false }
  | .time t =>
      { s with
        timeSteps := s.timeSteps + 1
        lastTime := t.getD s.lastTime }
  | .change value code =>
      match s.signals.get? code with
      | none => s
      | some _ => { s with signals := s.signals.modify code (fun signal => signal.record value) }
  | .skip => s

/-- One turn of the loop. -/
def readLine (s : Reader) (rawLine : Str) : Except PyError Reader :=
  let line := strip rawLine
  if line = [] then .ok s
  else if s.inHeader then (headerCommand line).map s.exec
  else .ok (s.exec (bodyCommand line))

/-- The loop over the lines of the file. -/
def readLines (s : Reader) (lines : List Str) : Except PyError Reader :=
  lines.foldlM readLine s

/-- What `iter_vcd` returns: the table, `time_steps` and `last_time`. -/
def result (s : Reader) : OrderedDict Str Signal × ℕ × ℤ := (s.signals, s.timeSteps, s.lastTime)

end Reader

/-! ## The file -/

/-- `iter_vcd`. -/
def iterVcd (file : List UInt8) : Except PyError (OrderedDict Str Signal × ℕ × ℤ) :=
  (Reader.init.readLines (rawLines file)).map Reader.result

end Vcd
