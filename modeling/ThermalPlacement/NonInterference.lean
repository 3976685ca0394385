/-
# Signals do not interfere

Two files share their lines up to and including an `$enddefinitions` line and differ
in what follows.  No hypothesis is made on any line: the shared part may raise, and
the bodies may hold anything.

A code whose value changes are the same in both bodies has the same table entry after
both (`non_interference`).  Exchanging neighbouring changes of different codes leaves
the value changes of every code alone, hence the table.
-/
import ThermalPlacement.VcdRun

open PyText

namespace Vcd

/-! ## Two bodies -/

/-- Neighbouring value changes of different codes are exchanged. -/
def SwapsChanges (B B' : List Str) : Prop :=
  ∃ (pre post : List Str) (l l' v c v' c' : Str), B = pre ++ l :: l' :: post ∧
    B' = pre ++ l' :: l :: post ∧ bodyCommand (strip l) = .change v c ∧
    bodyCommand (strip l') = .change v' c' ∧ c ≠ c'

theorem bodyCommands_append (xs ys : List Str) :
    bodyCommands (xs ++ ys) = bodyCommands xs ++ bodyCommands ys := List.map_append

/-- An exchange changes the value sequence of no code. -/
theorem valuesOf_of_swapsChanges {B B' : List Str} (h : SwapsChanges B B') (code : Str) :
    valuesOf code (bodyCommands B) = valuesOf code (bodyCommands B') := by
  obtain ⟨pre, post, l, l', v, c, v', c', rfl, rfl, hl, hl', hne⟩ := h
  rw [bodyCommands_append, bodyCommands_append, valuesOf_append, valuesOf_append]
  congr 1
  show valuesOf code (bodyCommand (strip l) :: bodyCommand (strip l') :: bodyCommands post)
    = valuesOf code (bodyCommand (strip l') :: bodyCommand (strip l) :: bodyCommands post)
  rw [hl, hl']
  simp only [valuesOf_cons_change]
  by_cases hc : c = code
  · have hc' : c' ≠ code := fun e => hne (hc.trans e.symm)
    rw [if_pos hc, if_neg hc', if_neg hc', if_pos hc]
  · rw [if_neg hc, if_neg hc]

/-- **Non-interference.**  After the same header, a code with the same value changes
in both bodies has the same entry in both tables, and exchanging neighbouring changes
of different codes changes nothing.  If the header raises, both files raise alike. -/
theorem non_interference (file file' : List UInt8) (H B B' : List Str)
    (hfile : rawLines file = H ++ B) (hfile' : rawLines file' = H ++ B')
    (hend : ∃ e ∈ H, IsEnddefinitions e) :
    (∃ err, iterVcd file = .error err ∧ iterVcd file' = .error err) ∨
    ∃ r r', iterVcd file = .ok r ∧ iterVcd file' = .ok r' ∧
      (∀ code, valuesOf code (bodyCommands B) = valuesOf code (bodyCommands B') →
        r.1.get? code = r'.1.get? code) ∧
      (SwapsChanges B B' → r.1 = r'.1) := by
  unfold iterVcd
  rw [hfile, hfile', Reader.readLines_append, Reader.readLines_append]
  cases hread : Reader.init.readLines H with
  | error err => exact Or.inl ⟨err, rfl, rfl⟩
  | ok s =>
      -- both runs go on from the state after the shared lines, in the body
      have hs : s.inHeader = false := Reader.inHeader_readLines (Or.inr hend) hread
      refine Or.inr ⟨(s.execAll (bodyCommands B)).result, (s.execAll (bodyCommands B')).result,
        ?_, ?_, fun code hcode => ?_, fun hswap => ?_⟩
      · show (s.readLines B).map Reader.result = _
        rw [Reader.readLines_body hs]
        rfl
      · show (s.readLines B').map Reader.result = _
        rw [Reader.readLines_body hs]
        rfl
      · unfold Reader.result
        dsimp only
        rw [Reader.signals_execAll_body _ _ (fun _ => inBody_of_mem_bodyCommands),
          Reader.signals_execAll_body _ _ (fun _ => inBody_of_mem_bodyCommands),
          OrderedDict.get?_mapVals, OrderedDict.get?_mapVals, hcode]
      · unfold Reader.result
        dsimp only
        rw [Reader.signals_execAll_body _ _ (fun _ => inBody_of_mem_bodyCommands),
          Reader.signals_execAll_body _ _ (fun _ => inBody_of_mem_bodyCommands)]
        refine OrderedDict.mapVals_congr (fun e _ => ?_)
        rw [valuesOf_of_swapsChanges hswap e.1]

/-- A header with two one-bit variables. -/
def twoBitHeader : List Str :=
  ["$var wire 1 ! a $end", "$var wire 1 # b $end", "$enddefinitions $end"].map String.toList

/-- The changes of `!` among a time mark, a change of `#` and a line of garbage. -/
def busyBody : List Str := ["#0", "1!", "0#", "no command", "0!"].map String.toList

/-- The changes of `!` alone. -/
def quietBody : List Str := ["1!", "0!"].map String.toList

theorem non_interference_twoBit :
    ∃ r r', iterVcd (linesFile (twoBitHeader ++ busyBody)) = .ok r ∧
      iterVcd (linesFile (twoBitHeader ++ quietBody)) = .ok r' ∧
      r.1.get? ['!'] = r'.1.get? ['!'] := by
  have hlines : ∀ body, (∀ l ∈ twoBitHeader ++ body, IsLine l) →
      rawLines (linesFile (twoBitHeader ++ body))
        = twoBitHeader.map (· ++ ['\n']) ++ body.map (· ++ ['\n']) := by
    intro body h
    rw [rawLines_linesFile h, List.map_append]
  rcases non_interference _ _ _ _ _ (hlines busyBody (by decide +kernel))
    (hlines quietBody (by decide +kernel))
    ⟨"$enddefinitions $end\n".toList, by decide +kernel, ⟨" $end".toList, rfl⟩⟩ with
    ⟨err, herr, -⟩ | ⟨r, r', hr, hr', hget, -⟩
  · have hok : (iterVcd (linesFile (twoBitHeader ++ busyBody))).toOption.isSome = true := rfl
    rw [herr] at hok
    cases hok
  · exact ⟨r, r', hr, hr', hget _ rfl⟩

end Vcd
