/-
# Text files opened for reading

What Python's `open(path, "r", encoding="ascii", errors="ignore")` yields when a
loop runs over it: bytes outside ASCII are dropped, `\r\n` and `\r` read as `\n`,
and every line keeps its line end.

`rawLines_linesFile` is the converse: the file that holds given lines yields these
lines.
-/
import ThermalPlacement.PyText

namespace PyText

/-- `encoding="ascii", errors="ignore"`: other bytes are dropped. -/
def decodeAscii (file : List UInt8) : Str :=
  (file.filter (· < 128)).map (fun b => Char.ofNat b.toNat)

/-- Universal newlines: `\r\n` and `\r` read as `\n`. -/
def universalNewlines : Str → Str
  | [] => []
  | '\r' :: '\n' :: s => '\n' :: universalNewlines s
  | '\r' :: s => '\n' :: universalNewlines s
  | c :: s => c :: universalNewlines s

/-- The lines of a text, each with its line end. -/
def splitLines : Str → List Str
  | [] => []
  | c :: s =>
      if c = '\n' then [c] :: splitLines s
      else
        match splitLines s with
        | [] => [[c]]
        | l :: ls => (c :: l) :: ls

/-- The lines that `for raw_line in f` runs over. -/
def rawLines (file : List UInt8) : List Str := splitLines (universalNewlines (decodeAscii file))

/-- The words of a file, without regard to lines. -/
def fileTokens (file : List UInt8) : List Str := split (universalNewlines (decodeAscii file))

/-- The bytes of an ASCII text. -/
def asciiBytes (s : Str) : List UInt8 := s.map (fun c => UInt8.ofNat c.toNat)

/-- The file that holds the given lines. -/
def linesFile (lines : List Str) : List UInt8 := asciiBytes (lines.flatMap (· ++ ['\n']))

/-- Text that can stand on a line of an ASCII file. -/
def IsLine (l : Str) : Prop := l.all (fun c => c.toNat < 128 && c != '\n' && c != '\r') = true

instance (l : Str) : Decidable (IsLine l) := inferInstanceAs (Decidable (_ = true))

theorem isLine_iff (l : Str) :
    IsLine l ↔ ∀ c ∈ l, c.toNat < 128 ∧ c ≠ '\n' ∧ c ≠ '\r' := by
  simp [IsLine, and_assoc]

/-! ## Reading back what was written -/

theorem decodeAscii_asciiBytes {s : Str} (h : ∀ c ∈ s, c.toNat < 128) :
    decodeAscii (asciiBytes s) = s := by
  have hbyte : ∀ c ∈ s, (UInt8.ofNat c.toNat).toNat = c.toNat := fun c hc => by
    rw [UInt8.toNat_ofNat']
    exact Nat.mod_eq_of_lt (by have := h c hc; omega)
  have hkeep : (asciiBytes s).filter (· < 128) = asciiBytes s := by
    refine List.filter_eq_self.mpr (fun b hb => ?_)
    rcases List.mem_map.mp hb with ⟨c, hc, rfl⟩
    rw [decide_eq_true_eq, UInt8.lt_iff_toNat_lt, hbyte c hc]
    exact h c hc
  unfold decodeAscii
  rw [hkeep]
  unfold asciiBytes
  rw [List.map_map]
  refine (List.map_congr_left (fun c hc => ?_)).trans (List.map_id s)
  show Char.ofNat (UInt8.ofNat c.toNat).toNat = c
  rw [hbyte c hc, Char.ofNat_toNat]

theorem universalNewlines_of_notMem {s : Str} (h : '\r' ∉ s) : universalNewlines s = s := by
  induction s with
  | nil => rfl
  | cons c s ih =>
      have hc : c ≠ '\r' := fun e => h (e ▸ List.mem_cons_self)
      have hs : '\r' ∉ s := fun e => h (List.mem_cons_of_mem _ e)
      rw [universalNewlines, ih hs]
      · rintro s' rfl
        exact absurd rfl hc
      · rintro rfl
        exact absurd rfl hc

theorem splitLines_append_newline {l : Str} (h : '\n' ∉ l) (rest : Str) :
    splitLines (l ++ '\n' :: rest) = (l ++ ['\n']) :: splitLines rest := by
  induction l with
  | nil =>
      rw [List.nil_append, splitLines, if_pos rfl]
      rfl
  | cons c l ih =>
      have hc : c ≠ '\n' := fun e => h (e ▸ List.mem_cons_self)
      have hl : '\n' ∉ l := fun e => h (List.mem_cons_of_mem _ e)
      rw [List.cons_append, splitLines, if_neg hc, ih hl]
      rfl

theorem splitLines_flatMap {lines : List Str} (h : ∀ l ∈ lines, '\n' ∉ l) :
    splitLines (lines.flatMap (· ++ ['\n'])) = lines.map (· ++ ['\n']) := by
  induction lines with
  | nil => rfl
  | cons l ls ih =>
      rw [List.flatMap_cons, List.append_assoc, List.singleton_append,
        splitLines_append_newline (h l List.mem_cons_self),
        ih (fun m hm => h m (List.mem_cons_of_mem _ hm)), List.map_cons]

/-- **Reading yields the lines that were written.** -/
theorem rawLines_linesFile {lines : List Str} (h : ∀ l ∈ lines, IsLine l) :
    rawLines (linesFile lines) = lines.map (· ++ ['\n']) := by
  have hchars : ∀ c ∈ lines.flatMap (· ++ ['\n']), c.toNat < 128 ∧ c ≠ '\r' := by
    intro c hc
    rcases List.mem_flatMap.mp hc with ⟨l, hl, hc⟩
    rcases List.mem_append.mp hc with hc | hc
    · obtain ⟨h1, -, h3⟩ := (isLine_iff l).mp (h l hl) c hc
      exact ⟨h1, h3⟩
    · rw [List.mem_singleton.mp hc]
      exact ⟨by decide, by decide⟩
  unfold rawLines linesFile
  rw [decodeAscii_asciiBytes (fun c hc => (hchars c hc).1),
    universalNewlines_of_notMem (fun hc => (hchars _ hc).2 rfl)]
  exact splitLines_flatMap (fun l hl hc => ((isLine_iff l).mp (h l hl) _ hc).2.1 rfl)

/-! ## Words across lines -/

/-- The first line of a text ends in a line end, unless it is the only one. -/
theorem splitLines_eq_cons {s l : Str} {ls : List Str} (h : splitLines s = l :: ls) :
    (ls = [] ∨ ∃ l', l = l' ++ ['\n']) ∧ ∃ s', s = l ++ s' ∧ splitLines s' = ls := by
  induction s generalizing l ls with
  | nil => cases h
  | cons c s ih =>
      rw [splitLines] at h
      split_ifs at h with hc
      · obtain ⟨rfl, rfl⟩ := List.cons.inj h
        exact ⟨Or.inr ⟨[], by rw [hc]; rfl⟩, s, rfl, rfl⟩
      · cases hs : splitLines s with
        | nil =>
            rw [hs] at h
            obtain ⟨rfl, rfl⟩ := List.cons.inj h
            -- a text without lines is empty, so this is the last line
            have hnil : s = [] := by
              cases s with
              | nil => rfl
              | cons d s =>
                  rw [splitLines] at hs
                  split_ifs at hs
                  split at hs <;> cases hs
            exact ⟨Or.inl rfl, [], by rw [hnil]; rfl, rfl⟩
        | cons m ms =>
            rw [hs] at h
            obtain ⟨rfl, rfl⟩ := List.cons.inj h
            obtain ⟨hend, s', rfl, hs'⟩ := ih hs
            refine ⟨?_, s', rfl, hs'⟩
            rcases hend with hend | ⟨l', rfl⟩
            · exact Or.inl hend
            · exact Or.inr ⟨c :: l', rfl⟩

/-- **Line ends are white space**: the words of a text are the words of its lines. -/
theorem split_eq_flatMap_splitLines (s : Str) : split s = (splitLines s).flatMap split := by
  generalize hls : splitLines s = ls
  induction ls generalizing s with
  | nil =>
      cases s with
      | nil => rfl
      | cons c s =>
          rw [splitLines] at hls
          split_ifs at hls
          split at hls <;> cases hls
  | cons l ls ih =>
      obtain ⟨hend, s', rfl, hs'⟩ := splitLines_eq_cons hls
      rw [List.flatMap_cons, ← ih s' hs']
      rcases hend with rfl | ⟨l', rfl⟩
      · -- no line follows, so no word does
        have hnil : split s' = [] := by
          rw [ih s' hs']
          rfl
        cases s' with
        | nil => rw [List.append_nil, split_nil, List.append_nil]
        | cons c s' =>
            have hc : isSpace c = true := (split_eq_nil_iff _).mp hnil c List.mem_cons_self
            rw [split_append_cons _ hc, split_cons_space hc]
      · rw [List.append_assoc, List.singleton_append, split_append_cons _ (by rfl),
          split_append_space _ (by rfl)]

theorem fileTokens_eq (file : List UInt8) : fileTokens file = (rawLines file).flatMap split :=
  split_eq_flatMap_splitLines _

/-! ## Parts of a file -/

end PyText
