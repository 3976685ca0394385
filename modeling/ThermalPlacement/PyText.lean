/-
# Python text as a list of characters

The `str` methods and the `int` conversion that line-oriented Python scripts
are made of, over `Str = List Char`:

* `strip`, `split` with no argument, `startswith` (as `<+:`), `zfill`;
* `int`, the decimal literal grammar of `int(str)`.

The facts the later files use relate `strip` and `split` of one line:

* `split_strip` : stripping a line does not change its words;
* `strip_eq_append_of_split` : a stripped line begins with its first word, and
  what follows that word is empty or begins with white space;
* `prefix_strip_iff` : a keyword without white space begins the stripped line
  exactly when it begins the first word.
-/
import Mathlib

/-- A Python `str`. -/
abbrev Str := List Char

/-- `==` of texts is their equality. -/
instance lawfulBEqStr : LawfulBEq Str := inferInstance

/-- A test on the characters of a text runs over the text, not over all characters. -/
instance (priority := 2000) decidableForallMem (s : Str) (p : Char → Prop) [DecidablePred p] :
    Decidable (∀ c ∈ s, p c) := List.decidableBAll p s

namespace PyText

/-- The exceptions that the modelled scripts can raise. -/
inductive PyError where
  | valueError
  | typeError
  | attributeError
  | systemExit
  /-- A text is too long for the interpreter: `OverflowError` or `MemoryError`. -/
  | overflowError
  deriving DecidableEq, Repr

/-- A sequence of two steps that succeeds has succeeded in both. -/
theorem exists_of_bind_eq_ok {ε α β : Type*} {x : Except ε α} {f : α → Except ε β} {b : β}
    (h : x.bind f = .ok b) : ∃ a, x = .ok a ∧ f a = .ok b := by
  cases x with
  | error err => cases h
  | ok a => exact ⟨a, rfl, h⟩

theorem exists_of_map_eq_ok {ε α β : Type*} {x : Except ε α} {f : α → β} {b : β}
    (h : x.map f = .ok b) : ∃ a, x = .ok a ∧ f a = b := by
  cases x with
  | error err => cases h
  | ok a => exact ⟨a, rfl, Except.ok.inj h⟩

/-- **Invariants of loops that may raise.**  What every step that succeeds preserves holds in
the end. -/
theorem foldlM_induction {ε α β : Type*} {f : β → α → Except ε β} {P : β → Prop}
    (hstep : ∀ b a b', P b → f b a = .ok b' → P b') {l : List α} {b b' : β} (hb : P b)
    (h : l.foldlM f b = .ok b') : P b' := by
  induction l generalizing b with
  | nil =>
      obtain rfl := Except.ok.inj h
      exact hb
  | cons a l ih =>
      rw [List.foldlM_cons] at h
      obtain ⟨b₁, hfirst, h⟩ := exists_of_bind_eq_ok h
      exact ih (hstep b a b₁ hb hfirst) h

/-- What is left after a stretch has been dropped does not begin as the stretch does. -/
theorem eq_false_of_mem_head?_dropWhile {α : Type*} {p : α → Bool} {l : List α} {a : α}
    (ha : a ∈ (l.dropWhile p).head?) : p a = false := by
  have h := List.head?_dropWhile_not p l
  rw [Option.mem_def.mp ha] at h
  simpa using h

/-! ## White space -/

/-- `str.isspace()` of one character. -/
def isSpace (c : Char) : Bool :=
  let n := c.toNat
  (0x09 ≤ n && n ≤ 0x0d) || (0x1c ≤ n && n ≤ 0x20) || n == 0x85 || n == 0xa0 ||
    n == 0x1680 || (0x2000 ≤ n && n ≤ 0x200a) || n == 0x2028 || n == 0x2029 ||
    n == 0x202f || n == 0x205f || n == 0x3000

/-- A nonempty text without white space: what `split` returns. -/
def IsWord (w : Str) : Prop := w ≠ [] ∧ ∀ c ∈ w, isSpace c = false

instance (w : Str) : Decidable (IsWord w) := inferInstanceAs (Decidable (_ ∧ ∀ c ∈ w, _))

/-- `str.strip()`. -/
def strip (s : Str) : Str := (s.dropWhile isSpace).rdropWhile isSpace

/-- `str.split()`: the maximal runs of characters that are not white space. -/
def split (s : Str) : List Str := (s.splitOnP isSpace).filter (fun w => !w.isEmpty)

@[simp] theorem split_nil : split [] = [] := rfl

/-- Leading white space does not change the words. -/
theorem split_cons_space {c : Char} (hc : isSpace c = true) (s : Str) :
    split (c :: s) = split s := by
  rw [split, List.splitOnP_cons_eq_if_modifyHead, if_pos hc]
  simp [split]

/-- A text without white space is its own only word. -/
theorem split_word {w : Str} (hw : IsWord w) : split w = [w] := by
  obtain ⟨hne, hns⟩ := hw
  rw [split, List.splitOnP_eq_singleton hns]
  cases w with
  | nil => exact absurd rfl hne
  | cons c w => rfl

/-- White space separates the words before it from the words after it. -/
theorem split_append_cons (s : Str) {c : Char} (hc : isSpace c = true) (t : Str) :
    split (s ++ c :: t) = split s ++ split t := by
  rw [split, List.splitOnP_append_cons s t hc, List.filter_append]
  rfl

theorem split_append_space (s : Str) {c : Char} (hc : isSpace c = true) :
    split (s ++ [c]) = split s := by
  rw [split_append_cons s hc, split_nil, List.append_nil]

theorem split_dropWhile (s : Str) : split (s.dropWhile isSpace) = split s := by
  induction s with
  | nil => rfl
  | cons c s ih =>
      by_cases hc : isSpace c = true
      · rw [List.dropWhile_cons_of_pos hc, ih, split_cons_space hc]
      · rw [List.dropWhile_cons_of_neg hc]

theorem split_rdropWhile (s : Str) : split (s.rdropWhile isSpace) = split s := by
  induction s using List.reverseRecOn with
  | nil => rfl
  | append_singleton s c ih =>
      by_cases hc : isSpace c = true
      · rw [List.rdropWhile_concat_pos _ _ _ hc, ih, split_append_space s hc]
      · rw [List.rdropWhile_concat_neg _ _ _ hc]

/-- Stripping a line does not change its words. -/
theorem split_strip (s : Str) : split (strip s) = split s := by
  rw [strip, split_rdropWhile, split_dropWhile]

/-! ## The first word of a line -/

/-- A text that does not begin with white space, cut after its first word. -/
theorem split_takeWhile_append (c : Char) (s : Str) (hc : isSpace c = false) :
    split (c :: s) = (c :: s).takeWhile (fun d => !isSpace d) ::
      split ((c :: s).dropWhile (fun d => !isSpace d)) := by
  have hword : IsWord ((c :: s).takeWhile (fun d => !isSpace d)) := by
    refine ⟨by simp [hc], fun d hd => ?_⟩
    simpa using List.mem_takeWhile_imp hd
  conv_lhs => rw [← List.takeWhile_append_dropWhile (p := fun d => !isSpace d) (l := c :: s)]
  cases hrest : (c :: s).dropWhile (fun d => !isSpace d) with
  | nil => rw [List.append_nil, split_word hword, split_nil]
  | cons e t =>
      have he : isSpace e = true := by
        have hhead : e ∈ ((c :: s).dropWhile (fun d => !isSpace d)).head? := by rw [hrest]; rfl
        simpa using eq_false_of_mem_head?_dropWhile hhead
      rw [split_append_cons _ he, split_word hword, split_cons_space he]
      rfl

/-- Every word of a line is a nonempty text without white space. -/
theorem isWord_of_mem_split {s w : Str} (hw : w ∈ split s) : IsWord w := by
  rw [split, List.mem_filter] at hw
  obtain ⟨hmem, hne⟩ := hw
  refine ⟨by simpa using hne, ?_⟩
  clear hne
  induction s generalizing w with
  | nil =>
      simp only [List.splitOnP_nil, List.mem_singleton] at hmem
      simp [hmem]
  | cons c s ih =>
      rw [List.splitOnP_cons_eq_if_modifyHead] at hmem
      obtain ⟨v, vs, hv⟩ := List.exists_cons_of_ne_nil (List.splitOnP_ne_nil isSpace s)
      rw [hv] at hmem ih
      split_ifs at hmem with hc
      · -- white space closes a piece, which is empty so far
        rcases List.mem_cons.mp hmem with rfl | h
        · simp
        · exact ih h
      · rw [List.modifyHead_cons] at hmem
        rcases List.mem_cons.mp hmem with rfl | h
        · intro d hd
          rcases List.mem_cons.mp hd with rfl | hd
          · simpa using hc
          · exact ih List.mem_cons_self d hd
        · exact ih (List.mem_cons_of_mem _ h)

/-- `rdropWhile` stops at a word. -/
theorem rdropWhile_word_append {w : Str} (hw : IsWord w) (t : Str) :
    (w ++ t).rdropWhile isSpace = w ++ t.rdropWhile isSpace := by
  induction t using List.reverseRecOn with
  | nil =>
      rw [List.append_nil, List.rdropWhile_nil, List.append_nil, List.rdropWhile_eq_self_iff]
      intro hl
      simp [hw.2 _ (List.getLast_mem hl)]
  | append_singleton t c ih =>
      rw [← List.append_assoc]
      by_cases hc : isSpace c = true
      · rw [List.rdropWhile_concat_pos _ _ _ hc, List.rdropWhile_concat_pos _ _ _ hc, ih]
      · rw [List.rdropWhile_concat_neg _ _ _ hc, List.rdropWhile_concat_neg _ _ _ hc,
          List.append_assoc]

/-- **The shape of a stripped line.**  It begins with its first word; what
follows is empty or begins with white space, and holds the other words. -/
theorem strip_eq_append_of_split {s w : Str} {ws : List Str} (h : split s = w :: ws) :
    ∃ t, strip s = w ++ t ∧ split t = ws ∧ ∀ c ∈ t.head?, isSpace c = true := by
  have hstrip : strip s = (s.dropWhile isSpace).rdropWhile isSpace := rfl
  rw [← split_dropWhile] at h
  cases hs : s.dropWhile isSpace with
  | nil => rw [hs] at h; simp at h
  | cons c r =>
      have hc : isSpace c = false :=
        eq_false_of_mem_head?_dropWhile (l := s) (by rw [hs]; exact Option.mem_some_self c)
      rw [hs] at h hstrip
      have hword : IsWord w := isWord_of_mem_split (s := c :: r) (by rw [h]; simp)
      rw [split_takeWhile_append c r hc] at h
      obtain ⟨hw, hws⟩ := List.cons.inj h
      -- `rest` is what follows the first word, before the right end is stripped
      set rest := (c :: r).dropWhile (fun d => !isSpace d) with hrest
      refine ⟨rest.rdropWhile isSpace, ?_, ?_, ?_⟩
      · rw [hstrip, ← List.takeWhile_append_dropWhile (p := fun d => !isSpace d) (l := c :: r),
          ← hrest, hw, rdropWhile_word_append hword]
      · rw [split_rdropWhile, hws]
      · -- stripping keeps the first character of `rest`, which ended the word
        intro d hd
        have hpre : rest.rdropWhile isSpace <+: rest := List.rdropWhile_prefix _ _
        have hhead : rest.head? = some d := by
          obtain ⟨u, hu⟩ := hpre
          rw [← hu]
          cases hr : rest.rdropWhile isSpace with
          | nil => rw [hr] at hd; simp at hd
          | cons e v => rw [hr] at hd; simpa using hd
        simpa using eq_false_of_mem_head?_dropWhile (Option.mem_def.mpr hhead)

/-- A text without words is white space throughout. -/
theorem split_eq_nil_iff (s : Str) : split s = [] ↔ ∀ c ∈ s, isSpace c = true := by
  induction s with
  | nil => simp
  | cons c s ih =>
      by_cases hc : isSpace c = true
      · rw [split_cons_space hc, ih]
        simp [hc]
      · rw [split_takeWhile_append c s (by simpa using hc)]
        simp [hc]

/-- A line is blank exactly when it has no word. -/
theorem strip_eq_nil_iff (s : Str) : strip s = [] ↔ split s = [] := by
  constructor
  · intro h
    rw [← split_strip, h, split_nil]
  · intro h
    have hdrop : s.dropWhile isSpace = [] :=
      List.dropWhile_eq_nil_iff.mpr ((split_eq_nil_iff s).mp h)
    rw [strip, hdrop, List.rdropWhile_nil]

/-- A line of one word is that word and white space around it. -/
theorem strip_of_split_singleton {s w : Str} (h : split s = [w]) : strip s = w := by
  obtain ⟨t, hst, ht, -⟩ := strip_eq_append_of_split h
  cases t with
  | nil => rw [hst, List.append_nil]
  | cons c t =>
      -- a trailing white space would have been stripped
      exfalso
      have hne : strip s ≠ [] := by simp [hst]
      have hlast : (strip s).getLast hne ∈ c :: t := by
        simp only [hst, List.getLast_append_of_ne_nil _ (List.cons_ne_nil c t)]
        exact List.getLast_mem _
      exact List.rdropWhile_last_not isSpace (s.dropWhile isSpace) hne
        ((split_eq_nil_iff _).mp ht _ hlast)

/-- **Keywords.**  A keyword without white space begins the stripped line exactly
when it begins the line's first word. -/
theorem prefix_strip_iff {s w : Str} {ws : List Str} (h : split s = w :: ws) {kw : Str}
    (hkw : kw.all (fun c => !isSpace c) = true) : kw <+: strip s ↔ kw <+: w := by
  obtain ⟨t, hst, -, hhead⟩ := strip_eq_append_of_split h
  rw [hst]
  constructor
  · intro hpre
    rcases Nat.lt_or_ge w.length kw.length with hlt | hge
    · -- a longer keyword would contain the white space that ends the word
      exfalso
      cases t with
      | nil =>
          have := hpre.length_le
          simp at this
          omega
      | cons c t =>
          have hget : kw[w.length]? = some c := by
            obtain ⟨u, hu⟩ := hpre
            have := congrArg (fun l => l[w.length]?) hu
            simp only [List.getElem?_append_left hlt] at this
            rw [this, List.getElem?_append_right (Nat.le_refl _)]
            simp
          have hc := List.all_eq_true.mp hkw c (List.mem_of_getElem? hget)
          simp [hhead c (by simp)] at hc
    · exact List.prefix_of_prefix_length_le hpre (List.prefix_append w t) hge
  · intro hpre
    exact hpre.trans (List.prefix_append w t)

/-- A joined text holds nothing but the separator and the parts. -/
theorem mem_or_mem_of_mem_intercalate {sep : Str} {ws : List Str} {c : Char}
    (h : c ∈ sep.intercalate ws) : c ∈ sep ∨ ∃ w ∈ ws, c ∈ w := by
  induction ws with
  | nil => exact absurd h List.not_mem_nil
  | cons w ws ih =>
      cases ws with
      | nil =>
          rw [List.intercalate_singleton] at h
          exact Or.inr ⟨w, List.mem_cons_self, h⟩
      | cons v vs =>
          rw [List.intercalate_cons_cons, List.mem_append, List.mem_append] at h
          rcases h with (h | h) | h
          · exact Or.inr ⟨w, List.mem_cons_self, h⟩
          · exact Or.inl h
          · rcases ih h with h | ⟨x, hx, hc⟩
            · exact Or.inl h
            · exact Or.inr ⟨x, List.mem_cons_of_mem _ hx, hc⟩

/-- Words joined by single white space characters are split again. -/
theorem split_intercalate_of_isSpace {c : Char} (hc : isSpace c = true) {ws : List Str}
    (h : ∀ w ∈ ws, IsWord w) : split ([c].intercalate ws) = ws := by
  induction ws with
  | nil => rfl
  | cons w ws ih =>
      have hw := split_word (h w List.mem_cons_self)
      cases ws with
      | nil => rw [List.intercalate_singleton, hw]
      | cons v vs =>
          rw [List.intercalate_cons_cons, List.append_assoc, List.singleton_append,
            split_append_cons _ hc, hw, ih (fun x hx => h x (List.mem_cons_of_mem _ hx))]
          rfl

/-! ## Padding -/

/-- `str.zfill(width)`: zeros on the left, after a leading sign.  What happens where the
text gets too long for the interpreter is in `MalformedLines`. -/
def zfill (s : Str) (width : ℤ) : Str :=
  let pad := List.replicate (width - s.length).toNat '0'
  match s with
  | [] => pad
  | c :: rest => if c = '+' ∨ c = '-' then c :: (pad ++ rest) else pad ++ c :: rest

/-- Without a sign, `zfill` pads on the left. -/
theorem zfill_eq_replicate_append {s : Str} (width : ℤ) (hs : ∀ c ∈ s, c ≠ '+' ∧ c ≠ '-') :
    zfill s width = List.replicate (width - s.length).toNat '0' ++ s := by
  cases s with
  | nil => simp [zfill]
  | cons c rest =>
      obtain ⟨h1, h2⟩ := hs c List.mem_cons_self
      simp only [zfill]
      rw [if_neg (by simp [h1, h2])]

/-! ## Decimal literals -/

/-- The white space that `int` accepts around an ASCII literal. -/
def isLiteralSpace (c : Char) : Bool := (0x09 ≤ c.toNat && c.toNat ≤ 0x0d) || c == ' '

/-- The digits of a literal after its first one; single underscores may stand
between digits. -/
def intDigits : ℕ → Str → Option ℕ
  | acc, [] => some acc
  | acc, '_' :: c :: cs =>
      if c.isDigit then intDigits (10 * acc + (c.toNat - '0'.toNat)) cs else none
  | acc, c :: cs =>
      if c.isDigit then intDigits (10 * acc + (c.toNat - '0'.toNat)) cs else none

/-- An unsigned literal: a digit, then `intDigits`. -/
def intLiteral : Str → Option ℕ
  | c :: cs => if c.isDigit then intDigits (c.toNat - '0'.toNat) cs else none
  | [] => none

/-- `int(s)` on ASCII text; `none` is `ValueError`.  Integers are unbounded, as
in the language; the limit that an interpreter may set on the number of digits is
in `MalformedLines`. -/
def int (s : Str) : Option ℤ :=
  match (s.dropWhile isLiteralSpace).rdropWhile isLiteralSpace with
  | '+' :: ds => (intLiteral ds).map (fun n => (n : ℤ))
  | '-' :: ds => (intLiteral ds).map (fun n => -(n : ℤ))
  | ds => (intLiteral ds).map (fun n => (n : ℤ))

/-- A nonempty text of decimal digits. -/
def IsNumber (s : Str) : Prop := s ≠ [] ∧ ∀ c ∈ s, c.isDigit = true

instance (s : Str) : Decidable (IsNumber s) := inferInstanceAs (Decidable (_ ∧ ∀ c ∈ s, _))

/-- The number that decimal digits denote. -/
def numberValue (s : Str) : ℕ := Nat.ofDigitChars 10 s 0

/-- A plain decimal numeral: one or more digits. -/
structure Decimal where
  digits : Str
  ne_nil : digits ≠ []
  isDigit : digits.all Char.isDigit = true

/-- The numeral of the last digit of `n`. -/
def Decimal.digit (n : ℕ) : Decimal where
  digits := [Nat.digitChar (n % 10)]
  ne_nil := List.cons_ne_nil _ _
  isDigit := by
    have hall : ∀ m < 10, [Nat.digitChar m].all Char.isDigit = true := by decide
    exact hall (n % 10) (Nat.mod_lt n (by decide))

/-- The number a numeral denotes. -/
def Decimal.value (d : Decimal) : ℕ := Nat.ofDigitChars 10 d.digits 0

theorem ne_underscore_of_isDigit {c : Char} (hc : c.isDigit = true) : c ≠ '_' := by
  rintro rfl
  exact absurd hc (by decide)

theorem intDigits_of_isDigit (ds : Str) (hds : ∀ c ∈ ds, c.isDigit = true) (acc : ℕ) :
    intDigits acc ds = some (Nat.ofDigitChars 10 ds acc) := by
  induction ds generalizing acc with
  | nil => simp [intDigits]
  | cons c cs ih =>
      have hc := hds c List.mem_cons_self
      rw [intDigits, if_pos hc, ih (fun d hd => hds d (List.mem_cons_of_mem _ hd)),
        Nat.ofDigitChars_cons]
      exact fun d ds h => absurd h (ne_underscore_of_isDigit hc)

theorem isLiteralSpace_of_isDigit {c : Char} (hc : c.isDigit = true) :
    isLiteralSpace c = false := by
  simp only [Char.isDigit, Bool.and_eq_true, decide_eq_true_eq, ge_iff_le, UInt32.le_iff_toNat_le]
    at hc
  have h0 : ('0'.val).toNat = 48 := rfl
  have hval : c.toNat = c.val.toNat := rfl
  simp only [isLiteralSpace, Bool.or_eq_false_iff, Bool.and_eq_false_iff, decide_eq_false_iff_not,
    beq_eq_false_iff_ne]
  refine ⟨by omega, ?_⟩
  rintro rfl
  exact absurd hc.1 (by decide)

/-- **`int` reads a numeral back.** -/
theorem int_digits (d : Decimal) : int d.digits = some (d.value : ℤ) := by
  obtain ⟨digits, hne, hall⟩ := d
  have hds := List.all_eq_true.mp hall
  have hns : ∀ c ∈ digits, isLiteralSpace c = false :=
    fun c hc => isLiteralSpace_of_isDigit (hds c hc)
  cases digits with
  | nil => exact absurd rfl hne
  | cons c cs =>
      have hc := hds c List.mem_cons_self
      have hcs : ∀ e ∈ cs, e.isDigit = true := fun e he => hds e (List.mem_cons_of_mem _ he)
      have htrim : ((c :: cs).dropWhile isLiteralSpace).rdropWhile isLiteralSpace = c :: cs := by
        rw [List.dropWhile_cons_of_neg (by simp [hns c List.mem_cons_self]),
          List.rdropWhile_eq_self_iff]
        intro hl
        simp [hns _ (List.getLast_mem hl)]
      have hplus : c ≠ '+' := by rintro rfl; exact absurd hc (by decide)
      have hminus : c ≠ '-' := by rintro rfl; exact absurd hc (by decide)
      have hlit : intLiteral (c :: cs) = some (Nat.ofDigitChars 10 (c :: cs) 0) := by
        rw [intLiteral, if_pos hc, intDigits_of_isDigit cs hcs, Nat.ofDigitChars_cons]
        simp
      rw [int, htrim]
      split
      · rename_i h; exact absurd (List.cons.inj h).1 hplus
      · rename_i h; exact absurd (List.cons.inj h).1 hminus
      · rw [hlit]; rfl

end PyText
