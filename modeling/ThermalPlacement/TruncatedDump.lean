/-
# Dumps that end early

`run_thermal_smoke_flow.sh` stops the simulator by `timeout` and extracts the activity from
whatever dump is there, so the dump may end in the middle of a line.

* `iterVcd_of_truncated` compares a dump that ends early with the whole one, for any file and any
  place: the reader does not raise where it would not have raised on the whole dump, and all but
  one signal have counted no more.  The one signal is that of the last line, which may have lost
  the end of its name, or the end of the code of the signal that it is about.
* `regions_of_truncated`: after the header, at most one region has got more toggles.
-/
import ThermalPlacement.DeclarationOrder

namespace PyText

/-! ## Parts of a text -/

theorem prefix_decodeAscii {file file' : List UInt8} (h : file <+: file') :
    decodeAscii file <+: decodeAscii file' :=
  (h.filter _).map _

/-- A text that ends between `\r` and `\n` has the same line ends. -/
theorem prefix_universalNewlines {s t : Str} (h : s <+: t) :
    universalNewlines s <+: universalNewlines t := by
  obtain ⟨u, rfl⟩ := h
  induction s using universalNewlines.induct with
  | case1 => exact List.nil_prefix
  | case2 s ih =>
      rw [List.cons_append, List.cons_append, universalNewlines, universalNewlines]
      exact (List.prefix_cons_inj _).mpr ih
  | case3 s hs ih =>
      rw [universalNewlines]
      · cases hsu : s ++ u with
        | nil =>
            obtain ⟨rfl, rfl⟩ := List.append_eq_nil_iff.mp hsu
            exact List.prefix_rfl
        | cons d v =>
            rw [List.cons_append, hsu]
            by_cases hd : d = '\n'
            · -- the text ends after `\r`
              subst hd
              cases s with
              | nil =>
                  rw [universalNewlines]
                  exact List.prefix_append ['\n'] _
              | cons e s =>
                  obtain ⟨rfl, -⟩ := List.cons.inj hsu
                  exact absurd rfl (hs s)
            · rw [universalNewlines, ← hsu]
              · exact (List.prefix_cons_inj _).mpr ih
              · rintro v' hv
                exact hd (List.cons.inj hv).1
      · exact hs
  | case4 c s h₁ h₂ ih =>
      rw [List.cons_append, universalNewlines, universalNewlines]
      · exact (List.prefix_cons_inj _).mpr ih
      · rintro v rfl
        exact absurd rfl h₂
      · rintro rfl
        exact absurd rfl h₂
      · exact h₁
      · exact h₂

/-- **A text that ends early** has the same lines, except that its last one may end early. -/
theorem prefix_splitLines {s t : Str} (h : s <+: t) :
    splitLines s = [] ∨ ∃ ls l l' rest, splitLines s = ls ++ [l] ∧
      splitLines t = ls ++ l' :: rest ∧ l <+: l' := by
  obtain ⟨u, rfl⟩ := h
  induction s with
  | nil => exact Or.inl rfl
  | cons c s ih =>
      right
      rw [List.cons_append, splitLines, splitLines]
      split_ifs with hc
      · obtain hnil | ⟨ls, l, l', rest, hs, ht, hl⟩ := ih
        · exact ⟨[], [c], [c], splitLines (s ++ u), by rw [hnil, List.nil_append], rfl,
            List.prefix_rfl⟩
        · exact ⟨[c] :: ls, l, l', rest, by rw [hs, List.cons_append], by rw [ht, List.cons_append],
            hl⟩
      · obtain hnil | ⟨ls, l, l', rest, hs, ht, hl⟩ := ih
        · rw [hnil]
          cases splitLines (s ++ u) with
          | nil => exact ⟨[], [c], [c], [], rfl, rfl, List.prefix_rfl⟩
          | cons m ms => exact ⟨[], [c], c :: m, ms, rfl, rfl, List.prefix_append [c] m⟩
        · rw [hs, ht]
          cases ls with
          | nil => exact ⟨[], c :: l, c :: l', rest, rfl, rfl, (List.prefix_cons_inj c).mpr hl⟩
          | cons m ms => exact ⟨(c :: m) :: ms, l, l', rest, rfl, rfl, hl⟩

theorem prefix_dropWhile {s t : Str} (h : s <+: t) (p : Char → Bool) :
    s.dropWhile p <+: t.dropWhile p := by
  obtain ⟨u, rfl⟩ := h
  induction s with
  | nil => exact List.nil_prefix
  | cons c s ih =>
      rw [List.cons_append, List.dropWhile_cons, List.dropWhile_cons]
      split_ifs
      · exact ih
      · exact List.prefix_append (c :: s) u

theorem prefix_rdropWhile {s t : Str} (h : s <+: t) (p : Char → Bool) :
    s.rdropWhile p <+: t.rdropWhile p := by
  obtain ⟨u, rfl⟩ := h
  induction u using List.reverseRecOn with
  | nil => rw [List.append_nil]
  | append_singleton u c ih =>
      rw [← List.append_assoc]
      by_cases hc : p c = true
      · rwa [List.rdropWhile_concat_pos _ _ _ hc]
      · rw [List.rdropWhile_concat_neg _ _ _ hc, List.append_assoc]
        exact (List.rdropWhile_prefix p s).trans (List.prefix_append _ _)

theorem prefix_strip {s t : Str} (h : s <+: t) : strip s <+: strip t :=
  prefix_rdropWhile (prefix_dropWhile h isSpace) isSpace

/-- A text, cut before the last word that may go on. -/
theorem exists_last_word (s : Str) : ∃ a b, s = a ++ b ∧ (∀ c ∈ b, isSpace c = false) ∧
    ∀ t, split (a ++ t) = split a ++ split t := by
  induction s using List.reverseRecOn with
  | nil => exact ⟨[], [], rfl, by simp, fun t => rfl⟩
  | append_singleton s c ih =>
      by_cases hc : isSpace c = true
      · refine ⟨s ++ [c], [], (List.append_nil _).symm, by simp, fun t => ?_⟩
        rw [List.append_assoc, List.singleton_append, split_append_cons s hc, split_append_space s hc]
      · obtain ⟨a, b, rfl, hb, ha⟩ := ih
        refine ⟨a, b ++ [c], by rw [List.append_assoc], fun d hd => ?_, ha⟩
        rcases List.mem_append.mp hd with hd | hd
        · exact hb d hd
        · rw [List.mem_singleton.mp hd]
          simpa using hc

/-- **A line that ends early** has the same words, except that its last one may end early. -/
theorem prefix_split {s t : Str} (h : s <+: t) :
    split s = [] ∨ ∃ ws w w' rest, split s = ws ++ [w] ∧ split t = ws ++ w' :: rest ∧ w <+: w' := by
  obtain ⟨u, rfl⟩ := h
  obtain ⟨a, b, rfl, hb, ha⟩ := exists_last_word s
  rw [List.append_assoc, ha, ha]
  cases b with
  | nil =>
      rw [List.nil_append, split_nil, List.append_nil]
      obtain hnil | ⟨ws, w, hws⟩ := (split a).eq_nil_or_concat'
      · exact Or.inl hnil
      · refine Or.inr ⟨ws, w, w, split u, hws, ?_, List.prefix_rfl⟩
        rw [hws, List.append_assoc, List.singleton_append]
  | cons c b =>
      right
      have hc : isSpace c = false := hb c List.mem_cons_self
      rw [split_word ⟨List.cons_ne_nil c b, hb⟩, List.cons_append, split_takeWhile_append c _ hc,
        ← List.cons_append]
      refine ⟨split a, c :: b, _, _, rfl, rfl, ?_⟩
      rw [List.takeWhile_append_of_pos fun d hd => by rw [hb d hd]; rfl]
      exact List.prefix_append _ _

end PyText

open PyText

namespace Vcd

/-! ## Readers that have read more -/

/-- The same signal, after more changes. -/
structure Signal.Before (signal signal' : Signal) : Prop where
  path : signal.path = signal'.path
  width : signal.width = signal'.width
  toggles : signal.toggles ≤ signal'.toggles
  changes : signal.changes ≤ signal'.changes

theorem Signal.Before.refl (signal : Signal) : signal.Before signal := ⟨rfl, rfl, le_rfl, le_rfl⟩

theorem Signal.Before.trans {a b c : Signal} (h : a.Before b) (h' : b.Before c) : a.Before c :=
  ⟨h.path.trans h'.path, h.width.trans h'.width, h.toggles.trans h'.toggles,
    h.changes.trans h'.changes⟩

/-- A change counts at most once. -/
theorem Signal.before_record (signal : Signal) (v : Str) :
    signal.Before (signal.record v) ∧ (signal.record v).changes ≤ signal.changes + 1 := by
  cases hlast : signal.last with
  | none =>
      rw [Signal.record_of_last_none hlast]
      exact ⟨⟨rfl, rfl, le_rfl, le_rfl⟩, Nat.le_succ _⟩
  | some u =>
      rw [Signal.record_of_last_some hlast]
      refine ⟨⟨rfl, rfl, Nat.le_add_right _ _, Nat.le_add_right _ _⟩, ?_⟩
      dsimp only
      split_ifs <;> omega

/-! ## Header lines that end early -/

/-- A command that leaves the table and the time steps alone. -/
def Command.IsQuiet (c : Command) : Prop :=
  ∀ s : Reader, (s.exec c).timeSteps = s.timeSteps ∧ (s.exec c).signals = s.signals

theorem headerCommand_of_not_var {line : Str} (h : ¬ "$var".toList <+: line) :
    ∃ c, headerCommand line = .ok c ∧ c.IsQuiet := by
  unfold headerCommand
  rw [if_neg h]
  split_ifs
  · split
    · exact ⟨_, rfl, fun s => ⟨rfl, rfl⟩⟩
    · exact ⟨_, rfl, fun s => ⟨rfl, rfl⟩⟩
  · exact ⟨_, rfl, fun s => ⟨rfl, rfl⟩⟩
  · exact ⟨_, rfl, fun s => ⟨rfl, rfl⟩⟩
  · exact ⟨_, rfl, fun s => ⟨rfl, rfl⟩⟩

/-- A `$var` line reads its fields. -/
theorem headerCommand_of_var {line : Str} (hvar : "$var".toList <+: line) :
    headerCommand line =
      match split line with
      | _ :: _ :: w :: code :: rest =>
          if 2 ≤ rest.length then
            match int w with
            | some width => .ok (.var width code (cleanName rest.dropLast.flatten))
            | none => .error .valueError
          else .ok .skip
      | _ => .ok .skip := by
  have hscope : ¬ "$scope".toList <+: line := fun h => by
    have := List.prefix_of_prefix_length_le hvar h (by decide)
    exact absurd this (by decide)
  have hupscope : ¬ "$upscope".toList <+: line := fun h => by
    have := List.prefix_of_prefix_length_le hvar h (by decide)
    exact absurd this (by decide)
  unfold headerCommand
  exact (if_neg hscope).trans ((if_neg hupscope).trans (if_pos hvar))

/-- With fewer than six fields it declares nothing. -/
theorem headerCommand_of_few_fields {line : Str} (hvar : "$var".toList <+: line)
    (hlength : (split line).length < 6) : headerCommand line = .ok .skip := by
  rw [headerCommand_of_var hvar]
  generalize split line = fields at hlength
  rcases fields with _ | ⟨kw, _ | ⟨kind, _ | ⟨w, _ | ⟨code, rest⟩⟩⟩⟩
  · rfl
  · rfl
  · rfl
  · rfl
  · refine if_neg (fun hrest => ?_)
    simp only [List.length_cons] at hlength
    omega

/-- What follows the code of a declaration only matters for the name. -/
theorem headerCommand_of_fields {line kw kind w code : Str} {rest : List Str}
    (hvar : "$var".toList <+: line) (hsplit : split line = kw :: kind :: w :: code :: rest)
    (hrest : 2 ≤ rest.length) : headerCommand line =
      match int w with
      | some width => .ok (.var width code (cleanName rest.dropLast.flatten))
      | none => .error .valueError := by
  rw [headerCommand_of_var hvar, hsplit]
  exact if_pos hrest

/-- **A header line that ends early** does not raise unless the whole line does, and declares at
most the same code with the same width. -/
theorem prefix_headerCommand {line line' : Str} (h : line <+: line') {c' : Command}
    (hc' : headerCommand line' = .ok c') :
    ∃ c, headerCommand line = .ok c ∧ (c.IsQuiet ∨ ∃ width code name name',
      c = .var width code name ∧ c' = .var width code name') := by
  by_cases hvar : "$var".toList <+: line
  · by_cases hlength : (split line).length < 6
    · exact ⟨_, headerCommand_of_few_fields hvar hlength, Or.inl fun s => ⟨rfl, rfl⟩⟩
    · obtain hnil | ⟨ws, w, w', rest, hline, hline', -⟩ := prefix_split h
      · rw [hnil] at hlength
        exact absurd (by decide) hlength
      · -- the last word may be cut, so the five words before it are whole
        have hws : 5 ≤ ws.length := by
          rw [hline, List.length_append, List.length_singleton] at hlength
          omega
        obtain ⟨kw, kind, width, code, name, names, rfl⟩ : ∃ kw kind width code name names,
            ws = kw :: kind :: width :: code :: name :: names := by
          match ws, hws with
          | kw :: kind :: width :: code :: name :: names, _ =>
              exact ⟨kw, kind, width, code, name, names, rfl⟩
        rw [headerCommand_of_fields (hvar.trans h) hline' (by simp; omega)] at hc'
        rw [headerCommand_of_fields hvar hline (by simp)]
        cases hwidth : int width with
        | none =>
            rw [hwidth] at hc'
            cases hc'
        | some n =>
            rw [hwidth] at hc'
            exact ⟨_, rfl, Or.inr ⟨n, code, _, _, rfl, (Except.ok.inj hc').symm⟩⟩
  · obtain ⟨c, hc, hquiet⟩ := headerCommand_of_not_var hvar
    exact ⟨c, hc, Or.inl hquiet⟩

namespace Reader

/-- A reader that has read more: more time steps, more signals, more changes. -/
structure Before (s s' : Reader) : Prop where
  timeSteps : s.timeSteps ≤ s'.timeSteps
  keys : s.signals.keys <+: s'.signals.keys
  signals : ∀ {code signal}, s.signals.get? code = some signal →
    ∃ signal', s'.signals.get? code = some signal' ∧ signal.Before signal'

theorem Before.of_eq {s s' : Reader} (hsteps : s.timeSteps = s'.timeSteps)
    (hsignals : s.signals = s'.signals) : s.Before s' :=
  ⟨hsteps.le, hsignals ▸ List.prefix_rfl, fun {_ signal} h => ⟨signal, hsignals ▸ h, .refl signal⟩⟩

theorem Before.trans {a b c : Reader} (h : a.Before b) (h' : b.Before c) : a.Before c := by
  refine ⟨h.timeSteps.trans h'.timeSteps, h.keys.trans h'.keys, fun hsignal => ?_⟩
  obtain ⟨signal', hb, hbefore⟩ := h.signals hsignal
  obtain ⟨signal'', hc, hbefore'⟩ := h'.signals hb
  exact ⟨signal'', hc, hbefore.trans hbefore'⟩

/-- No command takes anything back. -/
theorem before_exec (s : Reader) (c : Command) : s.Before (s.exec c) := by
  cases c with
  | scope name => exact .of_eq rfl rfl
  | upscope => exact .of_eq rfl rfl
  | enddefinitions => exact .of_eq rfl rfl
  | skip => exact .of_eq rfl rfl
  | time t => exact ⟨Nat.le_succ _, List.prefix_rfl, fun {_ signal} h => ⟨signal, h, .refl signal⟩⟩
  | var width code name =>
      refine ⟨le_rfl, ?_, fun {code' signal} h => ⟨signal, ?_, .refl signal⟩⟩
      · show s.signals.keys <+: (s.signals.setdefault code _).keys
        rw [OrderedDict.keys_setdefault]
        split_ifs
        · exact List.prefix_rfl
        · exact List.prefix_append _ _
      · show (s.signals.setdefault code _).get? code' = some signal
        rw [OrderedDict.get?_setdefault, h, Option.some_or]
  | change v code =>
      rw [exec_change]
      refine ⟨le_rfl, ?_, fun {code' signal} h => ?_⟩
      · show s.signals.keys <+: (s.signals.modify code _).keys
        rw [OrderedDict.keys_modify]
      · show ∃ signal', (s.signals.modify code _).get? code' = some signal' ∧ _
        rw [OrderedDict.get?_modify, h]
        split_ifs
        · exact ⟨signal.record v, rfl, (signal.before_record v).1⟩
        · exact ⟨signal, rfl, .refl signal⟩

theorem before_readLine {s s' : Reader} {line : Str} (h : s.readLine line = .ok s') :
    s.Before s' := by
  unfold readLine at h
  dsimp only at h
  split_ifs at h
  · rw [← Except.ok.inj h]
    exact .of_eq rfl rfl
  · cases hc : headerCommand (strip line) with
    | error e =>
        rw [hc] at h
        cases h
    | ok c =>
        rw [hc] at h
        rw [← Except.ok.inj h]
        exact s.before_exec c
  · rw [← Except.ok.inj h]
    exact s.before_exec _

theorem before_readLines {s s' : Reader} {lines : List Str} (h : s.readLines lines = .ok s') :
    s.Before s' := by
  induction lines generalizing s with
  | nil =>
      rw [← Except.ok.inj h]
      exact .of_eq rfl rfl
  | cons line lines ih =>
      rw [readLines, List.foldlM_cons] at h
      cases hline : s.readLine line with
      | error e =>
          rw [hline] at h
          cases h
      | ok t =>
          rw [hline] at h
          exact (before_readLine hline).trans (ih h)

/-! ## The last line -/

/-- What has been read where the dump ends early, and what is read there on the whole dump.  Only
the signal `cut` may have another name or one change more. -/
structure EndsBefore (cut : Str) (s s' : Reader) : Prop where
  timeSteps : s.timeSteps ≤ s'.timeSteps
  keys : s.signals.keys <+: s'.signals.keys
  others : ∀ {code signal}, code ≠ cut → s.signals.get? code = some signal →
    ∃ signal', s'.signals.get? code = some signal' ∧ signal.Before signal'
  last : ∀ {signal}, s.signals.get? cut = some signal →
    ∃ signal', s'.signals.get? cut = some signal' ∧ signal.width = signal'.width ∧
      signal.changes ≤ signal'.changes + 1

theorem Before.endsBefore {s s' : Reader} (h : s.Before s') (cut : Str) : s.EndsBefore cut s' := by
  refine ⟨h.timeSteps, h.keys, fun _ => h.signals, fun hsignal => ?_⟩
  obtain ⟨signal', hsignal', hbefore⟩ := h.signals hsignal
  exact ⟨signal', hsignal', hbefore.width, hbefore.changes.trans (Nat.le_succ _)⟩

theorem EndsBefore.trans {cut : Str} {a b c : Reader} (h : a.EndsBefore cut b) (h' : b.Before c) :
    a.EndsBefore cut c := by
  refine ⟨h.timeSteps.trans h'.timeSteps, h.keys.trans h'.keys, fun hne hsignal => ?_,
    fun hsignal => ?_⟩
  · obtain ⟨signal', hb, hbefore⟩ := h.others hne hsignal
    obtain ⟨signal'', hc, hbefore'⟩ := h'.signals hb
    exact ⟨signal'', hc, hbefore.trans hbefore'⟩
  · obtain ⟨signal', hb, hwidth, hchanges⟩ := h.last hsignal
    obtain ⟨signal'', hc, hbefore'⟩ := h'.signals hb
    have := hbefore'.changes
    exact ⟨signal'', hc, hwidth.trans hbefore'.width, by omega⟩

theorem endsBefore_exec_var (s : Reader) (width : ℤ) (code name name' : Str) :
    (s.exec (.var width code name)).EndsBefore code (s.exec (.var width code name')) := by
  refine ⟨le_rfl, ?_, fun {code' signal} hne hsignal => ?_, fun {signal} hsignal => ?_⟩
  · show (s.signals.setdefault code _).keys <+: (s.signals.setdefault code _).keys
    rw [OrderedDict.keys_setdefault, OrderedDict.keys_setdefault]
  · change (s.signals.setdefault code _).get? code' = some signal at hsignal
    show ∃ signal', (s.signals.setdefault code _).get? code' = some signal' ∧ _
    rw [OrderedDict.get?_setdefault, if_neg hne] at hsignal ⊢
    exact ⟨signal, hsignal, .refl signal⟩
  · change (s.signals.setdefault code _).get? code = some signal at hsignal
    show ∃ signal', (s.signals.setdefault code _).get? code = some signal' ∧ _
    rw [OrderedDict.get?_setdefault, if_pos rfl] at hsignal ⊢
    cases hold : s.signals.get? code with
    | none =>
        rw [hold, Option.none_or] at hsignal
        obtain rfl := Option.some.inj hsignal
        exact ⟨_, rfl, rfl, Nat.le_succ _⟩
    | some old =>
        rw [hold, Option.some_or] at hsignal
        obtain rfl := Option.some.inj hsignal
        exact ⟨_, rfl, rfl, Nat.le_succ _⟩

/-- A body line that ends early counts a time step only if the whole line does, and gives a value
to at most one signal. -/
theorem exists_endsBefore_bodyCommand (s : Reader) {line line' : Str} (h : line <+: line') :
    ∃ cut, (s.exec (bodyCommand line)).EndsBefore cut (s.exec (bodyCommand line')) := by
  by_cases hhash : "#".toList <+: line
  · unfold bodyCommand
    rw [if_pos hhash, if_pos (hhash.trans h)]
    have hbefore : (s.exec (.time (int line.tail))).Before (s.exec (.time (int line'.tail))) :=
      .of_eq rfl rfl
    exact ⟨[], hbefore.endsBefore []⟩
  · have hwhole := s.before_exec (bodyCommand line')
    cases hchange : parseChange line with
    | none =>
        have hskip : bodyCommand line = .skip := by
          unfold bodyCommand
          rw [if_neg hhash, hchange]
        rw [hskip]
        exact ⟨[], hwhole.endsBefore []⟩
    | some vc =>
        obtain ⟨v, code⟩ := vc
        have hcommand : bodyCommand line = .change v code := by
          unfold bodyCommand
          rw [if_neg hhash, hchange]
        rw [hcommand, exec_change]
        refine ⟨code, hwhole.timeSteps, ?_, fun {code' signal} hne hsignal => ?_,
          fun {signal} hsignal => ?_⟩
        · show (s.signals.modify code _).keys <+: _
          rw [OrderedDict.keys_modify]
          exact hwhole.keys
        · change (s.signals.modify code _).get? code' = some signal at hsignal
          rw [OrderedDict.get?_modify, if_neg hne] at hsignal
          exact hwhole.signals hsignal
        · change (s.signals.modify code _).get? code = some signal at hsignal
          rw [OrderedDict.get?_modify, if_pos rfl] at hsignal
          obtain ⟨old, hold, rfl⟩ := Option.map_eq_some_iff.mp hsignal
          obtain ⟨signal', hsignal', hbefore⟩ := hwhole.signals hold
          obtain ⟨hrecord, hchanges⟩ := old.before_record v
          exact ⟨signal', hsignal', hrecord.width.symm.trans hbefore.width,
            hchanges.trans (Nat.succ_le_succ hbefore.changes)⟩

/-- **The last line.**  A line that ends early does not raise unless the whole line does. -/
theorem exists_readLine_of_truncated {s s' : Reader} {line line' : Str} (h : line <+: line')
    (hs' : s.readLine line' = .ok s') :
    ∃ t cut, s.readLine line = .ok t ∧ t.EndsBefore cut s' := by
  have hwhole := before_readLine hs'
  have hstrip := prefix_strip h
  unfold readLine at hs' ⊢
  dsimp only at hs' ⊢
  by_cases hblank : strip line = []
  · rw [if_pos hblank]
    exact ⟨s, [], rfl, hwhole.endsBefore []⟩
  · have hblank' : strip line' ≠ [] := fun hnil => hblank (List.prefix_nil.mp (hnil ▸ hstrip))
    rw [if_neg hblank] at ⊢
    rw [if_neg hblank'] at hs'
    split_ifs at hs' ⊢ with hheader
    · obtain ⟨c', hc', rfl⟩ : ∃ c', headerCommand (strip line') = .ok c' ∧ s' = s.exec c' := by
        cases hc' : headerCommand (strip line') with
        | error e =>
            rw [hc'] at hs'
            cases hs'
        | ok c' =>
            rw [hc'] at hs'
            exact ⟨c', rfl, (Except.ok.inj hs').symm⟩
      obtain ⟨c, hc, hquiet | ⟨width, code, name, name', rfl, rfl⟩⟩ := prefix_headerCommand hstrip hc'
      · obtain ⟨hsteps, hsignals⟩ := hquiet s
        rw [hc]
        exact ⟨_, [], rfl, ((Before.of_eq hsteps hsignals).trans hwhole).endsBefore []⟩
      · rw [hc]
        exact ⟨_, code, rfl, s.endsBefore_exec_var width code name name'⟩
    · obtain rfl := Except.ok.inj hs'
      obtain ⟨cut, hcut⟩ := s.exists_endsBefore_bodyCommand hstrip
      exact ⟨_, cut, rfl, hcut⟩

end Reader

/-- The states at the ends of a dump and of its prefix. -/
theorem Reader.exists_readLines_of_truncated {vcd whole : List UInt8} (h : vcd <+: whole)
    {s' : Reader} (hs' : Reader.init.readLines (rawLines whole) = .ok s') :
    ∃ t cut, Reader.init.readLines (rawLines vcd) = .ok t ∧ t.EndsBefore cut s' := by
  obtain hnil | ⟨ls, l, l', rest, hvcd, hlines, hl⟩ :=
    prefix_splitLines (prefix_universalNewlines (prefix_decodeAscii h))
  · rw [show rawLines vcd = [] from hnil]
    exact ⟨_, [], rfl, (Reader.before_readLines hs').endsBefore []⟩
  · rw [show rawLines whole = ls ++ l' :: rest from hlines] at hs'
    rw [show rawLines vcd = ls ++ [l] from hvcd]
    rw [Reader.readLines_append] at hs' ⊢
    cases hs : Reader.init.readLines ls with
    | error e =>
        rw [hs] at hs'
        cases hs'
    | ok s =>
        rw [hs] at hs'
        change s.readLines (l' :: rest) = .ok s' at hs'
        show ∃ t cut, s.readLines [l] = .ok t ∧ t.EndsBefore cut s'
        rw [Reader.readLines_cons] at hs' ⊢
        cases hline : s.readLine l' with
        | error e =>
            rw [hline] at hs'
            cases hs'
        | ok u =>
            rw [hline] at hs'
            -- the cut goes through this line, the rest of the whole dump only adds to it
            obtain ⟨t, cut, ht, hends⟩ := Reader.exists_readLine_of_truncated hl hline
            rw [ht]
            exact ⟨t, cut, rfl, hends.trans (Reader.before_readLines hs')⟩

theorem exists_readLines_of_iterVcd {vcd : List UInt8} {signals : OrderedDict Str Signal}
    {timeSteps : ℕ} {lastTime : ℤ} (h : iterVcd vcd = .ok (signals, timeSteps, lastTime)) :
    ∃ s, Reader.init.readLines (rawLines vcd) = .ok s ∧
      s.signals = signals ∧ s.timeSteps = timeSteps := by
  unfold iterVcd at h
  cases hs : Reader.init.readLines (rawLines vcd) with
  | error e =>
      rw [hs] at h
      cases h
  | ok s =>
      rw [hs] at h
      obtain ⟨hsignals, hrest⟩ := Prod.mk.inj (Except.ok.inj h)
      exact ⟨s, rfl, hsignals, (Prod.mk.inj hrest).1⟩

/-- **A dump that ends early**, at any byte.  If the reader does not raise on the whole dump, it
does not raise here either.  It finds no more time steps, the signals come in the same order, and
all but one have the path and the width that they have in the whole dump and have counted no more.
The one left has the same width, and at most one change more than in the whole dump. -/
theorem iterVcd_of_truncated {vcd whole : List UInt8} (h : vcd <+: whole)
    {signals : OrderedDict Str Signal} {timeSteps : ℕ} {lastTime : ℤ}
    (hwhole : iterVcd whole = .ok (signals, timeSteps, lastTime)) :
    ∃ signals' timeSteps' lastTime' cut, iterVcd vcd = .ok (signals', timeSteps', lastTime') ∧
      timeSteps' ≤ timeSteps ∧ signals'.keys <+: signals.keys ∧
      (∀ code ≠ cut, ∀ signal', signals'.get? code = some signal' →
        ∃ signal, signals.get? code = some signal ∧ signal'.Before signal) ∧
      ∀ signal', signals'.get? cut = some signal' → ∃ signal, signals.get? cut = some signal ∧
        signal'.width = signal.width ∧ signal'.changes ≤ signal.changes + 1 := by
  obtain ⟨s', hs', rfl, rfl⟩ := exists_readLines_of_iterVcd hwhole
  obtain ⟨t, cut, ht, hends⟩ := Reader.exists_readLines_of_truncated h hs'
  refine ⟨t.signals, t.timeSteps, t.lastTime, cut, ?_, hends.timeSteps, hends.keys, ?_, ?_⟩
  · rw [iterVcd, ht]
    rfl
  · exact fun code hne signal' hsignal' => hends.others hne hsignal'
  · exact fun signal' hsignal' => hends.last hsignal'

/-- Two nets, the code of the one a prefix of that of the other. -/
def borrowedHeader : List Command := [.var 1 ['!'] ['a'], .var 1 ['!', '"'] ['b']]

/-- The dump in which both are `0`, and the second becomes `1` at time 5. -/
def borrowedLines : List Str :=
  ["$var wire 1 ! a $end", "$var wire 1 !\" b $end", "$enddefinitions $end", "#0", "0!", "0!\"",
    "#5", "1!\""].map String.toList

/-- Without the last two bytes, the change at time 5 is one of the other net. -/
def borrowedDump : List UInt8 := (linesFile borrowedLines).take 79

theorem prefix_borrowedDump : borrowedDump <+: linesFile borrowedLines := List.take_prefix _ _

theorem iterVcd_of_truncated_borrowed :
    ∃ signals timeSteps lastTime, iterVcd borrowedDump = .ok (signals, timeSteps, lastTime) ∧
      timeSteps ≤ 2 ∧ signals.keys <+: [['!'], ['!', '"']] := by
  obtain ⟨signals, timeSteps, lastTime, cut, hread, hsteps, hkeys, -⟩ :=
    iterVcd_of_truncated prefix_borrowedDump rfl
  exact ⟨signals, timeSteps, lastTime, hread, hsteps, hkeys⟩

-- a change more than in the whole dump
example : (iterVcd borrowedDump).map (fun r => r.1.values.map Signal.changes) = .ok [1, 0] ∧
    (iterVcd (linesFile borrowedLines)).map (fun r => r.1.values.map Signal.changes)
      = .ok [0, 1] := by decide +kernel

end Vcd

open Vcd

namespace Activity

section

variable [PyStr]

/-! ## The regions of a dump that ends early -/

theorem mem_regionNames_iff_get? (job : Job) (signals : OrderedDict Str Signal) (category : Str) :
    category ∈ job.regionNames signals ↔ category ∈ job.terms.keys ∨
      ∃ code signal, signals.get? code = some signal ∧ job.keeps signal = true ∧
        job.category signal = category := by
  rw [Job.mem_regionNames]
  refine or_congr_right ⟨?_, ?_⟩
  · rintro ⟨signal, hkept, hcategory⟩
    obtain ⟨hmem, hkeeps⟩ := List.mem_filter.mp hkept
    obtain ⟨e, he, rfl⟩ := List.mem_map.mp hmem
    exact ⟨e.1, e.2, (OrderedDict.get?_eq_some_iff _ _ _).mpr he, hkeeps, hcategory⟩
  · rintro ⟨code, signal, hget, hkeeps, hcategory⟩
    have he := (OrderedDict.get?_eq_some_iff _ _ _).mp hget
    exact ⟨signal, List.mem_filter.mpr ⟨List.mem_map_of_mem he, hkeeps⟩, hcategory⟩

/-- Tables with the same codes in the same order, and the same paths. -/
structure SamePaths (signals signals' : OrderedDict Str Signal) : Prop where
  keys : signals.keys = signals'.keys
  path : ∀ {code signal signal'}, signals.get? code = some signal →
    signals'.get? code = some signal' → signal.path = signal'.path

omit [PyStr] in
theorem SamePaths.symm {signals signals' : OrderedDict Str Signal} (h : SamePaths signals signals') :
    SamePaths signals' signals :=
  ⟨h.keys.symm, fun hget hget' => (h.path hget' hget).symm⟩

omit [PyStr] in
theorem SamePaths.exists_get? {signals signals' : OrderedDict Str Signal}
    (h : SamePaths signals signals') {code : Str} {signal : Signal}
    (hget : signals.get? code = some signal) : ∃ signal', signals'.get? code = some signal' := by
  have hkey : code ∈ signals.keys := (OrderedDict.mem_keys_iff _ _).mpr ⟨signal, hget⟩
  rw [h.keys] at hkey
  exact (OrderedDict.mem_keys_iff _ _).mp hkey

/-- Jobs that treat paths alike. -/
structure SameFilter (job job' : Job) : Prop where
  terms : job.terms = job'.terms
  excludeClocks : job.excludeClocks = job'.excludeClocks

section

variable {job job' : Job} {signals signals' : OrderedDict Str Signal}

omit [PyStr] in
theorem SameFilter.symm (h : SameFilter job job') : SameFilter job' job :=
  ⟨h.terms.symm, h.excludeClocks.symm⟩

omit [PyStr] in
theorem SameFilter.keeps_eq (h : SameFilter job job') {signal signal' : Signal}
    (hpath : signal.path = signal'.path) : job.keeps signal = job'.keeps signal' := by
  unfold Job.keeps
  rw [h.excludeClocks, hpath]

theorem SameFilter.category_eq (h : SameFilter job job') {signal signal' : Signal}
    (hpath : signal.path = signal'.path) : job.category signal = job'.category signal' := by
  unfold Job.category
  rw [h.terms, hpath]

/-- Sums over the members of a region compare code by code. -/
theorem SamePaths.sum_members_le (h : SamePaths signals signals') (hjob : SameFilter job job')
    {category : Str} {f : Signal → ℕ}
    (hf : ∀ {code signal signal'}, signals.get? code = some signal →
      signals'.get? code = some signal' → job'.category signal' = category →
      f signal ≤ f signal') :
    ((job.members signals category).map f).sum ≤ ((job'.members signals' category).map f).sum := by
  rw [sum_members_eq, sum_members_eq, ← h.keys]
  refine List.sum_le_sum (fun code hcode => ?_)
  obtain ⟨signal, hget⟩ := (OrderedDict.mem_keys_iff _ _).mp hcode
  obtain ⟨signal', hget'⟩ := h.exists_get? hget
  have hpath := h.path hget hget'
  rw [hget, hget']
  show (if _ then f signal else 0) ≤ if _ then f signal' else 0
  rw [hjob.keeps_eq hpath, hjob.category_eq hpath]
  split_ifs with hmember
  · exact hf hget hget' hmember.2
  · exact le_rfl

theorem SamePaths.length_members_le (h : SamePaths signals signals') (hjob : SameFilter job job')
    (category : Str) :
    (job.members signals category).length ≤ (job'.members signals' category).length := by
  have hsum : ((job.members signals category).map fun _ => 1).sum
      ≤ ((job'.members signals' category).map fun _ => 1).sum :=
    h.sum_members_le hjob (fun _ _ _ => le_rfl)
  simpa using hsum

theorem SamePaths.subset_regionNames (h : SamePaths signals signals') (hjob : SameFilter job job')
    {category : Str} (hmem : category ∈ job.regionNames signals) :
    category ∈ job'.regionNames signals' := by
  rw [mem_regionNames_iff_get?] at hmem ⊢
  obtain hterm | ⟨code, signal, hget, hkeeps, hcategory⟩ := hmem
  · exact Or.inl (hjob.terms ▸ hterm)
  · obtain ⟨signal', hget'⟩ := h.exists_get? hget
    have hpath := h.path hget hget'
    exact Or.inr ⟨code, signal', hget', (hjob.keeps_eq hpath).symm.trans hkeeps,
      (hjob.category_eq hpath).symm.trans hcategory⟩

theorem SamePaths.regionNames_eq (h : SamePaths signals signals') (hjob : SameFilter job job') :
    job.regionNames signals = job'.regionNames signals' := by
  refine sortedBy_id_eq_of_perm (OrderedDict.keys_perm fun category => ?_)
  have hnames : category ∈ job.regionNames signals ↔ category ∈ job'.regionNames signals' :=
    ⟨h.subset_regionNames hjob, h.symm.subset_regionNames hjob.symm⟩
  exact (mem_sortedBy.symm.trans hnames).trans mem_sortedBy

end

/-- **The regions of a dump that ends early** after its header: they have the names and the numbers
of signals that they have for the whole dump, and all but one have no more toggles. -/
theorem regions_of_truncated {vcd whole : List UInt8} (h : vcd <+: whole)
    {header body body' : List Command} (hvcd : ReadsAs vcd header body)
    (hwhole : ReadsAs whole header body') {document : Option Yaml} {workload : Str} {topSignals : ℤ}
    {excludeClocks : Bool} {out out' : List SignalRow × List RegionRow}
    (hout : Job.main document vcd workload topSignals excludeClocks = .ok out)
    (hout' : Job.main document whole workload topSignals excludeClocks = .ok out') :
    ∃ cut, List.Forall₂ (fun row row' => row.region = row'.region ∧
      row.signalCount = row'.signalCount ∧ row.timeSteps ≤ row'.timeSteps ∧
      (row.region ≠ cut → row.toggleCount ≤ row'.toggleCount)) out.2 out'.2 := by
  have hread := iterVcd_of_readsAs hvcd
  have hread' := iterVcd_of_readsAs hwhole
  obtain ⟨terms, hterms⟩ : ∃ terms, loadCategoryTerms document = .ok terms := by
    unfold Job.main at hout
    rw [hread] at hout
    cases hterms : loadCategoryTerms document with
    | error e =>
        rw [hterms] at hout
        cases hout
    | ok terms => exact ⟨terms, rfl⟩
  obtain ⟨_, _, _, hsame, rfl⟩ := Job.exists_of_main hterms hout
  obtain ⟨_, _, _, hsame', rfl⟩ := Job.exists_of_main hterms hout'
  obtain rfl := (Prod.mk.inj (Except.ok.inj (hread.symm.trans hsame))).1
  obtain rfl := (Prod.mk.inj (Except.ok.inj (hread'.symm.trans hsame'))).1
  obtain ⟨s, hs, hsignals, rfl⟩ := exists_readLines_of_iterVcd hsame
  obtain ⟨s', hs', hsignals', rfl⟩ := exists_readLines_of_iterVcd hsame'
  obtain ⟨_, code, hcut, hends⟩ := Reader.exists_readLines_of_truncated h hs'
  obtain rfl := Except.ok.inj (hcut.symm.trans hs)
  have hpaths : SamePaths (finalTable header body) (finalTable header body') := by
    refine ⟨by simp only [finalTable, OrderedDict.keys_mapVals], fun hget hget' => ?_⟩
    unfold finalTable at hget hget'
    rw [OrderedDict.get?_mapVals] at hget hget'
    obtain ⟨signal, hsignal, rfl⟩ := Option.map_eq_some_iff.mp hget
    obtain ⟨signal', hsignal', rfl⟩ := Option.map_eq_some_iff.mp hget'
    obtain rfl := Option.some.inj (hsignal.symm.trans hsignal')
    rw [Signal.recordAll_eq, Signal.recordAll_eq]
  have hjob : ∀ {steps steps' : ℕ} {last last' : ℤ},
      SameFilter ⟨steps, last, workload, terms, excludeClocks⟩
        ⟨steps', last', workload, terms, excludeClocks⟩ := ⟨rfl, rfl⟩
  -- the one region is that of the one signal
  refine ⟨(((finalTable header body').get? code).map (fun signal => classify signal.path terms)).getD
    [], ?_⟩
  rw [Job.writeOutputs_regions, Job.writeOutputs_regions, hpaths.regionNames_eq hjob,
    List.forall₂_map_left_iff, List.forall₂_map_right_iff, List.forall₂_same]
  refine fun category _ => ⟨rfl, le_antisymm (hpaths.length_members_le hjob category)
    (hpaths.symm.length_members_le hjob category), hends.timeSteps, fun hne => ?_⟩
  refine hpaths.sum_members_le hjob (fun {code' signal signal'} hget hget' hcategory => ?_)
  have hcode : code' ≠ code := by
    rintro rfl
    rw [hget'] at hne
    exact hne hcategory.symm
  obtain ⟨signal'', hsignal'', hbefore⟩ := hends.others hcode (hsignals.symm ▸ hget)
  rw [hsignals'] at hsignal''
  obtain rfl := Option.some.inj (hget'.symm.trans hsignal'')
  exact hbefore.toggles

omit [PyStr] in
theorem regions_of_truncated_borrowed :
    ∃ rows rows' cut, List.Forall₂ (fun row row' : RegionRow => row.region = row'.region ∧
      row.signalCount = row'.signalCount ∧ row.timeSteps ≤ row'.timeSteps ∧
      (row.region ≠ cut → row.toggleCount ≤ row'.toggleCount)) rows rows' ∧ rows ≠ [] := by
  have hheader : ∀ c ∈ borrowedHeader, c.InHeader := by simp [borrowedHeader, Command.InHeader]
  have hlines : rawLines borrowedDump = (rawLines borrowedDump).take 2
      ++ "$enddefinitions $end\n".toList :: (rawLines borrowedDump).drop 3 := by decide +kernel
  have hlines' : rawLines (linesFile borrowedLines) = (rawLines borrowedDump).take 2
      ++ "$enddefinitions $end\n".toList :: (rawLines (linesFile borrowedLines)).drop 3 := by
    decide +kernel
  have hreads : HeaderReads ((rawLines borrowedDump).take 2) borrowedHeader :=
    .cons rfl (.cons rfl .nil)
  have hvcd : ReadsAs borrowedDump borrowedHeader _ :=
    ⟨hheader, _, _, _, hlines, hreads, rfl, rfl⟩
  have hwhole : ReadsAs (linesFile borrowedLines) borrowedHeader _ :=
    ⟨hheader, _, _, _, hlines', hreads, rfl, rfl⟩
  obtain ⟨cut, hrows⟩ := @regions_of_truncated asciiStr _ _ prefix_borrowedDump _ _ _ hvcd hwhole none
    ['w'] 0 false _ _ rfl rfl
  exact ⟨_, _, cut, hrows, by decide +kernel⟩

end

end Activity
