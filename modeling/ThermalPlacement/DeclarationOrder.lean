/-
# Region reports and the order of declarations

A net that is declared under several scopes is one code with several paths; `setdefault`
keeps the first.  The region report therefore depends on the order of the declarations
only through the first declaration of each code: if two orders put first declarations
that have the same width, pass the clock filter alike and classify alike, the region
reports are equal (`regions_eq_of_declarations`).
-/
import ThermalPlacement.HeaderForest
import ThermalPlacement.Outputs

open PyText Vcd

namespace Activity

/-! ## Sums over a table -/

theorem sum_filter_map {α M : Type*} [AddCommMonoid M] (p : α → Bool) (f : α → M) (l : List α) :
    ((l.filter p).map f).sum = (l.map (fun a => if p a = true then f a else 0)).sum := by
  induction l with
  | nil => rfl
  | cons a l ih =>
      by_cases ha : p a = true
      · rw [List.filter_cons_of_pos ha, List.map_cons, List.map_cons, List.sum_cons, List.sum_cons,
          if_pos ha, ih]
      · rw [List.filter_cons_of_neg ha, List.map_cons, List.sum_cons, if_neg ha, zero_add, ih]

theorem keeps_iff (job : Job) (signal : Signal) :
    job.keeps signal = true ↔ ¬ (job.excludeClocks = true ∧ clockSearch signal.path = true) := by
  unfold Job.keeps
  cases job.excludeClocks <;> cases clockSearch signal.path <;> simp

section

variable [PyStr]

/-! ## Tables that differ in paths -/

/-- Two paths are treated alike: both are dropped, or both are kept and classify to one
region. -/
def SameVerdict (terms : Terms) (excludeClocks : Bool) (path path' : Str) : Prop :=
  (excludeClocks = true ∧ clockSearch path = true ↔
      excludeClocks = true ∧ clockSearch path' = true) ∧
    (¬ (excludeClocks = true ∧ clockSearch path = true) →
      classify path terms = classify path' terms)

instance (terms : Terms) (excludeClocks : Bool) (path path' : Str) :
    Decidable (SameVerdict terms excludeClocks path path') :=
  inferInstanceAs (Decidable (_ ∧ _))

/-- Two signals count alike in a region report. -/
structure CountAlike (job : Job) (signal signal' : Signal) : Prop where
  width : signal.width = signal'.width
  toggles : signal.toggles = signal'.toggles
  verdict : SameVerdict job.terms job.excludeClocks signal.path signal'.path

/-- Two tables with the same codes whose entries count alike. -/
structure TablesAlike (job : Job) (signals signals' : OrderedDict Str Signal) : Prop where
  keys : signals.keys.Perm signals'.keys
  entries : ∀ code signal signal', signals.get? code = some signal →
    signals'.get? code = some signal' → CountAlike job signal signal'

theorem CountAlike.mem_iff {job : Job} {signal signal' : Signal} (h : CountAlike job signal signal')
    (category : Str) :
    (job.keeps signal = true ∧ job.category signal = category) ↔
      (job.keeps signal' = true ∧ job.category signal' = category) := by
  have hverdict := h.verdict
  unfold SameVerdict at hverdict
  rw [keeps_iff, keeps_iff, ← hverdict.1]
  constructor
  · rintro ⟨hkeep, hcategory⟩
    exact ⟨hkeep, (hverdict.2 hkeep).symm.trans hcategory⟩
  · rintro ⟨hkeep, hcategory⟩
    exact ⟨hkeep, (hverdict.2 hkeep).trans hcategory⟩

/-- A sum over the members of a region, as a sum over the codes. -/
theorem sum_members_eq {M : Type*} [AddCommMonoid M] (job : Job) (signals : OrderedDict Str Signal)
    (category : Str) (f : Signal → M) :
    ((job.members signals category).map f).sum
      = (signals.keys.map (fun code => ((signals.get? code).map (fun signal =>
          if job.keeps signal = true ∧ job.category signal = category then f signal else 0)).getD
            0)).sum := by
  have hkeys : ∀ g : Signal → M, (signals.values.map g).sum
      = (signals.keys.map (fun code => ((signals.get? code).map g).getD 0)).sum := by
    intro g
    unfold OrderedDict.values OrderedDict.keys
    rw [List.map_map, List.map_map]
    congr 1
    refine List.map_congr_left (fun e he => ?_)
    have hget : signals.get? e.1 = some e.2 := (OrderedDict.get?_eq_some_iff _ _ _).mpr he
    show g e.2 = ((signals.get? e.1).map g).getD 0
    rw [hget]
    rfl
  -- the two filters become the condition of a summand
  unfold Job.members Job.kept
  rw [List.filter_filter, sum_filter_map, hkeys]
  congr 1
  refine List.map_congr_left (fun code _ => ?_)
  congr 2
  funext signal
  refine if_congr ?_ rfl rfl
  rw [Bool.and_eq_true, decide_eq_true_eq, and_comm]

theorem sum_members_congr {M : Type*} [AddCommMonoid M] {job : Job}
    {signals signals' : OrderedDict Str Signal} (h : TablesAlike job signals signals')
    (category : Str) {f : Signal → M}
    (hf : ∀ signal signal', CountAlike job signal signal' → f signal = f signal') :
    ((job.members signals category).map f).sum = ((job.members signals' category).map f).sum := by
  rw [sum_members_eq, sum_members_eq, ← (h.keys.map _).sum_eq]
  congr 1
  refine List.map_congr_left (fun code hcode => ?_)
  obtain ⟨signal, hget⟩ := (OrderedDict.mem_keys_iff _ _).mp hcode
  obtain ⟨signal', hget'⟩ := (OrderedDict.mem_keys_iff _ _).mp (h.keys.mem_iff.mp hcode)
  have halike := h.entries code signal signal' hget hget'
  rw [hget, hget']
  show (if _ then f signal else 0) = if _ then f signal' else 0
  rw [hf signal signal' halike]
  exact if_congr (halike.mem_iff category) rfl rfl

/-- Alike tables have the same totals. -/
theorem totals_congr {job : Job} {signals signals' : OrderedDict Str Signal}
    (h : TablesAlike job signals signals') (category : Str) :
    job.totals signals category = job.totals signals' category := by
  have hcount := sum_members_congr h category (f := fun _ => 1) (fun _ _ _ => rfl)
  simp only [List.map_const', List.sum_replicate, smul_eq_mul, mul_one] at hcount
  have htoggles := sum_members_congr h category (f := Signal.toggles)
    (fun _ _ halike => halike.toggles)
  have hactivity := sum_members_congr h category (f := normalizedActivity job.timeSteps)
    (fun signal signal' halike => by
      unfold normalizedActivity
      rw [halike.toggles, halike.width])
  unfold Job.totals
  rw [hcount, htoggles, hactivity]

/-- A category is a region exactly if it is one of the terms or has members. -/
theorem mem_region_iff_totals (job : Job) (signals : OrderedDict Str Signal) (category : Str) :
    category ∈ (job.region signals).keys ↔
      category ∈ job.terms.keys ∨ (job.totals signals category).signals ≠ 0 := by
  rw [job.mem_keys_region]
  refine or_congr Iff.rfl ?_
  show _ ↔ (job.members signals category).length ≠ 0
  unfold Job.members
  rw [Ne, List.length_eq_zero_iff, List.filter_eq_nil_iff]
  simp

/-- **Alike tables have the same region report.** -/
theorem regions_congr {job : Job} {signals signals' : OrderedDict Str Signal}
    (h : TablesAlike job signals signals') (topSignals topSignals' : ℤ) :
    (job.writeOutputs signals topSignals).2 = (job.writeOutputs signals' topSignals').2 := by
  have hnames : job.regionNames signals = job.regionNames signals' := by
    refine sortedBy_id_eq_of_perm (OrderedDict.keys_perm (fun category => ?_))
    rw [mem_region_iff_totals, mem_region_iff_totals, totals_congr h]
  rw [Job.writeOutputs_regions, Job.writeOutputs_regions, hnames]
  refine List.map_congr_left (fun category _ => ?_)
  rw [totals_congr h]

/-! ## Two headers -/

/-- For every code, the first declarations in the two headers count alike. -/
def FirstDeclarationsAlike (terms : Terms) (excludeClocks : Bool) (header header' : List Command) :
    Prop :=
  ∀ code d d', (declarations [] header).find? (fun d => d.code = code) = some d →
    (declarations [] header').find? (fun d => d.code = code) = some d' →
    d.width = d'.width ∧ SameVerdict terms excludeClocks d.path d'.path

/-- One body under two headers with the same declarations gives alike tables. -/
theorem tablesAlike_finalTable {job : Job} {header header' body : List Command}
    (hset : ∀ d, d ∈ declarations [] header ↔ d ∈ declarations [] header')
    (hfirst : FirstDeclarationsAlike job.terms job.excludeClocks header header') :
    TablesAlike job (finalTable header body) (finalTable header' body) := by
  constructor
  · refine OrderedDict.keys_perm (fun code => ?_)
    rw [keys_finalTable, keys_finalTable, List.mem_eraseDups, List.mem_eraseDups, List.mem_map,
      List.mem_map]
    exact exists_congr (fun d => and_congr (hset d) Iff.rfl)
  · intro code signal signal' hget hget'
    rw [get?_finalTable] at hget hget'
    obtain ⟨d, hd, rfl⟩ := Option.map_eq_some_iff.mp hget
    obtain ⟨d', hd', rfl⟩ := Option.map_eq_some_iff.mp hget'
    obtain ⟨hwidth, hverdict⟩ := hfirst code d d' hd hd'
    rw [Signal.recordAll_fresh, Signal.recordAll_fresh]
    refine ⟨hwidth, ?_, hverdict⟩
    show toggleSum d.width _ = toggleSum d'.width _
    rw [hwidth]

/-- **How far region accounting is independent of the order of declarations.**  Two
dumps with one body whose headers declare the same set of paths, widths and codes give
the same region report, provided that for each code the declarations that come first
count alike. -/
theorem regions_eq_of_declarations (vcd vcd' : List UInt8) (header header' body : List Command)
    (hvcd : ReadsAs vcd header body) (hvcd' : ReadsAs vcd' header' body)
    (hset : ∀ d, d ∈ declarations [] header ↔ d ∈ declarations [] header')
    (document : Option Yaml) (terms : Terms) (hterms : loadCategoryTerms document = .ok terms)
    (workload : Str) (topSignals : ℤ) (excludeClocks : Bool)
    (hfirst : FirstDeclarationsAlike terms excludeClocks header header') :
    ∃ out out', Job.main document vcd workload topSignals excludeClocks = .ok out ∧
      Job.main document vcd' workload topSignals excludeClocks = .ok out' ∧ out.2 = out'.2 := by
  have hmain : ∀ vcd header, ReadsAs vcd header body →
      Job.main document vcd workload topSignals excludeClocks
        = .ok (Job.writeOutputs ⟨(timesOf body).length,
          ((timesOf body).reduceOption.getLast?).getD 0, workload, terms, excludeClocks⟩
          (finalTable header body) topSignals) := by
    intro vcd header hreads
    unfold Job.main
    rw [iterVcd_of_readsAs hreads, hterms]
  refine ⟨_, _, hmain vcd header hvcd, hmain vcd' header' hvcd', regions_congr ?_ _ _⟩
  exact tablesAlike_finalTable hset hfirst

end

/-! ## Two scopes in two orders -/

/-- A scope with one variable. -/
def oneNet (scope code : Str) : List Statement :=
  [.scope "module".toList scope, .var "wire".toList (.digit 1) code ['a'] [], .upscope]

/-- The net `!` rises. -/
def risingBody : List Statement :=
  [.time (.digit 0), .scalar '0' ['!'], .time (.digit 1), .scalar '1' ['!']]

/-- The dump of the two scopes in the given order. -/
def scopesDump (header : List Statement) : List UInt8 :=
  linesFile ((header ++ .enddefinitions :: risingBody).map Statement.line)

theorem readsAs_scopesDump {header : List Statement} (hheader : ∀ st ∈ header, st.IsDeclaration)
    (hwords : ∀ st ∈ header, ∀ w ∈ st.tokens, IsWord w ∧ ∀ c ∈ w, c.toNat < 128) :
    ReadsAs (scopesDump header) (header.map Statement.command)
      (risingBody.map Statement.command) := by
  refine readsAs_of_rendersAs hheader ?_ (rendersAs_linesFile ?_)
  · intro st hst
    fin_cases hst
    · trivial
    · show '0' ∈ "01xzXZ".toList
      decide
    · trivial
    · show '1' ∈ "01xzXZ".toList
      decide
  · have hfixed : ∀ st ∈ .enddefinitions :: risingBody, ∀ w ∈ st.tokens,
        IsWord w ∧ ∀ c ∈ w, c.toNat < 128 := by decide +kernel
    intro st hst
    rcases List.mem_append.mp hst with hst | hst
    · exact hwords st hst
    · exact hfixed st hst

/-- A header that declares the net of the tile first. -/
def tileUart (code code' : Str) : List Statement :=
  oneNet "tile".toList code ++ oneNet "uart".toList code'

/-- The same declarations the other way round. -/
def uartTile (code code' : Str) : List Statement :=
  oneNet "uart".toList code' ++ oneNet "tile".toList code

theorem isDeclaration_oneNet (scope code : Str) : ∀ st ∈ oneNet scope code, st.IsDeclaration := by
  intro st hst
  fin_cases hst <;> trivial

theorem isDeclaration_tileUart (code code' : Str) : ∀ st ∈ tileUart code code', st.IsDeclaration :=
  List.forall_mem_append.mpr ⟨isDeclaration_oneNet _ _, isDeclaration_oneNet _ _⟩

theorem isDeclaration_uartTile (code code' : Str) : ∀ st ∈ uartTile code code', st.IsDeclaration :=
  List.forall_mem_append.mpr ⟨isDeclaration_oneNet _ _, isDeclaration_oneNet _ _⟩

theorem perm_declarations_tileUart (code code' : Str) :
    (declarations [] ((tileUart code code').map Statement.command)).Perm
      (declarations [] ((uartTile code code').map Statement.command)) :=
  List.Perm.swap _ _ _

/-- One code declared in both scopes: its toggles go to the scope that comes first. -/
theorem declaration_order_alias :
    ReadsAs (scopesDump (tileUart ['!'] ['!'])) ((tileUart ['!'] ['!']).map Statement.command)
        (risingBody.map Statement.command) ∧
      ReadsAs (scopesDump (uartTile ['!'] ['!'])) ((uartTile ['!'] ['!']).map Statement.command)
        (risingBody.map Statement.command) ∧
      (∀ d, d ∈ declarations [] ((tileUart ['!'] ['!']).map Statement.command) ↔
        d ∈ declarations [] ((uartTile ['!'] ['!']).map Statement.command)) ∧
      ∃ out out', @Job.main asciiStr none (scopesDump (tileUart ['!'] ['!'])) [] 0 true = .ok out ∧
        @Job.main asciiStr none (scopesDump (uartTile ['!'] ['!'])) [] 0 true = .ok out' ∧
        ¬ out.2.map (fun row => (row.region, row.toggleCount))
          = out'.2.map (fun row => (row.region, row.toggleCount)) :=
  ⟨readsAs_scopesDump (isDeclaration_tileUart _ _) (by decide +kernel),
    readsAs_scopesDump (isDeclaration_uartTile _ _) (by decide +kernel),
    fun _ => (perm_declarations_tileUart _ _).mem_iff, _, _, rfl, rfl, by decide +kernel⟩

theorem regions_eq_of_declarations_swap :
    ∃ out out',
      @Job.main asciiStr none (scopesDump (tileUart ['!'] ['%'])) [] 0 true = .ok out ∧
        @Job.main asciiStr none (scopesDump (uartTile ['!'] ['%'])) [] 0 true = .ok out' ∧
        out.2 = out'.2 := by
  refine @regions_eq_of_declarations asciiStr _ _ _ _ _
    (readsAs_scopesDump (isDeclaration_tileUart _ _) (by decide +kernel))
    (readsAs_scopesDump (isDeclaration_uartTile _ _) (by decide +kernel))
    (fun _ => (perm_declarations_tileUart _ _).mem_iff) none builtinTerms rfl [] 0 true ?_
  -- each code has one declaration, so the first ones are the same
  intro code d d' hd hd'
  have hmem := (perm_declarations_tileUart ['!'] ['%']).mem_iff.mp (List.mem_of_find?_eq_some hd)
  have hcode : d.code = d'.code := by
    have h := List.find?_some hd
    have h' := List.find?_some hd'
    rw [decide_eq_true_eq] at h h'
    rw [h, h']
  have hnodup : ((declarations [] ((uartTile ['!'] ['%']).map Statement.command)).map
      Declaration.code).Nodup := by decide
  obtain rfl := List.inj_on_of_nodup_map hnodup hmem (List.mem_of_find?_eq_some hd') hcode
  exact ⟨rfl, Iff.rfl, fun _ => rfl⟩

end Activity
