/-
# Header decoding undoes header encoding

The header of a dump is a flat listing of a forest: scopes nested in scopes, each
holding variables.  `forestStatements` writes a forest down as `$scope`, `$var`
and `$upscope` statements; `forestVariables` reads the variables off the tree, each
with the chain of scopes it stands in.

The reader only has a stack.  By mutual induction over the forest the stack equals
the position in the tree at every variable and is back where it was after every
scope (`declarations_forest`, `scopesAfter_forest`).  Hence the table after the
header holds, for every code, the first variable of the forest that carries it
(`header_decoding`).
-/
import ThermalPlacement.VcdSyntax

open PyText

namespace Vcd

/-- A variable, or a scope with what it contains. -/
inductive Item where
  | var (kind : Str) (width : Decimal) (code name : Str) (range : List Str)
  | scope (kind name : Str) (items : List Item)

mutual
/-- The statements a writer emits for one item. -/
def Item.statements : Item → List Statement
  | .var kind width code name range => [.var kind width code name range]
  | .scope kind name items => .scope kind name :: (forestStatements items ++ [.upscope])

/-- The statements a writer emits for a forest. -/
def forestStatements : List Item → List Statement
  | [] => []
  | item :: items => item.statements ++ forestStatements items
end

mutual
/-- The variables of an item that stands inside the scopes `chain`. -/
def Item.variables (chain : List Str) : Item → List Declaration
  | .var _ width code name range =>
      [⟨code, ['.'].intercalate (chain ++ [name ++ range.flatten]), width.value⟩]
  | .scope _ name items => forestVariables (chain ++ [name]) items

/-- The variables of a forest, in the order in which they are written. -/
def forestVariables (chain : List Str) : List Item → List Declaration
  | [] => []
  | item :: items => item.variables chain ++ forestVariables chain items
end

/-- The commands of a forest. -/
def forestCommands (items : List Item) : List Command :=
  (forestStatements items).map Statement.command

theorem forestCommands_cons (item : Item) (items : List Item) :
    forestCommands (item :: items)
      = item.statements.map Statement.command ++ forestCommands items := by
  unfold forestCommands
  rw [forestStatements, List.map_append]

theorem commands_scope (kind name : Str) (items : List Item) :
    (Item.scope kind name items).statements.map Statement.command
      = .scope name :: (forestCommands items ++ [.upscope]) := by
  rw [Item.statements, List.map_cons, List.map_append]
  rfl

/-! ## The stack is the position in the tree -/

mutual
theorem declarations_item (chain : List Str) (rest : List Command) : ∀ item : Item,
    declarations chain (item.statements.map Statement.command ++ rest)
      = item.variables chain ++ declarations chain rest
  | .var kind width code name range => by
      rw [Item.statements, Item.variables]
      rfl
  | .scope kind name items => by
      -- the scope is pushed, the items run inside it, and the pop restores `chain`
      rw [commands_scope, Item.variables, List.cons_append, List.append_assoc,
        List.singleton_append]
      show declarations (chain ++ [name]) (forestCommands items ++ .upscope :: rest) = _
      rw [declarations_forest (chain ++ [name]) (.upscope :: rest) items]
      show _ ++ declarations (chain ++ [name]).dropLast rest = _
      rw [List.dropLast_concat]

theorem declarations_forest (chain : List Str) (rest : List Command) : ∀ items : List Item,
    declarations chain (forestCommands items ++ rest)
      = forestVariables chain items ++ declarations chain rest
  | [] => by
      rw [forestVariables]
      rfl
  | item :: items => by
      rw [forestCommands_cons, forestVariables, List.append_assoc, List.append_assoc,
        declarations_item chain (forestCommands items ++ rest) item,
        declarations_forest chain rest items]
end

mutual
theorem scopesAfter_item (chain : List Str) (rest : List Command) : ∀ item : Item,
    scopesAfter chain (item.statements.map Statement.command ++ rest) = scopesAfter chain rest
  | .var kind width code name range => by
      rw [Item.statements]
      rfl
  | .scope kind name items => by
      rw [commands_scope, List.cons_append, List.append_assoc, List.singleton_append]
      show scopesAfter (chain ++ [name]) (forestCommands items ++ .upscope :: rest) = _
      rw [scopesAfter_forest (chain ++ [name]) (.upscope :: rest) items]
      show scopesAfter (chain ++ [name]).dropLast rest = _
      rw [List.dropLast_concat]

theorem scopesAfter_forest (chain : List Str) (rest : List Command) : ∀ items : List Item,
    scopesAfter chain (forestCommands items ++ rest) = scopesAfter chain rest
  | [] => rfl
  | item :: items => by
      rw [forestCommands_cons, List.append_assoc,
        scopesAfter_item chain (forestCommands items ++ rest) item,
        scopesAfter_forest chain rest items]
end

mutual
theorem isDeclaration_item : ∀ item : Item, ∀ st ∈ item.statements, st.IsDeclaration
  | .var kind width code name range => by
      intro st hst
      rw [Item.statements, List.mem_singleton] at hst
      subst hst
      trivial
  | .scope kind name items => by
      intro st hst
      rw [Item.statements] at hst
      rcases List.mem_cons.mp hst with rfl | hst
      · trivial
      · rcases List.mem_append.mp hst with hst | hst
        · exact isDeclaration_forest items st hst
        · rw [List.mem_singleton.mp hst]
          trivial

theorem isDeclaration_forest : ∀ items : List Item, ∀ st ∈ forestStatements items, st.IsDeclaration
  | [] => by
      intro st hst
      rw [forestStatements] at hst
      exact absurd hst List.not_mem_nil
  | item :: items => by
      intro st hst
      rw [forestStatements] at hst
      rcases List.mem_append.mp hst with hst | hst
      · exact isDeclaration_item item st hst
      · exact isDeclaration_forest items st hst
end

theorem inHeader_forestCommands (items : List Item) : ∀ c ∈ forestCommands items, c.InHeader := by
  intro c hc
  rcases List.mem_map.mp hc with ⟨st, hst, rfl⟩
  exact inHeader_command (isDeclaration_forest items st hst)

theorem declarations_forestCommands (items : List Item) :
    declarations [] (forestCommands items) = forestVariables [] items := by
  have h := declarations_forest [] [] items
  simpa [declarations] using h

/-! ## The table -/

/-- The declared table holds one entry per code, by first declaration. -/
theorem keys_declaredTable (header : List Command) :
    (declaredTable header).keys = ((declarations [] header).map Declaration.code).eraseDups := by
  unfold declaredTable
  rw [OrderedDict.keys_setdefaults_empty, List.map_map]
  rfl

/-- The entry of a code is what its first declaration says. -/
theorem get?_declaredTable (header : List Command) (code : Str) :
    (declaredTable header).get? code
      = ((declarations [] header).find? (fun d => d.code = code)).map
          (fun d => Signal.fresh d.path d.width) := by
  unfold declaredTable
  rw [OrderedDict.get?_setdefaults, OrderedDict.get?_empty, Option.none_or, List.find?_map,
    Option.map_map]
  rfl

/-- The body changes no key, no path and no width. -/
theorem get?_finalTable (header body : List Command) (code : Str) :
    (finalTable header body).get? code
      = ((declarations [] header).find? (fun d => d.code = code)).map
          (fun d => (Signal.fresh d.path d.width).recordAll (valuesOf code body)) := by
  unfold finalTable
  rw [OrderedDict.get?_mapVals, get?_declaredTable, Option.map_map]
  rfl

theorem keys_finalTable (header body : List Command) :
    (finalTable header body).keys = ((declarations [] header).map Declaration.code).eraseDups := by
  unfold finalTable
  rw [OrderedDict.keys_mapVals, keys_declaredTable]

/-- **Header decoding undoes header encoding.**  The header lines `H` write a
forest down, one statement a line; `e` is the `$enddefinitions` line and `B` is
any body.  At `e` the scope stack is empty, and the table has one entry per
code, in order of first declaration, with the path and width of that
declaration, whatever the body holds. -/
theorem header_decoding (forest : List Item) (file : List UInt8) (H : List Str) (e : Str)
    (B : List Str) (hfile : rawLines file = H ++ e :: B)
    (hH : H.map split = (forestStatements forest).map Statement.tokens)
    (he : split e = Statement.tokens .enddefinitions) :
    (∃ s, Reader.init.readLines H = .ok s ∧ s.scopes = [] ∧ s.inHeader = true) ∧
      ∃ signals timeSteps lastTime, iterVcd file = .ok (signals, timeSteps, lastTime) ∧
        signals.keys = ((forestVariables [] forest).map Declaration.code).eraseDups ∧
        ∀ code, (signals.get? code).map (fun signal => (signal.path, signal.width))
          = ((forestVariables [] forest).find? (fun d => d.code = code)).map
              (fun d => (d.path, d.width)) := by
  have hreads : HeaderReads H (forestCommands forest) :=
    headerReads_of_map_split (isDeclaration_forest forest) hH
  have hin := inHeader_forestCommands forest
  constructor
  · refine ⟨_, Reader.readLines_header rfl hreads hin, ?_, Reader.inHeader_execAll_header _ _ hin⟩
    rw [Reader.scopes_execAll_header _ _ hin]
    have h := scopesAfter_forest [] [] forest
    rw [List.append_nil] at h
    exact h
  · have hfileReads : ReadsAs file (forestCommands forest) (bodyCommands B) :=
      ⟨hin, H, e, B, hfile, hreads, headerCommand_enddefinitions he, rfl⟩
    refine ⟨_, _, _, iterVcd_of_readsAs hfileReads, ?_, fun code => ?_⟩
    · rw [keys_finalTable, declarations_forestCommands]
    · rw [get?_finalTable, declarations_forestCommands, Option.map_map]
      congr 1
      funext d
      simp [Signal.recordAll_fresh]

/-! ## A small dump -/

/-- A clock declared in two scopes under one code, and a bus with a range. -/
def smallForest : List Item :=
  [.scope "module".toList "top".toList
    [.var "wire".toList (.digit 1) "!".toList "clk".toList [],
     .scope "module".toList "core".toList
       [.var "wire".toList (.digit 1) "!".toList "clk".toList [],
        .var "wire".toList (.digit 8) "#".toList "data".toList ["[7:0]".toList]]]]

/-- The forest as a writer lays it out. -/
def smallHeader : List Str :=
  ["$scope module top $end", " $var wire 1 ! clk $end", " $scope module core $end",
    "  $var wire 1 ! clk $end", "  $var wire 8 # data [7:0] $end", " $upscope $end",
    "$upscope $end"].map String.toList

/-- Two lines of a body. -/
def smallBody : List Str := ["#0", "b101 #"].map String.toList

/-- The dump with these lines. -/
def smallDump : List UInt8 :=
  linesFile (smallHeader ++ "$enddefinitions $end".toList :: smallBody)

theorem header_decoding_smallDump :
    (∃ s, Reader.init.readLines (smallHeader.map (· ++ ['\n'])) = .ok s ∧ s.scopes = [] ∧
        s.inHeader = true) ∧
      ∃ signals timeSteps lastTime, iterVcd smallDump = .ok (signals, timeSteps, lastTime) ∧
        signals.keys = ["!".toList, "#".toList] ∧
        ∀ code, (signals.get? code).map (fun signal => (signal.path, signal.width))
          = ((forestVariables [] smallForest).find? (fun d => d.code = code)).map
              (fun d => (d.path, d.width)) :=
  header_decoding smallForest smallDump _ ("$enddefinitions $end".toList ++ ['\n'])
    (smallBody.map (· ++ ['\n'])) (rawLines_linesFile (by decide +kernel)) rfl rfl

end Vcd
