import Desugar.Proofs.DocumentReadback
import Desugar.Proofs.RunRenewal

/-!
# Documents that a run leaves

A table that is read from a text has each name once in a scope, and so has the table
that a run leaves.  Its document is therefore recovered from its text when the text
nests no deeper than can be read.

A run can make a text nest deeper than the one it started from: an initializer that
is hoisted takes its statement into a block.
-/

namespace Desugar

/-!
## Positions
-/

def Scope.positions (scope : Scope) : List Nat :=
  scope.parent.toList.map ScopeId.index ++ scope.names.map (fun entry => entry.2.index)

def Binding.positions (binding : Binding) : List Nat :=
  binding.ty.toList.map TypeId.index ++ [binding.scope.index]

/-- The positions of types, bindings and scopes that a table mentions. -/
def SymbolTable.positions (table : SymbolTable) : List Nat :=
  table.types.toList.flatMap (fun ty => ty.mentions.map TypeId.index) ++
    table.exprTypes.toList.map (fun fact => fact.2.index) ++
    table.defs.toList.map (fun fact => fact.2.index) ++
    table.uses.toList.map (fun fact => fact.2.index) ++
    table.scopes.toList.flatMap Scope.positions ++
    table.scopeOf.toList.map (fun fact => fact.2.index) ++
    table.bindings.toList.flatMap Binding.positions

theorem SymbolTable.representable_of_positions {table : SymbolTable}
    (h : ∀ position ∈ table.positions, Addressable position) (hdistinct : table.Distinct) :
    table.Representable := by
  simp only [positions, List.forall_mem_append, List.forall_mem_flatMap, List.forall_mem_map,
    Array.mem_toList_iff, Scope.positions, Binding.positions] at h
  rcases h with ⟨⟨⟨⟨⟨⟨htypes, hexprTypes⟩, hdefs⟩, huses⟩, hscopes⟩, hscopeOf⟩, hbindings⟩
  constructor
  · exact htypes
  · exact hexprTypes
  · exact hdefs
  · exact huses
  · intro scope hscope
    constructor
    · exact fun parent hparent => (hscopes scope hscope).1 parent (Option.mem_toList.mpr hparent)
    · exact (hscopes scope hscope).2
    · exact hdistinct scope hscope
  · exact hscopeOf
  · intro binding hbinding
    rcases hbindings binding hbinding with ⟨hty, hscope⟩
    constructor
    · exact fun ty hmem => hty ty (Option.mem_toList.mpr hmem)
    · exact hscope _ (.head _)

/-!
## Tables that are read
-/

open Json

theorem Scope.nodup_foldl_setName (entries : List (String × BindingId))
    {names : List (String × BindingId)} (h : (names.map Prod.fst).Nodup) :
    ((entries.foldl (fun names entry => setName entry.1 entry.2 names) names).map
      Prod.fst).Nodup := by
  induction entries generalizing names with
  | nil => exact h
  | cons entry rest ih => exact ih (nodup_setName h)

theorem Scope.nodup_of_ofJson? {value : Json} {scope : Scope} (h : ofJson? value = some scope) :
    (scope.names.map Prod.fst).Nodup := by
  simp only [ofJson?, names?, Record.required, Option.bind_eq_bind, Option.bind_eq_some_iff,
    Option.pure_def, Option.some.injEq] at h
  rcases h with ⟨_, _, _, _, names, ⟨_, _, entries, _, rfl⟩, rfl⟩
  exact nodup_foldl_setName entries .nil

theorem Json.exists_read_of_list? {α : Type} {read : Json → Option α} {value : Json}
    {items : List α} (h : list? read value = some items) {item : α} (hitem : item ∈ items) :
    ∃ part, read part = some item := by
  cases value with
  | arr parts =>
    replace h : parts.mapM read = some items := h
    induction parts generalizing items with
    | nil =>
      cases h
      cases hitem
    | cons part rest ih =>
      rw [List.mapM_cons] at h
      rcases Option.bind_eq_some_iff.mp h with ⟨first, hfirst, h⟩
      rcases Option.bind_eq_some_iff.mp h with ⟨others, hothers, h⟩
      cases h
      rcases List.mem_cons.mp hitem with rfl | hitem
      · exact ⟨part, hfirst⟩
      · exact ih hitem hothers
  | _ => cases h

theorem SymbolTable.distinct_of_ofJson? {value : Json} {table : SymbolTable}
    (h : ofJson? value = some table) : table.Distinct := by
  simp only [ofJson?, Record.required, Option.bind_eq_bind, Option.bind_eq_some_iff,
    Option.pure_def, Option.some.injEq] at h
  rcases h with ⟨_, _, types, _, exprTypes, _, defs, _, uses, _, selections, _, scopes,
    ⟨_, _, hscopes⟩, scopeOf, _, bindings, _, rfl⟩
  intro scope hscope
  rcases exists_read_of_list? hscopes (List.mem_toArray.mp hscope) with ⟨part, hread⟩
  exact Scope.nodup_of_ofJson? hread

namespace Document

theorem distinct_of_parse? {text : String} {document : Document}
    (h : parse? text = some document) : document.table.Distinct := by
  simp only [parse?, ofJson?, Record.required, Option.bind_eq_bind, Option.bind_eq_some_iff,
    Option.pure_def, Option.some.injEq] at h
  rcases h with ⟨_, _, _, _, file, _, table, ⟨_, _, htable⟩, rfl⟩
  exact SymbolTable.distinct_of_ofJson? htable

/-!
## Tables that a run leaves
-/

theorem normalize_eq_ok_iff {document result : Document} {pipeline : Pipeline}
    {report : Report} :
    document.normalize pipeline = .ok (report, result) ↔
      (pipeline.run document.file document.table).result = .ok report ∧
        result = ⟨(pipeline.run document.file document.table).file,
          (pipeline.run document.file document.table).table⟩ := by
  unfold normalize
  dsimp only
  cases (pipeline.run document.file document.table).result with
  | error fault =>
    constructor
    · intro h
      cases h
    · rintro ⟨hreport, _⟩
      cases hreport
  | ok found =>
    constructor
    · intro h
      cases h
      exact ⟨rfl, rfl⟩
    · rintro ⟨hreport, rfl⟩
      cases hreport
      rfl

end Document

theorem Pipeline.run_keeps_distinct {pipeline : Pipeline} (hrules : pipeline.rules ⊆ Rule.catalog)
    {file : File} {table : SymbolTable} {report : Report} (h : table.Distinct)
    (hrun : (pipeline.run file table).result = .ok report) :
    (pipeline.run file table).table.Distinct := by
  rcases supply_of_run hrun with ⟨ids, hids⟩
  rcases steps_of_run hids with ⟨left, _, htable, hsteps⟩
  rcases Progress.start_drawn file.spelledNames hids with ⟨hdrawn, _⟩
  rw [htable]
  exact (steps_evolves hrules hdrawn hsteps).1.distinct h

namespace Document

/-- What a run leaves of a document that was read is read again, with the same file,
when it nests no deeper than can be read, and is not read at all otherwise.
Positions have at most 32 bits. -/
theorem parse?_write_normalized {text : String} {document result : Document} {report : Report}
    (hread : parse? text = some document)
    (hrun : document.normalize Pipeline.default = .ok (report, result))
    (hpositions : ∀ position ∈ result.table.positions, position < 2 ^ 32) :
    parse? result.write =
      if result.toJson.depth ≤ 127 then
        some { file := result.file, table := { result.table with reserved := [] } }
      else none := by
  rcases normalize_eq_ok_iff.mp hrun with ⟨hresult, rfl⟩
  have hrules : Pipeline.default.rules ⊆ Rule.catalog := List.Subset.refl _
  have hdistinct := Pipeline.run_keeps_distinct hrules (distinct_of_parse? hread) hresult
  exact parse?_write (SymbolTable.representable_of_positions hpositions hdistinct)

theorem parse?_write_of_lt_depth {document : Document} (htable : document.table.Representable)
    (hdepth : 127 < document.toJson.depth) : parse? document.write = none := by
  rw [parse?_write htable]
  exact if_neg (Nat.not_le.mpr hdepth)

def wrapped : Nat → Expr
  | 0 => .ident ⟨7⟩ "ready"
  | n + 1 => .paren ⟨.ofNat (n + 8)⟩ (wrapped n)

/-- An if with an initializer and a condition in so many parentheses. -/
def wrappedDocument (n : Nat) : Document where
  file := ⟨⟨0⟩, "main", "", [], [.func ⟨⟨1⟩, ⟨⟨2⟩, "main"⟩, none, ⟨[], [], false⟩, some ⟨⟨3⟩,
    [.ifElse ⟨4⟩ (some (.incDec ⟨5⟩ (.ident ⟨6⟩ "x") true)) (wrapped n) ⟨⟨100⟩, []⟩ none]⟩⟩]⟩
  table := { SymbolTable.empty with scopeOf := (∅ : NodeMap ScopeId).insert ⟨4⟩ ⟨0⟩ }

-- A pair of parentheses takes two levels.
example : (wrappedDocument 3).toJson.depth = (wrappedDocument 2).toJson.depth + 2 := by
  decide +kernel

theorem parse?_write_wrappedDocument {n : Nat} (h : (wrappedDocument n).toJson.depth ≤ 127) :
    parse? (wrappedDocument n).write = some (wrappedDocument n) := by
  have htable : (wrappedDocument n).table.Representable := by
    show (wrappedDocument 0).table.Representable
    decide +kernel
  rw [parse?_write htable]
  exact if_pos h

theorem after?_wrappedDocument_two : NodeSupply.after?
    ((wrappedDocument 2).file.maxId.larger (wrappedDocument 2).table.maxNode) = some ⟨101⟩ :=
  NodeSupply.after?_of_largest 100 (by decide) (by decide +kernel) (by decide +kernel)
    (by decide +kernel)

/-- With few parentheses the document is read again. -/
theorem wrappedDocument_read_again :
    ∃ report result, parse? (wrappedDocument 2).write = some (wrappedDocument 2) ∧
      (wrappedDocument 2).normalize Pipeline.default = .ok (report, result) ∧
      (∀ position ∈ result.table.positions, position < 2 ^ 32) ∧ result.toJson.depth = 20 ∧
      parse? result.write =
        some { file := result.file, table := { result.table with reserved := [] } } := by
  have hread := parse?_write_wrappedDocument (n := 2) (by decide +kernel)
  have hrun : let run := Pipeline.default.run (wrappedDocument 2).file (wrappedDocument 2).table
      run.isClean = true ∧ (∀ position ∈ run.table.positions, position < 2 ^ 32) ∧
        (Document.mk run.file run.table).toJson.depth = 20 := by
    rw [Pipeline.run_eq_of_ids after?_wrappedDocument_two]
    decide +kernel
  rcases hrun with ⟨hclean, hpositions, hdepth⟩
  rcases Pipeline.RunResult.report_of_isClean hclean with ⟨report, hreport, _⟩
  have hnormal := normalize_eq_ok_iff.mpr ⟨hreport, rfl⟩
  refine ⟨report, _, hread, hnormal, hpositions, hdepth, ?_⟩
  rw [parse?_write_normalized hread hnormal hpositions, hdepth]
  rfl

theorem after?_wrappedDocument_many : NodeSupply.after?
    ((wrappedDocument 57).file.maxId.larger (wrappedDocument 57).table.maxNode) = some ⟨101⟩ :=
  NodeSupply.after?_of_largest 100 (by decide) (by decide +kernel) (by decide +kernel)
    (by decide +kernel)

/-- With many parentheses the document is read, and what a clean run leaves of it is
not. -/
theorem normalized_not_read :
    ∃ report result, parse? (wrappedDocument 57).write = some (wrappedDocument 57) ∧
      (wrappedDocument 57).normalize Pipeline.default = .ok (report, result) ∧
      parse? result.write = none := by
  have hread := parse?_write_wrappedDocument (n := 57) (by decide +kernel)
  have hrun : let run := Pipeline.default.run (wrappedDocument 57).file (wrappedDocument 57).table
      run.isClean = true ∧ (Document.mk run.file run.table).table.Representable ∧
        127 < (Document.mk run.file run.table).toJson.depth := by
    rw [Pipeline.run_eq_of_ids after?_wrappedDocument_many]
    decide +kernel
  rcases hrun with ⟨hclean, htable, hdepth⟩
  rcases Pipeline.RunResult.report_of_isClean hclean with ⟨report, hreport, _⟩
  refine ⟨report, _, hread, normalize_eq_ok_iff.mpr ⟨hreport, rfl⟩, ?_⟩
  exact parse?_write_of_lt_depth htable hdepth

end Document
end Desugar
