import Desugar.Proofs.RunRenewal

/-!
# Names that a run introduces

A run introduces the names of its temporaries and of the labels of post steps.
They differ from each other, from the names of all bindings of the table, and from
the names that are collected from the file when the run starts.

Not every name that a file spells is collected: the names of types, the parameters
and results of function literals and the labels of headers are not.  A temporary can
have such a name if no binding of the table has it.
-/

namespace Desugar

def Node.label? : Node → Option String
  | .stmt (.labeled _ label _) => some label
  | .header (.labeled _ label _) => some label
  | _ => none

def File.labels (file : File) : List String :=
  file.nodes.filterMap Node.label?

theorem Node.label?_eq_some_iff {n : Node} {label : String} :
    n.label? = some label ↔ ∃ id, ⟨id, .label label⟩ ∈ n.entries := by
  simp only [Node.label_mem_entries_iff]
  constructor
  · intro h
    unfold label? at h
    split at h
    · cases h
      exact ⟨_, _, .inl rfl⟩
    · cases h
      exact ⟨_, _, .inr rfl⟩
    · cases h
  · rintro ⟨id, s, rfl | rfl⟩
    · rfl
    · rfl

theorem File.mem_labels_iff {file : File} {label : String} :
    label ∈ file.labels ↔ ∃ id, ⟨id, .label label⟩ ∈ inventory file.nodes := by
  simp only [labels, List.mem_filterMap, Node.label?_eq_some_iff, mem_inventory]
  constructor
  · rintro ⟨n, hn, id, hentry⟩
    exact ⟨id, n, hn, hentry⟩
  · rintro ⟨id, n, hn, hentry⟩
    exact ⟨n, hn, id, hentry⟩

theorem Pass.Renewed.labels {p q : Pass} (h : p.Renewed .coining Property.Unkept q)
    {label : String} (hlabel : label ∈ q.file.labels) :
    label ∈ p.file.labels ∨ p.CoinsLabel q label := by
  rcases File.mem_labels_iff.mp hlabel with ⟨id, hentry⟩
  rcases h.nodes.labels not_false id label hentry with hold | hcoined
  · exact .inl (File.mem_labels_iff.mpr hold)
  · exact .inr hcoined

namespace Pipeline

theorem run_coins {pipeline : Pipeline} (hrules : pipeline.rules ⊆ Rule.catalog) (file : File)
    (table : SymbolTable) :
    ∃ made labels, (table.reserve file.spelledNames).Coins (pipeline.run file table).table made
      labels ∧ ∀ report, (pipeline.run file table).result = .ok report →
        ∀ label ∈ (pipeline.run file table).file.labels, label ∈ file.labels ∨ label ∈ labels := by
  cases hids : NodeSupply.after? (file.maxId.larger table.maxNode) with
  | none =>
    have hsame : (table.reserve file.spelledNames).maxNode = table.maxNode := rfl
    have hrun : pipeline.run file table =
        ⟨.error .exhausted, file, table.reserve file.spelledNames⟩ := by
      unfold run
      simp only [hsame, hids]
    rw [hrun]
    exact ⟨[], [], .of_same rfl rfl, nofun⟩
  | some ids =>
    rcases @steps_of_run pipeline _ _ _ hids with ⟨left, hfile, htable, hsteps⟩
    rcases Progress.start_drawn file.spelledNames hids with ⟨hdrawn, _⟩
    rcases steps_evolves_of_ample .coining hrules hdrawn hsteps with ⟨hevolves, hrenewed⟩
    rcases hevolves.coined not_false with ⟨made, labels, hcoins⟩
    rw [hfile, htable]
    refine ⟨made, labels, hcoins, fun report hreport label hlabel => ?_⟩
    rcases (hrenewed report hreport).labels hlabel with hold | hcoined
    · exact .inl hold
    · exact .inr (hcoins.mem_labels hcoined.reserved hcoined.fresh hcoined.free)

/-- The names that a run introduces, for synthetic bindings and for labels, are all
different, and no binding of the table has one of them, nor is one of them collected
from the file.  Each is reserved once, and every label of the file that the run gives
was there before or has one of these names. -/
theorem run_coins_distinct_names {config : Config} {pipeline : Pipeline}
    (hconfig : ofConfig config = .ok pipeline) (file : File) (table : SymbolTable) :
    ∃ (made : List Binding) (labels : List String),
      (pipeline.run file table).table.bindings.toList = table.bindings.toList ++ made ∧
      (∀ binding ∈ made, binding.synthetic = true) ∧
      (pipeline.run file table).table.reserved.Perm
        (made.map Binding.name ++ labels ++ (file.spelledNames ++ table.reserved)) ∧
      (made.map Binding.name ++ labels).Nodup ∧
      (∀ name ∈ made.map Binding.name ++ labels, name ∉ file.spelledNames ∧
        name ∉ table.reserved ∧ ∀ binding ∈ table.bindings, binding.name ≠ name) ∧
      ∀ report, (pipeline.run file table).result = .ok report →
        ∀ label ∈ (pipeline.run file table).file.labels, label ∈ file.labels ∨ label ∈ labels := by
  rcases run_coins (accepted_of_ofConfig hconfig).2.subset file table with
    ⟨made, labels, hcoins, hlabels⟩
  refine ⟨made, labels, hcoins.bindings, hcoins.synthetic, hcoins.reserved, hcoins.distinct, ?_,
    hlabels⟩
  intro name hname
  have hfresh := hcoins.fresh name hname
  have htaken : (table.reserve file.spelledNames).takenNames =
      file.spelledNames ++ table.reserved ++ table.bindings.toList.map Binding.name := rfl
  rw [htaken] at hfresh
  simp only [List.mem_append, not_or] at hfresh
  refine ⟨hfresh.1.1, hfresh.1.2, fun binding hbinding heq => hfresh.2 ?_⟩
  exact List.mem_map.mpr ⟨binding, Array.mem_toList_iff.mpr hbinding, heq⟩

end Pipeline

/-- A loop that needs a label, where the first choice for it is taken, and two
variables that exchange their values, one of which has the name that is the first
choice for a temporary. -/
def crowdedFile : File :=
  let loop : Stmt := .forLoop ⟨5⟩ none (some (.ident ⟨6⟩ "c"))
    (some (.assign ⟨7⟩ [.ident ⟨8⟩ "x"] .assign [.ident ⟨9⟩ "y"]))
    ⟨⟨10⟩, [.branch ⟨11⟩ .continue none]⟩
  let swap : Stmt := .assign ⟨12⟩ [.ident ⟨13⟩ "tmp", .ident ⟨14⟩ "y"] .assign
    [.ident ⟨15⟩ "y", .ident ⟨16⟩ "tmp"]
  ⟨⟨0⟩, "main", "", [], [.func ⟨⟨1⟩, ⟨⟨2⟩, "main"⟩, none, ⟨[], [], false⟩, some ⟨⟨3⟩,
    [.labeled ⟨4⟩ "next" loop, swap]⟩⟩]⟩

def crowdedTable : SymbolTable :=
  { SymbolTable.empty with
    types := #[.basic .int]
    exprTypes := ((((∅ : NodeMap TypeId).insert ⟨13⟩ ⟨0⟩).insert ⟨14⟩ ⟨0⟩).insert ⟨15⟩ ⟨0⟩).insert
      ⟨16⟩ ⟨0⟩
    scopeOf := (∅ : NodeMap ScopeId).insert ⟨3⟩ ⟨0⟩ }

-- The first choices for a label and for a temporary are both taken.
example : "next" ∈ crowdedFile.spelledNames ∧ "tmp" ∈ crowdedFile.spelledNames := by
  decide +kernel

theorem after?_crowdedFile :
    NodeSupply.after? (crowdedFile.maxId.larger crowdedTable.maxNode) = some ⟨17⟩ :=
  NodeSupply.after?_of_largest 16 (by decide) (by decide +kernel) (by decide +kernel)
    (by decide +kernel)

/-- Two temporaries and a label get the next best names. -/
theorem crowdedFile_coins_names :
    Pipeline.ofConfig {} = .ok Pipeline.default ∧
      (Pipeline.default.run crowdedFile crowdedTable).file.labels = ["next", "next1"] ∧
      ∃ (made : List Binding) (labels : List String),
        made.map Binding.name = ["tmp1", "tmp2"] ∧ "next1" ∈ labels ∧
          (made.map Binding.name ++ labels).Nodup ∧
          ∀ name ∈ made.map Binding.name ++ labels, name ∉ crowdedFile.spelledNames := by
  have hconfig : Pipeline.ofConfig {} = .ok Pipeline.default := rfl
  have hrun : (Pipeline.default.run crowdedFile crowdedTable).isClean = true ∧
      (Pipeline.default.run crowdedFile crowdedTable).file.labels = ["next", "next1"] ∧
      (Pipeline.default.run crowdedFile crowdedTable).table.bindings.toList.map Binding.name =
        ["tmp1", "tmp2"] := by
    rw [Pipeline.run_eq_of_ids after?_crowdedFile]
    decide +kernel
  rcases hrun with ⟨hclean, hfile, hbindings⟩
  rcases Pipeline.RunResult.report_of_isClean hclean with ⟨report, hreport, _⟩
  rcases Pipeline.run_coins_distinct_names hconfig crowdedFile crowdedTable with
    ⟨made, labels, hmade, _, _, hdistinct, hfresh, hlabels⟩
  refine ⟨hconfig, hfile, made, labels, ?_, ?_, hdistinct, fun name hname => (hfresh name hname).1⟩
  · rw [← hbindings, hmade]
    rfl
  · have hnew : "next1" ∈ (Pipeline.default.run crowdedFile crowdedTable).file.labels := by
      rw [hfile]
      decide
    exact (hlabels report hreport _ hnew).resolve_left (by decide +kernel)

/-- A variable of a type whose name is the first choice for a temporary. -/
def typedSpec : ValueSpec :=
  ⟨⟨13⟩, [⟨⟨14⟩, "z"⟩], some (.named "tmp"), [.lit ⟨15⟩ (.int "0")]⟩

/-- Two variables take each other's values before that variable is declared. -/
def typedFile : File :=
  let swap : ValueSpec := ⟨⟨6⟩, [⟨⟨7⟩, "x"⟩, ⟨⟨8⟩, "y"⟩], some (.named "int"),
    [.ident ⟨9⟩ "y", .ident ⟨10⟩ "x"]⟩
  ⟨⟨0⟩, "main", "", [], [.func ⟨⟨1⟩, ⟨⟨2⟩, "main"⟩, none, ⟨[], [], false⟩, some ⟨⟨3⟩,
    [.decl ⟨4⟩ ⟨⟨5⟩, .var, [.value swap]⟩, .decl ⟨11⟩ ⟨⟨12⟩, .var, [.value typedSpec]⟩]⟩⟩]⟩

def typedTable : SymbolTable :=
  { SymbolTable.empty with
    types := #[.basic .int]
    exprTypes := ((∅ : NodeMap TypeId).insert ⟨9⟩ ⟨0⟩).insert ⟨10⟩ ⟨0⟩
    scopeOf := (∅ : NodeMap ScopeId).insert ⟨3⟩ ⟨0⟩ }

theorem after?_typedFile :
    NodeSupply.after? (typedFile.maxId.larger typedTable.maxNode) = some ⟨16⟩ :=
  NodeSupply.after?_of_largest 15 (by decide) (by decide +kernel) (by decide +kernel)
    (by decide +kernel)

/-- A clean run declares a temporary that hides a type before the type is used. -/
theorem temporary_hides_type :
    .decl ⟨⟨12⟩, .var, [.value typedSpec]⟩ false ∈ typedFile.nodes ∧
      (Pipeline.default.run typedFile typedTable).isClean = true ∧
      (Pipeline.default.run typedFile typedTable).table.bindings.toList =
        [⟨"tmp", some ⟨0⟩, ⟨0⟩, .var, true⟩, ⟨"tmp1", some ⟨0⟩, ⟨0⟩, .var, true⟩] ∧
      (Pipeline.default.run typedFile typedTable).file.render =
        "package main\n\nfunc main() \x7b\n" ++
          "    var tmp int = y\n    var tmp1 int = x\n    var x int = tmp\n" ++
          "    var y int = tmp1\n    var z tmp = 0\n\x7d\n" := by
  constructor
  · simp [typedFile, File.nodes, TopDecl.nodes, Block.nodes, Stmts.nodes, Stmt.parts, Decl.nodes]
  · rw [Pipeline.run_eq_of_ids after?_typedFile]
    decide +kernel

end Desugar
