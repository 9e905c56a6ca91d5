import Desugar.Proofs.IdleRules
import Desugar.Proofs.NormalForms

/-!
# Second runs

A clean run leaves a file at which no rule finds anything to do.  So a second
run applies all rules without a change.
-/

namespace Desugar

/-!
## Runs without a change
-/

section

variable {config : Config}

theorem Rule.exec_pass_of_isDone {p : Pass} (h : p.IsDone) {rule : Rule} (hrule : rule ∈ catalog)
    (hverify : config.verify = false) (env : PassEnv) :
    ∃ scopes, (rule.pass config).exec env p =
      (.ok 0, { p with scopes := scopes, changes := 0, applications := p.applications + 1 }) := by
  rcases exec_apply_of_isDone h hrule with ⟨scopes, happly⟩
  have hiterate : ∀ n, (rule.iterate config.maxIterations.toNat (n + 1) 0).exec env p =
      (.ok 0, { p with scopes := scopes, changes := 0, applications := p.applications + 1 }) := by
    intro n
    unfold iterate
    rw [PassM.exec_bind_ok happly, PassM.exec_bind_ok (PassM.exec_modify _ _ _)]
    rfl
  rcases Nat.exists_eq_succ_of_ne_zero
    (Nat.ne_of_gt (Nat.le_max_right config.maxIterations.toNat 1))
    with ⟨n, hn⟩
  exists scopes
  unfold pass
  simp only [hn, hverify]
  rw [PassM.exec_bind_ok (hiterate n)]
  rfl

namespace Pipeline

variable {view : PackageView} {progress : Progress}

theorem step_of_isDone (h : progress.start.IsDone) (hsuccess : progress.report.success = true)
    {rule : Rule} (hrule : rule ∈ Rule.catalog) (hverify : config.verify = false) :
    step config view progress rule =
      (.ok (progress.addPass rule .applied ⟨1, 0, 0, 0⟩ []),
        progress.addPass rule .applied ⟨1, 0, 0, 0⟩ []) := by
  have hunavailable : progress.unavailable = [] := by
    unfold Progress.unavailable
    rw [List.filter_eq_nil_iff.mpr, List.map_nil]
    intro pass hpass
    rw [List.all_eq_true.mp hsuccess pass hpass]
    exact Bool.false_ne_true
  have hrequires : rule.requires.find? progress.unavailable.contains = none := by
    rw [hunavailable, List.find?_eq_none]
    intro name _
    exact Bool.false_ne_true
  rcases Rule.exec_pass_of_isDone h hrule hverify ⟨rule.name, view, config.tempStem⟩ with
    ⟨scopes, hpass⟩
  have hrun : ((rule.pass config).run ⟨rule.name, view, config.tempStem⟩).run.run
      ⟨progress.file, progress.table, progress.ids, [], .empty, 0, 0⟩ = _ := hpass
  unfold step
  rw [hrequires]
  dsimp only
  rw [hrun]
  rfl

theorem steps_of_isDone (h : progress.start.IsDone) (hsuccess : progress.report.success = true)
    {rules : List Rule} (hrules : ∀ rule ∈ rules, rule ∈ Rule.catalog)
    (hverify : config.verify = false) :
    ∃ report, steps config view progress rules = (.ok report, { progress with report := report }) ∧
      report.success = true ∧ report.changes = progress.report.changes ∧
      report.diagnostics = progress.report.diagnostics := by
  induction rules generalizing progress with
  | nil => exact ⟨progress.report, rfl, hsuccess, rfl, rfl⟩
  | cons rule rest ih =>
    rcases List.forall_mem_cons.mp hrules with ⟨hrule, hrest⟩
    have hnext : (progress.addPass rule .applied ⟨1, 0, 0, 0⟩ []).report.success = true := by
      simp only [Progress.addPass, Report.success, List.all_append, List.all_cons, List.all_nil]
      rw [show progress.report.passes.all PassReport.isApplied = true from hsuccess]
      rfl
    have hdone : (progress.addPass rule .applied ⟨1, 0, 0, 0⟩ []).start.IsDone := h
    rcases ih hdone hnext hrest with ⟨report, hsteps, hreport, hchanges, hdiagnostics⟩
    refine ⟨report, ?_, hreport, ?_, ?_⟩
    · unfold steps
      rw [step_of_isDone h hsuccess hrule hverify]
      exact hsteps
    · rw [hchanges]
      simp [Progress.addPass, Report.changes]
    · rw [hdiagnostics]
      exact List.append_nil _

theorem run_of_isDone {pipeline : Pipeline} (hrules : ∀ rule ∈ pipeline.rules, rule ∈ Rule.catalog)
    (hverify : pipeline.config.verify = false) {file : File} {table : SymbolTable}
    {ids : NodeSupply} (hids : NodeSupply.after? (file.maxId.larger table.maxNode) = some ids)
    (hdone : (Progress.start
      ⟨file, table.reserve file.spelledNames, ids, ⟨[], []⟩⟩).IsDone) :
    ∃ report, pipeline.run file table = ⟨.ok report, file, table.reserve file.spelledNames⟩ ∧
      report.success = true ∧ report.changes = 0 ∧ report.diagnostics = [] := by
  rcases steps_of_isDone hdone rfl hrules hverify with ⟨report, hsteps, hreport⟩
  refine ⟨report, ?_, hreport⟩
  rw [run_eq_of_ids hids]
  dsimp only
  rw [hsteps]

end Pipeline

end

/-!
## The state after a clean run
-/

theorem NodeSupply.after?_of_below {ids : NodeSupply} {largest : NodeId}
    (h : largest.Below ids.count) : ∃ ids', after? largest = some ids' := by
  unfold after? successor?
  have hlast : largest.val ≠ last := by
    intro heq
    have hsize := ids.next.toNat_lt
    have hlarge : largest.val.toNat = 4294967295 := congrArg UInt32.toNat heq
    unfold NodeId.Below count at h
    omega
  rw [if_neg hlast]
  exact ⟨_, rfl⟩

theorem Trait.holds_of_table_eq {p q : Pass} (htable : q.table = p.table) {trait : Trait}
    (hstage : 0 < trait.stage) {n : Node} (h : trait.Holds p n) : trait.Holds q n := by
  cases trait with
  | explicitDeref =>
    cases n with
    | expr e =>
      show e.Explicit q.table
      rw [htable]
      exact h
    | _ => exact h
  | explicitDiscard =>
    cases n with
    | stmt s | header s =>
      cases s with
      | expr id x =>
        intro hheader
        rw [htable]
        exact h hheader
      | _ => trivial
    | _ => exact h
  | bounded | simpleHeaders | branchElse | balancedAssign | singleCompound | narrowHeaders
  | namedSpecs | valueOperands => cases hstage
  | taggedSwitch =>
    cases n with
    | stmt s | header s => cases s <;> exact h
    | _ => exact h
  | singleTarget =>
    cases n with
    | stmt s | header s =>
      cases s with
      | assign id lhs op rhs => cases op <;> exact h
      | _ => exact h
    | _ => exact h
  | _ => cases n <;> exact h

namespace Pass.AtStage

variable {base : Trait → Prop} {p q : Pass}

theorem isDone (h : p.AtStage base 10) (hdiagnostics : p.diagnostics = []) : p.IsDone := by
  intro n hn trait hstage
  exact (h.nodes n hn).holds (.inr ⟨hstage, trait.stage_le⟩) fun _ => hdiagnostics

theorem isDone_again {left : Progress} (h : left.start.AtStage base 10) (names : List String)
    (ids : NodeSupply) (report : Report) :
    (Progress.start ⟨left.file, left.table.reserve names, ids, report⟩).IsDone := by
  have hgrows : left.start.Grows { left.start with table := left.table.reserve names } :=
    ⟨Nat.le_refl _, SymbolTable.extends_reserve names, fun _ hid => .inl hid, List.prefix_refl _⟩
  have hdone := (h.of_same_file hgrows rfl).isDone rfl
  intro n hn trait hstage
  have htable : (Progress.start ⟨left.file, left.table.reserve names, ids, report⟩).table =
      { left.start with table := left.table.reserve names }.table := rfl
  exact Trait.holds_of_table_eq htable hstage (hdone n hn trait hstage)

theorem largest_below {stage : Nat} (h : p.AtStage base stage) (hbase : base .bounded) :
    (p.file.maxId.larger p.table.maxNode).Below p.ids.count := by
  apply NodeId.larger_below_iff.mpr
  constructor
  · apply File.maxId_below_iff.mpr
    intro id hid
    rcases p.file.layout.covered id hid with hself | ⟨n, hn, hshown⟩
    · rw [List.mem_singleton.mp hself]
      exact h.fileId
    · have hbounded : Trait.bounded.Holds p n :=
        (h.nodes n hn).holds (.of_base rfl hbase) fun hpos => nomatch hpos
      exact Trait.bounded_holds_iff.mp hbounded id hshown
  · exact (SymbolTable.maxNode_below_iff (Nat.zero_lt_of_lt h.fileId)).mpr h.drawn

end Pass.AtStage

/-!
## Runs
-/

/-- A second run after a clean run on a well-formed file applies all rules, makes
no change and reports nothing, and leaves the file and all that the table records
as they were. -/
theorem Pipeline.second_run_changes_nothing {file : File} {table : SymbolTable} {report : Report}
    (hfile : file.WellFormed table) (hclosed : table.Closed)
    (hrun : (Pipeline.default.run file table).result = .ok report)
    (hsuccess : report.success = true) (hdiagnostics : report.diagnostics = []) :
    let first := Pipeline.default.run file table
    let second := Pipeline.default.run first.file first.table
    ∃ report', second.result = .ok report' ∧ report'.success = true ∧ report'.changes = 0 ∧
      report'.diagnostics = [] ∧ second.file = first.file ∧
      { second.table with reserved := first.table.reserved } = first.table := by
  have hnodes : ∀ n ∈ file.nodes, ∀ trait : Trait, trait.stage = 0 → trait.WellFormed →
      trait ≠ .bounded → ∀ p : Pass, trait.Holds p n := by
    intro n hn trait _ htrait hbounded p
    exact Trait.holds_of_wellFormed htrait hbounded (hfile.nodes n hn) p
  rcases atStage_of_clean_run Trait.base_wellFormed hnodes hfile.direct hclosed hrun hsuccess
    hdiagnostics with ⟨left, hfile', htable', hlast⟩
  have hlargest : (left.file.maxId.larger left.table.maxNode).Below left.ids.count :=
    hlast.largest_below trivial
  rcases NodeSupply.after?_of_below hlargest with ⟨ids, hids⟩
  have hrules : ∀ rule ∈ Pipeline.default.rules, rule ∈ Rule.catalog := fun _ hrule => hrule
  rcases run_of_isDone hrules rfl hids (hlast.isDone_again _ ids _) with
    ⟨report', hagain, hsuccess', hchanges, hdiagnostics'⟩
  dsimp only
  rw [hfile', htable', hagain]
  exact ⟨report', rfl, hsuccess', hchanges, hdiagnostics', rfl, rfl⟩

theorem second_swap_changes_nothing :
    let first := Pipeline.default.run swapFile (swapTable pointerArena)
    let second := Pipeline.default.run first.file first.table
    ∃ report report', first.result = .ok report ∧ report.success = true ∧
      report.diagnostics = [] ∧ report.changes = 2 ∧ second.result = .ok report' ∧
      report'.success = true ∧ report'.changes = 0 ∧ report'.diagnostics = [] ∧
      second.file = first.file ∧
      { second.table with reserved := first.table.reserved } = first.table := by
  rcases Pipeline.RunResult.report_of_isClean isClean_run_pointerArena with
    ⟨report, hrun, hsuccess, hdiagnostics⟩
  rcases Pipeline.second_run_changes_nothing (swapFile_wellFormed _) swapTable_closed hrun hsuccess
    hdiagnostics with ⟨report', hsecond⟩
  have hcount : (Pipeline.default.run swapFile (swapTable pointerArena)).result.toOption.map
      Report.changes = some 2 := by
    rw [Pipeline.run_eq_of_ids (after?_swapFile _)]
    decide +kernel
  rw [hrun] at hcount
  exact ⟨report, report', hrun, hsuccess, hdiagnostics, Option.some_inj.mp hcount, hsecond⟩

theorem after?_second_swap :
    NodeSupply.after? ((Pipeline.default.run swapFile (swapTable shortArena)).file.maxId.larger
      (Pipeline.default.run swapFile (swapTable shortArena)).table.maxNode) = some ⟨37⟩ := by
  rw [Pipeline.run_eq_of_ids (after?_swapFile _)]
  apply NodeSupply.after?_of_largest 36
  · decide
  · decide +kernel
  · decide +kernel
  · decide +kernel

/-- Without the types of all expressions a second run can make a change: the type
of the indexed operand comes to exist only during the first run. -/
theorem second_run_can_change :
    ¬ ∀ (file : File) (table : SymbolTable) (report : Report), file.WellFormed table →
      (Pipeline.default.run file table).result = .ok report → report.success = true →
      report.diagnostics = [] →
      let first := Pipeline.default.run file table
      let second := Pipeline.default.run first.file first.table
      ∃ report', second.result = .ok report' ∧ report'.success = true ∧ report'.changes = 0 ∧
        report'.diagnostics = [] ∧ second.file = first.file ∧
        { second.table with reserved := first.table.reserved } = first.table := by
  intro h
  rcases Pipeline.RunResult.report_of_isClean isClean_run_shortArena with
    ⟨report, hrun, hsuccess, hdiagnostics⟩
  rcases h swapFile (swapTable shortArena) report (swapFile_wellFormed _) hrun hsuccess
    hdiagnostics with ⟨report', hsecond, _, hchanges, _⟩
  have hcount : (Pipeline.default.run (Pipeline.default.run swapFile (swapTable shortArena)).file
      (Pipeline.default.run swapFile (swapTable shortArena)).table).result.toOption.map
        Report.changes = some 1 := by
    rw [Pipeline.run_eq_of_ids after?_second_swap, Pipeline.run_eq_of_ids (after?_swapFile _)]
    decide +kernel
  rw [hsecond] at hcount
  have hone : report'.changes = 1 := Option.some_inj.mp hcount
  rw [hchanges] at hone
  cases hone

end Desugar
