import Desugar.Proofs.Prerequisites

/-!
# Runs that keep going

A run that keeps going is a course of legs, one for each rule, whatever the rules
do.  A leg skips its rule when a prerequisite has not been applied.  Otherwise it
tries the rule on the file and the table that are there: they become what the
rule has made of them, or else stay.  Identities that a rule has drawn are gone
in either case.  Only a fatal problem stops the run.
-/

namespace Desugar

/-!
## Legs and courses
-/

structure Standing where
  file : File
  table : SymbolTable
  ids : NodeSupply

/-- The problems that all passes together have met. -/
def Report.errors (report : Report) : Nat :=
  report.passes.foldr (fun pass total => pass.stats.errors + total) 0

namespace Rule

/-- The result of trying a rule, and the state that this leaves. -/
def attempt (rule : Rule) (config : Config) (view : PackageView) (standing : Standing) :
    Except Fault Nat × Pass :=
  (rule.pass config).exec ⟨rule.name, view, config.tempStem⟩
    ⟨standing.file, standing.table, standing.ids, [], .empty, 0, 0⟩

def obstacle (rule : Rule) (earlier : List PassReport) : Option String :=
  rule.requires.find? fun name => earlier.any fun pass => pass.rule == name && !pass.isApplied

end Rule

/-- How the pass of a rule, after some earlier passes, takes one standing to the
next. -/
inductive Leg (config : Config) (view : PackageView) (earlier : List PassReport)
    (standing : Standing) (rule : Rule) : PassReport → Standing → Prop where
  | skipped {pass : PassReport} {name : String} (hobstacle : rule.obstacle earlier = some name)
      (hrule : pass.rule = rule.name) (houtcome : pass.outcome = .skipped name) :
      Leg config view earlier standing rule pass standing
  | applied {pass : PassReport} {changes : Nat} {q : Pass} (hready : rule.obstacle earlier = none)
      (hrule : pass.rule = rule.name)
      (hattempt : rule.attempt config view standing = (.ok changes, q))
      (houtcome : pass.outcome = .applied) :
      Leg config view earlier standing rule pass ⟨q.file, q.table, q.ids⟩
  | failed {pass : PassReport} {problem : Problem} {q : Pass}
      (hready : rule.obstacle earlier = none) (hrule : pass.rule = rule.name)
      (hattempt : rule.attempt config view standing = (.error (.problem problem), q))
      (hsevere : problem.severity ≠ .fatal) (houtcome : pass.outcome = .failed problem.message) :
      Leg config view earlier standing rule pass ⟨standing.file, standing.table, q.ids⟩

/-- The legs of some rules, one after the other. -/
inductive Course (config : Config) (view : PackageView) :
    List PassReport → Standing → List Rule → List PassReport → Standing → Prop where
  | nil (earlier : List PassReport) (standing : Standing) :
      Course config view earlier standing [] [] standing
  | cons {earlier passes : List PassReport} {standing next last : Standing} {rule : Rule}
      {rest : List Rule} {pass : PassReport}
      (hleg : Leg config view earlier standing rule pass next)
      (hrest : Course config view (earlier ++ [pass]) next rest passes last) :
      Course config view earlier standing (rule :: rest) (pass :: passes) last

section

variable {config : Config} {view : PackageView} {earlier : List PassReport} {standing : Standing}

theorem Leg.rule_eq {rule : Rule} {pass : PassReport} {next : Standing}
    (h : Leg config view earlier standing rule pass next) : pass.rule = rule.name := by
  cases h with
  | skipped hobstacle hrule houtcome | applied hready hrule hattempt houtcome
  | failed hready hrule hattempt hsevere houtcome => exact hrule

theorem Leg.skipped_iff {rule : Rule} {pass : PassReport} {next : Standing}
    (h : Leg config view earlier standing rule pass next) (name : String) :
    pass.outcome = .skipped name ↔ rule.obstacle earlier = some name := by
  cases h with
  | skipped hobstacle hrule houtcome | applied hobstacle hrule hattempt houtcome
  | failed hobstacle hrule hattempt hsevere houtcome =>
    rw [houtcome, hobstacle]
    simp

theorem Leg.not_stopped {rule : Rule} {pass : PassReport} {next : Standing} {fault : Fault}
    {q : Pass} (h : Leg config view earlier standing rule pass next)
    (hready : rule.obstacle earlier = none)
    (hattempt : rule.attempt config view standing = (.error fault, q))
    (hstop : ∀ problem, fault = .problem problem → problem.severity = .fatal) : False := by
  cases h with
  | skipped hobstacle hrule houtcome =>
    rw [hready] at hobstacle
    cases hobstacle
  | applied _ hrule hattempt' houtcome =>
    rw [hattempt] at hattempt'
    cases hattempt'
  | failed _ hrule hattempt' hsevere houtcome =>
    rw [hattempt] at hattempt'
    cases hattempt'
    exact hsevere (hstop _ rfl)

theorem Leg.unique {rule : Rule} {pass pass' : PassReport} {next next' : Standing}
    (h : Leg config view earlier standing rule pass next)
    (h' : Leg config view earlier standing rule pass' next') :
    pass.rule = pass'.rule ∧ pass.outcome = pass'.outcome ∧ next = next' := by
  refine ⟨h.rule_eq.trans h'.rule_eq.symm, ?_⟩
  cases h with
  | skipped hobstacle hrule houtcome =>
    cases h' with
    | skipped hobstacle' hrule' houtcome' =>
      rw [hobstacle] at hobstacle'
      cases hobstacle'
      exact ⟨houtcome.trans houtcome'.symm, rfl⟩
    | applied hready' hrule' hattempt' houtcome'
    | failed hready' hrule' hattempt' hsevere' houtcome' =>
      rw [hobstacle] at hready'
      cases hready'
  | applied hready hrule hattempt houtcome =>
    cases h' with
    | skipped hobstacle' hrule' houtcome' =>
      rw [hready] at hobstacle'
      cases hobstacle'
    | applied hready' hrule' hattempt' houtcome' =>
      rw [hattempt] at hattempt'
      cases hattempt'
      exact ⟨houtcome.trans houtcome'.symm, rfl⟩
    | failed hready' hrule' hattempt' hsevere' houtcome' =>
      rw [hattempt] at hattempt'
      cases hattempt'
  | failed hready hrule hattempt hsevere houtcome =>
    cases h' with
    | skipped hobstacle' hrule' houtcome' =>
      rw [hready] at hobstacle'
      cases hobstacle'
    | applied hready' hrule' hattempt' houtcome' =>
      rw [hattempt] at hattempt'
      cases hattempt'
    | failed hready' hrule' hattempt' hsevere' houtcome' =>
      rw [hattempt] at hattempt'
      cases hattempt'
      exact ⟨houtcome.trans houtcome'.symm, rfl⟩

end

def SameOutcomes (passes passes' : List PassReport) : Prop :=
  passes.map (fun pass => (pass.rule, pass.outcome)) =
    passes'.map fun pass => (pass.rule, pass.outcome)

theorem Rule.obstacle_congr (rule : Rule) {passes passes' : List PassReport}
    (h : SameOutcomes passes passes') : rule.obstacle passes = rule.obstacle passes' := by
  have hany : ∀ (passes : List PassReport) (name : String),
      (passes.any fun pass => pass.rule == name && !pass.isApplied) =
        (passes.map fun pass => (pass.rule, pass.outcome)).any
          fun (rule, outcome) => rule == name && !(outcome == .applied) := by
    intro passes name
    rw [List.any_map]
    rfl
  unfold obstacle
  congr 1
  funext name
  rw [hany, hany, h]

theorem Leg.congr {config : Config} {view : PackageView} {earlier earlier' : List PassReport}
    {standing next : Standing} {rule : Rule} {pass : PassReport}
    (h : Leg config view earlier standing rule pass next)
    (hearlier : SameOutcomes earlier earlier') :
    Leg config view earlier' standing rule pass next := by
  have hobstacles := rule.obstacle_congr hearlier
  cases h with
  | skipped hobstacle hrule houtcome =>
    exact .skipped (hobstacles.symm.trans hobstacle) hrule houtcome
  | applied hready hrule hattempt houtcome =>
    exact .applied (hobstacles.symm.trans hready) hrule hattempt houtcome
  | failed hready hrule hattempt hsevere houtcome =>
    exact .failed (hobstacles.symm.trans hready) hrule hattempt hsevere houtcome

namespace Course

variable {config : Config} {view : PackageView} {earlier passes : List PassReport}
  {standing last : Standing} {rules : List Rule}

theorem rules_eq (h : Course config view earlier standing rules passes last) :
    passes.map PassReport.rule = rules.map Rule.name := by
  induction h with
  | nil earlier standing => rfl
  | cons hleg hrest ih => rw [List.map_cons, List.map_cons, hleg.rule_eq, ih]

theorem skipped_iff (h : Course config view earlier standing rules passes last) {i : Nat}
    {rule : Rule} {pass : PassReport} (hrule : rules[i]? = some rule)
    (hpass : passes[i]? = some pass) (name : String) :
    pass.outcome = .skipped name ↔ rule.obstacle (earlier ++ passes.take i) = some name := by
  induction h generalizing i with
  | nil earlier standing => cases hrule
  | @cons earlier passes standing next last first rest firstPass hleg hrest ih =>
    cases i with
    | zero =>
      cases hrule
      cases hpass
      rw [List.take_zero, List.append_nil]
      exact hleg.skipped_iff name
    | succ i =>
      have hlater := ih hrule hpass
      rw [List.append_assoc] at hlater
      exact hlater

end Course

/-!
## Steps
-/

namespace Progress

def standing (progress : Progress) : Standing :=
  ⟨progress.file, progress.table, progress.ids⟩

def Counted (progress : Progress) : Prop :=
  progress.report.errors = progress.report.diagnostics.length

theorem counted_addPass {progress : Progress} {rule : Rule} {outcome : Outcome} {stats : PassStats}
    {diagnostics : List Diagnostic} (h : progress.Counted)
    (herrors : stats.errors = diagnostics.length) :
    (progress.addPass rule outcome stats diagnostics).Counted := by
  have hsum : ∀ (passes : List PassReport) (total : Nat),
      passes.foldr (fun pass total => pass.stats.errors + total) total =
        passes.foldr (fun pass total => pass.stats.errors + total) 0 + total := by
    intro passes total
    induction passes with
    | nil => exact (Nat.zero_add total).symm
    | cons pass rest ih => rw [List.foldr_cons, List.foldr_cons, ih, Nat.add_assoc]
  unfold Counted Report.errors at *
  simp only [addPass, List.foldr_append, List.foldr_cons, List.foldr_nil, List.length_append]
  rw [hsum, h, herrors, Nat.add_zero]

theorem find?_unavailable (progress : Progress) (rule : Rule) :
    rule.requires.find? progress.unavailable.contains = rule.obstacle progress.report.passes := by
  unfold Rule.obstacle
  congr 1
  funext name
  rw [Bool.eq_iff_iff, List.contains_iff_mem, List.any_eq_true]
  simp only [unavailable, List.mem_map, List.mem_filter, Bool.and_eq_true, beq_iff_eq]
  constructor
  · rintro ⟨pass, ⟨hpass, hoff⟩, hname⟩
    exact ⟨pass, hpass, hname, hoff⟩
  · rintro ⟨pass, hpass, hname, hoff⟩
    exact ⟨pass, ⟨hpass, hoff⟩, hname⟩

end Progress

namespace Pipeline

variable {config : Config} {view : PackageView} {progress left : Progress} {rule : Rule}

theorem step_cases (hkeep : config.keepGoing = true) (view : PackageView) (progress : Progress)
    (rule : Rule) :
    (∃ (next : Progress) (pass : PassReport), step config view progress rule = (.ok next, next) ∧
      Leg config view progress.report.passes progress.standing rule pass next.standing ∧
      next.report.passes = progress.report.passes ++ [pass] ∧
      (progress.Counted → next.Counted)) ∨
    ∃ (fault : Fault) (q : Pass),
      step config view progress rule =
        (.error fault, ⟨q.file, q.table, q.ids, progress.report⟩) ∧
      rule.obstacle progress.report.passes = none ∧
      rule.attempt config view progress.standing = (.error fault, q) ∧
      ∀ problem, fault = .problem problem → problem.severity = .fatal := by
  rcases hstep : step config view progress rule with ⟨result, left⟩
  cases stepEnds hstep with
  | skipped hrequires hnext =>
    subst hnext
    rw [progress.find?_unavailable] at hrequires
    exact .inl ⟨_, _, rfl, .skipped hrequires rfl rfl, rfl,
      fun hcounted => Progress.counted_addPass hcounted rfl⟩
  | applied hready hpass hnext =>
    subst hnext
    rw [progress.find?_unavailable] at hready
    exact .inl ⟨_, _, rfl, .applied hready rfl hpass rfl, rfl,
      fun hcounted => Progress.counted_addPass hcounted rfl⟩
  | undone hready hpass hsevere hnext =>
    subst hnext
    rw [progress.find?_unavailable] at hready
    exact .inl ⟨_, _, rfl, .failed hready rfl hpass hsevere rfl, rfl,
      fun hcounted => Progress.counted_addPass hcounted (by rw [List.length_append]; rfl)⟩
  | stopped hready hpass hfatal =>
    rw [progress.find?_unavailable] at hready
    exact .inr ⟨_, _, rfl, hready, hpass, hfatal hkeep⟩

theorem course_of_steps (hkeep : config.keepGoing = true) {rules : List Rule} {report : Report}
    (h : steps config view progress rules = (.ok report, left)) (hcounted : progress.Counted) :
    ∃ passes, report.passes = progress.report.passes ++ passes ∧
      Course config view progress.report.passes progress.standing rules passes left.standing ∧
      report.errors = report.diagnostics.length := by
  induction rules generalizing progress with
  | nil =>
    cases h
    exact ⟨[], (List.append_nil _).symm, .nil _ _, hcounted⟩
  | cons rule rest ih =>
    unfold steps at h
    rcases step_cases hkeep view progress rule with
      ⟨next, pass, hstep, hleg, hpasses, hcount⟩ | ⟨fault, q, hstep, _⟩
    · rw [hstep] at h
      rcases ih h (hcount hcounted) with ⟨passes, hreport, hcourse, herrors⟩
      rw [hpasses] at hreport hcourse
      refine ⟨pass :: passes, ?_, .cons hleg hcourse, herrors⟩
      rw [hreport, List.append_assoc]
      rfl
    · rw [hstep] at h
      cases h

theorem course_of_steps_error (hkeep : config.keepGoing = true) {rules : List Rule}
    {problem : Problem} (h : steps config view progress rules = (.error (.problem problem), left)) :
    ∃ (before : List Rule) (rule : Rule) (after : List Rule) (passes : List PassReport)
      (last : Standing) (q : Pass), rules = before ++ rule :: after ∧
      Course config view progress.report.passes progress.standing before passes last ∧
      rule.obstacle (progress.report.passes ++ passes) = none ∧
      rule.attempt config view last = (.error (.problem problem), q) ∧
      problem.severity = .fatal := by
  induction rules generalizing progress with
  | nil => cases h
  | cons rule rest ih =>
    unfold steps at h
    rcases step_cases hkeep view progress rule with
      ⟨next, pass, hstep, hleg, hpasses, _⟩ | ⟨fault, q, hstep, hready, hattempt, hfatal⟩
    · rw [hstep] at h
      rcases ih h with ⟨before, other, after, passes, last, q, hrest, hcourse, hready, hlast⟩
      rw [hpasses] at hcourse hready
      rw [List.append_assoc] at hready
      refine ⟨rule :: before, other, after, pass :: passes, last, q, ?_, .cons hleg hcourse,
        hready, hlast⟩
      rw [hrest, List.cons_append]
    · rw [hstep] at h
      cases h
      refine ⟨[], rule, rest, [], progress.standing, q, rfl, .nil _ _, ?_, hattempt,
        hfatal problem rfl⟩
      rw [List.append_nil]
      exact hready

theorem steps_error_of_course (hkeep : config.keepGoing = true) {before after : List Rule}
    {earlier passes : List PassReport} {last : Standing} {q : Pass} {problem : Problem}
    (hearlier : SameOutcomes earlier progress.report.passes)
    (hcourse : Course config view earlier progress.standing before passes last)
    (hready : rule.obstacle (earlier ++ passes) = none)
    (hattempt : rule.attempt config view last = (.error (.problem problem), q))
    (hfatal : problem.severity = .fatal) :
    (steps config view progress (before ++ rule :: after)).1 = .error (.problem problem) := by
  induction before generalizing progress earlier passes with
  | nil =>
    cases hcourse
    rw [List.append_nil] at hready
    rw [List.nil_append]
    unfold steps
    rcases step_cases hkeep view progress rule with
      ⟨next, pass, _, hleg, _⟩ | ⟨fault, q', hstep, _, hattempt', _⟩
    · rw [rule.obstacle_congr hearlier] at hready
      refine (hleg.not_stopped hready hattempt fun other hother => ?_).elim
      cases hother
      exact hfatal
    · rw [hattempt] at hattempt'
      cases hattempt'
      rw [hstep]
  | cons first rest ih =>
    cases hcourse with
    | @cons _ passes _ next _ _ _ pass hleg hrest =>
      rw [List.cons_append]
      unfold steps
      have hleg := hleg.congr hearlier
      rcases step_cases hkeep view progress first with
        ⟨next', pass', hstep, hleg', hpasses, _⟩ | ⟨fault, q', hstep, hready', hattempt', hstop⟩
      · rw [hstep]
        rcases hleg.unique hleg' with ⟨hrule, houtcome, rfl⟩
        have hlater : SameOutcomes (earlier ++ [pass]) next'.report.passes := by
          unfold SameOutcomes at hearlier ⊢
          rw [hpasses, List.map_append, List.map_append, hearlier]
          simp [hrule, houtcome]
        rw [← List.singleton_append, ← List.append_assoc] at hready
        exact ih hlater hrest hready
      · exact (hleg.not_stopped hready' hattempt' hstop).elim

/-!
## Runs
-/

/-- Whatever the rules do, a run that keeps going and gives a report has one pass
for each rule, in the order of the rules.  Each pass is a leg from where the one
before it has ended, and is skipped exactly when a prerequisite has failed or has
been skipped before it.  The report counts the problems that it lists.  The run
gives a problem instead exactly when a rule that is not skipped fails fatally. -/
theorem run_keeps_going {config : Config} (hkeep : config.keepGoing = true) (rules : List Rule)
    (file : File) (table : SymbolTable) :
    let run := Pipeline.run ⟨rules, config⟩ file table
    let view := PackageView.ofFile file
    let supply := NodeSupply.after? (file.maxId.larger table.maxNode)
    let start := fun ids => Standing.mk file (table.reserve file.spelledNames) ids
    (∀ report, run.result = .ok report →
      (∃ ids left, supply = some ids ∧
        Course config view [] (start ids) rules report.passes ⟨run.file, run.table, left⟩) ∧
      report.passes.map PassReport.rule = rules.map Rule.name ∧
      (∀ (i : Nat) (rule : Rule) (pass : PassReport) (name : String),
        rules[i]? = some rule → report.passes[i]? = some pass →
        (pass.outcome = .skipped name ↔ rule.obstacle (report.passes.take i) = some name)) ∧
      report.errors = report.diagnostics.length) ∧
    ∀ problem, run.result = .error (.problem problem) ↔
      problem.severity = .fatal ∧ ∃ ids before rule after passes last q, supply = some ids ∧
        rules = before ++ rule :: after ∧ Course config view [] (start ids) before passes last ∧
        rule.obstacle passes = none ∧
        rule.attempt config view last = (.error (.problem problem), q) := by
  intro run view supply start
  constructor
  · intro report hreport
    rcases supply_of_run hreport with ⟨ids, hids⟩
    rcases steps_of_run hids with ⟨left, hfile, htable, hsteps⟩
    rw [hreport] at hsteps
    rcases course_of_steps hkeep hsteps rfl with ⟨passes, hpasses, hcourse, herrors⟩
    rw [List.nil_append] at hpasses
    subst hpasses
    refine ⟨⟨ids, left.ids, hids, ?_⟩, hcourse.rules_eq, fun i rule pass name hrule hpass => ?_,
      herrors⟩
    · rw [hfile, htable]
      exact hcourse
    · exact hcourse.skipped_iff hrule hpass name
  · intro problem
    constructor
    · intro hproblem
      have hsupply : ∃ ids, supply = some ids := by
        apply supply_of_result
        rw [show (Pipeline.run ⟨rules, config⟩ file table).result = _ from hproblem]
        intro hfault
        cases hfault
      rcases hsupply with ⟨ids, hids⟩
      rcases steps_of_run hids with ⟨left, _, _, hsteps⟩
      rw [hproblem] at hsteps
      rcases course_of_steps_error hkeep hsteps with
        ⟨before, rule, after, passes, last, q, hrules, hcourse, hready, hattempt, hfatal⟩
      exact ⟨hfatal, ids, before, rule, after, passes, last, q, hids, hrules, hcourse, hready,
        hattempt⟩
    · rintro ⟨hfatal, ids, before, rule, after, passes, last, q, hids, hrules, hcourse, hready,
        hattempt⟩
      rcases steps_of_run hids with ⟨left, _, _, hsteps⟩
      let begun : Progress := ⟨file, table.reserve file.spelledNames, ids, ⟨[], []⟩⟩
      have hbegun : SameOutcomes [] begun.report.passes := rfl
      have hstart : Course config view [] begun.standing before passes last := hcourse
      have hstop : (steps config view begun (before ++ rule :: after)).1 = _ :=
        steps_error_of_course hkeep hbegun hstart hready hattempt hfatal
      rw [← hrules] at hstop
      exact (congrArg Prod.fst hsteps).symm.trans hstop

end Pipeline

/-- A rule that draws an identity and then fails, a rule that depends on it, and a
rule that names the package. -/
def strandedRules : List Rule :=
  [{ name := "stranded", description := "", apply := do
      let id ← PassM.freshId
      PassM.raise (.missingScope id "nothing") },
   { name := "dependent", description := "", requires := ["stranded"], apply := return 0 },
   { name := "naming", description := "", apply := do
      modify fun pass => { pass with file := { pass.file with package := "named" } }
      return 1 }]

def emptyFile : File :=
  ⟨⟨0⟩, "main", "", [], []⟩

theorem after?_emptyFile :
    NodeSupply.after? (emptyFile.maxId.larger SymbolTable.empty.maxNode) = some ⟨1⟩ := by
  apply NodeSupply.after?_of_largest 0
  · decide
  · decide
  · decide
  · decide

theorem strandedRules_keep_going :
    ∃ (config : Config) (report : Report) (left : NodeSupply), config.keepGoing = true ∧
      (Pipeline.run ⟨strandedRules, config⟩ emptyFile .empty).result = .ok report ∧
      report.passes.map PassReport.outcome =
        [.failed "node #1: no scope recorded for nothing", .skipped "stranded", .applied] ∧
      Course config (.ofFile emptyFile) [] ⟨emptyFile, .empty, ⟨1⟩⟩ strandedRules report.passes
        ⟨{ emptyFile with package := "named" }, .empty, left⟩ ∧
      report.errors = report.diagnostics.length := by
  let config : Config := { keepGoing := true }
  have hkeep : config.keepGoing = true := rfl
  have hrun : ∃ report,
      (Pipeline.run ⟨strandedRules, config⟩ emptyFile .empty).result = .ok report ∧
      report.passes.map PassReport.outcome =
        [.failed "node #1: no scope recorded for nothing", .skipped "stranded", .applied] := by
    rw [Pipeline.run_eq_of_ids after?_emptyFile]
    exact ⟨_, rfl, by decide⟩
  rcases hrun with ⟨report, hreport, houtcomes⟩
  rcases Pipeline.run_keeps_going hkeep strandedRules emptyFile .empty with ⟨hok, _⟩
  rcases hok report hreport with ⟨⟨ids, left, hids, hcourse⟩, _, _, herrors⟩
  rw [after?_emptyFile] at hids
  cases hids
  rw [Pipeline.run_eq_of_ids after?_emptyFile] at hcourse
  exact ⟨config, report, left, hkeep, hreport, houtcomes, hcourse, herrors⟩

/-!
## Checked runs

What a rule could not do it has reported, and the check of the rule makes an
exception for what was reported.  The check goes by identities, so that a labelled
short declaration is found all the same, for it is reported without its labels.
-/

theorem File.problem_of_brokenProperty {file : File} {table : SymbolTable}
    {diagnostics : List Diagnostic} {rule : String} {which : List Property} {problem : Problem}
    (h : file.brokenProperty table diagnostics rule which = some problem) :
    ∃ detail, problem = .invariantViolated rule detail := by
  unfold brokenProperty at h
  dsimp only at h
  split at h
  · cases h
  · cases h
    exact ⟨_, rfl⟩

def Stmt.NarrowGuards : Stmt → Prop
  | .typeSwitch _ _ guard _ => guard.sources ≤ 1
  | .select _ clauses => ∀ clause ∈ clauses, ∀ s ∈ clause.comm, s.sources ≤ 1
  | _ => True

/-- The nodes that the checks can tell apart: guards are narrow, and what is
indexed or sliced is a value. -/
def Node.Distinct : Node → Prop
  | .stmt s | .header s => s.NarrowGuards
  | .expr e => e.OnValue
  | _ => True

/-- A variable of an unknown type, declared with a label or without one. -/
def keptFile (labelled : Bool) : File :=
  let short : Stmt := .assign ⟨5⟩ [.ident ⟨6⟩ "x"] .define [.ident ⟨7⟩ "v"]
  let body : List Stmt := [if labelled then .labeled ⟨4⟩ "L" short else short]
  ⟨⟨0⟩, "main", "", [], [.func ⟨⟨1⟩, ⟨⟨2⟩, "main"⟩, none, ⟨[], [], false⟩, some ⟨⟨3⟩, body⟩⟩]⟩

def keptTable : SymbolTable :=
  { SymbolTable.empty with
    types := #[.invalid]
    exprTypes := (∅ : NodeMap TypeId).insert ⟨7⟩ ⟨0⟩
    defs := (∅ : NodeMap BindingId).insert ⟨6⟩ ⟨0⟩
    scopes := #[⟨none, [("x", ⟨0⟩)]⟩]
    scopeOf := (∅ : NodeMap ScopeId).insert ⟨3⟩ ⟨0⟩
    bindings := #[⟨"x", some ⟨0⟩, ⟨0⟩, .var, false⟩] }

theorem after?_keptFile (labelled : Bool) :
    NodeSupply.after? ((keptFile labelled).maxId.larger keptTable.maxNode) = some ⟨8⟩ := by
  cases labelled <;>
    exact NodeSupply.after?_of_largest 7 (by decide) (by decide) (by decide)
      (by decide)

theorem keptFile_wellFormed (labelled : Bool) : (keptFile labelled).WellFormed keptTable := by
  cases labelled <;> constructor <;>
    simp [keptFile, File.nodes, TopDecl.nodes, Block.nodes, Stmts.nodes, Stmt.parts, Exprs.nodes,
      Expr.nodes, Node.WellFormed, Stmt.WellFormed, Node.Direct, Expr.Direct]

theorem keptFile_distinct (labelled : Bool) : ∀ n ∈ (keptFile labelled).nodes, n.Distinct := by
  cases labelled <;>
    simp [keptFile, File.nodes, TopDecl.nodes, Block.nodes, Stmts.nodes, Stmt.parts, Exprs.nodes,
      Expr.nodes, Node.Distinct, Stmt.NarrowGuards, Expr.OnValue]

/-- A check makes no exception for the declaration that is kept with its label. -/
theorem keptFile_labelled_stops :
    (keptFile true).WellFormed keptTable ∧ (∀ n ∈ (keptFile true).nodes, n.Distinct) ∧
      (Pipeline.default.run (keptFile true) keptTable).result.toOption.map
        (fun report => (report.success, report.diagnostics.map Diagnostic.node)) =
          some (true, [some ⟨5⟩]) ∧
      (Pipeline.run ⟨Rule.catalog, { verify := true }⟩ (keptFile true) keptTable).result =
        .error (.problem (.invariantViolated "short-decl"
          "NoShortDecl at node #4: short declaration `L: x := v` (1 in total)")) := by
  refine ⟨keptFile_wellFormed true, keptFile_distinct true, ?_, ?_⟩
  · rw [Pipeline.run_eq_of_ids (after?_keptFile true)]
    decide +kernel
  · rw [Pipeline.run_eq_of_ids (after?_keptFile true)]
    decide +kernel

end Desugar
