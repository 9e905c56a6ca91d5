import Desugar.Proofs.Stages

/-!
# Runs without problems

A run in which every rule is applied and nothing is reported is a chain of
passes, each of which gives a result and starts where the one before it has
ended.  Such a run of the default order ends with all traits.
-/

namespace Desugar

open PassM (Obtains)
open Node (All)

/-!
## Passes
-/

namespace Rule

variable {env : PassEnv} {rule : Rule} {before after : Pass → Prop}

theorem yields_iterate
    (happly : ∀ p, before p → Obtains env p rule.apply (fun _ q => after q))
    (hcount : ∀ p, after p → after { p with applications := p.applications + 1 })
    (hagain : rule.fixpoint = true → ∀ p, after p → before p) (limit : Nat) (n total : Nat)
    {p : Pass} (hp : before p) :
    Obtains env p (rule.iterate limit n total) (fun _ q => after q) := by
  induction n generalizing p total with
  | zero => exact .raise trivial
  | succ n ih =>
    apply (happly p hp).bind
    intro changes q _ hq
    have hgrows : q.Grows { q with applications := q.applications + 1 } :=
      .of_same_record rfl rfl rfl
    refine .step (PassM.exec_modify _ env q) hgrows ?_
    have hq' := hcount q hq
    split
    · exact .of_exec_error (PassM.exec_throw .exhausted env _) (.refl _) trivial
    · split
      · exact .pure hq'
      · rename_i hmore
        have hfixpoint : rule.fixpoint = true := by
          cases hvalue : rule.fixpoint with
          | true => rfl
          | false => exact absurd (.inr hvalue) hmore
        exact ih _ (hagain hfixpoint _ hq')

theorem yields_pass
    (happly : ∀ p, before p → Obtains env p rule.apply (fun _ q => after q))
    (hcount : ∀ p, after p → after { p with applications := p.applications + 1 })
    (hagain : rule.fixpoint = true → ∀ p, after p → before p) (config : Config) {p : Pass}
    (hp : before p) :
    Obtains env p (rule.pass config) (fun _ q => after q) := by
  apply (yields_iterate happly hcount hagain _ _ 0 hp).bind
  intro changes q _ hq
  split
  · refine .look (PassM.exec_get env q) ?_
    split
    · exact .raise_bind trivial
    · exact .pure hq
  · exact .pure hq

end Rule

/-!
## Chains of passes
-/

def Pass.renew (p : Pass) : Pass :=
  { p with diagnostics := [], scopes := .empty, changes := 0, applications := 0 }

inductive CleanRun (config : Config) (view : PackageView) : Pass → List Rule → Pass → Prop where
  | nil (p : Pass) : CleanRun config view p [] p
  | cons {p q r : Pass} {rule : Rule} {rest : List Rule} {changes : Nat}
      (hpass : (rule.pass config).exec ⟨rule.name, view, config.tempStem⟩ p = (.ok changes, q))
      (hdiagnostics : q.diagnostics = []) (hrest : CleanRun config view q.renew rest r) :
      CleanRun config view p (rule :: rest) r

namespace Progress

def start (progress : Progress) : Pass :=
  ⟨progress.file, progress.table, progress.ids, [], .empty, 0, 0⟩

/-- Everything so far was applied, and nothing was reported. -/
def Clean (progress : Progress) : Prop :=
  progress.report.success = true ∧ progress.report.diagnostics = []

theorem clean_addPass {progress : Progress} {rule : Rule} {outcome : Outcome} {stats : PassStats}
    {diagnostics : List Diagnostic}
    (h : (progress.addPass rule outcome stats diagnostics).Clean) :
    progress.Clean ∧ outcome = .applied ∧ diagnostics = [] := by
  rcases h with ⟨hsuccess, hdiagnostics⟩
  simp only [addPass, Report.success, List.all_append, List.all_cons, List.all_nil, Bool.and_true,
    Bool.and_eq_true] at hsuccess
  rcases List.append_eq_nil_iff.mp hdiagnostics with ⟨hbefore, hnew⟩
  exact ⟨⟨hsuccess.1, hbefore⟩, beq_iff_eq.mp hsuccess.2, hnew⟩

end Progress

namespace Pipeline

variable {config : Config} {view : PackageView}

/-- How the step of a rule ends: the rule is skipped, its pass gives a result or is undone, or
the run stops in its pass. -/
inductive StepEnds (config : Config) (view : PackageView) (progress : Progress) (rule : Rule) :
    Except Fault Progress → Progress → Prop where
  | skipped {name : String} {next : Progress}
      (hrequires : rule.requires.find? progress.unavailable.contains = some name)
      (hnext : next = progress.addPass rule (.skipped name) {} []) :
      StepEnds config view progress rule (.ok next) next
  | applied {changes : Nat} {q : Pass} {next : Progress}
      (hready : rule.requires.find? progress.unavailable.contains = none)
      (hpass : (rule.pass config).exec ⟨rule.name, view, config.tempStem⟩ progress.start =
        (.ok changes, q))
      (hnext : next = Progress.addPass ⟨q.file, q.table, q.ids, progress.report⟩ rule .applied
        ⟨q.applications, changes, q.diagnostics.length, 0⟩ q.diagnostics) :
      StepEnds config view progress rule (.ok next) next
  | undone {problem : Problem} {q : Pass} {next : Progress}
      (hready : rule.requires.find? progress.unavailable.contains = none)
      (hpass : (rule.pass config).exec ⟨rule.name, view, config.tempStem⟩ progress.start =
        (.error (.problem problem), q))
      (hsevere : problem.severity ≠ .fatal)
      (hnext : next = Progress.addPass { progress with ids := q.ids } rule
        (.failed problem.message) ⟨q.applications, 0, q.diagnostics.length + 1, 0⟩
        (q.diagnostics ++
          [problem.diagnose rule.name (problem.node.bind progress.file.snippet?)])) :
      StepEnds config view progress rule (.ok next) next
  | stopped {fault : Fault} {q : Pass}
      (hready : rule.requires.find? progress.unavailable.contains = none)
      (hpass : (rule.pass config).exec ⟨rule.name, view, config.tempStem⟩ progress.start =
        (.error fault, q))
      (hfatal : config.keepGoing = true →
        ∀ problem, fault = .problem problem → problem.severity = .fatal) :
      StepEnds config view progress rule (.error fault) ⟨q.file, q.table, q.ids, progress.report⟩

theorem stepEnds {progress left : Progress} {rule : Rule} {result : Except Fault Progress}
    (h : step config view progress rule = (result, left)) :
    StepEnds config view progress rule result left := by
  unfold step at h
  split at h
  · rename_i hrequires
    cases h
    exact .skipped hrequires rfl
  · rename_i hready
    dsimp only at h
    cases hexec : (rule.pass config).exec ⟨rule.name, view, config.tempStem⟩ progress.start with
    | mk outcome q =>
      have hrun : ((rule.pass config).run ⟨rule.name, view, config.tempStem⟩).run.run
          ⟨progress.file, progress.table, progress.ids, [], .empty, 0, 0⟩ = (outcome, q) := hexec
      rw [hrun] at h
      cases outcome with
      | ok changes =>
        cases h
        exact .applied hready hexec rfl
      | error fault =>
        cases fault with
        | exhausted | endless =>
          cases h
          exact .stopped hready hexec fun _ _ hproblem => by cases hproblem
        | problem problem =>
          dsimp only at h
          split at h
          · rename_i hgoes
            cases h
            exact .undone hready hexec (by simpa using (Bool.and_eq_true_iff.mp hgoes).2) rfl
          · rename_i hstops
            cases h
            refine .stopped hready hexec fun hkeep _ hproblem => ?_
            cases hproblem
            simpa [hkeep] using hstops

theorem step_of_clean {progress progress' left : Progress} {rule : Rule}
    (h : step config view progress rule = (.ok progress', left)) (hclean : progress'.Clean) :
    progress.Clean ∧ ∃ changes q,
      (rule.pass config).exec ⟨rule.name, view, config.tempStem⟩ progress.start =
        (.ok changes, q) ∧ q.diagnostics = [] ∧ progress'.start = q.renew := by
  cases stepEnds h with
  | skipped _ hnext | undone _ _ _ hnext =>
    subst hnext
    exact absurd (Progress.clean_addPass hclean).2.1 (by simp)
  | applied _ hpass hnext =>
    subst hnext
    rcases Progress.clean_addPass hclean with ⟨hbefore, _, hnew⟩
    exact ⟨hbefore, _, _, hpass, hnew, rfl⟩

theorem cleanRun_of_steps {rules : List Rule} {progress left : Progress} {report : Report}
    (h : steps config view progress rules = (.ok report, left)) (hsuccess : report.success = true)
    (hdiagnostics : report.diagnostics = []) :
    progress.Clean ∧ CleanRun config view progress.start rules left.start := by
  induction rules generalizing progress with
  | nil =>
    cases h
    exact ⟨⟨hsuccess, hdiagnostics⟩, .nil _⟩
  | cons rule rest ih =>
    unfold steps at h
    cases hstep : step config view progress rule with
    | mk result left' =>
      rw [hstep] at h
      cases result with
      | error fault => cases h
      | ok progress' =>
        rcases ih h with ⟨hclean, hrest⟩
        rcases step_of_clean hstep hclean with ⟨hbefore, changes, q, hpass, hnew, hstart⟩
        rw [hstart] at hrest
        exact ⟨hbefore, .cons hpass hnew hrest⟩

theorem run_eq_of_ids {pipeline : Pipeline} {file : File} {table : SymbolTable} {ids : NodeSupply}
    (h : NodeSupply.after? (file.maxId.larger table.maxNode) = some ids) :
    pipeline.run file table =
      let start : Progress := ⟨file, table.reserve file.spelledNames, ids, ⟨[], []⟩⟩
      let (result, left) := steps pipeline.config (.ofFile file) start pipeline.rules
      ⟨result, left.file, left.table⟩ := by
  unfold run
  have hsame : (table.reserve file.spelledNames).maxNode = table.maxNode := rfl
  simp only [hsame, h]

theorem cleanRun_of_run {pipeline : Pipeline} {file : File} {table : SymbolTable} {report : Report}
    (h : (pipeline.run file table).result = .ok report) (hsuccess : report.success = true)
    (hdiagnostics : report.diagnostics = []) :
    ∃ (ids : NodeSupply) (left : Progress),
      NodeSupply.after? (file.maxId.larger table.maxNode) = some ids ∧
      (pipeline.run file table).file = left.file ∧ (pipeline.run file table).table = left.table ∧
      CleanRun pipeline.config (.ofFile file)
        (Progress.start ⟨file, table.reserve file.spelledNames, ids, ⟨[], []⟩⟩)
        pipeline.rules left.start := by
  cases hids : NodeSupply.after? (file.maxId.larger table.maxNode) with
  | none =>
    have hsame : (table.reserve file.spelledNames).maxNode = table.maxNode := rfl
    unfold run at h
    simp only [hsame, hids] at h
    cases h
  | some ids =>
    rw [run_eq_of_ids hids] at h ⊢
    cases hsteps : steps pipeline.config (.ofFile file)
        ⟨file, table.reserve file.spelledNames, ids, ⟨[], []⟩⟩ pipeline.rules with
    | mk result left =>
      simp only [hsteps] at h ⊢
      subst h
      exact ⟨ids, left, rfl, rfl, rfl, (cleanRun_of_steps hsteps hsuccess hdiagnostics).2⟩

/-- Whether a run applied every rule and reported nothing. -/
def RunResult.isClean (run : RunResult) : Bool :=
  match run.result with
  | .ok report => report.success && report.diagnostics.isEmpty
  | .error _ => false

theorem RunResult.report_of_isClean {run : RunResult} (h : run.isClean = true) :
    ∃ report, run.result = .ok report ∧ report.success = true ∧ report.diagnostics = [] := by
  unfold isClean at h
  cases hresult : run.result with
  | error fault =>
    rw [hresult] at h
    cases h
  | ok report =>
    rw [hresult] at h
    rcases (Bool.and_eq_true _ _).mp h with ⟨hsuccess, hdiagnostics⟩
    exact ⟨report, rfl, hsuccess, List.isEmpty_iff.mp hdiagnostics⟩

end Pipeline

/-!
## From stage to stage
-/

namespace Pass.AtStage

variable {base : Trait → Prop} {stage : Nat} {p : Pass}

theorem renew (h : p.AtStage base stage) (hdiagnostics : p.diagnostics = []) :
    p.renew.AtStage base stage :=
  h.of_same_file (.of_same_record rfl rfl hdiagnostics.symm) rfl

theorem count (h : p.AtStage base stage) :
    Pass.AtStage base stage { p with applications := p.applications + 1 } :=
  h.of_same_file (.of_same_record rfl rfl rfl) rfl

end Pass.AtStage

namespace Rule

variable {base : Trait → Prop} {stage : Nat}

theorem Advances.pass {rule : Rule} (h : rule.Advances base stage) (config : Config)
    (env : PassEnv) {p : Pass} (hp : p.AtStage base stage) :
    Obtains env p (rule.pass config) (fun _ q => q.AtStage base (stage + 1)) :=
  yields_pass (h env) (fun _ hq => hq.count) (fun _ _ hq => hq.back) config hp

def Advancing (base : Trait → Prop) : Nat → List Rule → Prop
  | _, [] => True
  | stage, rule :: rest => rule.Advances base stage ∧ Advancing base (stage + 1) rest

theorem advancing_catalog (hbase : Trait.Base base) : Advancing base 1 catalog.tail :=
  ⟨(switchTag_settles hbase).advances rfl, (hoistInit_settles hbase (by decide)).advances rfl,
    (forLoop_settles hbase (by decide)).advances rfl,
    (splitDecl_settles hbase (by decide)).advances rfl, (explicitType_settles hbase).advances rfl,
    (zeroValue_settles hbase).advances rfl, (shortDecl_settles hbase (by decide)).advances rfl,
    (parallelAssign_settles hbase).advances rfl, (explicitDiscard_settles hbase).advances rfl,
    trivial⟩

end Rule

namespace CleanRun

variable {config : Config} {view : PackageView} {base : Trait → Prop}

theorem atStage {rules : List Rule} {p q : Pass} (h : CleanRun config view p rules q)
    {stage : Nat} (hrules : Rule.Advancing base stage rules) (hp : p.AtStage base stage) :
    q.AtStage base (stage + rules.length) := by
  induction h generalizing stage with
  | nil p => exact hp
  | @cons p q r rule rest changes hpass hdiagnostics hrest ih =>
    rcases ((hrules.1.pass config _ hp).of_ok hpass) with ⟨_, hq⟩
    have hlast := ih hrules.2 (hq.renew hdiagnostics)
    rw [List.length_cons, Nat.add_comm rest.length, ← Nat.add_assoc]
    exact hlast

theorem catalog_atStage (hbase : Trait.Base base) {p q : Pass}
    (h : CleanRun config view p Rule.catalog q) (hp : p.AtStage base 0)
    (hclosed : p.table.Closed) (hdirect : ∀ n ∈ p.file.nodes, n.Direct p.table) :
    q.AtStage base 10 := by
  cases h with
  | cons hpass hdiagnostics hrest =>
    have happly : ∀ p', p' = p → Obtains
        ⟨Rule.explicitDeref.name, view, config.tempStem⟩ p' Rule.explicitDeref.apply
        (fun _ q => q.AtStage base 1) := by
      intro p' hp'
      rw [hp']
      exact Rule.explicitDeref_advances hbase hp hclosed hdirect
    have hfirst := Rule.yields_pass happly (fun _ hq => hq.count)
      (fun hfixpoint => nomatch hfixpoint) config rfl
    have hsecond := (hfirst.of_ok hpass).2.renew hdiagnostics
    exact hrest.atStage (Rule.advancing_catalog hbase) hsecond

end CleanRun
end Desugar
