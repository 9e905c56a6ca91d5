import Desugar.Pipeline.Plan
import Desugar.Pipeline.Report
import Desugar.Syntax.Ids

/-!
# Runs

A run applies the rules of a pipeline one after the other.  When it keeps going,
a rule that fails leaves the file and the table as they were before it, and the
rules that depend on it are skipped; identities that it drew are not drawn
again.  A fatal problem always ends the run.
-/

namespace Desugar

/-!
## Names spelled in a file
-/

def Node.spelledNames : Node → List String
  | .expr e => e.name?.toList
  | .decl d _ => d.specs.flatMap fun
      | .value spec => spec.names.map Ident.name
      | .type spec => [spec.name.name]
  | .func fn =>
      fn.name.name ::
        (fn.recv.toList ++ fn.sig.params ++ fn.sig.results).flatMap
          (fun field => field.names.map Ident.name)
  | .stmt (.labeled _ label _) => [label]
  | _ => []

/-- The names that a fresh name must not be taken for. -/
def File.spelledNames (file : File) : List String :=
  file.imports.map Import.localName ++ file.nodes.flatMap Node.spelledNames

def File.snippet? (file : File) (node : NodeId) : Option String :=
  (file.nodes.find? (fun candidate => candidate.id = node)).bind Node.source?

/-!
## One rule
-/

namespace Rule

/-- Apply a rule until it changes nothing, or once if it asks for no more.  The
changes of all applications are counted together. -/
def iterate (rule : Rule) (limit : Nat) : Nat → Nat → PassM Nat
  | 0, _ => PassM.raise (.noFixpoint rule.name limit)
  | n + 1, total => do
      let changes ← rule.apply
      modify fun pass => { pass with applications := pass.applications + 1 }
      if total + changes ≥ countLimit then throw .exhausted
      else if changes = 0 ∨ rule.fixpoint = false then return total + changes
      else rule.iterate limit n (total + changes)

def pass (rule : Rule) (config : Config) : PassM Nat := do
  let limit := config.maxIterations.toNat
  let changes ← rule.iterate limit (max limit 1) 0
  if config.verify then
    let pass ← get
    match rule.validate pass.file pass.table pass.diagnostics with
    | some problem => PassM.raise problem
    | none => pure ()
  return changes

end Rule

/-!
## All rules
-/

/-- What a run carries from rule to rule. -/
structure Progress where
  file : File
  table : SymbolTable
  ids : NodeSupply
  report : Report

namespace Progress

def addPass (progress : Progress) (rule : Rule) (outcome : Outcome) (stats : PassStats)
    (diagnostics : List Diagnostic) : Progress :=
  { progress with
    report := ⟨progress.report.passes ++ [⟨rule.name, outcome, stats⟩],
      progress.report.diagnostics ++ diagnostics⟩ }

def unavailable (progress : Progress) : List String :=
  (progress.report.passes.filter (fun pass => !pass.isApplied)).map PassReport.rule

end Progress

namespace Pipeline

/-- Run one rule on what the rules before it have left. -/
def step (config : Config) (view : PackageView) (progress : Progress) (rule : Rule) :
    Except Fault Progress × Progress :=
  match rule.requires.find? progress.unavailable.contains with
  | some prerequisite =>
      let progress := progress.addPass rule (.skipped prerequisite) {} []
      (.ok progress, progress)
  | none =>
      let env : PassEnv := ⟨rule.name, view, config.tempStem⟩
      let start : Pass := ⟨progress.file, progress.table, progress.ids, [], .empty, 0, 0⟩
      let (result, pass) := (rule.pass config).run env |>.run.run start
      let left : Progress := ⟨pass.file, pass.table, pass.ids, progress.report⟩
      let errors := pass.diagnostics.length
      match result with
      | .ok changes =>
          let stats : PassStats := ⟨pass.applications, changes, errors, 0⟩
          let progress := left.addPass rule .applied stats pass.diagnostics
          (.ok progress, progress)
      | .error .exhausted => (.error .exhausted, left)
      | .error .endless => (.error .endless, left)
      | .error (.problem problem) =>
          if config.keepGoing && problem.severity != .fatal then
            let stats : PassStats := ⟨pass.applications, 0, errors + 1, 0⟩
            let snippet := problem.node.bind progress.file.snippet?
            let restored := { progress with ids := pass.ids }
            let progress := restored.addPass rule (.failed problem.message) stats
              (pass.diagnostics ++ [problem.diagnose rule.name snippet])
            (.ok progress, progress)
          else (.error (.problem problem), left)

def steps (config : Config) (view : PackageView) (progress : Progress) :
    List Rule → Except Fault Report × Progress
  | [] => (.ok progress.report, progress)
  | rule :: rest =>
      match step config view progress rule with
      | (.ok progress, _) => steps config view progress rest
      | (.error fault, left) => (.error fault, left)

structure RunResult where
  result : Except Fault Report
  file : File
  table : SymbolTable

def run (pipeline : Pipeline) (file : File) (table : SymbolTable) : RunResult :=
  let table := table.reserve file.spelledNames
  match NodeSupply.after? (file.maxId.larger table.maxNode) with
  | none => ⟨.error .exhausted, file, table⟩
  | some ids =>
      let start : Progress := ⟨file, table, ids, ⟨[], []⟩⟩
      let (result, left) := steps pipeline.config (.ofFile file) start pipeline.rules
      ⟨result, left.file, left.table⟩

end Pipeline
end Desugar
