import Desugar.Problem

/-!
# Reports of a run
-/

namespace Desugar

/-- How the pass of a rule ended.  A pass is skipped when a prerequisite failed
or was skipped itself. -/
inductive Outcome where
  | applied
  | failed (error : String)
  | skipped (prerequisite : String)
deriving DecidableEq, Inhabited

def countLimit : Nat :=
  UInt64.size

/-- The counts of a pass: applications of the rule, changes made, problems met,
and milliseconds taken. -/
structure PassStats where
  applications : Nat := 0
  transformations : Nat := 0
  errors : Nat := 0
  timeMs : Nat := 0
deriving DecidableEq, Inhabited

structure PassReport where
  rule : String
  outcome : Outcome
  stats : PassStats
deriving DecidableEq, Inhabited

structure Report where
  passes : List PassReport
  diagnostics : List Diagnostic
deriving DecidableEq, Inhabited

namespace PassReport

def isApplied (pass : PassReport) : Bool :=
  pass.outcome == .applied

def isFailed (pass : PassReport) : Bool :=
  match pass.outcome with
  | .failed _ => true
  | _ => false

end PassReport

namespace Report

def changes (report : Report) : Nat :=
  report.passes.foldr (fun pass total => pass.stats.transformations + total) 0

def isCountable (report : Report) : Bool :=
  report.changes < countLimit

def changed (report : Report) : Bool :=
  report.changes > 0

def failed (report : Report) : List PassReport :=
  report.passes.filter PassReport.isFailed

def pass? (report : Report) (rule : String) : Option PassReport :=
  report.passes.find? (fun pass => pass.rule == rule)

def success (report : Report) : Bool :=
  report.passes.all PassReport.isApplied

end Report
end Desugar
