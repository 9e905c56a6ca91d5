import Desugar.Number.Rounding
import Desugar.Pipeline.Report
import Desugar.Text.Columns

/-!
# Summaries

A report in words: a line for each pass, then the diagnostics, then the number
of all changes.
-/

namespace Desugar

def ruleColumn : Nat :=
  18

namespace PassStats

def attempts (stats : PassStats) : Nat :=
  stats.transformations + stats.errors

/-- The share of nodes that were changed among those that had to be.  Counts,
quotient and percentage are double-precision numbers. -/
def successPercent (stats : PassStats) : Ratio :=
  if stats.attempts = 0 then .ofNat 100
  else
    let done := (Ratio.ofNat stats.transformations).toDouble
    let rate := (done.div (Ratio.ofNat stats.attempts).toDouble).toDouble
    (rate.mul (.ofNat 100)).toDouble

def averageTime (stats : PassStats) : Ratio :=
  if stats.applications = 0 then .ofNat 0
  else
    let time := (Ratio.ofNat stats.timeMs).toDouble
    (time.div (Ratio.ofNat stats.applications).toDouble).toDouble

end PassStats

def PassReport.isCountable (pass : PassReport) : Bool :=
  !pass.isApplied || pass.stats.errors == 0 || pass.stats.attempts < countLimit

def PassReport.summary (pass : PassReport) : String :=
  let stats := pass.stats
  let time := stats.averageTime.fixed 1
  let percent := stats.successPercent.fixed 0
  let status := match pass.outcome with
    | .applied =>
        let kept :=
          if stats.errors = 0 then "" else s!", {stats.errors} kept ({percent}% rewritten)"
        s!"{stats.transformations} rewrites{kept}, {time} ms/iteration"
    | .failed error => s!"failed: {error}"
    | .skipped prerequisite => s!"skipped, `{prerequisite}` failed"
  s!"{padRight ruleColumn pass.rule} {status}\n"

def Diagnostic.summary (diagnostic : Diagnostic) : String :=
  let place := match diagnostic.node with
    | some node => s!" at node {node}"
    | none => ""
  let snippet := match diagnostic.snippet with
    | some source => s!"    {source}\n"
    | none => ""
  s!"{diagnostic.severity.name} [{diagnostic.rule}]{place}: {diagnostic.message}\n{snippet}"

def Report.summary (report : Report) : String :=
  let passes := report.passes.map PassReport.summary
  let diagnostics := report.diagnostics.map Diagnostic.summary
  String.join (passes ++ diagnostics) ++ s!"{report.changes} rewrites in total"

def Report.summary? (report : Report) : Option String :=
  if report.isCountable && report.passes.all PassReport.isCountable then some report.summary
  else none

end Desugar
