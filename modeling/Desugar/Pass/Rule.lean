import Desugar.NormalForm.Check
import Desugar.Pass.Monad

/-!
# Rules

A rule changes a file in one application and tells how many changes it made.
Its prerequisites are rules that have to come before it when they run at all.
-/

namespace Desugar

namespace File

/-- The problem of a file that should have some properties.  Nodes that were
reported as left alone are exempt. -/
def brokenProperty (file : File) (table : SymbolTable) (diagnostics : List Diagnostic)
    (rule : String) (which : List Property) : Option Problem :=
  let exempt := diagnostics.filterMap Diagnostic.node
  match (file.check table which).filter (fun violation => !exempt.contains violation.node) with
  | [] => none
  | first :: rest =>
      some (.invariantViolated rule s!"{first.describe} ({rest.length + 1} in total)")

end File

structure Rule where
  name : String
  description : String
  requires : List String := []
  /-- Whether the rule is applied until it changes nothing. -/
  fixpoint : Bool := false
  /-- The properties of a file to which the rule has been applied. -/
  establishes : List Property := []
  apply : PassM Nat
  /-- The problem of a file to which the rule has been applied, if there is one. -/
  validate : File → SymbolTable → List Diagnostic → Option Problem :=
    fun file table diagnostics => file.brokenProperty table diagnostics name establishes

end Desugar
