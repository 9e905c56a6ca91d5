import Desugar.Syntax.Basic

/-!
# Problems

Everything a pass can report.  How far a problem reaches is its severity: the
node alone is left as it was, the rule is abandoned, or the whole run stops.
-/

namespace Desugar

inductive Problem where
  | missingType (node : NodeId) (what : String)
  | missingScope (node : NodeId) (what : String)
  | unsupportedZeroValue (node : NodeId) (name : String) (ty : String)
  | unspellableType (node : NodeId) (ty : String)
  | ambiguousRedeclaration (node : NodeId) (name : String)
  | malformedDeclaration (node : NodeId) (names : Nat) (values : Nat)
  | tupleDeclaration (node : NodeId)
  | noFixpoint (rule : String) (iterations : Nat)
  | invariantViolated (rule : String) (detail : String)
  | config (text : String)
deriving DecidableEq, Inhabited

inductive Severity where
  | declaration
  | pass
  | fatal
deriving DecidableEq, Inhabited

namespace Severity

def name : Severity → String
  | .declaration => "Declaration"
  | .pass => "Pass"
  | .fatal => "Fatal"

def all : List Severity :=
  [.declaration, .pass, .fatal]

end Severity

namespace Problem

def severity : Problem → Severity
  | .unsupportedZeroValue _ _ _ | .unspellableType _ _ | .tupleDeclaration _ => .declaration
  | .missingType _ _ | .missingScope _ _ | .malformedDeclaration _ _ _ | .noFixpoint _ _
  | .invariantViolated _ _ => .pass
  | .ambiguousRedeclaration _ _ | .config _ => .fatal

def node : Problem → Option NodeId
  | .missingType node _ | .missingScope node _ | .unsupportedZeroValue node _ _
  | .unspellableType node _ | .ambiguousRedeclaration node _ | .malformedDeclaration node _ _
  | .tupleDeclaration node => some node
  | .noFixpoint _ _ | .invariantViolated _ _ | .config _ => none

def kind : Problem → String
  | .missingType _ _ => "MissingType"
  | .missingScope _ _ => "MissingScope"
  | .unsupportedZeroValue _ _ _ => "UnsupportedZeroValue"
  | .unspellableType _ _ => "UnspellableType"
  | .ambiguousRedeclaration _ _ => "AmbiguousRedeclaration"
  | .malformedDeclaration _ _ _ => "MalformedDeclaration"
  | .tupleDeclaration _ => "TupleDeclaration"
  | .noFixpoint _ _ => "NoFixpoint"
  | .invariantViolated _ _ => "InvariantViolated"
  | .config _ => "Config"

def message : Problem → String
  | .missingType node what => s!"node {node}: no type information for {what}"
  | .missingScope node what => s!"node {node}: no scope recorded for {what}"
  | .unsupportedZeroValue node name ty =>
      s!"node {node}: `{name}` has type {ty}, which has no zero-value literal"
  | .unspellableType node ty => s!"node {node}: type {ty} cannot be spelled in this file"
  | .ambiguousRedeclaration node name =>
      s!"node {node}: cannot tell whether `{name}` is already declared in the current scope"
  | .malformedDeclaration node names values =>
      s!"node {node}: {names} names bound to {values} values"
  | .tupleDeclaration node =>
      s!"node {node}: multi-value declaration outside a function body is left unsplit"
  | .noFixpoint rule iterations =>
      s!"rule `{rule}` still rewriting after {iterations} iterations"
  | .invariantViolated rule detail => s!"rule `{rule}` left an invariant broken: {detail}"
  | .config text => s!"configuration error: {text}"

end Problem

/-- A problem as a report keeps it: the rule that met it, the node it is about,
and the source of that node. -/
structure Diagnostic where
  rule : String
  node : Option NodeId
  severity : Severity
  message : String
  snippet : Option String
deriving DecidableEq, Inhabited

def Problem.diagnose (problem : Problem) (rule : String) (snippet : Option String) : Diagnostic :=
  ⟨rule, problem.node, problem.severity, problem.message, snippet⟩

end Desugar
