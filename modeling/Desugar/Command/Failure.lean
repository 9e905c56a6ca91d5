import Desugar.Problem

/-!
# Failures of commands

A command that searches without an end never comes back.  It is listed with the failures
so that every run of a command has an outcome here.
-/

namespace Desugar
namespace Command

inductive Failure where
  | unreadableConfig (path reason : String)
  | malformedConfig
  | rejectedConfig (problem : Problem)
  | unreadableDocument (path reason : String)
  | malformedDocument (path : String)
  | notNormalized (path : String) (problem : Problem)
  | exhausted
  | endless
  | unwritable (path reason : String)
  | incomplete (passes : Nat)
  | violated (count : Nat)
deriving DecidableEq, Inhabited

namespace Failure

def messages : Failure → String × List String
  | .unreadableConfig path reason => ((Problem.config s!"{path}: {reason}").message, [])
  | .malformedConfig => ((Problem.config "malformed configuration").message, [])
  | .rejectedConfig problem => (problem.message, [])
  | .unreadableDocument path reason => (s!"failed to read {path}", [reason])
  | .malformedDocument path => (s!"in {path}", ["malformed document"])
  | .notNormalized path problem => (s!"normalizing {path}", [problem.message])
  | .exhausted => ("identities or counts are exhausted", [])
  | .endless => ("a search has no end", [])
  | .unwritable path reason => (s!"failed to write {path}", [reason])
  | .incomplete passes => (s!"{passes} pass(es) did not complete", [])
  | .violated count => (s!"{count} invariant violation(s)", [])

def chain (failure : Failure) : String :=
  let (message, causes) := failure.messages
  ": ".intercalate (message :: causes)

def indent (text : String) : String :=
  "\n    ".intercalate (text.splitOn "\n")

/-- The text that is printed: the message, and below it the cause. -/
def report (failure : Failure) : String :=
  let (message, causes) := failure.messages
  let below := causes.map (fun cause => s!"\n    {indent cause}")
  let causes := if below.isEmpty then "" else "\n\nCaused by:" ++ String.join below
  s!"Error: {message}{causes}\n"

def status : Failure → UInt8
  | .exhausted => 101
  | _ => 1

end Failure
end Command
end Desugar
