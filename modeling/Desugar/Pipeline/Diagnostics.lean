import Desugar.Json.Record
import Desugar.Problem
import Desugar.Syntax.Decode

/-!
# Diagnostics as JSON values
-/

namespace Desugar

open Json (record? str? tagged?)

def Severity.ofJson? : Json → Option Severity :=
  tagged? (Severity.all.map (fun severity => (severity.name, severity)))

namespace Diagnostic

def toJson (diagnostic : Diagnostic) : Json :=
  .obj [("rule", .str diagnostic.rule), ("node", .ofOption NodeId.toJson diagnostic.node),
    ("severity", .str diagnostic.severity.name), ("message", .str diagnostic.message),
    ("snippet", .ofOption .str diagnostic.snippet)]

def ofJson? (value : Json) : Option Diagnostic := do
  let fields ← record? ["rule", "node", "severity", "message", "snippet"] value
  let rule ← fields.required "rule" str?
  let node ← fields.optional "node" NodeId.ofJson?
  let severity ← fields.required "severity" Severity.ofJson?
  let message ← fields.required "message" str?
  let snippet ← fields.optional "snippet" str?
  return ⟨rule, node, severity, message, snippet⟩

end Diagnostic
end Desugar
