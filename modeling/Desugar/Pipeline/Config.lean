import Desugar.Json.Reader
import Desugar.Json.Record

/-!
# Configuration of a run
-/

namespace Desugar

structure Config where
  /-- Rules that do not run. -/
  disabled : List String := []
  /-- The rules that run, in order; all rules when there is none. -/
  order : Option (List String) := none
  /-- Whether the properties a rule establishes are checked after it. -/
  verify : Bool := false
  /-- Whether a run goes on, with the file restored, after a rule fails. -/
  keepGoing : Bool := false
  /-- The stem of the names of temporaries. -/
  tempStem : String := "tmp"
  /-- How often a rule that runs to a fixpoint is applied at most. -/
  maxIterations : UInt64 := 10
deriving DecidableEq, Inhabited

namespace Config

open Json (record? bool? str? list? nullable? word64?)

def toJson (config : Config) : Json :=
  .obj [("disabled", .arr (config.disabled.map .str)),
    ("order", .ofOption (fun order => .arr (order.map .str)) config.order),
    ("verify", .bool config.verify), ("continue_on_pass_failure", .bool config.keepGoing),
    ("temp_prefix", .str config.tempStem), ("max_iterations", .ofNat config.maxIterations.toNat)]

def ofJson? (value : Json) : Option Config := do
  let default : Config := {}
  let fields ← record? ["disabled", "order", "verify", "continue_on_pass_failure", "temp_prefix",
    "max_iterations"] value
  let disabled ← fields.defaulting "disabled" default.disabled (list? str?)
  let order ← fields.defaulting "order" default.order (nullable? (list? str?))
  let verify ← fields.defaulting "verify" default.verify bool?
  let keepGoing ← fields.defaulting "continue_on_pass_failure" default.keepGoing bool?
  let tempStem ← fields.defaulting "temp_prefix" default.tempStem str?
  let maxIterations ← fields.defaulting "max_iterations" default.maxIterations word64?
  return ⟨disabled, order, verify, keepGoing, tempStem, maxIterations⟩

def parse? (text : String) : Option Config :=
  (Json.parseShallow? text).bind ofJson?

end Config
end Desugar
