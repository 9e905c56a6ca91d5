import Desugar.Catalog
import Desugar.Pipeline.Config

/-!
# The order of a run

A configuration selects and orders rules.  An order is accepted when every rule
runs after those of its prerequisites that run at all.
-/

namespace Desugar

/-- Rules in the order in which they run. -/
structure Pipeline where
  rules : List Rule
  config : Config

namespace Pipeline

def unknownRule (name : String) : Problem :=
  .config s!"unknown rule `{name}`"

def firstUnknown? (available : List Rule) (names : List String) : Option String :=
  names.find? (fun name => !available.any (fun rule => rule.name == name))

def select (available : List Rule) (seen : List String) : List String → Except Problem (List Rule)
  | [] => .ok []
  | name :: rest =>
      match available.find? (fun rule => rule.name == name) with
      | none => .error (unknownRule name)
      | some rule =>
          if seen.contains name then .error (.config s!"rule `{name}` listed twice")
          else do
            let rules ← select available (name :: seen) rest
            return rule :: rules

def prerequisiteProblem? (available rules : List Rule) (rule : Rule) (position : Nat)
    (required : String) : Option Problem :=
  if available.any (fun known => known.name == required) then
    match rules.findIdx? (fun other => other.name == required) with
    | some index =>
        if index > position then some (.config s!"rule `{rule.name}` must run after `{required}`")
        else none
    | none => none
  else some (.config s!"rule `{rule.name}` requires unknown rule `{required}`")

def orderProblem? (available rules : List Rule) : Option Problem :=
  rules.zipIdx.findSome? fun (rule, position) =>
    rule.requires.findSome? (prerequisiteProblem? available rules rule position)

def ofRules (available : List Rule) (config : Config) : Except Problem Pipeline := do
  match firstUnknown? available (config.disabled ++ config.order.getD []) with
  | some name => throw (unknownRule name)
  | none => pure ()
  let ordered ← match config.order with
    | none => pure available
    | some order => select available [] order
  let rules := ordered.filter (fun rule => !config.disabled.contains rule.name)
  match orderProblem? available rules with
  | some problem => throw problem
  | none => return ⟨rules, config⟩

def ofConfig (config : Config) : Except Problem Pipeline :=
  ofRules Rule.catalog config

def default : Pipeline :=
  ⟨Rule.catalog, {}⟩

end Pipeline
end Desugar
