import Desugar.Pass.Construct
import Desugar.Pass.Transformer

/-!
# Initializers of control statements

The initializer of an if, switch or type switch moves into a new block that
holds it and the control statement.  The block takes over the scope of the
control statement, so that the names of the initializer stay invisible after
it.  An else-if with an initializer becomes an else with such a block.
-/

namespace Desugar

/-- The initializer of an if, switch or type switch, and the statement without
it. -/
def Stmt.takeInit? : Stmt → Option (Stmt × Stmt)
  | .ifElse id (some init) cond body els => some (init, .ifElse id none cond body els)
  | .switch id (some init) tag clauses => some (init, .switch id none tag clauses)
  | .typeSwitch id (some init) guard clauses => some (init, .typeSwitch id none guard clauses)
  | _ => none

namespace Initializer

open PassM

/-- A block that runs an initializer and then a labelled control statement.  A
control statement without a scope gives the block a new one. -/
def enclose (labels : List Label) (init control : Stmt) : PassM Stmt := do
  let blockId ← freshId
  match ← onTable (fun table => table.moveScope control.id blockId) with
  | some _ => pure ()
  | none => do
      let parent ← scopeAt control.id
      let scope ← onTable (fun table => table.newScope parent)
      modifyTable (fun table => table.attachScope blockId scope)
  newStmt (fun id => .block id ⟨blockId, [init, control.label labels]⟩)

def hoist (s : Stmt) : PassM (Option (List Stmt)) := do
  match s.unlabeled.takeInit? with
  | some (init, control) => return some [← enclose s.labels init control]
  | none => return none

def hoistElse : Stmt → PassM Stmt
  | .ifElse id init cond body (some (.ifElse inner (some start) test first rest)) => do
      let els ← enclose [] start (.ifElse inner none test first rest)
      countChange
      return .ifElse id init cond body (some els)
  | s => return s

def transformer : Transformer where
  stmt := hoistElse
  list _ stmts := Transformer.splice hoist stmts

end Initializer
end Desugar
