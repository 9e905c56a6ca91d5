import Desugar.Symbols.Table
import Desugar.Syntax.Ids
import Desugar.Syntax.Supply

/-!
# Copies of a statement

A copy has fresh identities throughout, and everything the table records for a
node it also records for the copy of the node.
-/

namespace Desugar

/-- A fresh identity with the facts of a given one; none when there is no fresh
identity left. -/
def NodeId.refresh (id : NodeId) : StateT (NodeSupply × SymbolTable) Option NodeId := do
  let (ids, table) ← get
  let (fresh, ids) ← ids.take?
  set (ids, table.copyFacts id fresh)
  return fresh

def Stmt.refresh (s : Stmt) : StateT (NodeSupply × SymbolTable) Option Stmt :=
  s.mapIds NodeId.refresh

end Desugar
