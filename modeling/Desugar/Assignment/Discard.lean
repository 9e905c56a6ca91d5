import Desugar.Pass.Construct
import Desugar.Pass.Transformer

/-!
# Discarded values

An expression statement that produces values becomes an assignment of them to
blanks.
-/

namespace Desugar
namespace Discard

open PassM

def arity (x : Expr) : PassM Nat := do
  let ty ← require (← typeOf x) (.missingType x.id "expression statement")
  match (← getTable).ty ty with
  | .tuple members => return members.length
  | _ => return 1

def expand (s : Stmt) : PassM Stmt := do
  match s.unlabeled with
  | .expr id x => do
      let values ← arity x
      if values = 0 then return s
      else
        let blanks ← (List.range values).mapM (fun _ => newBlank)
        countChange
        return (Stmt.assign id blanks .assign [x]).label s.labels
  | _ => return s

def transformer : Transformer where
  list _ stmts := stmts.mapM expand

end Discard
end Desugar
