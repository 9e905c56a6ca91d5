import Desugar.Syntax.Basic

/-!
# Labels of a statement

Changing a labelled statement takes its labels off, changes the statement, and
puts the labels back: on the whole, or on the first statement of a list that
takes its place.
-/

namespace Desugar

structure Label where
  id : NodeId
  name : String
deriving DecidableEq, Inhabited

/-- The labels of a statement, outermost first. -/
def Stmt.labels : Stmt → List Label
  | .labeled id name s => ⟨id, name⟩ :: s.labels
  | _ => []

/-- Put labels around a statement, the first one outermost. -/
def Stmt.label (s : Stmt) : List Label → Stmt
  | [] => s
  | label :: rest => .labeled label.id label.name (s.label rest)

def Stmts.labelFirst (labels : List Label) : List Stmt → List Stmt
  | [] => []
  | s :: rest => s.label labels :: rest


theorem Stmt.label_labels_unlabeled (s : Stmt) : s.unlabeled.label s.labels = s := by
  cases s with
  | labeled id name inner =>
      have ih := Stmt.label_labels_unlabeled inner
      simp [Stmt.unlabeled, Stmt.labels, Stmt.label, ih]
  | _ => rfl

end Desugar
