import Desugar.Pass.Construct
import Desugar.Pass.Transformer

/-!
# Explicit dereferences

Indexing or slicing a pointer to an array, and selecting a field through
pointers, say which pointers they follow.  A field promoted through embedded
fields is selected along its whole path.
-/

namespace Desugar
namespace Dereference

open PassM

def operandType (x : Expr) : PassM TypeId := do
  require (← typeOf x) (.missingType x.id "operand")

def isPointerToArray (x : Expr) : PassM Bool := do
  if x.isType then return false
  else
    let ty ← operandType x
    return (← getTable).isPointerToArray ty

def isImplicit : Expr → PassM Bool
  | .index _ x _ => isPointerToArray x
  | .slice _ x _ _ _ => isPointerToArray x
  | .selector id x name => do
      match (← getTable).selections[id]? with
      | some .field => do
          let ty ← operandType x
          return (← getTable).implicitDeref ty name
      | _ => return false
  | _ => return false

/-- The operand behind a pointer, or the operand itself when it is none. -/
def deref (operand : Expr) : PassM Expr := do
  let table ← getTable
  match (← typeOf operand).bind table.pointerElem with
  | some elem => newExpr (fun id => .star id operand) (some elem)
  | none => return operand

def follow (operand : Expr) : List StructField → PassM Expr
  | [] => return operand
  | field :: rest => do
      let step ← newExpr (fun id => .selector id operand field.name) (some field.ty)
      modifyTable (fun table => table.recordSelection step.id .field)
      follow (← deref step) rest

def promotion (table : SymbolTable) (operand : Option TypeId) (name : String) :
    List StructField :=
  (operand.bind (fun ty => table.fieldPath ((table.pointerElem ty).getD ty) name)).getD []

def expose : Expr → PassM Expr
  | .index id x i => return .index id (← deref x) i
  | .slice id x low high max => return .slice id (← deref x) low high max
  | .selector id x name => do
      let path := promotion (← getTable) (← typeOf x) name
      return .selector id (← follow (← deref x) path) name
  | e => return e

def transformer : Transformer where
  expr e := do
    if ← isImplicit e then
      countChange
      expose e
    else return e

end Dereference
end Desugar
