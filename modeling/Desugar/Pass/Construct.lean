import Desugar.Pass.Monad
import Desugar.Syntax.Nodes

/-!
# Nodes made by a pass

Every new node gets a fresh identity, in the order in which nodes are made, and
what is known about it is recorded at once.
-/

namespace Desugar
namespace PassM

def newExpr (expr : NodeId → Expr) (ty : Option TypeId) : PassM Expr := do
  let id ← freshId
  match ty with
  | some ty => modifyTable (fun table => table.recordType id ty)
  | none => pure ()
  return expr id

def newStmt (stmt : NodeId → Stmt) : PassM Stmt :=
  return stmt (← freshId)

def newAssign (lhs rhs : List Expr) : PassM Stmt :=
  newStmt (fun id => .assign id lhs .assign rhs)

def newBlank : PassM Expr :=
  newExpr (fun id => .ident id blank) none

def newTrue : PassM Expr := do
  let type ← onTable (fun table => table.basic .bool)
  newExpr (fun id => .lit id (.bool true)) (some type)

def typeOf (x : Expr) : PassM (Option TypeId) :=
  return (← getTable).exprTypes[x.id]?

def defaultType (ty : TypeId) : PassM TypeId :=
  onTable (fun table => table.defaultType ty)

def declaredType (name : Ident) : PassM (Option TypeId) := do
  let table ← getTable
  return ((table.defs[name.id]?).bind table.binding?).bind Binding.ty

def bindingName (binding : BindingId) : PassM String :=
  return (((← getTable).binding? binding).map Binding.name).getD ""

def newUse (binding : BindingId) : PassM Expr := do
  let found := (← getTable).binding? binding
  let name := (found.map Binding.name).getD ""
  let expr ← newExpr (fun id => .ident id name) (found.bind Binding.ty)
  modifyTable (fun table => table.recordUse expr.id binding)
  return expr

def newTemp (scope : ScopeId) (ty : TypeId) : PassM BindingId := do
  let stem := (← read).tempStem
  let name ← onTable (fun table => table.freshName stem)
  onTable (fun table => table.declareSynthetic scope name ty)

def newBinder (binding : BindingId) : PassM Ident := do
  let name ← bindingName binding
  let id ← freshId
  modifyTable (fun table => table.recordDef id binding)
  return ⟨id, name⟩

def newDecl (spec : Spec) : PassM Stmt := do
  let id ← freshId
  newStmt (fun stmtId => .decl stmtId ⟨id, .var, [spec]⟩)

def newVar (name : Ident) (ty : Option TypeExpr) (values : List Expr) : PassM Stmt := do
  let id ← freshId
  newDecl (.value ⟨id, [name], ty, values⟩)

def newVarOf (binding : BindingId) (ty : Option TypeExpr) (values : List Expr) : PassM Stmt := do
  newVar (← newBinder binding) ty values

/-- A type as the file writes it, for a declaration at {node}. -/
def spell (ty : TypeId) (node : NodeId) : PassM TypeExpr := do
  let table ← getTable
  match table.spell (← read).view ty with
  | .ok expr => return expr
  | .error failed => raise (.unspellableType node (table.display failed))

def zeroValue (ty : TypeId) (name : String) (node : NodeId) : PassM Expr := do
  let ty ← defaultType ty
  let table ← getTable
  let literal := fun (value : Literal) => newExpr (fun id => .lit id value) (some ty)
  match table.category ty with
  | .numeric => literal (.int "0")
  | .boolean => literal (.bool false)
  | .text => literal (.string "")
  | .nilable => literal .nil
  | .composite => do
      let spelled ← spell ty node
      newExpr (fun id => .composite id (some spelled) []) (some ty)
  | .unsupported => raise (.unsupportedZeroValue node name (table.display ty))

end PassM

/-!
## Captured names
-/

namespace SymbolTable

/-- Whether an identifier called like one of {names} refers to something visible
from a scope.  One that refers to nothing known counts by its name alone. -/
def captures (table : SymbolTable) (scope : Option ScopeId) (names : List String) (e : Expr) :
    Option Bool :=
  match e.name? with
  | none => some false
  | some name =>
      if names.contains name then
        match scope, ((table.bindingOf e.id).bind table.binding?).map Binding.scope with
        | some scope, some declaredIn => table.isWithin? scope declaredIn
        | _, _ => some true
      else some false

/-- Whether an expression reads a variable that a declaration of {names} in a
scope would capture.  The first such variable ends the search. -/
def mentionsAny (table : SymbolTable) (scope : Option ScopeId) (e : Expr) (names : List String) :
    Option Bool :=
  (e.nodes.filterMap Node.expr?).anyM (table.captures scope names)

end SymbolTable
end Desugar
