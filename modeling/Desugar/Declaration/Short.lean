import Desugar.NormalForm.Shapes
import Desugar.Pass.Construct
import Desugar.Pass.Transformer

/-!
# Short declarations

A short declaration in a statement list becomes a typed declaration, with a zero
value, of every name it newly declares, followed by a plain assignment.  When a
right-hand side reads an outer variable called like a new name, the values are
held in temporaries first.  A declaration that cannot be written out stays as it
is, and is reported.
-/

namespace Desugar
namespace Short

open PassM

/-- An operand on the left of a short declaration: a blank, a name declared by
the statement, or a name declared before it in the same scope. -/
inductive Target where
  | blank (expr : Expr)
  | fresh (expr : Expr) (name : String) (binding : BindingId)
  | existing (expr : Expr)

namespace Target

def expr : Target → Expr
  | .blank e => e
  | .fresh e _ _ => e
  | .existing e => e

end Target

/-- Tell declared names from reused ones.  Either way the binding has to live in
the scope of the statement. -/
def classify (table : SymbolTable) (scope : ScopeId) (e : Expr) : Except Problem Target :=
  let inScope := fun (binding : BindingId) =>
    (table.binding? binding).any (fun found => found.scope = scope)
  let ambiguous : Except Problem Target := .error (.ambiguousRedeclaration e.id e.render)
  match e.name? with
  | none => ambiguous
  | some name =>
      if name = Desugar.blank then .ok (.blank e)
      else
        match (table.defs[e.id]?).filter inScope with
        | some binding => .ok (.fresh e name binding)
        | none => if (table.uses[e.id]?).any inScope then .ok (.existing e) else ambiguous

structure FreshDecl where
  name : Ident
  ty : TypeExpr
  zero : Expr

def bindingType (binding : BindingId) (node : NodeId) : PassM TypeId := do
  let ty := ((← getTable).binding? binding).bind Binding.ty
  require ty (.missingType node "declared name")

/-- What the statement at {node} has to declare.  Nothing that can fail for a
single declaration comes after temporaries are made. -/
def freshDecls (node : NodeId) (targets : List Target) : PassM (List FreshDecl) :=
  targets.filterMapM fun
    | .fresh e name binding => do
        let ty ← bindingType binding e.id
        let spelled ← spell ty node
        let zero ← zeroValue ty name node
        return some ⟨⟨e.id, name⟩, spelled, zero⟩
    | _ => return none

/-!
## Temporaries
-/

def heldType (target : Target) (value : Expr) : PassM TypeId := do
  let known ← match target with
    | .fresh e _ binding => some <$> bindingType binding e.id
    | .blank e => typeOf e
    | .existing e => typeOf e
  let ty ← require (known <|> (← typeOf value)) (.missingType value.id "assigned value")
  defaultType ty

def holdList (owner node : NodeId) (targets : List Target) (values : List Expr) :
    PassM (List Stmt × List Expr) := do
  let types ← (targets.zip values).mapM fun (target, value) => do
    let ty ← heldType target value
    return (ty, ← spell ty node)
  let scope ← scopeAt owner
  let held ← (types.zip values).mapM fun ((ty, spelled), value) => do
    let temp ← newTemp scope ty
    let declared ← newVarOf temp (some spelled) [value]
    return (declared, ← newUse temp)
  return held.unzip

def holdTuple (owner node : NodeId) (targets : List Target) (value : Expr) :
    PassM (List Stmt × List Expr) := do
  let tuple ← require (← typeOf value) (.missingType value.id "multi-value initializer")
  let members := (← getTable).results tuple
  if members.length ≠ targets.length then
    raise (.malformedDeclaration node targets.length members.length)
  let types ← members.mapM fun member => do
    let member ← defaultType member
    let spelled ← spell member node
    let zero ← zeroValue member ((← getTable).display member) node
    return (member, spelled, zero)
  let scope ← scopeAt owner
  let held ← types.mapM fun (member, spelled, zero) => do
    let temp ← newTemp scope member
    return (temp, ← newVarOf temp (some spelled) [zero])
  let receivers ← held.mapM fun (temp, _) => newUse temp
  let received ← newAssign receivers [value]
  let reads ← held.mapM fun (temp, _) => newUse temp
  return (held.map Prod.snd ++ [received], reads)

def hold (owner node : NodeId) (targets : List Target) (values : List Expr) :
    PassM (List Stmt × List Expr) :=
  if targets.length = values.length then holdList owner node targets values
  else match values with
    | [value] => holdTuple owner node targets value
    | values => return ([], values)

/-!
## The statement
-/

/-- Whether names and values match one to one, or one value is for several
names. -/
def isBalanced (lhs rhs : List Expr) : Bool :=
  lhs.length == rhs.length || (rhs.length == 1 && lhs.length > 1)

def eliminate (owner node : NodeId) (lhs rhs : List Expr) : PassM (List Stmt) := do
  if !isBalanced lhs rhs then
    raise (.malformedDeclaration node lhs.length rhs.length)
  let scope ← scopeAt owner
  let targets ← lhs.mapM fun e => do
    match classify (← getTable) scope e with
    | .ok target => return target
    | .error problem => raise problem
  let fresh ← freshDecls node targets
  let names := fresh.map (fun decl => decl.name.name)
  let shadowed ← search fun table =>
    rhs.anyM (fun value => table.mentionsAny (some scope) value names)
  let (before, values) ← if shadowed then hold owner node targets rhs else pure ([], rhs)
  let declared ← fresh.mapM fun decl => newVar decl.name (some decl.ty) [decl.zero]
  let assigned ← targets.mapM fun
    | .fresh _ _ binding => newUse binding
    | .blank e => return e
    | .existing e => return e
  return before ++ declared ++ [.assign node assigned .assign values]

def eliminateStmt (owner : NodeId) (s : Stmt) : PassM (Option (List Stmt)) := do
  match s.unlabeled with
  | .assign node lhs .define rhs =>
      let eliminated : PassM (Option (List Stmt)) := do
        return some (Stmts.labelFirst s.labels (← eliminate owner node lhs rhs))
      orElseKeep eliminated s.render (pure none)
  | _ => return none

def transformer : Transformer where
  list owner stmts := Transformer.splice (eliminateStmt owner) stmts

end Short
end Desugar
