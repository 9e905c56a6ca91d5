import Desugar.Build.Exprs

/-!
# Building statements and declarations
-/

namespace Desugar
namespace Build

def stmt (make : NodeId → Stmt) : Build Stmt :=
  return make (← freshId)

def binder (name : String) (binding : Build BindingId) : Build Ident := do
  let id ← freshId
  let binding ← binding
  modifyTable (fun table => table.recordDef id binding)
  return ⟨id, name⟩

/-!
## Functions
-/

def funcType (params : List (String × TypeId)) (results : List TypeId) : Build FuncType := do
  let params ← params.mapM fun (name, ty) => do
    let ident ← binder name (declareVar name ty)
    return Field.mk [ident] (← spell ty)
  let results ← results.mapM fun ty => return Field.mk [] (← spell ty)
  return ⟨params, results, false⟩

def funcLit (params : List (String × TypeId)) (results : List TypeId) (body : Build (List Stmt)) :
    Build Expr := do
  let ty ← signature (params.map Prod.snd) results
  let id ← freshId
  modifyTable (fun table => table.recordType id ty)
  inScope id do
    let sig ← funcType params results
    let stmts ← body
    return .funcLit id sig ⟨← freshId, stmts⟩

def func (name : String) (params : List (String × TypeId)) (results : List TypeId)
    (body : Build (List Stmt)) : Build TopDecl := do
  let ty ← signature (params.map Prod.snd) results
  let ident ← binder name do
    match (← getTable).lookupLocal (← get).fileScope name with
    | some declared => return declared
    | none => declareFunc name ty
  let id ← freshId
  let bodyId ← freshId
  inScope bodyId do
    let sig ← funcType params results
    let stmts ← body
    return .func ⟨id, ident, none, sig, some ⟨bodyId, stmts⟩⟩

/-!
## Declarations
-/

def valueTypes (values : List Expr) : Build (List (Option TypeId)) := do
  let table ← getTable
  let types := values.map (fun value => table.exprTypes[value.id]?)
  match types with
  | [some single] =>
      match table.ty single with
      | .tuple members => return members.map some
      | _ => return [some (← onTable (fun table => table.defaultType single))]
  | types => types.mapM fun
      | some ty => some <$> onTable (fun table => table.defaultType ty)
      | none => return none

/-- A spec that declares names in the current scope, with the written type or
else the types of the values. -/
def valueSpec (names : List String) (ty : Option TypeId) (values : List Expr) :
    Build ValueSpec := do
  let types ← valueTypes values
  let scope ← scope
  let idents ← names.zipIdx.mapM fun (name, position) =>
    let declared := ty <|> types[position]?.join
    binder name (declareIn scope name declared .var)
  let id ← freshId
  let spelled ← ty.mapM spell
  return ⟨id, idents, spelled, values⟩

def varDecl (specs : List ValueSpec) : Build Decl :=
  return ⟨← freshId, .var, specs.map .value⟩

/-- A variable declaration as a statement. -/
def var (names : List String) (ty : Option TypeId) (values : List Expr) : Build Stmt := do
  let decl ← varDecl [← valueSpec names ty values]
  stmt (fun id => .decl id decl)

def varGroup (specs : List (List String × Option TypeId × List Expr)) : Build Stmt := do
  let specs ← specs.mapM fun (names, ty, values) => valueSpec names ty values
  let decl ← varDecl specs
  stmt (fun id => .decl id decl)

def topVar (names : List String) (ty : Option TypeId) (values : List Expr) : Build Decl := do
  varDecl [← valueSpec names ty values]

def topConst (name : String) (value : Expr) : Build Decl := do
  let ty ← typeOf value
  let ident ← binder name do declareIn (← scope) name ty .const
  let id ← freshId
  let specId ← freshId
  return ⟨id, .const, [.value ⟨specId, [ident], none, [value]⟩]⟩

/-!
## Simple statements
-/

def assign (lhs rhs : List Expr) : Build Stmt :=
  stmt (fun id => .assign id lhs .assign rhs)

/-- A target of a definition: a name of the current scope is reused, any other
becomes a new variable. -/
def defineTarget (scope : ScopeId) (name : String) (ty : Option TypeId) : Build Expr := do
  if name == blank then blankTarget
  else
    let table ← getTable
    match table.lookupLocal scope name with
    | some existing => do
        let expr ← typed (fun id => .ident id name) ((table.binding? existing).bind Binding.ty)
        modifyTable (fun table => table.recordUse expr.id existing)
        return expr
    | none => do
        let binding ← declareIn scope name ty .var
        let expr ← typed (fun id => .ident id name) ty
        modifyTable (fun table => table.recordDef expr.id binding)
        return expr

def shortDecl (names : List String) (rhs : List Expr) : Build Stmt := do
  let types ← valueTypes rhs
  let scope ← scope
  let lhs ← names.zipIdx.mapM fun (name, position) =>
    defineTarget scope name types[position]?.join
  stmt (fun id => .assign id lhs .define rhs)

/-!
## Statements with a scope
-/

def scopedBlock (body : Build (List Stmt)) : Build Block := do
  let id ← freshId
  inScope id do return ⟨id, ← body⟩

def block (body : Build (List Stmt)) : Build Stmt := do
  let body ← scopedBlock body
  stmt (fun id => .block id body)

def ifElse (init : Build (Option Stmt)) (cond : Build Expr) (body : Build (List Stmt))
    (els : Build (Option Stmt)) : Build Stmt := do
  let id ← freshId
  inScope id do
    let init ← init
    let cond ← cond
    let body ← scopedBlock body
    let els ← els
    return .ifElse id init cond body els

def forLoop (init : Build (Option Stmt)) (cond : Build (Option Expr)) (post : Build (Option Stmt))
    (body : Build (List Stmt)) : Build Stmt := do
  let id ← freshId
  inScope id do
    let init ← init
    let cond ← cond
    let post ← post
    let body ← scopedBlock body
    return .forLoop id init cond post body

def iterationTypes (x : Expr) : Build (Option TypeId × Option TypeId) := do
  match ← formOf x with
  | some (.slice elem) => return (some (← basic .int), some elem)
  | some (.array _ elem) => return (some (← basic .int), some elem)
  | some (.map key value) => return (some key, some value)
  | some (.chan _ elem) => return (some elem, none)
  | some (.basic _) => do
      let position ← basic .int
      let rune ← basic .int32
      return (some position, some rune)
  | _ => return (none, none)

def iterationVar (name : Option String) (ty : Option TypeId) : Build (Option Expr) := do
  match name with
  | none => return none
  | some name =>
      if name == blank then some <$> blankTarget
      else do
        let binding ← declareIn (← scope) name ty .var
        let expr ← typed (fun id => .ident id name) ty
        modifyTable (fun table => table.recordDef expr.id binding)
        return some expr

def range (key value : Option String) (x : Expr) (body : Build (List Stmt)) : Build Stmt := do
  let (keyType, valueType) ← iterationTypes x
  let id ← freshId
  inScope id do
    let key ← iterationVar key keyType
    let value ← iterationVar value valueType
    let body ← scopedBlock body
    return .range id key value (key.isSome || value.isSome) x body

def rangeOver (key value : Option Expr) (x : Expr) (body : Build (List Stmt)) : Build Stmt := do
  let _ ← iterationTypes x
  let id ← freshId
  inScope id do return .range id key value false x (← scopedBlock body)

def clause {α : Type} (part : NodeId → Build α) : Build α := do
  let id ← freshId
  inScope id (part id)

def caseClause (list : Option (List Expr)) (body : Build (List Stmt)) : Build CaseClause :=
  clause fun id => return ⟨id, list, ← body⟩

def typeClause (types : Option (List TypeExpr)) (body : Build (List Stmt)) : Build TypeClause :=
  clause fun id => return ⟨id, types, ← body⟩

def commClause (comm : Build (Option Stmt)) (body : Build (List Stmt)) : Build CommClause :=
  clause fun id => do
    let comm ← comm
    return ⟨id, comm, ← body⟩

def switch (init : Build (Option Stmt)) (tag : Build (Option Expr))
    (clauses : Build (List CaseClause)) : Build Stmt := do
  let id ← freshId
  inScope id do
    let init ← init
    let tag ← tag
    return .switch id init tag (← clauses)

def typeSwitch (init : Build (Option Stmt)) (guard : Build Stmt)
    (clauses : Build (List TypeClause)) : Build Stmt := do
  let id ← freshId
  inScope id do
    let init ← init
    let guard ← guard
    return .typeSwitch id init guard (← clauses)

end Build
end Desugar
