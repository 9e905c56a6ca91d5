import Desugar.Pass.Construct
import Desugar.Pass.Transformer

/-!
# One name per declaration

A variable declaration of several names, or of several specs, becomes one
declaration per name.  Inside a function a multi-value initializer is assigned
after its names are declared.  When an initializer mentions a name that is
declared before it, which until then refers to an outer variable, the values go
through temporaries.

Package-level declarations are split without temporaries, because package
initialization does not follow the textual order; a multi-value initializer
stays there and is reported.
-/

namespace Desugar

namespace ValueSpec

def snippet (spec : ValueSpec) : String :=
  "var " ++ ", ".intercalate (spec.names.map Ident.name)

end ValueSpec

namespace Split

open PassM

def needsSplit (d : Decl) : Bool :=
  d.isVar && (d.specs.length > 1 || d.valueSpecs.any (fun spec => spec.names.length > 1))

def visibleNames (names : List Ident) : List String :=
  (names.filter (fun name => !name.isBlank)).map Ident.name

/-!
## Package level
-/

/-- Identities for the pieces of a node: the first keeps the identity of the
whole. -/
def pieceIds (whole : NodeId) : Nat → PassM (List NodeId)
  | 0 => return []
  | n + 1 => do
      let rest ← (List.range n).mapM (fun _ => freshId)
      return whole :: rest

/-- The specs of the single names of a spec, each with its value if there is
one. -/
def pieces : List NodeId → List Ident → Option TypeExpr → List Expr → List Spec
  | id :: ids, name :: names, ty, values =>
      .value ⟨id, [name], ty, values.take 1⟩ :: pieces ids names ty values.tail
  | _, _, _, _ => []

def splitPackageSpec (spec : ValueSpec) : PassM (List Spec) := do
  let names := spec.names.length
  let values := spec.values.length
  if names ≤ 1 then return [.value spec]
  else if values = 1 then do
    tolerate (.tupleDeclaration spec.id) (some spec.snippet)
    return [.value spec]
  else if values ≠ 0 ∧ values ≠ names then
    raise (.malformedDeclaration spec.id names values)
  else do
    let ids ← pieceIds spec.id names
    return pieces ids spec.names spec.ty spec.values

/-- One declaration per piece; the first takes a given identity if there is
one. -/
def declarePieces (first : Option NodeId) : List Spec → PassM (List TopDecl)
  | [] => return []
  | piece :: rest => do
      let id ← match first with
        | some id => pure id
        | none => freshId
      let rest ← declarePieces none rest
      return .decl ⟨id, .var, [piece]⟩ :: rest

def splitPackageSpecs (first : Option NodeId) : List Spec → PassM (List TopDecl)
  | [] => return []
  | spec :: rest => do
      let found ← match spec with
        | .value value => splitPackageSpec value
        | .type _ => pure [spec]
      let decls ← declarePieces first found
      let rest ← splitPackageSpecs none rest
      return decls ++ rest

def splitPackageDecl : TopDecl → PassM (List TopDecl)
  | .decl d =>
      if needsSplit d then do
        countChange
        splitPackageSpecs (some d.id) d.specs
      else return [.decl d]
  | .func fn => return [.func fn]

/-!
## Inside a function
-/

def target : Option BindingId → PassM Expr
  | some binding => newUse binding
  | none => newBlank

def temporaryType (name : Ident) (value : Expr) : PassM TypeId := do
  match ← declaredType name with
  | some ty => return ty
  | none => do
      let ty ← require (← typeOf value) (.missingType value.id "initializer")
      defaultType ty

/-- Whether a later initializer reads a variable called like an earlier name. -/
def isShadowed (table : SymbolTable) (scope : Option ScopeId) (names : List Ident)
    (values : List Expr) : Option Bool :=
  values.zipIdx.anyM fun (value, position) =>
    table.mentionsAny scope value (visibleNames (names.take position))

def splitList (owner : NodeId) (spec : ValueSpec) : PassM (List Stmt) := do
  let pairs := spec.names.zip spec.values
  let scope ← scope?
  if ← search (fun table => isShadowed table scope spec.names spec.values) then do
    let held ← pairs.mapM fun (name, value) => do
      let ty ← temporaryType name value
      let scope ← scopeAt owner
      let temp ← newTemp scope ty
      return (temp, ← newVarOf temp spec.ty [value])
    let declared ← (spec.names.zip held).mapM fun (name, temp, _) => do
      let value ← newUse temp
      newVar name spec.ty [value]
    return held.map Prod.snd ++ declared
  else
    pairs.mapM fun (name, value) => newVar name spec.ty [value]

def bindingsOf (names : List Ident) : PassM (List (Option BindingId)) :=
  names.mapM fun name =>
    if name.isBlank then return none
    else do
      let binding ← require (← getTable).defs[name.id]? (.missingType name.id "declared name")
      return some binding

def holdMembers (owner : NodeId) (spec : ValueSpec) (members : List TypeId)
    (bindings : List (Option BindingId)) : PassM (List (Option (BindingId × Stmt))) :=
  bindings.zipIdx.mapM fun
    | (none, _) => return none
    | (some _, position) => do
        let member ← require members[position]?
          (.malformedDeclaration spec.id spec.names.length members.length)
        let spelled ← spell member spec.id
        let scope ← scopeAt owner
        let temp ← newTemp scope member
        return some (temp, ← newVarOf temp (some spelled) [])

def splitTuple (owner : NodeId) (spec : ValueSpec) (value : Expr) : PassM (List Stmt) := do
  let scope ← scope?
  let shadowed ← search (fun table => table.mentionsAny scope value (visibleNames spec.names))
  let bindings ← bindingsOf spec.names
  if shadowed then do
    let tuple ← require (← typeOf value) (.missingType value.id "multi-value initializer")
    let members := (← getTable).results tuple
    let held ← holdMembers owner spec members bindings
    let lhs ← held.mapM fun temp => target (temp.map Prod.fst)
    let assigned ← newAssign lhs [value]
    let declared ← (spec.names.zip held).filterMapM fun
      | (_, none) => return none
      | (name, some (temp, _)) => do
          let value ← newUse temp
          some <$> newVar name spec.ty [value]
    return held.filterMap (fun temp => temp.map Prod.snd) ++ assigned :: declared
  else do
    let declared ← (spec.names.filter (fun name => !name.isBlank)).mapM fun name =>
      newVar name spec.ty []
    let lhs ← bindings.mapM target
    let assigned ← newAssign lhs [value]
    return declared ++ [assigned]

def splitValues (owner : NodeId) (spec : ValueSpec) : PassM (List Stmt) :=
  if spec.values.length = spec.names.length then splitList owner spec
  else match spec.values with
    | [] => spec.names.mapM fun name => newVar name spec.ty []
    | [value] => splitTuple owner spec value
    | values => raise (.malformedDeclaration spec.id spec.names.length values.length)

/-- The statements for one spec.  A spec whose pieces cannot be typed is kept
whole and reported. -/
def splitSpec (owner : NodeId) : Spec → PassM (List Stmt)
  | .value spec =>
      let whole : PassM (List Stmt) := do return [← newDecl (.value spec)]
      if spec.names.length > 1 then orElseKeep (splitValues owner spec) spec.snippet whole
      else whole
  | .type spec => do return [← newDecl (.type spec)]

def splitStmt (owner : NodeId) (s : Stmt) : PassM (Option (List Stmt)) := do
  match s.unlabeled with
  | .decl _ d =>
      if needsSplit d then
        let stmts ← d.specs.mapM (splitSpec owner)
        return some (Stmts.labelFirst s.labels stmts.flatten)
      else return none
  | _ => return none

def transformer : Transformer where
  list owner stmts := Transformer.splice (splitStmt owner) stmts

/-- Split the declarations of the package, and then those inside functions. -/
def run : PassM Nat := do
  startWalk
  let file ← getFile
  let decls ← file.decls.mapM splitPackageDecl
  let file ← { file with decls := decls.flatten }.transform transformer
  setFile file
  return (← get).changes

end Split
end Desugar
