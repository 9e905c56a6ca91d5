import Desugar.Declaration.Split

/-!
# Types of declarations

A variable declaration without a written type gets the type the checker resolved
for its names, or else for their values.  A type that the file cannot write
leaves the declaration as it is, and is reported.
-/

namespace Desugar
namespace Annotations

open PassM

/-- The type of a name by its value, which may be a member of a multi-value
initializer. -/
def valueType (table : SymbolTable) (spec : ValueSpec) (position : Nat) : Option TypeId :=
  match spec.names, spec.values with
  | _ :: _ :: _, [value] =>
      (table.exprTypes[value.id]?).bind (fun tuple => (table.results tuple)[position]?)
  | _, values => values[position]?.bind (fun value => table.exprTypes[value.id]?)

def nameType (spec : ValueSpec) (name : Ident) (position : Nat) : PassM TypeId := do
  let found := (← declaredType name) <|> valueType (← getTable) spec position
  let ty ← require found (.missingType name.id "declared name")
  defaultType ty

def annotationOf (spec : ValueSpec) : PassM TypeExpr := do
  let types ← spec.names.zipIdx.mapM fun (name, position) => nameType spec name position
  match types with
  | first :: rest =>
      if rest.all (fun ty => ty = first) then spell first spec.id
      else raise (.tupleDeclaration spec.id)
  | [] => raise (.tupleDeclaration spec.id)

def annotate (spec : ValueSpec) : PassM ValueSpec :=
  if spec.ty.isSome then return spec
  else
    let annotated : PassM ValueSpec := do
      let ty ← annotationOf spec
      countChange
      return ⟨spec.id, spec.names, some ty, spec.values⟩
    orElseKeep annotated spec.snippet (pure spec)

def onVarSpecs (change : ValueSpec → PassM ValueSpec) (d : Decl) : PassM Decl :=
  if d.isVar then do
    let specs ← d.specs.mapM fun
      | .value spec => Spec.value <$> change spec
      | .type spec => return .type spec
    return ⟨d.id, d.kind, specs⟩
  else return d

def transformer : Transformer where
  decl := onVarSpecs annotate

end Annotations
end Desugar
