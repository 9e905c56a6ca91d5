import Desugar.Declaration.Annotation

/-!
# Zero values

A variable declaration without initializers gets a zero value for each of its
names.  A name whose type has no zero that can be written leaves the declaration
as it is, and is reported.
-/

namespace Desugar
namespace Zero

open PassM

/-- One zero for each name.  A blank, which binds nothing, borrows the type of a
name beside it. -/
def zeros (spec : ValueSpec) : PassM (List Expr) := do
  let types ← spec.names.mapM declaredType
  let sibling := types.findSome? id
  (spec.names.zip types).mapM fun (name, ty) => do
    let ty ← require (ty <|> sibling) (.missingType name.id "declared name")
    zeroValue ty name.name spec.id

def giveZeros (spec : ValueSpec) : PassM ValueSpec :=
  if spec.values.isEmpty then
    let initialized : PassM ValueSpec := do
      let values ← zeros spec
      countChange
      return ⟨spec.id, spec.names, spec.ty, values⟩
    orElseKeep initialized spec.snippet (pure spec)
  else return spec

def transformer : Transformer where
  decl := Annotations.onVarSpecs giveZeros

end Zero
end Desugar
