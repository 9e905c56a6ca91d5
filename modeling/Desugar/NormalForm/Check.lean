import Desugar.NormalForm.Shapes

/-!
# Normal form

The properties of a normalized tree, and the nodes of a tree that break them.
-/

namespace Desugar

/-- A property every normalized tree has. -/
inductive Property where
  /-- No index, slice or field selection dereferences a pointer implicitly. -/
  | explicitDeref
  /-- Every variable spec binds one name. -/
  | singleNameDecl
  /-- Every variable spec has a written type. -/
  | typedDecl
  /-- Every variable spec has an initializer. -/
  | initializedDecl
  /-- No statement list holds a short declaration. -/
  | noShortDecl
  /-- An assignment to several targets takes one multi-value source. -/
  | singleTargetAssign
  /-- No if or switch carries an initializer. -/
  | noControlInit
  /-- Loops have at most a condition. -/
  | noThreeClauseLoop
  /-- Expression switches have a tag. -/
  | taggedSwitch
  /-- Expression statements produce no value. -/
  | explicitDiscard
deriving DecidableEq, Inhabited

namespace Property

def name : Property → String
  | .explicitDeref => "ExplicitDeref"
  | .singleNameDecl => "SingleNameDecl"
  | .typedDecl => "TypedDecl"
  | .initializedDecl => "InitializedDecl"
  | .noShortDecl => "NoShortDecl"
  | .singleTargetAssign => "SingleTargetAssign"
  | .noControlInit => "NoControlInit"
  | .noThreeClauseLoop => "NoThreeClauseLoop"
  | .taggedSwitch => "TaggedSwitch"
  | .explicitDiscard => "ExplicitDiscard"

def all : List Property :=
  [.explicitDeref, .singleNameDecl, .typedDecl, .initializedDecl, .noShortDecl,
    .singleTargetAssign, .noControlInit, .noThreeClauseLoop, .taggedSwitch, .explicitDiscard]

def ofName? (name : String) : Option Property :=
  all.find? (fun property => property.name == name)

end Property

structure Violation where
  property : Property
  node : NodeId
  detail : String
deriving DecidableEq, Inhabited

namespace Violation

def describe (violation : Violation) : String :=
  s!"{violation.property.name} at node {violation.node}: {violation.detail}"

end Violation

namespace Property

def violationsAt (property : Property) (file : File) (broken : Node → Bool)
    (detail : String → String) : List Violation :=
  (file.nodes.filter broken).map fun node =>
    ⟨property, node.id, detail (node.source?.getD "")⟩

def violationsInSpecs (property : Property) (file : File) (broken : ValueSpec → Bool)
    (detail : String) : List Violation :=
  file.nodes.flatMap fun
    | .decl d _ =>
        if d.isVar then
          (d.valueSpecs.filter broken).map fun spec =>
            ⟨property, spec.id, s!"`{d.render}` {detail}"⟩
        else []
    | _ => []

def violations (file : File) (table : SymbolTable) (property : Property) : List Violation :=
  match property with
  | .explicitDeref =>
      property.violationsAt file (Node.derefsImplicitly table)
        (fun source => s!"implicit dereference in `{source}`")
  | .singleNameDecl =>
      property.violationsInSpecs file (fun spec => spec.names.length != 1) "declares several names"
  | .typedDecl =>
      property.violationsInSpecs file (fun spec => spec.ty.isNone) "has no explicit type"
  | .initializedDecl =>
      property.violationsInSpecs file (fun spec => spec.values.isEmpty) "has no initializer"
  | .noShortDecl =>
      property.violationsAt file Node.isShortDecl (fun source => s!"short declaration `{source}`")
  | .singleTargetAssign =>
      property.violationsAt file Node.isParallel
        (fun source => s!"parallel assignment `{source}`")
  | .noControlInit =>
      property.violationsAt file Node.hasControlInit
        (fun _ => "control statement with initializer")
  | .noThreeClauseLoop =>
      property.violationsAt file Node.isThreeClauseLoop
        (fun _ => "loop with init or post statement")
  | .taggedSwitch =>
      property.violationsAt file Node.isTaglessSwitch (fun _ => "switch without tag")
  | .explicitDiscard =>
      property.violationsAt file (Node.discardsValue table)
        (fun source => s!"discarded value in `{source}`")

end Property

def File.check (file : File) (table : SymbolTable) (which : List Property) : List Violation :=
  which.flatMap (Property.violations file table)

end Desugar
