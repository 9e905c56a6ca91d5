import Desugar.Build.Basic

/-!
# Building types and bindings
-/

namespace Desugar
namespace Build

def intern (type : Ty) : Build TypeId :=
  onTable (fun table => table.intern type)

def basic (kind : BasicKind) : Build TypeId :=
  onTable (fun table => table.basic kind)

def pointer (elem : TypeId) : Build TypeId :=
  intern (.pointer elem)

def slice (elem : TypeId) : Build TypeId :=
  intern (.slice elem)

def tuple (members : List TypeId) : Build TypeId :=
  intern (.tuple members)

def signature (params results : List TypeId) : Build TypeId :=
  intern (.signature params results false)

/-- A new named type over {underlying}. -/
def define (package : Option Package) (name : String) (underlying : TypeId) : Build TypeId := do
  let named ← onTable (fun table => table.newNamed package name)
  modifyTable (fun table => table.setUnderlying named underlying)
  return named

/-!
## Bindings
-/

def declareIn (scope : ScopeId) (name : String) (ty : Option TypeId) (kind : BindingKind) :
    Build BindingId :=
  onTable (fun table => table.declare scope name ty kind)

def declareVar (name : String) (ty : TypeId) : Build BindingId := do
  declareIn (← scope) name (some ty) .var

def declareFunc (name : String) (sig : TypeId) : Build BindingId := do
  declareIn (← get).fileScope name (some sig) .func

def declareBuiltin (name : String) : Build BindingId :=
  declareIn SymbolTable.outermost name none .builtin

def importPackage (path : String) (name : Option String) : Build BindingId := do
  let imported : Import := ⟨name, path⟩
  modify fun builder => { builder with imports := builder.imports ++ [imported] }
  declareIn (← get).fileScope imported.localName none .package

/-!
## Named types
-/

/-- A named type of the file's package, declared in the file scope. -/
def named (name : String) (underlying : TypeId) : Build TypeId := do
  let builder ← get
  let type ← define (some ⟨builder.path, builder.package⟩) name underlying
  let _ ← declareIn builder.fileScope name (some type) .typeName
  return type

def foreign (path package name : String) (underlying : TypeId) : Build TypeId :=
  define (some ⟨path, package⟩) name underlying

def structType (name : String) (embedded : List TypeId) (fields : List (String × TypeId)) :
    Build TypeId := do
  let table ← getTable
  let inherited := embedded.map fun ty =>
    let target := (table.pointerElem ty).getD ty
    let name := match table.ty target with
      | .named _ name _ _ => name
      | _ => blank
    StructField.mk name ty true
  let own := fields.map (fun (name, ty) => StructField.mk name ty false)
  named name (← intern (.struct (inherited ++ own)))

def errorType : Build TypeId := do
  let table ← getTable
  let declared := table.bindings.toList.findSome? fun binding =>
    if binding.kind == .typeName && binding.name == "error" &&
        binding.scope == SymbolTable.outermost
    then binding.ty else none
  match declared with
  | some type => return type
  | none => do
      let string ← basic .string
      let sig ← signature [] [string]
      let interface ← intern (.interface [⟨"Error", sig⟩])
      let type ← define none "error" interface
      let _ ← declareIn SymbolTable.outermost "error" (some type) .typeName
      return type

/-- A type as the file writes it; a type it cannot write is named as messages
show it. -/
def spell (ty : TypeId) : Build TypeExpr := do
  let builder ← get
  match builder.table.spell ⟨builder.package, builder.path, builder.imports⟩ ty with
  | .ok expr => return expr
  | .error _ => return .named (builder.table.display ty)

end Build
end Desugar
