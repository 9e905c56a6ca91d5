import Desugar.Symbols.Arena
import Desugar.Text.Uppercase

/-!
# Writing resolved types

A resolved type is spelled as a type expression that is valid inside a given
file, or shown in a message.  Both follow the arena from a type to its parts;
the number of types in the arena bounds how deep that can go, since no chain of
parts of a well-founded arena visits a type twice.
-/

namespace Desugar

/-- What a file can name: its own package and the packages it imports. -/
structure PackageView where
  package : String
  path : String
  imports : List Import
deriving Inhabited

namespace PackageView

def ofFile (file : File) : PackageView :=
  ⟨file.package, file.path, file.imports⟩

/-- Whether a package is the file's own: by path when both are known, else by
name. -/
def isLocal (view : PackageView) (package : Package) : Bool :=
  if !view.path.isEmpty && !package.path.isEmpty then view.path == package.path
  else view.package == package.name

def qualifier? (view : PackageView) (path : String) : Option String :=
  (view.imports.find? (fun imported => imported.path == path)).map Import.localName

end PackageView

def isExported (name : String) : Bool :=
  name.toList.head?.any Text.isUppercase

namespace SymbolTable

def spellName (view : PackageView) (package : Option Package) (name : String) : Option TypeExpr :=
  match package with
  | none => some (.named name)
  | some package =>
      if view.isLocal package then some (.named name)
      else if isExported name then
        (view.qualifier? package.path).map (fun qualifier => .qualified qualifier name)
      else none

def spellBasic (view : PackageView) : BasicKind → Option TypeExpr
  | .unsafePointer =>
      (view.qualifier? "unsafe").map (fun qualifier => .qualified qualifier "Pointer")
  | kind => kind.default?.map (fun default => .named default.name)

def spellWithin (table : SymbolTable) (view : PackageView) : Nat → TypeId → Except TypeId TypeExpr
  | 0, id => .error id
  | n + 1, id =>
      let spell := table.spellWithin view n
      match table.ty id with
      | .basic kind => (spellBasic view kind).elim (.error id) .ok
      | .named package name _ args =>
          match spellName view package name with
          | none => .error id
          | some base => if args.isEmpty then .ok base else return .generic base (← args.mapM spell)
      | .pointer elem => return .pointer (← spell elem)
      | .slice elem => return .slice (← spell elem)
      | .array len elem => return .array (some len) (← spell elem)
      | .map key value => do
          let key ← spell key
          let value ← spell value
          return .map key value
      | .chan dir elem => return .chan dir (← spell elem)
      | .signature params results variadic => do
          let params ← params.mapM spell
          let results ← results.mapM spell
          return .func params results variadic
      | .struct fields => do
          let fields ← fields.mapM fun field => do
            let ty ← spell field.ty
            return FieldExpr.mk (if field.embedded then none else some field.name) ty
          return .struct fields
      | .interface methods => do
          let methods ← methods.mapM fun method => do
            let sig ← spell method.sig
            return MethodExpr.mk method.name sig
          return .interface methods
      | .typeParam name => .ok (.named name)
      | .tuple _ => .error id
      | .invalid => .error id

/-- Spell a type inside a file, or name the type that has no spelling there. -/
def spell (table : SymbolTable) (view : PackageView) (id : TypeId) : Except TypeId TypeExpr :=
  table.spellWithin view (table.types.size + 1) id

/-!
## Types in messages
-/

def displayWithin (table : SymbolTable) : Nat → TypeId → String
  | 0, _ => ""
  | n + 1, id =>
      let display := table.displayWithin n
      let displays := fun (types : List TypeId) => ", ".intercalate (types.map display)
      match table.ty id with
      | .basic kind => kind.name
      | .named package name _ args =>
          let base := match package with
            | some package => package.name ++ "." ++ name
            | none => name
          if args.isEmpty then base else base ++ "[" ++ displays args ++ "]"
      | .pointer elem => "*" ++ display elem
      | .slice elem => "[]" ++ display elem
      | .array len elem => "[" ++ toString len.toNat ++ "]" ++ display elem
      | .map key value => "map[" ++ display key ++ "]" ++ display value
      | .chan dir elem => dir.keyword ++ display elem
      | .signature params results _ =>
          let head := "func(" ++ displays params ++ ")"
          match results with
          | [] => head
          | [result] => head ++ " " ++ display result
          | results => head ++ " (" ++ displays results ++ ")"
      | .struct fields =>
          let parts := fields.map fun field =>
            if field.embedded then display field.ty else field.name ++ " " ++ display field.ty
          "struct\x7b" ++ "; ".intercalate parts ++ "\x7d"
      | .interface methods =>
          "interface\x7b" ++ "; ".intercalate (methods.map InterfaceMethod.name) ++ "\x7d"
      | .tuple members => "(" ++ displays members ++ ")"
      | .typeParam name => name
      | .invalid => "invalid type"

def display (table : SymbolTable) (id : TypeId) : String :=
  table.displayWithin (table.types.size + 1) id

end SymbolTable
end Desugar
