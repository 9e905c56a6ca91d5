import Desugar.Symbols.Table

/-!
# The arena of types

Structural types are interned: two of them are equal exactly when their
positions are.  Named types have an identity of their own and are never shared.
-/

namespace Desugar
namespace SymbolTable

/-- The type at a position; a position outside the arena holds no valid type. -/
def ty (table : SymbolTable) (id : TypeId) : Ty :=
  table.types[id.index]?.getD .invalid

def pushType (table : SymbolTable) (type : Ty) : TypeId × SymbolTable :=
  (⟨table.types.size⟩, { table with types := table.types.push type })

/-- The first position of a structural type, adding it when there is none. -/
def intern (table : SymbolTable) (type : Ty) : TypeId × SymbolTable :=
  if type.isNamed then table.pushType type
  else
    match table.types.idxOf? type with
    | some index => (⟨index⟩, table)
    | none => table.pushType type

def basic (table : SymbolTable) (kind : BasicKind) : TypeId × SymbolTable :=
  table.intern (.basic kind)

def newNamed (table : SymbolTable) (package : Option Package) (name : String) :
    TypeId × SymbolTable :=
  table.pushType (.named package name none [])

def setUnderlying (table : SymbolTable) (named : TypeId) (type : TypeId) : SymbolTable :=
  { table with
    types := table.types.modify named.index fun
      | .named package name _ args => .named package name (some type) args
      | other => other }

/-!
## Underlying types
-/

/-- How many named types are followed to an underlying type, and how many levels
of embedding a field is searched in. -/
def nestingLimit : Nat :=
  64

def followNamed (table : SymbolTable) : Nat → TypeId → TypeId
  | 0, id => id
  | n + 1, id =>
      match table.ty id with
      | .named _ _ (some next) _ => table.followNamed n next
      | _ => id

def underlying (table : SymbolTable) (id : TypeId) : TypeId :=
  table.followNamed nestingLimit id

def structureOf (table : SymbolTable) (id : TypeId) : Ty :=
  table.ty (table.underlying id)

def category (table : SymbolTable) (id : TypeId) : Category :=
  (table.structureOf id).category

def pointerElem (table : SymbolTable) (id : TypeId) : Option TypeId :=
  match table.structureOf id with
  | .pointer elem => some elem
  | _ => none

def isArray (table : SymbolTable) (id : TypeId) : Bool :=
  match table.structureOf id with
  | .array _ _ => true
  | _ => false

def isPointerToArray (table : SymbolTable) (id : TypeId) : Bool :=
  (table.pointerElem id).any table.isArray

def isMap (table : SymbolTable) (id : TypeId) : Bool :=
  match table.structureOf id with
  | .map _ _ => true
  | _ => false

/-- The values an expression of a type produces: the members of a tuple, or the
type itself. -/
def results (table : SymbolTable) (id : TypeId) : List TypeId :=
  match table.ty id with
  | .tuple members => members
  | _ => [id]

def defaultType (table : SymbolTable) (id : TypeId) : TypeId × SymbolTable :=
  match table.ty id with
  | .basic kind =>
      if kind.isUntyped then
        match kind.default? with
        | some default => table.basic default
        | none => (id, table)
      else (id, table)
  | _ => (id, table)

/-!
## Promoted fields

A field is searched breadth first: among the fields of the type itself, then
among those of its embedded fields, and so on.  A pointer to a struct holds the
fields of the struct.  Each holder is looked at once.
-/

/-- A place of the search with the embedded fields that lead to it. -/
structure FieldTrail where
  ty : TypeId
  path : List StructField

inductive LevelSearch where
  | found (path : List StructField)
  | deeper (next : List FieldTrail) (seen : List TypeId)

def fieldsOf (table : SymbolTable) (holder : TypeId) : Option (List StructField) :=
  match table.structureOf holder with
  | .struct fields => some fields
  | _ => none

def searchLevel (table : SymbolTable) (name : String) :
    List FieldTrail → List FieldTrail → List TypeId → LevelSearch
  | [], next, seen => .deeper next seen
  | trail :: rest, next, seen =>
      let holder := (table.pointerElem trail.ty).getD trail.ty
      if seen.contains holder then table.searchLevel name rest next seen
      else
        match table.fieldsOf holder with
        | none => table.searchLevel name rest next (holder :: seen)
        | some fields =>
            if fields.any (fun field => field.name == name) then .found trail.path
            else
              let inner := (fields.filter StructField.embedded).map
                (fun field => FieldTrail.mk field.ty (trail.path ++ [field]))
              table.searchLevel name rest (next ++ inner) (holder :: seen)

def searchFields (table : SymbolTable) (name : String) :
    Nat → List FieldTrail → List TypeId → Option (List StructField)
  | 0, _, _ => none
  | n + 1, level, seen =>
      match table.searchLevel name level [] seen with
      | .found path => some path
      | .deeper [] _ => none
      | .deeper next seen => table.searchFields name n next seen

/-- The embedded fields that a selection of {name} on a value of type {base}
passes through; none of them for a field of the type itself. -/
def fieldPath (table : SymbolTable) (base : TypeId) (name : String) :
    Option (List StructField) :=
  table.searchFields name nestingLimit [⟨base, []⟩] []

def implicitDeref (table : SymbolTable) (operand : TypeId) (name : String) : Bool :=
  (table.pointerElem operand).isSome ||
    (table.fieldPath operand name).any
      (fun path => path.any (fun field => (table.pointerElem field.ty).isSome))

end SymbolTable
end Desugar
