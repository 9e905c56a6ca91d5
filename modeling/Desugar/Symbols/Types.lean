import Desugar.Syntax.Basic

/-!
# Resolved types

The types the checker found, as entries of an arena: a composite type names its
parts by their position in the arena, so recursive named types are expressible.
-/

namespace Desugar

structure TypeId where
  index : Nat
deriving DecidableEq, Inhabited

inductive BasicKind where
  | bool
  | int
  | int8
  | int16
  | int32
  | int64
  | uint
  | uint8
  | uint16
  | uint32
  | uint64
  | uintptr
  | float32
  | float64
  | complex64
  | complex128
  | string
  | unsafePointer
  | untypedBool
  | untypedInt
  | untypedRune
  | untypedFloat
  | untypedComplex
  | untypedString
  | untypedNil
deriving DecidableEq, Inhabited

namespace BasicKind

def name : BasicKind → String
  | .bool => "bool"
  | .int => "int"
  | .int8 => "int8"
  | .int16 => "int16"
  | .int32 => "int32"
  | .int64 => "int64"
  | .uint => "uint"
  | .uint8 => "uint8"
  | .uint16 => "uint16"
  | .uint32 => "uint32"
  | .uint64 => "uint64"
  | .uintptr => "uintptr"
  | .float32 => "float32"
  | .float64 => "float64"
  | .complex64 => "complex64"
  | .complex128 => "complex128"
  | .string => "string"
  | .unsafePointer => "unsafe.Pointer"
  | .untypedBool => "untyped bool"
  | .untypedInt => "untyped int"
  | .untypedRune => "untyped rune"
  | .untypedFloat => "untyped float"
  | .untypedComplex => "untyped complex"
  | .untypedString => "untyped string"
  | .untypedNil => "untyped nil"

def isUntyped : BasicKind → Bool
  | .untypedBool | .untypedInt | .untypedRune | .untypedFloat | .untypedComplex
  | .untypedString | .untypedNil => true
  | _ => false

/-- The kind an untyped constant takes when nothing else constrains it; untyped
nil has none. -/
def default? : BasicKind → Option BasicKind
  | .untypedBool => some .bool
  | .untypedInt => some .int
  | .untypedRune => some .int32
  | .untypedFloat => some .float64
  | .untypedComplex => some .complex128
  | .untypedString => some .string
  | .untypedNil => none
  | kind => some kind

end BasicKind

structure Package where
  path : String
  name : String
deriving DecidableEq, Inhabited

structure StructField where
  name : String
  ty : TypeId
  embedded : Bool
deriving DecidableEq, Inhabited

structure InterfaceMethod where
  name : String
  sig : TypeId
deriving DecidableEq, Inhabited

/-- A resolved type.  A named type without a package is predeclared; a tuple is
the result list of a multi-value call. -/
inductive Ty where
  | basic (kind : BasicKind)
  | named (package : Option Package) (name : String) (underlying : Option TypeId)
      (args : List TypeId)
  | pointer (elem : TypeId)
  | slice (elem : TypeId)
  | array (len : UInt64) (elem : TypeId)
  | map (key : TypeId) (value : TypeId)
  | chan (dir : ChanDir) (elem : TypeId)
  | signature (params : List TypeId) (results : List TypeId) (variadic : Bool)
  | struct (fields : List StructField)
  | interface (methods : List InterfaceMethod)
  | tuple (members : List TypeId)
  | typeParam (name : String)
  | invalid
deriving DecidableEq, Inhabited

/-!
## Categories

The coarse classification that picks a zero value: nought, false, the empty
text, nil, or an empty composite.
-/

inductive Category where
  | numeric
  | boolean
  | text
  | nilable
  | composite
  | unsupported
deriving DecidableEq, Inhabited

namespace Category

def name : Category → String
  | .numeric => "Numeric"
  | .boolean => "Boolean"
  | .text => "String"
  | .nilable => "Nilable"
  | .composite => "Composite"
  | .unsupported => "Unsupported"

end Category

def BasicKind.category : BasicKind → Category
  | .bool | .untypedBool => .boolean
  | .string | .untypedString => .text
  | .unsafePointer | .untypedNil => .nilable
  | _ => .numeric

namespace Ty

def isNamed : Ty → Bool
  | .named _ _ _ _ => true
  | _ => false

def category : Ty → Category
  | .basic kind => kind.category
  | .pointer _ | .slice _ | .map _ _ | .chan _ _ | .signature _ _ _ | .interface _ => .nilable
  | .struct _ | .array _ _ => .composite
  | .tuple _ | .typeParam _ | .invalid | .named _ _ _ _ => .unsupported

end Ty
end Desugar
