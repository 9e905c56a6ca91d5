import Desugar.Symbols.Scopes
import Desugar.Syntax.Encode

/-!
# Symbol tables as JSON values

Facts keyed by node are objects whose names are the nodes in decimal, in
ascending order.  Reserved names are not written.
-/

namespace Desugar

def TypeId.toJson (id : TypeId) : Json :=
  .ofNat id.index

def BindingId.toJson (id : BindingId) : Json :=
  .ofNat id.index

def ScopeId.toJson (id : ScopeId) : Json :=
  .ofNat id.index

def BasicKind.tag : BasicKind → String
  | .bool => "Bool"
  | .int => "Int"
  | .int8 => "Int8"
  | .int16 => "Int16"
  | .int32 => "Int32"
  | .int64 => "Int64"
  | .uint => "Uint"
  | .uint8 => "Uint8"
  | .uint16 => "Uint16"
  | .uint32 => "Uint32"
  | .uint64 => "Uint64"
  | .uintptr => "Uintptr"
  | .float32 => "Float32"
  | .float64 => "Float64"
  | .complex64 => "Complex64"
  | .complex128 => "Complex128"
  | .string => "String"
  | .unsafePointer => "UnsafePointer"
  | .untypedBool => "UntypedBool"
  | .untypedInt => "UntypedInt"
  | .untypedRune => "UntypedRune"
  | .untypedFloat => "UntypedFloat"
  | .untypedComplex => "UntypedComplex"
  | .untypedString => "UntypedString"
  | .untypedNil => "UntypedNil"

def Selection.tag : Selection → String
  | .field => "Field"
  | .method => "Method"

def BindingKind.tag : BindingKind → String
  | .var => "Var"
  | .const => "Const"
  | .typeName => "TypeName"
  | .func => "Func"
  | .package => "Package"
  | .builtin => "Builtin"
  | .nil => "Nil"

def Package.toJson (package : Package) : Json :=
  .obj [("path", .str package.path), ("name", .str package.name)]

def StructField.toJson (field : StructField) : Json :=
  .obj [("name", .str field.name), ("ty", field.ty.toJson), ("embedded", .bool field.embedded)]

def InterfaceMethod.toJson (method : InterfaceMethod) : Json :=
  .obj [("name", .str method.name), ("sig", method.sig.toJson)]

def TypeIds.toJson (types : List TypeId) : Json :=
  .arr (types.map TypeId.toJson)

def Ty.toJson : Ty → Json
  | .basic kind => .tagWith "Basic" (.str kind.tag)
  | .named package name underlying args =>
      .tagRecord "Named" [("package", .ofOption Package.toJson package), ("name", .str name),
        ("underlying", .ofOption TypeId.toJson underlying), ("args", TypeIds.toJson args)]
  | .pointer elem => .tagWith "Pointer" elem.toJson
  | .slice elem => .tagWith "Slice" elem.toJson
  | .array len elem => .tagRecord "Array" [("len", .ofNat len.toNat), ("elem", elem.toJson)]
  | .map key value => .tagRecord "Map" [("key", key.toJson), ("value", value.toJson)]
  | .chan dir elem => .tagRecord "Chan" [("dir", .str dir.tag), ("elem", elem.toJson)]
  | .signature params results variadic =>
      .tagRecord "Signature"
        [("params", TypeIds.toJson params), ("results", TypeIds.toJson results),
        ("variadic", .bool variadic)]
  | .struct fields => .tagWith "Struct" (.arr (fields.map StructField.toJson))
  | .interface methods => .tagWith "Interface" (.arr (methods.map InterfaceMethod.toJson))
  | .tuple members => .tagWith "Tuple" (TypeIds.toJson members)
  | .typeParam name => .tagRecord "TypeParam" [("name", .str name)]
  | .invalid => .str "Invalid"

def Binding.toJson (binding : Binding) : Json :=
  .obj [("name", .str binding.name), ("ty", .ofOption TypeId.toJson binding.ty),
    ("scope", binding.scope.toJson), ("kind", .str binding.kind.tag),
    ("synthetic", .bool binding.synthetic)]

def Scope.toJson (scope : Scope) : Json :=
  .obj [("parent", .ofOption ScopeId.toJson scope.parent),
    ("names", .obj (scope.names.map (fun entry => (entry.1, entry.2.toJson))))]

def NodeMap.toJson {α : Type} (encode : α → Json) (facts : NodeMap α) : Json :=
  .obj (facts.toList.map (fun fact => (toString fact.1.val.toNat, encode fact.2)))

def SymbolTable.toJson (table : SymbolTable) : Json :=
  .obj [("types", .arr (table.types.toList.map Ty.toJson)),
    ("expr_types", NodeMap.toJson TypeId.toJson table.exprTypes),
    ("defs", NodeMap.toJson BindingId.toJson table.defs),
    ("uses", NodeMap.toJson BindingId.toJson table.uses),
    ("selections", NodeMap.toJson (fun selection => .str selection.tag) table.selections),
    ("scopes", .arr (table.scopes.toList.map Scope.toJson)),
    ("scope_of", NodeMap.toJson ScopeId.toJson table.scopeOf),
    ("bindings", .arr (table.bindings.toList.map Binding.toJson))]

end Desugar
