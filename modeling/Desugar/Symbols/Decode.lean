import Desugar.Symbols.Encode
import Desugar.Syntax.Decode

/-!
# Symbol tables from JSON values
-/

namespace Desugar

open Json (record? tagged? isUnit bool? str? list? nullable? natBelow? word64?)

def positionLimit : Nat :=
  4294967296

def TypeId.ofJson? (value : Json) : Option TypeId :=
  (value.natBelow? positionLimit).map TypeId.mk

def BindingId.ofJson? (value : Json) : Option BindingId :=
  (value.natBelow? positionLimit).map BindingId.mk

def ScopeId.ofJson? (value : Json) : Option ScopeId :=
  (value.natBelow? positionLimit).map ScopeId.mk

def BasicKind.all : List BasicKind :=
  [.bool, .int, .int8, .int16, .int32, .int64, .uint, .uint8, .uint16, .uint32, .uint64, .uintptr,
    .float32, .float64, .complex64, .complex128, .string, .unsafePointer, .untypedBool,
    .untypedInt, .untypedRune, .untypedFloat, .untypedComplex, .untypedString, .untypedNil]

def BasicKind.ofJson? : Json → Option BasicKind :=
  tagged? (BasicKind.all.map (fun kind => (kind.tag, kind)))

def Selection.all : List Selection :=
  [.field, .method]

def Selection.ofJson? : Json → Option Selection :=
  tagged? (Selection.all.map (fun selection => (selection.tag, selection)))

def BindingKind.all : List BindingKind :=
  [.var, .const, .typeName, .func, .package, .builtin, .nil]

def BindingKind.ofJson? : Json → Option BindingKind :=
  tagged? (BindingKind.all.map (fun kind => (kind.tag, kind)))

def Package.ofJson? (value : Json) : Option Package := do
  let fields ← record? ["path", "name"] value
  let path ← fields.required "path" str?
  let name ← fields.required "name" str?
  return ⟨path, name⟩

def StructField.ofJson? (value : Json) : Option StructField := do
  let fields ← record? ["name", "ty", "embedded"] value
  let name ← fields.required "name" str?
  let ty ← fields.required "ty" TypeId.ofJson?
  let embedded ← fields.defaulting "embedded" false bool?
  return ⟨name, ty, embedded⟩

def InterfaceMethod.ofJson? (value : Json) : Option InterfaceMethod := do
  let fields ← record? ["name", "sig"] value
  let name ← fields.required "name" str?
  let sig ← fields.required "sig" TypeId.ofJson?
  return ⟨name, sig⟩

def Ty.ofJson? (value : Json) : Option Ty := do
  match ← value.variant? with
  | ("Basic", some content) => (BasicKind.ofJson? content).map .basic
  | ("Named", some content) => do
      let fields ← record? ["package", "name", "underlying", "args"] content
      let package ← fields.optional "package" Package.ofJson?
      let name ← fields.required "name" str?
      let underlying ← fields.optional "underlying" TypeId.ofJson?
      let args ← fields.defaulting "args" [] (list? TypeId.ofJson?)
      return .named package name underlying args
  | ("Pointer", some content) => (TypeId.ofJson? content).map .pointer
  | ("Slice", some content) => (TypeId.ofJson? content).map .slice
  | ("Array", some content) => do
      let fields ← record? ["len", "elem"] content
      let len ← fields.required "len" word64?
      let elem ← fields.required "elem" TypeId.ofJson?
      return .array len elem
  | ("Map", some content) => do
      let fields ← record? ["key", "value"] content
      let key ← fields.required "key" TypeId.ofJson?
      let elem ← fields.required "value" TypeId.ofJson?
      return .map key elem
  | ("Chan", some content) => do
      let fields ← record? ["dir", "elem"] content
      let dir ← fields.required "dir" ChanDir.ofJson?
      let elem ← fields.required "elem" TypeId.ofJson?
      return .chan dir elem
  | ("Signature", some content) => do
      let fields ← record? ["params", "results", "variadic"] content
      let params ← fields.required "params" (list? TypeId.ofJson?)
      let results ← fields.required "results" (list? TypeId.ofJson?)
      let variadic ← fields.defaulting "variadic" false bool?
      return .signature params results variadic
  | ("Struct", some content) => (list? StructField.ofJson? content).map .struct
  | ("Interface", some content) => (list? InterfaceMethod.ofJson? content).map .interface
  | ("Tuple", some content) => (list? TypeId.ofJson? content).map .tuple
  | ("TypeParam", some content) => do
      let fields ← record? ["name"] content
      let name ← fields.required "name" str?
      return .typeParam name
  | ("Invalid", content) => if isUnit content then some .invalid else none
  | _ => none

def Binding.ofJson? (value : Json) : Option Binding := do
  let fields ← record? ["name", "ty", "scope", "kind", "synthetic"] value
  let name ← fields.required "name" str?
  let ty ← fields.optional "ty" TypeId.ofJson?
  let scope ← fields.required "scope" ScopeId.ofJson?
  let kind ← fields.required "kind" BindingKind.ofJson?
  let synthetic ← fields.defaulting "synthetic" false bool?
  return ⟨name, ty, scope, kind, synthetic⟩

def Json.entries? {α : Type} (read : Key × Json → Option α) : Json → Option (List α)
  | .object members => members.mapM read
  | _ => none

def Scope.names? (value : Json) : Option (List (String × BindingId)) := do
  let entries ← value.entries? fun (name, id) =>
    (BindingId.ofJson? id).map (fun id => (name.text, id))
  return entries.foldl (fun names entry => Scope.setName entry.1 entry.2 names) []

def Scope.ofJson? (value : Json) : Option Scope := do
  let fields ← record? ["parent", "names"] value
  let parent ← fields.optional "parent" ScopeId.ofJson?
  let names ← fields.required "names" Scope.names?
  return ⟨parent, names⟩

/-!
## Facts keyed by node
-/

def digitsValue (digits : List Char) : Nat :=
  digits.foldl (fun value digit => 10 * value + (digit.toNat - '0'.toNat)) 0

/-- The node a name stands for: a decimal number without leading zeros, spelled
with digits alone. -/
def NodeId.ofKey? (name : Key) : Option NodeId :=
  let digits := name.text.toList
  if name.escaped then none
  else if digits.all Char.isDigit && (digits == ['0'] || digits.head?.any (fun c => c != '0')) then
    let value := digitsValue digits
    if value < UInt32.size then some ⟨UInt32.ofNat value⟩ else none
  else none

def NodeMap.ofJson? {α : Type} (read : Json → Option α) (value : Json) : Option (NodeMap α) := do
  let entries ← value.entries? fun (name, fact) => do
    let node ← NodeId.ofKey? name
    let fact ← read fact
    return (node, fact)
  return entries.foldl (fun facts entry => facts.insert entry.1 entry.2) ∅

def SymbolTable.ofJson? (value : Json) : Option SymbolTable := do
  let fields ← record? ["types", "expr_types", "defs", "uses", "selections", "scopes", "scope_of",
    "bindings"] value
  let types ← fields.required "types" (list? Ty.ofJson?)
  let exprTypes ← fields.defaulting "expr_types" ∅ (NodeMap.ofJson? TypeId.ofJson?)
  let defs ← fields.defaulting "defs" ∅ (NodeMap.ofJson? BindingId.ofJson?)
  let uses ← fields.defaulting "uses" ∅ (NodeMap.ofJson? BindingId.ofJson?)
  let selections ← fields.defaulting "selections" ∅ (NodeMap.ofJson? Selection.ofJson?)
  let scopes ← fields.required "scopes" (list? Scope.ofJson?)
  let scopeOf ← fields.defaulting "scope_of" ∅ (NodeMap.ofJson? ScopeId.ofJson?)
  let bindings ← fields.defaulting "bindings" [] (list? Binding.ofJson?)
  return {
    types := types.toArray
    exprTypes := exprTypes
    defs := defs
    uses := uses
    selections := selections
    scopes := scopes.toArray
    scopeOf := scopeOf
    bindings := bindings.toArray
    reserved := [] }

end Desugar
