import Desugar.Build.Types

/-!
# Building expressions

Each expression is typed from its parts, as far as their types are known.
-/

namespace Desugar
namespace Build

def typed (expr : NodeId → Expr) (ty : Option TypeId) : Build Expr := do
  let id ← freshId
  match ty with
  | some ty => modifyTable (fun table => table.recordType id ty)
  | none => pure ()
  return expr id

def typeOf (x : Expr) : Build (Option TypeId) := do
  return (← getTable).exprTypes[x.id]?

def formOf (x : Expr) : Build (Option Ty) := do
  let table ← getTable
  return (table.exprTypes[x.id]?).map table.structureOf

/-- An identifier resolved from the current scope outwards. -/
def ident (name : String) : Build Expr := do
  let table ← getTable
  let binding := table.lookup (← scope) name
  let ty := (binding.bind table.binding?).bind Binding.ty
  let expr ← typed (fun id => .ident id name) ty
  match binding with
  | some binding => modifyTable (fun table => table.recordUse expr.id binding)
  | none => pure ()
  return expr

def blankTarget : Build Expr :=
  typed (fun id => .ident id blank) none

def literal (value : Literal) (kind : BasicKind) : Build Expr := do
  typed (fun id => .lit id value) (some (← basic kind))

def intLit (value : Int) : Build Expr :=
  literal (.int (toString value)) .untypedInt

def boolLit (value : Bool) : Build Expr :=
  literal (.bool value) .untypedBool

def stringLit (value : String) : Build Expr :=
  literal (.string value) .untypedString

def nilLit : Build Expr :=
  literal .nil .untypedNil

/-- A call typed by the signature of the callee: a single result is the type of
the call, any other number of results is a tuple. -/
def call (callee : Expr) (args : List Expr) : Build Expr := do
  let ty ← match ← formOf callee with
    | some (.signature _ [result] _) => pure (some result)
    | some (.signature _ results _) => some <$> tuple results
    | _ => pure none
  typed (fun id => .call id callee args false) ty

def isUntyped (table : SymbolTable) (ty : TypeId) : Bool :=
  match table.ty ty with
  | .basic kind => kind.isUntyped
  | _ => false

/-- The type of an arithmetic operation: an untyped operand takes the type of
the other one. -/
def joinTypes (table : SymbolTable) : Option TypeId → Option TypeId → Option TypeId
  | some a, some b => if isUntyped table a && !isUntyped table b then some b else some a
  | some a, none => some a
  | none, b => b

def binary (op : BinaryOp) (x y : Expr) : Build Expr := do
  let ty ← if op.isPredicate then some <$> basic .bool
    else do
      let left ← typeOf x
      let right ← typeOf y
      pure (joinTypes (← getTable) left right)
  typed (fun id => .binary id op x y) ty

def unary (op : UnaryOp) (x : Expr) : Build Expr := do
  let operand ← typeOf x
  let ty ← match op with
    | .addr => match operand with
      | some operand => some <$> pointer operand
      | none => pure none
    | .recv => match ← formOf x with
      | some (.chan _ elem) => pure (some elem)
      | _ => pure none
    | _ => pure operand
  typed (fun id => .unary id op x) ty

def elemType (table : SymbolTable) : Ty → Option TypeId
  | .slice elem => some elem
  | .array _ elem => some elem
  | .map _ value => some value
  | .pointer target =>
      match table.structureOf target with
      | .array _ elem => some elem
      | _ => none
  | _ => none

def index (x i : Expr) : Build Expr := do
  let ty ← match ← formOf x with
    | some (.basic .string) => some <$> basic .uint8
    | form => do
        let table ← getTable
        pure (form.bind (elemType table))
  typed (fun id => .index id x i) ty

def indexOk (x key : Expr) : Build Expr := do
  let table ← getTable
  let value := (← formOf x).bind (elemType table)
  let ok ← basic .bool
  let ty ← match value with
    | some value => some <$> tuple [value, ok]
    | none => pure none
  typed (fun id => .index id x key) ty

def sliceOf (x : Expr) (low high max : Option Expr) : Build Expr := do
  let table ← getTable
  let ty ← match ← formOf x with
    | some (.slice _) => typeOf x
    | some (.basic _) => typeOf x
    | some (.array _ elem) => some <$> slice elem
    | some (.pointer target) => match table.structureOf target with
      | .array _ elem => some <$> slice elem
      | _ => pure none
    | _ => pure none
  typed (fun id => .slice id x low high max) ty

def fieldType (table : SymbolTable) (operand : TypeId) (name : String) : Option TypeId := do
  let base := (table.pointerElem operand).getD operand
  let path ← table.fieldPath base name
  let last := (path.getLast?.map StructField.ty).getD base
  let fields ← table.fieldsOf ((table.pointerElem last).getD last)
  let field ← fields.find? (fun field => field.name == name)
  return field.ty

def select (x : Expr) (name : String) (ty : Option TypeId) (selection : Selection) :
    Build Expr := do
  let expr ← typed (fun id => .selector id x name) ty
  modifyTable (fun table => table.recordSelection expr.id selection)
  return expr

def field (x : Expr) (name : String) : Build Expr := do
  let table ← getTable
  let ty := (← typeOf x).bind (fun operand => fieldType table operand name)
  select x name ty .field

def method (x : Expr) (name : String) (sig : TypeId) : Build Expr :=
  select x name (some sig) .method

def qualified (package name : String) (ty : TypeId) : Build Expr := do
  let x ← ident package
  typed (fun id => .selector id x name) (some ty)

def star (x : Expr) : Build Expr := do
  let table ← getTable
  typed (fun id => .star id x) ((← typeOf x).bind table.pointerElem)

def composite (ty : TypeId) (elts : List Expr) : Build Expr := do
  let spelled ← spell ty
  typed (fun id => .composite id (some spelled) elts) (some ty)

end Build
end Desugar
