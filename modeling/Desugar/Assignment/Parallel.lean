import Desugar.Assignment.Effects
import Desugar.Pass.Construct
import Desugar.Pass.Transformer
import Desugar.Syntax.Render

/-!
# One target per assignment

An assignment to several targets evaluates all operands and sources before it
assigns anything.  It is split into single assignments directly when none of
them can change what a later one evaluates.  Otherwise it becomes a block with a
scope of its own, which first locates the targets, then holds every source in a
temporary, and finally assigns.  Literals need no temporary.
-/

namespace Desugar
namespace Parallel

open PassM

def hold (scope : ScopeId) (ty : TypeId) (spelled : TypeExpr) (value : Expr) :
    PassM (Stmt × Expr) := do
  let temp ← newTemp scope ty
  let declared ← newVarOf temp (some spelled) [value]
  return (declared, ← newUse temp)

def holdOperand (scope : ScopeId) (operand : Expr) : PassM (Stmt × Expr) := do
  let ty ← require (← typeOf operand) (.missingType operand.id "assignment operand")
  let ty ← defaultType ty
  let spelled ← spell ty operand.id
  hold scope ty spelled operand

def mapKey (table : SymbolTable) (x : Expr) : Option TypeId :=
  match (table.exprTypes[x.id]?).map table.structureOf with
  | some (.map key _) => some key
  | _ => none

def pinAddress (scope : ScopeId) (place : Expr) : PassM (List Stmt × Expr) := do
  let ty ← require (← typeOf place) (.missingType place.id "assignment target")
  let pointer ← onTable (fun table => table.intern (.pointer ty))
  let address ← newExpr (fun id => .unary id .addr place) (some pointer)
  let spelled ← spell pointer place.id
  let (declared, held) ← hold scope pointer spelled address
  return ([declared], ← newExpr (fun id => .star id held) (some ty))

/-- Evaluate the operands of a target once.  A variable has none; a map entry
holds the map and the key; anything else holds its address. -/
def pin (scope : ScopeId) : Expr → PassM (List Stmt × Expr)
  | .ident id name => return ([], .ident id name)
  | .paren _ x => pin scope x
  | .index id x index => do
      match mapKey (← getTable) x with
      | some keyType => do
          let ty := (← getTable).exprTypes[id]?
          let (mapDecl, map) ← holdOperand scope x
          let spelled ← spell keyType index.id
          let (keyDecl, key) ← hold scope keyType spelled index
          return ([mapDecl, keyDecl], ← newExpr (fun id => .index id map key) ty)
      | none => pinAddress scope (.index id x index)
  | .star id x => do
      let ty := (← getTable).exprTypes[id]?
      let (declared, pointer) ← holdOperand scope x
      return ([declared], ← newExpr (fun id => .star id pointer) ty)
  | place => pinAddress scope place

/-- Hold a source for a target, and assign it later.  The assignment to a blank
takes place at once. -/
def evaluate (scope : ScopeId) (node : NodeId) (target source : Expr) :
    PassM (List Stmt × List Stmt) := do
  if target.isBlank then return ([← newAssign [target] [source]], [])
  else if source.isLiteral then return ([], [← newAssign [target] [source]])
  else do
    let ty ← require (← typeOf target) (.missingType target.id "assignment target")
    let spelled ← spell ty node
    let (declared, value) ← hold scope ty spelled source
    return ([declared], [← newAssign [target] [value]])

def sequence (owner node : NodeId) (lhs rhs : List Expr) : PassM Stmt := do
  let parent ← scopeAt owner
  let scope ← onTable (fun table => table.newScope parent)
  let pinned ← lhs.mapM (pin scope)
  let steps ← ((pinned.map Prod.snd).zip rhs).mapM fun (target, source) =>
    evaluate scope node target source
  let stmts := pinned.flatMap Prod.fst ++ steps.flatMap Prod.fst ++ steps.flatMap Prod.snd
  let blockId ← freshId
  modifyTable (fun table => table.attachScope blockId scope)
  newStmt (fun id => .block id ⟨blockId, stmts⟩)

def splitAssign (owner node : NodeId) (labels : List Label) (lhs rhs : List Expr) :
    PassM (List Stmt) := do
  if hazardous (← getTable) (lhs.zip rhs) then
    return [(← sequence owner node lhs rhs).label labels]
  else
    let stmts ← (lhs.zip rhs).mapM fun (target, source) => newAssign [target] [source]
    return Stmts.labelFirst labels stmts

def splitStmt (owner : NodeId) (s : Stmt) : PassM (Option (List Stmt)) := do
  match s.unlabeled with
  | .assign node lhs .assign rhs =>
      if lhs.length > 1 && lhs.length == rhs.length then
        orElseKeep (some <$> splitAssign owner node s.labels lhs rhs) s.render (pure none)
      else return none
  | _ => return none

def transformer : Transformer where
  list owner stmts := Transformer.splice (splitStmt owner) stmts

end Parallel
end Desugar
