import Desugar.Symbols.Arena
import Desugar.Syntax.Nodes
import Desugar.Syntax.Render

/-!
# Shapes that normalization removes

Predicates on single nodes.  A statement counts in either position unless its
shape is only removed from statement lists.
-/

namespace Desugar

namespace Stmt

def isShortDecl : Stmt → Bool
  | .assign _ _ .define _ => true
  | _ => false

def hasControlInit : Stmt → Bool
  | .ifElse _ init _ _ _ => init.isSome
  | .switch _ init _ _ => init.isSome
  | .typeSwitch _ init _ _ => init.isSome
  | _ => false

def isThreeClauseLoop : Stmt → Bool
  | .forLoop _ init _ post _ => init.isSome || post.isSome
  | _ => false

def isTaglessSwitch : Stmt → Bool
  | .switch _ _ tag _ => tag.isNone
  | _ => false

def isParallel : Stmt → Bool
  | .assign _ lhs _ rhs => lhs.length > 1 && rhs.length != 1
  | _ => false

/-- An expression statement that produces a value, or one of unknown type. -/
def discardsValue (table : SymbolTable) : Stmt → Bool
  | .expr _ x =>
      match table.exprTypes[x.id]? with
      | some ty => table.ty ty != .tuple []
      | none => true
  | _ => false

end Stmt

/-- An index, slice or field selection that follows a pointer without saying
so. -/
def Expr.derefsImplicitly (table : SymbolTable) : Expr → Bool
  | .index _ x _ => (table.exprTypes[x.id]?).any table.isPointerToArray
  | .slice _ x _ _ _ => (table.exprTypes[x.id]?).any table.isPointerToArray
  | .selector id x name =>
      table.selections[id]? == some .field &&
        (table.exprTypes[x.id]?).any (fun ty => table.implicitDeref ty name)
  | _ => false

namespace Node

def isShortDecl : Node → Bool
  | .stmt s => s.unlabeled.isShortDecl
  | _ => false

def hasControlInit (node : Node) : Bool :=
  node.stmt?.any Stmt.hasControlInit

def isThreeClauseLoop (node : Node) : Bool :=
  node.stmt?.any Stmt.isThreeClauseLoop

def isTaglessSwitch (node : Node) : Bool :=
  node.stmt?.any Stmt.isTaglessSwitch

def isParallel (node : Node) : Bool :=
  node.stmt?.any Stmt.isParallel

def discardsValue (table : SymbolTable) : Node → Bool
  | .stmt s => s.discardsValue table
  | _ => false

def derefsImplicitly (table : SymbolTable) (node : Node) : Bool :=
  node.expr?.any (fun e => e.derefsImplicitly table)

def source? : Node → Option String
  | .decl d _ => some d.render
  | .stmt s => some s.render
  | .header s => some s.render
  | .expr e => some e.render
  | .func _ => none
  | .block _ => none

end Node
end Desugar
