import Desugar.Syntax.Basic

/-!
# Nodes in reading order

The flat view of a tree that searches and checks work on: every declaration,
function, block, statement and expression, a node before its parts.  A
statement in a statement list or an else branch is told apart from one in the
header of a control statement.
-/

namespace Desugar

inductive Node where
  | decl (decl : Decl) (topLevel : Bool)
  | func (func : Func)
  | block (block : Block)
  | stmt (stmt : Stmt)
  | header (stmt : Stmt)
  | expr (expr : Expr)

namespace Node

def id : Node → NodeId
  | .decl d _ => d.id
  | .func fn => fn.id
  | .block b => b.id
  | .stmt s => s.id
  | .header s => s.id
  | .expr e => e.id

def stmt? : Node → Option Stmt
  | .stmt s => some s
  | .header s => some s
  | _ => none

def expr? : Node → Option Expr
  | .expr e => some e
  | _ => none

def kindName : Node → String
  | .decl _ true => "TopDecl"
  | .decl _ false => "Decl"
  | .func _ => "Func"
  | .block _ => "Block"
  | .stmt _ => "Stmt"
  | .header _ => "Header"
  | .expr _ => "Expr"

end Node

mutual

def Expr.nodes : Expr → List Node
  | .ident id name => [.expr (.ident id name)]
  | .lit id value => [.expr (.lit id value)]
  | .composite id ty elts => .expr (.composite id ty elts) :: Exprs.nodes elts
  | .keyValue id key value => .expr (.keyValue id key value) :: (key.nodes ++ value.nodes)
  | .funcLit id sig body => .expr (.funcLit id sig body) :: body.nodes
  | .paren id x => .expr (.paren id x) :: x.nodes
  | .selector id x name => .expr (.selector id x name) :: x.nodes
  | .index id x index => .expr (.index id x index) :: (x.nodes ++ index.nodes)
  | .slice id x low high max =>
      .expr (.slice id x low high max) ::
        (x.nodes ++ OptExpr.nodes low ++ OptExpr.nodes high ++ OptExpr.nodes max)
  | .typeAssert id x ty => .expr (.typeAssert id x ty) :: x.nodes
  | .call id callee args spread =>
      .expr (.call id callee args spread) :: (callee.nodes ++ Exprs.nodes args)
  | .star id x => .expr (.star id x) :: x.nodes
  | .unary id op x => .expr (.unary id op x) :: x.nodes
  | .binary id op x y => .expr (.binary id op x y) :: (x.nodes ++ y.nodes)
  | .type id ty => [.expr (.type id ty)]

def Exprs.nodes : List Expr → List Node
  | [] => []
  | e :: rest => e.nodes ++ Exprs.nodes rest

def OptExpr.nodes : Option Expr → List Node
  | none => []
  | some e => e.nodes

/-- The parts of a statement, without the statement itself. -/
def Stmt.parts : Stmt → List Node
  | .decl _ decl => decl.nodes false
  | .assign _ lhs _ rhs => Exprs.nodes lhs ++ Exprs.nodes rhs
  | .expr _ x => x.nodes
  | .incDec _ x _ => x.nodes
  | .send _ chan value => chan.nodes ++ value.nodes
  | .go _ call => call.nodes
  | .defer _ call => call.nodes
  | .ret _ values => Exprs.nodes values
  | .branch _ _ _ => []
  | .block _ body => body.nodes
  | .ifElse _ init cond body els =>
      OptStmt.headerNodes init ++ cond.nodes ++ body.nodes ++ OptStmt.nodes els
  | .switch _ init tag clauses =>
      OptStmt.headerNodes init ++ OptExpr.nodes tag ++ CaseClauses.nodes clauses
  | .typeSwitch _ init guard clauses =>
      OptStmt.headerNodes init ++ (.header guard :: guard.parts) ++ TypeClauses.nodes clauses
  | .select _ clauses => CommClauses.nodes clauses
  | .forLoop _ init cond post body =>
      OptStmt.headerNodes init ++ OptExpr.nodes cond ++ OptStmt.headerNodes post ++ body.nodes
  | .range _ key value _ x body =>
      OptExpr.nodes key ++ OptExpr.nodes value ++ x.nodes ++ body.nodes
  | .labeled _ _ stmt => .stmt stmt :: stmt.parts
  | .empty _ => []

def Stmts.nodes : List Stmt → List Node
  | [] => []
  | s :: rest => .stmt s :: s.parts ++ Stmts.nodes rest

def OptStmt.nodes : Option Stmt → List Node
  | none => []
  | some s => .stmt s :: s.parts

def OptStmt.headerNodes : Option Stmt → List Node
  | none => []
  | some s => .header s :: s.parts

def Block.nodes : Block → List Node
  | ⟨id, stmts⟩ => .block ⟨id, stmts⟩ :: Stmts.nodes stmts

def CaseClauses.nodes : List CaseClause → List Node
  | [] => []
  | ⟨_, some list, body⟩ :: rest =>
      Exprs.nodes list ++ Stmts.nodes body ++ CaseClauses.nodes rest
  | ⟨_, none, body⟩ :: rest => Stmts.nodes body ++ CaseClauses.nodes rest

def TypeClauses.nodes : List TypeClause → List Node
  | [] => []
  | ⟨_, _, body⟩ :: rest => Stmts.nodes body ++ TypeClauses.nodes rest

def CommClauses.nodes : List CommClause → List Node
  | [] => []
  | ⟨_, comm, body⟩ :: rest =>
      OptStmt.headerNodes comm ++ Stmts.nodes body ++ CommClauses.nodes rest

def Decl.nodes (topLevel : Bool) : Decl → List Node
  | ⟨id, kind, specs⟩ => .decl ⟨id, kind, specs⟩ topLevel :: Specs.nodes specs

def Specs.nodes : List Spec → List Node
  | [] => []
  | .value ⟨_, _, _, values⟩ :: rest => Exprs.nodes values ++ Specs.nodes rest
  | .type _ :: rest => Specs.nodes rest

end

def TopDecl.nodes : TopDecl → List Node
  | .decl d => d.nodes true
  | .func fn => .func fn :: fn.body.elim [] Block.nodes

def File.nodes (file : File) : List Node :=
  file.decls.flatMap TopDecl.nodes

def Node.upTo (target : NodeId) : List Node → List Node
  | [] => []
  | node :: rest => if node.id = target then [node] else node :: upTo target rest

end Desugar
