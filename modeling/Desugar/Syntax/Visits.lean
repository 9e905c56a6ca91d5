import Desugar.Syntax.Basic

/-!
# The itinerary of a transforming walk

The order in which a transforming pass comes to the nodes of a file, together with
the points where it enters and leaves the nodes that may own a lexical scope.
The operand of a range loop comes before the loop's scope, since the iteration
variables are not visible in it.
-/

namespace Desugar

inductive Visit where
  | enter (node : NodeId)
  | exit (node : NodeId)
  | decl (node : NodeId)
  | list (owner : NodeId) (count : Nat)
  | stmt (node : NodeId)
  | expr (node : NodeId)
deriving DecidableEq

namespace Visit

def describe : Visit → String
  | .enter node => "enter" ++ toString node
  | .exit node => "exit" ++ toString node
  | .decl node => "decl" ++ toString node
  | .list owner count => "list" ++ toString owner ++ "*" ++ toString count
  | .stmt node => "stmt" ++ toString node
  | .expr node => "expr" ++ toString node

def within (node : NodeId) (inside : List Visit) : List Visit :=
  .enter node :: (inside ++ [.exit node])

end Visit

mutual

def Expr.visits : Expr → List Visit
  | .ident id _ => [.expr id]
  | .lit id _ => [.expr id]
  | .composite id _ elts => .expr id :: Exprs.visits elts
  | .keyValue id key value => .expr id :: (key.visits ++ value.visits)
  | .funcLit id _ body => .expr id :: Visit.within id body.visits
  | .paren id x => .expr id :: x.visits
  | .selector id x _ => .expr id :: x.visits
  | .index id x index => .expr id :: (x.visits ++ index.visits)
  | .slice id x low high max =>
      .expr id :: (x.visits ++ OptExpr.visits low ++ OptExpr.visits high ++ OptExpr.visits max)
  | .typeAssert id x _ => .expr id :: x.visits
  | .call id callee args _ => .expr id :: (callee.visits ++ Exprs.visits args)
  | .star id x => .expr id :: x.visits
  | .unary id _ x => .expr id :: x.visits
  | .binary id _ x y => .expr id :: (x.visits ++ y.visits)
  | .type id _ => [.expr id]

def Exprs.visits : List Expr → List Visit
  | [] => []
  | e :: rest => e.visits ++ Exprs.visits rest

def OptExpr.visits : Option Expr → List Visit
  | none => []
  | some e => e.visits

def Stmt.visits : Stmt → List Visit
  | .decl id decl => .stmt id :: decl.visits
  | .assign id lhs _ rhs => .stmt id :: (Exprs.visits lhs ++ Exprs.visits rhs)
  | .expr id x => .stmt id :: x.visits
  | .incDec id x _ => .stmt id :: x.visits
  | .send id chan value => .stmt id :: (chan.visits ++ value.visits)
  | .go id call => .stmt id :: call.visits
  | .defer id call => .stmt id :: call.visits
  | .ret id values => .stmt id :: Exprs.visits values
  | .branch id _ _ => [.stmt id]
  | .block id body => .stmt id :: body.visits
  | .ifElse id init cond body els =>
      .stmt id :: Visit.within id
        (OptStmt.visits init ++ cond.visits ++ body.visits ++ OptStmt.visits els)
  | .switch id init tag clauses =>
      .stmt id :: Visit.within id
        (OptStmt.visits init ++ OptExpr.visits tag ++ CaseClauses.visits clauses)
  | .typeSwitch id init guard clauses =>
      .stmt id :: Visit.within id
        (OptStmt.visits init ++ guard.visits ++ TypeClauses.visits clauses)
  | .select id clauses => .stmt id :: CommClauses.visits clauses
  | .forLoop id init cond post body =>
      .stmt id :: Visit.within id
        (OptStmt.visits init ++ OptExpr.visits cond ++ OptStmt.visits post ++ body.visits)
  | .range id key value _ x body =>
      .stmt id :: (x.visits ++ Visit.within id
        (OptExpr.visits key ++ OptExpr.visits value ++ body.visits))
  | .labeled id _ stmt => .stmt id :: stmt.visits
  | .empty id => [.stmt id]

def Stmts.visits : List Stmt → List Visit
  | [] => []
  | s :: rest => s.visits ++ Stmts.visits rest

def OptStmt.visits : Option Stmt → List Visit
  | none => []
  | some s => s.visits

def Block.visits : Block → List Visit
  | ⟨id, stmts⟩ => Visit.within id (.list id stmts.length :: Stmts.visits stmts)

def CaseClauses.visits : List CaseClause → List Visit
  | [] => []
  | ⟨id, some list, body⟩ :: rest =>
      Visit.within id (Exprs.visits list ++ .list id body.length :: Stmts.visits body) ++
        CaseClauses.visits rest
  | ⟨id, none, body⟩ :: rest =>
      Visit.within id (.list id body.length :: Stmts.visits body) ++ CaseClauses.visits rest

def TypeClauses.visits : List TypeClause → List Visit
  | [] => []
  | ⟨id, _, body⟩ :: rest =>
      Visit.within id (.list id body.length :: Stmts.visits body) ++ TypeClauses.visits rest

def CommClauses.visits : List CommClause → List Visit
  | [] => []
  | ⟨id, comm, body⟩ :: rest =>
      Visit.within id (OptStmt.visits comm ++ .list id body.length :: Stmts.visits body) ++
        CommClauses.visits rest

def Decl.visits : Decl → List Visit
  | ⟨id, _, specs⟩ => .decl id :: Specs.visits specs

def Specs.visits : List Spec → List Visit
  | [] => []
  | .value ⟨_, _, _, values⟩ :: rest => Exprs.visits values ++ Specs.visits rest
  | .type _ :: rest => Specs.visits rest

end

def TopDecl.visits : TopDecl → List Visit
  | .decl d => d.visits
  | .func fn => Visit.within fn.id (fn.body.elim [] Block.visits)

def File.visits (file : File) : List Visit :=
  Visit.within file.id (file.decls.flatMap TopDecl.visits)

end Desugar
