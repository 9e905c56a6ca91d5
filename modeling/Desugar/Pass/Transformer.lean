import Desugar.Pass.Monad
import Desugar.Syntax.Labels

/-!
# Transforming walks

A transformer changes nodes on the way back from their parts: expressions,
statements, declarations, and the statement lists of blocks and clauses.  Only
the missing tag of a switch is supplied on the way in.  The walk keeps the
scopes in force, and comes to the nodes in the order of the itinerary.
-/

namespace Desugar

structure Transformer where
  expr : Expr → PassM Expr := pure
  stmt : Stmt → PassM Stmt := pure
  decl : Decl → PassM Decl := pure
  list : NodeId → List Stmt → PassM (List Stmt) := fun _ stmts => pure stmts
  missingTag : PassM (Option Expr) := pure none

mutual

def Expr.transform (t : Transformer) : Expr → PassM Expr
  | .ident id name => t.expr (.ident id name)
  | .lit id value => t.expr (.lit id value)
  | .composite id ty elts => do
      let elts ← Exprs.transform t elts
      t.expr (.composite id ty elts)
  | .keyValue id key value => do
      let key ← key.transform t
      let value ← value.transform t
      t.expr (.keyValue id key value)
  | .funcLit id sig body => do
      let body ← PassM.within id (body.transform t)
      t.expr (.funcLit id sig body)
  | .paren id x => do
      let x ← x.transform t
      t.expr (.paren id x)
  | .selector id x name => do
      let x ← x.transform t
      t.expr (.selector id x name)
  | .index id x index => do
      let x ← x.transform t
      let index ← index.transform t
      t.expr (.index id x index)
  | .slice id x low high max => do
      let x ← x.transform t
      let low ← OptExpr.transform t low
      let high ← OptExpr.transform t high
      let max ← OptExpr.transform t max
      t.expr (.slice id x low high max)
  | .typeAssert id x ty => do
      let x ← x.transform t
      t.expr (.typeAssert id x ty)
  | .call id callee args spread => do
      let callee ← callee.transform t
      let args ← Exprs.transform t args
      t.expr (.call id callee args spread)
  | .star id x => do
      let x ← x.transform t
      t.expr (.star id x)
  | .unary id op x => do
      let x ← x.transform t
      t.expr (.unary id op x)
  | .binary id op x y => do
      let x ← x.transform t
      let y ← y.transform t
      t.expr (.binary id op x y)
  | .type id ty => t.expr (.type id ty)

def Exprs.transform (t : Transformer) : List Expr → PassM (List Expr)
  | [] => pure []
  | e :: rest => do
      let e ← e.transform t
      let rest ← Exprs.transform t rest
      return e :: rest

def OptExpr.transform (t : Transformer) : Option Expr → PassM (Option Expr)
  | none => pure none
  | some e => do
      let e ← e.transform t
      return some e

def Stmt.transform (t : Transformer) : Stmt → PassM Stmt
  | .decl id decl => do
      let decl ← decl.transform t
      t.stmt (.decl id decl)
  | .assign id lhs op rhs => do
      let lhs ← Exprs.transform t lhs
      let rhs ← Exprs.transform t rhs
      t.stmt (.assign id lhs op rhs)
  | .expr id x => do
      let x ← x.transform t
      t.stmt (.expr id x)
  | .incDec id x inc => do
      let x ← x.transform t
      t.stmt (.incDec id x inc)
  | .send id chan value => do
      let chan ← chan.transform t
      let value ← value.transform t
      t.stmt (.send id chan value)
  | .go id call => do
      let call ← call.transform t
      t.stmt (.go id call)
  | .defer id call => do
      let call ← call.transform t
      t.stmt (.defer id call)
  | .ret id values => do
      let values ← Exprs.transform t values
      t.stmt (.ret id values)
  | .branch id kind label => t.stmt (.branch id kind label)
  | .block id body => do
      let body ← body.transform t
      t.stmt (.block id body)
  | .ifElse id init cond body els => do
      let s ← PassM.within id do
        let init ← OptStmt.transform t init
        let cond ← cond.transform t
        let body ← body.transform t
        let els ← OptStmt.transform t els
        return .ifElse id init cond body els
      t.stmt s
  | .switch id init none clauses => do
      let tag ← t.missingTag
      let s ← PassM.within id do
        let init ← OptStmt.transform t init
        let clauses ← CaseClauses.transform t clauses
        return .switch id init tag clauses
      t.stmt s
  | .switch id init (some tag) clauses => do
      let s ← PassM.within id do
        let init ← OptStmt.transform t init
        let tag ← tag.transform t
        let clauses ← CaseClauses.transform t clauses
        return .switch id init (some tag) clauses
      t.stmt s
  | .typeSwitch id init guard clauses => do
      let s ← PassM.within id do
        let init ← OptStmt.transform t init
        let guard ← guard.transform t
        let clauses ← TypeClauses.transform t clauses
        return .typeSwitch id init guard clauses
      t.stmt s
  | .select id clauses => do
      let clauses ← CommClauses.transform t clauses
      t.stmt (.select id clauses)
  | .forLoop id init cond post body => do
      let s ← PassM.within id do
        let init ← OptStmt.transform t init
        let cond ← OptExpr.transform t cond
        let post ← OptStmt.transform t post
        let body ← body.transform t
        return .forLoop id init cond post body
      t.stmt s
  | .range id key value define x body => do
      let x ← x.transform t
      let s ← PassM.within id do
        let key ← OptExpr.transform t key
        let value ← OptExpr.transform t value
        let body ← body.transform t
        return .range id key value define x body
      t.stmt s
  | .labeled id label stmt => do
      let stmt ← stmt.transform t
      t.stmt (.labeled id label stmt)
  | .empty id => t.stmt (.empty id)

def Stmts.transform (t : Transformer) : List Stmt → PassM (List Stmt)
  | [] => pure []
  | s :: rest => do
      let s ← s.transform t
      let rest ← Stmts.transform t rest
      return s :: rest

def OptStmt.transform (t : Transformer) : Option Stmt → PassM (Option Stmt)
  | none => pure none
  | some s => do
      let s ← s.transform t
      return some s

def Block.transform (t : Transformer) : Block → PassM Block
  | ⟨id, stmts⟩ => PassM.within id do
      let stmts ← Stmts.transform t stmts
      let stmts ← t.list id stmts
      return ⟨id, stmts⟩

def CaseClauses.transform (t : Transformer) : List CaseClause → PassM (List CaseClause)
  | [] => pure []
  | ⟨id, some list, body⟩ :: rest => do
      let clause ← PassM.within id do
        let list ← Exprs.transform t list
        let body ← Stmts.transform t body
        let body ← t.list id body
        return ⟨id, some list, body⟩
      let rest ← CaseClauses.transform t rest
      return clause :: rest
  | ⟨id, none, body⟩ :: rest => do
      let clause ← PassM.within id do
        let body ← Stmts.transform t body
        let body ← t.list id body
        return ⟨id, none, body⟩
      let rest ← CaseClauses.transform t rest
      return clause :: rest

def TypeClauses.transform (t : Transformer) : List TypeClause → PassM (List TypeClause)
  | [] => pure []
  | ⟨id, types, body⟩ :: rest => do
      let clause ← PassM.within id do
        let body ← Stmts.transform t body
        let body ← t.list id body
        return ⟨id, types, body⟩
      let rest ← TypeClauses.transform t rest
      return clause :: rest

def CommClauses.transform (t : Transformer) : List CommClause → PassM (List CommClause)
  | [] => pure []
  | ⟨id, comm, body⟩ :: rest => do
      let clause ← PassM.within id do
        let comm ← OptStmt.transform t comm
        let body ← Stmts.transform t body
        let body ← t.list id body
        return ⟨id, comm, body⟩
      let rest ← CommClauses.transform t rest
      return clause :: rest

def Decl.transform (t : Transformer) : Decl → PassM Decl
  | ⟨id, kind, specs⟩ => do
      let specs ← Specs.transform t specs
      t.decl ⟨id, kind, specs⟩

def Specs.transform (t : Transformer) : List Spec → PassM (List Spec)
  | [] => pure []
  | .value ⟨id, names, ty, values⟩ :: rest => do
      let values ← Exprs.transform t values
      let rest ← Specs.transform t rest
      return .value ⟨id, names, ty, values⟩ :: rest
  | .type spec :: rest => do
      let rest ← Specs.transform t rest
      return .type spec :: rest

end

def TopDecl.transform (t : Transformer) : TopDecl → PassM TopDecl
  | .decl d => return .decl (← d.transform t)
  | .func fn => PassM.within fn.id do
      match fn.body with
      | none => return .func fn
      | some body => return .func { fn with body := some (← body.transform t) }

def File.transform (t : Transformer) (file : File) : PassM File :=
  PassM.within file.id do
    let decls ← file.decls.mapM (TopDecl.transform t)
    return { file with decls := decls }

namespace Transformer

/-- Transform the file of the pass, and tell how many changes that took. -/
def run (t : Transformer) : PassM Nat := do
  PassM.startWalk
  let file ← (← PassM.getFile).transform t
  PassM.setFile file
  return (← get).changes

/-- Let each statement of a list keep its place, or be replaced by any number of
statements; every replacement is a change. -/
def splice (replace : Stmt → PassM (Option (List Stmt))) : List Stmt → PassM (List Stmt)
  | [] => pure []
  | s :: rest => do
      match ← replace s with
      | none => do
          let rest ← splice replace rest
          return s :: rest
      | some stmts => do
          PassM.countChange
          let rest ← splice replace rest
          return stmts ++ rest

end Transformer
end Desugar
