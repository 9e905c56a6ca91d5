import Desugar.Syntax.Basic

/-!
# Node identities in tree order

`ids` lists every identity of a tree: a node before its parts, the parts from
left to right, names in binding position included.  `mapIds` rebuilds a tree
and hands its identities, in the same order, to an effectful renaming.
-/

namespace Desugar

def Field.ids (field : Field) : List NodeId :=
  field.names.map Ident.id

def FuncType.ids (sig : FuncType) : List NodeId :=
  (sig.params ++ sig.results).flatMap Field.ids

mutual

def Expr.ids : Expr → List NodeId
  | .ident id _ => [id]
  | .lit id _ => [id]
  | .composite id _ elts => id :: Exprs.ids elts
  | .keyValue id key value => id :: (key.ids ++ value.ids)
  | .funcLit id sig body => id :: (sig.ids ++ body.ids)
  | .paren id x => id :: x.ids
  | .selector id x _ => id :: x.ids
  | .index id x index => id :: (x.ids ++ index.ids)
  | .slice id x low high max =>
      id :: (x.ids ++ OptExpr.ids low ++ OptExpr.ids high ++ OptExpr.ids max)
  | .typeAssert id x _ => id :: x.ids
  | .call id callee args _ => id :: (callee.ids ++ Exprs.ids args)
  | .star id x => id :: x.ids
  | .unary id _ x => id :: x.ids
  | .binary id _ x y => id :: (x.ids ++ y.ids)
  | .type id _ => [id]

def Exprs.ids : List Expr → List NodeId
  | [] => []
  | e :: rest => e.ids ++ Exprs.ids rest

def OptExpr.ids : Option Expr → List NodeId
  | none => []
  | some e => e.ids

def Stmt.ids : Stmt → List NodeId
  | .decl id decl => id :: decl.ids
  | .assign id lhs _ rhs => id :: (Exprs.ids lhs ++ Exprs.ids rhs)
  | .expr id x => id :: x.ids
  | .incDec id x _ => id :: x.ids
  | .send id chan value => id :: (chan.ids ++ value.ids)
  | .go id call => id :: call.ids
  | .defer id call => id :: call.ids
  | .ret id values => id :: Exprs.ids values
  | .branch id _ _ => [id]
  | .block id body => id :: body.ids
  | .ifElse id init cond body els =>
      id :: (OptStmt.ids init ++ cond.ids ++ body.ids ++ OptStmt.ids els)
  | .switch id init tag clauses =>
      id :: (OptStmt.ids init ++ OptExpr.ids tag ++ CaseClauses.ids clauses)
  | .typeSwitch id init guard clauses =>
      id :: (OptStmt.ids init ++ guard.ids ++ TypeClauses.ids clauses)
  | .select id clauses => id :: CommClauses.ids clauses
  | .forLoop id init cond post body =>
      id :: (OptStmt.ids init ++ OptExpr.ids cond ++ OptStmt.ids post ++ body.ids)
  | .range id key value _ x body =>
      id :: (OptExpr.ids key ++ OptExpr.ids value ++ x.ids ++ body.ids)
  | .labeled id _ stmt => id :: stmt.ids
  | .empty id => [id]

def Stmts.ids : List Stmt → List NodeId
  | [] => []
  | s :: rest => s.ids ++ Stmts.ids rest

def OptStmt.ids : Option Stmt → List NodeId
  | none => []
  | some s => s.ids

def Block.ids : Block → List NodeId
  | ⟨id, stmts⟩ => id :: Stmts.ids stmts

def CaseClauses.ids : List CaseClause → List NodeId
  | [] => []
  | ⟨id, some list, body⟩ :: rest =>
      id :: (Exprs.ids list ++ Stmts.ids body) ++ CaseClauses.ids rest
  | ⟨id, none, body⟩ :: rest => id :: Stmts.ids body ++ CaseClauses.ids rest

def TypeClauses.ids : List TypeClause → List NodeId
  | [] => []
  | ⟨id, _, body⟩ :: rest => id :: Stmts.ids body ++ TypeClauses.ids rest

def CommClauses.ids : List CommClause → List NodeId
  | [] => []
  | ⟨id, comm, body⟩ :: rest =>
      id :: (OptStmt.ids comm ++ Stmts.ids body) ++ CommClauses.ids rest

def Decl.ids : Decl → List NodeId
  | ⟨id, _, specs⟩ => id :: Specs.ids specs

def Specs.ids : List Spec → List NodeId
  | [] => []
  | .value ⟨id, names, _, values⟩ :: rest =>
      id :: (names.map Ident.id ++ Exprs.ids values) ++ Specs.ids rest
  | .type spec :: rest => spec.name.id :: Specs.ids rest

end

def Func.ids (func : Func) : List NodeId :=
  func.id :: func.name.id :: (func.recv.elim [] Field.ids ++ func.sig.ids ++
    func.body.elim [] Block.ids)

def TopDecl.ids : TopDecl → List NodeId
  | .decl d => d.ids
  | .func fn => fn.ids

def File.ids (file : File) : List NodeId :=
  file.id :: file.decls.flatMap TopDecl.ids

/-- The largest identity used anywhere in the file. -/
def File.maxId (file : File) : NodeId :=
  file.ids.foldl NodeId.larger file.id

/-!
## Renaming
-/

variable {m : Type → Type} [Monad m] (f : NodeId → m NodeId)

def Ident.mapId (ident : Ident) : m Ident := do
  return ⟨← f ident.id, ident.name⟩

def Field.mapIds (field : Field) : m Field := do
  return ⟨← field.names.mapM (Ident.mapId f), field.ty⟩

def FuncType.mapIds (sig : FuncType) : m FuncType := do
  let params ← sig.params.mapM (Field.mapIds f)
  let results ← sig.results.mapM (Field.mapIds f)
  return ⟨params, results, sig.variadic⟩

mutual

def Expr.mapIds : Expr → m Expr
  | .ident id name => do
      return .ident (← f id) name
  | .lit id value => do
      return .lit (← f id) value
  | .composite id ty elts => do
      let id ← f id
      return .composite id ty (← Exprs.mapIds elts)
  | .keyValue id key value => do
      let id ← f id
      let key ← key.mapIds
      let value ← value.mapIds
      return .keyValue id key value
  | .funcLit id sig body => do
      let id ← f id
      let sig ← sig.mapIds f
      let body ← body.mapIds
      return .funcLit id sig body
  | .paren id x => do
      let id ← f id
      return .paren id (← x.mapIds)
  | .selector id x name => do
      let id ← f id
      return .selector id (← x.mapIds) name
  | .index id x index => do
      let id ← f id
      let x ← x.mapIds
      let index ← index.mapIds
      return .index id x index
  | .slice id x low high max => do
      let id ← f id
      let x ← x.mapIds
      let low ← OptExpr.mapIds low
      let high ← OptExpr.mapIds high
      let max ← OptExpr.mapIds max
      return .slice id x low high max
  | .typeAssert id x ty => do
      let id ← f id
      return .typeAssert id (← x.mapIds) ty
  | .call id callee args spread => do
      let id ← f id
      let callee ← callee.mapIds
      let args ← Exprs.mapIds args
      return .call id callee args spread
  | .star id x => do
      let id ← f id
      return .star id (← x.mapIds)
  | .unary id op x => do
      let id ← f id
      return .unary id op (← x.mapIds)
  | .binary id op x y => do
      let id ← f id
      let x ← x.mapIds
      let y ← y.mapIds
      return .binary id op x y
  | .type id ty => do
      return .type (← f id) ty

def Exprs.mapIds : List Expr → m (List Expr)
  | [] => return []
  | e :: rest => do
      let e ← e.mapIds
      return e :: (← Exprs.mapIds rest)

def OptExpr.mapIds : Option Expr → m (Option Expr)
  | none => return none
  | some e => do
      return some (← e.mapIds)

def Stmt.mapIds : Stmt → m Stmt
  | .decl id decl => do
      let id ← f id
      return .decl id (← decl.mapIds)
  | .assign id lhs op rhs => do
      let id ← f id
      let lhs ← Exprs.mapIds lhs
      let rhs ← Exprs.mapIds rhs
      return .assign id lhs op rhs
  | .expr id x => do
      let id ← f id
      return .expr id (← x.mapIds)
  | .incDec id x inc => do
      let id ← f id
      return .incDec id (← x.mapIds) inc
  | .send id chan value => do
      let id ← f id
      let chan ← chan.mapIds
      let value ← value.mapIds
      return .send id chan value
  | .go id call => do
      let id ← f id
      return .go id (← call.mapIds)
  | .defer id call => do
      let id ← f id
      return .defer id (← call.mapIds)
  | .ret id values => do
      let id ← f id
      return .ret id (← Exprs.mapIds values)
  | .branch id kind label => do
      return .branch (← f id) kind label
  | .block id body => do
      let id ← f id
      return .block id (← body.mapIds)
  | .ifElse id init cond body els => do
      let id ← f id
      let init ← OptStmt.mapIds init
      let cond ← cond.mapIds
      let body ← body.mapIds
      let els ← OptStmt.mapIds els
      return .ifElse id init cond body els
  | .switch id init tag clauses => do
      let id ← f id
      let init ← OptStmt.mapIds init
      let tag ← OptExpr.mapIds tag
      let clauses ← CaseClauses.mapIds clauses
      return .switch id init tag clauses
  | .typeSwitch id init guard clauses => do
      let id ← f id
      let init ← OptStmt.mapIds init
      let guard ← guard.mapIds
      let clauses ← TypeClauses.mapIds clauses
      return .typeSwitch id init guard clauses
  | .select id clauses => do
      let id ← f id
      return .select id (← CommClauses.mapIds clauses)
  | .forLoop id init cond post body => do
      let id ← f id
      let init ← OptStmt.mapIds init
      let cond ← OptExpr.mapIds cond
      let post ← OptStmt.mapIds post
      let body ← body.mapIds
      return .forLoop id init cond post body
  | .range id key value define x body => do
      let id ← f id
      let key ← OptExpr.mapIds key
      let value ← OptExpr.mapIds value
      let x ← x.mapIds
      let body ← body.mapIds
      return .range id key value define x body
  | .labeled id label stmt => do
      let id ← f id
      return .labeled id label (← stmt.mapIds)
  | .empty id => do
      return .empty (← f id)

def Stmts.mapIds : List Stmt → m (List Stmt)
  | [] => return []
  | s :: rest => do
      let s ← s.mapIds
      return s :: (← Stmts.mapIds rest)

def OptStmt.mapIds : Option Stmt → m (Option Stmt)
  | none => return none
  | some s => do
      return some (← s.mapIds)

def Block.mapIds : Block → m Block
  | ⟨id, stmts⟩ => do
      let id ← f id
      return ⟨id, ← Stmts.mapIds stmts⟩

def CaseClauses.mapIds : List CaseClause → m (List CaseClause)
  | [] => return []
  | ⟨id, some list, body⟩ :: rest => do
      let id ← f id
      let list ← Exprs.mapIds list
      let body ← Stmts.mapIds body
      return ⟨id, some list, body⟩ :: (← CaseClauses.mapIds rest)
  | ⟨id, none, body⟩ :: rest => do
      let id ← f id
      let body ← Stmts.mapIds body
      return ⟨id, none, body⟩ :: (← CaseClauses.mapIds rest)

def TypeClauses.mapIds : List TypeClause → m (List TypeClause)
  | [] => return []
  | ⟨id, types, body⟩ :: rest => do
      let id ← f id
      let body ← Stmts.mapIds body
      return ⟨id, types, body⟩ :: (← TypeClauses.mapIds rest)

def CommClauses.mapIds : List CommClause → m (List CommClause)
  | [] => return []
  | ⟨id, comm, body⟩ :: rest => do
      let id ← f id
      let comm ← OptStmt.mapIds comm
      let body ← Stmts.mapIds body
      return ⟨id, comm, body⟩ :: (← CommClauses.mapIds rest)

def Decl.mapIds : Decl → m Decl
  | ⟨id, kind, specs⟩ => do
      let id ← f id
      return ⟨id, kind, ← Specs.mapIds specs⟩

def Specs.mapIds : List Spec → m (List Spec)
  | [] => return []
  | .value ⟨id, names, ty, values⟩ :: rest => do
      let id ← f id
      let names ← names.mapM (Ident.mapId f)
      let values ← Exprs.mapIds values
      return .value ⟨id, names, ty, values⟩ :: (← Specs.mapIds rest)
  | .type spec :: rest => do
      let name ← spec.name.mapId f
      return .type ⟨name, spec.ty, spec.isAlias⟩ :: (← Specs.mapIds rest)

end

end Desugar
