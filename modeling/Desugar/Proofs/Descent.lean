import Desugar.Proofs.Execution
import Desugar.Proofs.Faces

/-!
# Syntax and its parts

All forms of syntax in one family.
-/

namespace Desugar

inductive Form where
  | expr | exprs | optExpr
  | missingTag (listed : Bool) (id : NodeId) (init : Option Stmt) (clauses : List CaseClause)
  | stmt (listed : Bool) | stmts | optStmt (listed : Bool)
  | list (owner : NodeId) | block
  | caseClause | caseClauses | typeClause | typeClauses | commClause | commClauses
  | decl (top : Bool) | specs
  | topDecl | topDecls | file
  | scope (node : NodeId)

abbrev Form.Tree : Form → Type
  | .expr => Expr
  | .exprs => List Expr
  | .optExpr | .missingTag _ _ _ _ => Option Expr
  | .stmt _ => Stmt
  | .stmts | .list _ => List Stmt
  | .optStmt _ => Option Stmt
  | .block => Block
  | .caseClause => CaseClause
  | .caseClauses => List CaseClause
  | .typeClause => TypeClause
  | .typeClauses => List TypeClause
  | .commClause => CommClause
  | .commClauses => List CommClause
  | .decl _ => Decl
  | .specs => List Spec
  | .topDecl => TopDecl
  | .topDecls => List TopDecl
  | .file => File
  | .scope _ => Unit

abbrev Parts : List Form → Type
  | [] => Unit
  | f :: fs => f.Tree × Parts fs

structure Makeup (α : Type) where
  forms : List Form
  parts : Parts forms
  make : Parts forms → α

abbrev Makeup.leaf {α : Type} (a : α) : Makeup α :=
  ⟨[], (), fun _ => a⟩

namespace Form

def makeup : (f : Form) → f.Tree → Makeup f.Tree
  | .expr, .composite id ty elts =>
    ⟨[.exprs], (elts, ()), fun (elts, _) => .composite id ty elts⟩
  | .expr, .keyValue id key value =>
    ⟨[.expr, .expr], (key, value, ()), fun (key, value, _) => .keyValue id key value⟩
  | .expr, .funcLit id sig body =>
    ⟨[.scope id, .block], ((), body, ()), fun (_, body, _) => .funcLit id sig body⟩
  | .expr, .paren id x => ⟨[.expr], (x, ()), fun (x, _) => .paren id x⟩
  | .expr, .selector id x name => ⟨[.expr], (x, ()), fun (x, _) => .selector id x name⟩
  | .expr, .index id x i => ⟨[.expr, .expr], (x, i, ()), fun (x, i, _) => .index id x i⟩
  | .expr, .slice id x low high max =>
    ⟨[.expr, .optExpr, .optExpr, .optExpr], (x, low, high, max, ()),
      fun (x, low, high, max, _) => .slice id x low high max⟩
  | .expr, .typeAssert id x ty => ⟨[.expr], (x, ()), fun (x, _) => .typeAssert id x ty⟩
  | .expr, .call id callee args spread =>
    ⟨[.expr, .exprs], (callee, args, ()), fun (callee, args, _) => .call id callee args spread⟩
  | .expr, .star id x => ⟨[.expr], (x, ()), fun (x, _) => .star id x⟩
  | .expr, .unary id op x => ⟨[.expr], (x, ()), fun (x, _) => .unary id op x⟩
  | .expr, .binary id op x y => ⟨[.expr, .expr], (x, y, ()), fun (x, y, _) => .binary id op x y⟩
  | .exprs, e :: rest => ⟨[.expr, .exprs], (e, rest, ()), fun (e, rest, _) => e :: rest⟩
  | .optExpr, some e => ⟨[.expr], (e, ()), fun (e, _) => some e⟩
  | .stmt _, .decl id d => ⟨[.decl false], (d, ()), fun (d, _) => .decl id d⟩
  | .stmt _, .assign id lhs op rhs =>
    ⟨[.exprs, .exprs], (lhs, rhs, ()), fun (lhs, rhs, _) => .assign id lhs op rhs⟩
  | .stmt _, .expr id x => ⟨[.expr], (x, ()), fun (x, _) => .expr id x⟩
  | .stmt _, .incDec id x inc => ⟨[.expr], (x, ()), fun (x, _) => .incDec id x inc⟩
  | .stmt _, .send id chan value =>
    ⟨[.expr, .expr], (chan, value, ()), fun (chan, value, _) => .send id chan value⟩
  | .stmt _, .go id call => ⟨[.expr], (call, ()), fun (call, _) => .go id call⟩
  | .stmt _, .defer id call => ⟨[.expr], (call, ()), fun (call, _) => .defer id call⟩
  | .stmt _, .ret id values => ⟨[.exprs], (values, ()), fun (values, _) => .ret id values⟩
  | .stmt _, .block id body => ⟨[.block], (body, ()), fun (body, _) => .block id body⟩
  | .stmt _, .ifElse id init cond body els =>
    ⟨[.scope id, .optStmt false, .expr, .block, .optStmt true], ((), init, cond, body, els, ()),
      fun (_, init, cond, body, els, _) => .ifElse id init cond body els⟩
  | .stmt listed, .switch id init none clauses =>
    ⟨[.missingTag listed id init clauses, .scope id, .optStmt false, .caseClauses],
      (none, (), init, clauses, ()), fun (tag, _, init, clauses, _) => .switch id init tag clauses⟩
  | .stmt _, .switch id init (some tag) clauses =>
    ⟨[.scope id, .optStmt false, .expr, .caseClauses], ((), init, tag, clauses, ()),
      fun (_, init, tag, clauses, _) => .switch id init (some tag) clauses⟩
  | .stmt _, .typeSwitch id init guard clauses =>
    ⟨[.scope id, .optStmt false, .stmt false, .typeClauses], ((), init, guard, clauses, ()),
      fun (_, init, guard, clauses, _) => .typeSwitch id init guard clauses⟩
  | .stmt _, .select id clauses =>
    ⟨[.commClauses], (clauses, ()), fun (clauses, _) => .select id clauses⟩
  | .stmt _, .forLoop id init cond post body =>
    ⟨[.scope id, .optStmt false, .optExpr, .optStmt false, .block],
      ((), init, cond, post, body, ()),
      fun (_, init, cond, post, body, _) => .forLoop id init cond post body⟩
  | .stmt _, .range id key value define x body =>
    ⟨[.expr, .scope id, .optExpr, .optExpr, .block], (x, (), key, value, body, ()),
      fun (x, _, key, value, body, _) => .range id key value define x body⟩
  | .stmt _, .labeled id label s =>
    ⟨[.stmt true], (s, ()), fun (s, _) => .labeled id label s⟩
  | .stmts, s :: rest => ⟨[.stmt true, .stmts], (s, rest, ()), fun (s, rest, _) => s :: rest⟩
  | .optStmt listed, some s => ⟨[.stmt listed], (s, ()), fun (s, _) => some s⟩
  | .list _, body => ⟨[.stmts], (body, ()), fun (body, _) => body⟩
  | .block, ⟨id, body⟩ =>
    ⟨[.scope id, .list id], ((), body, ()), fun (_, body, _) => ⟨id, body⟩⟩
  | .caseClause, ⟨id, some values, body⟩ =>
    ⟨[.scope id, .exprs, .list id], ((), values, body, ()),
      fun (_, values, body, _) => ⟨id, some values, body⟩⟩
  | .caseClause, ⟨id, none, body⟩ =>
    ⟨[.scope id, .list id], ((), body, ()), fun (_, body, _) => ⟨id, none, body⟩⟩
  | .caseClauses, c :: rest =>
    ⟨[.caseClause, .caseClauses], (c, rest, ()), fun (c, rest, _) => c :: rest⟩
  | .typeClause, ⟨id, types, body⟩ =>
    ⟨[.scope id, .list id], ((), body, ()), fun (_, body, _) => ⟨id, types, body⟩⟩
  | .typeClauses, c :: rest =>
    ⟨[.typeClause, .typeClauses], (c, rest, ()), fun (c, rest, _) => c :: rest⟩
  | .commClause, ⟨id, comm, body⟩ =>
    ⟨[.scope id, .optStmt false, .list id], ((), comm, body, ()),
      fun (_, comm, body, _) => ⟨id, comm, body⟩⟩
  | .commClauses, c :: rest =>
    ⟨[.commClause, .commClauses], (c, rest, ()), fun (c, rest, _) => c :: rest⟩
  | .decl _, ⟨id, kind, all⟩ => ⟨[.specs], (all, ()), fun (all, _) => ⟨id, kind, all⟩⟩
  | .specs, .value ⟨id, names, ty, values⟩ :: rest =>
    ⟨[.exprs, .specs], (values, rest, ()),
      fun (values, rest, _) => .value ⟨id, names, ty, values⟩ :: rest⟩
  | .specs, .type spec :: rest => ⟨[.specs], (rest, ()), fun (rest, _) => .type spec :: rest⟩
  | .topDecl, .decl d => ⟨[.decl true], (d, ()), fun (d, _) => .decl d⟩
  | .topDecl, .func ⟨id, name, recv, sig, some body⟩ =>
    ⟨[.scope id, .block], ((), body, ()), fun (_, body, _) => .func ⟨id, name, recv, sig, body⟩⟩
  | .topDecl, .func ⟨id, name, recv, sig, none⟩ =>
    ⟨[.scope id], ((), ()), fun _ => .func ⟨id, name, recv, sig, none⟩⟩
  | .topDecls, d :: rest => ⟨[.topDecl, .topDecls], (d, rest, ()), fun (d, rest, _) => d :: rest⟩
  | .file, ⟨id, package, path, imports, decls⟩ =>
    ⟨[.scope id, .topDecls], ((), decls, ()),
      fun (_, decls, _) => ⟨id, package, path, imports, decls⟩⟩
  | .expr, .ident id name => .leaf (.ident id name)
  | .expr, .lit id value => .leaf (.lit id value)
  | .expr, .type id ty => .leaf (.type id ty)
  | .stmt _, .branch id kind label => .leaf (.branch id kind label)
  | .stmt _, .empty id => .leaf (.empty id)
  | .exprs, [] | .stmts, [] | .caseClauses, [] | .typeClauses, [] | .commClauses, []
  | .specs, [] | .topDecls, [] => .leaf []
  | .optExpr, none | .optStmt _, none => .leaf none
  | .missingTag _ _ _ _, tag => .leaf tag
  | .scope _, inside => .leaf inside

end Form

def Stmt.node (listed : Bool) (s : Stmt) : Node :=
  bif listed then .stmt s else .header s

def CaseClause.nodes (c : CaseClause) : List Node :=
  c.list.elim [] Exprs.nodes ++ Stmts.nodes c.body

def TypeClause.nodes (c : TypeClause) : List Node :=
  Stmts.nodes c.body

def CommClause.nodes (c : CommClause) : List Node :=
  OptStmt.headerNodes c.comm ++ Stmts.nodes c.body

namespace Form

def nodes : (f : Form) → f.Tree → List Node
  | .expr, e => e.nodes
  | .exprs, es => Exprs.nodes es
  | .optExpr, e | .missingTag _ _ _ _, e => OptExpr.nodes e
  | .stmt listed, s => s.node listed :: s.parts
  | .stmts, body | .list _, body => Stmts.nodes body
  | .optStmt listed, s => s.elim [] fun s => s.node listed :: s.parts
  | .block, b => b.nodes
  | .caseClause, c => c.nodes
  | .caseClauses, cs => CaseClauses.nodes cs
  | .typeClause, c => c.nodes
  | .typeClauses, cs => TypeClauses.nodes cs
  | .commClause, c => c.nodes
  | .commClauses, cs => CommClauses.nodes cs
  | .decl top, d => d.nodes top
  | .specs, all => Specs.nodes all
  | .topDecl, d => d.nodes
  | .topDecls, ds => ds.flatMap TopDecl.nodes
  | .file, whole => whole.nodes
  | .scope _, _ => []

def own : (f : Form) → f.Tree → List Node
  | .expr, e => [.expr e]
  | .stmt listed, s => [s.node listed]
  | .block, b => [.block b]
  | .decl top, d => [.decl d top]
  | .topDecl, .func fn => [.func fn]
  | .missingTag _ _ _ _, tag => OptExpr.nodes tag
  | _, _ => []

end Form

def Parts.collect {α : Type} (all : (f : Form) → f.Tree → List α) :
    (fs : List Form) → Parts fs → List α
  | [], _ => []
  | f :: fs, parts => all f parts.1 ++ Parts.collect all fs parts.2

abbrev Parts.nodes (fs : List Form) (parts : Parts fs) : List Node :=
  Parts.collect Form.nodes fs parts

theorem Form.make_parts (f : Form) (x : f.Tree) :
    (f.makeup x).make (f.makeup x).parts = x := by
  fun_cases Form.makeup f x <;> rfl

theorem OptStmt.nodes_eq (s : Option Stmt) : OptStmt.nodes s = (Form.optStmt true).nodes s := by
  cases s <;> rfl

theorem OptStmt.headerNodes_eq (s : Option Stmt) :
    OptStmt.headerNodes s = (Form.optStmt false).nodes s := by
  cases s <;> rfl

theorem CaseClauses.nodes_cons (c : CaseClause) (rest : List CaseClause) :
    CaseClauses.nodes (c :: rest) = c.nodes ++ CaseClauses.nodes rest := by
  rcases c with ⟨id, _ | values, body⟩ <;> rfl

theorem TypeClauses.nodes_cons (c : TypeClause) (rest : List TypeClause) :
    TypeClauses.nodes (c :: rest) = c.nodes ++ TypeClauses.nodes rest := by
  cases c
  rfl

theorem CommClauses.nodes_cons (c : CommClause) (rest : List CommClause) :
    CommClauses.nodes (c :: rest) = c.nodes ++ CommClauses.nodes rest := by
  cases c
  rfl

theorem Form.nodes_make (f : Form) (x : f.Tree) (parts : Parts (f.makeup x).forms) :
    (f.nodes ((f.makeup x).make parts)).Perm
      (f.own ((f.makeup x).make parts) ++ Parts.nodes _ parts) := by
  revert parts
  fun_cases Form.makeup f x
  all_goals intro parts
  all_goals simp [Form.makeup, Form.nodes, Form.own, Parts.nodes, Parts.collect, Expr.nodes,
    Exprs.nodes, OptExpr.nodes, Stmt.parts, Stmts.nodes, Block.nodes, CaseClause.nodes,
    TypeClause.nodes, CommClause.nodes, CaseClauses.nodes, CaseClauses.nodes_cons,
    TypeClauses.nodes, TypeClauses.nodes_cons, CommClauses.nodes, CommClauses.nodes_cons,
    Decl.nodes, Specs.nodes, TopDecl.nodes, File.nodes, OptStmt.nodes_eq, OptStmt.headerNodes_eq,
    Stmt.node]
  case case25 => exact List.perm_append_comm_assoc _ _ _
  case case30 =>
    exact ((List.perm_append_comm_assoc _ _ _).append_left _).trans
      (List.perm_append_comm_assoc _ _ _)

namespace Form

variable (t : Transformer)

def hook : (f : Form) → f.Tree → PassM f.Tree
  | .expr, e => t.expr e
  | .stmt _, s => t.stmt s
  | .decl _, d => t.decl d
  | .list owner, body => t.list owner body
  | .missingTag _ _ _ _, _ => t.missingTag
  | _, x => pure x

def around {α : Type} : Form → PassM α → PassM α
  | .scope node, m => PassM.within node m
  | _, m => m

end Form

def CaseClause.transform (t : Transformer) : CaseClause → PassM CaseClause
  | ⟨id, some values, body⟩ => PassM.within id do
      let values ← Exprs.transform t values
      let body ← Stmts.transform t body
      let body ← t.list id body
      return ⟨id, some values, body⟩
  | ⟨id, none, body⟩ => PassM.within id do
      let body ← Stmts.transform t body
      let body ← t.list id body
      return ⟨id, none, body⟩

def TypeClause.transform (t : Transformer) : TypeClause → PassM TypeClause
  | ⟨id, types, body⟩ => PassM.within id do
      let body ← Stmts.transform t body
      let body ← t.list id body
      return ⟨id, types, body⟩

def CommClause.transform (t : Transformer) : CommClause → PassM CommClause
  | ⟨id, comm, body⟩ => PassM.within id do
      let comm ← OptStmt.transform t comm
      let body ← Stmts.transform t body
      let body ← t.list id body
      return ⟨id, comm, body⟩

theorem CaseClauses.transform_cons (t : Transformer) (c : CaseClause) (rest : List CaseClause) :
    CaseClauses.transform t (c :: rest) =
      c.transform t >>= fun c => (c :: ·) <$> CaseClauses.transform t rest := by
  rcases c with ⟨id, _ | values, body⟩ <;> simp [CaseClauses.transform, CaseClause.transform]

theorem TypeClauses.transform_cons (t : Transformer) (c : TypeClause) (rest : List TypeClause) :
    TypeClauses.transform t (c :: rest) =
      c.transform t >>= fun c => (c :: ·) <$> TypeClauses.transform t rest := by
  cases c
  simp [TypeClauses.transform, TypeClause.transform]

theorem CommClauses.transform_cons (t : Transformer) (c : CommClause) (rest : List CommClause) :
    CommClauses.transform t (c :: rest) =
      c.transform t >>= fun c => (c :: ·) <$> CommClauses.transform t rest := by
  cases c
  simp [CommClauses.transform, CommClause.transform]

def Form.transform (t : Transformer) : (f : Form) → f.Tree → PassM f.Tree
  | .expr, e => e.transform t
  | .exprs, es => Exprs.transform t es
  | .optExpr, e => OptExpr.transform t e
  | .missingTag _ _ _ _, _ => t.missingTag
  | .stmt _, s => s.transform t
  | .stmts, body => Stmts.transform t body
  | .optStmt _, s => OptStmt.transform t s
  | .list owner, body => Stmts.transform t body >>= t.list owner
  | .block, b => b.transform t
  | .caseClause, c => c.transform t
  | .caseClauses, cs => CaseClauses.transform t cs
  | .typeClause, c => c.transform t
  | .typeClauses, cs => TypeClauses.transform t cs
  | .commClause, c => c.transform t
  | .commClauses, cs => CommClauses.transform t cs
  | .decl _, d => d.transform t
  | .specs, all => Specs.transform t all
  | .topDecl, d => d.transform t
  | .topDecls, ds => ds.mapM (TopDecl.transform t)
  | .file, whole => whole.transform t
  | .scope _, u => pure u

def Parts.transform (t : Transformer) : (fs : List Form) → Parts fs → PassM (Parts fs)
  | [], _ => pure ()
  | f :: fs, parts => do
      let x ← f.transform t parts.1
      let rest ← f.around (Parts.transform t fs parts.2)
      return (x, rest)

/-!
## Induction
-/

def Parts.All (P : (f : Form) → f.Tree → Prop) : (fs : List Form) → Parts fs → Prop
  | [], _ => True
  | f :: fs, parts => P f parts.1 ∧ Parts.All P fs parts.2

noncomputable def Form.size : (f : Form) → f.Tree → Nat
  | .expr, e => 2 * sizeOf e
  | .exprs, es => 2 * sizeOf es
  | .optExpr, e | .missingTag _ _ _ _, e => 2 * sizeOf e
  | .stmt _, s => 2 * sizeOf s
  | .stmts, body => 2 * sizeOf body
  | .list _, body => 2 * sizeOf body + 1
  | .optStmt _, s => 2 * sizeOf s
  | .block, b => 2 * sizeOf b
  | .caseClause, c => 2 * sizeOf c
  | .caseClauses, cs => 2 * sizeOf cs
  | .typeClause, c => 2 * sizeOf c
  | .typeClauses, cs => 2 * sizeOf cs
  | .commClause, c => 2 * sizeOf c
  | .commClauses, cs => 2 * sizeOf cs
  | .decl _, d => 2 * sizeOf d
  | .specs, all => 2 * sizeOf all
  | .topDecl, d => 2 * sizeOf d
  | .topDecls, ds => 2 * sizeOf ds
  | .file, whole => 2 * sizeOf whole
  | .scope _, _ => 0

theorem Form.size_parts (f : Form) (x : f.Tree) :
    Parts.All (fun g y => g.size y < f.size x) _ (f.makeup x).parts := by
  fun_cases Form.makeup f x
  all_goals simp [Form.makeup, Parts.All, Form.size]
  all_goals omega

theorem Parts.All.mono {P Q : (f : Form) → f.Tree → Prop} (h : ∀ f x, P f x → Q f x) :
    ∀ {fs : List Form} {parts : Parts fs}, Parts.All P fs parts → Parts.All Q fs parts
  | [], _, _ => trivial
  | _ :: _, _, hall => ⟨h _ _ hall.1, hall.2.mono h⟩

theorem Parts.All.and {P Q : (f : Form) → f.Tree → Prop} :
    ∀ {fs : List Form} {parts : Parts fs}, Parts.All P fs parts → Parts.All Q fs parts →
      Parts.All (fun f x => P f x ∧ Q f x) fs parts
  | [], _, _, _ => trivial
  | _ :: _, _, hp, hq => ⟨⟨hp.1, hq.1⟩, hp.2.and hq.2⟩

theorem Form.induction {P : (f : Form) → f.Tree → Prop}
    (h : ∀ f x, Parts.All P _ (f.makeup x).parts → P f x) (f : Form) (x : f.Tree) : P f x :=
  h f x ((f.size_parts x).mono fun g y _ => induction h g y)
termination_by f.size x

theorem Parts.forall_collect_iff {α : Type} {all : (f : Form) → f.Tree → List α} {P : α → Prop} :
    ∀ {fs : List Form} {parts : Parts fs},
      (∀ n ∈ Parts.collect all fs parts, P n) ↔ Parts.All (fun f y => ∀ n ∈ all f y, P n) fs parts
  | [], _ => by simp [Parts.collect, Parts.All]
  | f :: fs, parts => by
      rw [Parts.collect, List.forall_mem_append, forall_collect_iff]
      rfl

theorem Form.mem_nodes_iff (f : Form) (x : f.Tree) (n : Node) :
    n ∈ f.nodes x ↔ n ∈ f.own x ∨ n ∈ Parts.nodes _ (f.makeup x).parts := by
  have hperm := f.nodes_make x (f.makeup x).parts
  rw [f.make_parts] at hperm
  rw [hperm.mem_iff, List.mem_append]

/-- All nodes of syntax have a property; for a missing tag, the statement that it is
missing from. -/
def Form.Holds (P : Node → Prop) : (f : Form) → f.Tree → Prop
  | .missingTag listed id init clauses, tag =>
    tag = none ∧ P ((Stmt.switch id init none clauses).node listed)
  | f, x => ∀ n ∈ f.nodes x, P n

theorem Form.Holds.parts {P : Node → Prop} {f : Form} {x : f.Tree} (h : f.Holds P x) :
    Parts.All (fun f y => f.Holds P y) _ (f.makeup x).parts := by
  have hnodes := fun hnodes : ∀ n ∈ f.nodes x, P n => Parts.forall_collect_iff.mp fun n hn =>
    hnodes n ((f.mem_nodes_iff x n).mpr (.inr hn))
  revert h hnodes
  fun_cases Form.makeup f x
  all_goals intro h hnodes
  case case25 => exact ⟨⟨rfl, h _ (.head _)⟩, (hnodes h).2⟩
  all_goals first | exact hnodes h | trivial

theorem Form.transform_make (t : Transformer) (f : Form) (x : f.Tree)
    (new : Parts (f.makeup x).forms)
    (hnew : Parts.All (fun g y => g.Holds (fun _ => True) y) _ new) :
    f.transform t ((f.makeup x).make new) =
      Parts.transform t _ new >>= fun parts => f.hook t ((f.makeup x).make parts) := by
  revert new
  fun_cases Form.makeup f x
  all_goals intro new hnew
  case case25 =>
    rcases new with ⟨_, _, _, _, _⟩
    cases hnew.1.1
    simp [Form.transform, Form.hook, Form.makeup, Parts.transform, Form.around, Stmt.transform,
      PassM.within]
  all_goals simp [Form.transform, Form.hook, Form.makeup, Parts.transform, Form.around,
    Expr.transform, Exprs.transform, OptExpr.transform, Stmt.transform, Stmts.transform,
    OptStmt.transform, Block.transform, CaseClauses.transform, TypeClauses.transform,
    CommClauses.transform, CaseClauses.transform_cons, TypeClauses.transform_cons,
    CommClauses.transform_cons, CaseClause.transform, TypeClause.transform, CommClause.transform,
    Decl.transform, Specs.transform, TopDecl.transform, File.transform, PassM.within]

theorem Form.transform_eq (t : Transformer) (f : Form) (x : f.Tree) :
    f.transform t x = Parts.transform t _ (f.makeup x).parts >>= fun parts =>
      f.hook t ((f.makeup x).make parts) := by
  have hparts : Parts.All (fun g y => g.Holds (fun _ => True) y) _ (f.makeup x).parts := by
    cases f with
    | missingTag => trivial
    | _ => exact Form.Holds.parts fun _ _ => trivial
  rw [← Form.transform_make t f x _ hparts, f.make_parts]

/-!
## Identities
-/

def Expr.boundIds : Expr → List NodeId
  | .funcLit _ sig _ => sig.ids
  | _ => []

namespace Form

def ids : (f : Form) → f.Tree → List NodeId
  | .expr, e => e.ids
  | .exprs, es => Exprs.ids es
  | .optExpr, e | .missingTag _ _ _ _, e => OptExpr.ids e
  | .stmt _, s => s.ids
  | .stmts, body | .list _, body => Stmts.ids body
  | .optStmt _, s => OptStmt.ids s
  | .block, b => b.ids
  | .caseClause, c => CaseClauses.ids [c]
  | .caseClauses, cs => CaseClauses.ids cs
  | .typeClause, c => TypeClauses.ids [c]
  | .typeClauses, cs => TypeClauses.ids cs
  | .commClause, c => CommClauses.ids [c]
  | .commClauses, cs => CommClauses.ids cs
  | .decl _, d => d.ids
  | .specs, all => Specs.ids all
  | .topDecl, d => d.ids
  | .topDecls, ds => ds.flatMap TopDecl.ids
  | .file, whole => whole.ids
  | .scope _, _ => []

def ownIds : (f : Form) → f.Tree → List NodeId
  | .expr, e => e.id :: e.boundIds
  | .missingTag _ _ _ _, e => OptExpr.ids e
  | .stmt _, s => [s.id]
  | .block, b => [b.id]
  | .caseClause, c => [c.id]
  | .typeClause, c => [c.id]
  | .commClause, c => [c.id]
  | .decl _, d => [d.id]
  | .specs, all => all.head?.elim [] Spec.shownIds
  | .topDecl, .func fn => fn.id :: fn.name.id :: (fn.recv.elim [] Field.ids ++ fn.sig.ids)
  | .file, whole => [whole.id]
  | _, _ => []

end Form

theorem CaseClauses.ids_cons (c : CaseClause) (rest : List CaseClause) :
    CaseClauses.ids (c :: rest) = CaseClauses.ids [c] ++ CaseClauses.ids rest := by
  rcases c with ⟨id, _ | values, body⟩ <;> simp [CaseClauses.ids]

theorem TypeClauses.ids_cons (c : TypeClause) (rest : List TypeClause) :
    TypeClauses.ids (c :: rest) = TypeClauses.ids [c] ++ TypeClauses.ids rest := by
  cases c
  simp [TypeClauses.ids]

theorem CommClauses.ids_cons (c : CommClause) (rest : List CommClause) :
    CommClauses.ids (c :: rest) = CommClauses.ids [c] ++ CommClauses.ids rest := by
  cases c
  simp [CommClauses.ids]

theorem Form.ids_perm (f : Form) (x : f.Tree) :
    (f.ids x).Perm (f.ownIds x ++ Parts.collect Form.ids _ (f.makeup x).parts) := by
  fun_cases Form.makeup f x
  case case38 =>
    simpa [Form.makeup, Form.ids, Form.ownIds, Parts.collect] using
      .of_eq (CaseClauses.ids_cons _ _)
  case case40 =>
    simpa [Form.makeup, Form.ids, Form.ownIds, Parts.collect] using
      .of_eq (TypeClauses.ids_cons _ _)
  case case42 =>
    simpa [Form.makeup, Form.ids, Form.ownIds, Parts.collect] using
      .of_eq (CommClauses.ids_cons _ _)
  all_goals simp [Form.makeup, Form.ids, Form.ownIds, Parts.collect, Expr.ids, Expr.id,
    Expr.boundIds, Exprs.ids, OptExpr.ids, Stmt.ids, Stmt.id, Stmts.ids, OptStmt.ids, Block.ids,
    CaseClauses.ids, TypeClauses.ids, CommClauses.ids, Decl.ids, Specs.ids, Spec.shownIds,
    TopDecl.ids, Func.ids, File.ids]
  case case30 =>
    exact ((List.perm_append_comm_assoc _ _ _).append_left _).trans
      (List.perm_append_comm_assoc _ _ _)

/-!
## Walks
-/

structure PassM.Logic where
  reach : Pass → Pass → Prop
  ensures : {α : Type} → Pass → PassM α → (α → Pass → Prop) → Prop
  refl : ∀ p, reach p p
  trans : ∀ {p q r}, reach p q → reach q r → reach p r
  pure : ∀ {α : Type} {p : Pass} {a : α} {post : α → Pass → Prop},
    post a p → ensures p (Pure.pure a) post
  bind : ∀ {α β : Type} {p : Pass} {m : PassM α} {f : α → PassM β} {mid : α → Pass → Prop}
    {post : β → Pass → Prop}, ensures p m mid →
    (∀ a q, reach p q → mid a q → ensures q (f a) post) → ensures p (m >>= f) post
  within : ∀ {α : Type} {p : Pass} {node : NodeId} {m : PassM α} {post : α → Pass → Prop},
    (∀ a q r, reach q r → post a q → post a r) → (∀ q, reach p q → ensures q m post) →
    ensures p (PassM.within node m) post

theorem PassM.Logic.mono {L : PassM.Logic} {α : Type} {p : Pass} {m : PassM α}
    {mid post : α → Pass → Prop} (h : L.ensures p m mid)
    (himp : ∀ a q, L.reach p q → mid a q → post a q) : L.ensures p m post := by
  rw [← bind_pure m]
  exact L.bind h fun a q hq ha => L.pure (himp a q hq ha)

def Parts.Chain (reach : Pass → Pass → Prop)
    (post : (f : Form) → f.Tree → f.Tree → Pass → Pass → Prop) :
    (fs : List Form) → Parts fs → Parts fs → Pass → Pass → Prop
  | [], _, _, p, q => reach p q
  | f :: fs, old, new, p, r =>
    ∃ q, reach p q ∧ post f old.1 new.1 p q ∧ Chain reach post fs old.2 new.2 q r

def Parts.All₂ (R : (f : Form) → f.Tree → f.Tree → Prop) :
    (fs : List Form) → Parts fs → Parts fs → Prop
  | [], _, _ => True
  | f :: fs, old, new => R f old.1 new.1 ∧ Parts.All₂ R fs old.2 new.2

theorem Parts.Chain.all₂ {reach : Pass → Pass → Prop}
    {post : (f : Form) → f.Tree → f.Tree → Pass → Pass → Prop}
    {R : (f : Form) → f.Tree → f.Tree → Prop} {fs : List Form} {old new : Parts fs} {p q : Pass}
    (h : Parts.Chain reach post fs old new p q) (himp : ∀ f x x' p q, post f x x' p q → R f x x') :
    Parts.All₂ R fs old new := by
  induction fs generalizing p with
  | nil => trivial
  | cons f fs ih =>
    rcases h with ⟨_, _, hx, hrest⟩
    exact ⟨himp _ _ _ _ _ hx, ih hrest⟩

theorem Parts.Chain.all {reach : Pass → Pass → Prop}
    {post : (f : Form) → f.Tree → f.Tree → Pass → Pass → Prop}
    {P : Pass → (f : Form) → f.Tree → Prop} {fs : List Form} {old new : Parts fs} {p q : Pass}
    (h : Parts.Chain reach post fs old new p q)
    (htrans : ∀ {p q r}, reach p q → reach q r → reach p r)
    (hmono : ∀ {f x p q}, reach p q → P p f x → P q f x)
    (himp : ∀ f x x' p q, post f x x' p q → P q f x') :
    reach p q ∧ Parts.All (P q) fs new := by
  induction fs generalizing p with
  | nil => exact ⟨h, trivial⟩
  | cons f fs ih =>
    rcases h with ⟨r, hpr, hx, hrest⟩
    rcases ih hrest with ⟨hrq, hall⟩
    exact ⟨htrans hpr hrq, hmono hrq (himp _ _ _ _ _ hx), hall⟩

/-- A walk goes from the precondition of all syntax to its postcondition when the
hooks do. -/
structure Transformer.Walks (t : Transformer) (L : PassM.Logic)
    (pre : (f : Form) → f.Tree → Pass → Prop)
    (post : (f : Form) → f.Tree → f.Tree → Pass → Pass → Prop) : Prop where
  pre_mono : ∀ {f x p q}, L.reach p q → pre f x p → pre f x q
  earlier : ∀ {f x x' p q r}, pre f x p → L.reach p q → post f x x' q r → post f x x' p r
  later : ∀ {f x x' p q r}, L.reach q r → post f x x' p q → post f x x' p r
  parts : ∀ {f x p}, pre f x p → Parts.All (fun f y => pre f y p) _ (f.makeup x).parts
  hook : ∀ {f x p q} (new), pre f x p → L.reach p q →
    Parts.Chain L.reach post _ (f.makeup x).parts new p q →
    L.ensures q (f.hook t ((f.makeup x).make new)) (fun x' r => post f x x' p r)

namespace Transformer.Walks

variable {t : Transformer} {L : PassM.Logic} {pre : (f : Form) → f.Tree → Pass → Prop}
  {post : (f : Form) → f.Tree → f.Tree → Pass → Pass → Prop}

theorem chain_later {fs : List Form} {old new : Parts fs} {p q r : Pass}
    (hqr : L.reach q r) (hchain : Parts.Chain L.reach post fs old new p q) :
    Parts.Chain L.reach post fs old new p r := by
  induction fs generalizing p with
  | nil => exact L.trans hchain hqr
  | cons f fs ih =>
    rcases hchain with ⟨o, hpo, hpost, hrest⟩
    exact ⟨o, hpo, hpost, ih hrest⟩

theorem chain_earlier (h : t.Walks L pre post) {fs : List Form} {old new : Parts fs}
    {p q r : Pass} (hpre : Parts.All (fun f x => pre f x p) fs old) (hpq : L.reach p q)
    (hchain : Parts.Chain L.reach post fs old new q r) :
    Parts.Chain L.reach post fs old new p r := by
  cases fs with
  | nil => exact L.trans hpq hchain
  | cons f fs =>
    rcases hchain with ⟨o, hqo, hpost, hrest⟩
    exact ⟨o, L.trans hpq hqo, h.earlier hpre.1 hpq hpost, hrest⟩

theorem ensures_parts (h : t.Walks L pre post) {fs : List Form} {old : Parts fs} {p : Pass}
    (hold : Parts.All (fun f x => ∀ p, pre f x p →
      L.ensures p (f.transform t x) (fun x' q => post f x x' p q)) fs old)
    (hpre : Parts.All (fun f x => pre f x p) fs old) :
    L.ensures p (Parts.transform t fs old)
      (fun new q => Parts.Chain L.reach post fs old new p q) := by
  induction fs generalizing p with
  | nil => exact L.pure (L.refl p)
  | cons f fs ih =>
    refine L.bind (hold.1 p hpre.1) fun x q hpq hx => ?_
    have hlater : ∀ r, L.reach q r → Parts.All (fun f x => pre f x r) fs old.2 := by
      intro r hqr
      exact hpre.2.mono fun _ _ => h.pre_mono (L.trans hpq hqr)
    have hinside : L.ensures q (f.around (Parts.transform t fs old.2))
        (fun new r => Parts.Chain L.reach post fs old.2 new q r) := by
      unfold Form.around
      split
      · refine L.within (fun _ _ _ hqr => chain_later hqr) fun r hqr => ?_
        refine L.mono (ih hold.2 (hlater r hqr)) fun new u _ hchain => ?_
        exact h.chain_earlier (hlater q (L.refl q)) hqr hchain
      · exact ih hold.2 (hlater q (L.refl q))
    exact L.bind hinside fun rest r _ hrest => L.pure ⟨q, hpq, hx, hrest⟩

theorem ensures (h : t.Walks L pre post) (f : Form) (x : f.Tree) {p : Pass}
    (hpre : pre f x p) : L.ensures p (f.transform t x) (fun x' q => post f x x' p q) := by
  induction f, x using Form.induction generalizing p with
  | h f x ih =>
    rw [Form.transform_eq]
    refine L.bind (h.ensures_parts ih (h.parts hpre)) fun new q hpq hchain => ?_
    exact h.hook new hpre hpq hchain

end Transformer.Walks

end Desugar
