import Desugar.Syntax.Ids
import Desugar.Syntax.Nodes
import Desugar.Syntax.Visits

/-!
# Agreement of the traversals

Three traversals go over a file: the list of its identities, the list of its
nodes and the itinerary of a transforming walk.  They are compared with the sites
of the file, which are its identities in tree order, each with the role of what
carries it.  The identities are those of all sites.  The nodes are the sites of
functions, declarations, blocks, statements and expressions, one for one and in
the same order.  The itinerary comes to the same statements and expressions; only
the operand of a range loop comes earlier.
-/

namespace Desugar

inductive Role where
  | file
  | func
  | decl
  | block
  | stmt
  | expr
  | clause
  | spec
  /-- A name in binding position. -/
  | name
deriving DecidableEq

structure Site where
  role : Role
  id : NodeId
deriving DecidableEq

namespace Site

def isNode (site : Site) : Bool :=
  match site.role with
  | .func | .decl | .block | .stmt | .expr => true
  | .file | .clause | .spec | .name => false

def isOperation (site : Site) : Bool :=
  site.role == .stmt || site.role == .expr

end Site

def Node.site : Node → Site
  | .decl d _ => ⟨.decl, d.id⟩
  | .func fn => ⟨.func, fn.id⟩
  | .block b => ⟨.block, b.id⟩
  | .stmt s => ⟨.stmt, s.id⟩
  | .header s => ⟨.stmt, s.id⟩
  | .expr e => ⟨.expr, e.id⟩

/-- The site of the statement or expression that a walk comes to. -/
def Visit.operation? : Visit → Option Site
  | .stmt node => some ⟨.stmt, node⟩
  | .expr node => some ⟨.expr, node⟩
  | _ => none

theorem Visit.filterMap_within (node : NodeId) (inside : List Visit) :
    (Visit.within node inside).filterMap Visit.operation? =
      inside.filterMap Visit.operation? := by
  simp [Visit.within, List.filterMap_cons, Visit.operation?]

/-!
## Sites in tree order
-/

def Ident.site (ident : Ident) : Site :=
  ⟨.name, ident.id⟩

def Field.sites (field : Field) : List Site :=
  field.names.map Ident.site

def FuncType.sites (sig : FuncType) : List Site :=
  (sig.params ++ sig.results).flatMap Field.sites

mutual

def Expr.sites : Expr → List Site
  | .ident id _ => [⟨.expr, id⟩]
  | .lit id _ => [⟨.expr, id⟩]
  | .composite id _ elts => ⟨.expr, id⟩ :: Exprs.sites elts
  | .keyValue id key value => ⟨.expr, id⟩ :: (key.sites ++ value.sites)
  | .funcLit id sig body => ⟨.expr, id⟩ :: (sig.sites ++ body.sites)
  | .paren id x => ⟨.expr, id⟩ :: x.sites
  | .selector id x _ => ⟨.expr, id⟩ :: x.sites
  | .index id x index => ⟨.expr, id⟩ :: (x.sites ++ index.sites)
  | .slice id x low high max =>
    ⟨.expr, id⟩ :: (x.sites ++ OptExpr.sites low ++ OptExpr.sites high ++ OptExpr.sites max)
  | .typeAssert id x _ => ⟨.expr, id⟩ :: x.sites
  | .call id callee args _ => ⟨.expr, id⟩ :: (callee.sites ++ Exprs.sites args)
  | .star id x => ⟨.expr, id⟩ :: x.sites
  | .unary id _ x => ⟨.expr, id⟩ :: x.sites
  | .binary id _ x y => ⟨.expr, id⟩ :: (x.sites ++ y.sites)
  | .type id _ => [⟨.expr, id⟩]

def Exprs.sites : List Expr → List Site
  | [] => []
  | e :: rest => e.sites ++ Exprs.sites rest

def OptExpr.sites : Option Expr → List Site
  | none => []
  | some e => e.sites

def Stmt.sites : Stmt → List Site
  | .decl id decl => ⟨.stmt, id⟩ :: decl.sites
  | .assign id lhs _ rhs => ⟨.stmt, id⟩ :: (Exprs.sites lhs ++ Exprs.sites rhs)
  | .expr id x => ⟨.stmt, id⟩ :: x.sites
  | .incDec id x _ => ⟨.stmt, id⟩ :: x.sites
  | .send id chan value => ⟨.stmt, id⟩ :: (chan.sites ++ value.sites)
  | .go id call => ⟨.stmt, id⟩ :: call.sites
  | .defer id call => ⟨.stmt, id⟩ :: call.sites
  | .ret id values => ⟨.stmt, id⟩ :: Exprs.sites values
  | .branch id _ _ => [⟨.stmt, id⟩]
  | .block id body => ⟨.stmt, id⟩ :: body.sites
  | .ifElse id init cond body els =>
    ⟨.stmt, id⟩ :: (OptStmt.sites init ++ cond.sites ++ body.sites ++ OptStmt.sites els)
  | .switch id init tag clauses =>
    ⟨.stmt, id⟩ :: (OptStmt.sites init ++ OptExpr.sites tag ++ CaseClauses.sites clauses)
  | .typeSwitch id init guard clauses =>
    ⟨.stmt, id⟩ :: (OptStmt.sites init ++ guard.sites ++ TypeClauses.sites clauses)
  | .select id clauses => ⟨.stmt, id⟩ :: CommClauses.sites clauses
  | .forLoop id init cond post body =>
    ⟨.stmt, id⟩ :: (OptStmt.sites init ++ OptExpr.sites cond ++ OptStmt.sites post ++ body.sites)
  | .range id key value _ x body =>
    ⟨.stmt, id⟩ :: (OptExpr.sites key ++ OptExpr.sites value ++ x.sites ++ body.sites)
  | .labeled id _ stmt => ⟨.stmt, id⟩ :: stmt.sites
  | .empty id => [⟨.stmt, id⟩]

def Stmts.sites : List Stmt → List Site
  | [] => []
  | s :: rest => s.sites ++ Stmts.sites rest

def OptStmt.sites : Option Stmt → List Site
  | none => []
  | some s => s.sites

def Block.sites : Block → List Site
  | ⟨id, stmts⟩ => ⟨.block, id⟩ :: Stmts.sites stmts

def CaseClauses.sites : List CaseClause → List Site
  | [] => []
  | ⟨id, some list, body⟩ :: rest =>
    ⟨.clause, id⟩ :: (Exprs.sites list ++ Stmts.sites body) ++ CaseClauses.sites rest
  | ⟨id, none, body⟩ :: rest => ⟨.clause, id⟩ :: Stmts.sites body ++ CaseClauses.sites rest

def TypeClauses.sites : List TypeClause → List Site
  | [] => []
  | ⟨id, _, body⟩ :: rest => ⟨.clause, id⟩ :: Stmts.sites body ++ TypeClauses.sites rest

def CommClauses.sites : List CommClause → List Site
  | [] => []
  | ⟨id, comm, body⟩ :: rest =>
    ⟨.clause, id⟩ :: (OptStmt.sites comm ++ Stmts.sites body) ++ CommClauses.sites rest

def Decl.sites : Decl → List Site
  | ⟨id, _, specs⟩ => ⟨.decl, id⟩ :: Specs.sites specs

def Specs.sites : List Spec → List Site
  | [] => []
  | .value ⟨id, names, _, values⟩ :: rest =>
    ⟨.spec, id⟩ :: (names.map Ident.site ++ Exprs.sites values) ++ Specs.sites rest
  | .type spec :: rest => spec.name.site :: Specs.sites rest

end

def Func.sites (func : Func) : List Site :=
  ⟨.func, func.id⟩ :: func.name.site :: (func.recv.elim [] Field.sites ++ func.sig.sites ++
    func.body.elim [] Block.sites)

def TopDecl.sites : TopDecl → List Site
  | .decl d => d.sites
  | .func fn => fn.sites

def File.sites (file : File) : List Site :=
  ⟨.file, file.id⟩ :: file.decls.flatMap TopDecl.sites

/-!
## Traversals of one tree
-/

structure Traversed (sites : List Site) (ids : List NodeId) (nodes : List Node)
    (visits : List Visit) : Prop where
  ids : sites.map Site.id = ids
  nodes : nodes.map Node.site = sites.filter Site.isNode
  visits : (visits.filterMap Visit.operation?).Perm (sites.filter Site.isOperation)

namespace Traversed

variable {sites sites' : List Site} {ids ids' : List NodeId} {nodes nodes' : List Node}
  {visits visits' : List Visit} {id : NodeId}

theorem nil : Traversed [] [] [] [] :=
  ⟨rfl, rfl, .nil⟩

theorem append (h : Traversed sites ids nodes visits)
    (h' : Traversed sites' ids' nodes' visits') :
    Traversed (sites ++ sites') (ids ++ ids') (nodes ++ nodes') (visits ++ visits') where
  ids := by rw [List.map_append, h.ids, h'.ids]
  nodes := by rw [List.map_append, List.filter_append, h.nodes, h'.nodes]
  visits := by
    rw [List.filterMap_append, List.filter_append]
    exact h.visits.append h'.visits

theorem expr {e : Expr} (he : e.id = id) (h : Traversed sites ids nodes visits) :
    Traversed (⟨.expr, id⟩ :: sites) (id :: ids) (.expr e :: nodes) (.expr id :: visits) where
  ids := congrArg (id :: ·) h.ids
  nodes := by
    subst he
    exact congrArg (_ :: ·) h.nodes
  visits := h.visits.cons _

theorem stmt {s : Stmt} (hs : s.id = id) (h : Traversed sites ids nodes visits) :
    Traversed (⟨.stmt, id⟩ :: sites) (id :: ids) (.stmt s :: nodes) (.stmt id :: visits) where
  ids := congrArg (id :: ·) h.ids
  nodes := by
    subst hs
    exact congrArg (_ :: ·) h.nodes
  visits := h.visits.cons _

theorem header {s : Stmt} (h : Traversed sites ids (.stmt s :: nodes) visits) :
    Traversed sites ids (.header s :: nodes) visits :=
  ⟨h.ids, h.nodes, h.visits⟩

theorem block {b : Block} (h : Traversed sites ids nodes visits) :
    Traversed (⟨.block, b.id⟩ :: sites) (b.id :: ids) (.block b :: nodes) visits where
  ids := congrArg (b.id :: ·) h.ids
  nodes := congrArg (_ :: ·) h.nodes
  visits := h.visits

theorem decl {d : Decl} {top : Bool} (h : Traversed sites ids nodes visits) :
    Traversed (⟨.decl, d.id⟩ :: sites) (d.id :: ids) (.decl d top :: nodes)
      (.decl d.id :: visits) where
  ids := congrArg (d.id :: ·) h.ids
  nodes := congrArg (_ :: ·) h.nodes
  visits := h.visits

theorem silent (hids : sites'.map Site.id = ids')
    (hsites : ∀ site ∈ sites', site.isNode = false ∧ site.isOperation = false)
    (h : Traversed sites ids nodes visits) :
    Traversed (sites' ++ sites) (ids' ++ ids) nodes visits where
  ids := by rw [List.map_append, hids, h.ids]
  nodes := by
    have hnone : sites'.filter Site.isNode = [] :=
      List.filter_eq_nil_iff.mpr fun site hsite => by simp [(hsites site hsite).1]
    rw [List.filter_append, hnone, h.nodes, List.nil_append]
  visits := by
    have hnone : sites'.filter Site.isOperation = [] :=
      List.filter_eq_nil_iff.mpr fun site hsite => by simp [(hsites site hsite).2]
    rw [List.filter_append, hnone, List.nil_append]
    exact h.visits

theorem clause (h : Traversed sites ids nodes visits) :
    Traversed (⟨.clause, id⟩ :: sites) (id :: ids) nodes visits := by
  have hids : [(⟨.clause, id⟩ : Site)].map Site.id = [id] := rfl
  exact silent hids (by simp [Site.isNode, Site.isOperation]) h

theorem within (node : NodeId) (h : Traversed sites ids nodes visits) :
    Traversed sites ids nodes (Visit.within node visits) where
  ids := h.ids
  nodes := h.nodes
  visits := by
    rw [Visit.filterMap_within]
    exact h.visits

theorem list (owner : NodeId) (count : Nat) (h : Traversed sites ids nodes visits) :
    Traversed sites ids nodes (.list owner count :: visits) :=
  ⟨h.ids, h.nodes, h.visits⟩

theorem reorder (h : Traversed sites ids nodes visits) (hperm : visits'.Perm visits) :
    Traversed sites ids nodes visits' :=
  ⟨h.ids, h.nodes, (hperm.filterMap Visit.operation?).trans h.visits⟩

end Traversed

/-!
### Names
-/

theorem Field.map_id_sites (field : Field) : field.sites.map Site.id = field.ids := by
  simp [Field.sites, Field.ids, Ident.site, Function.comp_def]

theorem FuncType.map_id_sites (sig : FuncType) : sig.sites.map Site.id = sig.ids := by
  simp [FuncType.sites, FuncType.ids, List.map_flatMap, Field.map_id_sites]

theorem Ident.site_silent {ident : Ident} :
    ident.site.isNode = false ∧ ident.site.isOperation = false :=
  ⟨rfl, rfl⟩

theorem Field.sites_silent {field : Field} {site : Site} (h : site ∈ field.sites) :
    site.isNode = false ∧ site.isOperation = false := by
  rcases List.mem_map.mp h with ⟨name, _, rfl⟩
  exact Ident.site_silent

theorem FuncType.sites_silent {sig : FuncType} {site : Site} (h : site ∈ sig.sites) :
    site.isNode = false ∧ site.isOperation = false := by
  rcases List.mem_flatMap.mp h with ⟨field, _, hsite⟩
  exact Field.sites_silent hsite

/-!
### Syntax
-/

mutual

theorem Expr.traversed (e : Expr) : Traversed e.sites e.ids e.nodes e.visits := by
  cases e with
  | ident id name | lit id value | type id ty => exact .expr rfl .nil
  | composite id ty elts => exact .expr rfl (Exprs.traversed elts)
  | funcLit id sig body =>
    refine .expr rfl (.silent sig.map_id_sites (fun _ => FuncType.sites_silent) ?_)
    exact body.traversed.within id
  | paren id x | selector id x name | typeAssert id x ty | star id x | unary id op x =>
    exact .expr rfl x.traversed
  | keyValue id x y | index id x y | binary id op x y =>
    exact .expr rfl (x.traversed.append y.traversed)
  | slice id x low high max =>
    exact .expr rfl (((x.traversed.append (OptExpr.traversed low)).append
      (OptExpr.traversed high)).append (OptExpr.traversed max))
  | call id callee args spread =>
    exact .expr rfl (callee.traversed.append (Exprs.traversed args))

theorem Exprs.traversed (es : List Expr) :
    Traversed (Exprs.sites es) (Exprs.ids es) (Exprs.nodes es) (Exprs.visits es) := by
  cases es with
  | nil => exact .nil
  | cons e rest => exact e.traversed.append (Exprs.traversed rest)

theorem OptExpr.traversed (e : Option Expr) :
    Traversed (OptExpr.sites e) (OptExpr.ids e) (OptExpr.nodes e) (OptExpr.visits e) := by
  cases e with
  | none => exact .nil
  | some e => exact e.traversed

theorem Stmt.traversed (s : Stmt) : Traversed s.sites s.ids (.stmt s :: s.parts) s.visits := by
  cases s with
  | branch id kind label | empty id => exact .stmt rfl .nil
  | decl id d => exact .stmt rfl (d.traversed false)
  | assign id lhs op rhs =>
    exact .stmt rfl ((Exprs.traversed lhs).append (Exprs.traversed rhs))
  | expr id x | incDec id x inc | go id x | defer id x => exact .stmt rfl x.traversed
  | send id chan value => exact .stmt rfl (chan.traversed.append value.traversed)
  | ret id values => exact .stmt rfl (Exprs.traversed values)
  | block id body => exact .stmt rfl body.traversed
  | ifElse id init cond body els =>
    refine .stmt rfl (.within id ?_)
    exact (((OptStmt.traversed_header init).append cond.traversed).append
      body.traversed).append (OptStmt.traversed els)
  | switch id init tag clauses =>
    refine .stmt rfl (.within id ?_)
    exact ((OptStmt.traversed_header init).append (OptExpr.traversed tag)).append
      (CaseClauses.traversed clauses)
  | typeSwitch id init guard clauses =>
    refine .stmt rfl (.within id ?_)
    exact ((OptStmt.traversed_header init).append guard.traversed.header).append
      (TypeClauses.traversed clauses)
  | select id clauses => exact .stmt rfl (CommClauses.traversed clauses)
  | forLoop id init cond post body =>
    refine .stmt rfl (.within id ?_)
    exact (((OptStmt.traversed_header init).append (OptExpr.traversed cond)).append
      (OptStmt.traversed_header post)).append body.traversed
  | range id key value define x body =>
    -- The walk takes the operand before the iteration variables and their scope.
    have hbefore := (((OptExpr.traversed key).append (OptExpr.traversed value)).append
      x.traversed).append body.traversed
    have hperm : (x.visits ++ (OptExpr.visits key ++ OptExpr.visits value ++ body.visits)).Perm
        (OptExpr.visits key ++ OptExpr.visits value ++ x.visits ++ body.visits) := by
      rw [← List.append_assoc]
      exact List.perm_append_comm.append_right _
    have hordered := hbefore.reorder hperm
    refine .stmt rfl ⟨hordered.ids, hordered.nodes, ?_⟩
    rw [List.filterMap_append, Visit.filterMap_within, ← List.filterMap_append]
    exact hordered.visits
  | labeled id label inner => exact .stmt rfl inner.traversed

theorem Stmts.traversed (stmts : List Stmt) :
    Traversed (Stmts.sites stmts) (Stmts.ids stmts) (Stmts.nodes stmts) (Stmts.visits stmts) := by
  cases stmts with
  | nil => exact .nil
  | cons s rest => exact s.traversed.append (Stmts.traversed rest)

theorem OptStmt.traversed (s : Option Stmt) :
    Traversed (OptStmt.sites s) (OptStmt.ids s) (OptStmt.nodes s) (OptStmt.visits s) := by
  cases s with
  | none => exact .nil
  | some s => exact s.traversed

theorem OptStmt.traversed_header (s : Option Stmt) :
    Traversed (OptStmt.sites s) (OptStmt.ids s) (OptStmt.headerNodes s) (OptStmt.visits s) := by
  cases s with
  | none => exact .nil
  | some s => exact s.traversed.header

theorem Block.traversed (b : Block) : Traversed b.sites b.ids b.nodes b.visits := by
  cases b with
  | mk id stmts => exact .within id (.list id _ (.block (b := ⟨id, stmts⟩) (Stmts.traversed stmts)))

theorem CaseClauses.traversed (clauses : List CaseClause) :
    Traversed (CaseClauses.sites clauses) (CaseClauses.ids clauses) (CaseClauses.nodes clauses)
      (CaseClauses.visits clauses) := by
  match clauses with
  | [] => exact .nil
  | ⟨id, some list, body⟩ :: rest =>
    refine .append ?_ (CaseClauses.traversed rest)
    exact .clause (.within id ((Exprs.traversed list).append (.list id _ (Stmts.traversed body))))
  | ⟨id, none, body⟩ :: rest =>
    refine .append ?_ (CaseClauses.traversed rest)
    exact .clause (.within id (.list id _ (Stmts.traversed body)))

theorem TypeClauses.traversed (clauses : List TypeClause) :
    Traversed (TypeClauses.sites clauses) (TypeClauses.ids clauses) (TypeClauses.nodes clauses)
      (TypeClauses.visits clauses) := by
  match clauses with
  | [] => exact .nil
  | ⟨id, types, body⟩ :: rest =>
    refine .append ?_ (TypeClauses.traversed rest)
    exact .clause (.within id (.list id _ (Stmts.traversed body)))

theorem CommClauses.traversed (clauses : List CommClause) :
    Traversed (CommClauses.sites clauses) (CommClauses.ids clauses) (CommClauses.nodes clauses)
      (CommClauses.visits clauses) := by
  match clauses with
  | [] => exact .nil
  | ⟨id, comm, body⟩ :: rest =>
    refine .append ?_ (CommClauses.traversed rest)
    exact .clause (.within id
      ((OptStmt.traversed_header comm).append (.list id _ (Stmts.traversed body))))

theorem Decl.traversed (top : Bool) (d : Decl) :
    Traversed d.sites d.ids (d.nodes top) d.visits := by
  cases d with
  | mk id kind specs => exact .decl (d := ⟨id, kind, specs⟩) (Specs.traversed specs)

theorem Specs.traversed (specs : List Spec) :
    Traversed (Specs.sites specs) (Specs.ids specs) (Specs.nodes specs) (Specs.visits specs) := by
  match specs with
  | [] => exact .nil
  | .value ⟨id, names, ty, values⟩ :: rest =>
    refine .append ?_ (Specs.traversed rest)
    have hids : ((⟨.spec, id⟩ : Site) :: names.map Ident.site).map Site.id =
        id :: names.map Ident.id := by
      simp [Ident.site, Function.comp_def]
    exact .silent hids (by simp [Ident.site, Site.isNode, Site.isOperation])
      (Exprs.traversed values)
  | .type spec :: rest =>
    have hids : [spec.name.site].map Site.id = [spec.name.id] := rfl
    exact .silent hids (by simp [Ident.site_silent]) (Specs.traversed rest)

end

/-!
## Files
-/

theorem TopDecl.traversed (d : TopDecl) : Traversed d.sites d.ids d.nodes d.visits := by
  cases d with
  | decl d => exact d.traversed true
  | func fn =>
    have hbody : Traversed (fn.body.elim [] Block.sites) (fn.body.elim [] Block.ids)
        (fn.body.elim [] Block.nodes) (fn.body.elim [] Block.visits) := by
      cases fn.body with
      | none => exact .nil
      | some body => exact body.traversed
    have hrecv : (fn.recv.elim [] Field.sites).map Site.id = fn.recv.elim [] Field.ids := by
      cases fn.recv with
      | none => rfl
      | some field => exact field.map_id_sites
    have hnames : Traversed (fn.name.site :: (fn.recv.elim [] Field.sites ++ fn.sig.sites ++
        fn.body.elim [] Block.sites)) (fn.name.id :: (fn.recv.elim [] Field.ids ++ fn.sig.ids ++
        fn.body.elim [] Block.ids)) (fn.body.elim [] Block.nodes)
        (fn.body.elim [] Block.visits) := by
      have hids : (fn.name.site :: (fn.recv.elim [] Field.sites ++ fn.sig.sites)).map Site.id =
          fn.name.id :: (fn.recv.elim [] Field.ids ++ fn.sig.ids) := by
        rw [List.map_cons, List.map_append, hrecv, fn.sig.map_id_sites]
        rfl
      refine .silent hids (fun site hsite => ?_) hbody
      rcases List.mem_cons.mp hsite with rfl | hsite
      · exact Ident.site_silent
      · rcases List.mem_append.mp hsite with hsite | hsite
        · cases hfield : fn.recv with
          | none => simp [hfield] at hsite
          | some field =>
            rw [hfield] at hsite
            exact Field.sites_silent hsite
        · exact FuncType.sites_silent hsite
    have hscoped := hnames.within fn.id
    exact ⟨congrArg (fn.id :: ·) hscoped.ids, congrArg (_ :: ·) hscoped.nodes, hscoped.visits⟩

theorem TopDecls.traversed (decls : List TopDecl) :
    Traversed (decls.flatMap TopDecl.sites) (decls.flatMap TopDecl.ids)
      (decls.flatMap TopDecl.nodes) (decls.flatMap TopDecl.visits) := by
  induction decls with
  | nil => exact .nil
  | cons d rest ih =>
    simp only [List.flatMap_cons]
    exact d.traversed.append ih

/-- The identities of a file are those of its sites, its nodes are the sites of
functions, declarations, blocks, statements and expressions in the same order, and
a walk comes to the same statements and expressions, each as often. -/
theorem File.traversals_agree (file : File) :
    file.sites.map Site.id = file.ids ∧
      file.nodes.map Node.site = file.sites.filter Site.isNode ∧
      file.nodes.map Node.id = (file.sites.filter Site.isNode).map Site.id ∧
      (file.visits.filterMap Visit.operation?).Perm (file.sites.filter Site.isOperation) := by
  have hfile : Traversed file.sites file.ids file.nodes file.visits := by
    have hids : [(⟨.file, file.id⟩ : Site)].map Site.id = [file.id] := rfl
    exact .within file.id
      (.silent hids (by simp [Site.isNode, Site.isOperation]) (TopDecls.traversed _))
  have hsite : Node.id = Site.id ∘ Node.site := by
    funext n
    cases n <;> rfl
  refine ⟨hfile.ids, hfile.nodes, ?_, hfile.visits⟩
  rw [← hfile.nodes, hsite, List.map_map]

end Desugar
