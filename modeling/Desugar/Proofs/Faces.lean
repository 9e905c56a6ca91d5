import Desugar.Syntax.Ids
import Desugar.Syntax.Nodes

/-!
# Faces of nodes

A walk changes a node after its parts.  The face of a node is what a change of
its parts cannot touch: its constructor, its identity, its names and, for a
statement, how its header looks.  The outline of an expression or a declaration
shows the faces of its parts as well.
-/

namespace Desugar

namespace Expr

def face : Expr → Expr
  | .ident id name => .ident id name
  | .lit id value => .lit id value
  | .composite id ty _ => .composite id ty []
  | .keyValue id _ _ => .keyValue id default default
  | .funcLit id sig body => .funcLit id sig ⟨body.id, []⟩
  | .paren id _ => .paren id default
  | .selector id _ name => .selector id default name
  | .index id _ _ => .index id default default
  | .slice id _ _ _ _ => .slice id default none none none
  | .typeAssert id _ ty => .typeAssert id default ty
  | .call id _ _ spread => .call id default [] spread
  | .star id _ => .star id default
  | .unary id op _ => .unary id op default
  | .binary id op _ _ => .binary id op default default
  | .type id ty => .type id ty

def outline : Expr → Expr
  | .ident id name => .ident id name
  | .lit id value => .lit id value
  | .composite id ty elts => .composite id ty (elts.map face)
  | .keyValue id key value => .keyValue id key.face value.face
  | .funcLit id sig body => .funcLit id sig ⟨body.id, []⟩
  | .paren id x => .paren id x.face
  | .selector id x name => .selector id x.face name
  | .index id x i => .index id x.face i.face
  | .slice id x low high max =>
    .slice id x.face (low.map face) (high.map face) (max.map face)
  | .typeAssert id x ty => .typeAssert id x.face ty
  | .call id callee args spread => .call id callee.face (args.map face) spread
  | .star id x => .star id x.face
  | .unary id op x => .unary id op x.face
  | .binary id op x y => .binary id op x.face y.face
  | .type id ty => .type id ty

@[simp] theorem id_face (e : Expr) : e.face.id = e.id := by
  cases e <;> rfl

@[simp] theorem isType_face (e : Expr) : e.face.isType = e.isType := by
  cases e <;> rfl

theorem face_outline (e : Expr) : e.outline.face = e.face := by
  cases e <;> rfl

theorem face_eq_of_outline_eq {e e' : Expr} (h : e'.outline = e.outline) : e'.face = e.face := by
  rw [← face_outline e', h, face_outline]

def innerNodes (e : Expr) : List Node :=
  e.nodes.tail

theorem nodes_eq (e : Expr) : e.nodes = .expr e :: e.innerNodes := by
  cases e <;> rfl

end Expr

namespace Spec

def outline : Spec → Spec
  | .value spec => .value ⟨spec.id, spec.names, spec.ty, spec.values.map Expr.face⟩
  | .type spec => .type spec

end Spec

namespace Decl

def outline (d : Decl) : Decl :=
  ⟨d.id, d.kind, d.specs.map Spec.outline⟩

theorem id_eq_of_outline_eq {d d' : Decl} (h : d'.outline = d.outline) : d'.id = d.id := by
  injection h

theorem kind_eq_of_outline_eq {d d' : Decl} (h : d'.outline = d.outline) : d'.kind = d.kind := by
  injection h

end Decl

namespace Func

def outline (fn : Func) : Func :=
  ⟨fn.id, fn.name, fn.recv, fn.sig, fn.body.map fun body => ⟨body.id, []⟩⟩

end Func

namespace Stmt

/-- The statements that may stand in a header. -/
def isSimple : Stmt → Bool
  | .assign _ _ _ _ | .expr _ _ | .incDec _ _ _ | .send _ _ _ | .empty _ => true
  | _ => false

def isBranch : Stmt → Bool
  | .ifElse _ _ _ _ _ | .block _ _ => true
  | _ => false

def sources : Stmt → Nat
  | .assign _ _ _ rhs => rhs.length
  | _ => 0

/-- A statement of a header as its control statement shows it: how many sources
it has. -/
def headerFace (s : Stmt) : Stmt :=
  .assign default [] .assign (List.replicate s.sources default)

def elseFace (s : Stmt) : Stmt :=
  if s.isBranch then .block default ⟨default, []⟩ else .empty default

def face : Stmt → Stmt
  | .decl id d => .decl id ⟨d.id, d.kind, []⟩
  | .assign id lhs op rhs => .assign id (lhs.map Expr.face) op (rhs.map Expr.face)
  | .expr id x => .expr id x.face
  | .incDec id x inc => .incDec id x.face inc
  | .send id chan value => .send id chan.face value.face
  | .go id call => .go id call.face
  | .defer id call => .defer id call.face
  | .ret id values => .ret id (values.map Expr.face)
  | .branch id kind label => .branch id kind label
  | .block id body => .block id ⟨body.id, []⟩
  | .ifElse id init cond body els =>
    .ifElse id (init.map headerFace) cond.face ⟨body.id, []⟩ (els.map elseFace)
  | .switch id init _ clauses =>
    .switch id (init.map headerFace) none (clauses.map fun clause => ⟨clause.id, none, []⟩)
  | .typeSwitch id init guard clauses =>
    .typeSwitch id (init.map headerFace) guard.headerFace
      (clauses.map fun clause => ⟨clause.id, clause.types, []⟩)
  | .select id clauses =>
    .select id (clauses.map fun clause => ⟨clause.id, clause.comm.map headerFace, []⟩)
  | .forLoop id init cond post body =>
    .forLoop id (init.map headerFace) (cond.map Expr.face) (post.map headerFace) ⟨body.id, []⟩
  | .range id key value define x body =>
    .range id (key.map Expr.face) (value.map Expr.face) define x.face ⟨body.id, []⟩
  | .labeled id label _ => .labeled id label default
  | .empty id => .empty id

@[simp] theorem isSimple_face (s : Stmt) : s.face.isSimple = s.isSimple := by
  cases s <;> rfl

@[simp] theorem isBranch_face (s : Stmt) : s.face.isBranch = s.isBranch := by
  cases s <;> rfl

@[simp] theorem sources_face (s : Stmt) : s.face.sources = s.sources := by
  cases s <;> simp [face, sources]

@[simp] theorem sources_headerFace (s : Stmt) : s.headerFace.sources = s.sources := by
  simp [headerFace, sources]

@[simp] theorem isBranch_elseFace (s : Stmt) : s.elseFace.isBranch = s.isBranch := by
  unfold elseFace
  by_cases h : s.isBranch = true
  · rw [if_pos h, h]
    rfl
  · rw [if_neg h, Bool.eq_false_iff.mpr h]
    rfl

theorem headerFace_eq_of_face_eq {s s' : Stmt} (h : s'.face = s.face) :
    s'.headerFace = s.headerFace := by
  unfold headerFace
  rw [← sources_face s', h, sources_face]

theorem elseFace_eq_of_face_eq {s s' : Stmt} (h : s'.face = s.face) :
    s'.elseFace = s.elseFace := by
  unfold elseFace
  rw [← isBranch_face s', h, isBranch_face]

/-!
## What a statement list is responsible for

A list settles its statements with their labels and the declarations in them.
Everything deeper is settled by the time the list is.
-/

def attached : Stmt → List Node
  | .labeled _ _ s => .stmt s :: s.attached
  | .decl _ d => [.decl d false]
  | _ => []

def deep : Stmt → List Node
  | .labeled _ _ s => s.deep
  | .decl _ d => Specs.nodes d.specs
  | s => s.parts

theorem mem_parts_iff (s : Stmt) (n : Node) : n ∈ s.parts ↔ n ∈ s.attached ∨ n ∈ s.deep := by
  cases s with
  | labeled id label inner =>
    have ih := mem_parts_iff inner n
    simp only [parts, attached, deep, List.mem_cons, ih, or_assoc]
  | decl id d =>
    cases d with
    | mk declId kind specs => simp [parts, attached, deep, Decl.nodes]
  | _ => simp [attached, deep]

end Stmt

theorem Stmts.mem_nodes_iff (stmts : List Stmt) (n : Node) :
    n ∈ Stmts.nodes stmts ↔ ∃ s ∈ stmts, n = .stmt s ∨ n ∈ s.attached ∨ n ∈ s.deep := by
  induction stmts with
  | nil => simp [Stmts.nodes]
  | cons s rest ih => simp [Stmts.nodes, ih, Stmt.mem_parts_iff, or_assoc]

theorem Stmts.nodes_append (first second : List Stmt) :
    Stmts.nodes (first ++ second) = Stmts.nodes first ++ Stmts.nodes second := by
  induction first with
  | nil => rfl
  | cons s rest ih => simp [Stmts.nodes, ih]

theorem Exprs.mem_nodes_iff (es : List Expr) (n : Node) :
    n ∈ Exprs.nodes es ↔ ∃ e ∈ es, n ∈ e.nodes := by
  induction es with
  | nil => simp [Exprs.nodes]
  | cons e rest ih => simp [Exprs.nodes, ih]

/-!
## Identities that a node shows

Clauses, bodies and names in binding position are no nodes of their own.  The
node they belong to shows their identities.
-/

namespace Expr

def shownIds : Expr → List NodeId
  | .funcLit id sig body => id :: body.id :: sig.ids
  | .index id x _ => [id, x.id]
  | .slice id x _ _ _ => [id, x.id]
  | .selector id x _ => [id, x.id]
  | e => [e.id]

theorem shownIds_outline (e : Expr) : e.outline.shownIds = e.shownIds := by
  cases e <;> simp only [outline, shownIds, id_face] <;> rfl

theorem id_mem_shownIds (e : Expr) : e.id ∈ e.shownIds := by
  cases e <;> simp [shownIds, id]

end Expr

namespace Stmt

def shownIds : Stmt → List NodeId
  | .expr id x => [id, x.id]
  | .block id body => [id, body.id]
  | .ifElse id _ _ body _ => [id, body.id]
  | .switch id _ _ clauses => id :: clauses.map CaseClause.id
  | .typeSwitch id _ _ clauses => id :: clauses.map TypeClause.id
  | .select id clauses => id :: clauses.map CommClause.id
  | .forLoop id _ _ _ body => [id, body.id]
  | .range id _ _ _ _ body => [id, body.id]
  | s => [s.id]

theorem shownIds_face (s : Stmt) : s.face.shownIds = s.shownIds := by
  cases s <;> simp only [face, shownIds, Expr.id_face, List.map_map] <;> rfl

end Stmt

def Stmt.operands : Stmt → List NodeId
  | .expr _ x => [x.id]
  | _ => []

def OptStmt.operands (s : Option Stmt) : List NodeId :=
  s.elim [] Stmt.operands

def Stmt.discards : Stmt → List NodeId
  | .expr _ x => [x.id]
  | .ifElse _ init _ _ _ | .switch _ init _ _ | .typeSwitch _ init _ _ => OptStmt.operands init
  | .forLoop _ init _ post _ => OptStmt.operands init ++ OptStmt.operands post
  | _ => []

namespace Spec

def shownIds : Spec → List NodeId
  | .value spec => spec.id :: spec.names.map Ident.id
  | .type spec => [spec.name.id]

theorem shownIds_outline (spec : Spec) : spec.outline.shownIds = spec.shownIds := by
  cases spec <;> rfl

end Spec

namespace Decl

def shownIds (d : Decl) : List NodeId :=
  d.id :: d.specs.flatMap Spec.shownIds

theorem shownIds_outline (d : Decl) : d.outline.shownIds = d.shownIds := by
  simp [shownIds, outline, List.flatMap_map, Spec.shownIds_outline]

end Decl

namespace Func

def shownIds (fn : Func) : List NodeId :=
  fn.id :: fn.name.id :: (fn.recv.elim [] Field.ids ++ fn.sig.ids ++ (fn.body.map Block.id).toList)

theorem shownIds_outline (fn : Func) : fn.outline.shownIds = fn.shownIds := by
  simp only [shownIds, outline, Option.map_map]
  rfl

end Func
end Desugar
