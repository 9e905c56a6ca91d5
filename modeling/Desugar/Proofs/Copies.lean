import Desugar.Proofs.Relabelling
import Desugar.Proofs.Settlement
import Desugar.Syntax.Copy

/-!
# Copies

A copy of a statement has the shape of the original, and whatever the table
records for a node it records for the copy as well.  So a copy has the traits of
the original.
-/

namespace Desugar

open Node (All)

/-!
## Facts of a copy
-/

namespace SymbolTable

structure Alike (table : SymbolTable) (id id' : NodeId) : Prop where
  exprTypes : table.exprTypes[id']? = table.exprTypes[id]?
  selections : table.selections[id']? = table.selections[id]?
  defs : table.defs[id']? = table.defs[id]?
  uses : table.uses[id']? = table.uses[id]?

theorem extends_copyFacts {bound : Nat} {table : SymbolTable} {node : NodeId} (source : NodeId)
    (hnode : bound ≤ node.val.toNat) : table.Extends bound (table.copyFacts source node) := by
  have hentry : ∀ {α : Type} (facts : NodeMap α) (id : NodeId), id.Below bound →
      (copyEntry source node facts)[id]? = facts[id]? := by
    intro α facts id hid
    unfold copyEntry
    cases facts[source]? with
    | none => rfl
    | some fact => exact NodeMap.getElem?_insert_of_ne (hid.ne hnode)
  exact { Extends.refl bound table with
    exprTypes := hentry _
    selections := hentry _
    defs := hentry _
    uses := hentry _ }

theorem mem_copyEntry {α : Type} {source node id : NodeId} {facts : NodeMap α}
    (h : id ∈ copyEntry source node facts) : id ∈ facts ∨ id = node := by
  unfold copyEntry at h
  cases hfact : facts[source]? with
  | none =>
    rw [hfact] at h
    exact .inl h
  | some fact =>
    rw [hfact] at h
    exact NodeMap.mem_or_eq h

theorem recorded_copyFacts {table : SymbolTable} {source node id : NodeId}
    (h : (table.copyFacts source node).Recorded id) : table.Recorded id ∨ id = node :=
  h.or_eq mem_copyEntry mem_copyEntry mem_copyEntry mem_copyEntry mem_copyEntry

theorem getElem?_copyEntry {α : Type} {source node : NodeId} {facts : NodeMap α}
    (hfresh : node ∉ facts) (hne : node ≠ source) :
    (copyEntry source node facts)[node]? = (copyEntry source node facts)[source]? := by
  unfold copyEntry
  cases hfact : facts[source]? with
  | none =>
    rw [Std.ExtTreeMap.getElem?_eq_none hfresh]
    exact hfact.symm
  | some fact =>
    rw [Std.ExtTreeMap.getElem?_insert_self, NodeMap.getElem?_insert_of_ne hne]
    exact hfact.symm

theorem alike_copyFacts {table : SymbolTable} {source node : NodeId}
    (hfresh : ¬ table.Recorded node) (hne : node ≠ source) :
    (table.copyFacts source node).Alike source node where
  exprTypes := getElem?_copyEntry (fun h => hfresh (.inl h)) hne
  selections := getElem?_copyEntry (fun h => hfresh (.inr (.inr (.inr (.inl h))))) hne
  defs := getElem?_copyEntry (fun h => hfresh (.inr (.inl h))) hne
  uses := getElem?_copyEntry (fun h => hfresh (.inr (.inr (.inl h)))) hne

theorem Alike.of_grows {p q : Pass} {id id' : NodeId} (h : p.table.Alike id id')
    (hgrows : p.Grows q) (hid : id.Below p.ids.count) (hid' : id'.Below p.ids.count) :
    q.table.Alike id id' where
  exprTypes := by
    rw [hgrows.table.exprTypes id hid, hgrows.table.exprTypes id' hid', h.exprTypes]
  selections := by
    rw [hgrows.table.selections id hid, hgrows.table.selections id' hid', h.selections]
  defs := by
    rw [hgrows.table.defs id hid, hgrows.table.defs id' hid', h.defs]
  uses := by
    rw [hgrows.table.uses id hid, hgrows.table.uses id' hid', h.uses]

end SymbolTable

/-- A state whose table records only facts of drawn identities. -/
def Pass.Drawn (p : Pass) : Prop :=
  ∀ id : NodeId, p.table.Recorded id → id.Below p.ids.count

theorem Pass.Drawn.of_grows {p q : Pass} (h : p.Drawn) (hgrows : p.Grows q) : q.Drawn := by
  intro id hid
  rcases hgrows.recorded id hid with hid | hbelow
  · exact PassM.below_mono hgrows (h id hid)
  · exact hbelow

/-- A drawn identity with the facts of another one, if that was drawn before the
copy began. -/
def NodeId.CopyOf (bound : Nat) (q : Pass) (id id' : NodeId) : Prop :=
  id'.Below q.ids.count ∧ (id.Below bound → q.table.Alike id id')

theorem NodeId.CopyOf.mono {p q r : Pass} {id id' : NodeId} (h : CopyOf p.ids.count q id id')
    (hq : p.Grows q) (hr : q.Grows r) : CopyOf p.ids.count r id id' := by
  rcases h with ⟨hbelow, halike⟩
  refine ⟨PassM.below_mono hr hbelow, ?_⟩
  intro hid
  exact (halike hid).of_grows hr (PassM.below_mono hq hid) hbelow

/-!
## Shapes
-/

/-- What the surrounding node can see of an expression besides its identity. -/
def Expr.stub : Expr → Expr
  | .ident _ name => .ident default name
  | .type _ _ => .type default default
  | _ => .lit default default

namespace Expr

def shape : Expr → Expr
  | .ident _ name => .ident default name
  | .lit _ value => .lit default value
  | .composite _ ty elts => .composite default ty (elts.map stub)
  | .keyValue _ key value => .keyValue default key.stub value.stub
  | .funcLit _ _ _ => .funcLit default ⟨[], [], false⟩ ⟨default, []⟩
  | .paren _ x => .paren default x.stub
  | .selector _ x name => .selector default x.stub name
  | .index _ x i => .index default x.stub i.stub
  | .slice _ x low high max =>
    .slice default x.stub (low.map stub) (high.map stub) (max.map stub)
  | .typeAssert _ x ty => .typeAssert default x.stub ty
  | .call _ callee args spread => .call default callee.stub (args.map stub) spread
  | .star _ x => .star default x.stub
  | .unary _ op x => .unary default op x.stub
  | .binary _ op x y => .binary default op x.stub y.stub
  | .type _ ty => .type default ty

@[simp] theorem isType_stub (e : Expr) : e.stub.isType = e.isType := by
  cases e <;> rfl

end Expr

def Stmt.shape : Stmt → Stmt
  | .assign _ lhs op rhs => .assign default (lhs.map Expr.stub) op (rhs.map Expr.stub)
  | .expr _ x => .expr default x.stub
  | .incDec _ x inc => .incDec default x.stub inc
  | .send _ chan value => .send default chan.stub value.stub
  | .block _ _ => .block default ⟨default, []⟩
  | .ifElse _ init cond _ els =>
    .ifElse default (init.map headerFace) cond.stub ⟨default, []⟩ (els.map elseFace)
  | .switch _ init tag _ => .switch default (init.map headerFace) (tag.map Expr.stub) []
  | .typeSwitch _ init guard _ => .typeSwitch default (init.map headerFace) guard.headerFace []
  | .select _ clauses =>
    .select default (clauses.map fun clause => ⟨default, clause.comm.map headerFace, []⟩)
  | .forLoop _ init cond post _ =>
    .forLoop default (init.map headerFace) (cond.map Expr.stub) (post.map headerFace)
      ⟨default, []⟩
  | .labeled _ name _ => .labeled default name default
  | .empty _ => .empty default
  | _ => .ret default []

def Spec.shape : Spec → Spec
  | .value spec => .value ⟨default, spec.names.map fun name => ⟨default, name.name⟩, spec.ty,
      spec.values.map Expr.stub⟩
  | .type spec => .type ⟨⟨default, spec.name.name⟩, spec.ty, spec.isAlias⟩

def Decl.shape (d : Decl) : Decl :=
  ⟨default, d.kind, d.specs.map Spec.shape⟩

namespace Stmt

@[simp] theorem isSimple_shape (s : Stmt) : s.shape.isSimple = s.isSimple := by
  cases s <;> rfl

end Stmt

/-- A node that copies another one: the shape is the same, and the identities it
shows are copies. -/
def Node.CopyOf (bound : Nat) (q : Pass) : Node → Node → Prop
  | .expr e, .expr e' =>
    e'.shape = e.shape ∧ List.Forall₂ (NodeId.CopyOf bound q) e.shownIds e'.shownIds
  | .stmt s, .stmt s' =>
    s'.shape = s.shape ∧ List.Forall₂ (NodeId.CopyOf bound q) s.shownIds s'.shownIds ∧
      List.Forall₂ (NodeId.CopyOf bound q) s.discards s'.discards
  | .header s, .header s' =>
    s'.shape = s.shape ∧ List.Forall₂ (NodeId.CopyOf bound q) s.shownIds s'.shownIds ∧
      List.Forall₂ (NodeId.CopyOf bound q) s.discards s'.discards
  | .decl d _, .decl d' _ =>
    d'.shape = d.shape ∧ List.Forall₂ (NodeId.CopyOf bound q) d.shownIds d'.shownIds
  | .block _, .block _ => True
  | _, _ => False

/-!
## Traits of a copy
-/

namespace Trait

variable {p : Pass} {trait : Trait}

theorem onExpr_shape {trait : Trait} (hbounded : trait ≠ .bounded) (hderef : trait ≠ .explicitDeref)
    (e : Expr) : trait.OnExpr p e.shape ↔ trait.OnExpr p e := by
  cases trait with
  | bounded => exact absurd rfl hbounded
  | explicitDeref => exact absurd rfl hderef
  | valueOperands => cases e <;> simp [OnExpr, Expr.shape]
  | _ => exact Iff.rfl

theorem explicitArray_of_copy {x x' : Expr} (hstub : x'.stub = x.stub)
    (hid : p.table.Alike x.id x'.id)
    (h : x.isType = true ∨ ∃ ty, p.table.exprTypes[x.id]? = some ty ∧
      p.table.isPointerToArray ty = false) :
    x'.isType = true ∨ ∃ ty, p.table.exprTypes[x'.id]? = some ty ∧
      p.table.isPointerToArray ty = false := by
  rw [← Expr.isType_stub x', hstub, Expr.isType_stub, hid.exprTypes]
  exact h

theorem explicit_of_copy {e e' : Expr} (hshape : e'.shape = e.shape)
    (hids : List.Forall₂ p.table.Alike e.shownIds e'.shownIds) (h : e.Explicit p.table) :
    e'.Explicit p.table := by
  cases e' with
  | index id' x' i' =>
    cases e with
    | index id x i =>
      rcases hids with _ | ⟨_, _ | ⟨hoperand, _⟩⟩
      exact explicitArray_of_copy (by injection hshape) hoperand h
    | _ => cases hshape
  | slice id' x' low' high' max' =>
    cases e with
    | slice id x low high max =>
      rcases hids with _ | ⟨_, _ | ⟨hoperand, _⟩⟩
      exact explicitArray_of_copy (by injection hshape) hoperand h
    | _ => cases hshape
  | selector id' x' name' =>
    cases e with
    | selector id x name =>
      have hname : name' = name := by injection hshape
      rcases hids with _ | ⟨hid, _ | ⟨hoperand, _⟩⟩
      intro hselection
      rw [hid.selections] at hselection
      rw [hoperand.exprTypes, hname]
      exact h hselection
    | _ => cases hshape
  | _ => trivial

theorem onExpr_of_copy {e e' : Expr} (hshape : e'.shape = e.shape)
    (hids : List.Forall₂ p.table.Alike e.shownIds e'.shownIds)
    (hbelow : ∀ id ∈ e'.shownIds, id.Below p.ids.count) (h : trait.OnExpr p e) :
    trait.OnExpr p e' := by
  by_cases hbounded : trait = .bounded
  · rw [hbounded]
    exact hbelow
  · by_cases hderef : trait = .explicitDeref
    · subst hderef
      exact explicit_of_copy hshape hids h
    · rw [← onExpr_shape hbounded hderef, hshape, onExpr_shape hbounded hderef]
      exact h

theorem onStmt_shape {header : Bool} (hbounded : trait ≠ .bounded)
    (hdiscard : trait ≠ .explicitDiscard) (s : Stmt) :
    trait.OnStmt p header s.shape ↔ trait.OnStmt p header s := by
  cases trait with
  | bounded => exact absurd rfl hbounded
  | explicitDiscard => exact absurd rfl hdiscard
  | simpleHeaders => simp [OnStmt]
  | singleCompound | singleTarget =>
    cases s with
    | assign id lhs op rhs => cases op <;> simp [OnStmt, Stmt.shape]
    | _ => exact Iff.rfl
  | noControlInit => cases s <;> simp [OnStmt, Stmt.shape, Stmt.hasControlInit]
  | conditionLoop => cases s <;> simp [OnStmt, Stmt.shape, Stmt.isThreeClauseLoop]
  | noShortDecl =>
    cases s with
    | assign id lhs op rhs => cases op <;> simp [OnStmt, Stmt.shape, Stmt.isShortDecl]
    | _ => simp [OnStmt, Stmt.shape, Stmt.isShortDecl]
  | _ => cases s <;> simp [OnStmt, Stmt.shape]

theorem onStmt_of_copy {header : Bool} {s s' : Stmt} (hshape : s'.shape = s.shape)
    (hids : List.Forall₂ p.table.Alike s.shownIds s'.shownIds)
    (hbelow : ∀ id ∈ s'.shownIds, id.Below p.ids.count) (h : trait.OnStmt p header s) :
    trait.OnStmt p header s' := by
  by_cases hbounded : trait = .bounded
  · rw [hbounded]
    exact hbelow
  · by_cases hdiscard : trait = .explicitDiscard
    · subst hdiscard
      cases s' with
      | expr id' x' =>
        cases s with
        | expr id x =>
          rcases hids with _ | ⟨_, _ | ⟨hx, _⟩⟩
          intro hheader
          rw [hx.exprTypes]
          exact h hheader
        | _ => cases hshape
      | _ => trivial
    · rw [← onStmt_shape hbounded hdiscard, hshape, onStmt_shape hbounded hdiscard]
      exact h

theorem valueSpecs_shape (d : Decl) :
    d.shape.valueSpecs = d.valueSpecs.map fun spec =>
      ⟨default, spec.names.map fun name => ⟨default, name.name⟩, spec.ty,
        spec.values.map Expr.stub⟩ := by
  rcases d with ⟨id, kind, specs⟩
  simp only [Decl.valueSpecs, Decl.shape]
  induction specs with
  | nil => rfl
  | cons spec rest ih => cases spec <;> simp [Spec.shape, ih]

theorem onDecl_shape (hbounded : trait ≠ .bounded) (d : Decl) :
    trait.OnDecl p d.shape ↔ trait.OnDecl p d := by
  have hvar : d.shape.isVar = d.isVar := rfl
  have hlength : d.shape.specs.length = d.specs.length := by simp [Decl.shape]
  cases trait with
  | bounded => exact absurd rfl hbounded
  | singleName => simp [OnDecl, Split.needsSplit, hvar, hlength, valueSpecs_shape]
  | _ => simp [OnDecl, hvar, valueSpecs_shape]

theorem onDecl_of_copy {d d' : Decl} (hshape : d'.shape = d.shape)
    (hbelow : ∀ id ∈ d'.shownIds, id.Below p.ids.count) (h : trait.OnDecl p d) :
    trait.OnDecl p d' := by
  by_cases hbounded : trait = .bounded
  · rw [hbounded]
    exact hbelow
  · rw [← onDecl_shape hbounded, hshape, onDecl_shape hbounded]
    exact h

end Trait

namespace NodeId.CopyOf

theorem below {bound : Nat} {q : Pass} {ids ids' : List NodeId}
    (h : List.Forall₂ (NodeId.CopyOf bound q) ids ids') :
    ∀ id ∈ ids', id.Below q.ids.count := by
  intro id hid
  induction h with
  | nil => cases hid
  | cons hhead _ ih =>
    rcases List.mem_cons.mp hid with rfl | hid
    · exact hhead.1
    · exact ih hid

theorem alike {p q r : Pass} {ids ids' : List NodeId} (hq : p.Grows q) (hr : q.Grows r)
    (h : List.Forall₂ (NodeId.CopyOf p.ids.count q) ids ids')
    (hbelow : ∀ id ∈ ids, id.Below p.ids.count) :
    List.Forall₂ r.table.Alike ids ids' := by
  induction h with
  | nil => exact .nil
  | cons hhead _ ih =>
    refine .cons ((hhead.mono hq hr).2 (hbelow _ (.head _))) (ih ?_)
    intro id hid
    exact hbelow id (.tail _ hid)

end NodeId.CopyOf

theorem Node.Has.of_copyOf {traits : Trait → Prop} {p q : Pass} {n n' : Node}
    (hbounded : traits .bounded) (hq : p.Grows q) (h : n.Has traits p)
    (hcopy : n.CopyOf p.ids.count q n') : n'.Has traits q := by
  have hdrawn := h.holds hbounded fun hstage => absurd hstage (Nat.lt_irrefl 0)
  intro r hr trait htrait hdiagnostics
  have hheld := h r (hq.trans hr) trait htrait hdiagnostics
  cases n with
  | expr e =>
    cases n' with
    | expr e' =>
      exact Trait.onExpr_of_copy hcopy.1 (NodeId.CopyOf.alike hq hr hcopy.2 hdrawn)
        (fun id hid => PassM.below_mono hr (NodeId.CopyOf.below hcopy.2 id hid)) hheld
    | _ => exact hcopy.elim
  | stmt s =>
    cases n' with
    | stmt s' =>
      exact Trait.onStmt_of_copy hcopy.1 (NodeId.CopyOf.alike hq hr hcopy.2.1 hdrawn)
        (fun id hid => PassM.below_mono hr (NodeId.CopyOf.below hcopy.2.1 id hid)) hheld
    | _ => exact hcopy.elim
  | header s =>
    cases n' with
    | header s' =>
      exact Trait.onStmt_of_copy hcopy.1 (NodeId.CopyOf.alike hq hr hcopy.2.1 hdrawn)
        (fun id hid => PassM.below_mono hr (NodeId.CopyOf.below hcopy.2.1 id hid)) hheld
    | _ => exact hcopy.elim
  | decl d top =>
    cases n' with
    | decl d' top' =>
      exact Trait.onDecl_of_copy hcopy.1
        (fun id hid => PassM.below_mono hr (NodeId.CopyOf.below hcopy.2 id hid)) hheld
    | _ => exact hcopy.elim
  | block b =>
    cases n' with
    | block b' => trivial
    | _ => exact hcopy.elim
  | func fn => cases n' <;> exact hcopy.elim

/-!
## Copying

A relabelled tree has the shape of the original, and shows related identities.
A copy is relabelled by identities drawn one after the other; what is known of one
of them stays true while the others are drawn.
-/

section

variable {R : NodeId → Possible NodeId}

theorem Expr.stub_of_mapIds {e e' : Expr} (h : e.mapIds R e') :
    e'.stub = e.stub ∧ R e.id e'.id := by
  cases e with
  | ident id name | lit id value | type id ty =>
    rcases h with ⟨id', hid, rfl⟩
    exact ⟨rfl, hid⟩
  | composite id _ _ | paren id _ | selector id _ _ | typeAssert id _ _ | star id _
  | unary id _ _ =>
    rcases h with ⟨id', hid, _, _, rfl⟩
    exact ⟨rfl, hid⟩
  | keyValue id _ _ | funcLit id _ _ | index id _ _ | call id _ _ _ | binary id _ _ _ =>
    rcases h with ⟨id', hid, _, _, _, _, rfl⟩
    exact ⟨rfl, hid⟩
  | slice id _ _ _ _ =>
    rcases h with ⟨id', hid, _, _, _, _, _, _, _, _, rfl⟩
    exact ⟨rfl, hid⟩

theorem Exprs.stub_of_mapIds {es es' : List Expr} (h : Exprs.mapIds R es es') :
    es'.map Expr.stub = es.map Expr.stub := by
  induction es generalizing es' with
  | nil => exact congrArg _ h
  | cons e rest ih =>
    rcases h with ⟨e', he, rest', hrest, rfl⟩
    rw [List.map_cons, List.map_cons, (Expr.stub_of_mapIds he).1, ih hrest]

theorem OptExpr.stub_of_mapIds {e e' : Option Expr} (h : OptExpr.mapIds R e e') :
    e'.map Expr.stub = e.map Expr.stub := by
  cases e with
  | none => exact congrArg _ h
  | some e =>
    rcases h with ⟨e', he, rfl⟩
    exact congrArg some (Expr.stub_of_mapIds he).1

theorem Stmt.faces_of_mapIds {s s' : Stmt} (h : s.mapIds R s') :
    s'.headerFace = s.headerFace ∧ s'.elseFace = s.elseFace ∧ R s.id s'.id := by
  cases s with
  | assign id lhs op rhs =>
    rcases h with ⟨id', hid, lhs', hlhs, rhs', hrhs, rfl⟩
    have hlength := congrArg List.length (Exprs.stub_of_mapIds hrhs)
    rw [List.length_map, List.length_map] at hlength
    refine ⟨?_, rfl, hid⟩
    simp only [headerFace, sources, hlength]
  | branch id kind label | empty id =>
    rcases h with ⟨id', hid, rfl⟩
    exact ⟨rfl, rfl, hid⟩
  | decl id _ | expr id _ | incDec id _ _ | go id _ | defer id _ | ret id _ | block id _
  | labeled id _ _ | select id _ =>
    rcases h with ⟨id', hid, _, _, rfl⟩
    exact ⟨rfl, rfl, hid⟩
  | send id _ _ =>
    rcases h with ⟨id', hid, _, _, _, _, rfl⟩
    exact ⟨rfl, rfl, hid⟩
  | switch id _ _ _ | typeSwitch id _ _ _ =>
    rcases h with ⟨id', hid, _, _, _, _, _, _, rfl⟩
    exact ⟨rfl, rfl, hid⟩
  | ifElse id _ _ _ _ | forLoop id _ _ _ _ | range id _ _ _ _ _ =>
    rcases h with ⟨id', hid, _, _, _, _, _, _, _, _, rfl⟩
    exact ⟨rfl, rfl, hid⟩

theorem OptStmt.faces_of_mapIds {s s' : Option Stmt} (h : OptStmt.mapIds R s s') :
    s'.map Stmt.headerFace = s.map Stmt.headerFace ∧
    s'.map Stmt.elseFace = s.map Stmt.elseFace := by
  cases s with
  | none => exact ⟨congrArg _ h, congrArg _ h⟩
  | some s =>
    rcases h with ⟨s', hs, rfl⟩
    have hfaces := Stmt.faces_of_mapIds hs
    exact ⟨congrArg some hfaces.1, congrArg some hfaces.2.1⟩

theorem Block.id_of_mapIds {b b' : Block} (h : b.mapIds R b') : R b.id b'.id := by
  rcases b with ⟨id, stmts⟩
  rcases h with ⟨id', hid, stmts', _, rfl⟩
  exact hid

theorem CaseClauses.ids_of_mapIds {cs cs' : List CaseClause} (h : CaseClauses.mapIds R cs cs') :
    List.Forall₂ R (cs.map CaseClause.id) (cs'.map CaseClause.id) := by
  induction cs generalizing cs' with
  | nil =>
    cases h
    exact .nil
  | cons c rest ih =>
    rcases c with ⟨id, _ | list, body⟩
    · rcases h with ⟨id', hid, body', _, rest', hrest, rfl⟩
      exact .cons hid (ih hrest)
    · rcases h with ⟨id', hid, list', _, body', _, rest', hrest, rfl⟩
      exact .cons hid (ih hrest)

theorem TypeClauses.ids_of_mapIds {cs cs' : List TypeClause} (h : TypeClauses.mapIds R cs cs') :
    List.Forall₂ R (cs.map TypeClause.id) (cs'.map TypeClause.id) := by
  induction cs generalizing cs' with
  | nil =>
    cases h
    exact .nil
  | cons c rest ih =>
    rcases c with ⟨id, types, body⟩
    rcases h with ⟨id', hid, body', _, rest', hrest, rfl⟩
    exact .cons hid (ih hrest)

theorem CommClauses.shape_of_mapIds {cs cs' : List CommClause} (h : CommClauses.mapIds R cs cs') :
    List.Forall₂ R (cs.map CommClause.id) (cs'.map CommClause.id) ∧
      (cs'.map fun c => (⟨default, c.comm.map Stmt.headerFace, []⟩ : CommClause)) =
        cs.map fun c => ⟨default, c.comm.map Stmt.headerFace, []⟩ := by
  induction cs generalizing cs' with
  | nil =>
    cases h
    exact ⟨.nil, rfl⟩
  | cons c rest ih =>
    rcases c with ⟨id, comm, body⟩
    rcases h with ⟨id', hid, comm', hcomm, body', _, rest', hrest, rfl⟩
    rcases ih hrest with ⟨hids, hshape⟩
    refine ⟨.cons hid hids, ?_⟩
    rw [List.map_cons, List.map_cons, (OptStmt.faces_of_mapIds hcomm).1, hshape]

theorem Idents.of_mapId {names names' : List Ident} (h : names.mapM (Ident.mapId R) names') :
    (names'.map fun name => (⟨default, name.name⟩ : Ident)) =
        names.map (fun name => ⟨default, name.name⟩) ∧
      List.Forall₂ R (names.map Ident.id) (names'.map Ident.id) := by
  have hall := Possible.mapM_iff.mp h
  clear h
  induction hall with
  | nil => exact ⟨rfl, .nil⟩
  | cons hname _ ih =>
    rcases hname with ⟨id', hid, rfl⟩
    exact ⟨by rw [List.map_cons, List.map_cons, ih.1], .cons hid ih.2⟩

theorem Specs.shape_of_mapIds {specs specs' : List Spec} (h : Specs.mapIds R specs specs') :
    specs'.map Spec.shape = specs.map Spec.shape ∧
      List.Forall₂ R (specs.flatMap Spec.shownIds) (specs'.flatMap Spec.shownIds) := by
  induction specs generalizing specs' with
  | nil =>
    cases h
    exact ⟨rfl, .nil⟩
  | cons spec rest ih =>
    cases spec with
    | value spec =>
      rcases spec with ⟨id, names, ty, values⟩
      rcases h with ⟨id', hid, names', hnames, values', hvalues, rest', hrest, rfl⟩
      rcases ih hrest with ⟨hshape, hids⟩
      rcases Idents.of_mapId hnames with ⟨hnames, hnameIds⟩
      refine ⟨?_, List.rel_append (.cons hid hnameIds) hids⟩
      simp only [List.map_cons, Spec.shape, hnames, Exprs.stub_of_mapIds hvalues, hshape]
    | type spec =>
      rcases h with ⟨name', ⟨id', hid, rfl⟩, rest', hrest, rfl⟩
      rcases ih hrest with ⟨hshape, hids⟩
      refine ⟨?_, .cons hid hids⟩
      simp only [List.map_cons, Spec.shape, hshape]

theorem Expr.shape_of_mapIds {e e' : Expr} (h : e.mapIds R e') :
    e'.shape = e.shape ∧ List.Forall₂ R e.shownIds e'.shownIds := by
  cases e with
  | ident id name | lit id value | type id ty =>
    rcases h with ⟨id', hid, rfl⟩
    exact ⟨rfl, .cons hid .nil⟩
  | composite id ty elts =>
    rcases h with ⟨id', hid, elts', helts, rfl⟩
    exact ⟨by simp only [shape, Exprs.stub_of_mapIds helts], .cons hid .nil⟩
  | funcLit id sig body =>
    rcases h with ⟨id', hid, sig', hsig, body', hbody, rfl⟩
    exact ⟨rfl, .cons hid (.cons (Block.id_of_mapIds hbody) (sig.shaped.ids_of_map hsig))⟩
  | keyValue id x y | binary id op x y =>
    rcases h with ⟨id', hid, x', hx, y', hy, rfl⟩
    exact ⟨by simp only [shape, (stub_of_mapIds hx).1, (stub_of_mapIds hy).1], .cons hid .nil⟩
  | paren id x | typeAssert id x ty | star id x | unary id op x =>
    rcases h with ⟨id', hid, x', hx, rfl⟩
    exact ⟨by simp only [shape, (stub_of_mapIds hx).1], .cons hid .nil⟩
  | selector id x name =>
    rcases h with ⟨id', hid, x', hx, rfl⟩
    rcases stub_of_mapIds hx with ⟨hstub, hx⟩
    exact ⟨by simp only [shape, hstub], .cons hid (.cons hx .nil)⟩
  | index id x i =>
    rcases h with ⟨id', hid, x', hx, i', hi, rfl⟩
    rcases stub_of_mapIds hx with ⟨hstub, hx⟩
    exact ⟨by simp only [shape, hstub, (stub_of_mapIds hi).1], .cons hid (.cons hx .nil)⟩
  | slice id x low high max =>
    rcases h with ⟨id', hid, x', hx, low', hlow, high', hhigh, max', hmax, rfl⟩
    rcases stub_of_mapIds hx with ⟨hstub, hx⟩
    refine ⟨?_, .cons hid (.cons hx .nil)⟩
    simp only [shape, hstub, OptExpr.stub_of_mapIds hlow, OptExpr.stub_of_mapIds hhigh,
      OptExpr.stub_of_mapIds hmax]
  | call id callee args spread =>
    rcases h with ⟨id', hid, callee', hcallee, args', hargs, rfl⟩
    refine ⟨?_, .cons hid .nil⟩
    simp only [shape, (stub_of_mapIds hcallee).1, Exprs.stub_of_mapIds hargs]

theorem Stmt.shape_of_mapIds {s s' : Stmt} (h : s.mapIds R s') :
    s'.shape = s.shape ∧ List.Forall₂ R s.shownIds s'.shownIds := by
  cases s with
  | branch id kind label | empty id =>
    rcases h with ⟨id', hid, rfl⟩
    exact ⟨rfl, .cons hid .nil⟩
  | decl id _ | go id _ | defer id _ | ret id _ | labeled id _ _ =>
    rcases h with ⟨id', hid, _, _, rfl⟩
    exact ⟨rfl, .cons hid .nil⟩
  | assign id lhs op rhs =>
    rcases h with ⟨id', hid, lhs', hlhs, rhs', hrhs, rfl⟩
    refine ⟨?_, .cons hid .nil⟩
    simp only [shape, Exprs.stub_of_mapIds hlhs, Exprs.stub_of_mapIds hrhs]
  | expr id x =>
    rcases h with ⟨id', hid, x', hx, rfl⟩
    rcases Expr.stub_of_mapIds hx with ⟨hstub, hx⟩
    exact ⟨by simp only [shape, hstub], .cons hid (.cons hx .nil)⟩
  | incDec id x inc =>
    rcases h with ⟨id', hid, x', hx, rfl⟩
    exact ⟨by simp only [shape, (Expr.stub_of_mapIds hx).1], .cons hid .nil⟩
  | send id x y =>
    rcases h with ⟨id', hid, x', hx, y', hy, rfl⟩
    refine ⟨?_, .cons hid .nil⟩
    simp only [shape, (Expr.stub_of_mapIds hx).1, (Expr.stub_of_mapIds hy).1]
  | block id body =>
    rcases h with ⟨id', hid, body', hbody, rfl⟩
    exact ⟨rfl, .cons hid (.cons (Block.id_of_mapIds hbody) .nil)⟩
  | ifElse id init cond body els =>
    rcases h with ⟨id', hid, init', hinit, cond', hcond, body', hbody, els', hels, rfl⟩
    refine ⟨?_, .cons hid (.cons (Block.id_of_mapIds hbody) .nil)⟩
    simp only [shape, (OptStmt.faces_of_mapIds hinit).1, (Expr.stub_of_mapIds hcond).1,
      (OptStmt.faces_of_mapIds hels).2]
  | switch id init tag clauses =>
    rcases h with ⟨id', hid, init', hinit, tag', htag, clauses', hclauses, rfl⟩
    refine ⟨?_, .cons hid (CaseClauses.ids_of_mapIds hclauses)⟩
    simp only [shape, (OptStmt.faces_of_mapIds hinit).1, OptExpr.stub_of_mapIds htag]
  | typeSwitch id init guard clauses =>
    rcases h with ⟨id', hid, init', hinit, guard', hguard, clauses', hclauses, rfl⟩
    refine ⟨?_, .cons hid (TypeClauses.ids_of_mapIds hclauses)⟩
    simp only [shape, (OptStmt.faces_of_mapIds hinit).1, (faces_of_mapIds hguard).1]
  | select id clauses =>
    rcases h with ⟨id', hid, clauses', hclauses, rfl⟩
    rcases CommClauses.shape_of_mapIds hclauses with ⟨hids, hshape⟩
    exact ⟨by simp only [shape, hshape], .cons hid hids⟩
  | forLoop id init cond post body =>
    rcases h with ⟨id', hid, init', hinit, cond', hcond, post', hpost, body', hbody, rfl⟩
    refine ⟨?_, .cons hid (.cons (Block.id_of_mapIds hbody) .nil)⟩
    simp only [shape, (OptStmt.faces_of_mapIds hinit).1, OptExpr.stub_of_mapIds hcond,
      (OptStmt.faces_of_mapIds hpost).1]
  | range id key value define x body =>
    rcases h with ⟨id', hid, key', _, value', _, x', _, body', hbody, rfl⟩
    exact ⟨rfl, .cons hid (.cons (Block.id_of_mapIds hbody) .nil)⟩

theorem Stmt.operands_of_mapIds {s s' : Stmt} (h : s.mapIds R s') :
    List.Forall₂ R s.operands s'.operands := by
  have hshape := (shape_of_mapIds h).1
  cases s with
  | expr id x =>
    rcases h with ⟨id', hid, x', hx, rfl⟩
    exact .cons (Expr.stub_of_mapIds hx).2 .nil
  | _ =>
    cases s' with
    | expr id' x' => cases hshape
    | _ => exact .nil

theorem OptStmt.operands_of_mapIds {s s' : Option Stmt} (h : OptStmt.mapIds R s s') :
    List.Forall₂ R (OptStmt.operands s) (OptStmt.operands s') := by
  cases s with
  | none =>
    cases h
    exact .nil
  | some s =>
    rcases h with ⟨s', hs, rfl⟩
    exact Stmt.operands_of_mapIds hs

theorem Stmt.discards_of_mapIds {s s' : Stmt} (h : s.mapIds R s') :
    List.Forall₂ R s.discards s'.discards := by
  have hshape := (shape_of_mapIds h).1
  cases s with
  | expr id x =>
    rcases h with ⟨id', _, x', hx, rfl⟩
    exact .cons (Expr.stub_of_mapIds hx).2 .nil
  | ifElse id init cond body els =>
    rcases h with ⟨id', _, init', hinit, cond', _, body', _, els', _, rfl⟩
    exact OptStmt.operands_of_mapIds hinit
  | switch id init tag clauses =>
    rcases h with ⟨id', _, init', hinit, tag', _, clauses', _, rfl⟩
    exact OptStmt.operands_of_mapIds hinit
  | typeSwitch id init guard clauses =>
    rcases h with ⟨id', _, init', hinit, guard', _, clauses', _, rfl⟩
    exact OptStmt.operands_of_mapIds hinit
  | forLoop id init cond post body =>
    rcases h with ⟨id', _, init', hinit, cond', _, post', hpost, body', _, rfl⟩
    exact List.rel_append (OptStmt.operands_of_mapIds hinit) (OptStmt.operands_of_mapIds hpost)
  | _ =>
    cases s' with
    | expr | ifElse | switch | typeSwitch | forLoop => cases hshape
    | _ => exact .nil

end

theorem Node.CopyOf.of_relabels {bound : Nat} {q : Pass} {n n' : Node}
    (h : n.Relabels (NodeId.CopyOf bound q) n') : n.CopyOf bound q n' := by
  cases n with
  | expr e =>
    cases n' with
    | expr e' => exact Expr.shape_of_mapIds h
    | _ => exact h.elim
  | stmt s =>
    cases n' with
    | stmt s' =>
      rcases Stmt.shape_of_mapIds h with ⟨hshape, hids⟩
      exact ⟨hshape, hids, Stmt.discards_of_mapIds h⟩
    | _ => exact h.elim
  | header s =>
    cases n' with
    | header s' =>
      rcases Stmt.shape_of_mapIds h with ⟨hshape, hids⟩
      exact ⟨hshape, hids, Stmt.discards_of_mapIds h⟩
    | _ => exact h.elim
  | decl d top =>
    cases n' with
    | decl d' top' =>
      rcases d with ⟨id, kind, specs⟩
      rcases h with ⟨id', hid, specs', hspecs, rfl⟩
      rcases Specs.shape_of_mapIds hspecs with ⟨hshape, hids⟩
      exact ⟨by simp only [Decl.shape, hshape], .cons hid hids⟩
    | _ => exact h.elim
  | block b =>
    cases n' with
    | block b' => trivial
    | _ => exact h.elim
  | func fn => cases n' <;> exact h.elim

def Node.Copies (bound : Nat) (q : Pass) (nodes nodes' : List Node) : Prop :=
  ∀ n' ∈ nodes', ∃ n ∈ nodes, n.CopyOf bound q n'

theorem Node.Copies.of_relabels {bound : Nat} {q : Pass} {nodes nodes' : List Node}
    (h : List.Forall₂ (Relabels (NodeId.CopyOf bound q)) nodes nodes') :
    Copies bound q nodes nodes' := by
  induction h with
  | nil => exact fun _ hn => nomatch hn
  | cons hn _ ih =>
    intro n' hn'
    rcases List.mem_cons.mp hn' with rfl | hn'
    · exact ⟨_, .head _, .of_relabels hn⟩
    · rcases ih n' hn' with ⟨n, hmem, hcopy⟩
      exact ⟨n, .tail _ hmem, hcopy⟩

theorem NodeId.refresh_run (source : NodeId) (ids : NodeSupply) (table : SymbolTable) :
    source.refresh (ids, table) =
      match ids.take? with
      | some (fresh, rest) => some (fresh, rest, table.copyFacts source fresh)
      | none => none := by
  have hrun : source.refresh (ids, table) =
      ((ids.take?).bind fun drawn => some (drawn, ids, table)).bind
        fun drawn => some (drawn.1.1, drawn.1.2, table.copyFacts source drawn.1.1) := rfl
  rw [hrun]
  cases ids.take? <;> rfl

/-- Whether copying succeeds only in a growth of the state, after which a
postcondition holds for good. -/
def Refreshes {α : Type} (p : Pass) (x : StateT (NodeSupply × SymbolTable) Option α)
    (post : α → Pass → Prop) : Prop :=
  ∀ a ids table, x (p.ids, p.table) = some (a, ids, table) →
    p.Grows { p with ids := ids, table := table } ∧
      ∀ q, Pass.Grows { p with ids := ids, table := table } q → post a q

namespace Refreshes

variable {α β : Type} {p : Pass}

theorem pure {a : α} {post : α → Pass → Prop} (h : ∀ q, p.Grows q → post a q) :
    Refreshes p (pure a) post := by
  intro a' ids table heq
  cases heq
  exact ⟨.refl p, h⟩

theorem bind {x : StateT (NodeSupply × SymbolTable) Option α}
    {f : α → StateT (NodeSupply × SymbolTable) Option β} {mid : α → Pass → Prop}
    {post : β → Pass → Prop} (hx : Refreshes p x mid)
    (hf : ∀ a q, p.Grows q → Refreshes q (f a) (fun b r => mid a r → post b r)) :
    Refreshes p (x >>= f) post := by
  intro b ids table heq
  rcases Option.bind_eq_some_iff.mp heq with ⟨⟨a, ids', table'⟩, hfirst, hsecond⟩
  rcases hx a ids' table' hfirst with ⟨hgrows, hmid⟩
  rcases hf a _ hgrows b ids table hsecond with ⟨hgrows', hpost⟩
  refine ⟨hgrows.trans hgrows', ?_⟩
  intro r hr
  exact hpost r hr (hmid r (hgrows'.trans hr))

theorem id {origin : Pass} (hp : origin.Grows p) (source : NodeId) :
    Refreshes p source.refresh (fun id q =>
      origin.Drawn → source.CopyOf origin.ids.count q id) := by
  intro id ids table heq
  rw [NodeId.refresh_run] at heq
  cases htake : p.ids.take? with
  | none =>
    rw [htake] at heq
    cases heq
  | some drawn =>
    rcases drawn with ⟨fresh, rest⟩
    rw [htake] at heq
    cases heq
    have hfresh : p.ids.count ≤ id.val.toNat := by
      rw [(NodeSupply.take?_eq_some htake).1]
      exact Nat.le_refl _
    have hgrows : p.Grows { p with ids := ids, table := p.table.copyFacts source id } :=
      .of_take htake (SymbolTable.extends_copyFacts source hfresh)
        fun _ => SymbolTable.recorded_copyFacts
    have hbelow := Pass.Grows.below_of_take htake
    refine ⟨hgrows, ?_⟩
    intro q hq hdrawn
    refine ⟨PassM.below_mono hq hbelow, ?_⟩
    intro hsource
    have hsource' := PassM.below_mono hp hsource
    have hunrecorded : ¬ p.table.Recorded id := by
      intro hrecorded
      exact absurd (hdrawn.of_grows hp id hrecorded) (Nat.not_lt.mpr hfresh)
    exact (SymbolTable.alike_copyFacts hunrecorded (hsource'.ne hfresh)).of_grows hq
      (PassM.below_mono hgrows hsource') hbelow

theorem ids {origin : Pass} (hp : origin.Grows p) (sources : List NodeId) :
    Refreshes p (sources.mapM NodeId.refresh) (fun ids q => List.Forall₂ (fun source id =>
      origin.Drawn → source.CopyOf origin.ids.count q id) sources ids) := by
  induction sources generalizing p with
  | nil => exact .pure fun _ _ => .nil
  | cons source rest ih =>
    rw [List.mapM_cons]
    refine (Refreshes.id hp source).bind fun id q hq => ?_
    refine (ih (hp.trans hq)).bind fun ids r _ => ?_
    exact .pure fun _ _ hids hid => .cons hid hids

end Refreshes

theorem Stmt.refreshes {origin : Pass} (s : Stmt) :
    Refreshes origin s.refresh (fun s' q => s.mapIds (m := Possible)
      (fun id id' => origin.Drawn → id.CopyOf origin.ids.count q id') s') := by
  rcases s.shaped true with ⟨make, hmakes⟩
  have hrun : s.refresh = s.ids.mapM NodeId.refresh >>= fun ids => pure (make ids) :=
    Renaming.map_eq hmakes NodeId.refresh
  rw [hrun]
  refine (Refreshes.ids (.refl origin) s.ids).bind fun ids q _ => .pure fun r _ hids => ?_
  exact (Renaming.map_iff hmakes).mpr ⟨ids, hids, rfl⟩

theorem Stmts.copies_singleton {origin : Pass} (hdrawn : origin.Drawn) {q : Pass} {s s' : Stmt}
    (h : s.mapIds (m := Possible)
      (fun id id' => origin.Drawn → id.CopyOf origin.ids.count q id') s') :
    Node.Copies origin.ids.count q (Stmts.nodes [s]) (Stmts.nodes [s']) := by
  simp only [hdrawn, forall_const] at h
  have hlist : Stmts.mapIds (m := Possible) (NodeId.CopyOf origin.ids.count q) [s] [s'] :=
    ⟨s', h, [], rfl, rfl⟩
  exact .of_relabels ((Stmts.shaped [s]).relabels_nodes hlist)

end Desugar
