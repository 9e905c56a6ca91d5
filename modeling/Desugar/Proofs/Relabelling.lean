import Desugar.Proofs.Faces
import Mathlib.Data.List.Forall2

/-!
# Relabelled trees

A tree is made of its identities in one way, whatever they are.  So renaming it is
renaming the list of its identities, with whatever effects, and with a relation in
place of a renaming it tells which trees differ from a given one in their identities
only.  The nodes of such trees differ in nothing else either.
-/

namespace Desugar

def Possible (α : Type) : Type :=
  α → Prop

instance : Monad Possible where
  pure a b := b = a
  bind x g b := ∃ a, x a ∧ g a b

instance : LawfulMonad Possible := by
  refine LawfulMonad.mk' Possible ?_ ?_ ?_
  · intro α x
    funext a
    refine propext ⟨?_, fun ha => ⟨a, ha, rfl⟩⟩
    rintro ⟨b, hb, rfl⟩
    exact hb
  · intro α β a f
    funext b
    refine propext ⟨?_, fun hb => ⟨a, rfl, hb⟩⟩
    rintro ⟨a', rfl, hb⟩
    exact hb
  · intro α β γ x f g
    funext c
    refine propext ⟨?_, ?_⟩
    · rintro ⟨b, ⟨a, ha, hb⟩, hc⟩
      exact ⟨a, ha, b, hb, hc⟩
    · rintro ⟨a, ha, b, hb, hc⟩
      exact ⟨b, ⟨a, ha, hb⟩, hc⟩

theorem Possible.mapM_iff {α β : Type} {g : α → Possible β} {xs : List α} {ys : List β} :
    xs.mapM g ys ↔ List.Forall₂ g xs ys := by
  induction xs generalizing ys with
  | nil => exact List.forall₂_nil_left_iff.symm
  | cons x xs ih =>
    rw [List.mapM_cons]
    constructor
    · rintro ⟨y, hy, rest, hrest, rfl⟩
      exact .cons hy (ih.mp hrest)
    · rintro (_ | ⟨hy, hrest⟩)
      exact ⟨_, hy, _, ih.mpr hrest, rfl⟩

theorem bind_mapM_congr {m : Type → Type} [Monad m] [LawfulMonad m] {α β : Type} {f : α → m α}
    {xs : List α} {g h : List α → m β} (heq : ∀ ys, ys.length = xs.length → g ys = h ys) :
    xs.mapM f >>= g = xs.mapM f >>= h := by
  induction xs generalizing g h with
  | nil => simp only [List.mapM_nil, pure_bind, heq [] rfl]
  | cons x rest ih =>
    simp only [List.mapM_cons, bind_assoc, pure_bind]
    refine bind_congr fun y => ih fun ys hys => heq (y :: ys) ?_
    rw [List.length_cons, List.length_cons, hys]

/-- Nodes whose trees differ in related identities only. -/
def Node.Relabels (R : NodeId → Possible NodeId) : Node → Node → Prop
  | .expr e, .expr e' => e.mapIds R e'
  | .stmt s, .stmt s' => s.mapIds R s'
  | .header s, .header s' => s.mapIds R s'
  | .block b, .block b' => b.mapIds R b'
  | .decl d _, .decl d' _ => d.mapIds R d'
  | _, _ => False

open Node (Relabels)

/-!
## Shapes
-/

/-- The identities and the nodes of a kind of syntax, and what it is to go on with it after
its identities have been renamed. -/
structure Labelling (α : Type) where
  ids : α → List NodeId
  rename : {m : Type → Type} → [Monad m] → {β : Type} → (NodeId → m NodeId) → α → (α → m β) → m β
  nodes : α → List Node

namespace Labelling

variable {α β : Type}

def node : Labelling NodeId where
  ids id := [id]
  rename f id after := f id >>= after
  nodes _ := []

def and (T : Labelling α) (U : Labelling β) : Labelling (α × β) where
  ids p := T.ids p.1 ++ U.ids p.2
  rename f p after := T.rename f p.1 fun a => U.rename f p.2 fun b => after (a, b)
  nodes p := T.nodes p.1 ++ U.nodes p.2

/-- A way to make syntax of as many identities as a given piece has, the piece itself
among the results. -/
structure Makes (T : Labelling α) (a : α) (make : List NodeId → α) : Prop where
  self : make (T.ids a) = a
  ids : ∀ {ids}, ids.length = (T.ids a).length → T.ids (make ids) = ids
  rename : ∀ {ids}, ids.length = (T.ids a).length → ∀ {m : Type → Type} [Monad m] [LawfulMonad m]
    {γ : Type} (f : NodeId → m NodeId) (after : α → m γ),
    T.rename f (make ids) after = ids.mapM f >>= fun ids' => after (make ids')
  nodes : ∀ {R : NodeId → Possible NodeId} {ids ids'}, ids.length = (T.ids a).length →
    List.Forall₂ R ids ids' → List.Forall₂ (Relabels R) (T.nodes (make ids)) (T.nodes (make ids'))

def Shaped (T : Labelling α) (a : α) : Prop :=
  ∃ make, T.Makes a make

theorem shaped_node (id : NodeId) : node.Shaped id := by
  have hsingle : ∀ ids : List NodeId, ids.length = (node.ids id).length → ∃ id', ids = [id'] :=
    fun _ hlength => List.length_eq_one_iff.mp hlength
  refine ⟨fun ids => ids.headD id, rfl, ?_, ?_, fun _ _ => .nil⟩
  · intro ids hlength
    rcases hsingle ids hlength with ⟨id', rfl⟩
    rfl
  · intro ids hlength m _ _ γ f after
    rcases hsingle ids hlength with ⟨id', rfl⟩
    simp [node, List.mapM_cons]

theorem Shaped.and {T : Labelling α} {U : Labelling β} {a : α} {b : β} (ha : T.Shaped a)
    (hb : U.Shaped b) : (T.and U).Shaped (a, b) := by
  rcases ha with ⟨first, ha⟩
  rcases hb with ⟨second, hb⟩
  have htake : ∀ {ids : List NodeId}, ids.length = ((T.and U).ids (a, b)).length →
      (ids.take (T.ids a).length).length = (T.ids a).length ∧
        (ids.drop (T.ids a).length).length = (U.ids b).length := by
    intro ids hlength
    have htotal : ids.length = (T.ids a).length + (U.ids b).length :=
      hlength.trans List.length_append
    rw [List.length_take, List.length_drop]
    omega
  refine ⟨fun ids => (first (ids.take (T.ids a).length), second (ids.drop (T.ids a).length)),
    ?_, ?_, ?_, ?_⟩
  · simp [Labelling.and, ha.self, hb.self]
  · intro ids hlength
    rcases htake hlength with ⟨hfirst, hsecond⟩
    simp only [Labelling.and, ha.ids hfirst, hb.ids hsecond, List.take_append_drop]
  · intro ids hlength m _ _ γ f after
    rcases htake hlength with ⟨hfirst, hsecond⟩
    have hsplit : ids.mapM f = (ids.take (T.ids a).length).mapM f >>= fun xs =>
        (ids.drop (T.ids a).length).mapM f >>= fun ys => pure (xs ++ ys) := by
      rw [← List.mapM_append, List.take_append_drop]
    simp only [Labelling.and, ha.rename hfirst, hb.rename hsecond, hsplit, bind_assoc, pure_bind]
    refine bind_mapM_congr fun xs hxs => bind_congr fun ys => ?_
    rw [List.take_left' (hxs.trans hfirst), List.drop_left' (hxs.trans hfirst)]
  · intro R ids ids' hlength hall
    rcases htake hlength with ⟨hfirst, hsecond⟩
    exact List.rel_append (ha.nodes hfirst (List.forall₂_take _ hall))
      (hb.nodes hsecond (List.forall₂_drop _ hall))

end Labelling

/-- The identities of a kind of syntax, how they are renamed, its nodes, and those of them
that are no nodes of its parts. -/
structure Renaming (α : Type) where
  ids : α → List NodeId
  map : {m : Type → Type} → [Monad m] → (NodeId → m NodeId) → α → m α
  own : α → List Node
  nodes : α → List Node
  relabels : ∀ {R : NodeId → Possible NodeId} {a a' : α}, map R a a' →
    List.Forall₂ (Relabels R) (own a) (own a')

namespace Renaming

variable {α β : Type} {K : Renaming α}

def labelling (K : Renaming α) : Labelling α where
  ids := K.ids
  rename f a after := K.map f a >>= after
  nodes := K.nodes

structure Builds (K : Renaming α) (T : Labelling β) (c : β → α) : Prop where
  ids : ∀ b, K.ids (c b) = T.ids b
  map : ∀ {m : Type → Type} [Monad m] [LawfulMonad m] (f : NodeId → m NodeId) (b : β),
    K.map f (c b) = T.rename f b fun b' => pure (c b')
  nodes : ∀ b, K.nodes (c b) = K.own (c b) ++ T.nodes b

abbrev Shaped (K : Renaming α) (a : α) : Prop :=
  K.labelling.Shaped a

section

variable {a a' : α} {make : List NodeId → α} (h : K.labelling.Makes a make)

include h

theorem map_make {ids : List NodeId} (hlength : ids.length = (K.ids a).length)
    {m : Type → Type} [Monad m] [LawfulMonad m] (f : NodeId → m NodeId) :
    K.map f (make ids) = ids.mapM f >>= fun ids' => pure (make ids') := by
  have hrename : K.map f (make ids) >>= pure = _ := h.rename hlength f pure
  rw [bind_pure] at hrename
  exact hrename

theorem map_eq {m : Type → Type} [Monad m] [LawfulMonad m] (f : NodeId → m NodeId) :
    K.map f a = (K.ids a).mapM f >>= fun ids => pure (make ids) := by
  rw [← map_make h rfl f]
  exact congrArg (K.map f) h.self.symm

theorem map_iff {R : NodeId → Possible NodeId} :
    K.map R a a' ↔ ∃ ids, List.Forall₂ R (K.ids a) ids ∧ a' = make ids := by
  rw [map_eq h]
  constructor
  · rintro ⟨ids, hids, rfl⟩
    exact ⟨ids, Possible.mapM_iff.mp hids, rfl⟩
  · rintro ⟨ids, hids, rfl⟩
    exact ⟨ids, Possible.mapM_iff.mpr hids, rfl⟩

end

theorem shaped_leaf {a : α} (hids : K.ids a = []) (hmap : ∀ {m : Type → Type} [Monad m]
    (f : NodeId → m NodeId), K.map f a = pure a) (hnodes : K.nodes a = []) : K.Shaped a := by
  have hempty : ∀ {ids : List NodeId}, ids.length = (K.ids a).length → ids = [] := by
    intro ids hlength
    rw [hids] at hlength
    exact List.length_eq_zero_iff.mp hlength
  refine ⟨fun _ => a, rfl, fun hlength => hids.trans (hempty hlength).symm, ?_, fun _ _ => ?_⟩
  · intro ids hlength m _ _ γ f after
    change K.map f a >>= after = _
    rw [hempty hlength, hmap, List.mapM_nil, pure_bind, pure_bind]
  · change List.Forall₂ _ (K.nodes a) (K.nodes a)
    rw [hnodes]
    exact .nil

theorem Shaped.ids_map {a : α} (h : K.Shaped a) {m : Type → Type} [Monad m] [LawfulMonad m]
    (f : NodeId → m NodeId) : K.ids <$> K.map f a = (K.ids a).mapM f := by
  rcases h with ⟨make, h⟩
  rw [map_eq h, map_eq_pure_bind, bind_assoc]
  simp only [pure_bind]
  exact (bind_mapM_congr fun ids hids => congrArg pure (h.ids hids)).trans (bind_pure _)

theorem Shaped.ids_of_map {a a' : α} (h : K.Shaped a) {R : NodeId → Possible NodeId}
    (hmap : K.map R a a') : List.Forall₂ R (K.ids a) (K.ids a') := by
  rcases h with ⟨make, h⟩
  rcases (map_iff h).mp hmap with ⟨ids, hids, rfl⟩
  rw [show K.ids (make ids) = ids from h.ids hids.length_eq.symm]
  exact hids

theorem Shaped.map_const {a a' : α} (h : K.Shaped a) {R : NodeId → Possible NodeId}
    (hmap : K.map R a a') {m : Type → Type} [Monad m] [LawfulMonad m] (x : m NodeId) :
    K.map (fun _ => x) a' = K.map (fun _ => x) a := by
  rcases h with ⟨make, h⟩
  rcases (map_iff h).mp hmap with ⟨ids, hids, rfl⟩
  rw [map_make h hids.length_eq.symm, map_eq h]
  congr 1
  clear hmap
  generalize K.ids a = sources at hids
  induction hids with
  | nil => rfl
  | cons _ _ ih => rw [List.mapM_cons, List.mapM_cons, ih]

theorem Shaped.relabels_nodes {a a' : α} (h : K.Shaped a) {R : NodeId → Possible NodeId}
    (hmap : K.map R a a') : List.Forall₂ (Relabels R) (K.nodes a) (K.nodes a') := by
  rcases h with ⟨make, h⟩
  rcases (map_iff h).mp hmap with ⟨ids, hids, rfl⟩
  have hnodes := h.nodes rfl hids
  rw [h.self] at hnodes
  exact hnodes

end Renaming

theorem Labelling.Shaped.build {α β : Type} {K : Renaming α} {T : Labelling β} {b : β}
    (h : T.Shaped b) (c : β → α)
    (hc : K.Builds T c := by exact ⟨fun _ => rfl, fun _ _ => rfl, fun _ => rfl⟩) :
    K.Shaped (c b) := by
  rcases h with ⟨make, h⟩
  have hlength : ∀ {ids : List NodeId}, ids.length = (K.ids (c b)).length →
      ids.length = (T.ids b).length := fun heq => heq.trans (congrArg List.length (hc.ids b))
  have hmap : ∀ {ids}, ids.length = (K.ids (c b)).length → ∀ {m : Type → Type} [Monad m]
      [LawfulMonad m] (f : NodeId → m NodeId), K.map f (c (make ids)) =
        ids.mapM f >>= fun ids' => pure (c (make ids')) := by
    intro ids heq m _ _ f
    exact (hc.map f _).trans (h.rename (hlength heq) f _)
  refine ⟨fun ids => c (make ids), ?_, ?_, ?_, ?_⟩
  · exact congrArg c ((congrArg make (hc.ids b)).trans h.self)
  · exact fun heq => (hc.ids _).trans (h.ids (hlength heq))
  · intro ids heq m _ _ γ f after
    change K.map f (c (make ids)) >>= after = _
    rw [hmap heq, bind_assoc]
    simp only [pure_bind]
  · intro R ids ids' heq hall
    change List.Forall₂ _ (K.nodes (c (make ids))) (K.nodes (c (make ids')))
    rw [hc.nodes, hc.nodes]
    refine List.rel_append (K.relabels ?_) (h.nodes (hlength heq) hall)
    rw [hmap heq]
    exact ⟨ids', Possible.mapM_iff.mpr hall, rfl⟩


theorem Labelling.Shaped.under {α β : Type} {K : Renaming α} {T : Labelling β} {b : β}
    (h : T.Shaped b) (id : NodeId) (c : NodeId → β → α)
    (hc : K.Builds (node.and T) (fun p => c p.1 p.2) := by
      exact ⟨fun _ => rfl, fun _ _ => rfl, fun _ => rfl⟩) : K.Shaped (c id b) :=
  ((shaped_node id).and h).build (fun p => c p.1 p.2) hc

/-!
## Syntax
-/

def Renaming.plain {α : Type} (ids : α → List NodeId)
    (map : {m : Type → Type} → [Monad m] → (NodeId → m NodeId) → α → m α) (nodes : α → List Node) :
    Renaming α :=
  ⟨ids, map, fun _ => [], nodes, fun _ => .nil⟩

def Ident.naming : Renaming Ident :=
  .plain (fun name => [name.id]) Ident.mapId fun _ => []

def Idents.naming : Renaming (List Ident) :=
  .plain (List.map Ident.id) (fun f names => names.mapM (Ident.mapId f)) fun _ => []

def Field.naming : Renaming Field :=
  .plain Field.ids Field.mapIds fun _ => []

def Fields.naming : Renaming (List Field) :=
  .plain (List.flatMap Field.ids) (fun f fields => fields.mapM (Field.mapIds f)) fun _ => []

def FuncType.naming : Renaming FuncType :=
  .plain FuncType.ids FuncType.mapIds fun _ => []

def Expr.naming : Renaming Expr :=
  ⟨Expr.ids, Expr.mapIds, fun e => [.expr e], Expr.nodes, fun h => .cons h .nil⟩

def Exprs.naming : Renaming (List Expr) :=
  .plain Exprs.ids Exprs.mapIds Exprs.nodes

def OptExpr.naming : Renaming (Option Expr) :=
  .plain OptExpr.ids OptExpr.mapIds OptExpr.nodes

def Stmt.naming (listed : Bool) : Renaming Stmt where
  ids := Stmt.ids
  map := Stmt.mapIds
  own s := [bif listed then .stmt s else .header s]
  nodes s := (bif listed then .stmt s else .header s) :: s.parts
  relabels h := .cons (by cases listed <;> exact h) .nil

def Stmts.naming : Renaming (List Stmt) :=
  .plain Stmts.ids Stmts.mapIds Stmts.nodes

def OptStmt.naming (listed : Bool) : Renaming (Option Stmt) :=
  .plain OptStmt.ids OptStmt.mapIds (bif listed then OptStmt.nodes else OptStmt.headerNodes)

def Block.naming : Renaming Block :=
  ⟨Block.ids, Block.mapIds, fun b => [.block b], Block.nodes, fun h => .cons h .nil⟩

def CaseClauses.naming : Renaming (List CaseClause) :=
  .plain CaseClauses.ids CaseClauses.mapIds CaseClauses.nodes

def TypeClauses.naming : Renaming (List TypeClause) :=
  .plain TypeClauses.ids TypeClauses.mapIds TypeClauses.nodes

def CommClauses.naming : Renaming (List CommClause) :=
  .plain CommClauses.ids CommClauses.mapIds CommClauses.nodes

def Decl.naming : Renaming Decl :=
  ⟨Decl.ids, Decl.mapIds, fun d => [.decl d false], Decl.nodes false, fun h => .cons h .nil⟩

def Specs.naming : Renaming (List Spec) :=
  .plain Specs.ids Specs.mapIds Specs.nodes

open Labelling (shaped_node)

theorem Ident.shaped (name : Ident) : Ident.naming.Shaped name :=
  (shaped_node name.id).build fun id => Ident.mk id name.name

theorem Idents.shaped (names : List Ident) : Idents.naming.Shaped names := by
  induction names with
  | nil => exact Renaming.shaped_leaf rfl (fun _ => rfl) rfl
  | cons name rest ih =>
    exact (name.shaped.and ih).build (fun p => p.1 :: p.2)
      ⟨fun _ => rfl, fun _ _ => List.mapM_cons, fun _ => rfl⟩

theorem Field.shaped (field : Field) : Field.naming.Shaped field :=
  (Idents.shaped field.names).build fun names => Field.mk names field.ty

theorem Fields.shaped (fields : List Field) : Fields.naming.Shaped fields := by
  induction fields with
  | nil => exact Renaming.shaped_leaf rfl (fun _ => rfl) rfl
  | cons field rest ih =>
    exact (field.shaped.and ih).build (fun p => p.1 :: p.2)
      ⟨fun _ => rfl, fun _ _ => List.mapM_cons, fun _ => rfl⟩

theorem FuncType.shaped (sig : FuncType) : FuncType.naming.Shaped sig :=
  ((Fields.shaped sig.params).and (Fields.shaped sig.results)).build
    (fun p => FuncType.mk p.1 p.2 sig.variadic)
    ⟨fun _ => List.flatMap_append, fun _ _ => rfl, fun _ => rfl⟩

mutual

theorem Expr.shaped (e : Expr) : Expr.naming.Shaped e := by
  cases e with
  | ident id name => exact (shaped_node id).build (Expr.ident · name)
  | lit id value => exact (shaped_node id).build (Expr.lit · value)
  | type id ty => exact (shaped_node id).build (Expr.type · ty)
  | composite id ty elts => exact (Exprs.shaped elts).under id (Expr.composite · ty ·)
  | keyValue id x y => exact (x.shaped.and y.shaped).under id fun id p => Expr.keyValue id p.1 p.2
  | funcLit id sig body =>
    exact (sig.shaped.and body.shaped).under id fun id p => Expr.funcLit id p.1 p.2
  | paren id x => exact x.shaped.under id Expr.paren
  | selector id x name => exact x.shaped.under id (Expr.selector · · name)
  | index id x i => exact (x.shaped.and i.shaped).under id fun id p => Expr.index id p.1 p.2
  | slice id x low high max =>
    exact (((x.shaped.and (OptExpr.shaped low)).and (OptExpr.shaped high)).and
      (OptExpr.shaped max)).under id fun id p => Expr.slice id p.1.1.1 p.1.1.2 p.1.2 p.2
  | typeAssert id x ty => exact x.shaped.under id (Expr.typeAssert · · ty)
  | call id callee args spread =>
    exact (callee.shaped.and (Exprs.shaped args)).under id fun id p => Expr.call id p.1 p.2 spread
  | star id x => exact x.shaped.under id Expr.star
  | unary id op x => exact x.shaped.under id (Expr.unary · op ·)
  | binary id op x y => exact (x.shaped.and y.shaped).under id fun id p => Expr.binary id op p.1 p.2

theorem Exprs.shaped (es : List Expr) : Exprs.naming.Shaped es := by
  cases es with
  | nil => exact Renaming.shaped_leaf rfl (fun _ => rfl) rfl
  | cons e rest => exact (e.shaped.and (Exprs.shaped rest)).build fun p => p.1 :: p.2

theorem OptExpr.shaped (e : Option Expr) : OptExpr.naming.Shaped e := by
  cases e with
  | none => exact Renaming.shaped_leaf rfl (fun _ => rfl) rfl
  | some e => exact e.shaped.build some

theorem Stmt.shaped (s : Stmt) (listed : Bool) : (Stmt.naming listed).Shaped s := by
  cases s with
  | decl id d => exact d.shaped.under id Stmt.decl
  | assign id lhs op rhs =>
    exact ((Exprs.shaped lhs).and (Exprs.shaped rhs)).under id fun id p => Stmt.assign id p.1 op p.2
  | expr id x => exact x.shaped.under id Stmt.expr
  | incDec id x inc => exact x.shaped.under id (Stmt.incDec · · inc)
  | send id x y => exact (x.shaped.and y.shaped).under id fun id p => Stmt.send id p.1 p.2
  | go id call => exact call.shaped.under id Stmt.go
  | defer id call => exact call.shaped.under id Stmt.defer
  | ret id values => exact (Exprs.shaped values).under id Stmt.ret
  | branch id kind label => exact (shaped_node id).build (Stmt.branch · kind label)
  | block id body => exact body.shaped.under id Stmt.block
  | ifElse id init cond body els =>
    exact ((((OptStmt.shaped init false).and cond.shaped).and body.shaped).and
      (OptStmt.shaped els true)).under id fun id p => Stmt.ifElse id p.1.1.1 p.1.1.2 p.1.2 p.2
  | switch id init tag clauses =>
    exact (((OptStmt.shaped init false).and (OptExpr.shaped tag)).and
      (CaseClauses.shaped clauses)).under id fun id p => Stmt.switch id p.1.1 p.1.2 p.2
  | typeSwitch id init guard clauses =>
    exact (((OptStmt.shaped init false).and (guard.shaped false)).and
      (TypeClauses.shaped clauses)).under id fun id p => Stmt.typeSwitch id p.1.1 p.1.2 p.2
  | select id clauses => exact (CommClauses.shaped clauses).under id Stmt.select
  | forLoop id init cond post body =>
    exact ((((OptStmt.shaped init false).and (OptExpr.shaped cond)).and
      (OptStmt.shaped post false)).and body.shaped).under id
      fun id p => Stmt.forLoop id p.1.1.1 p.1.1.2 p.1.2 p.2
  | range id key value define x body =>
    exact ((((OptExpr.shaped key).and (OptExpr.shaped value)).and x.shaped).and body.shaped)
      |>.under id
      fun id p => Stmt.range id p.1.1.1 p.1.1.2 define p.1.2 p.2
  | labeled id label s => exact (s.shaped true).under id (Stmt.labeled · label ·)
  | empty id => exact (shaped_node id).build Stmt.empty

theorem Stmts.shaped (stmts : List Stmt) : Stmts.naming.Shaped stmts := by
  cases stmts with
  | nil => exact Renaming.shaped_leaf rfl (fun _ => rfl) rfl
  | cons s rest => exact ((s.shaped true).and (Stmts.shaped rest)).build fun p => p.1 :: p.2

theorem OptStmt.shaped (s : Option Stmt) (listed : Bool) : (OptStmt.naming listed).Shaped s := by
  cases s with
  | none => cases listed <;> exact Renaming.shaped_leaf rfl (fun _ => rfl) rfl
  | some s =>
    cases listed with
    | true => exact (s.shaped true).build some
    | false => exact (s.shaped false).build some

theorem Block.shaped (b : Block) : Block.naming.Shaped b := by
  cases b with
  | mk id stmts => exact (Stmts.shaped stmts).under id Block.mk

theorem CaseClauses.shaped (cs : List CaseClause) : CaseClauses.naming.Shaped cs := by
  cases cs with
  | nil => exact Renaming.shaped_leaf rfl (fun _ => rfl) rfl
  | cons c rest =>
    rcases c with ⟨id, _ | list, body⟩
    · exact ((Stmts.shaped body).and (CaseClauses.shaped rest)).under id
        fun id p => CaseClause.mk id none p.1 :: p.2
    · exact (((Exprs.shaped list).and (Stmts.shaped body)).and (CaseClauses.shaped rest)).under id
        fun id p => CaseClause.mk id (some p.1.1) p.1.2 :: p.2

theorem TypeClauses.shaped (cs : List TypeClause) : TypeClauses.naming.Shaped cs := by
  cases cs with
  | nil => exact Renaming.shaped_leaf rfl (fun _ => rfl) rfl
  | cons c rest =>
    rcases c with ⟨id, types, body⟩
    exact ((Stmts.shaped body).and (TypeClauses.shaped rest)).under id
      fun id p => TypeClause.mk id types p.1 :: p.2

theorem CommClauses.shaped (cs : List CommClause) : CommClauses.naming.Shaped cs := by
  cases cs with
  | nil => exact Renaming.shaped_leaf rfl (fun _ => rfl) rfl
  | cons c rest =>
    rcases c with ⟨id, comm, body⟩
    exact (((OptStmt.shaped comm false).and (Stmts.shaped body)).and
      (CommClauses.shaped rest)).under
      id fun id p => CommClause.mk id p.1.1 p.1.2 :: p.2

theorem Decl.shaped (d : Decl) : Decl.naming.Shaped d := by
  cases d with
  | mk id kind specs => exact (Specs.shaped specs).under id (Decl.mk · kind ·)

theorem Specs.shaped (specs : List Spec) : Specs.naming.Shaped specs := by
  cases specs with
  | nil => exact Renaming.shaped_leaf rfl (fun _ => rfl) rfl
  | cons spec rest =>
    rcases spec with ⟨id, names, ty, values⟩ | spec
    · exact (((Idents.shaped names).and (Exprs.shaped values)).and (Specs.shaped rest)).under id
        fun id p => Spec.value ⟨id, p.1.1, ty, p.1.2⟩ :: p.2
    · exact (spec.name.shaped.and (Specs.shaped rest)).build
        fun p => Spec.type ⟨p.1, spec.ty, spec.isAlias⟩ :: p.2

end

theorem Stmt.ids_mapIds {m : Type → Type} [Monad m] [LawfulMonad m] (f : NodeId → m NodeId)
    (s : Stmt) : Stmt.ids <$> s.mapIds f = s.ids.mapM f :=
  (s.shaped true).ids_map f

end Desugar
