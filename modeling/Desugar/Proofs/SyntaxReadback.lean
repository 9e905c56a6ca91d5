import Desugar.Proofs.Readback
import Mathlib.Algebra.Order.SuccPred
import Mathlib.Algebra.Order.Sub.Basic
import Mathlib.Data.Nat.SuccPred

/-!
# Reading trees back

The readers of trees recover the tree that was encoded, for every part of the
encoding of a tree is read.  The readers that meet each other inside a value are
taken together, one allowance of nesting after the other.
-/

namespace Desugar

open Json

/-!
## Room for a value

What is read of a value is nested in one, two or three arrays and objects.
-/

section Fits

variable {q : Prop} {depth room : Nat}

theorem fits_one (h : q ↔ depth ≤ room - 1) : 0 < room ∧ q ↔ depth < room := by
  rw [h]
  omega

theorem fits_two (h : q ↔ depth ≤ room - 2) : 0 < room ∧ 1 < room ∧ q ↔ depth + 1 < room := by
  rw [h]
  omega

theorem fits_three (h : q ↔ depth ≤ room - 3) :
    0 < room ∧ 1 < room ∧ 2 < room ∧ q ↔ depth + 1 + 1 < room := by
  rw [h]
  omega

end Fits

/-!
## Names, keywords and literals
-/

@[simp] theorem NodeId.depth_toJson (id : NodeId) : id.toJson.depth = 0 :=
  depth_ofNat _

@[simp] theorem NodeId.ofJson?_seen (id : NodeId) (room : Nat) :
    NodeId.ofJson? (id.toJson.seen room) = some id := by
  simp [NodeId.ofJson?, NodeId.toJson]

theorem Ident.recovers (ident : Ident) (room : Nat) :
    Recovers Ident.ofJson? ident.toJson room ident := by
  simp [Recovers, Ident.ofJson?, Ident.toJson, fieldsDepth]
  exact ite_none_congr (by omega)

@[simp] theorem UnaryOp.ofJson?_tag (op : UnaryOp) : UnaryOp.ofJson? (.str op.tag) = some op := by
  cases op <;> rfl

@[simp] theorem BinaryOp.ofJson?_tag (op : BinaryOp) :
    BinaryOp.ofJson? (.str op.tag) = some op := by
  cases op <;> rfl

@[simp] theorem BranchKind.ofJson?_tag (kind : BranchKind) :
    BranchKind.ofJson? (.str kind.tag) = some kind := by
  cases kind <;> rfl

@[simp] theorem DeclKind.ofJson?_tag (kind : DeclKind) :
    DeclKind.ofJson? (.str kind.tag) = some kind := by
  cases kind <;> rfl

@[simp] theorem ChanDir.ofJson?_tag (dir : ChanDir) :
    ChanDir.ofJson? (.str dir.tag) = some dir := by
  cases dir <;> rfl

theorem AssignOp.recovers (op : AssignOp) (room : Nat) :
    Recovers AssignOp.ofJson? op.toJson room op := by
  cases op with
  | compound op =>
    simp [Recovers, AssignOp.toJson, AssignOp.ofJson?]
    rfl
  | assign | define => simp [Recovers, AssignOp.toJson, AssignOp.ofJson?, isUnit]

theorem Literal.recovers (value : Literal) (room : Nat) :
    Recovers Literal.ofJson? value.toJson room value := by
  cases value <;> simp [Recovers, Literal.toJson, Literal.ofJson?, isUnit] <;> rfl

/-!
## Type expressions
-/

def FieldExpr.toJson (field : FieldExpr) : Json :=
  .obj [("name", .ofOption .str field.name), ("ty", field.ty.toJson)]

def MethodExpr.toJson (method : MethodExpr) : Json :=
  .obj [("name", .str method.name), ("sig", method.sig.toJson)]

theorem eq_map_of_cons {α β : Type} {f : α → β} {walk : List α → List β} (hnil : walk [] = [])
    (hcons : ∀ a rest, walk (a :: rest) = f a :: walk rest) (items : List α) :
    walk items = items.map f := by
  induction items with
  | nil => exact hnil
  | cons a rest ih => rw [hcons, ih, List.map_cons]

@[simp] theorem TypeExprs.toJson_eq_map (types : List TypeExpr) :
    TypeExprs.toJson types = types.map TypeExpr.toJson :=
  eq_map_of_cons rfl (fun _ _ => rfl) types

@[simp] theorem FieldExprs.toJson_eq_map (fields : List FieldExpr) :
    FieldExprs.toJson fields = fields.map FieldExpr.toJson :=
  eq_map_of_cons rfl (fun field _ => by cases field; rfl) fields

@[simp] theorem MethodExprs.toJson_eq_map (methods : List MethodExpr) :
    MethodExprs.toJson methods = methods.map MethodExpr.toJson :=
  eq_map_of_cons rfl (fun method _ => by cases method; rfl) methods

theorem TypeExpr.depth_pos (ty : TypeExpr) : 0 < ty.toJson.depth := by
  cases ty <;> simp [TypeExpr.toJson]

theorem TypeExpr.recoverable_succ {n : Nat} (hty : Recoverable TypeExpr.read TypeExpr.toJson n)
    (hfield : Recoverable FieldExpr.read FieldExpr.toJson n)
    (hmethod : Recoverable MethodExpr.read MethodExpr.toJson n) :
    Recoverable TypeExpr.read TypeExpr.toJson (n + 1) := by
  intro ty room hroom
  cases ty with
  | named name =>
    simp [Recovers, TypeExpr.toJson, TypeExpr.read]
    rfl
  | qualified package name =>
    simp [Recovers, TypeExpr.toJson, TypeExpr.read, fieldsDepth]
    exact ite_none_congr (by omega)
  | generic base args =>
    have hbase := hty base (room - 2) (by omega)
    have hargs := hty.list args (room - 2) (by omega)
    simp [Recovers, TypeExpr.toJson, TypeExpr.read, fieldsDepth, Nat.sub_sub, hbase.eq, hargs.eq]
    exact ite_none_congr (fits_two (by simp only [Nat.max_le, Nat.add_one_le_iff]))
  | pointer elem | slice elem =>
    have helem := hty elem (room - 1) (by omega)
    simp [Recovers, TypeExpr.toJson, TypeExpr.read, helem.eq]
    exact ite_none_congr (fits_one Iff.rfl)
  | array len elem =>
    have hlen := Recovers.optional_length (room - 2) len
    have helem := hty elem (room - 2) (by omega)
    simp [Recovers, TypeExpr.toJson, TypeExpr.read, fieldsDepth, Nat.sub_sub, hlen.eq, helem.eq]
    exact ite_none_congr (fits_two Iff.rfl)
  | map key value =>
    have hkey := hty key (room - 2) (by omega)
    have hvalue := hty value (room - 2) (by omega)
    simp [Recovers, TypeExpr.toJson, TypeExpr.read, fieldsDepth, Nat.sub_sub, hkey.eq, hvalue.eq]
    exact ite_none_congr (fits_two (by simp only [Nat.max_le]))
  | chan dir elem =>
    have helem := hty elem (room - 2) (by omega)
    simp [Recovers, TypeExpr.toJson, TypeExpr.read, fieldsDepth, Nat.sub_sub, helem.eq]
    exact ite_none_congr (fits_two Iff.rfl)
  | func params results variadic =>
    have hparams := hty.list params (room - 2) (by omega)
    have hresults := hty.list results (room - 2) (by omega)
    simp [Recovers, TypeExpr.toJson, TypeExpr.read, fieldsDepth, Nat.sub_sub, hparams.eq,
      hresults.eq]
    exact ite_none_congr (by omega)
  | struct fields =>
    have hfields := hfield.list fields (room - 1) (by omega)
    simp [Recovers, TypeExpr.toJson, TypeExpr.read, hfields.eq]
    exact ite_none_congr (fits_one Iff.rfl)
  | interface methods =>
    have hmethods := hmethod.list methods (room - 1) (by omega)
    simp [Recovers, TypeExpr.toJson, TypeExpr.read, hmethods.eq]
    exact ite_none_congr (fits_one Iff.rfl)

theorem FieldExpr.recoverable_succ {n : Nat} (hty : Recoverable TypeExpr.read TypeExpr.toJson n) :
    Recoverable FieldExpr.read FieldExpr.toJson (n + 1) := by
  rintro ⟨name, ty⟩ room hroom
  have hname := Recovers.optional_text (room - 1) name
  have hfield := hty ty (room - 1) (by omega)
  simp [Recovers, FieldExpr.toJson, FieldExpr.read, fieldsDepth, hname.eq, hfield.eq]
  exact ite_none_congr (fits_one Iff.rfl)

theorem MethodExpr.recoverable_succ {n : Nat} (hty : Recoverable TypeExpr.read TypeExpr.toJson n) :
    Recoverable MethodExpr.read MethodExpr.toJson (n + 1) := by
  rintro ⟨name, sig⟩ room hroom
  have hsig := hty sig (room - 1) (by omega)
  simp [Recovers, MethodExpr.toJson, MethodExpr.read, fieldsDepth, hsig.eq]
  exact ite_none_congr (fits_one Iff.rfl)

theorem TypeExpr.recoverable (n : Nat) :
    Recoverable TypeExpr.read TypeExpr.toJson n ∧ Recoverable FieldExpr.read FieldExpr.toJson n ∧
      Recoverable MethodExpr.read MethodExpr.toJson n := by
  induction n with
  | zero =>
    exact ⟨.zero TypeExpr.depth_pos fun _ => rfl, .zero (by simp [FieldExpr.toJson]) fun _ => rfl,
      .zero (by simp [MethodExpr.toJson]) fun _ => rfl⟩
  | succ n ih =>
    obtain ⟨hty, hfield, hmethod⟩ := ih
    exact ⟨recoverable_succ hty hfield hmethod, FieldExpr.recoverable_succ hty,
      MethodExpr.recoverable_succ hty⟩

theorem TypeExpr.recovers (ty : TypeExpr) (room : Nat) :
    Recovers TypeExpr.ofJson? ty.toJson room ty :=
  Recoverable.depth_succ (fun n => (TypeExpr.recoverable n).1) ty room

theorem TypeExpr.recovers_optional (ty : Option TypeExpr) (room : Nat) :
    Recovers (nullable? TypeExpr.ofJson?) (ofOption TypeExpr.toJson ty) room ty :=
  Recovers.optional ty (fun ty => seen_ne_null ty.depth_pos room) fun ty _ => ty.recovers room

theorem TypeExprs.recovers_optional (types : Option (List TypeExpr)) (room : Nat) :
    Recovers (nullable? (list? TypeExpr.ofJson?))
      (ofOption (fun types => .arr (types.map TypeExpr.toJson)) types) room types :=
  Recovers.optional types (fun types => seen_ne_null (by simp) room) fun types _ =>
    Recovers.list types fun ty _ => ty.recovers (room - 1)

theorem Idents.recovers (idents : List Ident) (room : Nat) :
    Recovers (list? Ident.ofJson?) (arr (idents.map Ident.toJson)) room idents :=
  Recovers.list idents fun ident _ => ident.recovers (room - 1)

theorem Field.recovers (field : Field) (room : Nat) :
    Recovers Field.ofJson? field.toJson room field := by
  obtain ⟨names, ty⟩ := field
  have hnames := Idents.recovers names (room - 1)
  have hty := ty.recovers (room - 1)
  simp [Recovers, Field.ofJson?, Field.toJson, fieldsDepth, hnames.eq, hty.eq]
  exact ite_none_congr (by omega)

theorem Fields.recovers (fields : List Field) (room : Nat) :
    Recovers (list? Field.ofJson?) (arr (fields.map Field.toJson)) room fields :=
  Recovers.list fields fun field _ => field.recovers (room - 1)

theorem FuncType.recovers (sig : FuncType) (room : Nat) :
    Recovers FuncType.ofJson? sig.toJson room sig := by
  obtain ⟨params, results, variadic⟩ := sig
  have hparams := Fields.recovers params (room - 1)
  have hresults := Fields.recovers results (room - 1)
  simp [Recovers, FuncType.ofJson?, FuncType.toJson, fieldsDepth, hparams.eq, hresults.eq]
  exact ite_none_congr (by omega)

theorem TypeSpec.recovers (spec : TypeSpec) (room : Nat) :
    Recovers TypeSpec.ofJson? spec.toJson room spec := by
  obtain ⟨name, ty, isAlias⟩ := spec
  have hname := name.recovers (room - 1)
  have hty := ty.recovers (room - 1)
  simp [Recovers, TypeSpec.ofJson?, TypeSpec.toJson, fieldsDepth, hname.eq, hty.eq]
  exact ite_none_congr (by omega)

/-!
## Expressions, statements and declarations
-/

@[simp] theorem Json.depth_node (id : NodeId) (kind : Json) :
    (Json.node id kind).depth = kind.depth + 1 := by
  simp [Json.node, fieldsDepth]

@[simp] theorem Json.node?_seen (id : NodeId) (kind : Json) (room : Nat) :
    ((Json.node id kind).seen room).node? =
      if 0 < room then some (id, kind.seen (room - 1)) else none := by
  simp [Json.node, Json.node?]

theorem Json.node?_bind {α : Type} (id : NodeId) (kind : Json) (room : Nat)
    (next : NodeId × Json → Option α) :
    (((Json.node id kind).seen room).node? >>= next) =
      if 0 < room then next (id, kind.seen (room - 1)) else none := by
  rw [node?_seen]
  split <;> rfl

def CaseClause.toJson (clause : CaseClause) : Json :=
  .obj [("id", clause.id.toJson),
    ("list", .ofOption (fun list => .arr (Exprs.toJson list)) clause.list),
    ("body", .arr (Stmts.toJson clause.body))]

def TypeClause.toJson (clause : TypeClause) : Json :=
  .obj [("id", clause.id.toJson),
    ("types", .ofOption (fun types => .arr (TypeExprs.toJson types)) clause.types),
    ("body", .arr (Stmts.toJson clause.body))]

def CommClause.toJson (clause : CommClause) : Json :=
  .obj [("id", clause.id.toJson), ("comm", OptStmt.toJson clause.comm),
    ("body", .arr (Stmts.toJson clause.body))]

def ValueSpec.toJson (spec : ValueSpec) : Json :=
  .obj [("id", spec.id.toJson), ("names", .arr (spec.names.map Ident.toJson)),
    ("ty", .ofOption TypeExpr.toJson spec.ty), ("values", .arr (Exprs.toJson spec.values))]

def Spec.toJson : Spec → Json
  | .value spec => .tagWith "Value" spec.toJson
  | .type spec => .tagWith "Type" spec.toJson

@[simp] theorem Exprs.toJson_eq_map (exprs : List Expr) :
    Exprs.toJson exprs = exprs.map Expr.toJson :=
  eq_map_of_cons rfl (fun _ _ => rfl) exprs

@[simp] theorem OptExpr.toJson_eq_ofOption (o : Option Expr) :
    OptExpr.toJson o = ofOption Expr.toJson o := by
  cases o <;> rfl

@[simp] theorem Stmts.toJson_eq_map (stmts : List Stmt) :
    Stmts.toJson stmts = stmts.map Stmt.toJson :=
  eq_map_of_cons rfl (fun _ _ => rfl) stmts

@[simp] theorem OptStmt.toJson_eq_ofOption (o : Option Stmt) :
    OptStmt.toJson o = ofOption Stmt.toJson o := by
  cases o <;> rfl

@[simp] theorem CaseClauses.toJson_eq_map (clauses : List CaseClause) :
    CaseClauses.toJson clauses = clauses.map CaseClause.toJson := by
  refine eq_map_of_cons rfl (fun clause _ => ?_) clauses
  rcases clause with ⟨id, _ | list, body⟩ <;> rfl

@[simp] theorem TypeClauses.toJson_eq_map (clauses : List TypeClause) :
    TypeClauses.toJson clauses = clauses.map TypeClause.toJson :=
  eq_map_of_cons rfl (fun clause _ => by cases clause; rfl) clauses

@[simp] theorem CommClauses.toJson_eq_map (clauses : List CommClause) :
    CommClauses.toJson clauses = clauses.map CommClause.toJson :=
  eq_map_of_cons rfl (fun clause _ => by cases clause; rfl) clauses

@[simp] theorem Specs.toJson_eq_map (specs : List Spec) :
    Specs.toJson specs = specs.map Spec.toJson := by
  refine eq_map_of_cons rfl (fun spec _ => ?_) specs
  rcases spec with ⟨id, names, ty, values⟩ | spec <;> rfl

theorem Expr.depth_pos (e : Expr) : 0 < e.toJson.depth := by
  cases e <;> simp [Expr.toJson]

theorem Stmt.depth_pos (s : Stmt) : 0 < s.toJson.depth := by
  cases s <;> simp [Stmt.toJson]

theorem Block.depth_pos (b : Block) : 0 < b.toJson.depth := by
  cases b
  simp [Block.toJson]

theorem Decl.depth_pos (d : Decl) : 0 < d.toJson.depth := by
  cases d
  simp [Decl.toJson]

structure NodesRecoverable (n : Nat) : Prop where
  expr : Recoverable Expr.read Expr.toJson n
  stmt : Recoverable Stmt.read Stmt.toJson n
  block : Recoverable Block.read Block.toJson n
  caseClause : Recoverable CaseClause.read CaseClause.toJson n
  typeClause : Recoverable TypeClause.read TypeClause.toJson n
  commClause : Recoverable CommClause.read CommClause.toJson n
  decl : Recoverable Decl.read Decl.toJson n
  spec : Recoverable Spec.read Spec.toJson n
  valueSpec : Recoverable ValueSpec.read ValueSpec.toJson n

namespace NodesRecoverable

variable {n : Nat}

theorem optExpr (h : NodesRecoverable n) (o : Option Expr) (room : Nat) (hroom : room ≤ n) :
    Recovers (nullable? (Expr.read n)) (ofOption Expr.toJson o) room o :=
  h.expr.optional Expr.depth_pos o room hroom

theorem optStmt (h : NodesRecoverable n) (o : Option Stmt) (room : Nat) (hroom : room ≤ n) :
    Recovers (nullable? (Stmt.read n)) (ofOption Stmt.toJson o) room o :=
  h.stmt.optional Stmt.depth_pos o room hroom

theorem expr_succ (h : NodesRecoverable n) : Recoverable Expr.read Expr.toJson (n + 1) := by
  intro e room hroom
  rw [Recovers, Expr.read]
  cases e with
  | ident id name =>
    rw [Expr.toJson, node?_bind]
    dsimp only
    rw [variant?_bind_tagWith]
    simp [Nat.sub_sub]
    exact ite_none_congr (by omega)
  | lit id value | type id value =>
    have hvalue := value.recovers (room - 2)
    rw [Expr.toJson, node?_bind]
    dsimp only
    rw [variant?_bind_tagWith]
    simp [Nat.sub_sub, hvalue.eq]
    exact ite_none_congr (fits_two Iff.rfl)
  | composite id ty elts =>
    have hty := TypeExpr.recovers_optional ty (room - 3)
    have helts := h.expr.list elts (room - 3) (by omega)
    rw [Expr.toJson, node?_bind]
    dsimp only
    rw [variant?_bind_tagRecord]
    simp [fieldsDepth, Nat.sub_sub, hty.eq, helts.eq]
    exact ite_none_congr (fits_three (by simp only [Nat.max_le, Nat.add_one_le_iff]))
  | keyValue id key value | index id key value | binary id op key value =>
    have hkey := h.expr key (room - 3) (by omega)
    have hvalue := h.expr value (room - 3) (by omega)
    rw [Expr.toJson, node?_bind]
    dsimp only
    rw [variant?_bind_tagRecord]
    simp [fieldsDepth, Nat.sub_sub, hkey.eq, hvalue.eq]
    exact ite_none_congr (fits_three (by simp only [Nat.max_le]))
  | funcLit id sig body =>
    have hsig := sig.recovers (room - 3)
    have hbody := h.block body (room - 3) (by omega)
    rw [Expr.toJson, node?_bind]
    dsimp only
    rw [variant?_bind_tagRecord]
    simp [fieldsDepth, Nat.sub_sub, hsig.eq, hbody.eq]
    exact ite_none_congr (fits_three (by simp only [Nat.max_le]))
  | paren id x | star id x =>
    have hx := h.expr x (room - 2) (by omega)
    rw [Expr.toJson, node?_bind]
    dsimp only
    rw [variant?_bind_tagWith]
    simp [Nat.sub_sub, hx.eq]
    exact ite_none_congr (fits_two Iff.rfl)
  | selector id x name | unary id op x =>
    have hx := h.expr x (room - 3) (by omega)
    rw [Expr.toJson, node?_bind]
    dsimp only
    rw [variant?_bind_tagRecord]
    simp [fieldsDepth, Nat.sub_sub, hx.eq]
    exact ite_none_congr (fits_three Iff.rfl)
  | slice id x low high max =>
    have hx := h.expr x (room - 3) (by omega)
    have hlow := h.optExpr low (room - 3) (by omega)
    have hhigh := h.optExpr high (room - 3) (by omega)
    have hmax := h.optExpr max (room - 3) (by omega)
    rw [Expr.toJson, node?_bind]
    dsimp only
    rw [variant?_bind_tagRecord]
    simp [fieldsDepth, Nat.sub_sub, hx.eq, hlow.eq, hhigh.eq, hmax.eq]
    exact ite_none_congr (fits_three (by simp only [Nat.max_le]))
  | typeAssert id x ty =>
    have hx := h.expr x (room - 3) (by omega)
    have hty := TypeExpr.recovers_optional ty (room - 3)
    rw [Expr.toJson, node?_bind]
    dsimp only
    rw [variant?_bind_tagRecord]
    simp [fieldsDepth, Nat.sub_sub, hx.eq, hty.eq]
    exact ite_none_congr (fits_three (by simp only [Nat.max_le]))
  | call id callee args spread =>
    have hcallee := h.expr callee (room - 3) (by omega)
    have hargs := h.expr.list args (room - 3) (by omega)
    rw [Expr.toJson, node?_bind]
    dsimp only
    rw [variant?_bind_tagRecord]
    simp [fieldsDepth, Nat.sub_sub, hcallee.eq, hargs.eq]
    exact ite_none_congr (fits_three (by simp only [Nat.max_le, Nat.add_one_le_iff]))

theorem stmt_succ (h : NodesRecoverable n) : Recoverable Stmt.read Stmt.toJson (n + 1) := by
  intro s room hroom
  rw [Recovers, Stmt.read]
  cases s with
  | decl id decl =>
    have hdecl := h.decl decl (room - 2) (by omega)
    rw [Stmt.toJson, node?_bind]
    dsimp only
    rw [variant?_bind_tagWith]
    simp [Nat.sub_sub, hdecl.eq]
    exact ite_none_congr (fits_two Iff.rfl)
  | assign id lhs op rhs =>
    have hlhs := h.expr.list lhs (room - 3) (by omega)
    have hop := op.recovers (room - 3)
    have hrhs := h.expr.list rhs (room - 3) (by omega)
    rw [Stmt.toJson, node?_bind]
    dsimp only
    rw [variant?_bind_tagRecord]
    simp [fieldsDepth, Nat.sub_sub, hlhs.eq, hop.eq, hrhs.eq]
    exact ite_none_congr (fits_three (by simp only [Nat.max_le, Nat.add_one_le_iff]))
  | expr id x | go id x | defer id x =>
    have hx := h.expr x (room - 2) (by omega)
    rw [Stmt.toJson, node?_bind]
    dsimp only
    rw [variant?_bind_tagWith]
    simp [Nat.sub_sub, hx.eq]
    exact ite_none_congr (fits_two Iff.rfl)
  | incDec id x inc =>
    have hx := h.expr x (room - 3) (by omega)
    rw [Stmt.toJson, node?_bind]
    dsimp only
    rw [variant?_bind_tagRecord]
    simp [fieldsDepth, Nat.sub_sub, hx.eq]
    exact ite_none_congr (fits_three Iff.rfl)
  | send id chan value =>
    have hchan := h.expr chan (room - 3) (by omega)
    have hvalue := h.expr value (room - 3) (by omega)
    rw [Stmt.toJson, node?_bind]
    dsimp only
    rw [variant?_bind_tagRecord]
    simp [fieldsDepth, Nat.sub_sub, hchan.eq, hvalue.eq]
    exact ite_none_congr (fits_three (by simp only [Nat.max_le]))
  | ret id values =>
    have hvalues := h.expr.list values (room - 2) (by omega)
    rw [Stmt.toJson, node?_bind]
    dsimp only
    rw [variant?_bind_tagWith]
    simp [Nat.sub_sub, hvalues.eq]
    exact ite_none_congr (fits_two Iff.rfl)
  | branch id kind label =>
    have hlabel := Recovers.optional_text (room - 3) label
    rw [Stmt.toJson, node?_bind]
    dsimp only
    rw [variant?_bind_tagRecord]
    simp [fieldsDepth, Nat.sub_sub, hlabel.eq]
    exact ite_none_congr (by omega)
  | block id body =>
    have hbody := h.block body (room - 2) (by omega)
    rw [Stmt.toJson, node?_bind]
    dsimp only
    rw [variant?_bind_tagWith]
    simp [Nat.sub_sub, hbody.eq]
    exact ite_none_congr (fits_two Iff.rfl)
  | ifElse id init cond body els =>
    have hinit := h.optStmt init (room - 3) (by omega)
    have hcond := h.expr cond (room - 3) (by omega)
    have hbody := h.block body (room - 3) (by omega)
    have hels := h.optStmt els (room - 3) (by omega)
    rw [Stmt.toJson, node?_bind]
    dsimp only
    rw [variant?_bind_tagRecord]
    simp [fieldsDepth, Nat.sub_sub, hinit.eq, hcond.eq, hbody.eq, hels.eq]
    exact ite_none_congr (fits_three (by simp only [Nat.max_le]))
  | switch id init tag clauses =>
    have hinit := h.optStmt init (room - 3) (by omega)
    have htag := h.optExpr tag (room - 3) (by omega)
    have hclauses := h.caseClause.list clauses (room - 3) (by omega)
    rw [Stmt.toJson, node?_bind]
    dsimp only
    rw [variant?_bind_tagRecord]
    simp [fieldsDepth, Nat.sub_sub, hinit.eq, htag.eq, hclauses.eq]
    exact ite_none_congr (fits_three (by simp only [Nat.max_le, Nat.add_one_le_iff]))
  | typeSwitch id init guard clauses =>
    have hinit := h.optStmt init (room - 3) (by omega)
    have hguard := h.stmt guard (room - 3) (by omega)
    have hclauses := h.typeClause.list clauses (room - 3) (by omega)
    rw [Stmt.toJson, node?_bind]
    dsimp only
    rw [variant?_bind_tagRecord]
    simp [fieldsDepth, Nat.sub_sub, hinit.eq, hguard.eq, hclauses.eq]
    exact ite_none_congr (fits_three (by simp only [Nat.max_le, Nat.add_one_le_iff]))
  | select id clauses =>
    have hclauses := h.commClause.list clauses (room - 3) (by omega)
    rw [Stmt.toJson, node?_bind]
    dsimp only
    rw [variant?_bind_tagRecord]
    simp [fieldsDepth, Nat.sub_sub, hclauses.eq]
    exact ite_none_congr (fits_three Iff.rfl)
  | forLoop id init cond post body =>
    have hinit := h.optStmt init (room - 3) (by omega)
    have hcond := h.optExpr cond (room - 3) (by omega)
    have hpost := h.optStmt post (room - 3) (by omega)
    have hbody := h.block body (room - 3) (by omega)
    rw [Stmt.toJson, node?_bind]
    dsimp only
    rw [variant?_bind_tagRecord]
    simp [fieldsDepth, Nat.sub_sub, hinit.eq, hcond.eq, hpost.eq, hbody.eq]
    exact ite_none_congr (fits_three (by simp only [Nat.max_le]))
  | range id key value define x body =>
    have hkey := h.optExpr key (room - 3) (by omega)
    have hvalue := h.optExpr value (room - 3) (by omega)
    have hx := h.expr x (room - 3) (by omega)
    have hbody := h.block body (room - 3) (by omega)
    rw [Stmt.toJson, node?_bind]
    dsimp only
    rw [variant?_bind_tagRecord]
    simp [fieldsDepth, Nat.sub_sub, hkey.eq, hvalue.eq, hx.eq, hbody.eq]
    exact ite_none_congr (fits_three (by simp only [Nat.max_le]))
  | labeled id label stmt =>
    have hstmt := h.stmt stmt (room - 3) (by omega)
    rw [Stmt.toJson, node?_bind]
    dsimp only
    rw [variant?_bind_tagRecord]
    simp [fieldsDepth, Nat.sub_sub, hstmt.eq]
    exact ite_none_congr (fits_three Iff.rfl)
  | empty id =>
    rw [Stmt.toJson, node?_bind]
    simp [isUnit]
    rfl

theorem block_succ (h : NodesRecoverable n) : Recoverable Block.read Block.toJson (n + 1) := by
  rintro ⟨id, stmts⟩ room hroom
  have hstmts := h.stmt.list stmts (room - 1) (by omega)
  simp [Recovers, Block.toJson, Block.read, fieldsDepth, hstmts.eq]
  exact ite_none_congr (fits_one Iff.rfl)

theorem caseClause_succ (h : NodesRecoverable n) :
    Recoverable CaseClause.read CaseClause.toJson (n + 1) := by
  rintro ⟨id, list, body⟩ room hroom
  have hlist : Recovers (nullable? (list? (Expr.read n)))
      (ofOption (fun list => .arr (list.map Expr.toJson)) list) (room - 1) list :=
    Recovers.optional list (fun list => seen_ne_null (by simp) (room - 1))
      fun list _ => h.expr.list list (room - 1) (by omega)
  have hbody := h.stmt.list body (room - 1) (by omega)
  simp [Recovers, CaseClause.toJson, CaseClause.read, fieldsDepth, hlist.eq, hbody.eq]
  exact ite_none_congr (by omega)

theorem typeClause_succ (h : NodesRecoverable n) :
    Recoverable TypeClause.read TypeClause.toJson (n + 1) := by
  rintro ⟨id, types, body⟩ room hroom
  have htypes := TypeExprs.recovers_optional types (room - 1)
  have hbody := h.stmt.list body (room - 1) (by omega)
  simp [Recovers, TypeClause.toJson, TypeClause.read, fieldsDepth, htypes.eq, hbody.eq]
  exact ite_none_congr (by omega)

theorem commClause_succ (h : NodesRecoverable n) :
    Recoverable CommClause.read CommClause.toJson (n + 1) := by
  rintro ⟨id, comm, body⟩ room hroom
  have hcomm := h.optStmt comm (room - 1) (by omega)
  have hbody := h.stmt.list body (room - 1) (by omega)
  simp [Recovers, CommClause.toJson, CommClause.read, fieldsDepth, hcomm.eq, hbody.eq]
  exact ite_none_congr (by omega)

theorem decl_succ (h : NodesRecoverable n) : Recoverable Decl.read Decl.toJson (n + 1) := by
  rintro ⟨id, kind, specs⟩ room hroom
  have hspecs := h.spec.list specs (room - 1) (by omega)
  simp [Recovers, Decl.toJson, Decl.read, fieldsDepth, hspecs.eq]
  exact ite_none_congr (fits_one Iff.rfl)

theorem spec_succ (h : NodesRecoverable n) : Recoverable Spec.read Spec.toJson (n + 1) := by
  intro spec room hroom
  cases spec with
  | value spec =>
    have hspec := h.valueSpec spec (room - 1) (by omega)
    simp [Recovers, Spec.toJson, Spec.read, hspec.eq]
    exact ite_none_congr (fits_one Iff.rfl)
  | type spec =>
    have hspec := spec.recovers (room - 1)
    simp [Recovers, Spec.toJson, Spec.read, hspec.eq]
    exact ite_none_congr (fits_one Iff.rfl)

theorem valueSpec_succ (h : NodesRecoverable n) :
    Recoverable ValueSpec.read ValueSpec.toJson (n + 1) := by
  rintro ⟨id, names, ty, values⟩ room hroom
  have hnames := Idents.recovers names (room - 1)
  have hty := TypeExpr.recovers_optional ty (room - 1)
  have hvalues := h.expr.list values (room - 1) (by omega)
  simp [Recovers, ValueSpec.toJson, ValueSpec.read, fieldsDepth, hnames.eq, hty.eq, hvalues.eq]
  exact ite_none_congr (by omega)

end NodesRecoverable

theorem nodesRecoverable (n : Nat) : NodesRecoverable n := by
  induction n with
  | zero =>
    exact {
      expr := .zero Expr.depth_pos fun _ => rfl
      stmt := .zero Stmt.depth_pos fun _ => rfl
      block := .zero Block.depth_pos fun _ => rfl
      caseClause := .zero (by simp [CaseClause.toJson]) fun _ => rfl
      typeClause := .zero (by simp [TypeClause.toJson]) fun _ => rfl
      commClause := .zero (by simp [CommClause.toJson]) fun _ => rfl
      decl := .zero Decl.depth_pos fun _ => rfl
      spec := .zero (by rintro (_ | _) <;> simp [Spec.toJson]) fun _ => rfl
      valueSpec := .zero (by simp [ValueSpec.toJson]) fun _ => rfl }
  | succ n ih =>
    exact {
      expr := ih.expr_succ
      stmt := ih.stmt_succ
      block := ih.block_succ
      caseClause := ih.caseClause_succ
      typeClause := ih.typeClause_succ
      commClause := ih.commClause_succ
      decl := ih.decl_succ
      spec := ih.spec_succ
      valueSpec := ih.valueSpec_succ }

/-!
## Files
-/

theorem Block.recovers (b : Block) (room : Nat) : Recovers Block.ofJson? b.toJson room b :=
  Recoverable.depth_succ (fun n => (nodesRecoverable n).block) b room

theorem Decl.recovers (d : Decl) (room : Nat) : Recovers Decl.ofJson? d.toJson room d :=
  Recoverable.depth_succ (fun n => (nodesRecoverable n).decl) d room

theorem Func.recovers (fn : Func) (room : Nat) : Recovers Func.ofJson? fn.toJson room fn := by
  obtain ⟨id, name, recv, sig, body⟩ := fn
  have hname := name.recovers (room - 1)
  have hrecv := Recovers.optional recv
    (fun field => seen_ne_null (by simp [Field.toJson]) (room - 1))
    fun field _ => field.recovers (room - 1)
  have hsig := sig.recovers (room - 1)
  have hbody := Recovers.optional body (fun block => seen_ne_null block.depth_pos (room - 1))
    fun block _ => block.recovers (room - 1)
  simp [Recovers, Func.ofJson?, Func.toJson, fieldsDepth, hname.eq, hrecv.eq, hsig.eq, hbody.eq]
  exact ite_none_congr (by omega)

theorem TopDecl.recovers (d : TopDecl) (room : Nat) :
    Recovers TopDecl.ofJson? d.toJson room d := by
  cases d with
  | decl d =>
    have hdecl := d.recovers (room - 1)
    simp [Recovers, TopDecl.toJson, TopDecl.ofJson?, hdecl.eq]
    exact ite_none_congr (fits_one Iff.rfl)
  | func fn =>
    have hfn := fn.recovers (room - 1)
    simp [Recovers, TopDecl.toJson, TopDecl.ofJson?, hfn.eq]
    exact ite_none_congr (fits_one Iff.rfl)

theorem Import.recovers (imported : Import) (room : Nat) :
    Recovers Import.ofJson? imported.toJson room imported := by
  obtain ⟨name, path⟩ := imported
  have hname := Recovers.optional_text (room - 1) name
  simp [Recovers, Import.ofJson?, Import.toJson, fieldsDepth, hname.eq]
  exact ite_none_congr (by omega)

theorem Imports.recovers (imports : List Import) (room : Nat) :
    Recovers (list? Import.ofJson?) (arr (imports.map Import.toJson)) room imports :=
  Recovers.list imports fun imported _ => imported.recovers (room - 1)

theorem TopDecls.recovers (decls : List TopDecl) (room : Nat) :
    Recovers (list? TopDecl.ofJson?) (arr (decls.map TopDecl.toJson)) room decls :=
  Recovers.list decls fun d _ => d.recovers (room - 1)

theorem File.recovers (file : File) (room : Nat) : Recovers File.ofJson? file.toJson room file := by
  obtain ⟨id, package, path, imports, decls⟩ := file
  have himports := Imports.recovers imports (room - 1)
  have hdecls := TopDecls.recovers decls (room - 1)
  simp [Recovers, File.ofJson?, File.toJson, fieldsDepth, himports.eq, hdecls.eq]
  exact ite_none_congr (by omega)

/-!
## Encodings are writable
-/

@[simp] theorem NodeId.writable (id : NodeId) : id.toJson.Writable :=
  writable_ofNat _

theorem Ident.writable (ident : Ident) : ident.toJson.Writable := by
  simp [Ident.toJson]

mutual

theorem TypeExpr.writable : ∀ ty : TypeExpr, ty.toJson.Writable
  | .named _ => by simp [TypeExpr.toJson]
  | .qualified _ _ => by simp [TypeExpr.toJson]
  | .generic base args => by simp [TypeExpr.toJson, base.writable, TypeExprs.writable args]
  | .pointer elem => by simp [TypeExpr.toJson, elem.writable]
  | .slice elem => by simp [TypeExpr.toJson, elem.writable]
  | .array len elem => by
      simp [TypeExpr.toJson, elem.writable, writable_ofOption]
  | .map key value => by simp [TypeExpr.toJson, key.writable, value.writable]
  | .chan _ elem => by simp [TypeExpr.toJson, elem.writable]
  | .func params results _ => by
      simp [TypeExpr.toJson, TypeExprs.writable params, TypeExprs.writable results]
  | .struct fields => by simp [TypeExpr.toJson, FieldExprs.writable fields]
  | .interface methods => by simp [TypeExpr.toJson, MethodExprs.writable methods]

theorem TypeExprs.writable : ∀ types : List TypeExpr, (arr (types.map TypeExpr.toJson)).Writable
  | [] => trivial
  | ty :: rest => ⟨ty.writable, TypeExprs.writable rest⟩

theorem FieldExprs.writable :
    ∀ fields : List FieldExpr, (arr (fields.map FieldExpr.toJson)).Writable
  | [] => trivial
  | ⟨name, ty⟩ :: rest =>
    ⟨by simp [FieldExpr.toJson, ty.writable, writable_ofOption], FieldExprs.writable rest⟩

theorem MethodExprs.writable :
    ∀ methods : List MethodExpr, (arr (methods.map MethodExpr.toJson)).Writable
  | [] => trivial
  | ⟨name, sig⟩ :: rest => ⟨by simp [MethodExpr.toJson, sig.writable], MethodExprs.writable rest⟩

end

theorem TypeExpr.writable_optional (ty : Option TypeExpr) :
    (ofOption TypeExpr.toJson ty).Writable :=
  writable_ofOption fun ty _ => ty.writable

theorem Field.writable (field : Field) : field.toJson.Writable := by
  have hnames : (arr (field.names.map Ident.toJson)).Writable :=
    writableItems_map fun ident _ => ident.writable
  simp [Field.toJson, hnames, field.ty.writable]

theorem FuncType.writable (sig : FuncType) : sig.toJson.Writable := by
  have hparams : (arr (sig.params.map Field.toJson)).Writable :=
    writableItems_map fun field _ => field.writable
  have hresults : (arr (sig.results.map Field.toJson)).Writable :=
    writableItems_map fun field _ => field.writable
  simp [FuncType.toJson, hparams, hresults]

theorem TypeSpec.writable (spec : TypeSpec) : spec.toJson.Writable := by
  simp [TypeSpec.toJson, spec.name.writable, spec.ty.writable]

theorem Literal.writable (value : Literal) : value.toJson.Writable := by
  cases value <;> simp [Literal.toJson]

theorem AssignOp.writable (op : AssignOp) : op.toJson.Writable := by
  cases op <;> simp [AssignOp.toJson]

@[simp] theorem Json.writable_node (id : NodeId) (kind : Json) :
    (Json.node id kind).Writable ↔ kind.Writable := by
  simp [Json.node]

mutual

theorem Expr.writable : ∀ e : Expr, e.toJson.Writable
  | .ident _ _ => by simp [Expr.toJson]
  | .lit _ value => by simp [Expr.toJson, value.writable]
  | .composite _ ty elts => by
      simp [Expr.toJson, TypeExpr.writable_optional ty, Exprs.writable elts]
  | .keyValue _ key value => by simp [Expr.toJson, key.writable, value.writable]
  | .funcLit _ sig body => by simp [Expr.toJson, sig.writable, body.writable]
  | .paren _ x => by simp [Expr.toJson, x.writable]
  | .selector _ x _ => by simp [Expr.toJson, x.writable]
  | .index _ x index => by simp [Expr.toJson, x.writable, index.writable]
  | .slice _ x low high max => by
      simp [Expr.toJson, x.writable, OptExpr.writable low, OptExpr.writable high,
        OptExpr.writable max]
  | .typeAssert _ x ty => by simp [Expr.toJson, x.writable, TypeExpr.writable_optional ty]
  | .call _ callee args _ => by simp [Expr.toJson, callee.writable, Exprs.writable args]
  | .star _ x => by simp [Expr.toJson, x.writable]
  | .unary _ _ x => by simp [Expr.toJson, x.writable]
  | .binary _ _ x y => by simp [Expr.toJson, x.writable, y.writable]
  | .type _ ty => by simp [Expr.toJson, ty.writable]

theorem Exprs.writable : ∀ exprs : List Expr, (arr (exprs.map Expr.toJson)).Writable
  | [] => trivial
  | e :: rest => ⟨e.writable, Exprs.writable rest⟩

theorem OptExpr.writable : ∀ o : Option Expr, (ofOption Expr.toJson o).Writable
  | none => trivial
  | some e => e.writable

theorem Stmt.writable : ∀ s : Stmt, s.toJson.Writable
  | .decl _ decl => by simp [Stmt.toJson, decl.writable]
  | .assign _ lhs op rhs => by
      simp [Stmt.toJson, Exprs.writable lhs, op.writable, Exprs.writable rhs]
  | .expr _ x => by simp [Stmt.toJson, x.writable]
  | .incDec _ x _ => by simp [Stmt.toJson, x.writable]
  | .send _ chan value => by simp [Stmt.toJson, chan.writable, value.writable]
  | .go _ call => by simp [Stmt.toJson, call.writable]
  | .defer _ call => by simp [Stmt.toJson, call.writable]
  | .ret _ values => by simp [Stmt.toJson, Exprs.writable values]
  | .branch _ _ _ => by simp [Stmt.toJson, writable_ofOption]
  | .block _ body => by simp [Stmt.toJson, body.writable]
  | .ifElse _ init cond body els => by
      simp [Stmt.toJson, OptStmt.writable init, cond.writable, body.writable, OptStmt.writable els]
  | .switch _ init tag clauses => by
      simp [Stmt.toJson, OptStmt.writable init, OptExpr.writable tag, CaseClauses.writable clauses]
  | .typeSwitch _ init guard clauses => by
      simp [Stmt.toJson, OptStmt.writable init, guard.writable, TypeClauses.writable clauses]
  | .select _ clauses => by simp [Stmt.toJson, CommClauses.writable clauses]
  | .forLoop _ init cond post body => by
      simp [Stmt.toJson, OptStmt.writable init, OptExpr.writable cond, OptStmt.writable post,
        body.writable]
  | .range _ key value _ x body => by
      simp [Stmt.toJson, OptExpr.writable key, OptExpr.writable value, x.writable, body.writable]
  | .labeled _ _ stmt => by simp [Stmt.toJson, stmt.writable]
  | .empty _ => by simp [Stmt.toJson]

theorem Stmts.writable : ∀ stmts : List Stmt, (arr (stmts.map Stmt.toJson)).Writable
  | [] => trivial
  | s :: rest => ⟨s.writable, Stmts.writable rest⟩

theorem OptStmt.writable : ∀ o : Option Stmt, (ofOption Stmt.toJson o).Writable
  | none => trivial
  | some s => s.writable

theorem Block.writable : ∀ b : Block, b.toJson.Writable
  | ⟨_, stmts⟩ => by simp [Block.toJson, Stmts.writable stmts]

theorem CaseClauses.writable :
    ∀ clauses : List CaseClause, (arr (clauses.map CaseClause.toJson)).Writable
  | [] => trivial
  | ⟨_, some list, body⟩ :: rest =>
    ⟨by simp [CaseClause.toJson, ofOption, Exprs.writable list, Stmts.writable body],
      CaseClauses.writable rest⟩
  | ⟨_, none, body⟩ :: rest =>
    ⟨by simp [CaseClause.toJson, ofOption, Stmts.writable body], CaseClauses.writable rest⟩

theorem TypeClauses.writable :
    ∀ clauses : List TypeClause, (arr (clauses.map TypeClause.toJson)).Writable
  | [] => trivial
  | ⟨_, types, body⟩ :: rest =>
    ⟨by simp [TypeClause.toJson, writable_ofOption, TypeExprs.writable, Stmts.writable body],
      TypeClauses.writable rest⟩

theorem CommClauses.writable :
    ∀ clauses : List CommClause, (arr (clauses.map CommClause.toJson)).Writable
  | [] => trivial
  | ⟨_, comm, body⟩ :: rest =>
    ⟨by simp [CommClause.toJson, OptStmt.writable comm, Stmts.writable body],
      CommClauses.writable rest⟩

theorem Decl.writable : ∀ d : Decl, d.toJson.Writable
  | ⟨_, _, specs⟩ => by simp [Decl.toJson, Specs.writable specs]

theorem Specs.writable : ∀ specs : List Spec, (arr (specs.map Spec.toJson)).Writable
  | [] => trivial
  | .value ⟨_, names, ty, values⟩ :: rest => by
      have hnames : (arr (names.map Ident.toJson)).Writable :=
        writableItems_map fun ident _ => ident.writable
      refine ⟨?_, Specs.writable rest⟩
      simp [Spec.toJson, ValueSpec.toJson, hnames, TypeExpr.writable_optional ty,
        Exprs.writable values]
  | .type spec :: rest => ⟨by simp [Spec.toJson, spec.writable], Specs.writable rest⟩

end

theorem Func.writable (fn : Func) : fn.toJson.Writable := by
  have hrecv : (ofOption Field.toJson fn.recv).Writable :=
    writable_ofOption fun field _ => field.writable
  have hbody : (ofOption Block.toJson fn.body).Writable :=
    writable_ofOption fun block _ => block.writable
  simp [Func.toJson, fn.name.writable, hrecv, fn.sig.writable, hbody]

theorem TopDecl.writable (d : TopDecl) : d.toJson.Writable := by
  cases d with
  | decl d | func d => simp [TopDecl.toJson, d.writable]

theorem File.writable (file : File) : file.toJson.Writable := by
  have himports : (arr (file.imports.map Import.toJson)).Writable :=
    writableItems_map fun imported _ => by simp [Import.toJson, writable_ofOption]
  have hdecls : (arr (file.decls.map TopDecl.toJson)).Writable :=
    writableItems_map fun d _ => d.writable
  simp [File.toJson, himports, hdecls]

end Desugar
