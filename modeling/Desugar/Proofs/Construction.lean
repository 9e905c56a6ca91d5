import Desugar.Proofs.Growth

/-!
# New nodes

What is known of a node that a pass has just made: its form, that its identities
have been drawn, and what the table records for it.  A node can only fail to be
made when the identities are exhausted.
-/

namespace Desugar
namespace PassM

variable {α : Type} {expected : Fault → Prop} {env : PassEnv} {p : Pass}

/-!
## Drawing an identity
-/

/-- The run of an action that draws one identity, makes something of it and
records something for it. -/
def DrawsOne (m : PassM α) (env : PassEnv) (p : Pass) (result : NodeId → α)
    (table : NodeId → SymbolTable) : Prop :=
  m.exec env p =
    match p.ids.take? with
    | some (id, ids) => (.ok (result id), { p with ids := ids, table := table id })
    | none => (.error .exhausted, p)

theorem Ends.of_drawsOne {reach : Pass → Pass → Prop} [Pass.Course reach] {m : PassM α}
    {result : NodeId → α} {table : NodeId → SymbolTable} {post : α → Pass → Prop}
    (h : DrawsOne m env p result table) (hexhausted : expected .exhausted)
    (hdrawn : ∀ id ids, p.ids.take? = some (id, ids) → p.ids.count ≤ id.val.toNat →
      id.Below ids.count → reach p { p with ids := ids, table := table id } ∧
        post (result id) { p with ids := ids, table := table id }) :
    Ends reach expected env p m post := by
  unfold DrawsOne at h
  cases htake : p.ids.take? with
  | none =>
    rw [htake] at h
    exact .of_exec_error h (Pass.Course.refl p) hexhausted
  | some drawn =>
    rcases drawn with ⟨id, ids⟩
    rw [htake] at h
    have hfresh : p.ids.count ≤ id.val.toNat := by
      rw [(NodeSupply.take?_eq_some htake).1]
      exact Nat.le_refl _
    rcases hdrawn id ids htake hfresh (Pass.Grows.below_of_take htake) with ⟨hreach, hpost⟩
    exact .of_exec h hreach hpost

theorem Yields.of_drawsOne {m : PassM α} {result : NodeId → α} {table : NodeId → SymbolTable}
    {post : α → Pass → Prop} (h : DrawsOne m env p result table)
    (hexhausted : expected .exhausted)
    (hextends : ∀ id : NodeId, p.ids.count ≤ id.val.toNat →
      p.table.Extends p.ids.count (table id))
    (hrecorded : ∀ id other : NodeId, (table id).Recorded other →
      p.table.Recorded other ∨ other = id)
    (hpost : ∀ (id : NodeId) (ids : NodeSupply), id.Below ids.count →
      post (result id) { p with ids := ids, table := table id }) :
    Yields expected env p m post :=
  Ends.of_drawsOne h hexhausted fun id ids htake hfresh hid =>
    ⟨.of_take htake (hextends id hfresh) (hrecorded id), hpost id ids hid⟩

theorem freshId_drawsOne (env : PassEnv) (p : Pass) :
    DrawsOne freshId env p id (fun _ => p.table) := by
  unfold DrawsOne
  rw [exec_freshId]
  rfl

theorem yields_freshId (hexhausted : expected .exhausted) :
    Yields expected env p freshId (fun id q => id.Below q.ids.count) := by
  apply Yields.of_drawsOne (freshId_drawsOne env p) hexhausted
  · intro id _
    exact .refl _ _
  · intro id other hother
    exact .inl hother
  · intro id ids hid
    exact hid

theorem newStmt_drawsOne (f : NodeId → Stmt) (env : PassEnv) (p : Pass) :
    DrawsOne (newStmt f) env p f (fun _ => p.table) := by
  unfold DrawsOne newStmt
  rw [exec_bind, exec_freshId]
  cases p.ids.take? <;> rfl

theorem yields_newStmt (f : NodeId → Stmt) (hexhausted : expected .exhausted) :
    Yields expected env p (newStmt f) (fun s q => ∃ id, s = f id ∧ id.Below q.ids.count) := by
  apply Yields.of_drawsOne (newStmt_drawsOne f env p) hexhausted
  · intro id _
    exact .refl _ _
  · intro id other hother
    exact .inl hother
  · intro id ids hid
    exact ⟨id, rfl, hid⟩

/-!
## Expressions
-/

def withType (table : SymbolTable) (ty : Option TypeId) (id : NodeId) : SymbolTable :=
  ty.elim table (table.recordType id)

theorem extends_withType {table : SymbolTable} {bound : Nat} (ty : Option TypeId) {id : NodeId}
    (hid : bound ≤ id.val.toNat) : table.Extends bound (withType table ty id) := by
  cases ty with
  | none => exact .refl _ _
  | some ty => exact SymbolTable.extends_recordType ty hid

theorem recorded_withType {table : SymbolTable} {ty : Option TypeId} {id other : NodeId}
    (h : (withType table ty id).Recorded other) : table.Recorded other ∨ other = id := by
  cases ty with
  | none => exact .inl h
  | some ty => exact SymbolTable.recorded_recordType h

theorem getElem?_withType (table : SymbolTable) (ty : TypeId) (id : NodeId) :
    (withType table (some ty) id).exprTypes[id]? = some ty :=
  Std.ExtTreeMap.getElem?_insert_self

theorem newExpr_drawsOne (f : NodeId → Expr) (ty : Option TypeId) (env : PassEnv) (p : Pass) :
    DrawsOne (newExpr f ty) env p f (withType p.table ty) := by
  unfold DrawsOne newExpr
  rw [exec_bind, exec_freshId]
  cases p.ids.take? with
  | none => rfl
  | some drawn => cases ty <;> rfl

theorem yields_newExpr (f : NodeId → Expr) (ty : Option TypeId)
    (hexhausted : expected .exhausted) :
    Yields expected env p (newExpr f ty) (fun e q => ∃ id, e = f id ∧ id.Below q.ids.count ∧
      ∀ known, ty = some known → q.table.exprTypes[id]? = some known) := by
  apply Yields.of_drawsOne (newExpr_drawsOne f ty env p) hexhausted
  · intro id hid
    exact extends_withType ty hid
  · intro id other hother
    exact recorded_withType hother
  · intro id ids hid
    refine ⟨id, rfl, hid, ?_⟩
    intro known hknown
    subst hknown
    exact getElem?_withType p.table known id

theorem yields_newBlank (hexhausted : expected .exhausted) :
    Yields expected env p newBlank (fun e q => ∃ id, e = .ident id blank ∧
      id.Below q.ids.count) := by
  apply (yields_newExpr _ none hexhausted).mono
  rintro e q _ ⟨id, rfl, hid, _⟩
  exact ⟨id, rfl, hid⟩

theorem grows_intern (type : Ty) : p.Grows { p with table := (p.table.intern type).2 } :=
  .of_table (SymbolTable.extends_intern type) (fun _ h => .inl (SymbolTable.recorded_intern h))

theorem grows_defaultType (ty : TypeId) :
    p.Grows { p with table := (p.table.defaultType ty).2 } :=
  .of_table (SymbolTable.extends_defaultType ty)
    (fun _ h => .inl (SymbolTable.recorded_defaultType h))

theorem yields_newTrue (hexhausted : expected .exhausted) :
    Yields expected env p newTrue (fun e q => ∃ id, e = .lit id (.bool true) ∧
      id.Below q.ids.count) := by
  refine .step (exec_onTable _ env p) (grows_intern _) ?_
  apply (yields_newExpr _ _ hexhausted).mono
  rintro e q _ ⟨id, rfl, hid, _⟩
  exact ⟨id, rfl, hid⟩

def bindingTy (table : SymbolTable) (binding : BindingId) : Option TypeId :=
  (table.binding? binding).bind Binding.ty

theorem newUse_drawsOne (binding : BindingId) (env : PassEnv) (p : Pass) :
    DrawsOne (newUse binding) env p
      (fun id => .ident id (((p.table.binding? binding).map Binding.name).getD ""))
      (fun id => (withType p.table (bindingTy p.table binding) id).recordUse id binding) := by
  have hnew := newExpr_drawsOne
    (fun id => .ident id (((p.table.binding? binding).map Binding.name).getD ""))
    (bindingTy p.table binding) env p
  unfold DrawsOne at hnew ⊢
  unfold newUse
  rw [exec_bind_ok (exec_getTable env p), exec_bind]
  unfold bindingTy at hnew
  rw [hnew]
  cases p.ids.take? <;> rfl

theorem extends_use {table : SymbolTable} {bound : Nat} {ty : Option TypeId} (binding : BindingId)
    {id : NodeId} (hid : bound ≤ id.val.toNat) :
    table.Extends bound ((withType table ty id).recordUse id binding) :=
  (extends_withType ty hid).trans (Nat.le_refl _) (SymbolTable.extends_recordUse binding hid)

theorem recorded_use {table : SymbolTable} {ty : Option TypeId} {binding : BindingId}
    {id other : NodeId} (h : ((withType table ty id).recordUse id binding).Recorded other) :
    table.Recorded other ∨ other = id :=
  (SymbolTable.recorded_recordUse h).elim recorded_withType .inr

theorem yields_newUse (binding : BindingId) (hexhausted : expected .exhausted) :
    Yields expected env p (newUse binding) (fun e q => ∃ id name, e = .ident id name ∧
      id.Below q.ids.count ∧
      ∀ ty, bindingTy p.table binding = some ty → q.table.exprTypes[id]? = some ty) := by
  apply Yields.of_drawsOne (newUse_drawsOne binding env p) hexhausted
  · exact fun _ hid => extends_use binding hid
  · exact fun _ _ hother => recorded_use hother
  · intro id ids hid
    refine ⟨id, _, rfl, hid, ?_⟩
    intro ty hty
    show (withType p.table (bindingTy p.table binding) id).exprTypes[id]? = some ty
    rw [hty]
    exact getElem?_withType p.table ty id

/-!
## Declarations
-/

theorem grows_freshName (stem : String) :
    p.Grows { p with table := (p.table.freshName stem).2 } :=
  .of_table (SymbolTable.extends_freshName stem) (fun _ h => .inl h)

theorem grows_pushBinding (binding : Binding) :
    p.Grows { p with table := (p.table.pushBinding binding).2 } :=
  .of_table (SymbolTable.extends_pushBinding binding) (fun _ h => .inl h)

theorem grows_newScope (parent : ScopeId) :
    p.Grows { p with table := (p.table.newScope parent).2 } :=
  .of_table (SymbolTable.extends_newScope parent) (fun _ h => .inl h)

theorem grows_attachScope {node : NodeId} (scope : ScopeId) (hnode : node.Below p.ids.count) :
    p.Grows { p with table := p.table.attachScope node scope } := by
  apply Pass.Grows.of_table (SymbolTable.extends_attachScope scope)
  intro id hid
  rcases SymbolTable.recorded_attachScope hid with hid | rfl
  · exact .inl hid
  · exact .inr hnode

theorem grows_moveScope {node : NodeId} (source : NodeId) (hnode : node.Below p.ids.count) :
    p.Grows { p with table := (p.table.moveScope source node).2 } := by
  apply Pass.Grows.of_table (SymbolTable.extends_moveScope source node)
  intro id hid
  rcases SymbolTable.recorded_moveScope hid with hid | rfl
  · exact .inl hid
  · exact .inr hnode

theorem yields_scopeAt (node : NodeId)
    (hmissing : ∀ what : String, p.scopes.current = none →
      expected (.problem (.missingScope node what))) :
    Yields expected env p (scopeAt node)
    (fun scope q => q = p ∧ p.scopes.current = some scope) := by
  refine .look (exec_scope? env p) ?_
  exact .require (hmissing _) fun scope hscope => ⟨rfl, hscope⟩

theorem bindingTy_of_grows {p q : Pass} (hgrows : p.Grows q) {binding : BindingId} {ty : TypeId}
    (h : bindingTy p.table binding = some ty) : bindingTy q.table binding = some ty := by
  unfold bindingTy SymbolTable.binding? at h ⊢
  cases hfound : p.table.bindings[binding.index]? with
  | none =>
    rw [hfound] at h
    cases h
  | some found =>
    rw [hfound] at h
    rw [hgrows.table.bindings _ _ hfound]
    exact h

theorem bindingTy_pushBinding (table : SymbolTable) (binding : Binding) :
    bindingTy (table.pushBinding binding).2 (table.pushBinding binding).1 = binding.ty := by
  simp [bindingTy, SymbolTable.pushBinding, SymbolTable.binding?]

theorem yields_newTemp (scope : ScopeId) (ty : TypeId) :
    Yields expected env p (newTemp scope ty) (fun temp q => bindingTy q.table temp = some ty) := by
  refine .look (exec_read env p) ?_
  refine .step (exec_onTable _ env p) (grows_freshName _) ?_
  exact .of_exec (exec_onTable _ env _) (grows_pushBinding _) (bindingTy_pushBinding _ _)

theorem newBinder_drawsOne (binding : BindingId) (env : PassEnv) (p : Pass) :
    DrawsOne (newBinder binding) env p
      (fun id => ⟨id, ((p.table.binding? binding).map Binding.name).getD ""⟩)
      (fun id => p.table.recordDef id binding) := by
  unfold DrawsOne newBinder
  rw [exec_bind_ok (exec_bindingName binding env p), exec_bind, exec_freshId]
  cases p.ids.take? <;> rfl

theorem yields_newBinder (binding : BindingId) (hexhausted : expected .exhausted) :
    Yields expected env p (newBinder binding) (fun name q => name.id.Below q.ids.count) := by
  apply Yields.of_drawsOne (newBinder_drawsOne binding env p) hexhausted
  · intro id hid
    exact SymbolTable.extends_recordDef binding hid
  · intro id other hother
    exact SymbolTable.recorded_recordDef hother
  · intro id ids hid
    exact hid

theorem below_mono {id : NodeId} {p q : Pass} (hgrows : p.Grows q) (h : id.Below p.ids.count) :
    id.Below q.ids.count :=
  Nat.lt_of_lt_of_le h hgrows.ids

def IsVarOf (spec : Spec) (s : Stmt) (q : Pass) : Prop :=
  ∃ stmtId declId, s = .decl stmtId ⟨declId, .var, [spec]⟩ ∧ stmtId.Below q.ids.count ∧
    declId.Below q.ids.count

theorem yields_newDecl (spec : Spec) (hexhausted : expected .exhausted) :
    Yields expected env p (newDecl spec) (IsVarOf spec) := by
  apply (yields_freshId hexhausted).bind
  intro declId q _ hdecl
  apply (yields_newStmt _ hexhausted).mono
  rintro s r hr ⟨stmtId, rfl, hstmt⟩
  exact ⟨stmtId, declId, rfl, hstmt, below_mono hr hdecl⟩

theorem yields_newVar (name : Ident) (ty : Option TypeExpr) (values : List Expr)
    (hexhausted : expected .exhausted) :
    Yields expected env p (newVar name ty values) (fun s q => ∃ specId,
      specId.Below q.ids.count ∧ IsVarOf (.value ⟨specId, [name], ty, values⟩) s q) := by
  apply (yields_freshId hexhausted).bind
  intro specId q _ hspec
  apply (yields_newDecl _ hexhausted).mono
  intro s r hr hs
  exact ⟨specId, below_mono hr hspec, hs⟩

theorem yields_newVarOf (binding : BindingId) (ty : Option TypeExpr) (values : List Expr)
    (hexhausted : expected .exhausted) :
    Yields expected env p (newVarOf binding ty values) (fun s q => ∃ specId name,
      specId.Below q.ids.count ∧ name.id.Below q.ids.count ∧
      IsVarOf (.value ⟨specId, [name], ty, values⟩) s q) := by
  apply (yields_newBinder binding hexhausted).bind
  intro name q _ hname
  apply (yields_newVar name ty values hexhausted).mono
  rintro s r hr ⟨specId, hspec, hs⟩
  exact ⟨specId, name, hspec, below_mono hr hname, hs⟩

/-!
## Types and zero values
-/

theorem yields_spell (ty : TypeId) (node : NodeId)
    (hdeclaration : ∀ problem : Problem, problem.severity = .declaration →
      expected (.problem problem)) :
    Yields expected env p (spell ty node) (fun _ q => q = p) := by
  refine .look (exec_getTable env p) ?_
  refine .look (exec_read env p) ?_
  cases p.table.spell env.view ty with
  | ok expr => exact .pure rfl
  | error failed => exact .raise (hdeclaration _ rfl)

theorem yields_zeroValue (ty : TypeId) (name : String) (node : NodeId)
    (hexhausted : expected .exhausted)
    (hdeclaration : ∀ problem : Problem, problem.severity = .declaration →
      expected (.problem problem)) :
    Yields expected env p (zeroValue ty name node) (fun e q => ∃ id, id.Below q.ids.count ∧
      ((∃ value, e = .lit id value) ∨ ∃ spelled, e = .composite id (some spelled) [])) := by
  refine .step (exec_onTable _ env p) (grows_defaultType ty) ?_
  refine .look (exec_getTable env _) ?_
  have hliteral : ∀ (value : Literal) (known : TypeId) (r : Pass),
      Yields expected env r (newExpr (fun id => .lit id value) (some known)) (fun e q => ∃ id,
        id.Below q.ids.count ∧
        ((∃ value, e = .lit id value) ∨ ∃ spelled, e = .composite id (some spelled) [])) := by
    intro value known r
    apply (yields_newExpr _ _ hexhausted).mono
    rintro e q _ ⟨id, rfl, hid, _⟩
    exact ⟨id, hid, .inl ⟨value, rfl⟩⟩
  split
  · exact hliteral _ _ _
  · exact hliteral _ _ _
  · exact hliteral _ _ _
  · exact hliteral _ _ _
  · apply (yields_spell _ _ hdeclaration).bind
    intro spelled q _ _
    apply (yields_newExpr _ _ hexhausted).mono
    rintro e r _ ⟨id, rfl, hid, _⟩
    exact ⟨id, hid, .inr ⟨spelled, rfl⟩⟩
  · exact .raise (hdeclaration _ rfl)

end PassM
end Desugar
