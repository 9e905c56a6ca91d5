import Desugar.Proofs.Construction
import Desugar.Proofs.Evolution

/-!
# Temporaries

What a new variable is: the last binding of the table, under a name that was not
taken, with a declaration that defines it and identifiers that refer to it.
-/

namespace Desugar

open PassM (Yields)

variable {expected : Fault → Prop} {env : PassEnv} {p : Pass}

/-!
## Names in a table
-/

namespace SymbolTable

structure SameNames (old new : SymbolTable) : Prop where
  bindings : new.bindings = old.bindings
  reserved : new.reserved = old.reserved

namespace SameNames

variable {a b c : SymbolTable}

theorem refl (table : SymbolTable) : table.SameNames table :=
  ⟨rfl, rfl⟩

theorem trans (hab : a.SameNames b) (hbc : b.SameNames c) : a.SameNames c :=
  ⟨hbc.bindings.trans hab.bindings, hbc.reserved.trans hab.reserved⟩

theorem takenNames_eq (h : a.SameNames b) : b.takenNames = a.takenNames := by
  rw [takenNames, takenNames, h.bindings, h.reserved]

end SameNames

def nameOf (table : SymbolTable) (binding : BindingId) : String :=
  ((table.binding? binding).map Binding.name).getD ""

theorem SameNames.nameOf_eq {a b : SymbolTable} (h : a.SameNames b) (binding : BindingId) :
    b.nameOf binding = a.nameOf binding := by
  unfold nameOf binding?
  rw [h.bindings]

theorem sameNames_intern (table : SymbolTable) (type : Ty) :
    table.SameNames (table.intern type).2 := by
  unfold intern
  split
  · exact ⟨rfl, rfl⟩
  · split <;> exact ⟨rfl, rfl⟩

theorem sameNames_defaultType (table : SymbolTable) (ty : TypeId) :
    table.SameNames (table.defaultType ty).2 := by
  unfold defaultType
  split
  · split
    · split
      · exact sameNames_intern _ _
      · exact .refl _
    · exact .refl _
  · exact .refl _

theorem bindingOf_of_extends {bound : Nat} {old new : SymbolTable} (h : old.Extends bound new)
    {id : NodeId} (hid : id.Below bound) : new.bindingOf id = old.bindingOf id := by
  rw [bindingOf, bindingOf, h.defs id hid, h.uses id hid]

theorem bindingOf_recordDef (table : SymbolTable) (id : NodeId) (binding : BindingId) :
    (table.recordDef id binding).bindingOf id = some binding := by
  simp [bindingOf, recordDef]

theorem bindingOf_recordUse (table : SymbolTable) (id : NodeId) (binding : BindingId) :
    (table.recordUse id binding).bindingOf id = some binding := by
  simp [bindingOf, recordUse]

end SymbolTable

theorem Pass.Grows.extends_before {p q : Pass} (hpq : p.Grows q) {table : SymbolTable}
    (h : q.table.Extends q.ids.count table) : p.table.Extends p.ids.count table :=
  hpq.table.trans hpq.ids h

theorem Pass.Grows.size_le {p q : Pass} (hpq : p.Grows q) :
    p.table.bindings.size ≤ q.table.bindings.size :=
  SymbolTable.size_le_of_extends hpq.table

/-!
## Nodes of variables
-/

def Stmt.IsVar (name : Ident) (ty : Option TypeExpr) (values : List Expr) (s : Stmt) : Prop :=
  ∃ stmtId declId specId, s = .decl stmtId ⟨declId, .var, [.value ⟨specId, [name], ty, values⟩]⟩

def Pass.Refers (q : Pass) (binding : BindingId) (id : NodeId) : Prop :=
  id.Below q.ids.count ∧ q.table.bindingOf id = some binding

theorem Pass.Refers.bindingOf {q : Pass} {binding : BindingId} {id : NodeId}
    (h : q.Refers binding id) {table : SymbolTable} (htable : q.table.Extends q.ids.count table) :
    table.bindingOf id = some binding := by
  rw [SymbolTable.bindingOf_of_extends htable h.1, h.2]

theorem Pass.Refers.mono {q r : Pass} {binding : BindingId} {id : NodeId}
    (h : q.Refers binding id) (hqr : q.Grows r) : r.Refers binding id :=
  ⟨PassM.below_mono hqr h.1, h.bindingOf hqr.table⟩

namespace PassM

theorem yields_newStmt_sameNames (f : NodeId → Stmt) (hexhausted : expected .exhausted) :
    Yields expected env p (newStmt f) (fun s q => (∃ id, s = f id) ∧
      p.table.SameNames q.table) := by
  apply Yields.of_drawsOne (newStmt_drawsOne f env p) hexhausted
  · exact fun _ _ => .refl _ _
  · exact fun _ _ hother => .inl hother
  · exact fun id ids _ => ⟨⟨id, rfl⟩, .refl _⟩

theorem yields_newExpr_sameNames (f : NodeId → Expr) (ty : Option TypeId)
    (hexhausted : expected .exhausted) :
    Yields expected env p (newExpr f ty) (fun e q => (∃ id, e = f id ∧ id.Below q.ids.count) ∧
      p.table.SameNames q.table) := by
  apply Yields.of_drawsOne (newExpr_drawsOne f ty env p) hexhausted
  · exact fun _ hid => extends_withType ty hid
  · exact fun _ _ hother => recorded_withType hother
  · intro id ids hid
    refine ⟨⟨id, rfl, hid⟩, ?_⟩
    cases ty <;> exact ⟨rfl, rfl⟩

theorem yields_newBinder_refers (binding : BindingId) (hexhausted : expected .exhausted) :
    Yields expected env p (newBinder binding) (fun name q => name.name = p.table.nameOf binding ∧
      q.Refers binding name.id ∧ p.table.SameNames q.table) := by
  apply Yields.of_drawsOne (newBinder_drawsOne binding env p) hexhausted
  · exact fun _ hid => SymbolTable.extends_recordDef binding hid
  · exact fun _ _ hother => SymbolTable.recorded_recordDef hother
  · intro id ids hid
    exact ⟨rfl, ⟨hid, SymbolTable.bindingOf_recordDef _ _ _⟩, ⟨rfl, rfl⟩⟩

theorem yields_newUse_refers (binding : BindingId) (hexhausted : expected .exhausted) :
    Yields expected env p (newUse binding) (fun e q => ∃ id,
      e = .ident id (p.table.nameOf binding) ∧ q.Refers binding id ∧
      p.table.SameNames q.table) := by
  apply Yields.of_drawsOne (newUse_drawsOne binding env p) hexhausted
  · exact fun _ hid => extends_use binding hid
  · exact fun _ _ hother => recorded_use hother
  · intro id ids hid
    refine ⟨id, rfl, ⟨hid, SymbolTable.bindingOf_recordUse _ _ _⟩, ?_⟩
    cases bindingTy p.table binding <;> exact ⟨rfl, rfl⟩

theorem yields_newVar_isVar (name : Ident) (ty : Option TypeExpr) (values : List Expr)
    (hexhausted : expected .exhausted) :
    Yields expected env p (newVar name ty values) (fun s q => s.IsVar name ty values ∧
      p.table.SameNames q.table) := by
  have hdraw : ∀ p : Pass, Yields expected env p freshId (fun _ q =>
      p.table.SameNames q.table) := by
    intro p
    apply Yields.of_drawsOne (freshId_drawsOne env p) hexhausted
    · exact fun _ _ => .refl _ _
    · exact fun _ _ hother => .inl hother
    · exact fun _ _ _ => .refl _
  apply (hdraw p).bind
  intro specId q _ hq
  apply (hdraw q).bind
  intro declId r _ hr
  apply (yields_newStmt_sameNames _ hexhausted).mono
  rintro s u _ ⟨⟨stmtId, rfl⟩, hu⟩
  exact ⟨⟨stmtId, declId, specId, rfl⟩, (hq.trans hr).trans hu⟩

theorem yields_newVarOf_refers (binding : BindingId) (ty : Option TypeExpr) (values : List Expr)
    (hexhausted : expected .exhausted) :
    Yields expected env p (newVarOf binding ty values) (fun s q => ∃ name : Ident,
      name.name = p.table.nameOf binding ∧ s.IsVar name ty values ∧ q.Refers binding name.id ∧
      p.table.SameNames q.table) := by
  apply (yields_newBinder_refers binding hexhausted).bind
  rintro name q _ ⟨hname, hrefers, hq⟩
  apply (yields_newVar_isVar name ty values hexhausted).mono
  rintro s r hr ⟨hs, hr'⟩
  exact ⟨name, hname, hs, hrefers.mono hr, hq.trans hr'⟩

end PassM

/-!
## New variables
-/

structure Pass.Makes (p q : Pass) (stem : String) (temp : BindingId) : Prop where
  last : temp = ⟨p.table.bindings.size⟩
  size : q.table.bindings.size = p.table.bindings.size + 1
  name : q.table.nameOf temp = (p.table.freshName stem).1
  taken : q.table.nameOf temp ∈ q.table.takenNames

namespace Pass.Makes

variable {p q : Pass} {stem : String} {temp : BindingId}

theorem after_same {r : Pass} (h : p.Makes q stem temp) (hr : q.table.SameNames r.table) :
    p.Makes r stem temp where
  last := h.last
  size := by rw [hr.bindings, h.size]
  name := by rw [hr.nameOf_eq, h.name]
  taken := by
    rw [hr.nameOf_eq, hr.takenNames_eq]
    exact h.taken

end Pass.Makes

namespace PassM

theorem yields_newTemp_makes (scope : ScopeId) (ty : TypeId) :
    Yields expected env p (newTemp scope ty) (fun temp q => p.Makes q env.tempStem temp) := by
  refine .look (exec_read env p) ?_
  refine .step (exec_onTable _ env p) (grows_freshName _) ?_
  refine .of_exec (exec_onTable _ env _) (grows_pushBinding _) ?_
  let table := ((p.table.freshName env.tempStem).2.declareSynthetic scope
    (p.table.freshName env.tempStem).1 ty).2
  have hname : table.nameOf ⟨p.table.bindings.size⟩ = (p.table.freshName env.tempStem).1 := by
    simp [table, SymbolTable.nameOf, SymbolTable.binding?, SymbolTable.declareSynthetic,
      SymbolTable.pushBinding, SymbolTable.freshName, SymbolTable.reserve]
  have htaken : table.nameOf ⟨p.table.bindings.size⟩ ∈ table.takenNames := by
    rw [hname]
    exact List.mem_append_left _ (.head _)
  constructor
  · rfl
  · exact Array.size_push _
  · exact hname
  · exact htaken

end PassM

structure Pass.Holds (p q : Pass) (stem : String) (ty : TypeExpr) (value : Expr)
    (held : Stmt × Expr) (binder : Ident) (use : NodeId) : Prop where
  makes : p.Makes q stem ⟨p.table.bindings.size⟩
  name : binder.name = q.table.nameOf ⟨p.table.bindings.size⟩
  declares : held.1.IsVar binder (some ty) [value]
  reads : held.2 = .ident use binder.name
  defines : q.Refers ⟨p.table.bindings.size⟩ binder.id
  refers : q.Refers ⟨p.table.bindings.size⟩ use

theorem PassM.yields_holds (hexhausted : expected .exhausted) (scope : ScopeId) (ty : TypeId)
    (spelled : TypeExpr) (value : Expr) :
    Yields expected env p (do
        let temp ← newTemp scope ty
        let declared ← newVarOf temp (some spelled) [value]
        return (declared, ← newUse temp))
      (fun held q => ∃ binder use, p.Holds q env.tempStem spelled value held binder use) := by
  apply (yields_newTemp_makes scope ty).bind
  intro temp q _ hmakes
  apply (yields_newVarOf_refers temp (some spelled) [value] hexhausted).bind
  rintro declared r hr ⟨binder, hname, hdeclared, hdefines, hsame⟩
  apply (yields_newUse_refers temp hexhausted).bind
  rintro held u hu ⟨use, rfl, hrefers, hsame'⟩
  have htemp := hmakes.last
  subst htemp
  refine .pure ⟨binder, use, ?_⟩
  constructor
  · exact (hmakes.after_same hsame).after_same hsame'
  · rw [hname, hsame'.nameOf_eq, hsame.nameOf_eq]
  · exact hdeclared
  · rw [hname, hsame.nameOf_eq]
  · exact hdefines.mono hu
  · exact hrefers

end Desugar
