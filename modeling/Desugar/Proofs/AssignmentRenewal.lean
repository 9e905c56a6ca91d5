import Desugar.Proofs.Assignments
import Desugar.Proofs.DeclarationRenewal

/-!
# Renewal by assignments

Discarding values and splitting assignments renew the inventory of a file.  When
an assignment to several targets goes through temporaries, each of its operands
is evaluated by the declaration of a temporary.
-/

namespace Desugar

open PassM (Leaves Replaces)

variable {lib : Liberty} {keeps : Property → Prop} {env : PassEnv} {p : Pass}

/-!
## Discarded values
-/

namespace Discard

theorem leaves_arity (x : Expr) : Leaves lib env p (arity x) (fun _ q => q = p) := by
  refine .look (PassM.exec_typeOf x env p) ?_
  refine Leaves.require fun ty _ => ?_
  refine .look (PassM.exec_getTable env p) ?_
  cases p.table.ty ty <;> exact .pure rfl

theorem leaves_expand (keeps : Property → Prop) (s : Stmt) :
    Leaves lib env p (expand s) (fun s' q => Renews lib keeps p q
      (inventory (Stmts.nodes [s])) (inventory (Stmts.nodes [s']))) := by
  unfold expand
  split
  · rename_i id x hs
    refine (leaves_arity x).bind ?_
    rintro values q _ rfl
    split
    · exact .pure (.refl q _)
    · refine (Leaves.newExprs keeps (List.range values) ?_).bind fun blanks r _ hblanks => ?_
      · intro _ _ r _
        apply PassM.leaves_newBlank.mono
        rintro e u hu ⟨blankId, rfl, hid⟩
        exact .draw_harmless hu hid .plain
      have hcount : r.Evolves lib _ := .counted r
      refine .step (PassM.exec_countChange env r) hcount (.pure ?_)
      have hhead : Renews lib keeps q q {⟨id, .value true x.id⟩} {⟨id, .assign true false false⟩} :=
        .change (fun hkind => nomatch hkind) nofun fun property hproperty _ =>
          Kind.Harmless.assign.spared hproperty q id
      have hkind : (Stmt.assign id blanks .assign [x]).kind true = .assign true false false := by
        simp [Stmt.kind]
      rw [s.inventory_unlabeled, hs, Stmt.inventory_label, inventory_assign, hkind]
      refine (Renews.refl q _).add (((hhead.add (hblanks.beside (inventory x.nodes))).trans
        (.stay hcount _)).cast ?_ ?_)
      · rw [Stmts.inventory_singleton_eq, Stmt.inventoryAt_of_clauseIds rfl]
        rfl
      · rw [add_comm (inventory x.nodes)]
        simp [Exprs.nodes]
  · exact .pure (.refl p _)

theorem renewing (keeps : Property → Prop) : transformer.Renewing lib keeps env p := by
  refine .of_list rfl rfl rfl rfl fun owner stmts _ => ?_
  apply (Leaves.stmts keeps _ stmts fun s _ _ _ => leaves_expand keeps s).mono
  intro stmts' r _ h
  exact h.cast (Stmts.inventory_eq_sum _) rfl

end Discard

/-!
## Assignments to several targets
-/

namespace Parallel

theorem leaves_hold (keeps : Property → Prop) (scope : ScopeId) (ty : TypeId)
    (spelled : TypeExpr) (value : Expr) :
    Leaves lib env p (hold scope ty spelled value) (fun held q => Renews lib keeps p q
      (inventory value.nodes) (inventory (Stmts.nodes [held.1]) + inventory held.2.nodes) ∧
      IsUseOf ty held.2 q) := by
  refine (PassM.leaves_newTemp scope ty).bind fun temp q hq htemp => ?_
  refine (Short.leaves_newTempVar keeps temp spelled value).bind fun declared r hr hdeclared => ?_
  refine (PassM.leaves_newUse keeps temp).bind fun use u _ huse => .pure ⟨?_, ?_⟩
  · exact ((Renews.stay hq _).trans hdeclared).trans (huse.1.beside _)
  · rcases huse.2 with ⟨id, name, rfl, hid, hty⟩
    exact ⟨id, name, rfl, hid, hty ty (PassM.bindingTy_of_grows hr.toGrows htemp)⟩

theorem leaves_holdOperand (keeps : Property → Prop) (hadds : lib.AddsBasics)
    (scope : ScopeId) (x : Expr) :
    Leaves lib env p (holdOperand scope x) (fun held q => Renews lib keeps p q
      (inventory x.nodes) (inventory (Stmts.nodes [held.1]) + inventory held.2.nodes) ∧
      ∃ ty, p.table.exprTypes[x.id]? = some ty ∧
        IsUseOf (p.table.defaultType ty).1 held.2 q) := by
  refine .look (PassM.exec_typeOf x env p) ?_
  refine Leaves.require fun ty hty => ?_
  have hdefault : p.Evolves lib _ := .defaultType hadds ty
  refine .step (PassM.exec_onTable _ env p) hdefault ?_
  refine (PassM.leaves_spell _ x.id).bind ?_
  rintro spelled _ _ rfl
  apply (leaves_hold keeps scope _ spelled x).mono
  rintro held q _ ⟨hheld, huse⟩
  exact ⟨(Renews.stay hdefault _).trans hheld, ty, hty, huse⟩

theorem leaves_pinAddress (keeps : Property → Prop) (hpointers : ∀ ty, lib.adds (.pointer ty))
    (scope : ScopeId) (place : Expr) :
    Replaces lib keeps env p (pinAddress scope place) (inventory place.nodes)
      (fun pinned => inventory (Stmts.nodes pinned.1) + inventory pinned.2.nodes) := by
  refine .look (PassM.exec_typeOf place env p) ?_
  refine Leaves.require fun ty _ => ?_
  have hpointer : p.Evolves lib _ := .intern (hpointers ty)
  refine .step (PassM.exec_onTable _ env p) hpointer ?_
  refine (PassM.leaves_newExpr _ _).bind fun address q hq haddress => ?_
  rcases haddress with ⟨id, rfl, hid, _⟩
  have haddress : Renews lib keeps _ q 0 {⟨id, .plain⟩} := .draw_harmless hq hid .plain
  refine (PassM.leaves_spell _ place.id).bind ?_
  rintro spelled _ _ rfl
  refine (leaves_hold keeps scope _ spelled _).bind fun held r _ hheld => ?_
  refine (PassM.leaves_newExpr _ _).bind fun target u hu htarget => ?_
  rcases htarget with ⟨starId, rfl, hstar, _⟩
  have htarget : Renews lib keeps r u 0 {⟨starId, .plain⟩} := .draw_harmless hu hstar .plain
  refine .pure (((Renews.stay hpointer _).trans (((haddress.beside _).cast rfl ?_).trans
    (hheld.1.trans (htarget.beside _)))).cast rfl ?_)
  · rw [Expr.nodes, inventory_expr rfl, add_comm]
    rfl
  · beta_reduce
    rw [Expr.nodes, inventory_expr rfl]
    show _ + (({⟨starId, .plain⟩} : Multiset Entry) + _) = _
    abel

theorem spared_index_of_map {property : Property} {q : Pass} {id : NodeId} {x : Expr}
    {ty key value : TypeId} (hx : IsUseOf ty x q) (hty : q.table.structureOf ty = .map key value) :
    Entry.Spared lib property q ⟨id, .access x.id⟩ := by
  rcases hx with ⟨useId, name, rfl, huse, htype⟩
  cases property with
  | explicitDeref =>
    refine ⟨fun other hother => ?_, fun r hr => ?_⟩
    · rw [List.mem_singleton.mp hother]
      exact huse
    · have hmap := isPointerToArray_of_map
        (SymbolTable.structureOf_of_extends hr.toGrows.table hty (by simp))
      have hsame := hr.toGrows.table.exprTypes useId huse
      simp only [Property.breaks, Expr.id]
      rw [hsame, htype]
      exact hmap
  | _ => exact .of_blind rfl fun _ _ => rfl

theorem structureOf_of_mapKey {table : SymbolTable} {x : Expr} {ty key : TypeId}
    (hty : table.exprTypes[x.id]? = some ty) (hkey : mapKey table x = some key) :
    ∃ value, table.structureOf ty = .map key value := by
  unfold mapKey at hkey
  rw [hty] at hkey
  simp only [Option.map_some] at hkey
  split at hkey
  · rename_i found value heq
    cases hkey
    exact ⟨value, Option.some.inj heq⟩
  · cases hkey

theorem leaves_pin (hadds : lib.AddsBasics) (hpointers : ∀ ty, lib.adds (.pointer ty))
    (scope : ScopeId) (e : Expr) {p : Pass} :
    Replaces lib keeps env p (pin scope e) (inventory e.nodes)
      (fun pinned => inventory (Stmts.nodes pinned.1) + inventory pinned.2.nodes) := by
  cases e with
  | ident id name => exact .pure ((Renews.refl p _).cast rfl (zero_add _))
  | paren id x =>
    rw [pin]
    apply (leaves_pin hadds hpointers scope x).mono
    intro pinned q _ hpinned
    have hdrop : Renews lib keeps p p {⟨id, .plain⟩} 0 := .drop_plain p [id]
    rw [Expr.nodes, inventory_expr rfl]
    exact (hdrop.add hpinned).cast rfl (zero_add _).symm
  | index id x i =>
    rw [pin]
    refine .look (PassM.exec_getTable env p) ?_
    cases hkey : mapKey p.table x with
    | none => exact leaves_pinAddress keeps hpointers scope _
    | some keyType =>
      refine .look (PassM.exec_getTable env p) ?_
      refine (leaves_holdOperand keeps hadds scope x).bind ?_
      rintro ⟨mapDecl, map⟩ q hq ⟨hmap, ty, hty, huse⟩
      refine (PassM.leaves_spell keyType i.id).bind ?_
      rintro spelled _ _ rfl
      refine (leaves_hold keeps scope keyType spelled i).bind ?_
      rintro ⟨keyDecl, key⟩ r hr ⟨hkeyed, _⟩
      refine (PassM.leaves_newExpr _ _).bind fun target u hu htarget => .pure ?_
      rcases htarget with ⟨newId, rfl, hnew, _⟩
      rcases structureOf_of_mapKey hty hkey with ⟨value, hstructure⟩
      rw [defaultType_of_map hstructure] at huse
      have hdrop : Renews lib keeps p p {⟨id, .access x.id⟩} 0 := by
        apply Renews.drop
        intro entry hentry
        rw [Multiset.mem_singleton.mp hentry]
        rintro ⟨⟩
      have hgrows := (hq.trans (hr.trans hu)).toGrows
      have hentry : Renews lib keeps r u 0 {⟨newId, .access map.id⟩} :=
        .draw hu hnew (by rintro _ ⟨⟩) fun _ _ =>
          spared_index_of_map (huse.mono (hr.trans hu).toGrows)
          (SymbolTable.structureOf_of_extends hgrows.table hstructure (by simp))
      have hheld := (hmap.add (.refl _ (inventory i.nodes))).trans (.add (.refl _ _) hkeyed)
      beta_reduce
      rw [Expr.nodes, Expr.nodes, inventory_expr rfl, inventory_expr rfl, inventory_append,
        inventory_append]
      refine ((hdrop.add hheld).trans (hentry.beside _)).cast rfl ?_
      rw [Stmts.inventory_cons]
      show _ + (({⟨newId, .access map.id⟩} : Multiset Entry) + _) = _
      abel
  | star id x =>
    rw [pin]
    refine .look (PassM.exec_getTable env p) ?_
    refine (leaves_holdOperand keeps hadds scope x).bind ?_
    rintro ⟨declared, pointer⟩ q _ ⟨hheld, _⟩
    refine (PassM.leaves_newExpr _ _).bind fun target r hr htarget => .pure ?_
    rcases htarget with ⟨newId, rfl, hnew, _⟩
    have hdrop : Renews lib keeps p p {⟨id, .plain⟩} 0 := .drop_plain p [id]
    have hstar : Renews lib keeps q r 0 {⟨newId, .plain⟩} := .draw_harmless hr hnew .plain
    beta_reduce
    rw [Expr.nodes, Expr.nodes, inventory_expr rfl, inventory_expr rfl]
    refine ((hdrop.add hheld).trans (hstar.beside _)).cast rfl ?_
    show _ + (({⟨newId, .plain⟩} : Multiset Entry) + _) = _
    abel
  | _ => exact leaves_pinAddress keeps hpointers scope _

theorem leaves_newAssign (keeps : Property → Prop) (target source : Expr) :
    Replaces lib keeps env p (PassM.newAssign [target] [source])
      (inventory target.nodes + inventory source.nodes) (fun s => inventory (Stmts.nodes [s])) := by
  apply (PassM.leaves_newAssign keeps [target] [source] (.inr rfl)).mono
  intro s q _ hs
  exact hs.cast (by simp [Exprs.nodes]) rfl

theorem leaves_evaluate (keeps : Property → Prop) (scope : ScopeId) (node : NodeId)
    (target source : Expr) :
    Replaces lib keeps env p (evaluate scope node target source)
      (inventory target.nodes + inventory source.nodes)
      (fun steps => inventory (Stmts.nodes steps.1) + inventory (Stmts.nodes steps.2)) := by
  unfold evaluate
  split
  · refine (leaves_newAssign keeps target source).bind fun s q _ hs => .pure ?_
    exact hs.cast rfl (add_zero _)
  · split
    · refine (leaves_newAssign keeps target source).bind fun s q _ hs => .pure ?_
      exact hs.cast rfl (zero_add _)
    · refine .look (PassM.exec_typeOf target env p) ?_
      refine Leaves.require fun ty _ => ?_
      refine (PassM.leaves_spell ty node).bind ?_
      rintro spelled q _ rfl
      refine (leaves_hold keeps scope ty spelled source).bind ?_
      rintro ⟨declared, value⟩ r _ ⟨hheld, _⟩
      refine (leaves_newAssign keeps target value).bind fun s u _ hs => .pure ?_
      have hstart := (Renews.refl q (inventory target.nodes)).add hheld
      refine (hstart.trans (Renews.cast (.add (.refl r (inventory (Stmts.nodes [declared]))) hs)
        ?_ rfl))
      abel

theorem leaves_sequence (hadds : lib.AddsBasics)
    (hpointers : ∀ ty, lib.adds (.pointer ty)) (keeps : Property → Prop) (owner node : NodeId)
    (lhs rhs : List Expr) (hlength : lhs.length = rhs.length) :
    Replaces lib keeps env p (sequence owner node lhs rhs)
      (inventory (Exprs.nodes lhs) + inventory (Exprs.nodes rhs))
      (fun s => inventory (Stmts.nodes [s])) := by
  refine PassM.leaves_scopeAt fun parent => ?_
  have hscope : p.Evolves lib _ := .newScope parent
  refine .step (PassM.exec_onTable _ env p) hscope ?_
  refine (Leaves.mapM keeps (fun e => inventory e.nodes)
    (fun pin : List Stmt × Expr => inventory (Stmts.nodes pin.1) + inventory pin.2.nodes) lhs
    fun e _ _ _ => leaves_pin hadds hpointers _ e).counted.bind ?_
  rintro pinned q _ ⟨htargets, hpinned⟩
  refine (Leaves.mapM keeps (fun pair => inventory pair.1.nodes + inventory pair.2.nodes)
    (fun step : List Stmt × List Stmt =>
      inventory (Stmts.nodes step.1) + inventory (Stmts.nodes step.2))
    ((pinned.map Prod.snd).zip rhs) fun pair _ _ _ =>
      leaves_evaluate keeps _ node pair.1 pair.2).bind fun steps r _ hevaluated => ?_
  refine PassM.leaves_ownScope fun blockId u hu hblockId => ?_
  apply (PassM.leaves_newStmt _).mono
  rintro s v hv ⟨id, rfl, hid⟩
  have hblock : Renews lib keeps r u 0 {⟨blockId, .plain⟩} := .draw_harmless hu hblockId .plain
  have hstmt : Renews lib keeps u v 0 {⟨id, .plain⟩} := .draw_harmless hv hid .plain
  have hcount : (pinned.map Prod.snd).length = rhs.length := by
    rw [List.length_map, hpinned, hlength]
  beta_reduce at htargets hevaluated
  rw [List.sum_map_add] at htargets
  rw [sum_zip (fun e => inventory e.nodes) (fun e => inventory e.nodes) hcount, List.map_map,
    List.sum_map_add, ← Exprs.inventory_eq_sum rhs] at hevaluated
  have hstart := ((Renews.stay hscope _).trans htargets).add
    (.refl q (inventory (Exprs.nodes rhs)))
  have hheld := hstart.trans (Renews.cast (.add (.refl q _) hevaluated) (add_assoc _ _ _) rfl)
  refine (hheld.trans ((hblock.add hstmt).beside _)).cast ?_ ?_
  · rw [Exprs.inventory_eq_sum lhs]
  · beta_reduce
    rw [inventory_block, Stmts.inventory_append, Stmts.inventory_append, Stmts.inventory_flatMap,
      Stmts.inventory_flatMap, Stmts.inventory_flatMap]
    abel

theorem leaves_splitAssign (hadds : lib.AddsBasics)
    (hpointers : ∀ ty, lib.adds (.pointer ty)) (owner node : NodeId) (labels : List Label)
    (lhs rhs : List Expr) (hlength : lhs.length = rhs.length) :
    Replaces lib keeps env p (splitAssign owner node labels lhs rhs)
      (labelEntries labels + (inventory (Exprs.nodes lhs) + inventory (Exprs.nodes rhs)))
      (fun stmts => inventory (Stmts.nodes stmts)) := by
  refine .look (PassM.exec_getTable env p) ?_
  split
  · refine (leaves_sequence hadds hpointers keeps owner node lhs rhs hlength).bind
      fun s q _ hs => .pure ?_
    beta_reduce
    rw [s.inventory_label]
    exact (Renews.refl p _).add hs
  · refine (Leaves.stmts keeps (fun pair => inventory pair.1.nodes + inventory pair.2.nodes)
      (lhs.zip rhs) fun pair _ _ _ => leaves_newAssign keeps pair.1 pair.2).bind
        fun stmts q _ hassigned => .pure ?_
    rw [sum_zip (fun e => inventory e.nodes) (fun e => inventory e.nodes) hlength,
      ← Exprs.inventory_eq_sum, ← Exprs.inventory_eq_sum] at hassigned
    exact ((Renews.refl p _).add hassigned).trans (.labelFirst q labels stmts)

theorem leaves_splitStmt (hreports : lib.reports) (hadds : lib.AddsBasics)
    (hpointers : ∀ ty, lib.adds (.pointer ty)) (owner : NodeId) (s : Stmt) :
    Replaces lib keeps env p (splitStmt owner s)
      (inventory (Stmts.nodes [s])) (fun found => inventory (Stmts.nodes (found.getD [s]))) := by
  unfold splitStmt
  split
  · rename_i node lhs rhs hs
    split
    · rename_i hmany
      have hlength : lhs.length = rhs.length := beq_iff_eq.mp (Bool.and_eq_true_iff.mp hmany).2
      refine Leaves.orElseKeep hreports (.map ?_) fun q hq => .pure (.stay hq _)
      apply (leaves_splitAssign hadds hpointers owner node s.labels lhs rhs hlength).mono
      intro stmts q _ hstmts
      have hdrop :
          Renews lib keeps p p {⟨node, (Stmt.assign node lhs .assign rhs).kind true⟩} 0 := by
        apply Renews.drop
        intro entry hentry
        rw [Multiset.mem_singleton.mp hentry]
        exact fun hkind => nomatch hkind
      rw [s.inventory_unlabeled, hs, inventory_assign]
      refine Renews.trans ?_ hstmts
      exact (Renews.refl p _).add ((hdrop.add (.refl p _)).cast rfl (zero_add _).symm)
    · exact .pure (.refl p _)
  · exact .pure (.refl p _)

theorem renewing (hreports : lib.reports) (hadds : lib.AddsBasics)
    (hpointers : ∀ ty, lib.adds (.pointer ty)) : transformer.Renewing lib keeps env p :=
  .of_list rfl rfl rfl rfl fun owner stmts _ => Transformer.leaves_splice stmts
    fun s _ _ _ => leaves_splitStmt hreports hadds hpointers owner s

end Parallel
end Desugar
