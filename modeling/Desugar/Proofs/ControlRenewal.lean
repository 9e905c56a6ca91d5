import Desugar.Access.Dereference
import Desugar.Control.Initializer
import Desugar.Control.Tag
import Desugar.Proofs.Dereferences
import Desugar.Proofs.RenewalWalk
import Desugar.Proofs.WellFormed

/-!
# Renewal by dereferences, tags and initializers

Each of these rules renews the inventory of a file.  A rule keeps every property
except those that it may break: a new dereference changes what an access is
applied to, and an initializer that moves out of a header becomes a statement of
a list.
-/

namespace Desugar

open PassM (Leaves Replaces)

/-!
## Dereferences
-/

namespace Dereference

variable {lib : Liberty} {keeps : Property → Prop} {env : PassEnv} {p : Pass}

theorem leaves_isPointerToArray (x : Expr) :
    Leaves lib env p (isPointerToArray x) (fun found q => q = p ∧ (x.isType = false →
      (p.table.exprTypes[x.id]?).any p.table.isPointerToArray = found)) := by
  unfold isPointerToArray operandType
  split
  · rename_i htype
    exact .pure ⟨rfl, fun hvalue => absurd htype (Bool.eq_false_iff.mp hvalue)⟩
  · rw [bind_assoc]
    refine .look (PassM.exec_typeOf x env p) (Leaves.require fun ty hty => ?_)
    refine .look (PassM.exec_getTable env p) (.pure ⟨rfl, fun _ => ?_⟩)
    rw [hty, Option.any_some]

theorem leaves_isImplicit (e : Expr) : Leaves lib env p (isImplicit e) (fun found q =>
    q = p ∧ (e.OnValue → e.derefsImplicitly p.table = found)) := by
  cases e with
  | index id x i | slice id x low high max => exact leaves_isPointerToArray x
  | selector id x name =>
    refine .look (PassM.exec_getTable env p) ?_
    split
    · rename_i hfield
      unfold operandType
      rw [bind_assoc]
      refine .look (PassM.exec_typeOf x env p) (Leaves.require fun ty hty => ?_)
      refine .look (PassM.exec_getTable env p) (.pure ⟨rfl, fun _ => ?_⟩)
      simp only [Expr.derefsImplicitly, hfield, hty, Option.any_some, beq_self_eq_true,
        Bool.true_and]
    · rename_i hother
      refine .pure ⟨rfl, fun _ => Bool.and_eq_false_imp.mpr fun hfield => ?_⟩
      exact absurd (beq_iff_eq.mp hfield) hother
  | _ => exact .pure ⟨rfl, fun _ => rfl⟩

theorem leaves_deref (keeps : Property → Prop) (operand : Expr) :
    Replaces lib keeps env p (deref operand)
      (inventory operand.nodes) (fun e => inventory e.nodes) := by
  refine .look (PassM.exec_getTable env p) ?_
  refine .look (PassM.exec_typeOf operand env p) ?_
  split
  · apply (PassM.leaves_newExpr _ _).mono
    rintro e q hq ⟨id, rfl, hid, _⟩
    have hstar : Renews lib keeps p q 0 {⟨id, .plain⟩} := .draw_harmless hq hid .plain
    refine (hstar.beside _).cast rfl ?_
    beta_reduce
    rw [Expr.nodes, inventory_expr rfl, add_comm]
    rfl
  · exact .pure (.refl p _)

theorem harmless_access (hkeeps : ¬ keeps .explicitDeref) (operand : NodeId) :
    Kind.Harmless keeps (.access operand) := by
  refine ⟨nofun, fun property hproperty id => ?_⟩
  cases property with
  | explicitDeref => exact absurd hproperty hkeeps
  | _ => exact ⟨rfl, fun _ _ => rfl⟩

theorem harmless_field (hkeeps : ¬ keeps .explicitDeref) (operand : NodeId) (name : String) :
    Kind.Harmless keeps (.field operand name) := by
  refine ⟨nofun, fun property hproperty id => ?_⟩
  cases property with
  | explicitDeref => exact absurd hproperty hkeeps
  | _ => exact ⟨rfl, fun _ _ => rfl⟩

theorem leaves_selectField (operand : Expr) (field : StructField) :
    Leaves lib env p (selectField operand field) (fun e q =>
      ∃ id, e = .selector id operand field.name ∧ id.DrawnIn p q ∧
        q.table.exprTypes[id]? = some field.ty ∧ q.table.selections[id]? = some .field) := by
  apply Leaves.of_drawsOne (selectField_drawsOne operand field env p)
  · intro id hid
    exact (PassM.extends_withType _ hid).trans (Nat.le_refl _)
      (SymbolTable.extends_recordSelection _ hid)
  · intro id other hother
    exact (SymbolTable.recorded_recordSelection hother).elim PassM.recorded_withType .inr
  · exact fun _ => rfl
  · exact fun _ => ⟨rfl, rfl, rfl⟩
  · exact fun _ => rfl
  · exact fun id ids hfresh hbelow _ => ⟨id, rfl, ⟨hfresh, hbelow⟩,
      PassM.getElem?_withType p.table field.ty id, Std.ExtTreeMap.getElem?_insert_self⟩

theorem leaves_follow (hkeeps : ¬ keeps .explicitDeref) (path : List StructField)
    (operand : Expr) {p : Pass} :
    Replaces lib keeps env p (follow operand path)
      (inventory operand.nodes) (fun e => inventory e.nodes) := by
  induction path generalizing operand p with
  | nil => exact .pure (.refl p _)
  | cons field rest ih =>
    rw [follow_cons]
    apply (leaves_selectField operand field).bind
    rintro _ q hq ⟨id, rfl, hid, _⟩
    have hfield : Renews lib keeps p q 0 {⟨id, .field operand.id field.name⟩} :=
      .draw_harmless hq hid (harmless_field hkeeps _ _)
    have hstep : Renews lib keeps p q (inventory operand.nodes)
        (inventory (Expr.selector id operand field.name).nodes) := by
      refine (hfield.beside _).cast rfl ?_
      rw [Expr.nodes, inventory_expr rfl, add_comm]
      rfl
    refine (leaves_deref keeps _).bind fun next r _ hnext => ?_
    exact (ih next).mono fun e u _ he => (hstep.trans hnext).trans he

theorem leaves_expose (hkeeps : ¬ keeps .explicitDeref) (e : Expr) :
    Leaves lib env p (expose e) (fun e' q => e'.id = e.id ∧
      Renews lib keeps p q (inventory e.nodes) (inventory e'.nodes)) := by
  cases e with
  | index id x i =>
    refine (leaves_deref keeps x).bind fun x' q _ hx => .pure ⟨rfl, ?_⟩
    rw [Expr.nodes, Expr.nodes, inventory_expr rfl, inventory_expr rfl, inventory_append,
      inventory_append]
    have hhead : Renews lib keeps p p {⟨id, .access x.id⟩} {⟨id, .access x'.id⟩} :=
      .change (by rintro ⟨⟩) (by rintro _ ⟨⟩) fun property hproperty _ =>
        (harmless_access hkeeps x'.id).spared hproperty p id
    exact hhead.add (hx.add (.refl q _))
  | slice id x low high max =>
    refine (leaves_deref keeps x).bind fun x' q _ hx => .pure ⟨rfl, ?_⟩
    rw [Expr.nodes, Expr.nodes, inventory_expr rfl, inventory_expr rfl]
    simp only [inventory_append]
    have hhead : Renews lib keeps p p {⟨id, .access x.id⟩} {⟨id, .access x'.id⟩} :=
      .change (by rintro ⟨⟩) (by rintro _ ⟨⟩) fun property hproperty _ =>
        (harmless_access hkeeps x'.id).spared hproperty p id
    exact hhead.add (((hx.add (.refl q _)).add (.refl q _)).add (.refl q _))
  | selector id x name =>
    refine .look (PassM.exec_getTable env p) ?_
    refine .look (PassM.exec_typeOf x env p) ?_
    refine (leaves_deref keeps x).bind fun x' q _ hx => ?_
    refine (leaves_follow hkeeps _ x').bind fun x'' r _ hx' => .pure ⟨rfl, ?_⟩
    rw [Expr.nodes, Expr.nodes, inventory_expr rfl, inventory_expr rfl]
    have hhead : Renews lib keeps p p {⟨id, .field x.id name⟩} {⟨id, .field x''.id name⟩} :=
      .change (by rintro ⟨⟩) (by rintro _ ⟨⟩) fun property hproperty _ =>
        (harmless_field hkeeps x''.id name).spared hproperty p id
    exact hhead.add (hx.trans hx')
  | _ => exact .pure ⟨rfl, .refl p _⟩

theorem renewing (hkeeps : ¬ keeps .explicitDeref) : transformer.Renewing lib keeps env p where
  expr e _ := by
    refine (leaves_isImplicit e).bind ?_
    rintro found q hq ⟨rfl, _⟩
    split
    · have hcount : q.Evolves lib _ := .counted q
      refine .step (PassM.exec_countChange env q) hcount ?_
      apply (leaves_expose hkeeps e).mono
      rintro e' r _ ⟨hid, hrenews⟩
      exact ⟨hid, (Renews.stay hcount _).trans hrenews⟩
    · exact .pure ⟨rfl, .refl q _⟩
  stmt _ _ := .pure ⟨rfl, fun _ => .refl _ _⟩
  decl _ _ := .pure (.refl _ _)
  list _ _ _ := .pure (.refl _ _)
  tag _ := .pure (.refl _ _)

end Dereference

/-!
## Tags
-/

theorem SwitchTag.renewing {lib : Liberty} {env : PassEnv} {p : Pass} (keeps : Property → Prop)
    (hadds : lib.adds (.basic .bool)) : transformer.Renewing lib keeps env p where
  expr _ _ := .pure ⟨rfl, .refl _ _⟩
  stmt _ _ := .pure ⟨rfl, fun _ => .refl _ _⟩
  decl _ _ := .pure (.refl _ _)
  list _ _ _ := .pure (.refl _ _)
  tag _ := by
    refine (PassM.leaves_newTrue keeps hadds).bind fun tag q _ htag => ?_
    have hcount : q.Evolves lib _ := .counted q
    exact .step (PassM.exec_countChange env q) hcount (.pure (htag.trans (.stay hcount _)))

/-!
## Initializers
-/

theorem Renews.listed {lib : Liberty} {keeps : Property → Prop}
    (hshort : ¬ keeps .noShortDecl) {owner : Entry} {s : Stmt}
    (howner : ∀ table, Property.explicitDiscard.breaks lib.lifts table owner = false →
      ∀ operand ∈ s.operands, table.producesValue operand = false) (p : Pass) :
    Renews lib keeps p p ({owner} + s.inventoryAt false) ({owner} + s.inventoryAt true) := by
  have hhead : Renews lib keeps p p ({owner} + {⟨s.id, s.kind false⟩})
      ({owner} + {⟨s.id, s.kind true⟩}) := by
    cases s with
    | assign id lhs op rhs =>
      refine .change_beside (fun hkind => nomatch hkind) nofun fun property hkeeps _ hspared => ?_
      cases property with
      | noShortDecl => exact absurd hkeeps hshort
      | _ => exact .of_blind rfl hspared.intact
    | expr id x =>
      refine .change_beside (fun hkind => nomatch hkind) nofun
        fun property _ hheld hspared => ⟨fun other hother => hspared.known other ?_, ?_⟩
      · cases property <;> exact hother
      · intro q hq
        cases property with
        | explicitDiscard =>
          exact howner q.table (hheld.intact q hq) x.id (.head _)
        | _ => rfl
    | _ => exact .refl p _
  unfold Stmt.inventoryAt
  refine ((hhead.add (.refl p (plainEntries s.clauseIds : Multiset Entry))).add
    (.refl p (inventory s.parts))).cast ?_ ?_
  all_goals simp only [add_assoc]

namespace Initializer

variable {lib : Liberty} {keeps : Property → Prop} {env : PassEnv} {p : Pass}

theorem leaves_enclose (keeps : Property → Prop) (labels : List Label) (init control : Stmt) :
    Replaces lib keeps env p (enclose labels init control)
      (labelEntries labels + (init.inventoryAt true + control.inventoryAt true))
      (fun s => inventory (Stmts.nodes [s])) := by
  cases htake : p.ids.take? with
  | none =>
    have hfresh : PassM.freshId.exec env p = (.error .exhausted, p) := by
      rw [PassM.exec_freshId, htake]
    exact Leaves.of_exec_error (PassM.exec_bind_error hfresh) (.refl p)
  | some drawn =>
    rcases drawn with ⟨blockId, ids⟩
    have hfresh : PassM.freshId.exec env p = (.ok blockId, { p with ids := ids }) := by
      rw [PassM.exec_freshId, htake]
    have hblock : ∀ q, p.Evolves lib q → q.ids = ids → Leaves lib env q
        (PassM.newStmt (fun id => .block id ⟨blockId, [init, control.label labels]⟩))
        (fun s r => Renews lib keeps p r
          (labelEntries labels + (init.inventoryAt true + control.inventoryAt true))
          (inventory (Stmts.nodes [s]))) := by
      intro q hq hids
      apply (PassM.leaves_newStmt _).mono
      rintro s r hr ⟨id, rfl, hid⟩
      have hdrawn : blockId.DrawnIn p q := by
        refine ⟨?_, ?_⟩
        · rw [(NodeSupply.take?_eq_some htake).1]
          exact Nat.le_refl _
        · rw [hids]
          exact Pass.Grows.below_of_take htake
      have hbody : Renews lib keeps p q 0 {⟨blockId, .plain⟩} := .draw_harmless hq hdrawn .plain
      have hstmt : Renews lib keeps q r 0 {⟨id, .plain⟩} := .draw_harmless hr hid .plain
      refine ((hbody.beside _).trans (hstmt.beside _)).cast rfl ?_
      rw [inventory_block, Stmts.inventory_cons, control.inventory_label,
        Stmts.inventory_singleton_eq, Stmts.inventory_singleton_eq]
      abel
    cases hscope : p.table.scopeOf[control.id]? with
    | some scope =>
      refine .via ?_ (.take_moveScope htake control.id) (hblock _ (.take_moveScope htake _) rfl)
      unfold enclose
      rw [PassM.exec_bind_ok hfresh, PassM.exec_bind_ok (PassM.exec_onTable _ env _)]
      simp only [SymbolTable.moveScope, hscope]
    | none =>
      have hunmoved : p.table.moveScope control.id blockId = (none, p.table) := by
        simp only [SymbolTable.moveScope, hscope]
      have hevolves : p.Evolves lib { p with ids := ids } := by
        have hmoved : p.Evolves lib
            { p with ids := ids, table := (p.table.moveScope control.id blockId).2 } :=
          .take_moveScope htake control.id
        rwa [hunmoved] at hmoved
      have hrest : (enclose labels init control).exec env p =
          (do
            let parent ← PassM.scopeAt control.id
            let scope ← PassM.onTable (fun table => table.newScope parent)
            PassM.modifyTable (fun table => table.attachScope blockId scope)
            PassM.newStmt (fun id => .block id ⟨blockId, [init, control.label labels]⟩)
              : PassM Stmt).exec env { p with ids := ids } := by
        unfold enclose
        rw [PassM.exec_bind_ok hfresh, PassM.exec_bind_ok (PassM.exec_onTable _ env _)]
        simp only [hunmoved]
      cases hcurrent : p.scopes.current with
      | none =>
        have hat : (PassM.scopeAt control.id).exec env { p with ids := ids } =
            (.error (.problem (.missingScope control.id "enclosing statement list")),
              { p with ids := ids }) := by
          unfold PassM.scopeAt
          rw [PassM.exec_bind_ok (PassM.exec_scope? env _), hcurrent]
          rfl
        exact Leaves.of_exec_error (hrest.trans (PassM.exec_bind_error hat)) hevolves
      | some parent =>
        have hattached : p.Evolves lib { p with
            ids := ids
            table := (p.table.newScope parent).2.attachScope blockId
              (p.table.newScope parent).1 } :=
          (Pass.Evolves.newScope parent).trans (.take_attachScope
            (p := { p with table := (p.table.newScope parent).2 }) htake _)
        refine .via (hrest.trans ?_) hattached (hblock _ hattached rfl)
        have hat : (PassM.scopeAt control.id).exec env { p with ids := ids } =
            (.ok parent, { p with ids := ids }) := by
          unfold PassM.scopeAt
          rw [PassM.exec_bind_ok (PassM.exec_scope? env _), hcurrent]
          rfl
        rw [PassM.exec_bind_ok hat, PassM.exec_bind_ok (PassM.exec_onTable _ env _),
          PassM.exec_bind_ok (PassM.exec_modifyTable _ env _)]

theorem renews_takeInit? (hlifts : lib.lifts .noControlInit = true)
    (hshort : ¬ keeps .noShortDecl) {s init control : Stmt}
    (h : s.takeInit? = some (init, control)) (p : Pass) :
    Renews lib keeps p p (s.inventoryAt true)
      (init.inventoryAt true + control.inventoryAt true) := by
  have hhead : ∀ (id : NodeId) (tagless : Bool) (rest : Multiset Entry), Renews lib keeps p p
      ({⟨id, .control true tagless init.operands⟩} + init.inventoryAt false + rest)
      (init.inventoryAt true + ({⟨id, .control false tagless []⟩} + rest)) := by
    intro id tagless rest
    have hlisted : Renews lib keeps p p
        ({⟨id, .control true tagless init.operands⟩} + init.inventoryAt false)
        ({⟨id, .control true tagless init.operands⟩} + init.inventoryAt true) := by
      refine .listed hshort (fun table hintact operand hoperand => ?_) p
      simp only [Property.breaks, hlifts, Bool.true_and, List.any_eq_false] at hintact
      exact Bool.eq_false_iff.mpr (hintact operand hoperand)
    have hcontrol : Renews lib keeps p p {⟨id, .control true tagless init.operands⟩}
        {⟨id, .control false tagless []⟩} := by
      refine .change (by rintro ⟨⟩) (by rintro _ ⟨⟩) fun property _ hspared => ?_
      cases property with
      | taggedSwitch => exact .of_blind rfl hspared.intact
      | explicitDiscard => exact .of_blind rfl fun _ _ => Bool.and_false _
      | _ => exact .of_blind rfl fun _ _ => rfl
    refine ((hlisted.trans (hcontrol.add (.refl p _))).add (.refl p rest)).cast rfl ?_
    abel
  cases s with
  | ifElse id start cond body els =>
    cases start with
    | none => cases h
    | some start =>
      cases h
      refine (hhead id false (inventory (Stmt.ifElse id none cond body els).parts)).cast ?_ ?_
      · rw [Stmt.inventoryAt_of_clauseIds rfl, Stmt.parts, Stmt.parts]
        simp only [inventory_append, OptStmt.inventory_headerNodes_some]
        show ({⟨id, .control true false init.operands⟩} : Multiset Entry) + _ =
          _ + _ + (0 + _ + _ + _)
        abel
      · rw [Stmt.inventoryAt_of_clauseIds (s := .ifElse id none cond body els) rfl]
        rfl
  | switch id start tag clauses =>
    cases start with
    | none => cases h
    | some start =>
      cases h
      refine (hhead id tag.isNone ((plainEntries (clauses.map CaseClause.id) : List Entry) +
        inventory (Stmt.switch id none tag clauses).parts)).cast ?_ ?_
      · rw [Stmt.inventoryAt, Stmt.parts, Stmt.parts]
        simp only [inventory_append, OptStmt.inventory_headerNodes_some]
        show ({⟨id, .control true tag.isNone init.operands⟩} : Multiset Entry) +
          (plainEntries (clauses.map CaseClause.id) : List Entry) + _ = _ + _ + (_ + (0 + _ + _))
        abel
      · exact congrArg _ (add_assoc _ _ _)
  | typeSwitch id start guard clauses =>
    cases start with
    | none => cases h
    | some start =>
      cases h
      refine (hhead id false ((plainEntries (clauses.map TypeClause.id) : List Entry) +
        inventory (Stmt.typeSwitch id none guard clauses).parts)).cast ?_ ?_
      · rw [Stmt.inventoryAt, Stmt.parts, Stmt.parts]
        simp only [inventory_append, OptStmt.inventory_headerNodes_some]
        show ({⟨id, .control true false init.operands⟩} : Multiset Entry) +
          (plainEntries (clauses.map TypeClause.id) : List Entry) + _ = _ + _ + (_ + (0 + _ + _))
        abel
      · exact congrArg _ (add_assoc _ _ _)
  | _ => cases h

theorem leaves_hoist (hlifts : lib.lifts .noControlInit = true)
    (hshort : ¬ keeps .noShortDecl) (s : Stmt) :
    Replaces lib keeps env p (hoist s)
      (inventory (Stmts.nodes [s])) (fun found => inventory (Stmts.nodes (found.getD [s]))) := by
  unfold hoist
  split
  · rename_i init control htake
    refine (leaves_enclose keeps s.labels init control).bind fun block q _ hblock => .pure ?_
    refine Renews.trans ?_ hblock
    rw [s.inventory_unlabeled, Stmts.inventory_singleton_eq]
    exact (Renews.refl p _).add (renews_takeInit? hlifts hshort htake p)
  · exact .pure (.refl p _)

theorem leaves_hoistElse (hlifts : lib.lifts .noControlInit = true)
    (hshort : ¬ keeps .noShortDecl) (s : Stmt) :
    Leaves lib env p (hoistElse s) (fun s' q => s'.operands = s.operands ∧ ∀ listed,
      Renews lib keeps p q (s.inventoryAt listed) (s'.inventoryAt listed)) := by
  have hkeep : Leaves lib env p (pure s) (fun s' q => s'.operands = s.operands ∧ ∀ listed,
      Renews lib keeps p q (s.inventoryAt listed) (s'.inventoryAt listed)) :=
    .pure ⟨rfl, fun _ => .refl p _⟩
  cases s with
  | ifElse id init cond body els =>
    cases els with
    | none => exact hkeep
    | some els =>
      cases els with
      | ifElse inner start test first rest =>
        cases start with
        | none => exact hkeep
        | some start =>
          refine (leaves_enclose keeps [] start (.ifElse inner none test first rest)).bind
            fun block q _ hblock => ?_
          have hcount : q.Evolves lib _ := .counted q
          refine .step (PassM.exec_countChange env q) hcount (.pure ⟨rfl, ?_⟩)
          refine Renews.stmt (.of_eq rfl (fun _ => rfl) rfl) ?_
          simp only [Stmt.parts, inventory_append, OptStmt.nodes, inventory_stmt]
          refine (Renews.refl p _).add (Renews.trans ?_ (.stay hcount _))
          beta_reduce at hblock
          rw [Stmts.inventory_singleton_eq] at hblock
          exact (renews_takeInit? hlifts hshort rfl p).trans
            (hblock.cast (zero_add _).symm rfl)
      | _ => exact hkeep
  | _ => exact hkeep

theorem renewing (hlifts : lib.lifts .noControlInit = true)
    (hshort : ¬ keeps .noShortDecl) : transformer.Renewing lib keeps env p where
  expr _ _ := .pure ⟨rfl, .refl _ _⟩
  stmt s _ := leaves_hoistElse hlifts hshort s
  decl _ _ := .pure (.refl _ _)
  list _ stmts _ := Transformer.leaves_splice stmts fun s _ _ _ => leaves_hoist hlifts hshort s
  tag _ := .pure (.refl _ _)

end Initializer
end Desugar
