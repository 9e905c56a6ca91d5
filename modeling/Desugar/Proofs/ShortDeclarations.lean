import Desugar.Declaration.Short
import Desugar.Proofs.Contracts

/-!
# Short declarations

Writing out short declarations leaves none in a statement list, unless it has
been reported.  The declarations that take their place have types and values,
and the assignment after them has a source for each target, or one source.
-/

namespace Desugar

open PassM (Obtains Ends)
open Node (All AllHave)
open Trait (With)

namespace Short

variable {env : PassEnv} {p : Pass} {traits : Trait → Prop}

/-!
## Targets
-/

theorem expr_of_classify {table : SymbolTable} {scope : ScopeId} {e : Expr} {target : Target}
    (h : classify table scope e = .ok target) : target.expr = e := by
  unfold classify at h
  cases hname : e.name? with
  | none =>
    rw [hname] at h
    cases h
  | some name =>
    simp only [hname] at h
    split at h
    · cases h
      rfl
    · split at h
      · cases h
        rfl
      · split at h
        · cases h
          rfl
        · cases h

theorem yields_classify (scope : ScopeId) (lhs : List Expr) :
    Obtains env p (lhs.mapM fun e => do
      match classify (← PassM.getTable) scope e with
      | .ok target => return target
      | .error problem => PassM.raise problem)
      (fun targets _ => List.Forall₂ (fun e target => Target.expr target = e) lhs targets) := by
  refine Ends.mapM lhs (fun _ _ _ _ _ h => h) ?_
  intro e _ q _
  refine .look (PassM.exec_getTable env q) ?_
  cases hclass : classify q.table scope e with
  | ok target => exact .pure (expr_of_classify hclass)
  | error problem => exact .raise trivial

theorem yields_bindingType (binding : BindingId) (node : NodeId) :
    Obtains env p (bindingType binding node) (fun _ q => q = p) := by
  refine .look (PassM.exec_getTable env p) ?_
  exact .require (fun _ => trivial) (fun _ _ => rfl)

theorem yields_freshDecls (node : NodeId) {targets : List Target}
    (htargets : ∀ target ∈ targets, target.expr.id.Below p.ids.count) :
    Obtains env p (freshDecls node targets) (fun fresh q => ∀ decl ∈ fresh,
      decl.name.id.Below q.ids.count ∧ decl.zero.Settled traits q) := by
  apply Ends.filterMapM
  · intro decl q r hgrows hdecl
    exact ⟨PassM.below_mono hgrows hdecl.1, hdecl.2.mono hgrows⟩
  · intro target htarget q hq
    have hid := PassM.below_mono hq (htargets target htarget)
    cases target with
    | fresh e name binding =>
      apply (yields_bindingType binding e.id).bind
      intro ty q₁ hq₁ _
      apply (PassM.yields_spell _ _ (fun _ _ => trivial)).bind
      intro spelled q₂ hq₂ _
      apply (PassM.yields_zeroValue ty name node trivial (fun _ _ => trivial)).bind
      intro zero r hr hzero
      apply Ends.pure
      intro decl hdecl
      cases hdecl
      rcases hzero with ⟨id, hzeroId, hzero⟩
      exact ⟨PassM.below_mono (hq₁.trans (hq₂.trans hr)) hid, .zero hzeroId hzero⟩
    | blank e | existing e =>
      apply Ends.pure
      intro decl hdecl
      cases hdecl

/-!
## Temporaries
-/

theorem yields_heldType (target : Target) (value : Expr) :
    Obtains env p (heldType target value) (fun _ _ => True) := by
  have hnext : ∀ (known : Option TypeId) (q : Pass), Obtains env q (do
      let ty ← PassM.require (known <|> (← PassM.typeOf value))
        (.missingType value.id "assigned value")
      PassM.defaultType ty) (fun _ _ => True) := by
    intro known q
    refine .look (PassM.exec_typeOf value env q) ?_
    apply Ends.require_bind trivial
    intro ty _
    exact .of_exec (PassM.exec_onTable _ env q) (PassM.grows_defaultType ty) trivial
  cases target with
  | fresh e name binding =>
    have hbinding : Obtains env p (some <$> bindingType binding e.id)
        (fun _ _ => True) := by
      apply Ends.map
      exact (yields_bindingType binding e.id).mono fun _ _ _ _ => trivial
    exact hbinding.bind fun known q _ _ => hnext known q
  | blank e | existing e => exact .look (PassM.exec_typeOf e env p) (hnext _ p)

theorem yields_newVar {name : Ident} {ty : TypeExpr} {value : Expr}
    (hname : name.id.Below p.ids.count) (hvalue : value.Settled traits p) :
    Obtains env p (PassM.newVar name (some ty) [value])
      (fun s q => Stmts.Settled traits q [s]) := by
  exact PassM.obtains_newVar hname (fun _ => rfl) (fun _ => List.cons_ne_nil _ _)
    (List.forall_mem_singleton.mpr hvalue)

theorem yields_newVarOf {binding : BindingId} {ty : TypeExpr} {value : Expr}
    (hvalue : value.Settled traits p) :
    Obtains env p (PassM.newVarOf binding (some ty) [value])
      (fun s q => Stmts.Settled traits q [s]) := by
  apply (PassM.yields_newBinder binding trivial).bind
  intro name q hq hname
  exact yields_newVar hname (hvalue.mono hq)

theorem yields_holdList (owner node : NodeId) {targets : List Target} {values : List Expr}
    (hlength : targets.length = values.length) (hvalues : ∀ e ∈ values, e.Settled traits p) :
    Obtains env p (holdList owner node targets values) (fun held q =>
      Stmts.Settled traits q held.1 ∧ (∀ e ∈ held.2, e.Settled traits q) ∧
        held.2.length = targets.length) := by
  refine (Ends.mapM_any (targets.zip values) ?_).counted.bind ?_
  · intro pair _ q _
    apply (yields_heldType _ _).bind
    intro ty r _ _
    apply (PassM.yields_spell _ _ (fun _ _ => trivial)).bind
    intros
    exact .pure trivial
  intro types q hq htypes
  apply (PassM.yields_scopeAt owner (fun _ _ => trivial)).bind
  intro scope q' hq' _
  refine (Obtains.stmtsAndExprs traits (types.zip values) ?_).counted.bind ?_
  · intro entry hentry r hr
    apply (PassM.yields_newTemp scope entry.1.1).bind
    intro temp r₁ hr₁ _
    have hvalue : entry.2.Settled traits r₁ :=
      (hvalues _ (List.of_mem_zip hentry).2).mono (hq.trans (hq'.trans (hr.trans hr₁)))
    apply (yields_newVarOf hvalue).bind
    intro declared r₂ hr₂ hdeclared
    apply (PassM.obtains_newUse temp).bind
    intro use u hu huse
    exact .pure ⟨hdeclared.mono hu, huse⟩
  intro held r _ hheld
  refine .pure ⟨hheld.1.1, hheld.1.2, ?_⟩
  have hzip := hheld.2
  rw [List.length_zip, htypes.2, List.length_zip, hlength, Nat.min_self, Nat.min_self] at hzip
  rw [List.unzip_snd, List.length_map, hzip, hlength]

theorem yields_holdTuple (hstage : ∀ trait, traits trait → trait.stage < 8) (owner node : NodeId)
    {targets : List Target} {value : Expr} (hvalue : value.Settled (With traits .noShortDecl) p) :
    Obtains env p (holdTuple owner node targets value) (fun held q =>
      Stmts.Settled (With traits .noShortDecl) q held.1 ∧
        (∀ e ∈ held.2, e.Settled (With traits .noShortDecl) q) ∧
        held.2.length = targets.length) := by
  refine .look (PassM.exec_typeOf value env p) ?_
  apply Ends.require_bind trivial
  intro tuple _
  refine .look (PassM.exec_getTable env p) ?_
  by_cases hmembers : (p.table.results tuple).length ≠ targets.length
  · simp only [if_pos hmembers]
    exact .raise_bind trivial
  simp only [if_neg hmembers]
  refine (Obtains.exprsOf (With traits .noShortDecl) _
    (fun triple : TypeId × TypeExpr × Expr => triple.2.2) ?_).counted.bind ?_
  · intro member _ r _
    refine .step (PassM.exec_onTable _ env r) (PassM.grows_defaultType member) ?_
    apply (PassM.yields_spell _ _ (fun _ _ => trivial)).bind
    intro spelled r₁ _ _
    refine .look (PassM.exec_getTable env r₁) ?_
    apply (PassM.yields_zeroValue _ _ node trivial (fun _ _ => trivial)).bind
    intro zero u _ hzero
    rcases hzero with ⟨id, hid, hzero⟩
    exact .pure (.zero hid hzero)
  intro types r hr htypes
  apply (PassM.yields_scopeAt owner (fun _ _ => trivial)).bind
  intro scope r' hr' _
  refine (Obtains.pairs (With traits .noShortDecl) types ?_).counted.bind ?_
  · intro triple htriple u hu
    apply (PassM.yields_newTemp scope triple.1).bind
    intro temp u₁ hu₁ _
    have hzero := (htypes.1 triple htriple).mono (hr'.trans (hu.trans hu₁))
    apply (yields_newVarOf hzero).bind
    intro declared v _ hdeclared
    exact .pure hdeclared
  intro held u hu hheld
  refine (Obtains.exprs (With traits .noShortDecl) held
    fun _ _ _ _ => PassM.obtains_newUse _).bind ?_
  intro receivers v hv hreceivers
  apply (PassM.yields_newStmt _ trivial).bind
  intro received w hw hreceived
  rcases hreceived with ⟨id, rfl, hid⟩
  refine (Obtains.exprs (With traits .noShortDecl) held fun _ _ _ _ =>
    PassM.obtains_newUse _).counted.bind ?_
  intro reads x hx hreads
  apply Ends.pure
  refine ⟨?_, hreads.1, ?_⟩
  · apply Stmts.Settled.append_iff.mpr
    constructor
    · exact hheld.1.mono (hv.trans (hw.trans hx))
    · apply Stmts.Settled.assign (PassM.below_mono hx hid)
      · exact .inr rfl
      · exact fun h => absurd h (Trait.not_with hstage (by decide) (by decide))
      · apply Exprs.all_of_mem
        intro e he
        exact (hreceivers e he).mono (hw.trans hx)
      · have hgrows := hr.trans (hr'.trans (hu.trans (hv.trans (hw.trans hx))))
        exact Node.All.append_iff.mpr ⟨hvalue.mono hgrows, .nil⟩
  · rw [hreads.2, hheld.2, htypes.2, not_not.mp hmembers]

theorem yields_hold (hstage : ∀ trait, traits trait → trait.stage < 8) (owner node : NodeId)
    {targets : List Target} {values : List Expr}
    (hbalanced : values.length = targets.length ∨ values.length = 1)
    (hvalues : ∀ e ∈ values, e.Settled (With traits .noShortDecl) p) :
    Obtains env p (hold owner node targets values) (fun held q =>
      Stmts.Settled (With traits .noShortDecl) q held.1 ∧
        (∀ e ∈ held.2, e.Settled (With traits .noShortDecl) q) ∧
        (held.2.length = targets.length ∨ held.2.length = 1)) := by
  unfold hold
  by_cases hlength : targets.length = values.length
  · rw [if_pos hlength]
    apply (yields_holdList owner node hlength hvalues).mono
    intro held q _ hheld
    exact ⟨hheld.1, hheld.2.1, .inl hheld.2.2⟩
  · rw [if_neg hlength]
    cases values with
    | nil => exact .pure ⟨.nil, hvalues, hbalanced⟩
    | cons value rest =>
      cases rest with
      | nil =>
        apply (yields_holdTuple hstage owner node (hvalues value (.head _))).mono
        intro held q _ hheld
        exact ⟨hheld.1, hheld.2.1, .inl hheld.2.2⟩
      | cons second rest => exact .pure ⟨.nil, hvalues, hbalanced⟩

/-!
## The statement
-/

theorem yields_assigned {targets : List Target}
    (htargets : ∀ target ∈ targets, target.expr.Settled traits p) :
    Obtains env p (targets.mapM fun
      | .fresh _ _ binding => PassM.newUse binding
      | .blank e => return e
      | .existing e => return e)
      (fun assigned q => ∀ e ∈ assigned, e.Settled traits q) := by
  refine Obtains.exprs traits targets fun target htarget q hq => ?_
  have hsettled := (htargets target htarget).mono hq
  cases target with
  | fresh e name binding => exact PassM.obtains_newUse binding
  | blank e | existing e => exact .pure hsettled

theorem yields_eliminate (hstage : ∀ trait, traits trait → trait.stage < 8)
    (hbounded : traits .bounded) (owner : NodeId) {node : NodeId} {lhs rhs : List Expr}
    (hnode : node.Below p.ids.count)
    (hlhs : ∀ e ∈ lhs, e.Settled (With traits .noShortDecl) p)
    (hrhs : ∀ e ∈ rhs, e.Settled (With traits .noShortDecl) p) :
    Obtains env p (eliminate owner node lhs rhs)
      (fun stmts q => Stmts.Settled (With traits .noShortDecl) q stmts) := by
  unfold eliminate
  by_cases hbalanced : isBalanced lhs rhs = true
  swap
  · rw [if_pos (by simp [hbalanced])]
    exact .raise_bind trivial
  rw [if_neg (by simp [hbalanced])]
  have hcounts : rhs.length = lhs.length ∨ rhs.length = 1 := by
    unfold isBalanced at hbalanced
    rcases Bool.or_eq_true_iff.mp hbalanced with hequal | hone
    · exact .inl (beq_iff_eq.mp hequal).symm
    · exact .inr (beq_iff_eq.mp (Bool.and_eq_true_iff.mp hone).1)
  apply (PassM.yields_scopeAt owner (fun _ _ => trivial)).bind
  intro scope p₁ hp₁ _
  apply (yields_classify scope lhs).bind
  intro targets p₂ hp₂ hclassified
  have htargets : ∀ target ∈ targets, target.expr.Settled (With traits .noShortDecl) p₂ := by
    intro target htarget
    rcases Ends.exists_mem_of_forall₂ hclassified target htarget with ⟨e, he, heq⟩
    rw [heq]
    exact (hlhs e he).mono (hp₁.trans hp₂)
  have hbelow : ∀ target ∈ targets, target.expr.id.Below p₂.ids.count :=
    fun target htarget => (htargets target htarget).id_below (.inl hbounded)
  apply (yields_freshDecls node hbelow).bind
  intro fresh p₃ hp₃ hfresh
  refine .search trivial fun shadowed _ => ?_
  have hnext : ∀ (held : List Stmt × List Expr) (q : Pass), p₃.Grows q →
      Stmts.Settled (With traits .noShortDecl) q held.1 →
      (∀ e ∈ held.2, e.Settled (With traits .noShortDecl) q) →
      (held.2.length = targets.length ∨ held.2.length = 1) →
      Obtains env q (do
        let declared ← fresh.mapM fun decl => PassM.newVar decl.name (some decl.ty) [decl.zero]
        let assigned ← targets.mapM fun
          | .fresh _ _ binding => PassM.newUse binding
          | .blank e => return e
          | .existing e => return e
        return held.1 ++ declared ++ [.assign node assigned .assign held.2])
        (fun stmts r => Stmts.Settled (With traits .noShortDecl) r stmts) := by
    intro held q hq hbefore hvalues hlength
    refine (Obtains.stmts (With traits .noShortDecl) _ ?_).bind ?_
    · intro decl hdecl r hr
      rcases hfresh decl hdecl with ⟨hname, hzero⟩
      exact yields_newVar (PassM.below_mono (hq.trans hr) hname) (hzero.mono (hq.trans hr))
    intro declared r hr hdeclared
    refine (yields_assigned fun target htarget =>
      (htargets target htarget).mono (hp₃.trans (hq.trans hr))).counted.bind ?_
    intro assigned u hu hassigned
    apply Ends.pure
    refine Stmts.Settled.append_iff.mpr ⟨Stmts.Settled.append_iff.mpr ⟨?_, ?_⟩, ?_⟩
    · exact hbefore.mono (hr.trans hu)
    · exact hdeclared.mono hu
    · apply Stmts.Settled.assign
      · exact PassM.below_mono
          (hp₁.trans (hp₂.trans (hp₃.trans (hq.trans (hr.trans hu))))) hnode
      · rw [hassigned.2]
        exact hlength
      · exact fun h => absurd h (Trait.not_with hstage (by decide) (by decide))
      · exact Exprs.all_of_mem hassigned.1
      · exact Exprs.all_of_mem fun e he => (hvalues e he).mono (hr.trans hu)
  have hrhs' : ∀ e ∈ rhs, e.Settled (With traits .noShortDecl) p₃ :=
    fun e he => (hrhs e he).mono (hp₁.trans (hp₂.trans hp₃))
  have hcounts' : rhs.length = targets.length ∨ rhs.length = 1 := by
    rw [← hclassified.length_eq]
    exact hcounts
  dsimp only
  split
  · apply (yields_hold hstage owner node hcounts' hrhs').bind
    intro held q hq hheld
    exact hnext held q hq hheld.1 hheld.2.1 hheld.2.2
  · exact hnext ([], rhs) p₃ (.refl p₃) .nil hrhs' hcounts'

theorem yields_eliminateStmt (hstage : ∀ trait, traits trait → trait.stage < 8)
    (hbounded : traits .bounded) (owner : NodeId) {s : Stmt}
    (hown : AllHave traits p s.own)
    (hdeep : AllHave (With traits .noShortDecl) p s.deep) :
    Obtains env p (eliminateStmt owner s)
      (fun found q => Stmts.Settled (With traits .noShortDecl) q (found.getD [s])) := by
  have hlabels := Stmt.labels_below hbounded hown
  have hkeep : ∀ q, p.Grows q →
      (∀ r : Pass, q.Grows r → r.diagnostics = [] →
        Trait.noShortDecl.OnStmt r false s.unlabeled) →
      Stmts.Settled (With traits .noShortDecl) q [s] := by
    intro q hq hstmt
    apply Stmts.Settled.keep (by decide) (Node.Has.all_mono hq hown) (Node.Has.all_mono hq hdeep)
    · exact hstmt
    · intros
      trivial
  unfold eliminateStmt
  cases hs : s.unlabeled with
  | assign node lhs op rhs =>
    cases op with
    | define =>
      have hparts := hdeep
      rw [← s.deep_unlabeled, hs] at hparts
      rcases Node.All.append_iff.mp hparts with ⟨hlhs, hrhs⟩
      have hself : (Node.stmt (.assign node lhs .define rhs)).Has traits p := by
        rw [← hs]
        exact hown _ (s.own_unlabeled_subset (.head _))
      have hids := hself.holds hbounded fun hpos => absurd hpos (Nat.lt_irrefl 0)
      refine Ends.orElseKeep .report ((yields_eliminate hstage hbounded owner (hids node (.head _))
        (fun e he => Exprs.all_mem hlhs he) (fun e he => Exprs.all_mem hrhs he)).bind ?_) ?_
      · intro stmts q hq hstmts
        apply Ends.pure
        apply Stmts.Settled.labelFirst _ _ hstmts
        intro l hl
        exact PassM.below_mono hq (hlabels l hl)
      intro q hq hreported
      apply Ends.pure
      apply hkeep q hq
      intro r hr hnone
      exact absurd (hr.no_diagnostics hnone) hreported
    | _ =>
      apply Ends.pure
      apply hkeep p (.refl p)
      intro r _ _
      rw [hs]
      exact fun _ => rfl
  | _ =>
    apply Ends.pure
    apply hkeep p (.refl p)
    intro r _ _
    rw [hs]
    exact fun _ => rfl

theorem contract {start : Pass} (hstage : ∀ trait, traits trait → trait.stage < 8)
    (hbounded : traits .bounded) (hsimple : traits .simpleHeaders)
    (hbranchElse : traits .branchElse) :
    transformer.ListContract Fault.any env start traits .noShortDecl := by
  apply Transformer.ListContract.of_splice rfl rfl rfl rfl (fun _ => rfl) (by decide) hsimple
    hbranchElse (Transformer.branchHook_of_pure rfl (by decide) (by decide))
  intro p owner s _
  exact yields_eliminateStmt hstage hbounded owner

end Short
end Desugar
