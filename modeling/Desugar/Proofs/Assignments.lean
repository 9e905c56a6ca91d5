import Desugar.Assignment.Discard
import Desugar.Assignment.Parallel
import Desugar.Proofs.Contracts

/-!
# Assignments in normal form

Splitting assignments to several targets leaves none that has a source for each
target, and discarding values explicitly leaves no expression statement that
produces one.
-/

namespace Desugar

open PassM (Obtains Ends)
open Node (All AllHave)
open Trait (With)

section

variable {env : PassEnv} {start p : Pass} {traits : Trait → Prop}

/-!
## Discarded values
-/

namespace Discard

theorem yields_arity (x : Expr) :
    Obtains env p (arity x) (fun values q => q = p ∧ (values = 0 →
      ∃ ty, p.table.exprTypes[x.id]? = some ty ∧ p.table.ty ty = .tuple [])) := by
  refine .look (PassM.exec_typeOf x env p) ?_
  apply Ends.require_bind trivial
  intro ty hty
  refine .look (PassM.exec_getTable env p) ?_
  cases htuple : p.table.ty ty with
  | tuple members =>
    apply Ends.pure
    refine ⟨rfl, ?_⟩
    intro hlength
    rw [List.length_eq_zero_iff.mp hlength] at htuple
    exact ⟨ty, hty, htuple⟩
  | _ =>
    apply Ends.pure
    refine ⟨rfl, ?_⟩
    intro hone
    cases hone

theorem yields_expand (hbounded : traits .bounded) {s : Stmt}
    (hown : AllHave traits p s.own)
    (hdeep : AllHave (With traits .explicitDiscard) p s.deep) :
    Obtains env p (expand s)
      (fun s' q => Stmts.Settled (With traits .explicitDiscard) q [s']) := by
  have hlabels := Stmt.labels_below hbounded hown
  have hunlabeled : AllHave traits p s.unlabeled.own :=
    fun n hn => hown n (s.own_unlabeled_subset hn)
  unfold expand
  cases hs : s.unlabeled with
  | expr id x =>
    have hparts := hdeep
    rw [← s.deep_unlabeled, hs] at hparts
    rw [hs] at hunlabeled
    have hself := hunlabeled _ (.head _)
    have hids := hself.holds hbounded fun hstage => absurd hstage (Nat.lt_irrefl 0)
    apply (yields_arity x).bind
    rintro values q _ ⟨rfl, hvalues⟩
    by_cases hzero : values = 0
    · rw [if_pos hzero]
      apply Ends.pure
      apply Stmts.Settled.keep (by decide) hown hdeep
      · intro r hr _
        rw [hs]
        intro _
        rcases hvalues hzero with ⟨ty, hty, htuple⟩
        refine ⟨ty, ?_, ?_⟩
        · rw [hr.table.exprTypes x.id (hids x.id (.tail _ (.head _)))]
          exact hty
        · exact SymbolTable.ty_of_extends hr.table htuple (by decide)
      · intros
        trivial
    · rw [if_neg hzero]
      refine (Obtains.exprs (With traits .explicitDiscard) _ ?_).bind ?_
      · intro _ _ r _
        apply (PassM.yields_newBlank trivial).mono
        rintro e u _ ⟨blankId, rfl, hblank⟩
        exact .ident hblank
      intro blanks r hr hall
      have hcount : r.Grows _ := .counted r
      refine .step (PassM.exec_countChange env r) hcount (.pure ?_)
      have hgrows := hr.trans hcount
      apply Stmts.Settled.label
      · intro l hl
        exact PassM.below_mono hgrows (hlabels l hl)
      · apply Stmts.Settled.assign
        · exact PassM.below_mono hgrows (hids id (.head _))
        · exact .inr rfl
        · rintro _ ⟨hmany, hone⟩
          rw [hone] at hmany
          exact Nat.lt_irrefl 1 hmany
        · exact Exprs.all_of_mem fun e he => (hall e he).mono hcount
        · exact Exprs.all_of_mem (List.forall_mem_singleton.mpr (Node.Has.all_mono hgrows hparts))
  | _ =>
    apply Ends.pure
    apply Stmts.Settled.keep (by decide) hown hdeep
    · intro r _ _
      rw [hs]
      trivial
    · intros
      trivial

theorem contract (hbounded : traits .bounded)
    (hsimple : traits .simpleHeaders) (hbranchElse : traits .branchElse) :
    transformer.ListContract Fault.any env start traits .explicitDiscard := by
  apply Transformer.ListContract.of_hooks rfl rfl rfl (fun _ => rfl) (by decide) hsimple hbranchElse
  · exact Transformer.branchHook_of_pure rfl (by decide) (by decide)
  · intro p owner stmts _ hstmts
    apply Obtains.stmts
    intro s hs q hq
    rcases hstmts s hs with ⟨hown, hdeep⟩
    exact yields_expand hbounded (Node.Has.all_mono hq hown) (Node.Has.all_mono hq hdeep)

end Discard

/-!
## Assignments to several targets
-/

namespace Parallel

def IsUseOf (ty : TypeId) (e : Expr) (q : Pass) : Prop :=
  ∃ id name, e = .ident id name ∧ id.Below q.ids.count ∧ q.table.exprTypes[id]? = some ty

theorem IsUseOf.mono {ty : TypeId} {e : Expr} {q r : Pass} (hgrows : q.Grows r)
    (h : IsUseOf ty e q) : IsUseOf ty e r := by
  rcases h with ⟨id, name, rfl, hid, hty⟩
  refine ⟨id, name, rfl, PassM.below_mono hgrows hid, ?_⟩
  rw [hgrows.table.exprTypes id hid]
  exact hty

theorem IsUseOf.settled {ty : TypeId} {e : Expr} {q : Pass} (h : IsUseOf ty e q) :
    e.Settled traits q := by
  rcases h with ⟨id, name, rfl, hid, _⟩
  exact .ident hid

theorem yields_hold (scope : ScopeId) (ty : TypeId)
    (spelled : TypeExpr) {value : Expr} (hvalue : value.Settled traits p) :
    Obtains env p (hold scope ty spelled value) (fun held q =>
      Stmts.Settled traits q [held.1] ∧ IsUseOf ty held.2 q) := by
  apply (PassM.yields_newTemp scope ty).bind
  intro temp q hq htemp
  apply (PassM.yields_newVarOf temp _ _ trivial).bind
  rintro declared r hr ⟨specId, name, hspec, hname, hdeclared⟩
  apply (PassM.yields_newUse temp trivial).bind
  rintro use u hu ⟨id, useName, rfl, hid, hty⟩
  apply Ends.pure
  constructor
  · apply Stmts.Settled.mono hu
    apply Stmts.Settled.var hdeclared hspec hname
    · intro _
      rfl
    · intro _
      exact List.cons_ne_nil _ _
    · exact Exprs.all_of_mem (List.forall_mem_singleton.mpr (hvalue.mono (hq.trans hr)))
  · exact ⟨id, useName, rfl, hid, hty ty (PassM.bindingTy_of_grows hr htemp)⟩

theorem yields_holdOperand (scope : ScopeId) {x : Expr}
    (hx : x.Settled traits p) :
    Obtains env p (holdOperand scope x) (fun held q =>
      Stmts.Settled traits q [held.1] ∧ ∃ ty, p.table.exprTypes[x.id]? = some ty ∧
        IsUseOf (p.table.defaultType ty).1 held.2 q) := by
  refine .look (PassM.exec_typeOf x env p) ?_
  apply Ends.require_bind trivial
  intro ty hty
  refine .step (PassM.exec_onTable _ env p) (PassM.grows_defaultType ty) ?_
  apply (PassM.yields_spell _ _ (fun _ _ => trivial)).bind
  rintro spelled r hr rfl
  apply (yields_hold scope _ spelled (hx.mono (PassM.grows_defaultType ty))).mono
  rintro held u _ ⟨hdeclared, huse⟩
  exact ⟨hdeclared, ty, hty, huse⟩

theorem yields_pinAddress (scope : ScopeId) {place : Expr}
    (hplace : place.Settled traits p) :
    Obtains env p (pinAddress scope place) (fun pinned q =>
      Stmts.Settled traits q pinned.1 ∧ pinned.2.Settled traits q) := by
  refine .look (PassM.exec_typeOf place env p) ?_
  apply Ends.require_bind trivial
  intro ty _
  refine .step (PassM.exec_onTable _ env p) (PassM.grows_intern _) ?_
  have hgrows := PassM.grows_intern (p := p) (.pointer ty)
  apply (PassM.yields_newExpr _ _ trivial).bind
  rintro address r hr ⟨id, rfl, hid, _⟩
  apply (PassM.yields_spell _ _ (fun _ _ => trivial)).bind
  rintro spelled u _ rfl
  have haddress : (Expr.unary id .addr place).Settled traits u :=
    .unary hid (hplace.mono (hgrows.trans hr))
  apply (yields_hold scope _ spelled haddress).bind
  rintro held v hv ⟨hdeclared, huse⟩
  apply (PassM.yields_newExpr _ _ trivial).bind
  rintro target w hw ⟨starId, rfl, hstar, _⟩
  apply Ends.pure
  constructor
  · exact hdeclared.mono hw
  · exact .star hstar (huse.settled.mono hw)

theorem isPointerToArray_of_map {table : SymbolTable} {ty key value : TypeId}
    (h : table.structureOf ty = .map key value) : table.isPointerToArray ty = false := by
  simp [SymbolTable.isPointerToArray, SymbolTable.pointerElem, h]

theorem defaultType_of_map {table : SymbolTable} {ty key value : TypeId}
    (h : table.structureOf ty = .map key value) : (table.defaultType ty).1 = ty := by
  unfold SymbolTable.defaultType
  cases hty : table.ty ty with
  | basic kind =>
    have hbasic : table.structureOf ty = .basic kind := by
      simp [SymbolTable.structureOf, SymbolTable.underlying, SymbolTable.nestingLimit,
        SymbolTable.followNamed, hty]
    rw [h] at hbasic
    cases hbasic
  | _ => rfl

theorem settled_index_of_map {q : Pass} {id : NodeId} {x i : Expr} {ty key value : TypeId}
    (hid : id.Below q.ids.count) (hx : IsUseOf ty x q) (hi : i.Settled traits q)
    (hty : q.table.structureOf ty = .map key value) : (Expr.index id x i).Settled traits q := by
  have hxs : x.Settled traits q := hx.settled
  rcases hx with ⟨useId, name, rfl, huse, htype⟩
  refine Node.All.cons_iff.mpr ⟨?_, Node.All.append_iff.mpr ⟨hxs, hi⟩⟩
  apply Node.Has.of_forall
  intro r hr trait _
  cases trait with
  | bounded =>
    intro other hother
    rcases List.mem_pair.mp hother with rfl | rfl
    · exact PassM.below_mono hr hid
    · exact PassM.below_mono hr huse
  | valueOperands => exact rfl
  | explicitDeref =>
    right
    refine ⟨ty, ?_, ?_⟩
    · exact (hr.table.exprTypes useId huse).trans htype
    · exact isPointerToArray_of_map
        (SymbolTable.structureOf_of_extends hr.table hty (by simp))
  | _ => trivial

theorem yields_pin (scope : ScopeId) {e : Expr}
    (he : e.Settled traits p) :
    Obtains env p (pin scope e) (fun pinned q =>
      Stmts.Settled traits q pinned.1 ∧ pinned.2.Settled traits q) := by
  cases e with
  | ident id name => exact .pure ⟨.nil, he⟩
  | paren id x =>
    have hx : x.Settled traits p := (Node.All.cons_iff.mp he).2
    rw [pin]
    exact yields_pin scope hx
  | index id x i =>
    rcases Node.All.append_iff.mp (Node.All.cons_iff.mp he).2 with ⟨hx, hi⟩
    rw [pin]
    refine .look (PassM.exec_getTable env p) ?_
    cases hkey : mapKey p.table x with
    | none => exact yields_pinAddress scope he
    | some keyType =>
      refine .look (PassM.exec_getTable env p) ?_
      apply (yields_holdOperand scope hx).bind
      rintro ⟨mapDecl, map⟩ q hq ⟨hmapDecl, ty, hty, hmap⟩
      apply (PassM.yields_spell _ _ (fun _ _ => trivial)).bind
      rintro spelled q' _ rfl
      apply (yields_hold scope keyType spelled (Expr.Settled.mono hq hi)).bind
      rintro ⟨keyDecl, key⟩ r hr ⟨hkeyDecl, hkeyUse⟩
      apply (PassM.yields_newExpr _ _ trivial).bind
      rintro target u hu ⟨newId, rfl, hnew, _⟩
      apply Ends.pure
      have hstructure : ∃ key value, p.table.structureOf ty = .map key value := by
        unfold mapKey at hkey
        rw [hty] at hkey
        simp only [Option.map_some] at hkey
        split at hkey
        · rename_i key' value heq
          exact ⟨key', value, Option.some.inj heq⟩
        · cases hkey
      rcases hstructure with ⟨key', value, hstructure⟩
      rw [defaultType_of_map hstructure] at hmap
      have hgrows := hq.trans (hr.trans hu)
      constructor
      · exact .cons (hmapDecl.mono (hr.trans hu)) (hkeyDecl.mono hu)
      · exact settled_index_of_map hnew (hmap.mono (hr.trans hu)) (hkeyUse.settled.mono hu)
          (SymbolTable.structureOf_of_extends hgrows.table hstructure (by simp))
  | star id x =>
    rw [pin]
    refine .look (PassM.exec_getTable env p) ?_
    apply (yields_holdOperand scope (Node.All.cons_iff.mp he).2).bind
    rintro ⟨declared, pointer⟩ q _ ⟨hdeclared, ty, _, huse⟩
    apply (PassM.yields_newExpr _ _ trivial).bind
    rintro target r hr ⟨newId, rfl, hnew, _⟩
    apply Ends.pure
    constructor
    · exact hdeclared.mono hr
    · exact .star hnew (huse.settled.mono hr)
  | _ => exact yields_pinAddress scope he

theorem yields_newAssign {target source : Expr}
    (htarget : target.Settled traits p) (hsource : source.Settled traits p) :
    Obtains env p (PassM.newAssign [target] [source])
      (fun s q => Stmts.Settled traits q [s]) := by
  apply (PassM.yields_newStmt _ trivial).mono
  rintro s q hq ⟨id, rfl, hid⟩
  apply Stmts.Settled.assign hid
  · exact .inr rfl
  · rintro _ ⟨hmany, _⟩
    exact Nat.lt_irrefl 1 hmany
  · exact Node.All.append_iff.mpr ⟨htarget.mono hq, .nil⟩
  · exact Node.All.append_iff.mpr ⟨hsource.mono hq, .nil⟩

theorem yields_evaluate (scope : ScopeId) (node : NodeId)
    {target source : Expr} (htarget : target.Settled traits p) (hsource : source.Settled traits p) :
    Obtains env p (evaluate scope node target source) (fun steps q =>
      Stmts.Settled traits q steps.1 ∧ Stmts.Settled traits q steps.2) := by
  unfold evaluate
  by_cases hblank : target.isBlank = true
  · rw [if_pos hblank]
    apply (yields_newAssign htarget hsource).bind
    intro s q _ hs
    exact .pure ⟨hs, .nil⟩
  rw [if_neg hblank]
  by_cases hliteral : source.isLiteral = true
  · rw [if_pos hliteral]
    apply (yields_newAssign htarget hsource).bind
    intro s q _ hs
    exact .pure ⟨.nil, hs⟩
  rw [if_neg hliteral]
  refine .look (PassM.exec_typeOf target env p) ?_
  apply Ends.require_bind trivial
  intro ty _
  apply (PassM.yields_spell _ _ (fun _ _ => trivial)).bind
  rintro spelled r _ rfl
  apply (yields_hold scope ty spelled hsource).bind
  rintro ⟨declared, value⟩ q hq ⟨hdeclared, hvalue⟩
  apply (yields_newAssign (htarget.mono hq) hvalue.settled).bind
  intro s u hu hs
  exact .pure ⟨hdeclared.mono hu, hs⟩

theorem yields_sequence (owner node : NodeId)
    {lhs rhs : List Expr} (hlhs : ∀ e ∈ lhs, e.Settled traits p)
    (hrhs : ∀ e ∈ rhs, e.Settled traits p) :
    Obtains env p (sequence owner node lhs rhs)
      (fun s q => Stmts.Settled traits q [s]) := by
  apply (PassM.yields_scopeAt owner (fun _ _ => trivial)).bind
  rintro parent q _ ⟨rfl, _⟩
  refine .step (PassM.exec_onTable _ env q) (PassM.grows_newScope parent) ?_
  have hscope := PassM.grows_newScope (p := q) parent
  refine (Ends.mapM_each (fun (pinned : List Stmt × Expr) r => Stmts.Settled traits r pinned.1 ∧
    pinned.2.Settled traits r) lhs ?_ ?_).bind ?_
  · intro pin r u hgrows hpin
    exact ⟨hpin.1.mono hgrows, hpin.2.mono hgrows⟩
  · intro e he r hr
    exact yields_pin _ ((hlhs e he).mono (hscope.trans hr))
  intro pinned r hr hpins
  refine (Ends.mapM_each (fun (step : List Stmt × List Stmt) u => Stmts.Settled traits u step.1 ∧
    Stmts.Settled traits u step.2) ((pinned.map Prod.snd).zip rhs) ?_ ?_).bind ?_
  · intro step u v hgrows hstep
    exact ⟨hstep.1.mono hgrows, hstep.2.mono hgrows⟩
  · rintro ⟨target, source⟩ hpair u hu
    rcases List.of_mem_zip hpair with ⟨htarget, hsource⟩
    rcases List.mem_map.mp htarget with ⟨pin, hpin, rfl⟩
    exact yields_evaluate _ node ((hpins pin hpin).2.mono hu)
      ((hrhs source hsource).mono (hscope.trans (hr.trans hu)))
  intro steps u hu hall
  apply (PassM.yields_freshId trivial).bind
  intro blockId v hv hblock
  have hattach := PassM.grows_attachScope (q.table.newScope parent).1 hblock
  refine .step (PassM.exec_modifyTable _ env v) hattach ?_
  apply (PassM.yields_newStmt _ trivial).mono
  rintro s w hw ⟨id, rfl, hid⟩
  have hgrows := hv.trans (hattach.trans hw)
  apply Stmts.Settled.block hid (PassM.below_mono (hattach.trans hw) hblock)
  refine Stmts.Settled.append_iff.mpr ⟨Stmts.Settled.append_iff.mpr ⟨?_, ?_⟩, ?_⟩
  · exact .of_flatMap fun pin hpin => (hpins pin hpin).1.mono (hu.trans hgrows)
  · exact .of_flatMap fun step hstep => (hall step hstep).1.mono hgrows
  · exact .of_flatMap fun step hstep => (hall step hstep).2.mono hgrows

theorem yields_splitAssign (owner node : NodeId)
    {labels : List Label} {lhs rhs : List Expr} (hlabels : ∀ l ∈ labels, l.id.Below p.ids.count)
    (hlhs : ∀ e ∈ lhs, e.Settled traits p) (hrhs : ∀ e ∈ rhs, e.Settled traits p) :
    Obtains env p (splitAssign owner node labels lhs rhs)
      (fun stmts q => Stmts.Settled traits q stmts) := by
  refine .look (PassM.exec_getTable env p) ?_
  by_cases hhazard : hazardous p.table (lhs.zip rhs) = true
  · rw [if_pos hhazard]
    apply (yields_sequence owner node hlhs hrhs).bind
    intro s q hq hs
    apply Ends.pure
    apply Stmts.Settled.label _ _ hs
    intro l hl
    exact PassM.below_mono hq (hlabels l hl)
  · rw [if_neg hhazard]
    refine (Obtains.stmts traits (lhs.zip rhs) ?_).bind ?_
    · rintro ⟨target, source⟩ hpair q hq
      rcases List.of_mem_zip hpair with ⟨htarget, hsource⟩
      exact yields_newAssign ((hlhs target htarget).mono hq) ((hrhs source hsource).mono hq)
    intro stmts q hq hstmts
    apply Ends.pure
    apply Stmts.Settled.labelFirst _ _ hstmts
    intro l hl
    exact PassM.below_mono hq (hlabels l hl)

theorem yields_splitStmt (hbounded : traits .bounded)
    (owner : NodeId) {s : Stmt} (hown : AllHave traits p s.own)
    (hdeep : AllHave (With traits .singleTarget) p s.deep) :
    Obtains env p (splitStmt owner s)
      (fun found q => Stmts.Settled (With traits .singleTarget) q (found.getD [s])) := by
  have hlabels := Stmt.labels_below hbounded hown
  -- A statement that is not split is no assignment of this kind.
  have hkeep : ∀ q, p.Grows q →
      (∀ r : Pass, q.Grows r → r.diagnostics = [] →
        Trait.singleTarget.OnStmt r false s.unlabeled) →
      Stmts.Settled (With traits .singleTarget) q [s] := by
    intro q hq hstmt
    apply Stmts.Settled.keep (by decide) (Node.Has.all_mono hq hown) (Node.Has.all_mono hq hdeep)
    · exact hstmt
    · intros
      trivial
  unfold splitStmt
  cases hs : s.unlabeled with
  | assign node lhs op rhs =>
    have hparts := hdeep
    rw [← s.deep_unlabeled, hs] at hparts
    rcases Node.All.append_iff.mp hparts with ⟨hlhs, hrhs⟩
    cases op with
    | assign =>
      by_cases hmany : (lhs.length > 1 && lhs.length == rhs.length) = true
      · simp only [hmany, if_true]
        apply Ends.orElseKeep .report (.map (yields_splitAssign owner node hlabels
          (fun e he => Exprs.all_mem hlhs he) (fun e he => Exprs.all_mem hrhs he)))
        intro q hq hreported
        apply Ends.pure
        apply hkeep q hq
        intro r hr hnone
        exact absurd (hr.no_diagnostics hnone) hreported
      · simp only [hmany]
        apply Ends.pure
        apply hkeep p (.refl p)
        intro r _ _
        rw [hs]
        rintro _ ⟨hlength, heq⟩
        apply hmany
        rw [Bool.and_eq_true, decide_eq_true_eq, beq_iff_eq]
        exact ⟨hlength, heq⟩
    | _ =>
      apply Ends.pure
      apply hkeep p (.refl p)
      intro r _ _
      rw [hs]
      trivial
  | _ =>
    apply Ends.pure
    apply hkeep p (.refl p)
    intro r _ _
    rw [hs]
    trivial

theorem contract (hbounded : traits .bounded)
    (hsimple : traits .simpleHeaders) (hbranchElse : traits .branchElse) :
    transformer.ListContract Fault.any env start traits .singleTarget := by
  apply Transformer.ListContract.of_splice rfl rfl rfl rfl (fun _ => rfl) (by decide) hsimple
    hbranchElse (Transformer.branchHook_of_pure rfl (by decide) (by decide))
  intro p owner s _
  exact yields_splitStmt hbounded owner

end Parallel
end
end Desugar
