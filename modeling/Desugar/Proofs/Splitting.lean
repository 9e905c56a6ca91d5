import Desugar.Proofs.Declarations

/-!
# One name per declaration

Splitting declarations leaves no variable declaration with several specs or
names, unless it has been reported.  The declarations of the package are split
before the walk, those inside functions by the walk.
-/

namespace Desugar

open PassM (Obtains IsVarOf Ends)
open Node (All AllHave)
open Trait (With)

namespace Split

variable {env : PassEnv} {p : Pass} {traits : Trait → Prop}

/-!
## Pieces
-/

theorem has_piece (hstage : ∀ trait, traits trait → trait.stage < 5) {d : Decl} {top top' : Bool}
    {spec : Spec} {id : NodeId} (hd : (Node.decl d top).Has traits p) (hvar : d.isVar = true)
    (hspec : spec ∈ d.specs) (hid : id.Below p.ids.count)
    (hnames : ∀ value, spec = .value value → value.names.length ≤ 1 ∨ p.diagnostics ≠ []) :
    (Node.decl ⟨id, .var, [spec]⟩ top').Has (With traits .singleName) p := by
  intro q hq trait htrait hdiagnostics
  rcases htrait with htrait | heq
  · have hon : trait.OnDecl q d := hd q hq trait htrait hdiagnostics
    show trait.OnDecl q ⟨id, .var, [spec]⟩
    cases trait with
    | bounded =>
      intro other hmem
      rcases List.mem_cons.mp hmem with rfl | hmem
      · exact PassM.below_mono hq hid
      · apply hon
        rw [List.flatMap_singleton] at hmem
        exact .tail _ (List.mem_flatMap.mpr ⟨spec, hspec, hmem⟩)
    | namedSpecs =>
      intro _ value hvalue
      have hvalue' := (Decl.mem_valueSpecs_iff _ value).mp hvalue
      rw [← List.mem_singleton.mp hvalue'] at hspec
      exact hon hvar value ((d.mem_valueSpecs_iff value).mpr hspec)
    | singleName | typedDecl | initializedDecl => exact absurd (hstage _ htrait) (by decide)
    | _ => trivial
  · subst heq
    have hnone := hq.no_diagnostics (hdiagnostics (by decide))
    show needsSplit ⟨id, .var, [spec]⟩ = false
    cases spec with
    | type spec => rfl
    | value value =>
      have hlength : value.names.length ≤ 1 := by
        rcases hnames value rfl with hlength | hreported
        · exact hlength
        · exact absurd hnone hreported
      simp [needsSplit, Decl.isVar, Decl.valueSpecs, hlength]

/-!
## Inside a function
-/

section

variable (htyped : ¬ traits .typedDecl) (hinitialized : ¬ traits .initializedDecl)

include htyped hinitialized

theorem yields_newVar {name : Ident} {ty : Option TypeExpr} {values : List Expr}
    (hname : name.id.Below p.ids.count)
    (hvalues : ∀ e ∈ values, e.Settled traits p) :
    Obtains env p (PassM.newVar name ty values)
      (fun s q => Stmts.Settled traits q [s]) := by
  exact PassM.obtains_newVar hname (fun h => absurd h htyped) (fun h => absurd h hinitialized)
    hvalues

theorem yields_newVarOf {binding : BindingId} {ty : Option TypeExpr} {values : List Expr}
    (hvalues : ∀ e ∈ values, e.Settled traits p) :
    Obtains env p (PassM.newVarOf binding ty values)
      (fun s q => Stmts.Settled traits q [s]) := by
  apply (PassM.yields_newBinder binding trivial).bind
  intro name q hq hname
  exact yields_newVar htyped hinitialized hname fun e he => (hvalues e he).mono hq

omit htyped hinitialized in
theorem yields_temporaryType (name : Ident) (value : Expr) :
    Obtains env p (temporaryType name value) (fun _ _ => True) := by
  refine .look (PassM.exec_declaredType name env p) ?_
  split
  · exact .pure trivial
  · refine .look (PassM.exec_typeOf value env p) ?_
    apply Ends.require_bind trivial
    intro ty _
    exact .of_exec (PassM.exec_onTable _ env p) (PassM.grows_defaultType ty) trivial

omit htyped hinitialized in
theorem yields_target (binding : Option BindingId) :
    Obtains env p (target binding) (fun e q => e.Settled traits q) := by
  cases binding with
  | some binding => exact PassM.obtains_newUse binding
  | none =>
    apply (PassM.yields_newBlank trivial).mono
    intro e q _ he
    rcases he with ⟨id, rfl, hid⟩
    exact .ident hid

theorem yields_splitList (owner : NodeId) {spec : ValueSpec}
    (hnames : ∀ name ∈ spec.names, name.id.Below p.ids.count)
    (hvalues : ∀ e ∈ spec.values, e.Settled traits p) :
    Obtains env p (splitList owner spec)
      (fun stmts q => Stmts.Settled traits q stmts) := by
  refine .look (PassM.exec_scope? env p) ?_
  refine .search trivial fun shadowed _ => ?_
  split
  · refine (Obtains.pairs traits _ ?_).bind ?_
    · intro pair hpair q hq
      apply (yields_temporaryType _ _).bind
      intro ty q₁ hq₁ _
      apply (PassM.yields_scopeAt owner (fun _ _ => trivial)).bind
      intro scope q₂ hq₂ _
      apply (PassM.yields_newTemp scope ty).bind
      intro temp q₃ hq₃ _
      have hvalue := (hvalues pair.2 (List.of_mem_zip hpair).2).mono
        (hq.trans (hq₁.trans (hq₂.trans hq₃)))
      apply (yields_newVarOf htyped hinitialized (List.forall_mem_singleton.mpr hvalue)).bind
      intro s r _ hs
      exact .pure hs
    intro held q hq hheld
    refine (Obtains.stmts traits _ ?_).bind ?_
    · intro triple htriple r hr
      apply (PassM.obtains_newUse _).bind
      intro value u hu hvalue
      exact yields_newVar htyped hinitialized (PassM.below_mono (hq.trans (hr.trans hu))
        (hnames _ (List.of_mem_zip htriple).1)) (List.forall_mem_singleton.mpr hvalue)
    intro declared r hr hdeclared
    exact .pure (Stmts.Settled.append_iff.mpr ⟨hheld.mono hr, hdeclared⟩)
  · apply Obtains.stmts
    intro pair hpair q hq
    exact yields_newVar htyped hinitialized
      (PassM.below_mono hq (hnames _ (List.of_mem_zip hpair).1))
      (List.forall_mem_singleton.mpr ((hvalues _ (List.of_mem_zip hpair).2).mono hq))

omit htyped hinitialized in
theorem yields_bindingsOf (names : List Ident) :
    Obtains env p (bindingsOf names) (fun _ _ => True) := by
  apply Ends.mapM_any
  intro name _ q _
  split
  · exact .pure trivial
  · refine .look (PassM.exec_getTable env q) ?_
    apply Ends.require_bind trivial
    intros
    exact .pure trivial

theorem yields_holdMembers (owner : NodeId) (spec : ValueSpec) (members : List TypeId)
    (bindings : List (Option BindingId)) :
    Obtains env p (holdMembers owner spec members bindings) (fun held q =>
      ∀ found ∈ held, ∀ pair, found = some pair →
        Stmts.Settled traits q [pair.2]) := by
  apply Ends.mapM_each
  · intro found q r hgrows hfound pair hpair
    exact (hfound pair hpair).mono hgrows
  · intro entry _ q _
    rcases entry with ⟨binding, position⟩
    cases binding with
    | none =>
      apply Ends.pure
      intro pair hpair
      cases hpair
    | some binding =>
      apply Ends.require_bind trivial
      intro member _
      apply (PassM.yields_spell _ _ (fun _ _ => trivial)).bind
      intro spelled q₂ _ _
      apply (PassM.yields_scopeAt owner (fun _ _ => trivial)).bind
      intro scope q₃ _ _
      apply (PassM.yields_newTemp scope member).bind
      intro temp q₄ _ _
      apply (yields_newVarOf htyped hinitialized (List.forall_mem_nil _)).bind
      intro s r _ hs
      apply Ends.pure
      intro pair hpair
      cases hpair
      exact hs

omit htyped hinitialized in
theorem yields_newAssign (hsingle : ¬ traits .singleTarget) {lhs : List Expr} {value : Expr}
    (hlhs : ∀ e ∈ lhs, e.Settled traits p)
    (hvalue : value.Settled traits p) :
    Obtains env p (PassM.newAssign lhs [value])
      (fun s q => Stmts.Settled traits q [s]) := by
  apply (PassM.yields_newStmt _ trivial).mono
  intro s q hq hs
  rcases hs with ⟨id, rfl, hid⟩
  apply Stmts.Settled.assign hid
  · exact .inr rfl
  · exact fun h => absurd h hsingle
  · exact Exprs.all_of_mem fun e he => (hlhs e he).mono hq
  · exact Node.All.append_iff.mpr ⟨hvalue.mono hq, .nil⟩

theorem yields_declareHeld {spec : ValueSpec}
    (hnames : ∀ name ∈ spec.names, name.id.Below p.ids.count)
    (held : List (Option (BindingId × Stmt))) :
    Obtains env p ((spec.names.zip held).filterMapM fun
      | (_, none) => return none
      | (name, some (temp, _)) => do
          let value ← PassM.newUse temp
          some <$> PassM.newVar name spec.ty [value])
      (fun stmts q => ∀ s ∈ stmts, Stmts.Settled traits q [s]) := by
  apply Ends.filterMapM _ (fun _ _ _ hgrows hs => hs.mono hgrows)
  · intro entry hentry q hq
    rcases entry with ⟨name, found⟩
    cases found with
    | none =>
      apply Ends.pure
      intro s hs
      cases hs
    | some pair =>
      apply (PassM.obtains_newUse _).bind
      intro use r hr huse
      apply Ends.map
      have hname : name.id.Below r.ids.count :=
        PassM.below_mono (hq.trans hr) (hnames name (List.of_mem_zip hentry).1)
      apply (yields_newVar htyped hinitialized hname (List.forall_mem_singleton.mpr huse)).mono
      intro s u _ hs b hb
      cases hb
      exact hs

theorem yields_splitTuple (hsingle : ¬ traits .singleTarget) (owner : NodeId) {spec : ValueSpec}
    {value : Expr} (hnames : ∀ name ∈ spec.names, name.id.Below p.ids.count)
    (hvalue : value.Settled traits p) :
    Obtains env p (splitTuple owner spec value)
      (fun stmts q => Stmts.Settled traits q stmts) := by
  refine .look (PassM.exec_scope? env p) ?_
  refine .search trivial fun shadowed _ => ?_
  apply (yields_bindingsOf spec.names).bind
  intro bindings q hq _
  split
  · refine .look (PassM.exec_typeOf value env q) ?_
    apply Ends.require_bind trivial
    intro tuple _
    refine .look (PassM.exec_getTable env q) ?_
    apply (yields_holdMembers htyped hinitialized owner spec _ bindings).bind
    intro held r hr hheld
    refine (Obtains.exprs traits _ fun _ _ _ _ => yields_target _).bind ?_
    intro lhs u hu hlhs
    have hgrows := hq.trans (hr.trans hu)
    apply (yields_newAssign hsingle hlhs (hvalue.mono hgrows)).bind
    intro assigned v hv hassigned
    apply (yields_declareHeld htyped hinitialized (fun name hname =>
      PassM.below_mono (hgrows.trans hv) (hnames name hname)) held).bind
    intro declared w hw hall
    apply Ends.pure
    apply Stmts.Settled.append_iff.mpr
    constructor
    · apply Stmts.Settled.of_mem
      intro s hs
      rcases List.mem_filterMap.mp hs with ⟨found, hfound, heq⟩
      rcases Option.map_eq_some_iff.mp heq with ⟨pair, hpair, rfl⟩
      exact (hheld found hfound pair hpair).mono (hu.trans (hv.trans hw))
    · exact .cons (hassigned.mono hw) (.of_mem hall)
  · refine (Obtains.stmts traits _ ?_).bind ?_
    · intro name hname r hr
      exact yields_newVar htyped hinitialized (PassM.below_mono (hq.trans hr)
        (hnames name (List.mem_filter.mp hname).1)) (List.forall_mem_nil _)
    intro declared r hr hdeclared
    refine (Obtains.exprs traits _ fun _ _ _ _ => yields_target _).bind ?_
    intro lhs u hu hlhs
    apply (yields_newAssign hsingle hlhs (hvalue.mono (hq.trans (hr.trans hu)))).bind
    intro assigned v hv hassigned
    exact .pure (Stmts.Settled.append_iff.mpr ⟨hdeclared.mono (hu.trans hv), hassigned⟩)

theorem yields_splitValues (hsingle : ¬ traits .singleTarget) (owner : NodeId) {spec : ValueSpec}
    (hnames : ∀ name ∈ spec.names, name.id.Below p.ids.count)
    (hvalues : ∀ e ∈ spec.values, e.Settled traits p) :
    Obtains env p (splitValues owner spec)
      (fun stmts q => Stmts.Settled traits q stmts) := by
  unfold splitValues
  split
  · exact yields_splitList htyped hinitialized owner hnames hvalues
  · split
    · apply Obtains.stmts
      intro name hname q hq
      exact yields_newVar htyped hinitialized (PassM.below_mono hq (hnames name hname))
        (List.forall_mem_nil _)
    · rename_i value hvalue
      exact yields_splitTuple htyped hinitialized hsingle owner hnames
        (hvalues value (by rw [hvalue]; exact .head _))
    · exact .raise trivial

end

theorem yields_whole (hstage : ∀ trait, traits trait → trait.stage < 5) {d : Decl} {top : Bool}
    {spec : Spec} (hd : (Node.decl d top).Has traits p) (hvar : d.isVar = true)
    (hspec : spec ∈ d.specs)
    (hnames : ∀ value, spec = .value value → value.names.length ≤ 1 ∨ p.diagnostics ≠ [])
    (hnodes : AllHave (With traits .singleName) p (Specs.nodes [spec])) :
    Obtains env p (do return [← PassM.newDecl spec])
      (fun stmts q => Stmts.Settled (With traits .singleName) q stmts) := by
  apply (PassM.yields_newDecl spec trivial).bind
  intro s q hq hs
  apply Ends.pure
  rcases hs with ⟨stmtId, declId, rfl, hstmt, hdecl⟩
  apply Stmts.Settled.singleton_iff.mpr
  constructor
  · exact .of_decl hstmt
  · refine Node.All.cons_iff.mpr ⟨?_, Node.Has.all_mono hq hnodes⟩
    apply has_piece hstage (hd.mono hq) hvar hspec hdecl
    intro value hvalue
    rcases hnames value hvalue with hlength | hreported
    · exact .inl hlength
    · exact .inr fun hnone => hreported (hq.no_diagnostics hnone)

theorem names_below (hbounded : traits .bounded) {d : Decl} {top : Bool} {spec : ValueSpec}
    (hd : (Node.decl d top).Has traits p) (hspec : .value spec ∈ d.specs) :
    spec.id.Below p.ids.count ∧ ∀ name ∈ spec.names, name.id.Below p.ids.count := by
  have hshown := hd.holds hbounded fun hpos => absurd hpos (Nat.lt_irrefl 0)
  have hmem : ∀ id ∈ (Spec.value spec).shownIds, id.Below p.ids.count := by
    intro id hid
    exact hshown id (.tail _ (List.mem_flatMap.mpr ⟨_, hspec, hid⟩))
  constructor
  · exact hmem _ (.head _)
  · intro name hname
    exact hmem _ (.tail _ (List.mem_map.mpr ⟨name, hname, rfl⟩))

theorem yields_splitSpec
    (hstage : ∀ trait, traits trait → trait.stage < 5) (hbounded : traits .bounded)
    (owner : NodeId) {d : Decl} {top : Bool} {spec : Spec}
    (hd : (Node.decl d top).Has traits p) (hvar : d.isVar = true) (hspec : spec ∈ d.specs)
    (hnodes : AllHave (With traits .singleName) p (Specs.nodes [spec])) :
    Obtains env p (splitSpec owner spec)
      (fun stmts q => Stmts.Settled (With traits .singleName) q stmts) := by
  cases spec with
  | type spec =>
    apply yields_whole hstage hd hvar hspec _ hnodes
    intro value hvalue
    cases hvalue
  | value spec =>
    unfold splitSpec
    by_cases hmany : spec.names.length > 1
    · simp only [if_pos hmany]
      have hsettled : ∀ e ∈ spec.values, e.Settled (With traits .singleName) p := by
        intro e he n hn
        apply hnodes
        apply (Specs.mem_nodes_iff _ n).mpr
        exact ⟨spec, .head _, (Exprs.mem_nodes_iff _ n).mpr ⟨e, he, hn⟩⟩
      have hnames := (names_below hbounded hd hspec).2
      have hlate : ∀ {trait : Trait}, 5 ≤ trait.stage → trait ≠ .singleName →
          ¬ With traits .singleName trait := Trait.not_with hstage
      apply Ends.orElseKeep .report (yields_splitValues (hlate (by decide) (by decide))
        (hlate (by decide) (by decide)) (hlate (by decide) (by decide)) owner hnames hsettled)
      intro q hq hreported
      exact yields_whole hstage (hd.mono hq) hvar hspec (fun _ _ => .inr hreported)
        (Node.Has.all_mono hq hnodes)
    · simp only [if_neg hmany]
      apply yields_whole hstage hd hvar hspec _ hnodes
      intro value hvalue
      cases hvalue
      exact .inl (Nat.le_of_not_lt hmany)

theorem specs_nodes_of_mem {specs : List Spec} {spec : Spec} (hspec : spec ∈ specs)
    (h : AllHave traits p (Specs.nodes specs)) : AllHave traits p (Specs.nodes [spec]) := by
  intro n hn
  apply h
  rcases (Specs.mem_nodes_iff _ n).mp hn with ⟨value, hvalue, hn'⟩
  rw [← List.mem_singleton.mp hvalue] at hspec
  exact (Specs.mem_nodes_iff _ n).mpr ⟨value, hspec, hn'⟩

theorem yields_splitStmt
    (hstage : ∀ trait, traits trait → trait.stage < 5) (hbounded : traits .bounded)
    (owner : NodeId) {s : Stmt} (hown : AllHave traits p s.own)
    (hdeep : AllHave (With traits .singleName) p s.deep) :
    Obtains env p (splitStmt owner s)
      (fun found q => Stmts.Settled (With traits .singleName) q (found.getD [s])) := by
  have hlabels := Stmt.labels_below hbounded hown
  unfold splitStmt
  cases hs : s.unlabeled with
  | decl id d =>
    by_cases hsplit : needsSplit d = true
    · simp only [if_pos hsplit]
      have hparts := hdeep
      rw [← s.deep_unlabeled, hs] at hparts
      have hd : (Node.decl d false).Has traits p := by
        apply hown _ (s.own_unlabeled_subset _)
        rw [hs]
        exact .tail _ (.head _)
      have hvar : d.isVar = true := (Bool.and_eq_true_iff.mp hsplit).1
      refine (Obtains.lists (With traits .singleName) _ ?_).bind ?_
      · intro spec hspec q hq
        apply yields_splitSpec hstage hbounded owner (hd.mono hq) hvar hspec
        exact Node.Has.all_mono hq (specs_nodes_of_mem hspec hparts)
      intro lists q hq hall
      apply Ends.pure
      apply Stmts.Settled.labelFirst _ _ hall
      intro l hl
      exact PassM.below_mono hq (hlabels l hl)
    · simp only [if_neg hsplit]
      apply Ends.pure
      apply Stmts.Settled.keep (by decide) hown hdeep
      · intros
        trivial
      · intro q id' d' _ hs'
        rw [hs] at hs'
        cases hs'
        exact Bool.eq_false_iff.mpr hsplit
  | _ =>
    apply Ends.pure
    apply Stmts.Settled.keep (by decide) hown hdeep
    · intros
      trivial
    · intro q id' d' _ hs'
      rw [hs] at hs'
      cases hs'

theorem contract {start : Pass}
    (hstage : ∀ trait, traits trait → trait.stage < 5) (hbounded : traits .bounded)
    (hsimple : traits .simpleHeaders) (hbranchElse : traits .branchElse) :
    transformer.ListContract Fault.any env start traits .singleName := by
  apply Transformer.ListContract.of_splice rfl rfl rfl rfl (fun _ => rfl) (by decide) hsimple
    hbranchElse (Transformer.branchHook_of_pure rfl (by decide) (by decide))
  intro p owner s _
  exact yields_splitStmt hstage hbounded owner

/-!
## Package level
-/

/-- A spec that can be declared alone: the declaration has one name, or it has
been reported. -/
def Piece (traits : Trait → Prop) (q : Pass) (spec : Spec) : Prop :=
  (∀ r, q.Grows r → ∀ id : NodeId, id.Below r.ids.count →
    (Node.decl ⟨id, .var, [spec]⟩ true).Has (With traits .singleName) r) ∧
  AllHave traits q (Specs.nodes [spec])

theorem Piece.mono {spec : Spec} {q r : Pass} (hgrows : q.Grows r) (h : Piece traits q spec) :
    Piece traits r spec :=
  ⟨fun u hu => h.1 u (hgrows.trans hu), Node.Has.all_mono hgrows h.2⟩

theorem piece_of_spec (hstage : ∀ trait, traits trait → trait.stage < 5) {d : Decl} {spec : Spec}
    (hd : (Node.decl d true).Has traits p) (hvar : d.isVar = true) (hspec : spec ∈ d.specs)
    (hnames : ∀ value, spec = .value value → value.names.length ≤ 1 ∨ p.diagnostics ≠ [])
    (hnodes : AllHave traits p (Specs.nodes [spec])) : Piece traits p spec := by
  refine ⟨?_, hnodes⟩
  intro q hq id hid
  apply has_piece hstage (hd.mono hq) hvar hspec hid
  intro value hvalue
  rcases hnames value hvalue with hlength | hreported
  · exact .inl hlength
  · exact .inr fun hnone => hreported (hq.no_diagnostics hnone)

theorem mem_pieces {ids : List NodeId} {names : List Ident} {ty : Option TypeExpr}
    {values : List Expr} {piece : Spec} (h : piece ∈ pieces ids names ty values) :
    ∃ id ∈ ids, ∃ name ∈ names, ∃ own, (∀ e ∈ own, e ∈ values) ∧
      piece = .value ⟨id, [name], ty, own⟩ := by
  induction ids generalizing names values with
  | nil =>
    unfold pieces at h
    cases h
  | cons id rest ih =>
    cases names with
    | nil =>
      unfold pieces at h
      cases h
    | cons name names =>
      unfold pieces at h
      rcases List.mem_cons.mp h with rfl | h
      · exact ⟨id, .head _, name, .head _, _, fun e he => List.mem_of_mem_take he, rfl⟩
      · rcases ih h with ⟨id', hid, name', hname, own, hown, rfl⟩
        exact ⟨id', .tail _ hid, name', .tail _ hname, own,
          fun e he => List.mem_of_mem_tail (hown e he), rfl⟩

theorem yields_pieceIds {whole : NodeId} (n : Nat)
    (hwhole : whole.Below p.ids.count) :
    Obtains env p (pieceIds whole n) (fun ids q => ∀ id ∈ ids, id.Below q.ids.count) := by
  cases n with
  | zero =>
    apply Ends.pure
    intro id hid
    cases hid
  | succ n =>
    have hrest : Obtains env p ((List.range n).mapM fun _ => PassM.freshId)
        (fun ids q => ∀ id ∈ ids, id.Below q.ids.count) :=
      .mapM_each _ _ (fun _ _ _ => PassM.below_mono) fun _ _ _ _ => PassM.yields_freshId trivial
    apply hrest.bind
    intro rest q hq hall
    apply Ends.pure
    intro id hid
    rcases List.mem_cons.mp hid with rfl | hid
    · exact PassM.below_mono hq hwhole
    · exact hall id hid

theorem yields_splitPackageSpec
    (hstage : ∀ trait, traits trait → trait.stage < 5) (hbounded : traits .bounded)
    {d : Decl} {spec : ValueSpec} (hd : (Node.decl d true).Has traits p) (hvar : d.isVar = true)
    (hspec : .value spec ∈ d.specs)
    (hnodes : AllHave traits p (Specs.nodes [.value spec])) :
    Obtains env p (splitPackageSpec spec)
      (fun found q => ∀ piece ∈ found, Piece traits q piece) := by
  rcases names_below hbounded hd hspec with ⟨hid, hnames⟩
  unfold splitPackageSpec
  by_cases hfew : spec.names.length ≤ 1
  · simp only [if_pos hfew]
    apply Ends.pure
    intro piece hpiece
    rw [List.mem_singleton.mp hpiece]
    apply piece_of_spec hstage hd hvar hspec _ hnodes
    intro value hvalue
    cases hvalue
    exact .inl hfew
  simp only [if_neg hfew]
  by_cases hone : spec.values.length = 1
  · simp only [if_pos hone]
    have htolerate : Obtains env p
        (PassM.tolerate (.tupleDeclaration spec.id) (some spec.snippet))
        (fun _ q => q.diagnostics ≠ []) := by
      refine .of_exec (PassM.exec_report _ _ env p) ?_ (by simp)
      exact ⟨Nat.le_refl _, .refl _ _, fun _ h => .inl h, List.prefix_append _ _⟩
    apply htolerate.bind
    intro _ q hq hreported
    apply Ends.pure
    intro piece hpiece
    rw [List.mem_singleton.mp hpiece]
    exact piece_of_spec hstage (hd.mono hq) hvar hspec (fun _ _ => .inr hreported)
      (Node.Has.all_mono hq hnodes)
  simp only [if_neg hone]
  split
  · exact .raise trivial
  · apply (yields_pieceIds _ hid).bind
    intro ids q hq hids
    apply Ends.pure
    intro piece hpiece
    rcases mem_pieces hpiece with ⟨pieceId, hpieceId, name, hname, own, hown, rfl⟩
    constructor
    · intro r hr declId hdeclId
      apply Node.Has.of_var hdeclId
      · exact PassM.below_mono hr (hids pieceId hpieceId)
      · exact PassM.below_mono (hq.trans hr) (hnames name hname)
      · exact fun h => absurd h (Trait.not_with hstage (by decide) (by decide))
      · exact fun h => absurd h (Trait.not_with hstage (by decide) (by decide))
    · intro n hn
      apply (hnodes n _).mono hq
      rcases (Specs.mem_nodes_iff _ n).mp hn with ⟨value, hvalue, hn'⟩
      cases List.mem_singleton.mp hvalue
      rcases (Exprs.mem_nodes_iff _ n).mp hn' with ⟨e, he, hne⟩
      apply (Specs.mem_nodes_iff _ n).mpr
      exact ⟨spec, .head _, (Exprs.mem_nodes_iff _ n).mpr ⟨e, hown e he, hne⟩⟩

def TopSplit (traits : Trait → Prop) (q : Pass) (d : TopDecl) : Prop :=
  AllHave traits q d.nodes ∧
    ∀ decl, d = .decl decl → (Node.decl decl true).Has (With traits .singleName) q

theorem TopSplit.mono {d : TopDecl} {q r : Pass} (hgrows : q.Grows r) (h : TopSplit traits q d) :
    TopSplit traits r d :=
  ⟨Node.Has.all_mono hgrows h.1, fun decl hdecl => (h.2 decl hdecl).mono hgrows⟩

theorem topSplit_of_piece {id : NodeId} {spec : Spec} (hid : id.Below p.ids.count)
    (h : Piece traits p spec) : TopSplit traits p (.decl ⟨id, .var, [spec]⟩) := by
  have hdecl := h.1 p (.refl p) id hid
  constructor
  · exact Node.All.cons_iff.mpr ⟨hdecl.of_with, h.2⟩
  · intro decl heq
    cases heq
    exact hdecl

theorem yields_declarePieces {first : Option NodeId}
    {specs : List Spec} (hfirst : ∀ id, first = some id → id.Below p.ids.count)
    (hspecs : ∀ spec ∈ specs, Piece traits p spec) :
    Obtains env p (declarePieces first specs)
      (fun decls q => ∀ d ∈ decls, TopSplit traits q d) := by
  induction specs generalizing p first with
  | nil =>
    apply Ends.pure
    intro d hd
    cases hd
  | cons spec rest ih =>
    have hnext : ∀ (id : NodeId) (q : Pass), p.Grows q → id.Below q.ids.count →
        Obtains env q (do
          let rest ← declarePieces none rest
          return .decl ⟨id, .var, [spec]⟩ :: rest)
          (fun decls r => ∀ d ∈ decls, TopSplit traits r d) := by
      intro id q hq hid
      have hrest : Obtains env q (declarePieces none rest)
          (fun decls r => ∀ d ∈ decls, TopSplit traits r d) := by
        apply ih
        · intro other hother
          cases hother
        · intro spec' hspec'
          exact (hspecs spec' (.tail _ hspec')).mono hq
      apply hrest.bind
      intro decls r hr hall
      apply Ends.pure
      intro d hd
      rcases List.mem_cons.mp hd with rfl | hd
      · exact topSplit_of_piece (PassM.below_mono hr hid)
          ((hspecs spec (.head _)).mono (hq.trans hr))
      · exact hall d hd
    cases first with
    | some id => exact hnext id p (.refl p) (hfirst id rfl)
    | none => exact (PassM.yields_freshId trivial).bind hnext

theorem yields_splitPackageSpecs
    (hstage : ∀ trait, traits trait → trait.stage < 5) (hbounded : traits .bounded) {d : Decl}
    (hvar : d.isVar = true) {first : Option NodeId} {specs : List Spec}
    (hd : (Node.decl d true).Has traits p) (hspecs : specs ⊆ d.specs)
    (hfirst : ∀ id, first = some id → id.Below p.ids.count)
    (hnodes : AllHave traits p (Specs.nodes d.specs)) :
    Obtains env p (splitPackageSpecs first specs)
      (fun decls q => ∀ d ∈ decls, TopSplit traits q d) := by
  induction specs generalizing p first with
  | nil =>
    apply Ends.pure
    intro d' hd'
    cases hd'
  | cons spec rest ih =>
    have hspec : spec ∈ d.specs := hspecs (.head _)
    have hnodes' := specs_nodes_of_mem hspec hnodes
    have hnext : ∀ (found : List Spec) (q : Pass), p.Grows q →
        (∀ piece ∈ found, Piece traits q piece) →
        Obtains env q (do
          let decls ← declarePieces first found
          let rest ← splitPackageSpecs none rest
          return decls ++ rest) (fun decls r => ∀ d ∈ decls, TopSplit traits r d) := by
      intro found q hq hpieces
      have hdecls : Obtains env q (declarePieces first found)
          (fun decls r => ∀ d ∈ decls, TopSplit traits r d) :=
        yields_declarePieces (fun id hid => PassM.below_mono hq (hfirst id hid)) hpieces
      apply hdecls.bind
      intro decls r hr hall
      have hgrows := hq.trans hr
      have hrest : Obtains env r (splitPackageSpecs none rest)
          (fun decls u => ∀ d ∈ decls, TopSplit traits u d) := by
        apply ih (hd.mono hgrows) (fun spec' hspec' => hspecs (.tail _ hspec')) _
          (Node.Has.all_mono hgrows hnodes)
        intro id hid
        cases hid
      apply hrest.bind
      intro rest' u hu hall'
      apply Ends.pure
      intro d' hd'
      rcases List.mem_append.mp hd' with hd' | hd'
      · exact (hall d' hd').mono hu
      · exact hall' d' hd'
    cases spec with
    | value value =>
      exact (yields_splitPackageSpec hstage hbounded hd hvar hspec hnodes').bind hnext
    | type value =>
      refine hnext [.type value] p (.refl p) ?_
      intro piece hpiece
      rw [List.mem_singleton.mp hpiece]
      apply piece_of_spec hstage hd hvar hspec _ hnodes'
      intro other hother
      cases hother

theorem yields_splitPackageDecl
    (hstage : ∀ trait, traits trait → trait.stage < 5) (hbounded : traits .bounded)
    {d : TopDecl} (hd : AllHave traits p d.nodes) :
    Obtains env p (splitPackageDecl d)
      (fun decls q => ∀ d' ∈ decls, TopSplit traits q d') := by
  cases d with
  | func fn =>
    apply Ends.pure
    intro d' hd'
    rw [List.mem_singleton.mp hd']
    refine ⟨hd, ?_⟩
    intro decl heq
    cases heq
  | decl d =>
    have hself : (Node.decl d true).Has traits p := hd _ (by cases d; exact .head _)
    rw [splitPackageDecl]
    by_cases hsplit : needsSplit d = true
    · rw [if_pos hsplit]
      have hvar : d.isVar = true := (Bool.and_eq_true_iff.mp hsplit).1
      have hcount : p.Grows _ := .counted p
      refine .step (PassM.exec_countChange env p) hcount ?_
      have hshown := hself.holds hbounded fun hpos => absurd hpos (Nat.lt_irrefl 0)
      have hnodes : AllHave traits p (Specs.nodes d.specs) := by
        cases d
        exact (Node.All.cons_iff.mp hd).2
      apply yields_splitPackageSpecs hstage hbounded hvar (hself.mono hcount)
        (fun _ h => h) _ (Node.Has.all_mono hcount hnodes)
      intro id hid
      cases hid
      exact hshown d.id (.head _)
    · rw [if_neg hsplit]
      apply Ends.pure
      intro d' hd'
      rw [List.mem_singleton.mp hd']
      refine ⟨hd, ?_⟩
      intro decl heq
      cases heq
      apply hself.with_trait
      intro q _ _
      exact Bool.eq_false_iff.mpr hsplit

theorem yields_run
    (hstage : ∀ trait, traits trait → trait.stage < 5) (hbounded : traits .bounded)
    (hsimple : traits .simpleHeaders) (hbranchElse : traits .branchElse)
    (h : AllHave traits p p.file.nodes) :
    Obtains env p run (fun _ q => q.file.id = p.file.id ∧
      AllHave (With traits .singleName) q q.file.nodes) := by
  have hstart : p.Grows { p with scopes := .empty, changes := 0 } := .of_same_record rfl rfl rfl
  refine .step (PassM.exec_startWalk env p) hstart ?_
  refine .look (PassM.exec_getFile env _) ?_
  refine (Ends.mapM_each _ _ (fun _ _ _ hgrows hall d hd => (hall d hd).mono hgrows)
    fun d hd q hq => yields_splitPackageDecl hstage hbounded fun n hn =>
      (h n (List.mem_flatMap.mpr ⟨d, hd, hn⟩)).mono (hstart.trans hq)).bind ?_
  intro lists q _ hall
  have hflat : ∀ d ∈ lists.flatten, TopSplit traits q d := by
    intro d hd
    rcases List.mem_flatten.mp hd with ⟨decls, hdecls, hd'⟩
    exact hall decls hdecls d hd'
  have hcontract : transformer.ListContract Fault.any env q traits .singleName :=
    contract hstage hbounded hsimple hbranchElse
  have hnodes : ∀ n ∈ File.nodes { p.file with decls := lists.flatten }, n.Has traits q := by
    intro n hn
    rcases List.mem_flatMap.mp hn with ⟨d, hd, hn'⟩
    exact (hflat d hd).1 n hn'
  apply (hcontract.walk_file _ (.refl q) hnodes fun d hd => (hflat _ hd).2 d rfl).bind
  intro file r _ hfile
  have hset : r.Grows { r with file := file } := .of_same_record rfl rfl rfl
  refine .step (PassM.exec_setFile file env r) hset ?_
  refine .look (PassM.exec_get env _) (.pure ?_)
  exact ⟨hfile.1, Node.Has.all_mono hset hfile.2⟩

end Split
end Desugar
