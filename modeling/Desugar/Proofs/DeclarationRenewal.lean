import Desugar.Declaration.Short
import Desugar.Declaration.Zero
import Desugar.Proofs.RenewalWalk

/-!
# Renewal by declarations

The rules that complete, split and replace declarations renew the inventory of a
file.  The names and values of a declaration go into the declarations that
replace it, each of them once.
-/

namespace Desugar

open PassM (Leaves Replaces Ends)

/-!
## Specs
-/

def Spec.inventory (isVar : Bool) (spec : Spec) : Multiset Entry :=
  (spec.entries isVar : Multiset Entry) + Desugar.inventory (Specs.nodes [spec])

theorem Specs.inventory_eq_sum (isVar : Bool) (specs : List Spec) :
    (specs.flatMap (Spec.entries isVar) : Multiset Entry) + inventory (Specs.nodes specs) =
      (specs.map (Spec.inventory isVar)).sum := by
  induction specs with
  | nil => rfl
  | cons spec rest ih =>
    have hnodes : inventory (Specs.nodes (spec :: rest)) =
        inventory (Specs.nodes [spec]) + inventory (Specs.nodes rest) := by
      rcases spec with ⟨id, names, ty, values⟩ | spec <;> simp [Specs.nodes]
    rw [List.map_cons, List.sum_cons, ← ih, hnodes, Spec.inventory, List.flatMap_cons,
      ← Multiset.coe_add]
    abel

theorem Decl.inventory_eq (d : Decl) (top : Bool) :
    inventory (d.nodes top) = {⟨d.id, .plain⟩} + (d.specs.map (Spec.inventory d.isVar)).sum := by
  rcases d with ⟨id, kind, specs⟩
  rw [Decl.nodes, inventory_cons, ← Specs.inventory_eq_sum, ← add_assoc]
  rfl

def nameEntries (names : List Ident) : Multiset Entry :=
  (plainEntries (names.map Ident.id) : List Entry)

theorem nameEntries_eq_sum (names : List Ident) :
    nameEntries names = (names.map fun name => ({⟨name.id, .plain⟩} : Multiset Entry)).sum := by
  induction names with
  | nil => rfl
  | cons name rest ih =>
    rw [List.map_cons, List.sum_cons, ← ih]
    rfl

theorem ValueSpec.inventory_eq (spec : ValueSpec) :
    (Spec.value spec).inventory true = {⟨spec.id, spec.kind⟩} + nameEntries spec.names +
      inventory (Exprs.nodes spec.values) := by
  rcases spec with ⟨id, names, ty, values⟩
  simp only [Spec.inventory, Specs.nodes, inventory_append, inventory_nil, add_zero]
  rfl

/-!
## Types and zero values
-/

variable {lib : Liberty} {keeps : Property → Prop} {env : PassEnv} {p : Pass}

theorem Annotations.leaves_onVarSpecs {change : ValueSpec → PassM ValueSpec}
    (h : ∀ spec q, p.Evolves lib q → Leaves lib env q (change spec) (fun spec' r =>
      Renews lib keeps q r ((Spec.value spec).inventory true)
        ((Spec.value spec').inventory true))) (d : Decl) :
    Leaves lib env p (onVarSpecs change d) (fun d' q =>
      Renews lib keeps p q (inventory (d.nodes false)) (inventory (d'.nodes false))) := by
  unfold onVarSpecs
  split
  · rename_i hvar
    refine (Leaves.mapM keeps (Spec.inventory true) (Spec.inventory true) d.specs ?_).bind ?_
    · intro spec _ q hq
      cases spec with
      | value spec => exact .map (h spec q hq)
      | type spec => exact .pure (.refl q _)
    intro specs q _ hspecs
    apply Ends.pure
    have hvar' : (⟨d.id, d.kind, specs⟩ : Decl).isVar = true := hvar
    rw [Decl.inventory_eq, Decl.inventory_eq, hvar, hvar']
    exact (Renews.refl p _).add hspecs
  · exact .pure (.refl p _)

theorem Transformer.Renewing.of_decl {t : Transformer} (hexpr : t.expr = pure)
    (hstmt : t.stmt = pure) (hlist : ∀ owner, t.list owner = pure) (htag : t.missingTag = pure none)
    (hdecl : ∀ {q : Pass} (d : Decl), p.Evolves lib q → Leaves lib env q (t.decl d) (fun d' r =>
      Renews lib keeps q r (inventory (d.nodes false)) (inventory (d'.nodes false)))) :
    t.Renewing lib keeps env p where
  expr e _ := by
    rw [hexpr]
    exact .pure ⟨rfl, .refl _ _⟩
  stmt s _ := by
    rw [hstmt]
    exact .pure ⟨rfl, fun _ => .refl _ _⟩
  decl d hq := hdecl d hq
  list owner stmts _ := by
    rw [hlist]
    exact .pure (.refl _ _)
  tag _ := by
    rw [htag]
    exact .pure (.refl _ _)

theorem Renews.spec {q : Pass} {spec spec' : ValueSpec} (hid : spec'.id = spec.id)
    (hnames : spec'.names = spec.names)
    (hkind : ∀ property, keeps property →
      Entry.Spared lib property p ⟨spec.id, spec.kind⟩ →
      Entry.Spared lib property p ⟨spec.id, spec'.kind⟩)
    (hvalues : Renews lib keeps p q (inventory (Exprs.nodes spec.values))
      (inventory (Exprs.nodes spec'.values))) :
    Renews lib keeps p q ((Spec.value spec).inventory true)
      ((Spec.value spec').inventory true) := by
  have hhead : Renews lib keeps p p {⟨spec.id, spec.kind⟩} {⟨spec.id, spec'.kind⟩} :=
    .change (fun hlasting => by cases hlasting) nofun hkind
  rw [spec.inventory_eq, spec'.inventory_eq, hid, hnames]
  exact (hhead.add (.refl p _)).add hvalues

namespace Annotations

theorem leaves_nameType (hadds : lib.AddsBasics) (spec : ValueSpec) (name : Ident)
    (position : Nat) : Leaves lib env p (nameType spec name position) (fun _ _ => True) := by
  refine .look (PassM.exec_declaredType name env p) ?_
  refine .look (PassM.exec_getTable env p) ?_
  exact Leaves.require fun ty _ => PassM.leaves_defaultType hadds ty

theorem leaves_annotationOf (hadds : lib.AddsBasics) (spec : ValueSpec) :
    Leaves lib env p (annotationOf spec) (fun _ _ => True) := by
  refine (Ends.mapM_any _ fun pair _ q _ => leaves_nameType hadds spec pair.1 pair.2).bind
    fun types q _ _ => ?_
  split
  · split
    · exact (PassM.leaves_spell _ _).mono fun _ _ _ _ => trivial
    · exact Leaves.raise
  · exact Leaves.raise

theorem leaves_annotate (hreports : lib.reports) (hadds : lib.AddsBasics) (spec : ValueSpec) :
    Leaves lib env p (annotate spec) (fun spec' q => Renews lib keeps p q
      ((Spec.value spec).inventory true) ((Spec.value spec').inventory true)) := by
  unfold annotate
  split
  · exact .pure (.refl p _)
  · apply Leaves.orElseKeep hreports
    · refine (leaves_annotationOf hadds spec).bind fun ty q hq _ => ?_
      have hcount : q.Evolves lib _ := .counted q
      refine .step (PassM.exec_countChange env q) hcount (.pure ?_)
      refine Renews.trans (.stay (hq.trans hcount) _) (.spec rfl rfl ?_ (.refl _ _))
      intro property _ hspared
      cases property with
      | typedDecl => exact .of_blind rfl fun _ _ => rfl
      | singleNameDecl | initializedDecl => exact .of_blind rfl hspared.intact
      | _ => exact .of_blind rfl fun _ _ => rfl
    · exact fun q hq => .pure (.stay hq _)

theorem renewing (hreports : lib.reports) (hadds : lib.AddsBasics) :
    transformer.Renewing lib keeps env p :=
  .of_decl rfl rfl (fun _ => rfl) rfl fun d _ =>
    leaves_onVarSpecs (fun spec _ _ => leaves_annotate hreports hadds spec) d

end Annotations

namespace Zero

theorem leaves_zeros (keeps : Property → Prop) (hadds : lib.AddsBasics) (spec : ValueSpec) :
    Replaces lib keeps env p (zeros spec) 0 (fun values => inventory (Exprs.nodes values)) := by
  refine (Ends.mapM_any _ fun name _ q _ =>
    .of_exec (PassM.exec_declaredType name env q) (.refl q) trivial).bind fun types q hq _ => ?_
  apply (Leaves.newExprs keeps _ fun pair _ r _ =>
    Leaves.require fun ty _ => PassM.leaves_zeroValue keeps hadds ty _ _).mono
  intro values r _ hvalues
  exact (Renews.stay hq 0).trans hvalues

theorem leaves_giveZeros (hreports : lib.reports) (hadds : lib.AddsBasics) (spec : ValueSpec) :
    Leaves lib env p (giveZeros spec) (fun spec' q => Renews lib keeps p q
      ((Spec.value spec).inventory true) ((Spec.value spec').inventory true)) := by
  unfold giveZeros
  split
  · rename_i hempty
    apply Leaves.orElseKeep hreports
    · refine (leaves_zeros keeps hadds spec).bind fun values q hq hvalues => ?_
      have hcount : q.Evolves lib _ := .counted q
      refine .step (PassM.exec_countChange env q) hcount (.pure ?_)
      have hnone : inventory (Exprs.nodes spec.values) = 0 := by
        rw [List.isEmpty_iff.mp hempty]
        rfl
      refine .spec rfl rfl ?_ ((hvalues.trans (.stay hcount _)).cast hnone rfl)
      intro property _ hspared
      cases property with
      | initializedDecl =>
        refine .of_blind rfl fun _ _ => ?_
        -- The entry broke the property already.
        have hbroken := hspared.intact p (.refl p)
        simp [Property.breaks, ValueSpec.kind, hempty] at hbroken
      | singleNameDecl | typedDecl => exact .of_blind rfl hspared.intact
      | _ => exact .of_blind rfl fun _ _ => rfl
    · exact fun q hq => .pure (.stay hq _)
  · exact .pure (.refl p _)

theorem renewing (hreports : lib.reports) (hadds : lib.AddsBasics) :
    transformer.Renewing lib keeps env p :=
  .of_decl rfl rfl (fun _ => rfl) rfl fun d _ =>
    Annotations.leaves_onVarSpecs (fun spec _ _ => leaves_giveZeros hreports hadds spec) d

end Zero

/-!
## Single names inside a function
-/

section

variable {α β γ : Type} {as : List α} {bs : List β}

theorem map_zip_fst (f : α → γ) (h : as.length = bs.length) :
    (as.zip bs).map (fun pair => f pair.1) = as.map f := by
  conv_rhs => rw [← List.map_fst_zip (Nat.le_of_eq h), List.map_map]
  rfl

theorem map_zip_snd (g : β → γ) (h : as.length = bs.length) :
    (as.zip bs).map (fun pair => g pair.2) = bs.map g := by
  conv_rhs => rw [← List.map_snd_zip (Nat.le_of_eq h.symm), List.map_map]
  rfl

theorem sum_zip (f : α → Multiset Entry) (g : β → Multiset Entry) (h : as.length = bs.length) :
    ((as.zip bs).map fun pair => f pair.1 + g pair.2).sum = (as.map f).sum + (bs.map g).sum := by
  rw [List.sum_map_add, map_zip_fst f h, map_zip_snd g h]

end

theorem Renews.shrink {a b : Multiset Entry} (h : b ≤ a)
    (hkind : ∀ entry ∈ a, entry.kind ≠ .lasting) :
    Renews lib keeps p p a b where
  evolves := .refl p
  few id := Nat.le_trans (Multiset.count_le_of_le id (Multiset.map_le_map h))
    (Nat.le_add_right _ _)
  lasting id := by
    have hnone : a.count ⟨id, .lasting⟩ = 0 :=
      Multiset.count_eq_zero.mpr fun hmem => hkind _ hmem rfl
    rw [hnone]
    exact Nat.zero_le _
  spared _ _ hold entry hentry := hold entry (Multiset.mem_of_le h hentry)
  labels _ id _ hname := .inl ⟨id, Multiset.mem_of_le h hname⟩

theorem Renews.dropNames (p : Pass) {names names' : List Ident} (h : names'.Sublist names) :
    Renews lib keeps p p (nameEntries names) (nameEntries names') := by
  apply Renews.shrink
  · exact Multiset.coe_le.mpr ((h.map _).map _).subperm
  · intro entry hentry hkind
    rw [mem_plainEntries (Multiset.mem_coe.mp hentry)] at hkind
    cases hkind

namespace Split

section

variable (htyped : ¬ keeps .typedDecl) (hinitialized : ¬ keeps .initializedDecl)

include htyped hinitialized

theorem leaves_newVar (name : Ident) (ty : Option TypeExpr) (values : List Expr) :
    Replaces lib keeps env p (PassM.newVar name ty values)
      ({⟨name.id, .plain⟩} + inventory (Exprs.nodes values))
      (fun s => inventory (Stmts.nodes [s])) :=
  PassM.leaves_newVar name ty values (fun hkeeps => absurd hkeeps htyped)
    fun hkeeps => absurd hkeeps hinitialized

theorem leaves_newVarOf (binding : BindingId) (ty : Option TypeExpr) (values : List Expr) :
    Replaces lib keeps env p (PassM.newVarOf binding ty values)
      (inventory (Exprs.nodes values)) (fun s => inventory (Stmts.nodes [s])) :=
  PassM.leaves_newVarOf binding ty values (fun hkeeps => absurd hkeeps htyped)
    fun hkeeps => absurd hkeeps hinitialized

theorem leaves_single (name : Ident) (ty : Option TypeExpr) (value : Expr) :
    Replaces lib keeps env p (PassM.newVar name ty [value])
      ({⟨name.id, .plain⟩} + inventory value.nodes) (fun s => inventory (Stmts.nodes [s])) := by
  apply (leaves_newVar htyped hinitialized name ty [value]).mono
  intro s q _ hs
  exact hs.cast (by simp [Exprs.nodes]) rfl

theorem leaves_declareFrom (name : Ident) (ty : Option TypeExpr) (temp : BindingId) :
    Replaces lib keeps env p (do
        let value ← PassM.newUse temp
        PassM.newVar name ty [value])
      {⟨name.id, .plain⟩} (fun s => inventory (Stmts.nodes [s])) := by
  refine (PassM.leaves_newUse keeps temp).bind fun value q _ hvalue => ?_
  apply (leaves_single htyped hinitialized name ty value).mono
  intro s r _ hs
  exact (hvalue.1.beside _).trans hs

omit htyped hinitialized in
theorem leaves_temporaryType (hadds : lib.AddsBasics) (name : Ident)
    (value : Expr) : Leaves lib env p (temporaryType name value) (fun _ _ => True) := by
  refine .look (PassM.exec_declaredType name env p) ?_
  split
  · exact .pure trivial
  · refine .look (PassM.exec_typeOf value env p) ?_
    exact Leaves.require fun ty _ => PassM.leaves_defaultType hadds ty

theorem leaves_splitList (hadds : lib.AddsBasics) (owner : NodeId)
    (spec : ValueSpec) (hlength : spec.values.length = spec.names.length) :
    Replaces lib keeps env p (splitList owner spec)
      (nameEntries spec.names + inventory (Exprs.nodes spec.values))
      (fun stmts => inventory (Stmts.nodes stmts)) := by
  refine .look (PassM.exec_scope? env p) ?_
  refine .search trivial fun shadowed _ => ?_
  rw [nameEntries_eq_sum, Exprs.inventory_eq_sum]
  split
  · refine (Leaves.mapM keeps (fun pair => inventory pair.2.nodes)
      (fun pair : BindingId × Stmt => inventory (Stmts.nodes [pair.2]))
      (spec.names.zip spec.values) ?_).counted.bind ?_
    · rintro ⟨name, value⟩ _ q _
      refine (leaves_temporaryType hadds name value).bind fun ty q₁ hq₁ _ => ?_
      refine PassM.leaves_scopeAt fun scope => ?_
      refine (PassM.leaves_newTemp scope ty).bind fun temp q₂ hq₂ _ => ?_
      refine (leaves_newVarOf htyped hinitialized temp spec.ty [value]).bind
        fun s r _ hs => .pure ?_
      exact (Renews.stay (hq₁.trans hq₂) _).trans (hs.cast (by simp [Exprs.nodes]) rfl)
    rintro held q _ ⟨hvalues, hcount⟩
    refine (Leaves.stmts keeps (fun pair => {⟨pair.1.id, .plain⟩}) (spec.names.zip held) ?_).bind ?_
    · rintro ⟨name, temp, declared⟩ _ r _
      exact leaves_declareFrom htyped hinitialized name spec.ty temp
    intro declared r _ hnames
    apply Ends.pure
    have hlength' : spec.names.length = held.length := by
      rw [hcount, List.length_zip, hlength, Nat.min_self]
    beta_reduce
    rw [Stmts.inventory_append, Stmts.inventory_eq_sum, List.map_map]
    rw [map_zip_snd (fun value => inventory value.nodes) hlength.symm] at hvalues
    rw [map_zip_fst (fun name => ({⟨name.id, .plain⟩} : Multiset Entry)) hlength'] at hnames
    exact (hvalues.add hnames).cast (add_comm _ _) rfl
  · apply (Leaves.stmts keeps (fun pair => {⟨pair.1.id, .plain⟩} + inventory pair.2.nodes)
      (spec.names.zip spec.values) fun pair _ _ _ =>
        leaves_single htyped hinitialized pair.1 spec.ty pair.2).mono
    intro stmts q _ hstmts
    exact hstmts.cast (sum_zip _ _ hlength.symm).symm rfl

omit htyped hinitialized in
theorem leaves_bindingsOf (names : List Ident) :
    Leaves lib env p (bindingsOf names) (fun bindings _ => bindings.length = names.length) := by
  refine (Ends.mapM_any _ fun name _ q _ => ?_).counted.mono fun _ _ _ h => h.2
  split
  · exact .pure trivial
  · refine .look (PassM.exec_getTable env q) ?_
    exact Leaves.require fun binding _ => .pure trivial

omit htyped hinitialized in
theorem leaves_target (keeps : Property → Prop) (binding : Option BindingId) :
    Replaces lib keeps env p (target binding) 0 (fun e => inventory e.nodes) := by
  cases binding with
  | some binding => exact (PassM.leaves_newUse keeps binding).mono fun e q _ he => he.1
  | none =>
    apply PassM.leaves_newBlank.mono
    rintro e q hq ⟨id, rfl, hid⟩
    exact .draw_harmless hq hid .plain

theorem leaves_holdMembers (owner : NodeId) (spec : ValueSpec) (members : List TypeId)
    (bindings : List (Option BindingId)) :
    Leaves lib env p (holdMembers owner spec members bindings) (fun held q =>
      Renews lib keeps p q 0
        (held.map fun found => found.elim 0 fun pair => inventory (Stmts.nodes [pair.2])).sum ∧
        held.length = bindings.length) := by
  refine (Leaves.mapM_new keeps _ bindings.zipIdx ?_).counted.mono fun held q _ h =>
    ⟨h.1, h.2.trans List.length_zipIdx⟩
  rintro ⟨binding, position⟩ _ q _
  cases binding with
  | none => exact .pure (.refl q 0)
  | some binding =>
    refine Leaves.require fun member _ => ?_
    refine (PassM.leaves_spell member spec.id).bind ?_
    rintro spelled _ _ rfl
    refine PassM.leaves_scopeAt fun scope => ?_
    refine (PassM.leaves_newTemp scope member).bind fun temp r hr _ => ?_
    refine (leaves_newVarOf htyped hinitialized temp (some spelled) []).bind
      fun s u _ hs => .pure ?_
    exact (Renews.stay hr 0).trans hs

omit htyped hinitialized in
theorem inventory_held (held : List (Option (BindingId × Stmt))) :
    inventory (Stmts.nodes (held.filterMap fun found => found.map Prod.snd)) =
      (held.map fun found => found.elim 0 fun pair => inventory (Stmts.nodes [pair.2])).sum := by
  induction held with
  | nil => rfl
  | cons found rest ih =>
    cases found with
    | none => exact ih.trans (zero_add _).symm
    | some pair =>
      show inventory (Stmts.nodes (pair.2 :: _)) = _
      rw [Stmts.inventory_cons, ih]
      rfl

theorem leaves_declareHeld (spec : ValueSpec) (held : List (Option (BindingId × Stmt))) :
    Replaces lib keeps env p ((spec.names.zip held).filterMapM fun
      | (_, none) => return none
      | (name, some (temp, _)) => do
          let value ← PassM.newUse temp
          some <$> PassM.newVar name spec.ty [value])
      ((spec.names.zip held).map fun pair => {⟨pair.1.id, .plain⟩}).sum
      (fun stmts => (stmts.map fun s => inventory (Stmts.nodes [s])).sum) := by
  apply Leaves.filterMapM
  rintro ⟨name, found⟩ _ q _
  cases found with
  | none => exact .pure (.drop fun entry hentry => by
      rw [Multiset.mem_singleton.mp hentry]
      rintro ⟨⟩)
  | some pair =>
    rcases pair with ⟨temp, declared⟩
    refine (PassM.leaves_newUse keeps temp).bind fun use r _ huse => ?_
    apply Ends.map
    apply (leaves_single htyped hinitialized name spec.ty use).mono
    intro s u _ hs
    exact (huse.1.beside _).trans hs

theorem leaves_splitTuple (owner : NodeId) (spec : ValueSpec) (value : Expr) :
    Replaces lib keeps env p (splitTuple owner spec value)
      (nameEntries spec.names + inventory value.nodes)
      (fun stmts => inventory (Stmts.nodes stmts)) := by
  refine .look (PassM.exec_scope? env p) ?_
  refine .search trivial fun shadowed _ => ?_
  refine (leaves_bindingsOf spec.names).bind fun bindings q hq hbindings => ?_
  have hassign : ∀ (lhs : List Expr) (r : Pass), Replaces lib keeps env r
      (PassM.newAssign lhs [value]) (inventory (Exprs.nodes lhs) + inventory value.nodes)
      (fun s => inventory (Stmts.nodes [s])) := by
    intro lhs r
    apply (PassM.leaves_newAssign keeps lhs [value] (.inr rfl)).mono
    intro s u _ hs
    exact hs.cast (by simp [Exprs.nodes]) rfl
  split
  · refine .look (PassM.exec_typeOf value env q) ?_
    refine Leaves.require fun tuple _ => ?_
    refine .look (PassM.exec_getTable env q) ?_
    refine (leaves_holdMembers htyped hinitialized owner spec _ bindings).bind
      fun held r _ hheld => ?_
    refine (Leaves.newExprs keeps held fun _ _ _ _ => leaves_target keeps _).bind
      fun lhs u _ hlhs => ?_
    refine (hassign lhs u).bind fun assigned v _ hassigned => ?_
    refine (leaves_declareHeld htyped hinitialized spec held).bind
      fun declared w _ hdeclared => .pure ?_
    have hlength : spec.names.length = held.length := (hheld.2.trans hbindings).symm
    beta_reduce at hdeclared
    rw [map_zip_fst (fun name => ({⟨name.id, .plain⟩} : Multiset Entry)) hlength,
      ← nameEntries_eq_sum, ← Stmts.inventory_eq_sum] at hdeclared
    have htargets := (hlhs.add (.refl u (inventory value.nodes))).trans hassigned
    refine ((Renews.stay hq _).trans ((hheld.1.add htargets).add hdeclared)).cast ?_ ?_
    · abel
    · beta_reduce
      rw [Stmts.inventory_append, inventory_held, Stmts.inventory_cons, add_assoc]
  · refine (Leaves.stmts keeps (fun name => {⟨name.id, .plain⟩})
      (spec.names.filter fun name => !name.isBlank) fun name _ _ _ =>
        (leaves_newVar htyped hinitialized name spec.ty []).mono fun _ _ _ hs =>
          hs.cast (add_zero _).symm rfl).bind fun declared r _ hstmts => ?_
    refine (Leaves.newExprs keeps bindings fun _ _ _ _ => leaves_target keeps _).bind
      fun lhs u _ hlhs => ?_
    refine (hassign lhs u).bind fun assigned v _ hassigned => .pure ?_
    have hnames : Renews lib keeps p q (nameEntries spec.names)
        (nameEntries (spec.names.filter fun name => !name.isBlank)) :=
      (Renews.dropNames p List.filter_sublist).trans (.stay hq _)
    rw [← nameEntries_eq_sum] at hstmts
    beta_reduce
    rw [Stmts.inventory_append]
    have htargets := ((hlhs.add (.refl u (inventory value.nodes))).trans hassigned).cast
      (zero_add _).symm rfl
    exact (hnames.trans hstmts).add htargets

theorem leaves_splitValues (hadds : lib.AddsBasics) (owner : NodeId) (spec : ValueSpec) :
    Replaces lib keeps env p (splitValues owner spec)
      (nameEntries spec.names + inventory (Exprs.nodes spec.values))
      (fun stmts => inventory (Stmts.nodes stmts)) := by
  unfold splitValues
  split
  · rename_i hlength
    exact leaves_splitList htyped hinitialized hadds owner spec hlength
  · split
    · rename_i hvalues
      apply (Leaves.stmts keeps (fun name => {⟨name.id, .plain⟩}) spec.names fun name _ _ _ =>
        (leaves_newVar htyped hinitialized name spec.ty []).mono fun _ _ _ hs =>
          hs.cast (add_zero _).symm rfl).mono
      intro stmts q _ hstmts
      rw [hvalues, nameEntries_eq_sum]
      exact hstmts.cast (add_zero _) rfl
    · rename_i value hvalue
      apply (leaves_splitTuple htyped hinitialized owner spec value).mono
      intro stmts q _ hstmts
      rw [hvalue]
      exact hstmts.cast (by simp [Exprs.nodes]) rfl
    · exact Leaves.raise

theorem leaves_splitSpec (hreports : lib.reports) (hadds : lib.AddsBasics)
    (owner : NodeId) (spec : Spec) :
    Replaces lib keeps env p (splitSpec owner spec)
      (spec.inventory true) (fun stmts => inventory (Stmts.nodes stmts)) := by
  have hwhole : ∀ (whole : Spec) (q : Pass), Replaces lib keeps env q
      (do return [← PassM.newDecl whole]) (whole.inventory true)
      (fun stmts => inventory (Stmts.nodes stmts)) :=
    fun whole q => (PassM.leaves_newDecl keeps whole).bind fun s r _ hs => .pure hs
  cases spec with
  | type spec => exact hwhole _ p
  | value spec =>
    show Leaves lib env p (if spec.names.length > 1 then _ else _) _
    split
    · refine Leaves.orElseKeep hreports ?_ fun q hq =>
        (hwhole _ q).mono fun stmts r _ h => (Renews.stay hq _).trans h
      apply (leaves_splitValues htyped hinitialized hadds owner spec).mono
      intro stmts q _ hstmts
      have hdrop : Renews lib keeps p p {⟨spec.id, spec.kind⟩} 0 := by
        apply Renews.drop
        intro entry hentry
        rw [Multiset.mem_singleton.mp hentry]
        exact fun hkind => nomatch hkind
      rw [spec.inventory_eq, add_assoc]
      exact (hdrop.add hstmts).cast rfl (zero_add _).symm
    · exact hwhole _ p

theorem leaves_splitStmt (hreports : lib.reports) (hadds : lib.AddsBasics)
    (owner : NodeId) (s : Stmt) :
    Replaces lib keeps env p (splitStmt owner s)
      (inventory (Stmts.nodes [s])) (fun found => inventory (Stmts.nodes (found.getD [s]))) := by
  unfold splitStmt
  split
  · rename_i id d hs
    split
    · rename_i hneeds
      have hvar : d.isVar = true := (Bool.and_eq_true_iff.mp hneeds).1
      refine (Leaves.mapM keeps (Spec.inventory true) (fun stmts => inventory (Stmts.nodes stmts))
        d.specs fun spec _ _ _ => leaves_splitSpec htyped hinitialized hreports hadds owner
          spec).bind fun lists q _ hlists => .pure ?_
      refine Renews.trans ?_ (.labelFirst q s.labels lists.flatten)
      have hheads : Renews lib keeps p p ({⟨id, .plain⟩} + {⟨d.id, .plain⟩}) 0 :=
        Renews.drop_plain p [id, d.id]
      rw [s.inventory_unlabeled, hs, Stmts.inventory_singleton, Stmt.parts, Decl.inventory_eq,
        hvar, Stmts.inventory_flatten]
      refine (Renews.refl p _).add ((hheads.add hlists).cast ?_ (zero_add _).symm)
      rw [add_assoc]
      rfl
    · exact .pure (.refl p _)
  · exact .pure (.refl p _)

theorem renewing (hreports : lib.reports) (hadds : lib.AddsBasics) :
    transformer.Renewing lib keeps env p :=
  .of_list rfl rfl rfl rfl fun owner stmts _ => Transformer.leaves_splice stmts
    fun s _ _ _ => leaves_splitStmt htyped hinitialized hreports hadds owner s

end

/-!
## Single names of a package
-/

/-- The entry of something whose identity a declaration, a spec or a name uses. -/
def idEntry (id : NodeId) : Multiset Entry :=
  {⟨id, .plain⟩}

theorem leaves_pieceIds (keeps : Property → Prop) (whole : NodeId) (n : Nat) :
    Leaves lib env p (pieceIds whole n) (fun ids q =>
      Renews lib keeps p q (idEntry whole) (ids.map idEntry).sum ∧ ids.length = n) := by
  cases n with
  | zero => exact .pure ⟨.drop_plain p [whole], rfl⟩
  | succ n =>
    refine (Leaves.mapM_new keeps idEntry (List.range n) fun _ _ _ _ =>
      PassM.leaves_freshId.mono fun id r hr hid => .draw_harmless hr hid .plain).counted.bind
        fun ids q _ hids => .pure ⟨hids.1.beside _, ?_⟩
    rw [List.length_cons, hids.2, List.length_range]

section

variable (htyped : ¬ keeps .typedDecl) (hinitialized : ¬ keeps .initializedDecl)

include htyped hinitialized

theorem renews_pieces (p : Pass) (ty : Option TypeExpr) (ids : List NodeId) (names : List Ident)
    (values : List Expr) (hids : ids.length = names.length)
    (hvalues : values.length ≤ names.length) :
    Renews lib keeps p p
      ((ids.map idEntry).sum + nameEntries names + inventory (Exprs.nodes values))
      ((pieces ids names ty values).map (Spec.inventory true)).sum := by
  induction ids generalizing names values with
  | nil =>
    cases names with
    | nil =>
      cases values with
      | nil => exact .refl p _
      | cons value rest => exact absurd hvalues (Nat.not_succ_le_zero _)
    | cons name rest => cases hids
  | cons id ids ih =>
    cases names with
    | nil => cases hids
    | cons name names =>
      have htail : values.tail.length ≤ names.length := by
        rw [List.length_tail]
        exact Nat.sub_le_of_le_add hvalues
      have hrest := ih names values.tail (Nat.succ.inj hids) htail
      have hhead : Renews lib keeps p p (idEntry id)
          {⟨id, .spec true ty.isSome (!(values.take 1).isEmpty)⟩} := by
        refine .change (fun hkind => nomatch hkind) nofun fun property hproperty _ => ?_
        exact (Kind.Harmless.spec (fun h => absurd h htyped)
          fun h => absurd h hinitialized).spared hproperty p id
      have hsplit : inventory (Exprs.nodes values) =
          inventory (Exprs.nodes (values.take 1)) + inventory (Exprs.nodes values.tail) := by
        cases values <;> simp [Exprs.nodes]
      have hnames : nameEntries (name :: names) = nameEntries [name] + nameEntries names := rfl
      refine (((hhead.add (.refl p (nameEntries [name]))).add
        (.refl p (inventory (Exprs.nodes (values.take 1))))).add hrest).cast ?_ ?_
      · rw [List.map_cons, List.sum_cons, hsplit, hnames]
        abel
      · rw [pieces, List.map_cons, List.sum_cons, ValueSpec.inventory_eq]
        rfl

theorem leaves_splitPackageSpec (hreports : lib.reports) (spec : ValueSpec) :
    Replaces lib keeps env p (splitPackageSpec spec)
      ((Spec.value spec).inventory true) (fun found => (found.map (Spec.inventory true)).sum) := by
  have hwhole : ∀ q, p.Evolves lib q → Renews lib keeps p q ((Spec.value spec).inventory true)
      ([Spec.value spec].map (Spec.inventory true)).sum :=
    fun q hq => (Renews.stay hq _).cast rfl (add_zero _)
  unfold splitPackageSpec
  dsimp only
  split
  · exact .pure (hwhole p (.refl p))
  · split
    · have hreport : p.Evolves lib _ := .report hreports
        ((Problem.tupleDeclaration spec.id).diagnose env.rule (some spec.snippet))
      refine .step (PassM.exec_report _ _ env p) hreport (.pure (hwhole _ hreport))
    · split
      · exact Leaves.raise
      · rename_i hsingle hvalues
        refine (leaves_pieceIds keeps spec.id spec.names.length).bind fun ids q _ hids => .pure ?_
        have hle : spec.values.length ≤ spec.names.length := by omega
        have hpieces : Renews lib keeps q q _ _ :=
          renews_pieces htyped hinitialized q spec.ty ids spec.names spec.values hids.2 hle
        have hhead : Renews lib keeps p p {⟨spec.id, spec.kind⟩} (idEntry spec.id) :=
          .change (fun hkind => nomatch hkind) nofun fun property hproperty _ =>
            Kind.Harmless.plain.spared hproperty p spec.id
        rw [spec.inventory_eq]
        exact (((hhead.trans hids.1).add (.refl q _)).add (.refl q _)).trans hpieces

omit htyped hinitialized in
theorem leaves_declarePieces (keeps : Property → Prop) (first : Option NodeId)
    (found : List Spec) :
    Replaces lib keeps env p (declarePieces first found)
      (first.elim 0 idEntry + (found.map (Spec.inventory true)).sum)
      (fun decls => (decls.map fun d => inventory d.nodes).sum) := by
  induction found generalizing p first with
  | nil =>
    cases first with
    | none => exact .pure ((Renews.refl p 0).cast (add_zero _) rfl)
    | some id => exact .pure ((Renews.drop_plain p [id]).cast (add_zero _) rfl)
  | cons piece rest ih =>
    have hnext : ∀ (id : NodeId) (q : Pass), Renews lib keeps p q (first.elim 0 idEntry)
        (idEntry id) → Leaves lib env q (do
          let rest ← declarePieces none rest
          return .decl ⟨id, .var, [piece]⟩ :: rest) (fun decls r => Renews lib keeps p r
            (first.elim 0 idEntry + ((piece :: rest).map (Spec.inventory true)).sum)
            (decls.map fun d => inventory d.nodes).sum) := by
      intro id q hid
      refine (ih none).bind fun decls r _ hdecls => .pure ?_
      have hpiece : inventory (TopDecl.decl ⟨id, .var, [piece]⟩).nodes =
          idEntry id + piece.inventory true := by
        rw [TopDecl.nodes, Decl.inventory_eq]
        exact congrArg _ (add_zero _)
      refine ((hid.add (.refl q (piece.inventory true))).add hdecls).cast ?_ ?_
      · rw [List.map_cons, List.sum_cons]
        show _ = _ + _ + (0 + _)
        abel
      · rw [List.map_cons, List.sum_cons, hpiece]
    cases first with
    | some id => exact hnext id p (.refl p _)
    | none =>
      refine PassM.leaves_freshId.bind fun id q hq hid => hnext id q ?_
      exact .draw_harmless hq hid .plain

theorem leaves_splitPackageSpecs (hreports : lib.reports) (first : Option NodeId)
    (specs : List Spec) :
    Replaces lib keeps env p (splitPackageSpecs first specs)
      (first.elim 0 idEntry + (specs.map (Spec.inventory true)).sum)
      (fun decls => (decls.map fun d => inventory d.nodes).sum) := by
  induction specs generalizing p first with
  | nil =>
    cases first with
    | none => exact .pure ((Renews.refl p 0).cast (add_zero _) rfl)
    | some id => exact .pure ((Renews.drop_plain p [id]).cast (add_zero _) rfl)
  | cons spec rest ih =>
    have hnext : ∀ (found : List Spec) (q : Pass), Renews lib keeps p q (spec.inventory true)
        (found.map (Spec.inventory true)).sum → Leaves lib env q (do
          let decls ← declarePieces first found
          let rest ← splitPackageSpecs none rest
          return decls ++ rest) (fun decls r => Renews lib keeps p r
            (first.elim 0 idEntry + ((spec :: rest).map (Spec.inventory true)).sum)
            (decls.map fun d => inventory d.nodes).sum) := by
      intro found q hfound
      refine (leaves_declarePieces keeps first found).bind fun decls r _ hdecls => ?_
      refine (ih none).bind fun rest' u _ hrest => .pure ?_
      have hspec := ((Renews.refl p (first.elim 0 idEntry)).add hfound).trans hdecls
      refine (hspec.add hrest).cast ?_ ?_
      · rw [List.map_cons, List.sum_cons]
        show _ = _ + (0 + _)
        abel
      · rw [List.map_append, List.sum_append]
    cases spec with
    | value spec =>
      exact (leaves_splitPackageSpec htyped hinitialized hreports spec).bind
        fun found q _ hfound => hnext found q hfound
    | type spec => exact hnext [.type spec] p ((Renews.refl p _).cast rfl (add_zero _))

theorem leaves_splitPackageDecl (hreports : lib.reports) (d : TopDecl) :
    Replaces lib keeps env p (splitPackageDecl d)
      (inventory d.nodes) (fun decls => (decls.map fun d => inventory d.nodes).sum) := by
  cases d with
  | func fn => exact .pure ((Renews.refl p _).cast rfl (add_zero _))
  | decl d =>
    rw [splitPackageDecl]
    split
    · rename_i hneeds
      have hvar : d.isVar = true := (Bool.and_eq_true_iff.mp hneeds).1
      have hcount : p.Evolves lib _ := .counted p
      refine .step (PassM.exec_countChange env p) hcount ?_
      apply (leaves_splitPackageSpecs htyped hinitialized hreports (some d.id) d.specs).mono
      intro decls q _ hdecls
      rw [TopDecl.nodes, Decl.inventory_eq, hvar]
      exact (Renews.stay hcount _).trans hdecls
    · exact .pure ((Renews.refl p _).cast rfl (add_zero _))

theorem leaves_run (hreports : lib.reports) (hadds : lib.AddsBasics) :
    Leaves lib env p run (fun _ q => q.file.id = p.file.id ∧
      Renews lib keeps p q (inventory p.file.nodes) (inventory q.file.nodes)) := by
  have hstart : p.Evolves lib { p with scopes := .empty, changes := 0 } :=
    .of_same_record rfl rfl rfl
  refine .step (PassM.exec_startWalk env p) hstart ?_
  refine .look (PassM.exec_getFile env _) ?_
  refine (Leaves.mapM keeps (fun d => inventory d.nodes)
    (fun decls => (decls.map fun d => inventory d.nodes).sum) p.file.decls fun d _ _ _ =>
      leaves_splitPackageDecl htyped hinitialized hreports d).bind fun lists q _ hlists => ?_
  have hrenewing : transformer.Renewing lib keeps env q :=
    renewing htyped hinitialized hreports hadds
  refine (hrenewing.walk_file { p.file with decls := lists.flatten } (.refl q)).bind
    fun file r _ hfile => ?_
  have hset : r.Evolves lib { r with file := file } := .of_same_record rfl rfl rfl
  refine .step (PassM.exec_setFile file env r) hset ?_
  refine .look (PassM.exec_get env _) (.pure ⟨hfile.1, ?_⟩)
  have hsplit : Renews lib keeps p q (inventory p.file.nodes)
      (inventory (File.nodes { p.file with decls := lists.flatten })) := by
    refine (Renews.stay hstart _).trans (hlists.cast (TopDecls.inventory_eq_sum _) ?_)
    refine (TopDecls.inventory_eq_sum lists.flatten).trans ?_
    rw [List.map_flatten, List.sum_flatten, List.map_map]
    rfl
  exact (hsplit.trans hfile.2).trans (.stay hset _)

end

end Split

/-!
## Short declarations
-/

namespace Short

def Target.kept : Target → Multiset Entry
  | .blank e => inventory e.nodes
  | .fresh _ _ _ => 0
  | .existing e => inventory e.nodes

def Target.declared : Target → Multiset Entry
  | .fresh e _ _ => {⟨e.id, .plain⟩}
  | _ => 0

theorem inventory_of_name? {e : Expr} {name : String} (h : e.name? = some name) :
    inventory e.nodes = {⟨e.id, .plain⟩} := by
  cases e with
  | ident id name => rfl
  | _ => cases h

theorem inventory_of_classify {table : SymbolTable} {scope : ScopeId} {e : Expr}
    {target : Target} (h : classify table scope e = .ok target) :
    inventory e.nodes = target.kept + target.declared := by
  unfold classify at h
  cases hname : e.name? with
  | none =>
    rw [hname] at h
    cases h
  | some name =>
    simp only [hname] at h
    split at h
    · cases h
      exact (add_zero _).symm
    · split at h
      · cases h
        exact (inventory_of_name? hname).trans (zero_add _).symm
      · split at h
        · cases h
          exact (add_zero _).symm
        · cases h

theorem leaves_bindingType (binding : BindingId) (node : NodeId) :
    Leaves lib env p (bindingType binding node) (fun _ q => q = p) := by
  refine .look (PassM.exec_getTable env p) ?_
  show Leaves lib env p (PassM.require ((p.table.binding? binding).bind Binding.ty) _) _
  cases (p.table.binding? binding).bind Binding.ty with
  | some ty => exact .pure rfl
  | none => exact Leaves.raise

theorem leaves_freshDecls (keeps : Property → Prop) (hadds : lib.AddsBasics)
    (node : NodeId) (targets : List Target) :
    Replaces lib keeps env p (freshDecls node targets) (targets.map Target.declared).sum
      (fun fresh =>
        (fresh.map fun decl => {⟨decl.name.id, .plain⟩} + inventory decl.zero.nodes).sum) := by
  apply Leaves.filterMapM
  intro target _ q _
  cases target with
  | fresh e name binding =>
    refine (leaves_bindingType binding e.id).bind ?_
    rintro ty _ _ rfl
    refine (PassM.leaves_spell ty node).bind ?_
    rintro spelled _ _ rfl
    refine (PassM.leaves_zeroValue keeps hadds ty name node).bind fun zero r _ hzero => ?_
    exact .pure (hzero.beside _)
  | blank e | existing e => exact .pure (.refl q 0)

/-!
### Temporaries
-/

theorem leaves_heldType (hadds : lib.AddsBasics) (target : Target)
    (value : Expr) : Leaves lib env p (heldType target value) (fun _ _ => True) := by
  have hnext : ∀ (known : Option TypeId) (q : Pass), Leaves lib env q (do
      let ty ← PassM.require (known <|> (← PassM.typeOf value))
        (.missingType value.id "assigned value")
      PassM.defaultType ty) (fun _ _ => True) := by
    intro known q
    refine .look (PassM.exec_typeOf value env q) ?_
    exact Leaves.require fun ty _ => PassM.leaves_defaultType hadds ty
  cases target with
  | fresh e name binding =>
    have hbinding : Leaves lib env p (some <$> bindingType binding e.id) (fun _ _ => True) :=
      .map ((leaves_bindingType binding e.id).mono fun _ _ _ _ => trivial)
    exact hbinding.bind fun known q _ _ => hnext known q
  | blank e | existing e => exact .look (PassM.exec_typeOf e env p) (hnext _ p)

theorem leaves_newTempVar (keeps : Property → Prop) (temp : BindingId) (ty : TypeExpr)
    (value : Expr) :
    Replaces lib keeps env p (PassM.newVarOf temp (some ty) [value])
      (inventory value.nodes) (fun s => inventory (Stmts.nodes [s])) := by
  apply (PassM.leaves_newVarOf temp (some ty) [value] (fun _ => rfl)
    fun _ hnil => nomatch hnil).mono
  intro s q _ hs
  exact hs.cast (by simp [Exprs.nodes]) rfl

theorem leaves_holdList (keeps : Property → Prop) (hadds : lib.AddsBasics)
    (owner node : NodeId) (targets : List Target) (values : List Expr)
    (hlength : targets.length = values.length) :
    Replaces lib keeps env p (holdList owner node targets values) (inventory (Exprs.nodes values))
      (fun held => inventory (Stmts.nodes held.1) + inventory (Exprs.nodes held.2)) := by
  refine (Ends.mapM_any (targets.zip values) ?_).counted.bind ?_
  · intro pair _ q _
    refine (leaves_heldType hadds pair.1 pair.2).bind fun ty r _ _ => ?_
    exact (PassM.leaves_spell ty node).bind fun spelled u _ _ => .pure trivial
  rintro types q hq ⟨_, htypes⟩
  refine PassM.leaves_scopeAt fun scope => ?_
  refine (Leaves.mapM keeps (fun pair => inventory pair.2.nodes)
    (fun pair : Stmt × Expr => inventory (Stmts.nodes [pair.1]) + inventory pair.2.nodes)
    (types.zip values) ?_).bind ?_
  · rintro ⟨⟨ty, spelled⟩, value⟩ _ r _
    refine (PassM.leaves_newTemp scope ty).bind fun temp r₁ hr₁ _ => ?_
    refine (leaves_newTempVar keeps temp spelled value).bind fun declared r₂ _ hdeclared => ?_
    refine (PassM.leaves_newUse keeps temp).bind fun use u _ huse => .pure ?_
    exact ((Renews.stay hr₁ _).trans hdeclared).trans (huse.1.beside _)
  intro held r _ hvalues
  apply Ends.pure
  have hcount : types.length = values.length := by
    rw [htypes, List.length_zip, hlength, Nat.min_self]
  beta_reduce at hvalues
  rw [map_zip_snd (fun value => inventory value.nodes) hcount, List.sum_map_add,
    ← Exprs.inventory_eq_sum] at hvalues
  refine (Renews.stay hq _).trans (hvalues.cast rfl ?_)
  beta_reduce
  rw [List.unzip_eq_map, Stmts.inventory_eq_sum, Exprs.inventory_eq_sum, List.map_map,
    List.map_map]
  rfl

theorem leaves_holdTuple (keeps : Property → Prop) (hadds : lib.AddsBasics)
    (owner node : NodeId) (targets : List Target) (value : Expr) :
    Replaces lib keeps env p (holdTuple owner node targets value) (inventory value.nodes)
      (fun held => inventory (Stmts.nodes held.1) + inventory (Exprs.nodes held.2)) := by
  refine .look (PassM.exec_typeOf value env p) ?_
  refine Leaves.require fun tuple _ => ?_
  refine .look (PassM.exec_getTable env p) ?_
  by_cases hmembers : (p.table.results tuple).length ≠ targets.length
  · simp only [if_pos hmembers]
    exact Leaves.raise_bind
  simp only [if_neg hmembers]
  refine (Leaves.mapM_new keeps
    (fun triple : TypeId × TypeExpr × Expr => inventory triple.2.2.nodes) _ ?_).bind ?_
  · intro member _ q _
    refine .step (PassM.exec_onTable _ env q) (.defaultType hadds member) ?_
    refine (PassM.leaves_spell _ node).bind ?_
    rintro spelled _ _ rfl
    refine .look (PassM.exec_getTable env _) ?_
    refine (PassM.leaves_zeroValue keeps hadds _ _ node).bind fun zero r _ hzero => .pure ?_
    have hdefault : q.Evolves lib _ := .defaultType hadds member
    exact (Renews.stay hdefault 0).trans hzero
  intro types q _ htypes
  refine PassM.leaves_scopeAt fun scope => ?_
  refine (Leaves.mapM keeps (fun triple => inventory triple.2.2.nodes)
    (fun pair : BindingId × Stmt => inventory (Stmts.nodes [pair.2])) types ?_).bind ?_
  · rintro ⟨member, spelled, zero⟩ _ r _
    refine (PassM.leaves_newTemp scope member).bind fun temp r₁ hr₁ _ => ?_
    refine (leaves_newTempVar keeps temp spelled zero).bind fun declared u _ hdeclared => .pure ?_
    exact (Renews.stay hr₁ _).trans hdeclared
  intro held r _ hheld
  refine (Leaves.newExprs keeps held fun _ _ _ _ => (PassM.leaves_newUse keeps _).mono
    fun _ _ _ h => h.1).bind fun receivers u _ hreceivers => ?_
  refine (PassM.leaves_newAssign keeps receivers [value] (.inr rfl)).bind
    fun received v _ hreceived => ?_
  refine (Leaves.newExprs keeps held fun _ _ _ _ => (PassM.leaves_newUse keeps _).mono
    fun _ _ _ h => h.1).bind fun reads w _ hreads => .pure ?_
  have hdecls := htypes.trans hheld
  have hassign :
      Renews lib keeps r v (inventory value.nodes) (inventory (Stmts.nodes [received])) := by
    refine (hreceivers.beside _).trans (hreceived.cast ?_ rfl)
    simp [Exprs.nodes, add_comm]
  refine ((hdecls.add hassign).add hreads).cast ?_ ?_
  · abel
  · rw [Stmts.inventory_append, Stmts.inventory_eq_sum (held.map Prod.snd), List.map_map]
    rfl

theorem leaves_hold (keeps : Property → Prop) (hadds : lib.AddsBasics)
    (owner node : NodeId) (targets : List Target) (values : List Expr) :
    Replaces lib keeps env p (hold owner node targets values) (inventory (Exprs.nodes values))
      (fun held => inventory (Stmts.nodes held.1) + inventory (Exprs.nodes held.2)) := by
  have hkeep : Replaces lib keeps env p (pure ([], values)) (inventory (Exprs.nodes values))
      (fun held => inventory (Stmts.nodes held.1) + inventory (Exprs.nodes held.2)) :=
    .pure ((Renews.refl p _).cast rfl (zero_add _))
  unfold hold
  split
  · rename_i hlength
    exact leaves_holdList keeps hadds owner node targets values hlength
  · cases values with
    | nil => exact hkeep
    | cons value rest =>
      cases rest with
      | nil =>
        apply (leaves_holdTuple keeps hadds owner node targets value).mono
        intro held q _ hheld
        exact hheld.cast (by simp [Exprs.nodes]) rfl
      | cons second rest => exact hkeep

/-!
### The statement
-/

theorem renews_assign (hparallel : ¬ keeps .singleTargetAssign) (p : Pass) (node : NodeId)
    (parallel : Bool) :
    Renews lib keeps p p {⟨node, .plain⟩} {⟨node, .assign true false parallel⟩} := by
  refine .change (fun hkind => nomatch hkind) nofun fun property hproperty _ => ?_
  cases property with
  | singleTargetAssign => exact absurd hproperty hparallel
  | _ => exact .of_blind rfl fun _ _ => rfl

theorem leaves_assigned (keeps : Property → Prop) (targets : List Target) :
    Replaces lib keeps env p (targets.mapM fun
      | .fresh _ _ binding => PassM.newUse binding
      | .blank e => return e
      | .existing e => return e)
      (targets.map Target.kept).sum (fun assigned => inventory (Exprs.nodes assigned)) := by
  refine Leaves.exprs keeps Target.kept targets fun target _ q _ => ?_
  cases target with
  | fresh e name binding => exact (PassM.leaves_newUse keeps binding).mono fun _ _ _ h => h.1
  | blank e | existing e => exact .pure (.refl q _)

theorem leaves_eliminate (hparallel : ¬ keeps .singleTargetAssign)
    (hadds : lib.AddsBasics) (owner node : NodeId) (lhs rhs : List Expr) :
    Replaces lib keeps env p (eliminate owner node lhs rhs)
      ({⟨node, .plain⟩} + (inventory (Exprs.nodes lhs) + inventory (Exprs.nodes rhs)))
      (fun stmts => inventory (Stmts.nodes stmts)) := by
  unfold eliminate
  by_cases hbalanced : isBalanced lhs rhs = true
  swap
  · rw [if_pos (by simp [hbalanced])]
    exact Leaves.raise_bind
  rw [if_neg (by simp [hbalanced])]
  refine PassM.leaves_scopeAt fun scope => ?_
  refine (Leaves.mapM keeps (fun e => inventory e.nodes)
    (fun target : Target => target.kept + target.declared) lhs ?_).bind ?_
  · intro e _ q _
    refine .look (PassM.exec_getTable env q) ?_
    cases hclass : classify q.table scope e with
    | ok target => exact .pure ((Renews.refl q _).cast rfl (inventory_of_classify hclass).symm)
    | error problem => exact Leaves.raise
  intro targets p₁ _ htargets
  beta_reduce at htargets
  rw [← Exprs.inventory_eq_sum, List.sum_map_add] at htargets
  refine (leaves_freshDecls keeps hadds node targets).bind fun fresh p₂ _ hfresh => ?_
  refine .search trivial fun shadowed _ => ?_
  have hnext : ∀ (held : List Stmt × List Expr) (q : Pass), Renews lib keeps p₂ q
      (inventory (Exprs.nodes rhs))
      (inventory (Stmts.nodes held.1) + inventory (Exprs.nodes held.2)) → Leaves lib env q (do
        let declared ← fresh.mapM fun decl => PassM.newVar decl.name (some decl.ty) [decl.zero]
        let assigned ← targets.mapM fun
          | .fresh _ _ binding => PassM.newUse binding
          | .blank e => return e
          | .existing e => return e
        return held.1 ++ declared ++ [.assign node assigned .assign held.2])
        (fun stmts r => Renews lib keeps p r
          ({⟨node, .plain⟩} + (inventory (Exprs.nodes lhs) + inventory (Exprs.nodes rhs)))
          (inventory (Stmts.nodes stmts))) := by
    intro held q hheld
    refine (Leaves.stmts keeps
      (fun decl => {⟨decl.name.id, .plain⟩} + inventory decl.zero.nodes) fresh ?_).bind ?_
    · intro decl _ r _
      apply (PassM.leaves_newVar decl.name (some decl.ty) [decl.zero] (fun _ => rfl)
        fun _ hnil => absurd hnil (List.cons_ne_nil _ _)).mono
      intro s u _ hs
      exact hs.cast (by simp [Exprs.nodes]) rfl
    intro declared r _ hdeclared
    refine (leaves_assigned keeps targets).bind fun assigned u _ hassigned => .pure ?_
    -- Each part of the statement is followed through the steps on its own.
    have hhead : Renews lib keeps p p {⟨node, .plain⟩}
        {⟨node, (Stmt.assign node assigned .assign held.2).kind true⟩} :=
      renews_assign hparallel p node _
    have htargeted := hhead.add (htargets.add (.refl p₁ (inventory (Exprs.nodes rhs))))
    have hzeroed :=
      htargeted.trans (.add (.refl p₁ _) (.add (.add (.refl p₁ _) hfresh) (.refl p₂ _)))
    have hbefore := hzeroed.trans (.add (.refl p₂ _) (.add (.refl p₂ _) hheld))
    have hafter := hbefore.trans (.add (.refl q _) (.add (.add (.refl q _) hdeclared) (.refl r _)))
    have hall := hafter.trans (.add (.refl r _) (.add (.add hassigned (.refl u _)) (.refl u _)))
    refine hall.cast rfl ?_
    rw [Stmts.inventory_append, Stmts.inventory_append, inventory_assign]
    abel
  dsimp only
  split
  · exact (leaves_hold keeps hadds owner node targets rhs).bind fun held q _ hheld =>
      hnext held q hheld
  · exact hnext ([], rhs) p₂ ((Renews.refl p₂ _).cast rfl (zero_add _))

theorem leaves_eliminateStmt (hreports : lib.reports) (hparallel : ¬ keeps .singleTargetAssign)
    (hadds : lib.AddsBasics) (owner : NodeId) (s : Stmt) :
    Replaces lib keeps env p (eliminateStmt owner s)
      (inventory (Stmts.nodes [s])) (fun found => inventory (Stmts.nodes (found.getD [s]))) := by
  unfold eliminateStmt
  split
  · rename_i node lhs rhs hs
    refine Leaves.orElseKeep hreports ?_ fun q hq => .pure (.stay hq _)
    refine (leaves_eliminate hparallel hadds owner node lhs rhs).bind
      fun stmts q _ hstmts => .pure ?_
    refine Renews.trans ?_ (.labelFirst q s.labels stmts)
    have hhead : Renews lib keeps p p {⟨node, (Stmt.assign node lhs .define rhs).kind true⟩}
        {⟨node, .plain⟩} :=
      .change (fun hkind => nomatch hkind) nofun fun property hproperty _ =>
        Kind.Harmless.plain.spared hproperty p node
    rw [s.inventory_unlabeled, hs, inventory_assign]
    exact (Renews.refl p _).add ((hhead.add (.refl p _)).trans hstmts)
  · exact .pure (.refl p _)

theorem renewing (hreports : lib.reports) (hparallel : ¬ keeps .singleTargetAssign)
    (hadds : lib.AddsBasics) : transformer.Renewing lib keeps env p :=
  .of_list rfl rfl rfl rfl fun owner stmts _ => Transformer.leaves_splice stmts
    fun s _ _ _ => leaves_eliminateStmt hreports hparallel hadds owner s

end Short
end Desugar
