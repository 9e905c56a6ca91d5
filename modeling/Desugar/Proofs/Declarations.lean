import Desugar.Declaration.Zero
import Desugar.Proofs.Contracts

/-!
# Complete declarations

The rules that add types and zero values change the specs of a variable
declaration one by one.  A spec keeps its identity and its names, so that the
declaration keeps what it has; what is added, or else reported, gives it the
trait of the rule.
-/

namespace Desugar

open PassM (Obtains Ends)
open Node (All AllHave)
open Trait (With)

/-!
## Specs that correspond
-/

def Spec.Rel (rel : ValueSpec → ValueSpec → Prop) : Spec → Spec → Prop
  | .value a, .value b => rel a b
  | .type a, .type b => a = b
  | _, _ => False

theorem Specs.mem_nodes_iff (specs : List Spec) (n : Node) :
    n ∈ Specs.nodes specs ↔ ∃ spec, .value spec ∈ specs ∧ n ∈ Exprs.nodes spec.values := by
  induction specs with
  | nil => simp [Specs.nodes]
  | cons spec rest ih =>
    cases spec with
    | value spec =>
      rcases spec with ⟨id, names, ty, values⟩
      simp [Specs.nodes, ih]
    | type spec => simp [Specs.nodes, ih]

theorem Decl.mem_valueSpecs_iff (d : Decl) (spec : ValueSpec) :
    spec ∈ d.valueSpecs ↔ .value spec ∈ d.specs := by
  unfold valueSpecs
  rw [List.mem_filterMap]
  constructor
  · intro h
    rcases h with ⟨found, hfound, heq⟩
    cases found with
    | value found =>
      cases heq
      exact hfound
    | type found => cases heq
  · intro h
    exact ⟨.value spec, h, rfl⟩

section

variable {rel : ValueSpec → ValueSpec → Prop}

theorem Specs.shownIds_of_rel {specs specs' : List Spec}
    (h : List.Forall₂ (Spec.Rel rel) specs specs')
    (hsame : ∀ a b, rel a b → b.id = a.id ∧ b.names = a.names) :
    specs'.flatMap Spec.shownIds = specs.flatMap Spec.shownIds := by
  induction h with
  | nil => rfl
  | @cons spec spec' rest rest' hspec _ ih =>
    rw [List.flatMap_cons, List.flatMap_cons, ih]
    cases spec with
    | value a =>
      cases spec' with
      | value b =>
        rcases hsame a b hspec with ⟨hid, hnames⟩
        simp only [Spec.shownIds, hid, hnames]
      | type b => cases hspec
    | type a =>
      cases spec' with
      | value b => cases hspec
      | type b => rw [show a = b from hspec]

theorem Decl.valueSpecs_of_rel {d d' : Decl} (h : List.Forall₂ (Spec.Rel rel) d.specs d'.specs) :
    List.Forall₂ rel d.valueSpecs d'.valueSpecs := by
  rcases d with ⟨id, kind, specs⟩
  rcases d' with ⟨id', kind', specs'⟩
  unfold valueSpecs
  dsimp only at h ⊢
  induction h with
  | nil => exact .nil
  | @cons spec spec' rest rest' hspec _ ih =>
    cases spec with
    | value a =>
      cases spec' with
      | value b => exact .cons hspec ih
      | type b => cases hspec
    | type a =>
      cases spec' with
      | value b => cases hspec
      | type b => exact ih

theorem any_of_rel {xs ys : List ValueSpec} {f : ValueSpec → Bool} (h : List.Forall₂ rel xs ys)
    (hsame : ∀ a b, rel a b → f b = f a) : ys.any f = xs.any f := by
  induction h with
  | nil => rfl
  | cons hhead _ ih => rw [List.any_cons, List.any_cons, ih, hsame _ _ hhead]

theorem Node.Has.decl_of_rel {traits : Trait → Prop} {p : Pass} {d d' : Decl} {top : Bool}
    (h : (Node.decl d top).Has traits p) (hid : d'.id = d.id) (hkind : d'.kind = d.kind)
    (hspecs : List.Forall₂ (Spec.Rel rel) d.specs d'.specs)
    (hsame : ∀ a b, rel a b → b.id = a.id ∧ b.names = a.names)
    (hty : ∀ a b, rel a b → a.ty.isSome = true → b.ty.isSome = true)
    (hvalues : ∀ a b, rel a b → a.values ≠ [] → b.values ≠ []) :
    (Node.decl d' top).Has traits p := by
  have hvar : d'.isVar = d.isVar := by
    unfold Decl.isVar
    rw [hkind]
  have hvalueSpecs := Decl.valueSpecs_of_rel hspecs
  intro q hq trait htrait hdiagnostics
  have hd : trait.OnDecl q d := h q hq trait htrait hdiagnostics
  show trait.OnDecl q d'
  cases trait with
  | bounded =>
    intro id hmem
    apply hd
    unfold Decl.shownIds at hmem ⊢
    rw [hid, Specs.shownIds_of_rel hspecs hsame] at hmem
    exact hmem
  | namedSpecs =>
    intro hvar' spec hspec
    rcases Ends.exists_mem_of_forall₂ hvalueSpecs spec hspec with ⟨a, ha, hrel⟩
    rw [(hsame a spec hrel).2]
    exact hd (hvar ▸ hvar') a ha
  | singleName =>
    have hsome : d'.valueSpecs.any (fun spec => spec.names.length > 1) =
        d.valueSpecs.any (fun spec => spec.names.length > 1) := by
      apply any_of_rel hvalueSpecs
      intro a b hrel
      rw [(hsame a b hrel).2]
    have hsplit : Split.needsSplit d' = Split.needsSplit d := by
      unfold Split.needsSplit
      rw [hvar, hsome, hspecs.length_eq]
    show Split.needsSplit d' = false
    rw [hsplit]
    exact hd
  | typedDecl =>
    intro hvar' spec hspec
    rcases Ends.exists_mem_of_forall₂ hvalueSpecs spec hspec with ⟨a, ha, hrel⟩
    exact hty a spec hrel (hd (hvar ▸ hvar') a ha)
  | initializedDecl =>
    intro hvar' spec hspec
    rcases Ends.exists_mem_of_forall₂ hvalueSpecs spec hspec with ⟨a, ha, hrel⟩
    exact hvalues a spec hrel (hd (hvar ▸ hvar') a ha)
  | _ => trivial

end

section

variable {env : PassEnv} {start p : Pass} {traits : Trait → Prop}

theorem Annotations.yields_specs {change : ValueSpec → PassM ValueSpec}
    {rel : ValueSpec → ValueSpec → Pass → Prop} {specs : List Spec}
    (hmono : ∀ a b q r, q.Grows r → rel a b q → rel a b r)
    (h : ∀ spec, .value spec ∈ specs → ∀ q, p.Grows q →
      Obtains env q (change spec) (rel spec)) :
    Obtains env p (specs.mapM fun
      | .value spec => Spec.value <$> change spec
      | .type spec => return .type spec)
      (fun specs' q => List.Forall₂ (Spec.Rel fun a b => rel a b q) specs specs') := by
  refine Ends.mapM specs ?_ ?_
  · intro spec spec' q r hgrows hspec
    cases spec with
    | value a =>
      cases spec' with
      | value b => exact hmono a b q r hgrows hspec
      | type b => exact hspec
    | type a =>
      cases spec' with
      | value b | type b => exact hspec
  · intro spec hspec q hq
    cases spec with
    | value spec =>
      apply Ends.map
      exact h spec hspec q hq
    | type spec => exact .pure rfl

theorem Annotations.yields_onVarSpecs {change : ValueSpec → PassM ValueSpec}
    {rel : ValueSpec → ValueSpec → Pass → Prop} {d : Decl}
    (hmono : ∀ a b q r, q.Grows r → rel a b q → rel a b r)
    (h : ∀ spec, .value spec ∈ d.specs → ∀ q, p.Grows q →
      Obtains env q (change spec) (rel spec)) (hvar : d.isVar = true) :
    Obtains env p (onVarSpecs change d) (fun d' q => d'.id = d.id ∧ d'.kind = d.kind ∧
      List.Forall₂ (Spec.Rel fun a b => rel a b q) d.specs d'.specs) := by
  unfold onVarSpecs
  rw [if_pos hvar]
  apply (yields_specs hmono h).bind
  intro specs q _ hspecs'
  exact .pure ⟨rfl, rfl, hspecs'⟩

/-- A rule that completes the specs of variable declarations: what a complete
spec is, and what the rule makes of a spec. -/
structure Completion (env : PassEnv) (start : Pass)
    (traits : Trait → Prop) (more : Trait) (change : ValueSpec → PassM ValueSpec)
    (complete : ValueSpec → Prop) (rel : ValueSpec → ValueSpec → Pass → Prop) : Prop where
  stage : 0 < more.stage
  onDecl : ∀ {q : Pass} {d : Decl},
    (d.isVar = true → ∀ spec ∈ d.valueSpecs, complete spec) → more.OnDecl q d
  mono : ∀ {a b : ValueSpec} {q r : Pass}, q.Grows r → rel a b q → rel a b r
  same : ∀ {a b : ValueSpec} {q : Pass}, rel a b q → b.id = a.id ∧ b.names = a.names
  ty : ∀ {a b : ValueSpec} {q : Pass}, rel a b q → a.ty.isSome = true → b.ty.isSome = true
  values : ∀ {a b : ValueSpec} {q : Pass}, rel a b q → a.values ≠ [] → b.values ≠ []
  settled : ∀ {a b : ValueSpec} {q : Pass}, rel a b q →
    AllHave (With traits more) q (Exprs.nodes b.values)
  complete : ∀ {a b : ValueSpec} {q : Pass}, rel a b q → q.diagnostics = [] → complete b
  change : ∀ {p : Pass} {d : Decl} {top : Bool} {spec : ValueSpec}, start.Grows p →
    (Node.decl d top).Has traits p → d.isVar = true → spec ∈ d.valueSpecs →
    AllHave (With traits more) p (Exprs.nodes spec.values) →
    Obtains env p (change spec) (rel spec)

variable {more : Trait} {change : ValueSpec → PassM ValueSpec} {complete : ValueSpec → Prop}
  {rel : ValueSpec → ValueSpec → Pass → Prop}

theorem Completion.yields_onVarSpecs
    (h : Completion env start traits more change complete rel) {d₀ d : Decl} {top : Bool}
    (hp : start.Grows p) (hself : (Node.decl d₀ top).Has traits start)
    (hsame : d.outline = d₀.outline)
    (hspecs : AllHave (With traits more) p (Specs.nodes d.specs)) :
    Obtains env p (Annotations.onVarSpecs change d) (fun d' q =>
      d'.id = d₀.id ∧ d'.kind = d₀.kind ∧ (Node.decl d' top).Has (With traits more) q ∧
      AllHave (With traits more) q (Specs.nodes d'.specs)) := by
  have hd : (Node.decl d top).Has traits p := (hself.mono hp).decl_of_outline_eq hsame
  by_cases hvar : d.isVar = true
  · have hchanged : Obtains env p (Annotations.onVarSpecs change d) (fun d' q =>
        d'.id = d.id ∧ d'.kind = d.kind ∧
        List.Forall₂ (Spec.Rel fun a b => rel a b q) d.specs d'.specs) := by
      apply Annotations.yields_onVarSpecs _ _ hvar
      · intro a b q r hgrows hab
        exact h.mono hgrows hab
      · intro spec hspec q hq
        apply h.change (hp.trans hq) (hd.mono hq) hvar ((d.mem_valueSpecs_iff spec).mpr hspec)
        intro n hn
        exact (hspecs n ((Specs.mem_nodes_iff d.specs n).mpr ⟨spec, hspec, hn⟩)).mono hq
    apply hchanged.mono
    intro d' q hq hpost
    rcases hpost with ⟨hid, hkind, hrel⟩
    have hvalueSpecs := Decl.valueSpecs_of_rel hrel
    refine ⟨hid.trans (Decl.id_eq_of_outline_eq hsame),
      hkind.trans (Decl.kind_eq_of_outline_eq hsame), ?_, ?_⟩
    · have hkept : (Node.decl d' top).Has traits q := by
        apply (hd.mono hq).decl_of_rel hid hkind hrel
        · intro a b hab
          exact h.same hab
        · intro a b hab
          exact h.ty hab
        · intro a b hab
          exact h.values hab
      apply hkept.with_trait
      intro r hr hdiagnostics
      apply h.onDecl
      intro hvar' spec hspec
      rcases Ends.exists_mem_of_forall₂ hvalueSpecs spec hspec with ⟨a, _, hab⟩
      exact h.complete hab (hr.no_diagnostics (hdiagnostics h.stage))
    · intro n hn
      rcases (Specs.mem_nodes_iff d'.specs n).mp hn with ⟨spec, hspec, hn'⟩
      rcases Ends.exists_mem_of_forall₂ hvalueSpecs spec
        ((d'.mem_valueSpecs_iff spec).mpr hspec) with
        ⟨a, _, hab⟩
      exact h.settled hab n hn'
  · unfold Annotations.onVarSpecs
    rw [if_neg hvar]
    apply Ends.pure
    refine ⟨Decl.id_eq_of_outline_eq hsame, Decl.kind_eq_of_outline_eq hsame, ?_, hspecs⟩
    apply hd.with_trait
    intro q _ _
    exact h.onDecl fun hvar' => absurd hvar' hvar

theorem Completion.contract (h : Completion env start traits more change complete rel)
    (hexpr : ∀ q e, more.OnExpr q e) (hstmt : ∀ q s, more.OnStmt q false s)
    (hinit : more ≠ .noControlInit) (htag : more ≠ .taggedSwitch) (hsimple : traits .simpleHeaders)
    (hbranchElse : traits .branchElse) :
    Transformer.NodeContract { decl := Annotations.onVarSpecs change } Fault.any env start
      (fun n => n.Has traits start) traits more :=
  .of_hooks rfl rfl h.stage hinit hsimple hbranchElse (fun _ hn => hn) (fun q s _ => hstmt q s)
    (Transformer.yields_expr_of_pure rfl (hexpr · _)) h.yields_onVarSpecs
    (fun _ => Transformer.yields_tag_of_pure rfl htag)

/-!
## Types
-/

namespace Annotations

theorem yields_nameType (spec : ValueSpec) (name : Ident) (position : Nat) :
    Obtains env p (nameType spec name position) (fun _ _ => True) := by
  refine .look (PassM.exec_declaredType name env p) ?_
  refine .look (PassM.exec_getTable env p) ?_
  apply Ends.require_bind trivial
  intro ty _
  exact .of_exec (PassM.exec_onTable _ env p) (PassM.grows_defaultType ty) trivial

theorem yields_annotationOf (spec : ValueSpec) :
    Obtains env p (annotationOf spec) (fun _ _ => True) := by
  refine (Ends.mapM_any _ fun pair _ _ _ => yields_nameType spec pair.1 pair.2).bind ?_
  intro types q _ _
  cases types with
  | nil => exact .raise trivial
  | cons first rest =>
    by_cases hall : rest.all (fun ty => ty = first) = true
    · simp only [hall, if_true]
      exact (PassM.yields_spell _ _ (fun _ _ => trivial)).mono fun _ _ _ _ => trivial
    · simp only [hall]
      exact .raise trivial

def Annotated (traits : Trait → Prop) (a b : ValueSpec) (q : Pass) : Prop :=
  b.id = a.id ∧ b.names = a.names ∧ b.values = a.values ∧
    (b.ty.isSome = true ∨ b = a ∧ q.diagnostics ≠ []) ∧
    AllHave traits q (Exprs.nodes b.values)

theorem yields_annotate {spec : ValueSpec}
    (hvalues : AllHave traits p (Exprs.nodes spec.values)) :
    Obtains env p (annotate spec) (Annotated traits spec) := by
  unfold annotate
  by_cases hty : spec.ty.isSome = true
  · rw [if_pos hty]
    exact .pure ⟨rfl, rfl, rfl, .inl hty, hvalues⟩
  · rw [if_neg hty]
    refine Ends.orElseKeep .report ((yields_annotationOf spec).bind ?_) ?_
    · intro ty q hq _
      have hcount : q.Grows _ := .counted q
      refine .step (PassM.exec_countChange env q) hcount (.pure ?_)
      exact ⟨rfl, rfl, rfl, .inl rfl, Node.Has.all_mono (hq.trans hcount) hvalues⟩
    intro q hq hreported
    exact .pure ⟨rfl, rfl, rfl, .inr ⟨rfl, hreported⟩, Node.Has.all_mono hq hvalues⟩

theorem completion :
    Completion env start traits .typedDecl annotate
      (fun spec => spec.ty.isSome = true) (Annotated (With traits .typedDecl)) where
  stage := by decide
  onDecl h := h
  mono := by
    intro a b q r hgrows h
    rcases h with ⟨hid, hnames, hvalues, hty, hsettled⟩
    refine ⟨hid, hnames, hvalues, ?_, Node.Has.all_mono hgrows hsettled⟩
    rcases hty with hty | ⟨heq, hreported⟩
    · exact .inl hty
    · exact .inr ⟨heq, fun hnone => hreported (hgrows.no_diagnostics hnone)⟩
  same h := ⟨h.1, h.2.1⟩
  ty := by
    intro a b q h hty
    rcases h.2.2.2.1 with hb | ⟨heq, _⟩
    · exact hb
    · rw [heq]
      exact hty
  values := by
    intro a b q h hvalues
    rw [h.2.2.1]
    exact hvalues
  settled h := h.2.2.2.2
  complete := by
    intro a b q h hnone
    rcases h.2.2.2.1 with hty | ⟨_, hreported⟩
    · exact hty
    · exact absurd hnone hreported
  change _ _ _ _ hvalues := yields_annotate hvalues

theorem contract (hsimple : traits .simpleHeaders) (hbranchElse : traits .branchElse) :
    transformer.NodeContract Fault.any env start (fun n => n.Has traits start) traits
      .typedDecl :=
  completion.contract (fun _ _ => trivial) (fun _ _ => trivial) (by decide) (by decide) hsimple
    hbranchElse

end Annotations

/-!
## Zero values
-/

namespace Zero

theorem yields_zeros {spec : ValueSpec}
    (hnames : spec.names ≠ []) :
    Obtains env p (zeros spec) (fun values q => values ≠ [] ∧
      AllHave traits q (Exprs.nodes values)) := by
  refine (Ends.mapM_any spec.names ?_).counted.bind ?_
  · intro name _ q _
    exact .of_exec (PassM.exec_declaredType name env q) (.refl q) trivial
  intro types q _ htypes
  refine (Obtains.exprs traits (spec.names.zip types) ?_).counted.mono ?_
  · intro pair _ r _
    apply Ends.require_bind trivial
    intro ty _
    apply (PassM.yields_zeroValue ty _ _ trivial (fun _ _ => trivial)).mono
    intro e v _ he
    rcases he with ⟨id, hid, he⟩
    exact .zero hid he
  intro values r _ hvalues
  constructor
  · intro hnil
    have hzip := hvalues.2
    rw [hnil, List.length_zip, htypes.2, Nat.min_self] at hzip
    exact hnames (List.length_eq_zero_iff.mp hzip.symm)
  · exact Exprs.all_of_mem hvalues.1

def Initialized (traits : Trait → Prop) (a b : ValueSpec) (q : Pass) : Prop :=
  b.id = a.id ∧ b.names = a.names ∧ b.ty = a.ty ∧ (b.values ≠ [] ∨ b = a ∧ q.diagnostics ≠ []) ∧
    AllHave traits q (Exprs.nodes b.values)

theorem yields_giveZeros {spec : ValueSpec}
    (hnames : spec.names ≠ [])
    (hvalues : AllHave traits p (Exprs.nodes spec.values)) :
    Obtains env p (giveZeros spec) (Initialized traits spec) := by
  unfold giveZeros
  by_cases hempty : spec.values.isEmpty = true
  · rw [if_pos hempty]
    refine Ends.orElseKeep .report ?_ ?_
    · apply (yields_zeros hnames).bind
      intro values q _ hzeros
      have hcount : q.Grows _ := .counted q
      refine .step (PassM.exec_countChange env q) hcount (.pure ?_)
      exact ⟨rfl, rfl, rfl, .inl hzeros.1, Node.Has.all_mono hcount hzeros.2⟩
    intro q hq hreported
    exact .pure ⟨rfl, rfl, rfl, .inr ⟨rfl, hreported⟩, Node.Has.all_mono hq hvalues⟩
  · rw [if_neg hempty]
    have hne : spec.values ≠ [] := fun hnil => hempty (List.isEmpty_iff.mpr hnil)
    exact .pure ⟨rfl, rfl, rfl, .inl hne, hvalues⟩

theorem completion (hnamed : traits .namedSpecs) :
    Completion env start traits .initializedDecl giveZeros
      (fun spec => spec.values ≠ []) (Initialized (With traits .initializedDecl)) where
  stage := by decide
  onDecl h := h
  mono := by
    intro a b q r hgrows h
    rcases h with ⟨hid, hnames, hty, hvalues, hsettled⟩
    refine ⟨hid, hnames, hty, ?_, Node.Has.all_mono hgrows hsettled⟩
    rcases hvalues with hvalues | ⟨heq, hreported⟩
    · exact .inl hvalues
    · exact .inr ⟨heq, fun hnone => hreported (hgrows.no_diagnostics hnone)⟩
  same h := ⟨h.1, h.2.1⟩
  ty := by
    intro a b q h hty
    rw [h.2.2.1]
    exact hty
  values := by
    intro a b q h hvalues
    rcases h.2.2.2.1 with hb | ⟨heq, _⟩
    · exact hb
    · rw [heq]
      exact hvalues
  settled h := h.2.2.2.2
  complete := by
    intro a b q h hnone
    rcases h.2.2.2.1 with hvalues | ⟨_, hreported⟩
    · exact hvalues
    · exact absurd hnone hreported
  change := by
    intro p d top spec _ hd hvar hspec hvalues
    have hnames := hd.holds hnamed fun hstage => absurd hstage (Nat.lt_irrefl 0)
    exact yields_giveZeros (hnames hvar spec hspec) hvalues

theorem contract (hsimple : traits .simpleHeaders) (hbranchElse : traits .branchElse)
    (hnamed : traits .namedSpecs) :
    transformer.NodeContract Fault.any env start (fun n => n.Has traits start) traits
      .initializedDecl :=
  (completion hnamed).contract (fun _ _ => trivial) (fun _ _ => trivial) (by decide) (by decide)
    hsimple hbranchElse

end Zero
end
end Desugar
