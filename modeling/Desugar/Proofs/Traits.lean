import Desugar.Declaration.Split
import Desugar.NormalForm.Check
import Desugar.Proofs.Walk

/-!
# Traits of nodes

A trait is something that can be told from a single node and what the table
records about it.  Some traits are brought along by every well-formed file; each
of the others is established by one rule and says that the rule finds nothing to
do at the node.  The stage of a trait is the place of its rule in the default
order.
-/

namespace Desugar

inductive Trait where
  /-- The identities that other traits look up have been drawn. -/
  | bounded
  /-- Statements in headers are simple. -/
  | simpleHeaders
  /-- An else is followed by an if or a block. -/
  | branchElse
  /-- An assignment has a source for each target, or one source. -/
  | balancedAssign
  /-- A compound assignment has one target. -/
  | singleCompound
  /-- Guards and communications have at most one source. -/
  | narrowHeaders
  /-- A spec of a variable declaration has a name. -/
  | namedSpecs
  /-- What is indexed or sliced is not a type. -/
  | valueOperands
  | explicitDeref
  | taggedSwitch
  | noControlInit
  | conditionLoop
  | singleName
  | typedDecl
  | initializedDecl
  | noShortDecl
  | singleTarget
  | explicitDiscard
deriving DecidableEq

namespace Trait

/-- The place of the rule that establishes a trait; zero for what every
well-formed file brings along. -/
def stage : Trait → Nat
  | .explicitDeref => 1
  | .taggedSwitch => 2
  | .noControlInit => 3
  | .conditionLoop => 4
  | .singleName => 5
  | .typedDecl => 6
  | .initializedDecl => 7
  | .noShortDecl => 8
  | .singleTarget => 9
  | .explicitDiscard => 10
  | _ => 0

theorem stage_le (trait : Trait) : trait.stage ≤ 10 := by
  cases trait <;> decide

end Trait

def Expr.Explicit (table : SymbolTable) : Expr → Prop
  | .index _ x _ => x.isType = true ∨
      ∃ ty, table.exprTypes[x.id]? = some ty ∧ table.isPointerToArray ty = false
  | .slice _ x _ _ _ => x.isType = true ∨
      ∃ ty, table.exprTypes[x.id]? = some ty ∧ table.isPointerToArray ty = false
  | .selector id x name => table.selections[id]? = some .field →
      ∃ ty, table.exprTypes[x.id]? = some ty ∧ table.implicitDeref ty name = false
  | _ => True

namespace Trait

def OnExpr (p : Pass) : Trait → Expr → Prop
  | .bounded, e => ∀ id ∈ e.shownIds, id.Below p.ids.count
  | .valueOperands, .index _ x _ => x.isType = false
  | .valueOperands, .slice _ x _ _ _ => x.isType = false
  | .explicitDeref, e => e.Explicit p.table
  | _, _ => True

def OnStmt (p : Pass) (header : Bool) : Trait → Stmt → Prop
  | .bounded, s => ∀ id ∈ s.shownIds, id.Below p.ids.count
  | .simpleHeaders, s => header = true → s.isSimple = true
  | .branchElse, .ifElse _ _ _ _ els => ∀ s ∈ els, s.isBranch = true
  | .balancedAssign, .assign _ lhs _ rhs => rhs.length = lhs.length ∨ rhs.length = 1
  | .singleCompound, .assign _ lhs (.compound _) _ => lhs.length = 1
  | .narrowHeaders, .typeSwitch _ _ guard _ => guard.sources ≤ 1
  | .narrowHeaders, .select _ clauses => ∀ clause ∈ clauses, ∀ s ∈ clause.comm, s.sources ≤ 1
  | .taggedSwitch, .switch _ _ tag _ => tag.isSome = true
  | .noControlInit, s => s.hasControlInit = false
  | .conditionLoop, s => s.isThreeClauseLoop = false
  | .noShortDecl, s => header = false → s.isShortDecl = false
  | .singleTarget, .assign _ lhs .assign rhs =>
    header = false → ¬ (1 < lhs.length ∧ lhs.length = rhs.length)
  | .explicitDiscard, .expr _ x => header = false →
      ∃ ty, p.table.exprTypes[x.id]? = some ty ∧ p.table.ty ty = .tuple []
  | _, _ => True

def OnDecl (p : Pass) : Trait → Decl → Prop
  | .bounded, d => ∀ id ∈ d.shownIds, id.Below p.ids.count
  | .namedSpecs, d => d.isVar = true → ∀ spec ∈ d.valueSpecs, spec.names ≠ []
  | .singleName, d => Split.needsSplit d = false
  | .typedDecl, d => d.isVar = true → ∀ spec ∈ d.valueSpecs, spec.ty.isSome = true
  | .initializedDecl, d => d.isVar = true → ∀ spec ∈ d.valueSpecs, spec.values ≠ []
  | _, _ => True

def OnFunc (p : Pass) : Trait → Func → Prop
  | .bounded, fn => ∀ id ∈ fn.shownIds, id.Below p.ids.count
  | _, _ => True

def Holds (p : Pass) (trait : Trait) : Node → Prop
  | .expr e => trait.OnExpr p e
  | .stmt s => trait.OnStmt p false s
  | .header s => trait.OnStmt p true s
  | .decl d _ => trait.OnDecl p d
  | .func fn => trait.OnFunc p fn
  | .block _ => True

theorem Holds.on_stmt {p : Pass} {trait : Trait} {n : Node} (h : trait.Holds p n) {s : Stmt}
    (hs : n.stmt? = some s) : ∃ header, trait.OnStmt p header s := by
  cases n with
  | stmt s' =>
    cases hs
    exact ⟨false, h⟩
  | header s' =>
    cases hs
    exact ⟨true, h⟩
  | _ => cases hs

/-!
## Traits survive changes of the parts
-/

theorem onExpr_outline (p : Pass) (trait : Trait) (e : Expr) :
    trait.OnExpr p e.outline ↔ trait.OnExpr p e := by
  cases trait with
  | bounded => simp [OnExpr, Expr.shownIds_outline]
  | valueOperands => cases e <;> simp [OnExpr, Expr.outline]
  | explicitDeref => cases e <;> simp [OnExpr, Expr.outline, Expr.Explicit]
  | _ => exact Iff.rfl

theorem onExpr_of_outline_eq {p : Pass} {trait : Trait} {e₀ e : Expr}
    (hsame : e.outline = e₀.outline) (h : trait.OnExpr p e₀) : trait.OnExpr p e := by
  rw [← onExpr_outline, hsame, onExpr_outline]
  exact h

theorem onStmt_face (p : Pass) (header : Bool) {trait : Trait} (htrait : trait ≠ .taggedSwitch)
    (s : Stmt) : trait.OnStmt p header s.face ↔ trait.OnStmt p header s := by
  cases trait with
  | taggedSwitch => exact absurd rfl htrait
  | bounded => simp [OnStmt, Stmt.shownIds_face]
  | simpleHeaders => simp [OnStmt]
  | branchElse | balancedAssign | narrowHeaders
  | explicitDiscard => cases s <;> simp [OnStmt, Stmt.face]
  | singleCompound | singleTarget =>
    cases s with
    | assign id lhs op rhs => cases op <;> simp [OnStmt, Stmt.face]
    | _ => exact Iff.rfl
  | noControlInit => cases s <;> simp [OnStmt, Stmt.face, Stmt.hasControlInit]
  | conditionLoop => cases s <;> simp [OnStmt, Stmt.face, Stmt.isThreeClauseLoop]
  | noShortDecl =>
    cases s with
    | assign id lhs op rhs => cases op <;> simp [OnStmt, Stmt.face, Stmt.isShortDecl]
    | _ => simp [OnStmt, Stmt.face, Stmt.isShortDecl]
  | _ => cases s <;> exact Iff.rfl

theorem onStmt_of_face_eq {p : Pass} {header : Bool} {trait : Trait}
    (htrait : trait ≠ .taggedSwitch) {s₀ s : Stmt} (hsame : s.face = s₀.face)
    (h : trait.OnStmt p header s₀) : trait.OnStmt p header s := by
  rw [← onStmt_face p header htrait, hsame, onStmt_face p header htrait]
  exact h

theorem valueSpecs_outline (d : Decl) :
    d.outline.valueSpecs = d.valueSpecs.map fun spec =>
      ⟨spec.id, spec.names, spec.ty, spec.values.map Expr.face⟩ := by
  rcases d with ⟨id, kind, specs⟩
  simp only [Decl.valueSpecs, Decl.outline]
  induction specs with
  | nil => rfl
  | cons spec rest ih => cases spec <;> simp [Spec.outline, ih]

theorem onDecl_outline (p : Pass) (trait : Trait) (d : Decl) :
    trait.OnDecl p d.outline ↔ trait.OnDecl p d := by
  have hvar : d.outline.isVar = d.isVar := rfl
  have hlength : d.outline.specs.length = d.specs.length := by simp [Decl.outline]
  cases trait with
  | bounded => simp [OnDecl, Decl.shownIds_outline]
  | singleName => simp [OnDecl, Split.needsSplit, hvar, hlength, valueSpecs_outline]
  | _ => simp [OnDecl, hvar, valueSpecs_outline]

theorem onDecl_of_outline_eq {p : Pass} {trait : Trait} {d₀ d : Decl}
    (hsame : d.outline = d₀.outline) (h : trait.OnDecl p d₀) : trait.OnDecl p d := by
  rw [← onDecl_outline, hsame, onDecl_outline]
  exact h

theorem onFunc_outline (p : Pass) (trait : Trait) (fn : Func) :
    trait.OnFunc p fn.outline ↔ trait.OnFunc p fn := by
  cases trait with
  | bounded => simp [OnFunc, Func.shownIds_outline]
  | _ => exact Iff.rfl

theorem onFunc_of_outline_eq {p : Pass} {trait : Trait} {fn₀ fn : Func}
    (hsame : fn.outline = fn₀.outline) (h : trait.OnFunc p fn₀) : trait.OnFunc p fn := by
  rw [← onFunc_outline, hsame, onFunc_outline]
  exact h

/-!
## Traits that come for free
-/

theorem onStmt_of_isSimple {p : Pass} {trait : Trait} {s : Stmt} (htrait : 0 < trait.stage)
    (hs : s.isSimple = true) : trait.OnStmt p true s := by
  cases trait with
  | taggedSwitch => cases s <;> simp_all [OnStmt, Stmt.isSimple]
  | noControlInit => cases s <;> simp_all [OnStmt, Stmt.isSimple, Stmt.hasControlInit]
  | conditionLoop => cases s <;> simp_all [OnStmt, Stmt.isSimple, Stmt.isThreeClauseLoop]
  | noShortDecl =>
    intro hheader
    cases hheader
  | singleTarget =>
    cases s with
    | assign id lhs op rhs => cases op <;> simp [OnStmt]
    | _ => simp [OnStmt]
  | explicitDiscard => cases s <;> simp [OnStmt]
  | bounded | simpleHeaders | branchElse | balancedAssign | singleCompound | narrowHeaders
  | namedSpecs | valueOperands => exact absurd htrait (Nat.lt_irrefl 0)
  | _ => cases s <;> trivial

theorem onStmt_of_isBranch {p : Pass} {trait : Trait} {s : Stmt} (htrait : 0 < trait.stage)
    (hinit : trait ≠ .noControlInit) (hs : s.isBranch = true) : trait.OnStmt p false s := by
  cases trait with
  | noControlInit => exact absurd rfl hinit
  | taggedSwitch | singleTarget | explicitDiscard => cases s <;> simp_all [OnStmt, Stmt.isBranch]
  | conditionLoop => cases s <;> simp_all [OnStmt, Stmt.isBranch, Stmt.isThreeClauseLoop]
  | noShortDecl => cases s <;> simp_all [OnStmt, Stmt.isBranch, Stmt.isShortDecl]
  | bounded | simpleHeaders | branchElse | balancedAssign | singleCompound | narrowHeaders
  | namedSpecs | valueOperands => exact absurd htrait (Nat.lt_irrefl 0)
  | _ => cases s <;> trivial

def With (traits : Trait → Prop) (more : Trait) (trait : Trait) : Prop :=
  traits trait ∨ trait = more

theorem not_with {traits : Trait → Prop} {more trait : Trait} {bound : Nat}
    (hstage : ∀ trait, traits trait → trait.stage < bound) (hlate : bound ≤ trait.stage)
    (hne : trait ≠ more) : ¬ With traits more trait := by
  rintro (h | h)
  · exact absurd (hstage _ h) (Nat.not_lt.mpr hlate)
  · exact hne h

end Trait

/-- Whether a node has some traits from a state on.  What a rule establishes is
promised only as long as no problem is reported. -/
def Node.Has (traits : Trait → Prop) (p : Pass) (n : Node) : Prop :=
  ∀ q, p.Grows q → ∀ trait, traits trait → (0 < trait.stage → q.diagnostics = []) →
    trait.Holds q n

abbrev Node.AllHave (traits : Trait → Prop) : Pass → List Node → Prop :=
  All fun p n => n.Has traits p

namespace Node.Has

variable {traits : Trait → Prop} {p q : Pass} {n : Node}

theorem mono (hgrows : p.Grows q) (h : n.Has traits p) : n.Has traits q :=
  fun r hr => h r (hgrows.trans hr)

theorem all_mono {nodes : List Node} (hgrows : p.Grows q) (h : AllHave traits p nodes) :
    AllHave traits q nodes :=
  fun n hn => (h n hn).mono hgrows

theorem holds (h : n.Has traits p) {trait : Trait} (htrait : traits trait)
    (hp : 0 < trait.stage → p.diagnostics = []) : trait.Holds p n :=
  h p (.refl p) trait htrait hp

theorem with_trait (h : n.Has traits p) {more : Trait}
    (hmore : ∀ q, p.Grows q → (0 < more.stage → q.diagnostics = []) → more.Holds q n) :
    n.Has (Trait.With traits more) p := by
  intro q hq trait htrait hdiagnostics
  rcases htrait with htrait | rfl
  · exact h q hq trait htrait hdiagnostics
  · exact hmore q hq hdiagnostics

theorem of_with {more : Trait} (h : n.Has (Trait.With traits more) p) : n.Has traits p :=
  fun q hq trait htrait => h q hq trait (.inl htrait)

theorem of_forall (h : ∀ q, p.Grows q → ∀ trait, traits trait → trait.Holds q n) :
    n.Has traits p :=
  fun q hq trait htrait _ => h q hq trait htrait

theorem expr_of_outline_eq {e₀ e : Expr} (h : (Node.expr e₀).Has traits p)
    (hsame : e.outline = e₀.outline) : (Node.expr e).Has traits p :=
  fun q hq trait htrait hdiagnostics =>
    Trait.onExpr_of_outline_eq hsame (h q hq trait htrait hdiagnostics)

theorem decl_of_outline_eq {d₀ d : Decl} {top : Bool} (h : (Node.decl d₀ top).Has traits p)
    (hsame : d.outline = d₀.outline) : (Node.decl d top).Has traits p :=
  fun q hq trait htrait hdiagnostics =>
    Trait.onDecl_of_outline_eq hsame (h q hq trait htrait hdiagnostics)

theorem func_of_outline_eq {fn₀ fn : Func} (h : (Node.func fn₀).Has traits p)
    (hsame : fn.outline = fn₀.outline) : (Node.func fn).Has traits p :=
  fun q hq trait htrait hdiagnostics =>
    Trait.onFunc_of_outline_eq hsame (h q hq trait htrait hdiagnostics)

theorem stmt_of_face_eq {s₀ s : Stmt} (h : (Node.stmt s₀).Has traits p)
    (hsame : s.face = s₀.face)
    (htag : traits .taggedSwitch → p.diagnostics = [] → s.TagIs (fun tag => tag.isSome = true)) :
    (Node.stmt s).Has traits p := by
  intro q hq trait htrait hdiagnostics
  by_cases hswitch : trait = .taggedSwitch
  · subst hswitch
    have htag' := htag htrait (hq.no_diagnostics (hdiagnostics (by decide)))
    cases s with
    | switch id init tag clauses => exact htag'
    | _ => trivial
  · exact Trait.onStmt_of_face_eq hswitch hsame (h q hq trait htrait hdiagnostics)

theorem header_of_face_eq {s₀ s : Stmt} (hsimple : traits .simpleHeaders)
    (h : (Node.header s₀).Has traits p) (hsame : s.face = s₀.face) :
    (Node.header s).Has traits p ∧ s.isSimple = true := by
  have hs₀ : s₀.isSimple = true :=
    h.holds hsimple (fun hstage => absurd hstage (Nat.lt_irrefl 0)) rfl
  have hs : s.isSimple = true := by
    rw [← Stmt.isSimple_face, hsame, Stmt.isSimple_face]
    exact hs₀
  refine ⟨?_, hs⟩
  intro q hq trait htrait hdiagnostics
  by_cases hstage : 0 < trait.stage
  · exact Trait.onStmt_of_isSimple hstage hs
  · have hswitch : trait ≠ .taggedSwitch := by
      intro heq
      subst heq
      exact hstage (by decide)
    exact Trait.onStmt_of_face_eq hswitch hsame (h q hq trait htrait hdiagnostics)

end Node.Has

theorem Stmt.attached_of_isSimple {s : Stmt} (hs : s.isSimple = true) : s.attached = [] := by
  cases s <;> simp_all [Stmt.isSimple, Stmt.attached]

end Desugar
