import Desugar.Proofs.Idempotence
import Desugar.Proofs.Prerequisites

/-!
# Files without violations

The rules find nothing to do in a file without violations, as long as it is known
what the operands are and no variable declaration groups several specs.  The check
looks at one spec at a time, so that it does not see a group.
-/

namespace Desugar

/-!
## The check in terms of nodes
-/

namespace Property

theorem mem_all (property : Property) : property ∈ all := by
  cases property <;> decide

theorem spec_of_violationsInSpecs_eq_nil {property : Property} {file : File}
    {broken : ValueSpec → Bool} {detail : String}
    (h : property.violationsInSpecs file broken detail = []) {d : Decl} {top : Bool}
    (hd : .decl d top ∈ file.nodes) (hvar : d.isVar = true) {spec : ValueSpec}
    (hspec : spec ∈ d.valueSpecs) : broken spec = false := by
  have hdecl := List.flatMap_eq_nil_iff.mp h _ hd
  dsimp only at hdecl
  rw [if_pos hvar, List.map_eq_nil_iff, List.filter_eq_nil_iff] at hdecl
  exact Bool.not_eq_true _ ▸ hdecl spec hspec

end Property

namespace File

variable {file : File} {table : SymbolTable}

theorem violations_eq_nil_of_check (h : file.check table Property.all = []) (property : Property) :
    property.violations file table = [] :=
  List.flatMap_eq_nil_iff.mp h property property.mem_all

theorem not_broken_of_check (h : file.check table Property.all = []) (property : Property)
    {broken : Node → Bool} {detail : String → String}
    (hnodes : property.violations file table = property.violationsAt file broken detail)
    {n : Node} (hn : n ∈ file.nodes) : broken n = false := by
  have hnone := violations_eq_nil_of_check h property
  rw [hnodes, Property.violationsAt_eq_nil_iff] at hnone
  exact hnone n hn

theorem complete_of_check (h : file.check table Property.all = []) {d : Decl} {top : Bool}
    (hd : .decl d top ∈ file.nodes) (hvar : d.isVar = true) {spec : ValueSpec}
    (hspec : spec ∈ d.valueSpecs) :
    spec.names.length = 1 ∧ spec.ty.isSome = true ∧ spec.values ≠ [] := by
  have hname := Property.spec_of_violationsInSpecs_eq_nil
    (violations_eq_nil_of_check h .singleNameDecl) hd hvar hspec
  have htype := Property.spec_of_violationsInSpecs_eq_nil
    (violations_eq_nil_of_check h .typedDecl) hd hvar hspec
  have hvalue := Property.spec_of_violationsInSpecs_eq_nil
    (violations_eq_nil_of_check h .initializedDecl) hd hvar hspec
  rw [bne_eq_false_iff_eq] at hname
  rw [Option.isNone_eq_false_iff] at htype
  rw [List.isEmpty_eq_false_iff] at hvalue
  exact ⟨hname, htype, hvalue⟩

end File

theorem File.check_reserve (file : File) (table : SymbolTable) (names : List String)
    (which : List Property) : file.check (table.reserve names) which = file.check table which := by
  have hgrown : table.BasicallyGrown (table.reserve names) := fun _ => .inl rfl
  have hderefs : Node.derefsImplicitly (table.reserve names) = Node.derefsImplicitly table := by
    funext n
    have hexpr : Expr.derefsImplicitly (table.reserve names) = Expr.derefsImplicitly table := by
      funext e
      unfold Expr.derefsImplicitly
      rw [hgrown.isPointerToArray, hgrown.implicitDeref]
      rfl
    unfold Node.derefsImplicitly
    rw [hexpr]
  unfold check Property.violations
  rw [hderefs]
  rfl

/-!
## Traits of files without violations
-/

/-- An expression whose operand has a type that is recorded, if the rules ask for
it. -/
def Expr.OnKnown (table : SymbolTable) : Expr → Prop
  | .index _ x _ => x.isType = false → ∃ ty, table.exprTypes[x.id]? = some ty
  | .slice _ x _ _ _ => x.isType = false → ∃ ty, table.exprTypes[x.id]? = some ty
  | .selector id x _ =>
    table.selections[id]? = some .field → ∃ ty, table.exprTypes[x.id]? = some ty
  | _ => True

def File.OperandsKnown (file : File) (table : SymbolTable) : Prop :=
  ∀ e, .expr e ∈ file.nodes → e.OnKnown table

/-- A file in which no variable declaration groups several specs. -/
def File.Ungrouped (file : File) : Prop :=
  ∀ d top, .decl d top ∈ file.nodes → d.isVar = true → d.specs.length ≤ 1

theorem Expr.explicit_of_onKnown {table : SymbolTable} {e : Expr} (hknown : e.OnKnown table)
    (h : e.derefsImplicitly table = false) : e.Explicit table := by
  have hoperand : ∀ x : Expr, (x.isType = false → ∃ ty, table.exprTypes[x.id]? = some ty) →
      (table.exprTypes[x.id]?).any table.isPointerToArray = false →
      x.isType = true ∨
        ∃ ty, table.exprTypes[x.id]? = some ty ∧ table.isPointerToArray ty = false := by
    intro x hx hany
    cases htype : x.isType with
    | true => exact .inl rfl
    | false =>
      rcases hx htype with ⟨ty, hty⟩
      rw [hty] at hany
      exact .inr ⟨ty, hty, hany⟩
  cases e with
  | index id x i | slice id x low high max => exact hoperand x hknown h
  | selector id x name =>
    intro hfield
    rcases hknown hfield with ⟨ty, hty⟩
    simp only [derefsImplicitly, hfield, hty, beq_self_eq_true, Bool.true_and,
      Option.any_some] at h
    exact ⟨ty, hty, h⟩
  | _ => trivial

theorem File.direct_of_check {file : File} {table : SymbolTable}
    (h : file.check table Property.all = []) {n : Node} (hn : n ∈ file.nodes) :
    n.Direct table := by
  have hderefs := not_broken_of_check h .explicitDeref (by rw [Property.violations]) hn
  cases n with
  | expr e =>
    cases e with
    | selector id x name =>
      intro hfield ty elem hty helem
      have himplicit : table.implicitDeref ty name = true := by
        unfold SymbolTable.implicitDeref
        rw [helem]
        rfl
      simp [Node.derefsImplicitly, Node.expr?, Expr.derefsImplicitly, hfield, hty,
        himplicit] at hderefs
    | _ => trivial
  | _ => trivial

namespace Pass

variable {p : Pass} (h : p.file.check p.table Property.all = [])

include h

theorem onStmt_of_check {trait : Trait} (hstage : 0 < trait.stage)
    {header : Bool} {s : Stmt} (hs : (if header then Node.header s else .stmt s) ∈ p.file.nodes) :
    trait.OnStmt p header s := by
  have hany : ∀ {broken : Stmt → Bool},
      (if header then Node.header s else .stmt s).stmt?.any broken = false → broken s = false := by
    intro broken hbroken
    cases header <;> exact hbroken
  cases trait with
  | taggedSwitch =>
    have htag := File.not_broken_of_check h .taggedSwitch (by rw [Property.violations]) hs
    replace htag := hany htag
    cases s with
    | switch id init tag clauses => exact Option.isNone_eq_false_iff.mp htag
    | _ => trivial
  | noControlInit =>
    have hinit := File.not_broken_of_check h .noControlInit (by rw [Property.violations]) hs
    exact hany hinit
  | conditionLoop =>
    have hloop := File.not_broken_of_check h .noThreeClauseLoop (by rw [Property.violations]) hs
    exact hany hloop
  | noShortDecl =>
    rintro rfl
    have hshort := File.not_broken_of_check h .noShortDecl (by rw [Property.violations]) hs
    cases s with
    | labeled id label inner => rfl
    | _ => exact hshort
  | singleTarget =>
    have hparallel :=
      File.not_broken_of_check h .singleTargetAssign (by rw [Property.violations]) hs
    replace hparallel := hany hparallel
    cases s with
    | assign id lhs op rhs =>
      cases op with
      | assign =>
        rintro rfl ⟨hseveral, hbalanced⟩
        simp only [Stmt.isParallel, Bool.and_eq_false_iff, decide_eq_false_iff_not,
          bne_eq_false_iff_eq] at hparallel
        omega
      | _ => trivial
    | _ => trivial
  | explicitDiscard =>
    cases s with
    | expr id x =>
      rintro rfl
      have hnode := File.not_broken_of_check h .explicitDiscard (by rw [Property.violations]) hs
      have hdiscards : (Stmt.expr id x).discardsValue p.table = false := hnode
      cases hty : p.table.exprTypes[x.id]? with
      | none => simp [Stmt.discardsValue, hty] at hdiscards
      | some ty =>
        simp only [Stmt.discardsValue, hty, bne_eq_false_iff_eq] at hdiscards
        exact ⟨ty, rfl, hdiscards⟩
    | _ => trivial
  | explicitDeref | singleName | typedDecl | initializedDecl => cases s <;> trivial
  | _ => cases hstage

theorem onDecl_of_check (hungrouped : p.file.Ungrouped) {trait : Trait} (hstage : 0 < trait.stage)
    {d : Decl} {top : Bool} (hd : .decl d top ∈ p.file.nodes) : trait.OnDecl p d := by
  cases trait with
  | singleName =>
    cases hvar : d.isVar with
    | false => simp [Trait.OnDecl, Split.needsSplit, hvar]
    | true =>
      have hgroup := hungrouped d top hd hvar
      simp only [Trait.OnDecl, Split.needsSplit, hvar, Bool.true_and, Bool.or_eq_false_iff,
        decide_eq_false_iff_not, List.any_eq_false, decide_eq_true_eq]
      constructor
      · omega
      · intro spec hspec
        rw [(File.complete_of_check h hd hvar hspec).1]
        omega
  | typedDecl => exact fun hvar spec hspec => (File.complete_of_check h hd hvar hspec).2.1
  | initializedDecl => exact fun hvar spec hspec => (File.complete_of_check h hd hvar hspec).2.2
  | bounded | simpleHeaders | branchElse | balancedAssign | singleCompound | narrowHeaders
  | namedSpecs | valueOperands => cases hstage
  | _ => trivial

theorem isDone_of_check (hknown : p.file.OperandsKnown p.table)
    (hungrouped : p.file.Ungrouped) : p.IsDone := by
  intro n hn trait hstage
  cases n with
  | expr e =>
    cases trait with
    | explicitDeref =>
      have hderefs := File.not_broken_of_check h .explicitDeref (by rw [Property.violations]) hn
      exact Expr.explicit_of_onKnown (hknown e hn) hderefs
    | bounded | valueOperands => cases hstage
    | _ => trivial
  | stmt s =>
    have hs : (if false then Node.header s else .stmt s) ∈ p.file.nodes := hn
    exact onStmt_of_check h hstage hs
  | header s =>
    have hs : (if true then Node.header s else .stmt s) ∈ p.file.nodes := hn
    exact onStmt_of_check h hstage hs
  | decl d top => exact onDecl_of_check h hungrouped hstage hn
  | func fn =>
    cases trait with
    | bounded => cases hstage
    | _ => trivial
  | block b => trivial

end Pass

/-!
## Runs
-/

/-- A run on a file without violations whose operands have types makes no change
and reports nothing, if no variable declaration groups several specs.  A group is
always split, so that it is the only thing the check does not see. -/
theorem Pipeline.run_changes_nothing_of_check {file : File} {table : SymbolTable}
    {ids : NodeSupply} (hids : NodeSupply.after? (file.maxId.larger table.maxNode) = some ids)
    (hnodes : ∀ n ∈ file.nodes, n.WellFormed) (hknown : file.OperandsKnown table)
    (hcheck : file.check table Property.all = []) :
    let run := Pipeline.default.run file table
    let idle := ∃ report, run.result = .ok report ∧ report.success = true ∧ report.changes = 0 ∧
      report.diagnostics = [] ∧ run.file = file ∧
        { run.table with reserved := table.reserved } = table
    (file.Ungrouped → idle) ∧ (table.Closed → idle → file.Ungrouped) := by
  intro run idle
  constructor
  · intro hungrouped
    have hcheck' : file.check (table.reserve file.spelledNames) Property.all = [] :=
      (file.check_reserve table file.spelledNames Property.all).trans hcheck
    have hdone : (Progress.start
        ⟨file, table.reserve file.spelledNames, ids, ⟨[], []⟩⟩).IsDone :=
      Pass.isDone_of_check hcheck' hknown hungrouped
    have hrules : ∀ rule ∈ Pipeline.default.rules, rule ∈ Rule.catalog := fun _ hrule => hrule
    rcases run_of_isDone hrules rfl hids hdone with
      ⟨report, hrun, hsuccess, hchanges, hdiagnostics⟩
    refine ⟨report, ?_, hsuccess, hchanges, hdiagnostics, ?_, ?_⟩
    · exact congrArg RunResult.result hrun
    · exact congrArg RunResult.file hrun
    · rw [show run.table = table.reserve file.spelledNames from congrArg RunResult.table hrun]
      rfl
  · rintro hclosed ⟨report, hrun, hsuccess, _, hdiagnostics, hfile, _⟩ d top hd hvar
    have hbase : ∀ n ∈ file.nodes, ∀ trait : Trait, trait.stage = 0 → trait.WellFormed →
        trait ≠ .bounded → ∀ p : Pass, trait.Holds p n := by
      intro n hn trait _ htrait hbounded p
      exact Trait.holds_of_wellFormed htrait hbounded (hnodes n hn) p
    have hdirect : ∀ n ∈ file.nodes, n.Direct table := fun _ hn => File.direct_of_check hcheck hn
    rcases atStage_of_clean_run Trait.base_wellFormed hbase hdirect hclosed hrun hsuccess
      hdiagnostics with ⟨left, hleft, _, hlast⟩
    have hd' : .decl d top ∈ left.file.nodes := by
      rw [← hleft]
      exact hfile.symm ▸ hd
    have hsplit : Split.needsSplit d = false :=
      hlast.isDone rfl _ hd' .singleName (Nat.succ_pos _)
    simp only [Split.needsSplit, hvar, Bool.true_and, Bool.or_eq_false_iff,
      decide_eq_false_iff_not] at hsplit
    omega

/-- A variable that takes an element of a slice, with identities from a first one
on. -/
def elementSpec (first : UInt32) (name : String) : Spec :=
  .value ⟨⟨first⟩, [⟨⟨first + 1⟩, name⟩], some (.named "int"),
    [.index ⟨first + 2⟩ (.ident ⟨first + 3⟩ "a") (.lit ⟨first + 4⟩ (.int "0"))]⟩

/-- Two variables, declared together or one after the other. -/
def elementFile (grouped : Bool) : File :=
  let decls : List Decl :=
    if grouped then [⟨⟨1⟩, .var, [elementSpec 3 "x", elementSpec 8 "y"]⟩]
    else [⟨⟨1⟩, .var, [elementSpec 3 "x"]⟩, ⟨⟨2⟩, .var, [elementSpec 8 "y"]⟩]
  ⟨⟨0⟩, "main", "", [], decls.map .decl⟩

def elementTable : SymbolTable :=
  { SymbolTable.empty with
    types := #[.basic .int, .slice ⟨0⟩]
    exprTypes := ((((((∅ : NodeMap TypeId).insert ⟨5⟩ ⟨0⟩).insert ⟨6⟩ ⟨1⟩).insert ⟨7⟩ ⟨0⟩).insert
      ⟨10⟩ ⟨0⟩).insert ⟨11⟩ ⟨1⟩).insert ⟨12⟩ ⟨0⟩
    defs := ((∅ : NodeMap BindingId).insert ⟨4⟩ ⟨0⟩).insert ⟨9⟩ ⟨1⟩
    scopes := #[⟨none, []⟩, ⟨some ⟨0⟩, [("x", ⟨0⟩), ("y", ⟨1⟩)]⟩]
    bindings := #[⟨"x", some ⟨0⟩, ⟨1⟩, .var, false⟩, ⟨"y", some ⟨0⟩, ⟨1⟩, .var, false⟩] }

theorem after?_elementFile (grouped : Bool) :
    NodeSupply.after? ((elementFile grouped).maxId.larger elementTable.maxNode) = some ⟨13⟩ := by
  cases grouped <;>
    exact NodeSupply.after?_of_largest 12 (by decide) (by decide) (by decide)
      (by decide)

theorem elementFile_wellFormed (grouped : Bool) :
    ∀ n ∈ (elementFile grouped).nodes, n.WellFormed := by
  cases grouped <;>
    simp [elementFile, elementSpec, File.nodes, TopDecl.nodes, Decl.nodes, Specs.nodes,
      Exprs.nodes, Expr.nodes, Node.WellFormed, Decl.isVar, Decl.valueSpecs, forall_and]

theorem elementFile_operandsKnown (grouped : Bool) :
    (elementFile grouped).OperandsKnown elementTable := by
  cases grouped <;>
    simp [File.OperandsKnown, elementFile, elementSpec, File.nodes, TopDecl.nodes, Decl.nodes,
      Specs.nodes, Exprs.nodes, Expr.nodes, Expr.OnKnown, Expr.isType, Expr.id, elementTable]

/-- Declarations that are apart stay as they are. -/
theorem elementFile_apart_unchanged :
    (∀ n ∈ (elementFile false).nodes, n.WellFormed) ∧
      (elementFile false).OperandsKnown elementTable ∧
      (elementFile false).check elementTable Property.all = [] ∧ (elementFile false).Ungrouped ∧
      ∃ report, (Pipeline.default.run (elementFile false) elementTable).result = .ok report ∧
        report.success = true ∧ report.changes = 0 ∧ report.diagnostics = [] ∧
        (Pipeline.default.run (elementFile false) elementTable).file = elementFile false := by
  have hcheck : (elementFile false).check elementTable Property.all = [] := by decide
  have hungrouped : (elementFile false).Ungrouped := by
    simp [File.Ungrouped, elementFile, elementSpec, File.nodes, TopDecl.nodes, Decl.nodes,
      Specs.nodes, Exprs.nodes, Expr.nodes]
  rcases (Pipeline.run_changes_nothing_of_check (after?_elementFile false)
    (elementFile_wellFormed false) (elementFile_operandsKnown false) hcheck).1 hungrouped with
    ⟨report, hrun, hsuccess, hchanges, hdiagnostics, hfile, _⟩
  exact ⟨elementFile_wellFormed false, elementFile_operandsKnown false, hcheck, hungrouped, report,
    hrun, hsuccess, hchanges, hdiagnostics, hfile⟩

/-- A group without violations is split nevertheless. -/
theorem elementFile_grouped_split :
    (∀ n ∈ (elementFile true).nodes, n.WellFormed) ∧
      (elementFile true).OperandsKnown elementTable ∧
      (elementFile true).check elementTable Property.all = [] ∧
      (Pipeline.default.run (elementFile true) elementTable).isClean = true ∧
      (Pipeline.default.run (elementFile true) elementTable).result.toOption.map Report.changes =
        some 1 ∧
      (Pipeline.default.run (elementFile true) elementTable).file ≠ elementFile true := by
  refine ⟨elementFile_wellFormed true, elementFile_operandsKnown true, by decide +kernel, ?_, ?_,
    ?_⟩
  · rw [Pipeline.run_eq_of_ids (after?_elementFile true)]
    decide +kernel
  · rw [Pipeline.run_eq_of_ids (after?_elementFile true)]
    decide +kernel
  · intro hsame
    have hcount := congrArg (fun file : File => file.decls.length) hsame
    rw [Pipeline.run_eq_of_ids (after?_elementFile true)] at hcount
    revert hcount
    decide +kernel

end Desugar
