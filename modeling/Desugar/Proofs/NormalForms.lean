import Desugar.Proofs.WellFormed

/-!
# Normal forms

A file whose nodes have the traits of all rules is in normal form.  So a clean
run of the default order brings every regular file into normal form, if the
types of its table are closed.
-/

namespace Desugar

open Node (All)

/-!
## From traits to properties
-/

namespace Property

theorem violationsAt_eq_nil_iff {property : Property} {file : File} {broken : Node → Bool}
    {detail : String → String} : property.violationsAt file broken detail = [] ↔
      ∀ n ∈ file.nodes, broken n = false := by
  unfold violationsAt
  rw [List.map_eq_nil_iff, List.filter_eq_nil_iff]
  simp only [Bool.not_eq_true]

theorem violationsInSpecs_eq_nil {property : Property} {file : File} {broken : ValueSpec → Bool}
    {detail : String} (h : ∀ d top, .decl d top ∈ file.nodes → d.isVar = true →
      ∀ spec ∈ d.valueSpecs, broken spec = false) :
    property.violationsInSpecs file broken detail = [] := by
  unfold violationsInSpecs
  apply List.flatMap_eq_nil_iff.mpr
  intro n hn
  cases n with
  | decl d top =>
    dsimp only
    split
    · rename_i hvar
      rw [List.filter_eq_nil_iff.mpr, List.map_nil]
      intro spec hspec
      rw [h d top hn hvar spec hspec]
      exact Bool.false_ne_true
    · rfl
  | _ => rfl

end Property

def Pass.Shows (p : Pass) (trait : Trait) : Prop :=
  ∀ n ∈ p.file.nodes, trait.Holds p n

theorem Node.any_stmt?_eq_false {n : Node} {broken : Stmt → Bool}
    (h : ∀ s, n.stmt? = some s → broken s = false) : n.stmt?.any broken = false := by
  cases hs : n.stmt? with
  | none => rfl
  | some s => exact h s hs

namespace Pass.Shows

variable {p : Pass} {n : Node}

theorem not_derefsImplicitly (h : p.Shows .explicitDeref) (hvalues : p.Shows .valueOperands)
    (hn : n ∈ p.file.nodes) : n.derefsImplicitly p.table = false := by
  have harray : ∀ x : Expr, x.isType = false → (x.isType = true ∨
      ∃ ty, p.table.exprTypes[x.id]? = some ty ∧ p.table.isPointerToArray ty = false) →
      (p.table.exprTypes[x.id]?).any p.table.isPointerToArray = false := by
    intro x hx hknown
    rcases hknown with htype | ⟨ty, hty, hform⟩
    · rw [hx] at htype
      cases htype
    · rw [hty]
      exact hform
  cases n with
  | expr e =>
    have hexplicit : e.Explicit p.table := h _ hn
    have hvalue : Trait.valueOperands.OnExpr p e := hvalues _ hn
    show e.derefsImplicitly p.table = false
    cases e with
    | index id x i | slice id x low high max => exact harray x hvalue hexplicit
    | selector id x name =>
      simp only [Expr.derefsImplicitly]
      by_cases hfield : p.table.selections[id]? = some .field
      · rcases hexplicit hfield with ⟨ty, hty, hform⟩
        rw [hty, Option.any_some, hform, Bool.and_false]
      · have hother : (p.table.selections[id]? == some .field) = false := by
          rw [beq_eq_false_iff_ne]
          exact hfield
        rw [hother, Bool.false_and]
    | _ => rfl
  | _ => rfl

theorem not_isTaglessSwitch (h : p.Shows .taggedSwitch) (hn : n ∈ p.file.nodes) :
    n.isTaglessSwitch = false := by
  apply Node.any_stmt?_eq_false
  intro s hs
  rcases (h n hn).on_stmt hs with ⟨_, htag⟩
  cases s with
  | switch id init tag clauses =>
    have hsome : tag.isSome = true := htag
    cases tag with
    | none => cases hsome
    | some tag => rfl
  | _ => rfl

theorem not_hasControlInit (h : p.Shows .noControlInit) (hn : n ∈ p.file.nodes) :
    n.hasControlInit = false := by
  apply Node.any_stmt?_eq_false
  intro s hs
  rcases (h n hn).on_stmt hs with ⟨_, hnone⟩
  exact hnone

theorem not_isThreeClauseLoop (h : p.Shows .conditionLoop) (hn : n ∈ p.file.nodes) :
    n.isThreeClauseLoop = false := by
  apply Node.any_stmt?_eq_false
  intro s hs
  rcases (h n hn).on_stmt hs with ⟨_, hnone⟩
  exact hnone

theorem not_discardsValue (h : p.Shows .explicitDiscard) (hn : n ∈ p.file.nodes) :
    n.discardsValue p.table = false := by
  cases n with
  | stmt s =>
    cases s with
    | expr id x =>
      rcases h _ hn rfl with ⟨ty, hty, hform⟩
      simp only [Node.discardsValue, Stmt.discardsValue, hty, hform]
      rfl
    | _ => rfl
  | _ => rfl

theorem header_sources_le_one (h : p.Shows .narrowHeaders)
    (hinit : ∀ n ∈ p.file.nodes, n.hasControlInit = false)
    (hloop : ∀ n ∈ p.file.nodes, n.isThreeClauseLoop = false) {s : Stmt}
    (hs : .header s ∈ p.file.nodes) : s.sources ≤ 1 := by
  rcases p.file.layout.owned s hs with hout | ⟨n, hn, owner, howner, hmem⟩
  · cases hout
  · have hinit := hinit n hn
    have hloop := hloop n hn
    rw [Node.hasControlInit, howner, Option.any_some] at hinit
    rw [Node.isThreeClauseLoop, howner, Option.any_some] at hloop
    rcases (h n hn).on_stmt howner with ⟨_, hnarrow⟩
    cases owner with
    | ifElse id init cond body els | switch id init tag clauses =>
      cases init with
      | none => cases hmem
      | some init => cases hinit
    | typeSwitch id init guard clauses =>
      cases init with
      | none =>
        rw [List.mem_singleton.mp hmem]
        exact hnarrow
      | some init => cases hinit
    | select id clauses =>
      rcases List.mem_filterMap.mp hmem with ⟨clause, hclause, hcomm⟩
      exact hnarrow clause hclause s hcomm
    | forLoop id init cond post body =>
      cases init with
      | none =>
        cases post with
        | none => cases hmem
        | some post => cases hloop
      | some init => cases hloop
    | _ => cases hmem

theorem not_isParallel_header (h : p.Shows .balancedAssign) {s : Stmt}
    (hs : .header s ∈ p.file.nodes) (hfew : s.sources ≤ 1) : s.isParallel = false := by
  cases s with
  | assign id lhs op rhs =>
    have hbalanced : rhs.length = lhs.length ∨ rhs.length = 1 := h _ hs
    have hfew : rhs.length ≤ 1 := hfew
    rcases hbalanced with hsame | hone
    · have hnot : ¬ 1 < lhs.length := by omega
      simp [Stmt.isParallel, hnot]
    · simp [Stmt.isParallel, hone]
  | _ => rfl

/-!
Properties that are told from single nodes.
-/

theorem violations_explicitDeref (h : p.Shows .explicitDeref) (hvalues : p.Shows .valueOperands) :
    Property.explicitDeref.violations p.file p.table = [] := by
  rw [Property.violations, Property.violationsAt_eq_nil_iff]
  exact fun _ hn => h.not_derefsImplicitly hvalues hn

theorem violations_taggedSwitch (h : p.Shows .taggedSwitch) :
    Property.taggedSwitch.violations p.file p.table = [] := by
  rw [Property.violations, Property.violationsAt_eq_nil_iff]
  exact fun _ hn => h.not_isTaglessSwitch hn

theorem violations_noControlInit (h : p.Shows .noControlInit) :
    Property.noControlInit.violations p.file p.table = [] := by
  rw [Property.violations, Property.violationsAt_eq_nil_iff]
  exact fun _ hn => h.not_hasControlInit hn

theorem violations_noThreeClauseLoop (h : p.Shows .conditionLoop) :
    Property.noThreeClauseLoop.violations p.file p.table = [] := by
  rw [Property.violations, Property.violationsAt_eq_nil_iff]
  exact fun _ hn => h.not_isThreeClauseLoop hn

theorem violations_explicitDiscard (h : p.Shows .explicitDiscard) :
    Property.explicitDiscard.violations p.file p.table = [] := by
  rw [Property.violations, Property.violationsAt_eq_nil_iff]
  exact fun _ hn => h.not_discardsValue hn

end Pass.Shows

def Pass.IsNormal (p : Pass) : Prop :=
  ∀ n ∈ p.file.nodes, ∀ trait : Trait, trait.Holds p n

theorem Pass.AtStage.isNormal {p : Pass} (h : p.AtStage Trait.Regular 10)
    (hdiagnostics : p.diagnostics = []) : p.IsNormal := by
  intro n hn trait
  apply (h.nodes n hn).holds _ fun _ => hdiagnostics
  by_cases hzero : trait.stage = 0
  · exact .of_base hzero trivial
  · exact .inr ⟨Nat.pos_of_ne_zero hzero, trait.stage_le⟩

namespace Pass.IsNormal

variable {p : Pass}

theorem shows (h : p.IsNormal) (trait : Trait) : p.Shows trait :=
  fun n hn => h n hn trait

theorem names_length (h : p.IsNormal) {d : Decl} {top : Bool}
    (hd : .decl d top ∈ p.file.nodes) (hvar : d.isVar = true) {spec : ValueSpec}
    (hspec : spec ∈ d.valueSpecs) : spec.names.length = 1 := by
  have hsplit : Split.needsSplit d = false := h _ hd .singleName
  have hnamed : spec.names ≠ [] := h _ hd .namedSpecs hvar spec hspec
  simp only [Split.needsSplit, hvar, Bool.true_and, Bool.or_eq_false_iff, List.any_eq_false,
    decide_eq_true_eq] at hsplit
  have hmost := hsplit.2 spec hspec
  have hleast := List.length_pos_iff.mpr hnamed
  omega

theorem not_isParallel_stmt (h : p.IsNormal) {s : Stmt} (hs : .stmt s ∈ p.file.nodes) :
    s.isParallel = false := by
  cases s with
  | assign id lhs op rhs =>
    have hbalanced : rhs.length = lhs.length ∨ rhs.length = 1 := h _ hs .balancedAssign
    cases op with
    | define => exact absurd (h _ hs .noShortDecl rfl) (by simp [Stmt.isShortDecl])
    | compound op =>
      have hsingle : lhs.length = 1 := h _ hs .singleCompound
      simp [Stmt.isParallel, hsingle]
    | assign =>
      have hsingle : ¬ (1 < lhs.length ∧ lhs.length = rhs.length) := h _ hs .singleTarget rfl
      rcases hbalanced with hsame | hone
      · have hfew : ¬ 1 < lhs.length := fun hmany => hsingle ⟨hmany, hsame.symm⟩
        simp [Stmt.isParallel, hfew]
      · simp [Stmt.isParallel, hone]
  | _ => rfl

theorem not_isParallel_header (h : p.IsNormal) {s : Stmt} (hs : .header s ∈ p.file.nodes) :
    s.isParallel = false := by
  refine (h.shows .balancedAssign).not_isParallel_header hs ?_
  exact (h.shows .narrowHeaders).header_sources_le_one
    (fun _ hn => (h.shows .noControlInit).not_hasControlInit hn)
    (fun _ hn => (h.shows .conditionLoop).not_isThreeClauseLoop hn) hs

theorem not_isShortDecl (h : p.IsNormal) {n : Node} (hn : n ∈ p.file.nodes) :
    n.isShortDecl = false := by
  cases n with
  | stmt s => exact h _ (File.unlabeled_mem hn) .noShortDecl rfl
  | _ => rfl

theorem check_eq_nil (h : p.IsNormal) (which : List Property) :
    p.file.check p.table which = [] := by
  apply List.flatMap_eq_nil_iff.mpr
  intro property _
  cases property with
  | explicitDeref => exact (h.shows _).violations_explicitDeref (h.shows _)
  | singleNameDecl =>
    apply Property.violationsInSpecs_eq_nil
    intro d top hd hvar spec hspec
    simp [h.names_length hd hvar hspec]
  | typedDecl =>
    apply Property.violationsInSpecs_eq_nil
    intro d top hd hvar spec hspec
    have hty : spec.ty.isSome = true := h _ hd .typedDecl hvar spec hspec
    simp [hty]
  | initializedDecl =>
    apply Property.violationsInSpecs_eq_nil
    intro d top hd hvar spec hspec
    have hvalues : spec.values ≠ [] := h _ hd .initializedDecl hvar spec hspec
    simp [hvalues]
  | noShortDecl =>
    rw [Property.violations, Property.violationsAt_eq_nil_iff]
    exact fun _ hn => h.not_isShortDecl hn
  | singleTargetAssign =>
    rw [Property.violations, Property.violationsAt_eq_nil_iff]
    intro n hn
    apply Node.any_stmt?_eq_false
    intro s hs
    cases n with
    | stmt s' =>
      cases hs
      exact h.not_isParallel_stmt hn
    | header s' =>
      cases hs
      exact h.not_isParallel_header hn
    | _ => cases hs
  | noControlInit => exact (h.shows _).violations_noControlInit
  | noThreeClauseLoop => exact (h.shows _).violations_noThreeClauseLoop
  | taggedSwitch => exact (h.shows _).violations_taggedSwitch
  | explicitDiscard => exact (h.shows _).violations_explicitDiscard

end Pass.IsNormal

/-!
## A file with two assignments
-/

/-- An assignment to a field and a variable at once, and an assignment of an
element. -/
def swapFile : File :=
  ⟨⟨0⟩, "main", "", [], [.func ⟨⟨1⟩, ⟨⟨2⟩, "main"⟩, none, ⟨[], [], false⟩, some ⟨⟨3⟩,
    [.assign ⟨4⟩ [.selector ⟨6⟩ (.ident ⟨7⟩ "s") "f", .ident ⟨8⟩ "y"] .assign
        [.ident ⟨9⟩ "z", .ident ⟨10⟩ "w"],
      .assign ⟨11⟩ [.ident ⟨12⟩ "_"] .assign
        [.index ⟨13⟩ (.ident ⟨14⟩ "x") (.ident ⟨15⟩ "i")]]⟩⟩]⟩

/-- What is known about the file, with a given arena.  The indexed operand has
the type at position two. -/
def swapTable (types : Array Ty) : SymbolTable :=
  { SymbolTable.empty with
    types
    exprTypes := (((∅ : NodeMap TypeId).insert ⟨6⟩ ⟨1⟩).insert ⟨8⟩ ⟨0⟩).insert ⟨14⟩ ⟨2⟩
    scopeOf := (∅ : NodeMap ScopeId).insert ⟨3⟩ ⟨0⟩ }

def pointerArena : Array Ty :=
  #[.basic .int, .array 3 ⟨0⟩, .pointer ⟨1⟩]

/-- An arena that lacks the type of the indexed operand. -/
def shortArena : Array Ty :=
  #[.basic .int, .array 3 ⟨0⟩]

-- The file is not normal to begin with.
example : swapFile.check (swapTable pointerArena) [.explicitDeref, .singleTargetAssign] ≠ [] := by
  decide +kernel

theorem swapFile_wellFormed (types : Array Ty) : swapFile.WellFormed (swapTable types) := by
  constructor
  · simp [swapFile, File.nodes, TopDecl.nodes, Block.nodes, Stmts.nodes, Stmt.parts, Exprs.nodes,
      Expr.nodes, Node.WellFormed, Stmt.WellFormed]
  · simp [swapFile, File.nodes, TopDecl.nodes, Block.nodes, Stmts.nodes, Stmt.parts, Exprs.nodes,
      Expr.nodes, Node.Direct, Expr.Direct, swapTable, SymbolTable.empty]

theorem swapFile_regular : ∀ n ∈ swapFile.nodes, n.Regular := by
  simp [swapFile, File.nodes, TopDecl.nodes, Block.nodes, Stmts.nodes, Stmt.parts, Exprs.nodes,
    Expr.nodes, Node.Regular, Stmt.Narrow, Expr.OnValue, Expr.isType]

theorem swapTable_closed : (swapTable pointerArena).Closed := by
  constructor
  · simp [swapTable, pointerArena, Ty.mentions, SymbolTable.HasType]
  · intro node id hid
    have hindex : id.index < 3 := by
      simp only [swapTable, Std.ExtTreeMap.getElem?_insert, Std.ExtTreeMap.getElem?_empty] at hid
      repeat
        split at hid
        cases hid
        decide
      cases hid
    exact hindex

theorem after?_swapFile (types : Array Ty) :
    NodeSupply.after? (swapFile.maxId.larger (swapTable types).maxNode) = some ⟨16⟩ := by
  have hkeys : (swapTable types).keys = (swapTable #[]).keys := rfl
  apply NodeSupply.after?_of_largest 15
  · decide
  · decide +kernel
  · decide +kernel
  · rw [hkeys]
    decide +kernel

theorem isClean_run_pointerArena :
    (Pipeline.default.run swapFile (swapTable pointerArena)).isClean = true := by
  rw [Pipeline.run_eq_of_ids (after?_swapFile _)]
  decide +kernel

theorem isClean_run_shortArena :
    (Pipeline.default.run swapFile (swapTable shortArena)).isClean = true := by
  rw [Pipeline.run_eq_of_ids (after?_swapFile _)]
  decide +kernel

/-!
## Runs
-/

/-- A clean run of all rules in the default order on a well-formed and regular
file leaves no violation of any property, if the types of the table are closed. -/
theorem Pipeline.no_violations_after_clean_run {file : File} {table : SymbolTable} {report : Report}
    (hfile : file.WellFormed table) (hregular : ∀ n ∈ file.nodes, n.Regular)
    (hclosed : table.Closed) (hrun : (Pipeline.default.run file table).result = .ok report)
    (hsuccess : report.success = true) (hdiagnostics : report.diagnostics = []) :
    (Pipeline.default.run file table).file.check (Pipeline.default.run file table).table
      Property.all = [] := by
  have hnodes : ∀ n ∈ file.nodes, ∀ trait : Trait, trait.stage = 0 → trait.Regular →
      trait ≠ .bounded → ∀ p : Pass, trait.Holds p n := by
    intro n hn trait hstage _ hbounded p
    exact Trait.holds_of_regular hstage hbounded (hfile.nodes n hn) (hregular n hn) p
  rcases atStage_of_clean_run Trait.base_regular hnodes hfile.direct hclosed hrun hsuccess
    hdiagnostics with ⟨left, hfile', htable', hlast⟩
  rw [hfile', htable']
  exact (hlast.isNormal rfl).check_eq_nil Property.all

theorem swap_no_violations :
    ∃ report, (Pipeline.default.run swapFile (swapTable pointerArena)).result = .ok report ∧
      report.success = true ∧ report.diagnostics = [] ∧
      (Pipeline.default.run swapFile (swapTable pointerArena)).file.check
        (Pipeline.default.run swapFile (swapTable pointerArena)).table Property.all = [] := by
  rcases Pipeline.RunResult.report_of_isClean isClean_run_pointerArena with
    ⟨report, hrun, hsuccess, hdiagnostics⟩
  exact ⟨report, hrun, hsuccess, hdiagnostics, Pipeline.no_violations_after_clean_run
    (swapFile_wellFormed _) swapFile_regular swapTable_closed hrun hsuccess hdiagnostics⟩

/-- Without the types of all expressions a clean run can leave a violation: the
type of the indexed operand comes to exist only during the run. -/
theorem violation_after_clean_run :
    ¬ ∀ (file : File) (table : SymbolTable) (report : Report), file.WellFormed table →
      (∀ n ∈ file.nodes, n.Regular) → (Pipeline.default.run file table).result = .ok report →
      report.success = true → report.diagnostics = [] →
      (Pipeline.default.run file table).file.check (Pipeline.default.run file table).table
        Property.all = [] := by
  intro h
  rcases Pipeline.RunResult.report_of_isClean isClean_run_shortArena with
    ⟨report, hrun, hsuccess, hdiagnostics⟩
  have hnone := h swapFile (swapTable shortArena) report (swapFile_wellFormed _) swapFile_regular
    hrun hsuccess hdiagnostics
  rw [Pipeline.run_eq_of_ids (after?_swapFile _)] at hnone
  revert hnone
  decide +kernel

end Desugar
