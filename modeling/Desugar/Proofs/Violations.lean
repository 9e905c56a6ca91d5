import Desugar.Proofs.Inventory
import Desugar.Proofs.Layout

/-!
# Violations and entries

The violations of a property stand at the identities of the entries that break
it, except that a short declaration is reported where its labels begin.  So a
file has no violation of a property exactly when no entry of its inventory breaks
it.
-/

namespace Desugar

namespace Property

variable (table : SymbolTable) (property : Property)

def breakers (entries : List Entry) : List NodeId :=
  (entries.filter (property.breaks .none table)).map Entry.id

theorem breaks_plain (lifts : Lifting) (id : NodeId) :
    property.breaks lifts table ⟨id, .plain⟩ = false := by
  cases property <;> rfl

theorem breakers_append (first second : List Entry) :
    property.breakers table (first ++ second) =
      property.breakers table first ++ property.breakers table second := by
  unfold breakers
  rw [List.filter_append, List.map_append]

theorem breakers_singleton (entry : Entry) : property.breakers table [entry] =
    if property.breaks .none table entry then [entry.id] else [] := by
  unfold breakers
  rw [List.filter_singleton]
  cases property.breaks .none table entry <;> rfl

theorem breakers_plainEntries (ids : List NodeId) :
    property.breakers table (plainEntries ids) = [] := by
  unfold breakers
  rw [List.filter_eq_nil_iff.mpr, List.map_nil]
  intro entry hentry
  rcases List.mem_map.mp hentry with ⟨id, _, rfl⟩
  rw [breaks_plain]
  exact Bool.false_ne_true

theorem breakers_cons_plainEntries (entry : Entry) (ids : List NodeId) :
    property.breakers table (entry :: plainEntries ids) =
      if property.breaks .none table entry then [entry.id] else [] := by
  have hsplit := property.breakers_append table [entry] (plainEntries ids)
  rwa [breakers_plainEntries, List.append_nil, breakers_singleton] at hsplit

theorem breakers_specs (isVar : Bool) (specs : List Spec) :
    property.breakers table (specs.flatMap (Spec.entries isVar)) =
      specs.flatMap fun
        | .value spec =>
          if isVar && property.breaks .none table ⟨spec.id, spec.kind⟩ then [spec.id] else []
        | .type _ => [] := by
  induction specs with
  | nil => rfl
  | cons spec rest ih =>
    rw [List.flatMap_cons, breakers_append, ih, List.flatMap_cons]
    congr 1
    cases spec with
    | value spec =>
      rw [Spec.entries, breakers_cons_plainEntries]
      cases isVar with
      | true => rfl
      | false =>
        show (if property.breaks .none table ⟨spec.id, .plain⟩ then [spec.id] else []) = _
        rw [breaks_plain]
        rfl
    | type spec =>
      rw [Spec.entries, breakers_singleton, breaks_plain]
      rfl

/-!
## Where violations stand
-/

variable {table property}

theorem breakers_node {broken : Node → Bool}
    (hexpr : ∀ e : Expr, property.breaks .none table ⟨e.id, e.kind⟩ = broken (.expr e))
    (hstmt : ∀ s : Stmt, property.breaks .none table ⟨s.id, s.kind true⟩ = broken (.stmt s))
    (hheader : ∀ s : Stmt, property.breaks .none table ⟨s.id, s.kind false⟩ = broken (.header s))
    (hspec : ∀ spec : ValueSpec, property.breaks .none table ⟨spec.id, spec.kind⟩ = false)
    (hrest : ∀ n : Node, n.expr? = none → n.stmt? = none → broken n = false) (n : Node) :
    property.breakers table n.entries = if broken n then [n.id] else [] := by
  cases n with
  | expr e =>
    rw [Node.entries, breakers_cons_plainEntries, hexpr]
    rfl
  | stmt s =>
    rw [Node.entries, breakers_cons_plainEntries, hstmt]
    rfl
  | header s =>
    rw [Node.entries, breakers_cons_plainEntries, hheader]
    rfl
  | func fn =>
    rw [hrest _ rfl rfl]
    exact breakers_plainEntries _ _ _
  | block b =>
    rw [hrest _ rfl rfl, Node.entries, breakers_singleton, breaks_plain]
    rfl
  | decl d top =>
    have hsplit := property.breakers_append table [⟨d.id, .plain⟩]
      (d.specs.flatMap (Spec.entries d.isVar))
    rw [breakers_singleton, breaks_plain, breakers_specs] at hsplit
    rw [hrest _ rfl rfl]
    refine hsplit.trans (List.flatMap_eq_nil_iff.mpr ?_)
    intro spec _
    cases spec with
    | value spec => simp only [hspec, Bool.and_false, Bool.false_eq_true, if_false]
    | type spec => rfl

theorem map_node_violationsAt {file : File} {broken : Node → Bool} {detail : String → String}
    (h : ∀ n : Node, property.breakers table n.entries = if broken n then [n.id] else []) :
    (property.violationsAt file broken detail).map Violation.node =
      file.nodes.flatMap fun n => property.breakers table n.entries := by
  unfold violationsAt
  rw [List.map_map]
  induction file.nodes with
  | nil => rfl
  | cons n rest ih =>
    rw [List.flatMap_cons, h n, List.filter_cons, ← ih]
    cases broken n <;> rfl

theorem map_node_violationsInSpecs {file : File} {broken : ValueSpec → Bool} {detail : String}
    (hspecs : ∀ spec : ValueSpec, property.breaks .none table ⟨spec.id, spec.kind⟩ = broken spec)
    (hexprs : ∀ e : Expr, property.breaks .none table ⟨e.id, e.kind⟩ = false)
    (hstmts :
      ∀ (s : Stmt) (listed : Bool), property.breaks .none table ⟨s.id, s.kind listed⟩ = false) :
    (property.violationsInSpecs file broken detail).map Violation.node =
      file.nodes.flatMap fun n => property.breakers table n.entries := by
  unfold violationsInSpecs
  rw [List.map_flatMap]
  congr 1
  funext n
  cases n with
  | expr e =>
    rw [Node.entries, breakers_cons_plainEntries, hexprs]
    rfl
  | stmt s | header s =>
    rw [Node.entries, breakers_cons_plainEntries, hstmts]
    rfl
  | func fn => exact (breakers_plainEntries _ _ _).symm
  | block b =>
    rw [Node.entries, breakers_singleton, breaks_plain]
    rfl
  | decl d top =>
    have hsplit := property.breakers_append table [⟨d.id, .plain⟩]
      (d.specs.flatMap (Spec.entries d.isVar))
    rw [breakers_singleton, breaks_plain, breakers_specs] at hsplit
    refine Eq.trans ?_ hsplit.symm
    dsimp only
    unfold Decl.valueSpecs
    cases d.isVar with
    | false =>
      simp only [Bool.false_and, Bool.false_eq_true, if_false, List.map_nil, List.nil_append]
      symm
      apply List.flatMap_eq_nil_iff.mpr
      intro spec _
      cases spec <;> rfl
    | true =>
      simp only [Bool.true_and, if_true, Bool.false_eq_true, if_false, List.nil_append,
        List.map_map, hspecs]
      induction d.specs with
      | nil => rfl
      | cons spec rest ih =>
        rw [List.flatMap_cons, ← ih]
        cases spec with
        | value spec =>
          simp only [List.filterMap_cons, List.filter_cons]
          cases broken spec <;> rfl
        | type spec => rfl

theorem breaks_expr {lifts : Lifting} (hproperty : property ≠ .explicitDeref) (e : Expr) :
    property.breaks lifts table ⟨e.id, e.kind⟩ = false := by
  have hkind : e.kind = .plain ∨ e.kind = .lasting ∨ (∃ operand, e.kind = .access operand) ∨
      ∃ operand name, e.kind = .field operand name := by
    cases e with
    | unary id op x => cases op <;> simp [Expr.kind]
    | _ => simp [Expr.kind]
  rcases hkind with hkind | hkind | ⟨operand, hkind⟩ | ⟨operand, name, hkind⟩
  all_goals
    rw [hkind]
    cases property with
    | explicitDeref => exact absurd rfl hproperty
    | _ => rfl

theorem map_node_violations (file : File) (hproperty : property ≠ .noShortDecl) :
    (property.violations file table).map Violation.node =
      file.nodes.flatMap fun n => property.breakers table n.entries := by
  have hother : ∀ {broken : Stmt → Bool} (n : Node), n.expr? = none → n.stmt? = none →
      n.stmt?.any broken = false := by
    intro broken n _ hstmt
    rw [hstmt]
    rfl
  cases property with
  | noShortDecl => exact absurd rfl hproperty
  | singleNameDecl | initializedDecl =>
    apply map_node_violationsInSpecs
    · exact fun spec => by simp [breaks, ValueSpec.kind, bne]
    · exact breaks_expr (by simp)
    · exact fun s _ => by cases s <;> rfl
  | typedDecl =>
    apply map_node_violationsInSpecs
    · exact fun spec => Option.not_isSome spec.ty
    · exact breaks_expr (by simp)
    · exact fun s _ => by cases s <;> rfl
  | explicitDeref =>
    rw [violations]
    apply map_node_violationsAt
    apply breakers_node
    · intro e
      cases e with
      | unary id op x => cases op <;> rfl
      | _ => rfl
    · exact fun s => by cases s <;> rfl
    · exact fun s => by cases s <;> rfl
    · exact fun _ => rfl
    · intro n hexpr _
      rw [Node.derefsImplicitly, hexpr]
      rfl
  | singleTargetAssign | noControlInit | noThreeClauseLoop | taggedSwitch =>
    rw [violations]
    apply map_node_violationsAt
    apply breakers_node
    · exact breaks_expr (by simp)
    · exact fun s => by cases s <;> rfl
    · exact fun s => by cases s <;> rfl
    · exact fun _ => rfl
    · exact hother
  | explicitDiscard =>
    rw [violations]
    apply map_node_violationsAt
    apply breakers_node
    · exact breaks_expr (by simp)
    · exact fun s => by cases s <;> rfl
    · exact fun s => by cases s <;> rfl
    · exact fun _ => rfl
    · intro n _ hstmt
      cases n with
      | stmt s => cases hstmt
      | _ => rfl

end Property

def Node.isBareShortDecl : Node → Bool
  | .stmt s => s.isShortDecl
  | _ => false

theorem File.not_isShortDecl_iff (file : File) :
    (∀ n ∈ file.nodes, n.isShortDecl = false) ↔ ∀ n ∈ file.nodes, n.isBareShortDecl = false := by
  constructor
  · intro h n hn
    cases n with
    | stmt s =>
      have hs := h _ hn
      cases s with
      | labeled id label inner => rfl
      | _ => exact hs
    | _ => rfl
  · intro h n hn
    cases n with
    | stmt s => exact h _ (File.unlabeled_mem hn)
    | _ => rfl

namespace Property

variable {table : SymbolTable} {property : Property}

theorem breakers_noShortDecl (n : Node) : Property.noShortDecl.breakers table n.entries =
    if n.isBareShortDecl then [n.id] else [] := by
  apply breakers_node
  · exact breaks_expr (by simp)
  · intro s
    cases s with
    | assign id lhs op rhs => cases op <;> rfl
    | _ => rfl
  · exact fun s => by cases s <;> rfl
  · exact fun _ => rfl
  · intro n _ hstmt
    cases n with
    | stmt s => cases hstmt
    | _ => rfl

theorem breakers_eq_nil_iff {entries : List Entry} : property.breakers table entries = [] ↔
    ∀ entry ∈ entries, property.breaks .none table entry = false := by
  unfold breakers
  rw [List.map_eq_nil_iff, List.filter_eq_nil_iff]
  simp only [Bool.not_eq_true]

theorem violations_eq_nil_iff (file : File) : property.violations file table = [] ↔
    ∀ entry ∈ inventory file.nodes, property.breaks .none table entry = false := by
  have hentries : (∀ entry ∈ inventory file.nodes, property.breaks .none table entry = false) ↔
      ∀ n ∈ file.nodes, property.breakers table n.entries = [] := by
    simp only [mem_inventory, breakers_eq_nil_iff]
    constructor
    · exact fun h n hn entry hentry => h entry ⟨n, hn, hentry⟩
    · rintro h entry ⟨n, hn, hentry⟩
      exact h n hn entry hentry
  rw [hentries]
  by_cases hproperty : property = .noShortDecl
  · subst hproperty
    have hbare : (∀ n ∈ file.nodes, Property.noShortDecl.breakers table n.entries = []) ↔
        ∀ n ∈ file.nodes, n.isBareShortDecl = false := by
      simp only [breakers_noShortDecl, ite_eq_right_iff, List.cons_ne_nil, imp_false,
        Bool.not_eq_true]
    rw [hbare, ← file.not_isShortDecl_iff]
    show (file.nodes.filter Node.isShortDecl).map _ = [] ↔ _
    rw [List.map_eq_nil_iff, List.filter_eq_nil_iff]
    simp only [Bool.not_eq_true]
  · rw [← List.map_eq_nil_iff, map_node_violations file hproperty, List.flatMap_eq_nil_iff]

end Property

theorem File.check_eq_nil_iff (file : File) (table : SymbolTable) (which : List Property) :
    file.check table which = [] ↔ ∀ property ∈ which, ∀ entry ∈ inventory file.nodes,
      property.breaks .none table entry = false := by
  unfold check
  rw [List.flatMap_eq_nil_iff]
  exact forall₂_congr fun property _ => Property.violations_eq_nil_iff file

end Desugar
