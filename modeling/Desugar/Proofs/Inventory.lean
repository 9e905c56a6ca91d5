import Desugar.NormalForm.Check
import Desugar.Proofs.Descent
import Mathlib.Algebra.Order.Group.Multiset
import Mathlib.Tactic.Abel

/-!
# Inventories

The inventory of a tree has an entry for each of its identities.  The entry says
what the node looks like to the checks of the normal form, whether evaluating it
has an effect of its own and which label it attaches; the rest of the node does not
matter.  Inventories
are multisets, so that the inventory of a whole is the sum of the inventories of
its parts, in whatever order they stand.
-/

namespace Desugar

inductive Kind where
  | plain
  /-- A call, a function literal or a receive. -/
  | lasting
  /-- An index or slice of an operand. -/
  | access (operand : NodeId)
  | field (operand : NodeId) (name : String)
  /-- A spec of a variable declaration. -/
  | spec (single typed initialized : Bool)
  | assign (listed short parallel : Bool)
  /-- An expression statement. -/
  | value (listed : Bool) (operand : NodeId)
  /-- An if, switch or type switch, with the operand of its initializer. -/
  | control (init tagless : Bool) (operands : List NodeId)
  | loop (clauses : Bool) (operands : List NodeId)
  /-- A labelled statement. -/
  | label (name : String)
deriving DecidableEq

structure Entry where
  id : NodeId
  kind : Kind
deriving DecidableEq

def plainEntries (ids : List NodeId) : List Entry :=
  ids.map fun id => ⟨id, .plain⟩

/-- Whether an expression of the given identity produces a value when it stands
as a statement, or nothing is known of it. -/
def SymbolTable.producesValue (table : SymbolTable) (operand : NodeId) : Bool :=
  match table.exprTypes[operand]? with
  | some ty => table.ty ty != .tuple []
  | none => true

/-- The properties that are established by lifting headers into statement lists. -/
abbrev Lifting :=
  Property → Bool

def Lifting.none : Lifting :=
  fun _ => false

/-- Whether an entry breaks a property.  A header that is lifted into a statement list
counts like a statement of a list. -/
def Property.breaks (lifts : Lifting) (table : SymbolTable) (property : Property)
    (entry : Entry) : Bool :=
  match property, entry.kind with
  | .explicitDeref, .access operand => (table.exprTypes[operand]?).any table.isPointerToArray
  | .explicitDeref, .field operand name =>
    table.selections[entry.id]? == some .field &&
      (table.exprTypes[operand]?).any (fun ty => table.implicitDeref ty name)
  | .singleNameDecl, .spec single _ _ => !single
  | .typedDecl, .spec _ typed _ => !typed
  | .initializedDecl, .spec _ _ initialized => !initialized
  | .noShortDecl, .assign listed short _ => listed && short
  | .singleTargetAssign, .assign _ _ parallel => parallel
  | .noControlInit, .control init _ _ => init
  | .noThreeClauseLoop, .loop clauses _ => clauses
  | .taggedSwitch, .control _ tagless _ => tagless
  | .explicitDiscard, .value listed operand => listed && table.producesValue operand
  | .explicitDiscard, .control _ _ operands =>
    lifts .noControlInit && operands.any table.producesValue
  | .explicitDiscard, .loop _ operands =>
    lifts .noThreeClauseLoop && operands.any table.producesValue
  | _, _ => false

def Property.consults (property : Property) (entry : Entry) : List NodeId :=
  match property, entry.kind with
  | .explicitDeref, .access operand => [operand]
  | .explicitDeref, .field operand _ => [entry.id, operand]
  | .explicitDiscard, .value _ operand => [operand]
  | .explicitDiscard, .control _ _ operands | .explicitDiscard, .loop _ operands => operands
  | _, _ => []

/-!
## Entries of a node
-/

namespace Expr

/-- Calls, function literals and receives. -/
def isLasting : Expr → Bool
  | .call _ _ _ _ => true
  | .funcLit _ _ _ => true
  | .unary _ .recv _ => true
  | _ => false

def kind : Expr → Kind
  | .call _ _ _ _ => .lasting
  | .funcLit _ _ _ => .lasting
  | .unary _ .recv _ => .lasting
  | .index _ x _ => .access x.id
  | .slice _ x _ _ _ => .access x.id
  | .selector _ x name => .field x.id name
  | _ => .plain

theorem kind_eq_lasting_iff (e : Expr) : e.kind = .lasting ↔ e.isLasting = true := by
  cases e with
  | unary id op x => cases op <;> simp [kind, isLasting]
  | _ => simp [kind, isLasting]

end Expr

namespace Stmt

def kind (listed : Bool) : Stmt → Kind
  | .assign _ lhs op rhs =>
    .assign listed (op == .define) (decide (lhs.length > 1) && rhs.length != 1)
  | .expr _ x => .value listed x.id
  | .ifElse _ init _ _ _ => .control init.isSome false (OptStmt.operands init)
  | .switch _ init tag _ => .control init.isSome tag.isNone (OptStmt.operands init)
  | .typeSwitch _ init _ _ => .control init.isSome false (OptStmt.operands init)
  | .forLoop _ init _ post _ =>
    .loop (init.isSome || post.isSome) (OptStmt.operands init ++ OptStmt.operands post)
  | .labeled _ name _ => .label name
  | _ => .plain

def clauseIds : Stmt → List NodeId
  | .switch _ _ _ clauses => clauses.map CaseClause.id
  | .typeSwitch _ _ _ clauses => clauses.map TypeClause.id
  | .select _ clauses => clauses.map CommClause.id
  | _ => []

end Stmt

def ValueSpec.kind (spec : ValueSpec) : Kind :=
  .spec (spec.names.length == 1) spec.ty.isSome (!spec.values.isEmpty)

def Spec.entries (isVar : Bool) : Spec → List Entry
  | .value spec =>
    ⟨spec.id, if isVar then spec.kind else .plain⟩ :: plainEntries (spec.names.map Ident.id)
  | .type spec => [⟨spec.name.id, .plain⟩]

def Node.entries : Node → List Entry
  | .expr e => ⟨e.id, e.kind⟩ :: plainEntries e.boundIds
  | .stmt s => ⟨s.id, s.kind true⟩ :: plainEntries s.clauseIds
  | .header s => ⟨s.id, s.kind false⟩ :: plainEntries s.clauseIds
  | .decl d _ => ⟨d.id, .plain⟩ :: d.specs.flatMap (Spec.entries d.isVar)
  | .func fn =>
    plainEntries (fn.id :: fn.name.id :: (fn.recv.elim [] Field.ids ++ fn.sig.ids))
  | .block b => [⟨b.id, .plain⟩]

/-!
## Inventories
-/

def inventory (nodes : List Node) : Multiset Entry :=
  (nodes.flatMap Node.entries : List Entry)

@[simp] theorem inventory_nil : inventory [] = 0 := rfl

@[simp] theorem inventory_cons (n : Node) (nodes : List Node) :
    inventory (n :: nodes) = (n.entries : Multiset Entry) + inventory nodes := by
  simp only [inventory, List.flatMap_cons, Multiset.coe_add]

@[simp] theorem inventory_append (first second : List Node) :
    inventory (first ++ second) = inventory first + inventory second := by
  simp only [inventory, List.flatMap_append, Multiset.coe_add]

theorem Node.label_mem_entries_iff {id : NodeId} {name : String} {n : Node} :
    ⟨id, .label name⟩ ∈ n.entries ↔
      ∃ s, n = .stmt (.labeled id name s) ∨ n = .header (.labeled id name s) := by
  have hplain : ∀ ids : List NodeId, (⟨id, .label name⟩ : Entry) ∉ plainEntries ids := by
    intro ids hmem
    rcases List.mem_map.mp hmem with ⟨_, _, heq⟩
    cases heq
  have hstmt : ∀ (s : Stmt) (listed : Bool),
      (⟨id, .label name⟩ : Entry) = ⟨s.id, s.kind listed⟩ ↔
      ∃ inner, s = .labeled id name inner := by
    intro s listed
    cases s with
    | labeled id' name' inner =>
      constructor
      · intro heq
        cases heq
        exact ⟨inner, rfl⟩
      · rintro ⟨inner', heq⟩
        cases heq
        rfl
    | _ => exact ⟨nofun, nofun⟩
  cases n with
  | stmt s | header s => simp [entries, hplain, hstmt]
  | expr e =>
    have hexpr : (⟨id, .label name⟩ : Entry) ≠ ⟨e.id, e.kind⟩ := by
      cases e with
      | unary id op x => cases op <;> nofun
      | _ => nofun
    simp [entries, hplain, hexpr]
  | decl d top =>
    have hspec : ∀ spec ∈ d.specs, (⟨id, .label name⟩ : Entry) ∉ spec.entries d.isVar := by
      intro spec _ hmem
      cases spec with
      | value spec =>
        rcases List.mem_cons.mp hmem with heq | hmem
        · split at heq <;> cases heq
        · exact hplain _ hmem
      | type spec => cases List.mem_singleton.mp hmem
    simpa [entries] using hspec
  | func fn => simp [entries, hplain]
  | block b => simp [entries]

theorem mem_inventory {e : Entry} {nodes : List Node} :
    e ∈ inventory nodes ↔ ∃ n ∈ nodes, e ∈ n.entries := by
  simp only [inventory, Multiset.mem_coe, List.mem_flatMap]

def identities (entries : Multiset Entry) : Multiset NodeId :=
  entries.map Entry.id

@[simp] theorem identities_add (first second : Multiset Entry) :
    identities (first + second) = identities first + identities second :=
  Multiset.map_add _ _ _

@[simp] theorem map_id_plainEntries (list : List NodeId) :
    (plainEntries list).map Entry.id = list := by
  simp [plainEntries, Function.comp_def]

/-!
## The identities of a tree
-/

theorem inventory_perm {first second : List Node} (h : first.Perm second) :
    inventory first = inventory second :=
  Multiset.coe_eq_coe.mpr (h.flatMap_right _)

theorem Expr.map_id_entries (e : Expr) :
    (Node.expr e).entries.map Entry.id = e.id :: e.boundIds := by
  simp [Node.entries]

theorem Stmt.map_id_entries (listed : Bool) (s : Stmt) :
    (s.node listed).entries.map Entry.id = s.id :: s.clauseIds := by
  cases listed <;> simp [Stmt.node, Node.entries]

theorem Spec.map_id_entries (isVar : Bool) (spec : Spec) :
    (spec.entries isVar).map Entry.id = spec.shownIds := by
  cases spec <;> simp [Spec.entries, Spec.shownIds]

theorem Decl.map_id_entries (d : Decl) (top : Bool) :
    (Node.decl d top).entries.map Entry.id = d.id :: d.specs.flatMap Spec.shownIds := by
  simp [Node.entries, List.map_flatMap, Spec.map_id_entries]

def Form.loose : (f : Form) → f.Tree → List NodeId
  | .caseClause, c => [c.id]
  | .caseClauses, cs => cs.map CaseClause.id
  | .typeClause, c => [c.id]
  | .typeClauses, cs => cs.map TypeClause.id
  | .commClause, c => [c.id]
  | .commClauses, cs => cs.map CommClause.id
  | .specs, all => all.flatMap Spec.shownIds
  | .file, whole => [whole.id]
  | _, _ => []

theorem Form.loose_perm {f : Form} {x : f.Tree} (h : f.Holds (fun _ => True) x) :
    (f.loose x ++ (f.own x).flatMap fun n => n.entries.map Entry.id).Perm
      (f.ownIds x ++ Parts.collect Form.loose _ (f.makeup x).parts) := by
  revert h
  fun_cases Form.makeup f x
  all_goals intro h
  case case65 =>
    cases h.1
    exact .nil
  all_goals simp [Form.makeup, Form.own, Form.loose, Form.ownIds, Parts.collect,
    Expr.map_id_entries, Stmt.map_id_entries, Decl.map_id_entries, Stmt.id, Stmt.clauseIds,
    Spec.shownIds]
  all_goals simp [Node.entries]

theorem Parts.ids_inventory {fs : List Form} {parts : Parts fs}
    (h : Parts.All (fun f y =>
      (f.loose y + identities (inventory (f.nodes y)) : Multiset NodeId) = f.ids y) fs parts) :
    (Parts.collect Form.loose fs parts + identities (inventory (Parts.nodes fs parts)) :
      Multiset NodeId) = Parts.collect Form.ids fs parts := by
  induction fs with
  | nil => rfl
  | cons f fs ih =>
    simp only [Parts.nodes, Parts.collect, inventory_append, identities_add, ← Multiset.coe_add,
      ← h.1, ← ih h.2]
    abel

theorem Form.ids_inventory (f : Form) (x : f.Tree) (h : f.Holds (fun _ => True) x) :
    (f.loose x + identities (inventory (f.nodes x)) : Multiset NodeId) = f.ids x := by
  induction f, x using Form.induction with
  | h f x ih =>
    have hparts := Parts.ids_inventory ((ih.and h.parts).mono fun _ _ hy => hy.1 hy.2)
    have hnodes := f.nodes_make x (f.makeup x).parts
    rw [f.make_parts] at hnodes
    have hown := Multiset.coe_eq_coe.mpr (Form.loose_perm h)
    rw [inventory_perm hnodes, Multiset.coe_eq_coe.mpr (f.ids_perm x), inventory_append,
      identities_add, ← Multiset.coe_add, ← hparts, ← add_assoc, ← add_assoc,
      Multiset.coe_add (f.ownIds x), ← hown]
    simp [identities, inventory, List.map_flatMap]

theorem Stmts.ids_inventory (stmts : List Stmt) :
    identities (inventory (Stmts.nodes stmts)) = (Stmts.ids stmts : Multiset NodeId) :=
  (zero_add _).symm.trans (Form.ids_inventory .stmts stmts fun _ _ => trivial)

theorem File.ids_inventory (file : File) :
    {file.id} + identities (inventory file.nodes) = (file.ids : Multiset NodeId) :=
  Form.ids_inventory .file file fun _ _ => trivial

end Desugar
