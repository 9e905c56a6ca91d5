import Desugar.Proofs.Layout
import Desugar.Proofs.Runs

/-!
# Well-formed files

What normalization expects of a file and its table, and that a run starts in a
state that meets it.
-/

namespace Desugar

open Node (All)

/-!
## Largest identities
-/

namespace NodeId

theorem larger_below_iff {a b : NodeId} {bound : Nat} :
    (a.larger b).Below bound ↔ a.Below bound ∧ b.Below bound := by
  unfold larger Below
  split
  · rename_i hlt
    have hlt' := UInt32.lt_iff_toNat_lt.mp hlt
    omega
  · rename_i hge
    have hge' := UInt32.le_iff_toNat_le.mp (UInt32.not_lt.mp hge)
    omega

theorem foldl_larger_below_iff {ids : List NodeId} {first : NodeId} {bound : Nat} :
    (ids.foldl larger first).Below bound ↔ first.Below bound ∧ ∀ id ∈ ids, id.Below bound := by
  induction ids generalizing first with
  | nil => simp
  | cons id rest ih =>
    rw [List.foldl_cons, ih, larger_below_iff, List.forall_mem_cons, and_assoc]

end NodeId

theorem File.maxId_below_iff {file : File} {bound : Nat} :
    file.maxId.Below bound ↔ ∀ id ∈ file.ids, id.Below bound := by
  unfold maxId
  rw [NodeId.foldl_larger_below_iff]
  constructor
  · exact And.right
  · intro h
    exact ⟨h file.id (.head _), h⟩

namespace SymbolTable

theorem maxKey?_below_iff {α : Type} {facts : NodeMap α} {bound : Nat} :
    (∀ key ∈ facts.maxKey?, key.Below bound) ↔ ∀ id ∈ facts, id.Below bound := by
  constructor
  · intro h id hid
    rcases Option.isSome_iff_exists.mp (Std.ExtTreeMap.isSome_maxKey?_of_mem hid) with ⟨key, hkey⟩
    have hle := (Std.ExtTreeMap.maxKey?_eq_some_iff_mem_and_forall.mp hkey).2 id hid
    have hval : (compare id.val key.val).isLE = true := hle
    exact Nat.lt_of_le_of_lt (UInt32.le_iff_toNat_le.mp (Std.isLE_compare.mp hval)) (h key hkey)
  · intro h key hkey
    exact h key (Std.ExtTreeMap.maxKey?_eq_some_iff_mem_and_forall.mp hkey).1

theorem foldl_keys_below_iff {keys : List (Option NodeId)} {first : NodeId} {bound : Nat} :
    (keys.foldl (fun largest key => key.elim largest largest.larger) first).Below bound ↔
      first.Below bound ∧ ∀ key ∈ keys, ∀ id ∈ key, id.Below bound := by
  induction keys generalizing first with
  | nil => simp
  | cons key rest ih =>
    rw [List.foldl_cons, ih, List.forall_mem_cons, ← and_assoc]
    cases key with
    | none => simp
    | some key => simp [NodeId.larger_below_iff]

theorem maxNode_below_iff {table : SymbolTable} {bound : Nat} (hbound : 0 < bound) :
    table.maxNode.Below bound ↔ ∀ id, table.Recorded id → id.Below bound := by
  have hzero : (⟨0⟩ : NodeId).Below bound := hbound
  unfold maxNode
  rw [foldl_keys_below_iff]
  simp only [List.forall_mem_cons, maxKey?_below_iff, Recorded, or_imp, forall_and]
  constructor
  · rintro ⟨_, htypes, hdefs, huses, hselections, hscopes, _⟩
    exact ⟨htypes, hdefs, huses, hselections, hscopes⟩
  · rintro ⟨htypes, hdefs, huses, hselections, hscopes⟩
    exact ⟨hzero, htypes, hdefs, huses, hselections, hscopes, List.forall_mem_nil _⟩

end SymbolTable

theorem NodeSupply.count_after? {largest : NodeId} {ids : NodeSupply}
    (h : NodeSupply.after? largest = some ids) : ids.count = largest.val.toNat + 1 := by
  unfold after? successor? at h
  by_cases hlast : largest.val = last
  · rw [if_pos hlast] at h
    cases h
  · rw [if_neg hlast] at h
    cases h
    have hbound : largest.val.toNat ≠ 4294967295 := fun heq => hlast (UInt32.toNat_inj.mp heq)
    have hsize := largest.val.toNat_lt
    simp only [count, UInt32.toNat_add, UInt32.toNat_one]
    omega

namespace SymbolTable

/-- The identities that a table records something about. -/
def keys (table : SymbolTable) : List NodeId :=
  table.exprTypes.keys ++ table.defs.keys ++ table.uses.keys ++ table.selections.keys ++
    table.scopeOf.keys

theorem mem_keys_iff {table : SymbolTable} {id : NodeId} : id ∈ table.keys ↔ table.Recorded id := by
  simp only [keys, Recorded, List.mem_append, Std.ExtTreeMap.mem_keys, or_assoc]

end SymbolTable

theorem NodeSupply.after?_of_largest (largest : UInt32) {file : File} {table : SymbolTable}
    (hlast : largest ≠ last) (hmem : ⟨largest⟩ ∈ file.ids)
    (hfile : ∀ id ∈ file.ids, id.val ≤ largest) (htable : ∀ id ∈ table.keys, id.val ≤ largest) :
    after? (file.maxId.larger table.maxNode) = some ⟨largest + 1⟩ := by
  have hbound : ∀ id : NodeId, id.val ≤ largest → id.Below (largest.toNat + 1) :=
    fun _ hle => Nat.lt_succ_of_le (UInt32.le_iff_toNat_le.mp hle)
  have hupper : (file.maxId.larger table.maxNode).Below (largest.toNat + 1) := by
    apply NodeId.larger_below_iff.mpr
    constructor
    · exact File.maxId_below_iff.mpr fun id hid => hbound id (hfile id hid)
    · apply (SymbolTable.maxNode_below_iff (Nat.succ_pos _)).mpr
      intro id hid
      exact hbound id (htable id (SymbolTable.mem_keys_iff.mpr hid))
  have hlower : ¬ (file.maxId.larger table.maxNode).Below largest.toNat := by
    intro hbelow
    have hself := File.maxId_below_iff.mp (NodeId.larger_below_iff.mp hbelow).1 _ hmem
    exact Nat.lt_irrefl _ hself
  have hval : (file.maxId.larger table.maxNode).val = largest := by
    apply UInt32.toNat_inj.mp
    unfold NodeId.Below at hupper hlower
    omega
  unfold after? successor?
  rw [hval, if_neg hlast]
  rfl

/-!
## Well-formedness
-/

/-- The statements that normalization expects: an else is followed by an if or a
block, and an assignment has a source for each target or a single source. -/
def Stmt.WellFormed : Stmt → Prop
  | .ifElse _ _ _ _ els => ∀ s ∈ els, s.isBranch = true
  | .assign _ lhs _ rhs => rhs.length = lhs.length ∨ rhs.length = 1
  | _ => True

/-- The nodes that normalization expects.  Statements in headers are simple, and
the specs of a variable declaration have names. -/
def Node.WellFormed : Node → Prop
  | .stmt s => s.WellFormed
  | .header s => s.isSimple = true ∧ s.WellFormed
  | .decl d _ => d.isVar = true → ∀ spec ∈ d.valueSpecs, spec.names ≠ []
  | _ => True

/-- A file whose nodes are well-formed.  What the selections of fields go through
is at most one pointer. -/
structure File.WellFormed (file : File) (table : SymbolTable) : Prop where
  nodes : ∀ n ∈ file.nodes, n.WellFormed
  direct : ∀ n ∈ file.nodes, n.Direct table

/-- The statements in which no parallel assignment can hide: a compound
assignment has one target, and guards and communications have at most one
source. -/
def Stmt.Narrow : Stmt → Prop
  | .assign _ lhs (.compound _) _ => lhs.length = 1
  | .typeSwitch _ _ guard _ => guard.sources ≤ 1
  | .select _ clauses => ∀ clause ∈ clauses, ∀ s ∈ clause.comm, s.sources ≤ 1
  | _ => True

/-- The expressions that index or slice a value, not a type. -/
def Expr.OnValue : Expr → Prop
  | .index _ x _ => x.isType = false
  | .slice _ x _ _ _ => x.isType = false
  | _ => True

/-- The nodes that normalization can bring into normal form. -/
def Node.Regular : Node → Prop
  | .stmt s => s.Narrow
  | .header s => s.Narrow
  | .expr e => e.OnValue
  | _ => True

namespace Trait

def WellFormed : Trait → Prop
  | .bounded | .simpleHeaders | .branchElse | .balancedAssign | .namedSpecs => True
  | _ => False

theorem base_wellFormed : Base WellFormed :=
  ⟨trivial, trivial, trivial, trivial⟩

/-- What well-formed and regular files bring along. -/
def Regular : Trait → Prop :=
  fun _ => True

theorem base_regular : Base Regular :=
  ⟨trivial, trivial, trivial, trivial⟩

theorem holds_of_wellFormed {trait : Trait} (htrait : trait.WellFormed)
    (hbounded : trait ≠ .bounded) {n : Node} (hn : n.WellFormed) (p : Pass) :
    trait.Holds p n := by
  cases trait with
  | bounded => exact absurd rfl hbounded
  | simpleHeaders =>
    cases n with
    | stmt s =>
      intro hheader
      cases hheader
    | header s => exact fun _ => hn.1
    | _ => trivial
  | branchElse | balancedAssign =>
    cases n with
    | stmt s => cases s <;> first | exact hn | trivial
    | header s => cases s <;> first | exact hn.2 | trivial
    | _ => trivial
  | namedSpecs =>
    cases n with
    | decl d top => exact hn
    | stmt s | header s => cases s <;> trivial
    | _ => trivial
  | _ => exact htrait.elim

theorem holds_of_regular {trait : Trait} (htrait : trait.stage = 0)
    (hbounded : trait ≠ .bounded) {n : Node} (hn : n.WellFormed) (hregular : n.Regular)
    (p : Pass) : trait.Holds p n := by
  by_cases hwell : trait.WellFormed
  · exact holds_of_wellFormed hwell hbounded hn p
  · cases trait with
    | singleCompound =>
      cases n with
      | stmt s | header s =>
        cases s with
        | assign id lhs op rhs => cases op <;> exact hregular
        | _ => trivial
      | _ => trivial
    | narrowHeaders =>
      cases n with
      | stmt s | header s => cases s <;> first | exact hregular | trivial
      | _ => trivial
    | valueOperands =>
      cases n with
      | stmt s | header s => cases s <;> trivial
      | expr e => cases e <;> exact hregular
      | _ => trivial
    | bounded | simpleHeaders | branchElse | balancedAssign | namedSpecs =>
      exact absurd trivial hwell
    | _ => cases htrait

theorem bounded_holds_iff {p : Pass} {n : Node} :
    Trait.bounded.Holds p n ↔ ∀ id ∈ n.shownIds, id.Below p.ids.count := by
  cases n with
  | block b => simp [Holds, Node.shownIds]
  | _ => exact Iff.rfl

end Trait

/-!
## The start of a run
-/

theorem Progress.start_atStage {base : Trait → Prop} {file : File} {table : SymbolTable}
    {names : List String} {ids : NodeSupply} {report : Report}
    (hids : NodeSupply.after? (file.maxId.larger table.maxNode) = some ids)
    (hbase : ∀ n ∈ file.nodes, ∀ trait : Trait, trait.stage = 0 → base trait →
      trait ≠ .bounded → ∀ p : Pass, trait.Holds p n) :
    (Progress.start ⟨file, table.reserve names, ids, report⟩).AtStage base 0 := by
  have hlargest : (file.maxId.larger table.maxNode).Below ids.count := by
    rw [NodeSupply.count_after? hids]
    exact Nat.lt_succ_self _
  rcases NodeId.larger_below_iff.mp hlargest with ⟨hmaxId, hmaxNode⟩
  have hdrawn := File.maxId_below_iff.mp hmaxId
  constructor
  · exact (SymbolTable.maxNode_below_iff (Nat.zero_lt_of_lt hmaxNode)).mp hmaxNode
  · exact hdrawn file.id (.head _)
  · intro n hn q hq trait htrait _
    rcases htrait with ⟨hstage, htrait⟩ | ⟨hpos, hle⟩
    · by_cases hbounded : trait = .bounded
      · subst hbounded
        apply Trait.bounded_holds_iff.mpr
        intro id hid
        exact PassM.below_mono hq (hdrawn id (file.layout.inside n hn id hid))
      · exact hbase n hn trait hstage htrait hbounded q
    · exact absurd hpos (Nat.not_lt.mpr hle)

theorem Pipeline.atStage_of_clean_run {base : Trait → Prop} (hbase : Trait.Base base)
    {file : File} {table : SymbolTable} {report : Report}
    (hnodes : ∀ n ∈ file.nodes, ∀ trait : Trait, trait.stage = 0 → base trait →
      trait ≠ .bounded → ∀ p : Pass, trait.Holds p n)
    (hdirect : ∀ n ∈ file.nodes, n.Direct table) (hclosed : table.Closed)
    (hrun : (Pipeline.default.run file table).result = .ok report)
    (hsuccess : report.success = true) (hdiagnostics : report.diagnostics = []) :
    ∃ left : Progress, (Pipeline.default.run file table).file = left.file ∧
      (Pipeline.default.run file table).table = left.table ∧ left.start.AtStage base 10 := by
  rcases cleanRun_of_run hrun hsuccess hdiagnostics with ⟨ids, left, hids, hfile, htable, hclean⟩
  have hstart : (Progress.start ⟨file, table.reserve file.spelledNames, ids, ⟨[], []⟩⟩).AtStage
      base 0 := Progress.start_atStage hids hnodes
  have hlast : left.start.AtStage base 10 :=
    hclean.catalog_atStage hbase hstart ⟨hclosed.mentions, hclosed.exprTypes⟩ hdirect
  exact ⟨left, hfile, htable, hlast⟩

end Desugar
