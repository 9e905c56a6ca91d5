import Desugar.Proofs.RunRenewal

/-!
# Identities of nodes

A run uses no identity twice.  The identities it adds are larger than those of
the file and of the table, and calls, function literals and receives keep theirs.
-/

namespace Desugar

namespace Pass.Renewed

variable {lib : Liberty} {keeps : Property → Prop} {p q : Pass}

theorem count_ids_le (h : p.Renewed lib keeps q) (id : NodeId) :
    q.file.ids.count id ≤ p.file.ids.count id + id.timesDrawn p q := by
  have hbefore : p.file.ids.count id = Multiset.count id ({p.file.id} + identities
      (inventory p.file.nodes)) := by
    rw [p.file.ids_inventory, Multiset.coe_count]
  have hafter : q.file.ids.count id = Multiset.count id ({q.file.id} + identities
      (inventory q.file.nodes)) := by
    rw [q.file.ids_inventory, Multiset.coe_count]
  rw [hbefore, hafter, Multiset.count_add, Multiset.count_add, h.fileId, Nat.add_assoc]
  exact Nat.add_le_add_left (h.nodes.few id) _

theorem nodup_ids (h : p.Renewed lib keeps q) (hdrawn : ∀ id ∈ p.file.ids, id.Below p.ids.count)
    (hdistinct : p.file.ids.Nodup) : q.file.ids.Nodup := by
  apply List.nodup_iff_count_le_one.mpr
  intro id
  have hcount := h.count_ids_le id
  by_cases hid : id ∈ p.file.ids
  · have hold : id.timesDrawn p q = 0 := if_neg fun hnew => Nat.not_lt.mpr hnew.1 (hdrawn id hid)
    have hone := List.nodup_iff_count_le_one.mp hdistinct id
    omega
  · have hzero := List.count_eq_zero.mpr hid
    have hmost : id.timesDrawn p q ≤ 1 := by
      unfold NodeId.timesDrawn
      split <;> omega
    omega

theorem drawnIn_of_not_mem (h : p.Renewed lib keeps q) {id : NodeId} (hid : id ∈ q.file.ids)
    (hnew : id ∉ p.file.ids) : id.DrawnIn p q := by
  have hcount := h.count_ids_le id
  have hpos := List.count_pos_iff.mpr hid
  rw [List.count_eq_zero.mpr hnew, Nat.zero_add] at hcount
  unfold NodeId.timesDrawn at hcount
  split at hcount
  · assumption
  · omega

theorem mem_of_isLasting (h : p.Renewed lib keeps q) {e : Expr} (he : .expr e ∈ p.file.nodes)
    (hlasting : e.isLasting = true) : e.id ∈ q.file.ids := by
  have hentry : (⟨e.id, .lasting⟩ : Entry) ∈ inventory p.file.nodes := by
    rw [← e.kind_eq_lasting_iff.mpr hlasting]
    exact mem_inventory.mpr ⟨.expr e, he, .head _⟩
  have hkept : (⟨e.id, .lasting⟩ : Entry) ∈ inventory q.file.nodes := by
    apply Multiset.count_pos.mp
    exact Nat.lt_of_lt_of_le (Multiset.count_pos.mpr hentry) (h.nodes.lasting e.id)
  have hid : e.id ∈ identities (inventory q.file.nodes) :=
    Multiset.mem_map.mpr ⟨_, hkept, rfl⟩
  have hids : e.id ∈ ({q.file.id} + identities (inventory q.file.nodes) : Multiset NodeId) :=
    Multiset.mem_add.mpr (.inr hid)
  rw [q.file.ids_inventory] at hids
  exact Multiset.mem_coe.mp hids

end Pass.Renewed

/-- Whatever rules run in whatever order, a run leaves the identities of a file
distinct, adds only identities larger than those of the file and the table, and
keeps each call, function literal and receive exactly once. -/
theorem Pipeline.run_keeps_identities {config : Config} {pipeline : Pipeline} {file : File}
    {table : SymbolTable} {report : Report} (hconfig : ofConfig config = .ok pipeline)
    (hdistinct : file.ids.Nodup) (hrun : (pipeline.run file table).result = .ok report) :
    (pipeline.run file table).file.ids.Nodup ∧
      (∀ id ∈ (pipeline.run file table).file.ids, id ∉ file.ids →
        (∀ old ∈ file.ids, old.val < id.val) ∧
          ∀ old, table.Recorded old → old.val < id.val) ∧
      ∀ e, .expr e ∈ file.nodes → e.isLasting = true →
        (pipeline.run file table).file.ids.count e.id = 1 := by
  rcases supply_of_run hrun with ⟨ids, hids⟩
  rcases steps_of_run hids with ⟨left, hfile, _, hsteps⟩
  rcases Progress.start_drawn file.spelledNames hids with ⟨hdrawn, hbelow⟩
  have hrenewed :=
    (steps_evolves (accepted_of_ofConfig hconfig).2.subset hdrawn hsteps).2 report hrun
  have hnodup : left.file.ids.Nodup := hrenewed.nodup_ids hbelow hdistinct
  rw [hfile]
  refine ⟨hnodup, fun id hid hnew => ?_, fun e he hlasting => ?_⟩
  · have hlarge := (hrenewed.drawnIn_of_not_mem hid hnew).1
    constructor
    · exact fun old hold => UInt32.lt_iff_toNat_lt.mpr (Nat.lt_of_lt_of_le (hbelow old hold) hlarge)
    · exact fun old hold => UInt32.lt_iff_toNat_lt.mpr (Nat.lt_of_lt_of_le (hdrawn old hold) hlarge)
  · exact List.count_eq_one_of_mem hnodup (hrenewed.mem_of_isLasting he hlasting)

/-- A loop whose post step is a call, which a continue has to run as well. -/
def retryFile : File :=
  ⟨⟨0⟩, "main", "", [], [.func ⟨⟨1⟩, ⟨⟨2⟩, "main"⟩, none, ⟨[], [], false⟩, some ⟨⟨3⟩,
    [.forLoop ⟨4⟩ none none (some (.expr ⟨5⟩ (.call ⟨6⟩ (.ident ⟨7⟩ "f") [] false))) ⟨⟨8⟩,
      [.branch ⟨9⟩ .continue none]⟩]⟩⟩]⟩

def retryTable : SymbolTable :=
  { SymbolTable.empty with scopeOf := (∅ : NodeMap ScopeId).insert ⟨8⟩ ⟨0⟩ }

/-- Loops only, and a failure does not end the run. -/
def retryConfig : Config :=
  { order := some ["for-loop"], keepGoing := true }

theorem after?_retryFile :
    NodeSupply.after? (retryFile.maxId.larger retryTable.maxNode) = some ⟨10⟩ := by
  apply NodeSupply.after?_of_largest 9
  · decide
  · decide +kernel
  · decide +kernel
  · decide +kernel

def retryPipeline : Pipeline :=
  ⟨[Rule.forLoop], retryConfig⟩

theorem retry_keeps_identities :
    ∃ report, Pipeline.ofConfig retryConfig = .ok retryPipeline ∧ retryFile.ids.Nodup ∧
      (retryPipeline.run retryFile retryTable).result = .ok report ∧
      (retryPipeline.run retryFile retryTable).file.ids.Nodup ∧
      (⟨10⟩ ∈ (retryPipeline.run retryFile retryTable).file.ids ∧ ⟨10⟩ ∉ retryFile.ids ∧
        ∀ old ∈ retryFile.ids, old.val < 10) ∧
      (retryPipeline.run retryFile retryTable).file.ids.count ⟨6⟩ = 1 := by
  have hconfig : Pipeline.ofConfig retryConfig = .ok retryPipeline := rfl
  have hdistinct : retryFile.ids.Nodup := by decide +kernel
  have hcopied : ⟨10⟩ ∈ (retryPipeline.run retryFile retryTable).file.ids := by
    rw [Pipeline.run_eq_of_ids after?_retryFile]
    decide +kernel
  have hfresh : (⟨10⟩ : NodeId) ∉ retryFile.ids := by decide +kernel
  have hok : (retryPipeline.run retryFile retryTable).result.toOption.isSome = true := by
    rw [Pipeline.run_eq_of_ids after?_retryFile]
    decide +kernel
  cases hrun : (retryPipeline.run retryFile retryTable).result with
  | error fault =>
      rw [hrun] at hok
      cases hok
  | ok report =>
      rcases Pipeline.run_keeps_identities hconfig hdistinct hrun with ⟨hnodup, hlarger, hlasting⟩
      refine ⟨report, hconfig, hdistinct, rfl, hnodup, ?_, ?_⟩
      · exact ⟨hcopied, hfresh, (hlarger ⟨10⟩ hcopied hfresh).1⟩
      · refine hlasting (.call ⟨6⟩ (.ident ⟨7⟩ "f") [] false) ?_ rfl
        simp [retryFile, File.nodes, TopDecl.nodes, Block.nodes, Stmts.nodes, Stmt.parts,
          OptStmt.headerNodes, OptExpr.nodes, Expr.nodes, Exprs.nodes]

end Desugar
