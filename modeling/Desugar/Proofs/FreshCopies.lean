import Desugar.Proofs.CopiedText
import Desugar.Proofs.WellFormed

/-!
# Fresh copies

A copy of a statement has consecutive fresh identities, reads like the statement
without them, and has the facts of the statement.  Nothing else changes in the table.
-/

namespace Desugar

namespace SymbolTable

def factsOf (table : SymbolTable) (id : NodeId) :
    Option TypeId × Option BindingId × Option BindingId × Option Selection × Option ScopeId :=
  (table.exprTypes[id]?, table.defs[id]?, table.uses[id]?, table.selections[id]?,
    table.scopeOf[id]?)

theorem factsOf_copyFacts_self {table : SymbolTable} {node : NodeId} (source : NodeId)
    (h : ¬ table.Recorded node) :
    (table.copyFacts source node).factsOf node = table.factsOf source := by
  have hentry : ∀ {α : Type} {facts : NodeMap α}, node ∉ facts →
      (copyEntry source node facts)[node]? = facts[source]? := by
    intro α facts hfresh
    unfold copyEntry
    cases hsource : facts[source]? with
    | none => exact Std.ExtTreeMap.getElem?_eq_none hfresh
    | some fact => exact Std.ExtTreeMap.getElem?_insert_self
  simp only [Recorded, not_or] at h
  simp only [factsOf, copyFacts, hentry, h, not_false_eq_true]

theorem factsOf_copyFacts_of_ne {table : SymbolTable} {source node id : NodeId} (h : node ≠ id) :
    (table.copyFacts source node).factsOf id = table.factsOf id := by
  simp only [factsOf, copyFacts, getElem?_copyEntry_of_ne h]

end SymbolTable

def positions (ids : List NodeId) : List Nat :=
  ids.map fun id => id.val.toNat

theorem not_mem_of_numbers {ids : List NodeId} {start count : Nat} {id : NodeId}
    (hids : positions ids = List.range' start count) (h : id.Below start) : id ∉ ids := by
  intro hmem
  have hnumber : id.val.toNat ∈ positions ids := List.mem_map_of_mem hmem
  rw [hids, List.mem_range'_1] at hnumber
  exact Nat.lt_irrefl _ (Nat.lt_of_lt_of_le h hnumber.1)

theorem NodeSupply.take?_eq_none_iff (supply : NodeSupply) :
    supply.take? = none ↔ supply.count = last.toNat := by
  unfold take? successor? count
  split
  · rename_i hlast
    simp [hlast]
  · rename_i hlast
    simpa using fun h => hlast (UInt32.toNat_inj.mp h)

/-- What drawing copies of some identities comes to: there are too few left, or the
copies are those that come next. -/
def NodeId.Copied (sources : List NodeId) (supply : NodeSupply) (table : SymbolTable) :
    Option (List NodeId × NodeSupply × SymbolTable) → Prop
  | none => NodeSupply.last.toNat < supply.count + sources.length
  | some (copies, _, after) =>
      supply.count + sources.length ≤ NodeSupply.last.toNat ∧
        positions copies = List.range' supply.count sources.length ∧
        copies.map after.factsOf = sources.map table.factsOf ∧
        ∀ id ∉ copies, after.factsOf id = table.factsOf id

theorem NodeId.copied (sources : List NodeId) {supply : NodeSupply} {table : SymbolTable}
    (hsources : ∀ id ∈ sources, id.Below supply.count)
    (htable : ∀ id, table.Recorded id → id.Below supply.count) :
    NodeId.Copied sources supply table (sources.mapM NodeId.refresh (supply, table)) := by
  induction sources generalizing supply table with
  | nil => exact ⟨Nat.le_of_lt_succ supply.next.toNat_lt, rfl, rfl, fun _ _ => rfl⟩
  | cons source rest ih =>
    have hrun : (source :: rest).mapM NodeId.refresh (supply, table) =
        (source.refresh (supply, table)).bind fun drawn =>
          (rest.mapM NodeId.refresh drawn.2).bind fun others =>
            some (drawn.1 :: others.1, others.2) := by
      rw [List.mapM_cons]
      rfl
    rw [hrun, NodeId.refresh_run]
    cases htake : supply.take? with
    | none =>
      rw [supply.take?_eq_none_iff] at htake
      show _ < _
      rw [htake, List.length_cons]
      omega
    | some drawn =>
      rcases drawn with ⟨fresh, supply'⟩
      rcases NodeSupply.take?_eq_some htake with ⟨rfl, hcount⟩
      let next := table.copyFacts source ⟨supply.next⟩
      have hgrown : ∀ id : NodeId, id.Below supply.count → id.Below supply'.count :=
        fun id hid => Nat.lt_of_lt_of_eq (Nat.lt_succ_of_lt hid) hcount.symm
      have hnew : NodeId.Below supply'.count ⟨supply.next⟩ :=
        Nat.lt_of_lt_of_eq (Nat.lt_succ_self _) hcount.symm
      have hfacts : next.factsOf ⟨supply.next⟩ = table.factsOf source :=
        SymbolTable.factsOf_copyFacts_self source fun h => Nat.lt_irrefl _ (htable _ h)
      have hothers : ∀ id : NodeId, (⟨supply.next⟩ : NodeId) ≠ id →
          next.factsOf id = table.factsOf id := fun id => SymbolTable.factsOf_copyFacts_of_ne
      have hrest : NodeId.Copied rest supply' next (rest.mapM NodeId.refresh (supply', next)) := by
        refine ih (fun id hid => hgrown id (hsources id (.tail _ hid))) fun id hid => ?_
        rcases SymbolTable.recorded_copyFacts hid with hid | rfl
        · exact hgrown id (htable id hid)
        · exact hnew
      show NodeId.Copied _ _ _ ((rest.mapM NodeId.refresh (supply', next)).bind _)
      cases hmap : rest.mapM NodeId.refresh (supply', next) with
      | none =>
        rw [hmap] at hrest
        simp only [Copied] at hrest
        show _ < _
        rw [List.length_cons]
        omega
      | some result =>
        rcases result with ⟨copies, supply'', after⟩
        rw [hmap] at hrest
        rcases hrest with ⟨hroom, hnumbers, hcopies, hkept⟩
        refine ⟨?_, ?_, ?_, ?_⟩
        · rw [List.length_cons]
          omega
        · rw [List.length_cons, List.range'_succ, ← hcount, ← hnumbers]
          rfl
        · have hsame : rest.map next.factsOf = rest.map table.factsOf :=
            List.map_congr_left fun id hid =>
              hothers id ((hsources id (.tail _ hid)).ne (Nat.le_refl _))
          rw [List.map_cons, List.map_cons, hkept _ (not_mem_of_numbers hnumbers hnew), hfacts,
            hcopies, hsame]
        · intro id hid
          rw [hkept id fun h => hid (.tail _ h), hothers id fun h => hid (h ▸ .head _)]

def Stmt.text (s : Stmt) : Stmt :=
  Id.run (s.mapIds NodeId.blank)

/-- A copy is made as long as there are identities left.  It has the text of the
statement and the identities that come next, the table records for each of them what it
records for the identity in its place, and for all others what it recorded before. -/
theorem Stmt.refresh_faithful (s : Stmt) {supply : NodeSupply} {table : SymbolTable}
    (hids : ∀ id ∈ s.ids, id.Below supply.count)
    (htable : ∀ id ∈ table.keys, id.Below supply.count) :
    (s.refresh (supply, table) = none ↔ NodeSupply.last.toNat < supply.count + s.ids.length) ∧
    ∀ copy rest after, s.refresh (supply, table) = some (copy, rest, after) →
      copy.text = s.text ∧ copy.ids.Nodup ∧
      copy.ids.map (fun id => id.val.toNat) = List.range' supply.count s.ids.length ∧
      copy.ids.map after.factsOf = s.ids.map after.factsOf ∧
      ∀ id ∉ copy.ids, after.factsOf id = table.factsOf id := by
  have hcopied :=
    NodeId.copied s.ids hids fun id hid => htable id (SymbolTable.mem_keys_iff.mpr hid)
  have hrun : s.ids.mapM NodeId.refresh (supply, table) =
      (s.refresh (supply, table)).map fun result => (result.1.ids, result.2) := by
    rw [← Stmt.ids_mapIds NodeId.refresh s]
    show (s.refresh (supply, table)).bind _ = _
    cases s.refresh (supply, table) <;> rfl
  rw [hrun] at hcopied
  cases hrefresh : s.refresh (supply, table) with
  | none =>
    rw [hrefresh] at hcopied
    exact ⟨⟨fun _ => hcopied, fun _ => rfl⟩, fun _ _ _ h => by cases h⟩
  | some result =>
    rcases result with ⟨copy, rest, after⟩
    rw [hrefresh] at hcopied
    rcases hcopied with ⟨hroom, hnumbers, hcopies, hkept⟩
    refine ⟨⟨fun h => absurd h (Option.some_ne_none _), fun h => absurd h (Nat.not_lt.mpr hroom)⟩,
      ?_⟩
    rintro _ _ _ ⟨⟩
    refine ⟨?_, ?_, hnumbers, ?_, hkept⟩
    · let origin : Pass := ⟨⟨⟨0⟩, "", "", [], []⟩, table, supply, [], default, 0, 0⟩
      have hcopy := (@Stmt.refreshes origin s copy rest after hrefresh).2 _ (.refl _)
      exact Stmt.blank_of_mapIds hcopy
    · exact List.Nodup.of_map _ (hnumbers ▸ List.nodup_range')
    · rw [hcopies]
      exact List.map_congr_left fun id hid =>
        (hkept id (not_mem_of_numbers hnumbers (hids id hid))).symm

/-- A function literal with a parameter and a declaration that share an identity. -/
def handlerStmt : Stmt :=
  .assign ⟨1⟩ [.ident ⟨2⟩ "handle"] .assign [.funcLit ⟨3⟩
    ⟨[⟨[⟨⟨4⟩, "n"⟩], .named "int"⟩], [], false⟩
    ⟨⟨5⟩, [.decl ⟨6⟩ ⟨⟨7⟩, .var, [.value ⟨⟨8⟩, [⟨⟨4⟩, "m"⟩], none, [.ident ⟨9⟩ "n"]⟩]⟩]⟩]

def handlerTable : SymbolTable :=
  { SymbolTable.empty with
    defs := (∅ : NodeMap BindingId).insert ⟨4⟩ ⟨0⟩
    uses := (∅ : NodeMap BindingId).insert ⟨9⟩ ⟨0⟩
    scopeOf := (∅ : NodeMap ScopeId).insert ⟨5⟩ ⟨0⟩ }

theorem handlerStmt_copied :
    (∀ id ∈ handlerStmt.ids, id.Below (NodeSupply.mk 20).count) ∧
      (∀ id ∈ handlerTable.keys, id.Below (NodeSupply.mk 20).count) ∧
      ∃ copy rest after, handlerStmt.refresh (⟨20⟩, handlerTable) = some (copy, rest, after) ∧
        copy.text = handlerStmt.text ∧
        copy.ids.map after.factsOf = handlerStmt.ids.map after.factsOf := by
  have hids : ∀ id ∈ handlerStmt.ids, id.Below (NodeSupply.mk 20).count := by
    unfold NodeId.Below
    decide +kernel
  have htable : ∀ id ∈ handlerTable.keys, id.Below (NodeSupply.mk 20).count := by
    unfold NodeId.Below
    decide +kernel
  have hcopied := handlerStmt.refresh_faithful hids htable
  refine ⟨hids, htable, ?_⟩
  cases hrefresh : handlerStmt.refresh (⟨20⟩, handlerTable) with
  | none => exact absurd (hcopied.1.mp hrefresh) (by decide +kernel)
  | some result =>
    have h := hcopied.2 _ _ _ hrefresh
    exact ⟨_, _, _, rfl, h.1, h.2.2.2.1⟩

end Desugar
