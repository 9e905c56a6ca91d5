import Desugar.Proofs.Climbing
import Desugar.Proofs.RunRenewal

/-!
# What a run leaves of the symbol table

A run adds to the table and takes nothing away, except that the scope of a node
can move on to a new one.  A name that no scope around a place declared is not
captured either: what it may come to resolve to is a binding of the run itself.
-/

namespace Desugar

namespace SymbolTable

/-!
## Resolving
-/

def Rooted (table : SymbolTable) : Prop :=
  ∀ (i : Nat) (scope : Scope) (parent : ScopeId), table.scopes[i]? = some scope →
    scope.parent = some parent → parent.index < table.scopes.size

namespace KeepsScopes

variable {old new : SymbolTable}

theorem climb_eq (h : old.KeepsScopes new) (hrooted : old.Rooted) (k : Nat) {scope : ScopeId}
    (hscope : scope.index < old.scopes.size) :
    new.climb k scope = old.climb k scope ∧
      ∀ top, old.climb k scope = some top → top.index < old.scopes.size := by
  induction k generalizing scope with
  | zero =>
    refine ⟨rfl, fun top htop => ?_⟩
    rw [← Option.some.inj htop]
    exact hscope
  | succ k ih =>
    have hold : old.scope? scope = some old.scopes[scope.index] :=
      Array.getElem?_eq_getElem hscope
    rcases h.gains scope.index _ hold with ⟨scope', hscope', hgains⟩
    have hnew : new.scope? scope = some scope' := hscope'
    unfold climb
    rw [hold, hnew, Option.bind_some, Option.bind_some, hgains.parent]
    cases hparent : old.scopes[scope.index].parent with
    | none => exact ⟨rfl, by rintro _ ⟨⟩⟩
    | some parent => exact ih (hrooted _ _ _ hold hparent)

theorem lookupLocal_cases (h : old.KeepsScopes new) {scope : ScopeId}
    (hscope : scope.index < old.scopes.size) {name : String} {binding : BindingId}
    (hfound : new.lookupLocal scope name = some binding) :
    old.lookupLocal scope name = some binding ∨ old.binding? binding = none := by
  have hold : old.scope? scope = some old.scopes[scope.index] :=
    Array.getElem?_eq_getElem hscope
  rcases h.gains scope.index _ hold with ⟨scope', hscope', hgains⟩
  have hnew : new.scope? scope = some scope' := hscope'
  rcases hgains.names with ⟨more, hmore, hentries⟩
  unfold lookupLocal at hfound ⊢
  rw [hnew, Option.bind_some, Scope.find?, hmore, List.find?_append] at hfound
  rw [hold, Option.bind_some, Scope.find?]
  cases hfirst : old.scopes[scope.index].names.find? (fun entry => entry.1 == name) with
  | some entry =>
    left
    rw [hfirst] at hfound
    exact hfound
  | none =>
    right
    rw [hfirst, Option.none_or] at hfound
    rcases Option.map_eq_some_iff.mp hfound with ⟨entry, hentry, rfl⟩
    exact Array.getElem?_eq_none (hentries entry (List.mem_of_find?_eq_some hentry)).1

theorem binding?_of_lookup (h : old.KeepsScopes new) (hrooted : old.Rooted) {scope : ScopeId}
    (hscope : scope.index < old.scopes.size) {name : String} {binding : BindingId}
    (hnone : old.lookup scope name = none) (hfound : new.lookup scope name = some binding) :
    old.binding? binding = none := by
  rcases List.exists_of_findSome?_eq_some hfound with ⟨top, htop, hlocal⟩
  rcases (new.mem_chain_iff scope top).mp htop with ⟨k, hk⟩
  rcases h.climb_eq hrooted k hscope with ⟨hsame, hinside⟩
  rw [hsame] at hk
  rcases h.lookupLocal_cases (hinside top hk) hlocal with hold | hnew
  · have hmissed := List.findSome?_eq_none_iff.mp hnone top
      ((old.mem_chain_iff scope top).mpr ⟨k, hk⟩)
    rw [hmissed] at hold
    cases hold
  · exact hnew

end KeepsScopes

/-!
## Runs
-/

/-- A table made from another one by adding to it, where identities that satisfy
a predicate count as new. -/
structure Enlarged (fresh : NodeId → Prop) (old new : SymbolTable) : Prop where
  types : old.types.toList <+: new.types.toList
  bindings : old.bindings.toList <+: new.bindings.toList
  exprTypes : ∀ (id : NodeId) (ty : TypeId), old.exprTypes[id]? = some ty →
    new.exprTypes[id]? = some ty
  defs : ∀ (id : NodeId) (binding : BindingId), old.defs[id]? = some binding →
    new.defs[id]? = some binding
  uses : ∀ (id : NodeId) (binding : BindingId), old.uses[id]? = some binding →
    new.uses[id]? = some binding
  selections : ∀ (id : NodeId) (selection : Selection), old.selections[id]? = some selection →
    new.selections[id]? = some selection
  scopes : ∀ (i : Nat) (scope : Scope), old.scopes[i]? = some scope →
    ∃ scope', new.scopes[i]? = some scope' ∧ scope.Gains old.bindings.size new.bindings scope'
  scopeOf : ∀ (id : NodeId) (scope : ScopeId), old.scopeOf[id]? = some scope →
    new.scopeOf[id]? = some scope ∨
      (new.scopeOf[id]? = none ∧ ∃ key, fresh key ∧ new.scopeOf[key]? = some scope)

end SymbolTable

theorem NodeMap.getElem?_of_below {α : Type} {bound : Nat} {old new : NodeMap α}
    (hbelow : ∀ id ∈ old, id.Below bound)
    (hsame : ∀ id : NodeId, id.Below bound → new[id]? = old[id]?)
    (id : NodeId) (fact : α) (h : old[id]? = some fact) : new[id]? = some fact := by
  have hmem : id ∈ old := Std.ExtTreeMap.mem_iff_isSome_getElem?.mpr (by rw [h]; rfl)
  exact (hsame id (hbelow id hmem)).trans h

theorem Pass.Evolves.enlarged {lib : Liberty} {p q : Pass} (h : p.Evolves lib q) (hdrawn : p.Drawn)
    (hnamed : p.table.Named) :
    p.table.Enlarged (fun key => p.ids.count ≤ key.val.toNat) q.table where
  types := by
    rcases h.added with ⟨more, hmore, _⟩
    rw [hmore]
    exact List.prefix_append _ _
  bindings := by
    apply List.prefix_iff_getElem?.mpr
    intro i hi
    rw [Array.getElem?_toList, Array.getElem_toList]
    exact h.table.bindings i _ (Array.getElem?_eq_getElem _)
  exprTypes := NodeMap.getElem?_of_below (fun id hid => hdrawn id (.inl hid)) h.table.exprTypes
  defs := NodeMap.getElem?_of_below (fun id hid => hdrawn id (.inr (.inl hid))) h.table.defs
  uses := NodeMap.getElem?_of_below (fun id hid => hdrawn id (.inr (.inr (.inl hid)))) h.table.uses
  selections := NodeMap.getElem?_of_below
    (fun id hid => hdrawn id (.inr (.inr (.inr (.inl hid))))) h.table.selections
  scopes := (h.scopes hnamed).gains
  scopeOf id scope hscope := by
    have hmem : id ∈ p.table.scopeOf :=
      Std.ExtTreeMap.mem_iff_isSome_getElem?.mpr (by rw [hscope]; rfl)
    rcases h.scopeOf id (hdrawn id (.inr (.inr (.inr (.inr hmem))))) with
      hsame | ⟨hgone, scope', key, hscope', hkey, _, hmoved⟩
    · exact .inl (hsame.trans hscope)
    · cases Option.some.inj (hscope.symm.trans hscope')
      exact .inr ⟨hgone, key, hkey, hmoved⟩

def NodeId.Unseen (file : File) (table : SymbolTable) (key : NodeId) : Prop :=
  (∀ id ∈ file.ids, id.val < key.val) ∧ ∀ id, table.Recorded id → id.val < key.val

theorem SymbolTable.Enlarged.mono {fresh fresh' : NodeId → Prop} {old new : SymbolTable}
    (h : old.Enlarged fresh new) (himp : ∀ key, fresh key → fresh' key) :
    old.Enlarged fresh' new :=
  { h with
    scopeOf := fun id scope hscope => (h.scopeOf id scope hscope).imp_right
      fun ⟨hgone, key, hkey, hmoved⟩ => ⟨hgone, key, himp key hkey, hmoved⟩ }

/-- Whatever rules run in whatever order, a run only adds to a table, and a name
that did not resolve from a scope can only resolve to a new binding, if no
parent of a scope is missing. -/
theorem Pipeline.run_extends_table {config : Config} {pipeline : Pipeline} {file : File}
    {table : SymbolTable} {report : Report} (hconfig : ofConfig config = .ok pipeline)
    (hnamed : table.Named) (hrun : (pipeline.run file table).result = .ok report) :
    table.Enlarged (NodeId.Unseen file table) (pipeline.run file table).table ∧
      (table.Rooted → ∀ (scope : ScopeId) (name : String), scope.index < table.scopes.size →
        table.lookup scope name = none →
        ∀ binding, (pipeline.run file table).table.lookup scope name = some binding →
          table.binding? binding = none) := by
  rcases supply_of_run hrun with ⟨ids, hids⟩
  rcases steps_of_run hids with ⟨left, _, htable, hsteps⟩
  rcases Progress.start_drawn file.spelledNames hids with ⟨hdrawn, hbelow⟩
  have hreserve : (Progress.start ⟨file, table, ids, ⟨[], []⟩⟩).Evolves .full
      (Progress.start ⟨file, table.reserve file.spelledNames, ids, ⟨[], []⟩⟩) :=
    .reserve file.spelledNames
  have hevolves :=
    hreserve.trans (steps_evolves (accepted_of_ofConfig hconfig).2.subset hdrawn hsteps).1
  rw [htable]
  constructor
  · apply (hevolves.enlarged hdrawn hnamed).mono
    intro key hkey
    constructor
    · exact fun id hid => UInt32.lt_iff_toNat_lt.mpr (Nat.lt_of_lt_of_le (hbelow id hid) hkey)
    · exact fun id hid => UInt32.lt_iff_toNat_lt.mpr (Nat.lt_of_lt_of_le (hdrawn id hid) hkey)
  · intro hrooted scope name hscope hnone binding hfound
    exact (hevolves.scopes hnamed).binding?_of_lookup hrooted hscope hnone hfound

/-- Two variables exchange their values, for which the run opens a scope. -/
def exchangeFile : File :=
  ⟨⟨0⟩, "main", "", [], [.func ⟨⟨1⟩, ⟨⟨2⟩, "main"⟩, none, ⟨[], [], false⟩, some ⟨⟨3⟩,
    [.assign ⟨4⟩ [.ident ⟨5⟩ "x", .ident ⟨6⟩ "y"] .assign [.ident ⟨7⟩ "y", .ident ⟨8⟩ "x"]]⟩⟩]⟩

/-- One of the variables is declared in the scope of the function.  A second
scope has the given parent. -/
def exchangeTable (parent : Option ScopeId) : SymbolTable :=
  { SymbolTable.empty with
    types := #[.basic .int]
    exprTypes :=
      ((((∅ : NodeMap TypeId).insert ⟨5⟩ ⟨0⟩).insert ⟨6⟩ ⟨0⟩).insert ⟨7⟩ ⟨0⟩).insert ⟨8⟩ ⟨0⟩
    scopes := #[⟨none, [("x", ⟨0⟩)]⟩, ⟨parent, []⟩]
    scopeOf := (∅ : NodeMap ScopeId).insert ⟨3⟩ ⟨0⟩
    bindings := #[⟨"x", some ⟨0⟩, ⟨0⟩, .var, false⟩] }

theorem exchangeTable_named (parent : Option ScopeId) : (exchangeTable parent).Named := by
  intro i scope hscope entry hentry
  have hcases : scope = ⟨none, [("x", ⟨0⟩)]⟩ ∨ scope = ⟨parent, []⟩ := by
    simpa [exchangeTable] using Array.mem_of_getElem? hscope
  rcases hcases with rfl | rfl
  · cases List.mem_singleton.mp hentry
    exact ⟨_, rfl, rfl⟩
  · cases hentry

theorem after?_exchangeFile (parent : Option ScopeId) :
    NodeSupply.after? (exchangeFile.maxId.larger (exchangeTable parent).maxNode) = some ⟨9⟩ := by
  have hkeys : (exchangeTable parent).keys = (exchangeTable none).keys := rfl
  apply NodeSupply.after?_of_largest 8
  · decide
  · decide +kernel
  · decide +kernel
  · rw [hkeys]
    decide +kernel

theorem isClean_exchange (parent : Option ScopeId) (hparent : parent = none ∨ parent = some ⟨2⟩) :
    (Pipeline.default.run exchangeFile (exchangeTable parent)).isClean = true := by
  rcases hparent with rfl | rfl
  all_goals
    rw [Pipeline.run_eq_of_ids (after?_exchangeFile _)]
    decide +kernel

theorem exchange_extends_table :
    ∃ report, Pipeline.ofConfig {} = .ok Pipeline.default ∧ (exchangeTable none).Named ∧
      (Pipeline.default.run exchangeFile (exchangeTable none)).result = .ok report ∧
      (exchangeTable none).Enlarged (NodeId.Unseen exchangeFile (exchangeTable none))
        (Pipeline.default.run exchangeFile (exchangeTable none)).table ∧
      (exchangeTable none).Rooted ∧ (exchangeTable none).lookup ⟨1⟩ "x" = none ∧
      (Pipeline.default.run exchangeFile (exchangeTable none)).table.lookup ⟨1⟩ "x" ≠ some ⟨0⟩ := by
  rcases Pipeline.RunResult.report_of_isClean (isClean_exchange none (.inl rfl)) with
    ⟨report, hrun, _⟩
  have hconfig : Pipeline.ofConfig {} = .ok Pipeline.default := rfl
  have hrooted : (exchangeTable none).Rooted := by
    intro i scope parent hscope hparent
    have hcases : scope = ⟨none, [("x", ⟨0⟩)]⟩ ∨ scope = ⟨none, []⟩ := by
      simpa [exchangeTable] using Array.mem_of_getElem? hscope
    rcases hcases with rfl | rfl
    · cases hparent
    · cases hparent
  rcases Pipeline.run_extends_table hconfig (exchangeTable_named none) hrun with ⟨hlarger, hlookup⟩
  refine ⟨report, hconfig, exchangeTable_named none, hrun, hlarger, hrooted, rfl, fun hfound => ?_⟩
  cases hlookup hrooted ⟨1⟩ "x" (by decide) rfl ⟨0⟩ hfound

/-- A name can come to resolve to an old binding through a missing parent: the
run opens a scope under just that number. -/
theorem missing_parent_captures :
    ¬ ∀ (config : Config) (pipeline : Pipeline) (file : File) (table : SymbolTable)
      (report : Report),
      Pipeline.ofConfig config = .ok pipeline → table.Named →
      (pipeline.run file table).result = .ok report →
      ∀ (scope : ScopeId) (name : String), scope.index < table.scopes.size →
        table.lookup scope name = none →
        ∀ binding, (pipeline.run file table).table.lookup scope name = some binding →
          table.binding? binding = none := by
  intro h
  rcases Pipeline.RunResult.report_of_isClean (isClean_exchange (some ⟨2⟩) (.inr rfl)) with
    ⟨report, hrun, _⟩
  have hfound :
      (Pipeline.default.run exchangeFile (exchangeTable (some ⟨2⟩))).table.lookup ⟨1⟩ "x" =
      some ⟨0⟩ := by
    rw [Pipeline.run_eq_of_ids (after?_exchangeFile _)]
    decide +kernel
  have hnew := h {} Pipeline.default exchangeFile (exchangeTable (some ⟨2⟩)) report rfl
    (exchangeTable_named _) hrun ⟨1⟩ "x" (by decide) rfl ⟨0⟩ hfound
  cases hnew

end Desugar
