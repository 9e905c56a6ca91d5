import Desugar.Proofs.LawfulRules
import Desugar.Proofs.TableExtension

/-!
# The forest of scopes

The scopes of a consistent table form a forest: a parent comes before its children.  What
a scope holds under a name is the last binding declared there with that name.  Climbing
such a table ends, so that looking a name up and testing whether one scope is within
another follow the parents as far as they go.  Every operation on scopes keeps a table
consistent, and so do all rules.
-/

namespace Desugar
namespace SymbolTable

def HasScope (table : SymbolTable) (scope : ScopeId) : Prop :=
  scope.index < table.scopes.size

def parentOf (table : SymbolTable) (scope : ScopeId) : Option ScopeId :=
  (table.scope? scope).bind Scope.parent

def Declares (table : SymbolTable) (scope : ScopeId) (name : String) (id : BindingId) : Prop :=
  ∃ binding, table.binding? id = some binding ∧ binding.scope = scope ∧ binding.name = name

/-- Parents come before their children, recorded scopes stand in the table, and a scope
holds under each name the last binding declared in it with that name. -/
structure ScopeConsistent (table : SymbolTable) : Prop where
  parents : ∀ scope parent, table.parentOf scope = some parent → parent.index < scope.index
  bindings : ∀ binding ∈ table.bindings, table.HasScope binding.scope
  scopeOf : ∀ (node : NodeId) (scope : ScopeId), table.scopeOf[node]? = some scope →
    table.HasScope scope
  lookupLocal : ∀ scope name id, table.lookupLocal scope name = some id ↔
    table.Declares scope name id ∧ ∀ later, table.Declares scope name later → later.index ≤ id.index

/-!
## Climbing
-/

namespace ScopeConsistent

variable {table : SymbolTable} (h : table.ScopeConsistent)

include h

theorem wellFounded_parents :
    WellFounded fun parent scope => table.parentOf scope = some parent :=
  Subrelation.wf (h.parents _ _) (InvImage.wf ScopeId.index Nat.lt_wfRel.wf)

theorem chainFrom_eq {m n : Nat} {scope : ScopeId} (hm : scope.index < m) (hn : scope.index < n) :
    table.chainFrom m scope = table.chainFrom n scope := by
  induction m generalizing n scope with
  | zero => exact absurd hm (Nat.not_lt_zero _)
  | succ m ih =>
    cases n with
    | zero => exact absurd hn (Nat.not_lt_zero _)
    | succ n =>
      unfold chainFrom
      cases hparent : (table.scope? scope).bind Scope.parent with
      | none => rfl
      | some parent =>
        have := h.parents scope parent hparent
        exact congrArg (scope :: ·) (ih (by omega) (by omega))

theorem chain_eq (scope : ScopeId) :
    table.chain scope = scope :: ((table.parentOf scope).map table.chain).getD [] := by
  unfold chain
  rw [chainFrom]
  cases hparent : (table.scope? scope).bind Scope.parent with
  | none => rw [parentOf, hparent]; rfl
  | some parent =>
    have hlt := h.parents scope parent hparent
    have hscope : scope.index < table.scopes.size := by
      by_contra hscope
      rw [scope?, Array.getElem?_eq_none (Nat.le_of_not_lt hscope)] at hparent
      cases hparent
    rw [parentOf, hparent]
    exact congrArg (scope :: ·) (h.chainFrom_eq (by omega) (by omega))

theorem isWithin_iff (inner outer : ScopeId) : table.isWithin inner outer = true ↔
    inner = outer ∨
      ∃ parent, table.parentOf inner = some parent ∧ table.isWithin parent outer = true := by
  unfold isWithin
  rw [h.chain_eq inner, List.contains_iff_mem, List.mem_cons, eq_comm]
  refine or_congr_right ?_
  cases table.parentOf inner with
  | none => simp
  | some parent => simp

theorem lookup_eq (scope : ScopeId) (name : String) : table.lookup scope name =
    (table.lookupLocal scope name <|> (table.parentOf scope).bind (table.lookup · name)) := by
  unfold lookup
  rw [h.chain_eq scope, List.findSome?_cons]
  cases table.lookupLocal scope name with
  | some id => rfl
  | none => cases table.parentOf scope <;> rfl

theorem lookup_iff (scope : ScopeId) (name : String) (id : BindingId) :
    table.lookup scope name = some id ↔ ∃ k found, table.climb k scope = some found ∧
      table.lookupLocal found name = some id ∧
      ∀ j < k, ∀ nearer, table.climb j scope = some nearer →
        table.lookupLocal nearer name = none := by
  induction scope using h.wellFounded_parents.induction with
  | h scope ih =>
    rw [h.lookup_eq]
    cases hlocal : table.lookupLocal scope name with
    | some first =>
      constructor
      · rintro ⟨⟩
        exact ⟨0, scope, rfl, hlocal, fun j hj => absurd hj (Nat.not_lt_zero j)⟩
      · rintro ⟨k, found, hk, hfound, hnearer⟩
        cases k with
        | zero =>
          cases hk
          exact hlocal.symm.trans hfound
        | succ k =>
          rw [hnearer 0 (Nat.succ_pos k) scope rfl] at hlocal
          cases hlocal
    | none =>
      have hclimb : ∀ k parent, table.parentOf scope = some parent →
          table.climb (k + 1) scope = table.climb k parent :=
        fun k parent hparent => congrArg (·.bind (table.climb k)) hparent
      constructor
      · intro hfound
        rcases Option.bind_eq_some_iff.mp hfound with ⟨parent, hparent, hfound⟩
        rcases (ih parent hparent).mp hfound with ⟨k, found, hk, hfound, hnearer⟩
        refine ⟨k + 1, found, (hclimb k parent hparent).trans hk, hfound, ?_⟩
        intro j hj nearer hnear
        cases j with
        | zero =>
          cases hnear
          exact hlocal
        | succ j =>
          exact hnearer j (Nat.lt_of_succ_lt_succ hj) nearer
            ((hclimb j parent hparent).symm.trans hnear)
      · rintro ⟨k, found, hk, hfound, hnearer⟩
        cases k with
        | zero =>
          cases hk
          rw [hlocal] at hfound
          cases hfound
        | succ k =>
          rcases Option.bind_eq_some_iff.mp hk with ⟨parent, hparent, hk⟩
          refine Option.bind_eq_some_iff.mpr ⟨parent, hparent, (ih parent hparent).mpr
            ⟨k, found, hk, hfound, fun j hj nearer hnear => ?_⟩⟩
          exact hnearer (j + 1) (Nat.succ_lt_succ hj) nearer ((hclimb j parent hparent).trans hnear)

end ScopeConsistent

/-!
## Operations
-/

theorem find?_setName (name other : String) (id : BindingId) (names : List (String × BindingId)) :
    (Scope.setName name id names).find? (fun entry => entry.1 == other) =
      if name = other then some (name, id) else names.find? (fun entry => entry.1 == other) := by
  induction names with
  | nil => by_cases hother : name = other <;> simp [Scope.setName, hother]
  | cons entry rest ih =>
    unfold Scope.setName
    by_cases hentry : entry.1 = name <;> by_cases hother : name = other <;>
      simp_all [List.find?_cons]

theorem lookupLocal_pushBinding {table : SymbolTable} {binding : Binding}
    (hscope : table.HasScope binding.scope) (scope : ScopeId) (name : String) :
    (table.pushBinding binding).2.lookupLocal scope name =
      if binding.scope = scope ∧ binding.name = name then some ⟨table.bindings.size⟩
      else table.lookupLocal scope name := by
  unfold SymbolTable.lookupLocal scope?
  simp only [pushBinding, Array.getElem?_modify]
  by_cases hsame : binding.scope = scope
  · subst hsame
    rw [Array.getElem?_eq_getElem hscope]
    simp only [if_true, Option.map_some, Option.bind_some, true_and, Scope.find?, Scope.insert,
      find?_setName]
    split <;> rfl
  · have hindex : binding.scope.index ≠ scope.index := fun h => hsame (congrArg ScopeId.mk h)
    rw [if_neg hindex, if_neg fun h => hsame h.1]

theorem declares_pushBinding {table : SymbolTable} {binding : Binding} (scope : ScopeId)
    (name : String) (id : BindingId) : (table.pushBinding binding).2.Declares scope name id ↔
      table.Declares scope name id ∨
        id = ⟨table.bindings.size⟩ ∧ binding.scope = scope ∧ binding.name = name := by
  unfold Declares binding?
  simp only [pushBinding, Array.getElem?_push]
  by_cases hid : id.index = table.bindings.size
  · have hnew : id = ⟨table.bindings.size⟩ := congrArg BindingId.mk hid
    simp [hnew]
  · have hold : id ≠ ⟨table.bindings.size⟩ := fun h => hid (congrArg BindingId.index h)
    simp [hid, hold]

/-- Whether the scopes that a table records for nodes stand in it. -/
def Anchored (table : SymbolTable) : Prop :=
  ∀ (node : NodeId) (scope : ScopeId), table.scopeOf[node]? = some scope → table.HasScope scope

namespace Anchored

variable {table : SymbolTable} {node : NodeId} {found : ScopeId}

theorem of_attachScope (h : table.Anchored) {target : NodeId} {scope : ScopeId}
    (hscope : table.HasScope scope)
    (hfound : (table.attachScope target scope).scopeOf[node]? = some found) :
    table.HasScope found := by
  rcases NodeMap.cases_insert hfound with rfl | hfound
  · exact hscope
  · exact h node found hfound

theorem of_moveScope (h : table.Anchored) {source target : NodeId}
    (hfound : (table.moveScope source target).2.scopeOf[node]? = some found) :
    table.HasScope found := by
  unfold SymbolTable.moveScope at hfound
  split at hfound
  · exact h node found hfound
  · rename_i scope hscope
    rcases NodeMap.cases_insert hfound with rfl | hfound
    · exact h source _ hscope
    · rw [Std.ExtTreeMap.getElem?_erase] at hfound
      split at hfound
      · cases hfound
      · exact h node found hfound

theorem of_copyFacts (h : table.Anchored) {source target : NodeId}
    (hfound : (table.copyFacts source target).scopeOf[node]? = some found) :
    table.HasScope found := by
  rcases NodeMap.exists_of_copyEntry hfound with ⟨other, hfound⟩
  exact h other found hfound

end Anchored

theorem parentOf_newScope (table : SymbolTable) (parent scope : ScopeId) :
    (table.newScope parent).2.parentOf scope =
      if scope.index = table.scopes.size then some parent else table.parentOf scope := by
  simp only [parentOf, scope?, newScope, Array.getElem?_push]
  split <;> rfl

theorem parentOf_pushBinding (table : SymbolTable) (binding : Binding) (scope : ScopeId) :
    (table.pushBinding binding).2.parentOf scope = table.parentOf scope := by
  simp only [parentOf, scope?, pushBinding, Array.getElem?_modify]
  split
  · exact Option.bind_map ..
  · rfl

namespace ScopeConsistent

variable {old new table : SymbolTable}

theorem of_same (h : old.ScopeConsistent) (hscopes : new.scopes = old.scopes)
    (hbindings : new.bindings = old.bindings)
    (hscopeOf : ∀ (node : NodeId) (scope : ScopeId), new.scopeOf[node]? = some scope →
      old.HasScope scope) : new.ScopeConsistent where
  parents := by
    unfold parentOf scope?
    rw [hscopes]
    exact h.parents
  bindings := by
    unfold HasScope
    rw [hscopes, hbindings]
    exact h.bindings
  scopeOf := by
    unfold HasScope
    rw [hscopes]
    exact hscopeOf
  lookupLocal := by
    unfold SymbolTable.lookupLocal scope? Declares binding?
    rw [hscopes, hbindings]
    exact h.lookupLocal

theorem empty : SymbolTable.empty.ScopeConsistent where
  parents := by
    rintro ⟨_ | index⟩ parent hparent <;> cases hparent
  bindings binding hbinding := absurd hbinding (Array.not_mem_empty binding)
  scopeOf _ _ hscope := by cases hscope
  lookupLocal := by
    rintro ⟨_ | index⟩ name id
    all_goals
      constructor
      · intro h
        cases h
      · rintro ⟨⟨_, ⟨⟩, _⟩, _⟩

theorem newScope (h : table.ScopeConsistent) {parent : ScopeId} (hparent : table.HasScope parent) :
    (table.newScope parent).2.ScopeConsistent := by
  have hsize : (table.newScope parent).2.scopes.size = table.scopes.size + 1 := Array.size_push ..
  have hkept : ∀ scope, table.HasScope scope → (table.newScope parent).2.HasScope scope :=
    fun scope hscope => Nat.lt_of_lt_of_eq (Nat.lt_succ_of_lt hscope) hsize.symm
  refine ⟨?_, fun binding hbinding => hkept _ (h.bindings binding hbinding),
    fun node scope hscope => hkept _ (h.scopeOf node scope hscope), ?_⟩
  · intro scope other hother
    rw [parentOf_newScope] at hother
    split at hother
    · rename_i hnew
      cases hother
      exact Nat.lt_of_lt_of_eq hparent hnew.symm
    · exact h.parents scope other hother
  · intro scope name id
    have hlocal :
        (table.newScope parent).2.lookupLocal scope name = table.lookupLocal scope name := by
      simp only [SymbolTable.lookupLocal, scope?, SymbolTable.newScope, Array.getElem?_push]
      split
      · rename_i hnew
        rw [Array.getElem?_eq_none (Nat.le_of_eq hnew.symm)]
        rfl
      · rfl
    rw [hlocal]
    exact h.lookupLocal scope name id

theorem pushBinding (h : table.ScopeConsistent) {binding : Binding}
    (hscope : table.HasScope binding.scope) : (table.pushBinding binding).2.ScopeConsistent := by
  have hsize : (table.pushBinding binding).2.scopes.size = table.scopes.size := Array.size_modify
  have hkept : ∀ scope, table.HasScope scope → (table.pushBinding binding).2.HasScope scope :=
    fun scope hscope => Nat.lt_of_lt_of_eq hscope hsize.symm
  have hnew : ∀ scope name id, table.Declares scope name id → id.index < table.bindings.size := by
    rintro scope name id ⟨found, hfound, -⟩
    exact (Array.getElem?_eq_some_iff.mp hfound).1
  refine ⟨?_, ?_, fun node scope hscope => hkept _ (h.scopeOf node scope hscope), ?_⟩
  · intro scope parent hparent
    rw [parentOf_pushBinding] at hparent
    exact h.parents scope parent hparent
  · intro other hother
    rcases Array.mem_push.mp hother with hother | rfl
    · exact hkept _ (h.bindings other hother)
    · exact hkept _ hscope
  · intro scope name id
    rw [lookupLocal_pushBinding hscope]
    simp only [declares_pushBinding]
    split
    · rename_i hsame
      constructor
      · rintro ⟨⟩
        refine ⟨.inr ⟨rfl, hsame⟩, ?_⟩
        rintro later (hlater | ⟨rfl, -⟩)
        · exact Nat.le_of_lt (hnew _ _ _ hlater)
        · exact Nat.le_refl _
      · rintro ⟨hid | ⟨rfl, -⟩, hlast⟩
        · exact absurd (hlast _ (.inr ⟨rfl, hsame⟩)) (Nat.not_le_of_lt (hnew _ _ _ hid))
        · rfl
    · rename_i hother
      simp only [hother, and_false, or_false]
      exact h.lookupLocal scope name id

theorem attachScope (h : table.ScopeConsistent) (node : NodeId) {scope : ScopeId}
    (hscope : table.HasScope scope) : (table.attachScope node scope).ScopeConsistent :=
  h.of_same rfl rfl fun _ _ => Anchored.of_attachScope h.scopeOf hscope

theorem moveScope (h : table.ScopeConsistent) (source target : NodeId) :
    (table.moveScope source target).2.ScopeConsistent := by
  refine h.of_same ?_ ?_ fun _ _ => Anchored.of_moveScope h.scopeOf
  all_goals
    unfold SymbolTable.moveScope
    split <;> rfl

theorem copyFacts (h : table.ScopeConsistent) (source target : NodeId) :
    (table.copyFacts source target).ScopeConsistent :=
  h.of_same rfl rfl fun _ _ => Anchored.of_copyFacts h.scopeOf

end ScopeConsistent

/-!
## Parents that end
-/

/-- Parents stand in the table and come to an end, and so do recorded scopes. -/
structure Climbable (table : SymbolTable) : Prop where
  parents : ∀ scope parent, table.parentOf scope = some parent → table.HasScope parent
  ends : WellFounded fun parent scope => table.parentOf scope = some parent
  scopeOf : ∀ (node : NodeId) (scope : ScopeId), table.scopeOf[node]? = some scope →
    table.HasScope scope

namespace Climbable

variable {old new table : SymbolTable}

theorem not_endless (h : table.Climbable) : ¬ table.Endless := by
  rintro ⟨scope, hscope⟩
  induction scope using h.ends.induction with
  | h scope ih =>
    have hclimb := (table.isEndless_iff scope).mp hscope
    rcases hclimb 1 with ⟨_, hparent⟩
    rcases Option.bind_eq_some_iff.mp hparent with ⟨parent, hparent, _⟩
    refine ih parent hparent ((table.isEndless_iff parent).mpr fun k => ?_)
    have hnext := hclimb (k + 1)
    rw [climb, hparent] at hnext
    exact hnext

theorem of_same (h : old.Climbable) (hsize : new.scopes.size = old.scopes.size)
    (hparents : ∀ scope, new.parentOf scope = old.parentOf scope)
    (hscopeOf : ∀ (node : NodeId) (scope : ScopeId), new.scopeOf[node]? = some scope →
      old.HasScope scope) : new.Climbable := by
  have hkept : ∀ scope, old.HasScope scope → new.HasScope scope :=
    fun scope hscope => Nat.lt_of_lt_of_eq hscope hsize.symm
  refine ⟨fun scope parent hparent => ?_, ?_, fun node scope hscope => ?_⟩
  · rw [hparents] at hparent
    exact hkept parent (h.parents scope parent hparent)
  · simp only [hparents]
    exact h.ends
  · exact hkept scope (hscopeOf node scope hscope)

theorem newScope (h : table.Climbable) {parent : ScopeId} (hparent : table.HasScope parent) :
    (table.newScope parent).2.Climbable := by
  have hsize : (table.newScope parent).2.scopes.size = table.scopes.size + 1 := Array.size_push ..
  have hkept : ∀ scope, table.HasScope scope → (table.newScope parent).2.HasScope scope :=
    fun scope hscope => Nat.lt_of_lt_of_eq (Nat.lt_succ_of_lt hscope) hsize.symm
  -- No parent is the new scope, so the parents of the others end as before.
  have hold : ∀ scope, table.HasScope scope → Acc
      (fun parent' scope => (table.newScope parent).2.parentOf scope = some parent') scope := by
    intro scope
    induction scope using h.ends.induction with
    | h scope ih =>
      refine fun hscope => ⟨_, fun above habove => ?_⟩
      rw [parentOf_newScope, if_neg (Nat.ne_of_lt hscope)] at habove
      exact ih above habove (h.parents scope above habove)
  have hparents : ∀ scope above, (table.newScope parent).2.parentOf scope = some above →
      table.HasScope above := by
    intro scope above habove
    rw [parentOf_newScope] at habove
    split at habove
    · cases habove
      exact hparent
    · exact h.parents scope above habove
  exact ⟨fun scope above habove => hkept above (hparents scope above habove),
    ⟨fun scope => ⟨_, fun above habove => hold above (hparents scope above habove)⟩⟩,
    fun node scope hscope => hkept scope (h.scopeOf node scope hscope)⟩

end Climbable
end SymbolTable

/-!
## Rules and runs
-/

def Pass.Scoped (p : Pass) : Token → Prop
  | .scope scope => p.table.HasScope scope
  | _ => True

namespace Pass.Act

variable {p q : Pass} {made : List Token}

theorem scopes_size_le {valid : Token → Prop} (h : p.Act valid q made) :
    p.table.scopes.size ≤ q.table.scopes.size := by
  cases h with
  | intern =>
    unfold SymbolTable.intern
    split
    · exact Nat.le_refl _
    · split <;> exact Nat.le_refl _
  | moveScope =>
    unfold SymbolTable.moveScope
    split <;> exact Nat.le_refl _
  | newScope => exact Nat.le.intro (Array.size_push ..).symm
  | declare => exact Nat.le_of_eq Array.size_modify.symm
  | _ => exact Nat.le_refl _

theorem hasScope_of_scopeOf (h : p.Act p.Scoped q made) (hp : p.table.Anchored)
    {node : NodeId} {scope : ScopeId} (hscope : q.table.scopeOf[node]? = some scope) :
    p.table.HasScope scope := by
  cases h with
  | intern =>
    unfold SymbolTable.intern at hscope
    split at hscope
    · exact hp node scope hscope
    · split at hscope <;> exact hp node scope hscope
  | attachScope hnode hnew => exact hp.of_attachScope hnew hscope
  | moveScope => exact hp.of_moveScope hscope
  | copyFacts => exact hp.of_copyFacts hscope
  | _ => exact hp node scope hscope

theorem scoped_made (h : p.Act p.Scoped q made) (hp : p.table.Anchored) :
    ∀ k ∈ made, q.Scoped k := by
  intro k hk
  have hsize := h.scopes_size_le
  cases h with
  | draw | intern =>
    cases List.mem_singleton.mp hk
    trivial
  | newScope =>
    cases List.mem_singleton.mp hk
    exact Nat.lt_of_lt_of_eq (Nat.lt_succ_self _) (Array.size_push ..).symm
  | @moveScope source target =>
    rcases List.mem_map.mp hk with ⟨scope, hscope, rfl⟩
    refine Nat.lt_of_lt_of_le (hp source scope ?_) hsize
    revert hscope
    unfold SymbolTable.moveScope
    split
    · exact fun h => by cases h
    · rename_i found hfound
      intro hscope
      cases Option.mem_toList.mp hscope
      exact hfound
  | _ => cases hk

theorem scopeConsistent (h : p.Act p.Scoped q made) (hp : p.table.ScopeConsistent) :
    q.table.ScopeConsistent := by
  have hscopeOf : ∀ (node : NodeId) (scope : ScopeId), q.table.scopeOf[node]? = some scope →
      p.table.HasScope scope := fun _ _ => h.hasScope_of_scopeOf hp.scopeOf
  cases h with
  | newScope hparent => exact hp.newScope hparent
  | declare name hscope => exact hp.pushBinding hscope
  | intern =>
    refine hp.of_same ?_ ?_ hscopeOf
    all_goals
      unfold SymbolTable.intern
      split
      · rfl
      · split <;> rfl
  | @moveScope source target => exact hp.moveScope source target
  | _ => exact hp.of_same rfl rfl hscopeOf

theorem climbable (h : p.Act p.Scoped q made) (hp : p.table.Climbable) : q.table.Climbable := by
  have hscopeOf : ∀ (node : NodeId) (scope : ScopeId), q.table.scopeOf[node]? = some scope →
      p.table.HasScope scope := fun _ _ => h.hasScope_of_scopeOf hp.scopeOf
  cases h with
  | newScope hparent => exact hp.newScope hparent
  | declare name hscope =>
    exact hp.of_same Array.size_modify (SymbolTable.parentOf_pushBinding _ _) hscopeOf
  | intern =>
    refine hp.of_same ?_ (fun scope => ?_) hscopeOf
    all_goals
      unfold SymbolTable.intern
      split
      · rfl
      · split <;> rfl
  | moveScope =>
    refine hp.of_same ?_ (fun scope => ?_) hscopeOf
    all_goals
      unfold SymbolTable.moveScope
      split <;> rfl
  | _ => exact hp.of_same rfl (fun _ => rfl) hscopeOf

end Pass.Act

section

variable (P : SymbolTable → Prop)

class ScopeInvariant : Prop where
  act : ∀ {p q : Pass} {made : List Token}, p.Act p.Scoped q made → P p.table → P q.table
  anchored : ∀ {table : SymbolTable}, P table → table.Anchored

instance : ScopeInvariant SymbolTable.ScopeConsistent := ⟨Pass.Act.scopeConsistent, (·.scopeOf)⟩
instance : ScopeInvariant SymbolTable.Climbable := ⟨Pass.Act.climbable, (·.scopeOf)⟩

variable [hP : ScopeInvariant P]

/-- The condition stays true of the table, and the scopes in force stand in it. -/
def Law.scoping : Law where
  holds p := P p.table ∧ ∀ frame ∈ p.scopes.frames, p.table.HasScope frame.2
  valid := Pass.Scoped
  act := by
    intro p q made hp hact
    have hsize := hact.scopes_size_le
    refine ⟨⟨hP.act hact hp.1, fun frame hframe => ?_⟩, fun k hk => ?_,
      hact.scoped_made (hP.anchored hp.1)⟩
    · rw [hact.scopes_eq] at hframe
      exact Nat.lt_of_lt_of_le (hp.2 frame hframe) hsize
    · cases k with
      | scope scope => exact Nat.lt_of_lt_of_le hk hsize
      | _ => trivial
  current := by
    intro p scope hp hscope
    rcases Option.map_eq_some_iff.mp hscope with ⟨frame, hframe, rfl⟩
    exact hp.2 frame (List.mem_of_head? hframe)
  table _ := trivial
  recorded _ _ := trivial
  bound _ _ _ := trivial
  part _ _ _ := trivial

instance : (Law.scoping P).Walking where
  node _ _ := trivial
  enter := by
    intro p node hp
    refine ⟨hp.1, fun frame => ?_⟩
    unfold ScopeStack.enter
    dsimp only
    split
    · exact hp.2 frame
    · rename_i scope hscope
      intro hframe
      rcases List.mem_cons.mp hframe with rfl | hframe
      · exact hP.anchored hp.1 node scope hscope
      · exact hp.2 frame hframe
  exit := by
    intro p node hp
    refine ⟨hp.1, fun frame hframe => hp.2 frame ?_⟩
    revert hframe
    unfold ScopeStack.exit
    dsimp only
    split
    · rename_i hframes
      split
      · rw [hframes]
        exact List.mem_cons_of_mem _
      · exact id
    · exact id
  other := by
    intro p q htable hscopes hp
    refine ⟨htable ▸ hp.1, fun frame hframe => ?_⟩
    rw [htable]
    rcases hscopes with hscopes | hscopes
    · exact hp.2 frame (hscopes ▸ hframe)
    · rw [hscopes] at hframe
      cases hframe

theorem Law.scoping_governs : (Law.scoping P).Governs P where
  start hscopes hp := ⟨hp, by rw [hscopes]; exact fun _ hframe => by cases hframe⟩
  leave hp := hp.1

end

/-- The table of an empty program is consistent.  On a consistent table climbing ends, so
that the two ways of climbing are those of a loop over the parents, declaring and scoping
with scopes of the table keeps it consistent, and so does every run. -/
theorem SymbolTable.scopeConsistent_kept : SymbolTable.empty.ScopeConsistent ∧
    ∀ table : SymbolTable, table.ScopeConsistent →
      (∀ scope, table.HasScope scope →
        (∀ name ty kind, (table.declare scope name ty kind).2.ScopeConsistent) ∧
        (∀ name ty, (table.declareSynthetic scope name ty).2.ScopeConsistent) ∧
        (table.newScope scope).2.ScopeConsistent ∧
        ∀ node, (table.attachScope node scope).ScopeConsistent) ∧
      (∀ source target, (table.moveScope source target).2.ScopeConsistent ∧
        (table.copyFacts source target).ScopeConsistent) ∧
      (∀ config pipeline file, Pipeline.ofConfig config = .ok pipeline →
        (pipeline.run file table).table.ScopeConsistent) ∧
      (WellFounded fun parent scope => table.parentOf scope = some parent) ∧
      (∀ inner outer, table.isWithin inner outer = true ↔ inner = outer ∨
        ∃ parent, table.parentOf inner = some parent ∧ table.isWithin parent outer = true) ∧
      (∀ inner outer, table.isWithin inner outer = true ↔
        ∃ k, table.climb k inner = some outer) ∧
      (∀ scope name, table.lookup scope name =
        (table.lookupLocal scope name <|> (table.parentOf scope).bind (table.lookup · name))) ∧
      ∀ scope name id, table.lookup scope name = some id ↔ ∃ k found,
        table.climb k scope = some found ∧ table.lookupLocal found name = some id ∧
        ∀ j < k, ∀ nearer, table.climb j scope = some nearer →
          table.lookupLocal nearer name = none := by
  refine ⟨.empty, fun table h => ⟨fun scope hscope => ⟨fun _ _ _ => h.pushBinding hscope,
    fun _ _ => h.pushBinding hscope, h.newScope hscope, fun node => h.attachScope node hscope⟩,
    fun source target => ⟨h.moveScope source target, h.copyFacts source target⟩,
    fun config pipeline file hconfig =>
      (Pipeline.run_keeps (Law.scoping_governs _) hconfig file h).1,
    h.wellFounded_parents, h.isWithin_iff, fun inner outer => ?_, h.lookup_eq, h.lookup_iff⟩⟩
  rw [isWithin, List.contains_iff_mem, mem_chain_iff]

/-- A variable of the universe, seen from a scope inside it. -/
def nestedTable : SymbolTable :=
  ((SymbolTable.empty.declare SymbolTable.outermost "x" none .var).2.newScope
    SymbolTable.outermost).2

theorem nestedTable_consistent : nestedTable.ScopeConsistent ∧
    (Pipeline.default.run exchangeFile nestedTable).table.ScopeConsistent ∧
    (∃ k, nestedTable.climb k ⟨1⟩ = some SymbolTable.outermost) ∧
    nestedTable.lookup ⟨1⟩ "x" = some ⟨0⟩ := by
  have hdeclared :
      (SymbolTable.empty.declare SymbolTable.outermost "x" none .var).2.ScopeConsistent :=
    SymbolTable.ScopeConsistent.empty.pushBinding Nat.one_pos
  have h : nestedTable.ScopeConsistent := hdeclared.newScope Nat.one_pos
  rcases SymbolTable.scopeConsistent_kept.2 _ h with ⟨_, _, hrun, _, _, hwithin, _⟩
  exact ⟨h, hrun {} Pipeline.default exchangeFile rfl,
    (hwithin ⟨1⟩ SymbolTable.outermost).mp (by decide +kernel), by decide +kernel⟩

end Desugar
