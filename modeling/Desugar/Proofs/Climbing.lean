import Desugar.Control.Loop
import Desugar.Declaration.Short
import Desugar.Declaration.Split
import Mathlib.Data.Finset.Card
import Mathlib.Data.Nat.Find

/-!
# Climbing

The parents of a scope come to an end or go on for ever.  Only in the second case are they
more than there are scopes, so that a bounded climb tells the two apart.  A search of the
table that climbs has an answer unless it meets parents without an end.
-/

namespace Desugar

/-!
## The parents of a scope
-/

namespace SymbolTable

theorem climb_add (table : SymbolTable) (m n : Nat) (scope : ScopeId) :
    table.climb (m + n) scope = (table.climb m scope).bind (table.climb n) := by
  induction m generalizing scope with
  | zero => rw [Nat.zero_add]; rfl
  | succ m ih =>
    rw [Nat.add_right_comm]
    show ((table.scope? scope).bind Scope.parent).bind (table.climb (m + n)) = _
    cases hparent : (table.scope? scope).bind Scope.parent with
    | none => simp [climb, hparent]
    | some parent => simp [climb, hparent, ih]

theorem mem_chainFrom_iff (table : SymbolTable) (n : Nat) (scope top : ScopeId) :
    top ∈ table.chainFrom n scope ↔ ∃ k < n, table.climb k scope = some top := by
  induction n generalizing scope with
  | zero => simp [chainFrom]
  | succ n ih =>
    unfold chainFrom
    cases hparent : (table.scope? scope).bind Scope.parent with
    | none =>
      constructor
      · intro htop
        exact ⟨0, Nat.succ_pos n, congrArg some (List.mem_singleton.mp htop).symm⟩
      · rintro ⟨k, _, hk⟩
        cases k with
        | zero => exact List.mem_singleton.mpr (Option.some.inj hk).symm
        | succ k =>
          rw [climb, hparent] at hk
          cases hk
    | some parent =>
      rw [List.mem_cons, ih]
      constructor
      · rintro (rfl | ⟨k, hk, hclimb⟩)
        · exact ⟨0, Nat.succ_pos n, rfl⟩
        · exact ⟨k + 1, Nat.succ_lt_succ hk, by rw [climb, hparent]; exact hclimb⟩
      · rintro ⟨k, hk, hclimb⟩
        cases k with
        | zero => exact .inl (Option.some.inj hclimb).symm
        | succ k =>
          rw [climb, hparent] at hclimb
          exact .inr ⟨k, Nat.lt_of_succ_lt_succ hk, hclimb⟩

theorem exists_scope_of_climb {table : SymbolTable} {k i : Nat} {scope top : ScopeId}
    (h : table.climb k scope = some top) (hi : i < k) :
    ∃ mid, table.climb i scope = some mid ∧ mid.index < table.scopes.size := by
  rw [← Nat.add_sub_cancel' (Nat.le_of_lt hi), climb_add] at h
  cases hmid : table.climb i scope with
  | none =>
    rw [hmid] at h
    cases h
  | some mid =>
    refine ⟨mid, rfl, ?_⟩
    rw [hmid] at h
    by_contra hlarge
    have hnone : table.scope? mid = none := Array.getElem?_eq_none (Nat.le_of_not_lt hlarge)
    obtain ⟨rest, hrest⟩ : ∃ rest, k - i = rest + 1 := ⟨k - i - 1, by omega⟩
    rw [hrest, Option.bind_some, climb, hnone] at h
    cases h

theorem climb_shortcut {table : SymbolTable} {k : Nat} {scope top : ScopeId}
    (h : table.climb k scope = some top) (hk : table.scopes.size < k) :
    ∃ k' < k, table.climb k' scope = some top := by
  have hmaps : ∀ i ∈ Finset.range k, ((table.climb i scope).getD ⟨0⟩).index ∈
      Finset.range table.scopes.size := by
    intro i hi
    rcases exists_scope_of_climb h (Finset.mem_range.mp hi) with ⟨mid, hmid, hsize⟩
    rw [hmid]
    exact Finset.mem_range.mpr hsize
  have hcard : (Finset.range table.scopes.size).card < (Finset.range k).card := by
    rwa [Finset.card_range, Finset.card_range]
  rcases Finset.exists_ne_map_eq_of_card_lt_of_maps_to hcard hmaps with
    ⟨i, hi, j, hj, hne, hsame⟩
  wlog hlt : i < j generalizing i j
  · exact this j hj i hi hne.symm hsame.symm (by omega)
  rcases exists_scope_of_climb h (Finset.mem_range.mp hi) with ⟨mid, hmid, _⟩
  rcases exists_scope_of_climb h (Finset.mem_range.mp hj) with ⟨mid', hmid', _⟩
  have heq : mid = mid' := by
    rw [hmid, hmid'] at hsame
    cases mid
    cases mid'
    exact congrArg ScopeId.mk hsame
  subst heq
  have hjk := Finset.mem_range.mp hj
  refine ⟨i + (k - j), by omega, ?_⟩
  rw [climb_add, hmid, ← hmid', ← climb_add, Nat.add_sub_cancel' (Nat.le_of_lt hjk)]
  exact h

theorem mem_chain_iff (table : SymbolTable) (scope top : ScopeId) :
    top ∈ table.chain scope ↔ ∃ k, table.climb k scope = some top := by
  rw [chain, mem_chainFrom_iff]
  constructor
  · rintro ⟨k, _, hk⟩
    exact ⟨k, hk⟩
  · intro hsome
    have hfirst := Nat.find_spec hsome
    refine ⟨Nat.find hsome, ?_, hfirst⟩
    by_contra hlarge
    rcases climb_shortcut hfirst (by omega) with ⟨k', hk', hclimb⟩
    exact Nat.find_min hsome hk' hclimb

theorem isWithin_iff (table : SymbolTable) (inner outer : ScopeId) :
    table.isWithin inner outer = true ↔ ∃ levels, table.climb levels inner = some outer := by
  rw [isWithin, List.contains_iff_mem, mem_chain_iff]

theorem climb_eq_none_of_le {table : SymbolTable} {m n : Nat} {scope : ScopeId}
    (h : table.climb m scope = none) (hle : m ≤ n) : table.climb n scope = none := by
  rw [← Nat.add_sub_cancel' hle, climb_add, h]
  rfl

theorem isEndless_iff (table : SymbolTable) (scope : ScopeId) :
    table.isEndless scope = true ↔ ∀ k, ∃ top, table.climb k scope = some top := by
  refine ⟨fun h => ?_, fun h => Option.isSome_iff_exists.mpr (h _)⟩
  by_contra hends
  have hends : ∃ k, table.climb k scope = none := by
    simpa only [not_forall, ← Option.isSome_iff_exists, Bool.not_eq_true,
      Option.isSome_eq_false_iff, Option.isNone_iff_eq_none] using hends
  have hlast := Nat.find_spec hends
  have hbefore : ∀ {k}, k < Nat.find hends → table.climb k scope ≠ none :=
    fun hk => Nat.find_min hends hk
  have hmany : table.scopes.size + 1 < Nat.find hends := by
    by_contra hfew
    rw [isEndless, climb_eq_none_of_le hlast (Nat.le_of_not_lt hfew)] at h
    cases h
  -- The last ancestor is met a second time on the way to it, where it has no parent either.
  obtain ⟨m, hm⟩ : ∃ m, Nat.find hends = m + 1 := ⟨Nat.find hends - 1, by omega⟩
  rw [hm] at hlast hbefore hmany
  obtain ⟨top, htop⟩ := Option.ne_none_iff_exists'.mp (hbefore (Nat.lt_succ_self m))
  rcases climb_shortcut htop (by omega) with ⟨k, hk, hagain⟩
  apply hbefore (Nat.succ_lt_succ hk)
  rw [climb_add, htop] at hlast
  rw [← Nat.add_one, climb_add, hagain]
  exact hlast

theorem isWithin?_eq_none_iff (table : SymbolTable) (inner outer : ScopeId) :
    table.isWithin? inner outer = none ↔
      ∀ k, ∃ scope, table.climb k inner = some scope ∧ scope ≠ outer := by
  unfold isWithin?
  constructor
  · intro h k
    split at h
    · cases h
    · rename_i hwithin
      split at h
      · rename_i hendless
        rcases (table.isEndless_iff inner).mp hendless k with ⟨scope, hscope⟩
        refine ⟨scope, hscope, ?_⟩
        rintro rfl
        exact hwithin ((table.isWithin_iff inner scope).mpr ⟨k, hscope⟩)
      · cases h
  · intro h
    have hwithin : ¬ table.isWithin inner outer = true := by
      intro hwithin
      rcases (table.isWithin_iff inner outer).mp hwithin with ⟨k, hk⟩
      rcases h k with ⟨scope, hscope, hne⟩
      exact hne (Option.some.inj (hscope.symm.trans hk))
    have hendless : table.isEndless inner = true :=
      (table.isEndless_iff inner).mpr fun k => (h k).imp fun _ hscope => hscope.1
    rw [if_neg hwithin, if_pos hendless]

theorem isWithin?_eq_some {table : SymbolTable} {inner outer : ScopeId} {b : Bool}
    (h : table.isWithin? inner outer = some b) : b = table.isWithin inner outer := by
  unfold isWithin? at h
  split at h
  · rename_i hwithin
    exact (Option.some.inj h).symm.trans hwithin.symm
  · rename_i hwithin
    split at h
    · cases h
    · exact (Option.some.inj h).symm.trans (Bool.eq_false_iff.mpr hwithin).symm

def Endless (table : SymbolTable) : Prop :=
  ∃ scope, table.isEndless scope = true

theorem endless_of_isWithin? {table : SymbolTable} {inner outer : ScopeId}
    (h : table.isWithin? inner outer = none) : table.Endless :=
  ⟨inner, (table.isEndless_iff inner).mpr fun k =>
    ((table.isWithin?_eq_none_iff inner outer).mp h k).imp fun _ hscope => hscope.1⟩

end SymbolTable

/-!
## Searches
-/

section

variable {α : Type} {f : α → Option Bool} {xs : List α}

theorem exists_of_anyM_eq_none (h : xs.anyM f = none) : ∃ x ∈ xs, f x = none := by
  induction xs with
  | nil => cases h
  | cons x rest ih =>
    cases hx : f x with
    | none => exact ⟨x, .head _, hx⟩
    | some found =>
      rw [List.anyM_cons, hx] at h
      cases found with
      | true => cases h
      | false =>
        rcases ih h with ⟨y, hy, hnone⟩
        exact ⟨y, .tail _ hy, hnone⟩

theorem eq_true_iff_of_anyM {b : Bool} (h : xs.anyM f = some b) :
    b = true ↔ ∃ x ∈ xs, f x = some true := by
  induction xs with
  | nil =>
    cases h
    simp
  | cons x rest ih =>
    cases hx : f x with
    | none =>
      rw [List.anyM_cons, hx] at h
      cases h
    | some found =>
      rw [List.anyM_cons, hx] at h
      cases found with
      | true =>
        cases h
        exact ⟨fun _ => ⟨x, .head _, hx⟩, fun _ => rfl⟩
      | false => simpa [hx] using ih h

end

/-- A search that has an answer unless some scope has parents without an end. -/
class Search (find : SymbolTable → Option Bool) : Prop where
  endless : ∀ {table}, find table = none → table.Endless

namespace SymbolTable

variable {table : SymbolTable} {scope : Option ScopeId} {names : List String}

theorem endless_of_captures {e : Expr} (h : table.captures scope names e = none) :
    table.Endless := by
  unfold captures at h
  split at h
  · cases h
  · split at h
    · split at h
      · exact endless_of_isWithin? h
      · cases h
    · cases h

theorem endless_of_mentionsAny {e : Expr} (h : table.mentionsAny scope e names = none) :
    table.Endless := by
  rcases exists_of_anyM_eq_none h with ⟨_, _, hnone⟩
  exact endless_of_captures hnone

end SymbolTable

instance (scope : Option ScopeId) (e : Expr) (names : List String) :
    Search (fun table => table.mentionsAny scope e names) :=
  ⟨SymbolTable.endless_of_mentionsAny⟩

instance (scope : Option ScopeId) (values : List Expr) (names : List String) :
    Search (fun table => values.anyM fun value => table.mentionsAny scope value names) := by
  refine ⟨fun h => ?_⟩
  rcases exists_of_anyM_eq_none h with ⟨_, _, hnone⟩
  exact SymbolTable.endless_of_mentionsAny hnone

instance (scope : Option ScopeId) (names : List Ident) (values : List Expr) :
    Search (fun table => Split.isShadowed table scope names values) := by
  refine ⟨fun h => ?_⟩
  rcases exists_of_anyM_eq_none h with ⟨_, _, hnone⟩
  exact SymbolTable.endless_of_mentionsAny hnone

instance (post : Stmt) (body : Block) :
    Search (fun table => Loop.isShadowed table post body) := by
  refine ⟨fun h => ?_⟩
  unfold Loop.isShadowed at h
  split at h
  · cases h
  · rcases exists_of_anyM_eq_none h with ⟨_, _, hnone⟩
    split at hnone
    · exact SymbolTable.endless_of_isWithin? hnone
    · cases hnone

end Desugar
