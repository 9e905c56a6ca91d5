import Desugar.Proofs.Execution
import Mathlib.Data.List.Forall2

/-!
# Growth of the state

Whatever a pass does, the state only grows: identities are drawn in order, facts
about identities that are already drawn stay as they are, types and bindings are
only added, and reported problems are not taken back.  Growth is a preorder, so
that a fact which survives growth survives any sequence of actions.

An action yields a postcondition when every way it ends is a growth of the
state, its result meets the postcondition, and its faults are of an expected
kind.
-/

namespace Desugar

namespace NodeMap

variable {α : Type}

theorem getElem?_insert_of_ne {facts : NodeMap α} {key node : NodeId} {fact : α}
    (h : key ≠ node) : (facts.insert key fact)[node]? = facts[node]? := by
  rw [Std.ExtTreeMap.getElem?_insert, if_neg]
  intro heq
  exact h (Std.LawfulEqOrd.eq_of_compare heq)

theorem getElem?_erase_of_ne {facts : NodeMap α} {key node : NodeId} (h : key ≠ node) :
    (facts.erase key)[node]? = facts[node]? := by
  rw [Std.ExtTreeMap.getElem?_erase, if_neg]
  intro heq
  exact h (Std.LawfulEqOrd.eq_of_compare heq)

theorem mem_insert {facts : NodeMap α} {key node : NodeId} {fact : α} :
    node ∈ facts.insert key fact ↔ node = key ∨ node ∈ facts := by
  rw [Std.ExtTreeMap.mem_insert, Std.LawfulEqOrd.compare_eq_iff_eq, eq_comm]

theorem mem_or_eq {facts : NodeMap α} {key node : NodeId} {fact : α}
    (h : node ∈ facts.insert key fact) : node ∈ facts ∨ node = key :=
  (mem_insert.mp h).symm

theorem mem_of_mem_erase {facts : NodeMap α} {key node : NodeId} (h : node ∈ facts.erase key) :
    node ∈ facts :=
  (Std.ExtTreeMap.mem_erase.mp h).2

end NodeMap

namespace NodeId

/-- Whether an identity is among the first so many. -/
def Below (bound : Nat) (id : NodeId) : Prop :=
  id.val.toNat < bound

theorem Below.ne {bound : Nat} {id fresh : NodeId} (h : id.Below bound)
    (hfresh : bound ≤ fresh.val.toNat) : fresh ≠ id := by
  intro heq
  subst heq
  exact Nat.lt_irrefl _ (Nat.lt_of_lt_of_le h hfresh)

end NodeId

namespace NodeSupply

def count (supply : NodeSupply) : Nat :=
  supply.next.toNat

theorem take?_eq_some {supply rest : NodeSupply} {id : NodeId}
    (h : supply.take? = some (id, rest)) :
    id = ⟨supply.next⟩ ∧ rest.count = supply.count + 1 := by
  unfold take? successor? at h
  by_cases hlast : supply.next = last
  · rw [if_pos hlast] at h
    cases h
  · rw [if_neg hlast] at h
    cases h
    refine ⟨rfl, ?_⟩
    have hbound : supply.next.toNat ≠ 4294967295 := by
      intro heq
      apply hlast
      exact UInt32.toNat_inj.mp heq
    have hsize := supply.next.toNat_lt
    simp only [count, UInt32.toNat_add, UInt32.toNat_one]
    omega

end NodeSupply

namespace SymbolTable

/-- A table with everything of another one that concerns the identities below a
bound. -/
structure Extends (bound : Nat) (old new : SymbolTable) : Prop where
  types : ∀ (i : Nat) (type : Ty), old.types[i]? = some type → new.types[i]? = some type
  bindings : ∀ (i : Nat) (binding : Binding), old.bindings[i]? = some binding →
    new.bindings[i]? = some binding
  parents : ∀ (i : Nat) (scope : Scope), old.scopes[i]? = some scope →
    ∃ scope', new.scopes[i]? = some scope' ∧ scope'.parent = scope.parent
  exprTypes : ∀ id : NodeId, id.Below bound → new.exprTypes[id]? = old.exprTypes[id]?
  selections : ∀ id : NodeId, id.Below bound → new.selections[id]? = old.selections[id]?
  defs : ∀ id : NodeId, id.Below bound → new.defs[id]? = old.defs[id]?
  uses : ∀ id : NodeId, id.Below bound → new.uses[id]? = old.uses[id]?
  reserved : old.reserved ⊆ new.reserved

namespace Extends

theorem refl (bound : Nat) (table : SymbolTable) : table.Extends bound table where
  types _ _ h := h
  bindings _ _ h := h
  parents _ scope h := ⟨scope, h, rfl⟩
  exprTypes _ _ := rfl
  selections _ _ := rfl
  defs _ _ := rfl
  uses _ _ := rfl
  reserved := List.Subset.refl _

theorem trans {bound bound' : Nat} {a b c : SymbolTable} (hab : a.Extends bound b)
    (hle : bound ≤ bound') (hbc : b.Extends bound' c) : a.Extends bound c where
  types i type h := hbc.types i type (hab.types i type h)
  bindings i binding h := hbc.bindings i binding (hab.bindings i binding h)
  parents i scope h := by
    rcases hab.parents i scope h with ⟨mid, hmid, hparent⟩
    rcases hbc.parents i mid hmid with ⟨last, hlast, hparent'⟩
    exact ⟨last, hlast, hparent'.trans hparent⟩
  exprTypes id h := by
    rw [hbc.exprTypes id (Nat.lt_of_lt_of_le h hle), hab.exprTypes id h]
  selections id h := by
    rw [hbc.selections id (Nat.lt_of_lt_of_le h hle), hab.selections id h]
  defs id h := by
    rw [hbc.defs id (Nat.lt_of_lt_of_le h hle), hab.defs id h]
  uses id h := by
    rw [hbc.uses id (Nat.lt_of_lt_of_le h hle), hab.uses id h]
  reserved := List.Subset.trans hab.reserved hbc.reserved

end Extends

theorem ty_of_extends {bound : Nat} {old new : SymbolTable} (h : old.Extends bound new)
    {id : TypeId} {type : Ty} (hty : old.ty id = type) (hvalid : type ≠ .invalid) :
    new.ty id = type := by
  unfold ty at hty ⊢
  cases hfound : old.types[id.index]? with
  | none =>
    rw [hfound] at hty
    exact absurd hty.symm hvalid
  | some found =>
    rw [hfound] at hty
    rw [h.types _ _ hfound]
    exact hty

theorem structureOf_of_extends {bound : Nat} {old new : SymbolTable} (h : old.Extends bound new)
    {id : TypeId} {type : Ty} (hty : old.structureOf id = type) (hvalid : type ≠ .invalid) :
    new.structureOf id = type := by
  unfold structureOf underlying at hty ⊢
  generalize nestingLimit = limit at hty ⊢
  induction limit generalizing id with
  | zero => exact ty_of_extends h hty hvalid
  | succ limit ih =>
    have hstep : ∀ known, old.ty id = known → known ≠ .invalid → new.ty id = known :=
      fun known => ty_of_extends h
    unfold followNamed at hty ⊢
    cases hfound : old.ty id with
    | named package name underlying args =>
      cases underlying with
      | none =>
        rw [hfound] at hty
        rw [hstep _ hfound (by simp)]
        exact hstep _ hty hvalid
      | some next =>
        rw [hfound] at hty
        rw [hstep _ hfound (by simp)]
        exact ih hty
    | invalid =>
      rw [hfound] at hty
      exact absurd (hty.symm.trans hfound) hvalid
    | _ =>
      rw [hfound] at hty
      rw [hstep _ hfound (by simp)]
      exact hstep _ hty hvalid

/-!
## Operations of the table
-/

variable {bound : Nat} {table : SymbolTable} {node : NodeId}

theorem extends_recordType (ty : TypeId) (hnode : bound ≤ node.val.toNat) :
    table.Extends bound (table.recordType node ty) :=
  { Extends.refl bound table with
    exprTypes := fun _ h => NodeMap.getElem?_insert_of_ne (h.ne hnode) }

theorem extends_recordSelection (selection : Selection) (hnode : bound ≤ node.val.toNat) :
    table.Extends bound (table.recordSelection node selection) :=
  { Extends.refl bound table with
    selections := fun _ h => NodeMap.getElem?_insert_of_ne (h.ne hnode) }

theorem extends_recordUse (binding : BindingId) (hnode : bound ≤ node.val.toNat) :
    table.Extends bound (table.recordUse node binding) :=
  { Extends.refl bound table with
    uses := fun _ h => NodeMap.getElem?_insert_of_ne (h.ne hnode)
    defs := fun _ h => NodeMap.getElem?_erase_of_ne (h.ne hnode) }

theorem extends_recordDef (binding : BindingId) (hnode : bound ≤ node.val.toNat) :
    table.Extends bound (table.recordDef node binding) :=
  { Extends.refl bound table with
    defs := fun _ h => NodeMap.getElem?_insert_of_ne (h.ne hnode)
    uses := fun _ h => NodeMap.getElem?_erase_of_ne (h.ne hnode) }

theorem extends_attachScope (scope : ScopeId) :
    table.Extends bound (table.attachScope node scope) :=
  { Extends.refl bound table with }

theorem extends_moveScope (source target : NodeId) :
    table.Extends bound (table.moveScope source target).2 := by
  unfold moveScope
  cases table.scopeOf[source]? with
  | none => exact Extends.refl bound table
  | some scope => exact { Extends.refl bound table with }

theorem extends_reserve (names : List String) : table.Extends bound (table.reserve names) :=
  { Extends.refl bound table with
    reserved := List.subset_append_right _ _ }

theorem extends_freshName (stem : String) : table.Extends bound (table.freshName stem).2 :=
  extends_reserve _

theorem extends_pushType (type : Ty) : table.Extends bound (table.pushType type).2 :=
  { Extends.refl bound table with
    types := fun i found h => by
      rw [pushType, Array.getElem?_push, if_neg]
      · exact h
      · intro hi
        rw [hi, Array.getElem?_size] at h
        cases h }

theorem extends_intern (type : Ty) : table.Extends bound (table.intern type).2 := by
  unfold intern
  split
  · exact extends_pushType type
  · cases table.types.idxOf? type with
    | none => exact extends_pushType type
    | some index => exact Extends.refl bound table

theorem extends_defaultType (id : TypeId) : table.Extends bound (table.defaultType id).2 := by
  unfold defaultType
  split
  · rename_i kind _
    split
    · cases kind.default? with
      | none => exact Extends.refl bound table
      | some default => exact extends_intern _
    · exact Extends.refl bound table
  · exact Extends.refl bound table

theorem extends_newScope (parent : ScopeId) : table.Extends bound (table.newScope parent).2 :=
  { Extends.refl bound table with
    parents := fun i scope h => by
      refine ⟨scope, ?_, rfl⟩
      rw [newScope, Array.getElem?_push, if_neg]
      · exact h
      · intro hi
        rw [hi, Array.getElem?_size] at h
        cases h }

theorem extends_pushBinding (binding : Binding) :
    table.Extends bound (table.pushBinding binding).2 :=
  { Extends.refl bound table with
    bindings := fun i found h => by
      rw [pushBinding, Array.getElem?_push, if_neg]
      · exact h
      · intro hi
        rw [hi, Array.getElem?_size] at h
        cases h
    parents := fun i scope h => by
      simp only [pushBinding, Array.getElem?_modify, h]
      split
      · exact ⟨_, rfl, rfl⟩
      · exact ⟨scope, rfl, rfl⟩ }

end SymbolTable

/-!
## States
-/

namespace SymbolTable

def Recorded (table : SymbolTable) (id : NodeId) : Prop :=
  id ∈ table.exprTypes ∨ id ∈ table.defs ∨ id ∈ table.uses ∨ id ∈ table.selections ∨
    id ∈ table.scopeOf

variable {table : SymbolTable} {node id : NodeId}

theorem Recorded.or_eq {after : SymbolTable} (h : after.Recorded id)
    (htypes : id ∈ after.exprTypes → id ∈ table.exprTypes ∨ id = node)
    (hdefs : id ∈ after.defs → id ∈ table.defs ∨ id = node)
    (huses : id ∈ after.uses → id ∈ table.uses ∨ id = node)
    (hselections : id ∈ after.selections → id ∈ table.selections ∨ id = node)
    (hscopes : id ∈ after.scopeOf → id ∈ table.scopeOf ∨ id = node) :
    table.Recorded id ∨ id = node := by
  rcases h with h | h | h | h | h
  · exact (htypes h).imp_left .inl
  · exact (hdefs h).imp_left fun h => .inr (.inl h)
  · exact (huses h).imp_left fun h => .inr (.inr (.inl h))
  · exact (hselections h).imp_left fun h => .inr (.inr (.inr (.inl h)))
  · exact (hscopes h).imp_left fun h => .inr (.inr (.inr (.inr h)))

theorem recorded_recordType {ty : TypeId} (h : (table.recordType node ty).Recorded id) :
    table.Recorded id ∨ id = node :=
  h.or_eq NodeMap.mem_or_eq .inl .inl .inl .inl

theorem recorded_recordSelection {selection : Selection}
    (h : (table.recordSelection node selection).Recorded id) : table.Recorded id ∨ id = node :=
  h.or_eq .inl .inl .inl NodeMap.mem_or_eq .inl

theorem recorded_recordUse {binding : BindingId}
    (h : (table.recordUse node binding).Recorded id) : table.Recorded id ∨ id = node :=
  h.or_eq .inl (fun h => .inl (NodeMap.mem_of_mem_erase h)) NodeMap.mem_or_eq .inl .inl

theorem recorded_recordDef {binding : BindingId}
    (h : (table.recordDef node binding).Recorded id) : table.Recorded id ∨ id = node :=
  h.or_eq .inl NodeMap.mem_or_eq (fun h => .inl (NodeMap.mem_of_mem_erase h)) .inl .inl

theorem recorded_attachScope {scope : ScopeId} (h : (table.attachScope node scope).Recorded id) :
    table.Recorded id ∨ id = node :=
  h.or_eq .inl .inl .inl .inl NodeMap.mem_or_eq

theorem recorded_moveScope {source : NodeId}
    (h : (table.moveScope source node).2.Recorded id) : table.Recorded id ∨ id = node := by
  unfold moveScope at h
  cases hscope : table.scopeOf[source]? with
  | none =>
    simp only [hscope] at h
    exact .inl h
  | some scope =>
    simp only [hscope] at h
    exact h.or_eq .inl .inl .inl .inl fun h =>
      (NodeMap.mem_or_eq h).imp_left NodeMap.mem_of_mem_erase

theorem recorded_intern {type : Ty} (h : (table.intern type).2.Recorded id) :
    table.Recorded id := by
  unfold intern at h
  split at h
  · exact h
  · split at h
    · exact h
    · exact h

theorem recorded_defaultType {ty : TypeId} (h : (table.defaultType ty).2.Recorded id) :
    table.Recorded id := by
  unfold defaultType at h
  split at h
  · split at h
    · split at h
      · exact recorded_intern h
      · exact h
    · exact h
  · exact h

end SymbolTable

namespace Pass

structure Grows (p q : Pass) : Prop where
  ids : p.ids.count ≤ q.ids.count
  table : p.table.Extends p.ids.count q.table
  recorded : ∀ id : NodeId, q.table.Recorded id → p.table.Recorded id ∨ id.Below q.ids.count
  diagnostics : p.diagnostics <+: q.diagnostics

namespace Grows

theorem refl (p : Pass) : p.Grows p :=
  ⟨Nat.le_refl _, .refl _ _, fun _ h => .inl h, List.prefix_refl _⟩

theorem trans {p q r : Pass} (hpq : p.Grows q) (hqr : q.Grows r) : p.Grows r where
  ids := Nat.le_trans hpq.ids hqr.ids
  table := hpq.table.trans hpq.ids hqr.table
  recorded := by
    intro id hid
    rcases hqr.recorded id hid with hid | hbelow
    · rcases hpq.recorded id hid with hid | hbelow
      · exact .inl hid
      · exact .inr (Nat.lt_of_lt_of_le hbelow hqr.ids)
    · exact .inr hbelow
  diagnostics := hpq.diagnostics.trans hqr.diagnostics

theorem no_diagnostics {p q : Pass} (h : p.Grows q) (hq : q.diagnostics = []) :
    p.diagnostics = [] := by
  have hprefix := h.diagnostics
  rw [hq] at hprefix
  exact List.prefix_nil.mp hprefix

theorem of_same_record {p q : Pass} (hids : q.ids = p.ids) (htable : q.table = p.table)
    (hdiagnostics : q.diagnostics = p.diagnostics) : p.Grows q := by
  refine ⟨?_, ?_, ?_, ?_⟩
  · exact Nat.le_of_eq (congrArg NodeSupply.count hids.symm)
  · rw [htable]
    exact .refl _ _
  · intro id hid
    rw [htable] at hid
    exact .inl hid
  · exact hdiagnostics ▸ List.prefix_refl p.diagnostics

theorem counted (p : Pass) : p.Grows { p with changes := p.changes + 1 } :=
  .of_same_record rfl rfl rfl

theorem of_table {p : Pass} {table : SymbolTable} (h : p.table.Extends p.ids.count table)
    (hrecorded : ∀ id : NodeId, table.Recorded id → p.table.Recorded id ∨ id.Below p.ids.count) :
    p.Grows { p with table := table } :=
  ⟨Nat.le_refl _, h, hrecorded, List.prefix_refl _⟩

theorem of_take {p : Pass} {id : NodeId} {ids : NodeSupply} {table : SymbolTable}
    (htake : p.ids.take? = some (id, ids)) (h : p.table.Extends p.ids.count table)
    (hrecorded : ∀ other : NodeId, table.Recorded other → p.table.Recorded other ∨ other = id) :
    p.Grows { p with ids := ids, table := table } := by
  rcases NodeSupply.take?_eq_some htake with ⟨rfl, hcount⟩
  refine ⟨?_, h, ?_, List.prefix_refl _⟩
  · show p.ids.count ≤ ids.count
    omega
  · intro other hother
    rcases hrecorded other hother with hother | rfl
    · exact .inl hother
    · right
      show p.ids.count < ids.count
      omega

theorem below_of_take {p : Pass} {id : NodeId} {ids : NodeSupply}
    (htake : p.ids.take? = some (id, ids)) : id.Below ids.count := by
  rcases NodeSupply.take?_eq_some htake with ⟨rfl, hcount⟩
  show p.ids.count < ids.count
  omega

theorem report (p : Pass) (diagnostic : Diagnostic) :
    p.Grows { p with diagnostics := p.diagnostics ++ [diagnostic] } :=
  ⟨Nat.le_refl _, .refl _ _, fun _ h => .inl h, List.prefix_append _ _⟩

end Grows

/-- A way for a state to become another one, to which only the identities, the
table and the diagnostics matter. -/
class Course (reach : Pass → Pass → Prop) : Prop where
  of_same_record : ∀ {p q : Pass}, q.ids = p.ids → q.table = p.table →
    q.diagnostics = p.diagnostics → reach p q
  trans : ∀ {p q r}, reach p q → reach q r → reach p r

theorem Course.refl {reach : Pass → Pass → Prop} [Course reach] (p : Pass) : reach p p :=
  of_same_record rfl rfl rfl

instance : Course Grows :=
  ⟨.of_same_record, .trans⟩

end Pass

/-!
## Outcomes of actions
-/

def Fault.any : Fault → Prop :=
  fun _ => True

namespace PassM

variable {α β γ : Type}

theorem exec_bind_eq_ok {env : PassEnv} {p q : Pass} {m : PassM α} {f : α → PassM β} {b : β}
    (h : (m >>= f).exec env p = (.ok b, q)) :
    ∃ a r, m.exec env p = (.ok a, r) ∧ (f a).exec env r = (.ok b, q) := by
  cases hm : m.exec env p with
  | mk result r =>
    cases result with
    | ok a => exact ⟨a, r, rfl, (exec_bind_ok hm).symm.trans h⟩
    | error fault =>
      rw [exec_bind_error hm] at h
      cases h

theorem length_of_exec_mapM {env : PassEnv} {p q : Pass} {f : α → PassM β} {xs : List α}
    {ys : List β} (h : (xs.mapM f).exec env p = (.ok ys, q)) : ys.length = xs.length := by
  induction xs generalizing p ys with
  | nil =>
    cases h
    rfl
  | cons x rest ih =>
    rw [List.mapM_cons] at h
    rcases exec_bind_eq_ok h with ⟨y, r, _, hrest⟩
    rcases exec_bind_eq_ok hrest with ⟨ys', u, hys, hpure⟩
    cases hpure
    exact congrArg (· + 1) (ih hys)

/-- However an action ends, the state has taken its course; a result meets the
postcondition, and a fault is an expected one. -/
def Ends (reach : Pass → Pass → Prop) (expected : Fault → Prop) (env : PassEnv) (p : Pass)
    (m : PassM α) (post : α → Pass → Prop) : Prop :=
  match m.exec env p with
  | (.ok a, q) => reach p q ∧ post a q
  | (.error fault, q) => reach p q ∧ expected fault

namespace Ends

open Pass.Course (of_same_record refl trans)

variable {reach : Pass → Pass → Prop} {expected : Fault → Prop} {env : PassEnv} {p : Pass}

theorem of_exec {m : PassM α} {a : α} {q : Pass} {post : α → Pass → Prop}
    (h : m.exec env p = (.ok a, q)) (hreach : reach p q) (hpost : post a q) :
    Ends reach expected env p m post := by
  unfold Ends
  rw [h]
  exact ⟨hreach, hpost⟩

theorem of_exec_error {m : PassM α} {fault : Fault} {q : Pass} {post : α → Pass → Prop}
    (h : m.exec env p = (.error fault, q)) (hreach : reach p q) (hfault : expected fault) :
    Ends reach expected env p m post := by
  unfold Ends
  rw [h]
  exact ⟨hreach, hfault⟩

theorem of_ok {m : PassM α} {a : α} {q : Pass} {post : α → Pass → Prop}
    (h : Ends reach expected env p m post) (hok : m.exec env p = (.ok a, q)) :
    reach p q ∧ post a q := by
  unfold Ends at h
  rw [hok] at h
  exact h

theorem of_error {m : PassM α} {fault : Fault} {q : Pass} {post : α → Pass → Prop}
    (h : Ends reach expected env p m post) (herror : m.exec env p = (.error fault, q)) :
    reach p q ∧ expected fault := by
  unfold Ends at h
  rw [herror] at h
  exact h

theorem mono {m : PassM α} {post post' : α → Pass → Prop}
    (h : Ends reach expected env p m post)
    (himp : ∀ a q, reach p q → post a q → post' a q) :
    Ends reach expected env p m post' := by
  cases hexec : m.exec env p with
  | mk result q =>
    cases result with
    | ok a =>
      rcases h.of_ok hexec with ⟨hreach, hpost⟩
      exact of_exec hexec hreach (himp a q hreach hpost)
    | error fault =>
      rcases h.of_error hexec with ⟨hreach, hfault⟩
      exact of_exec_error hexec hreach hfault

variable [Pass.Course reach]

theorem pure {a : α} {post : α → Pass → Prop} (h : post a p) :
    Ends reach expected env p (Pure.pure a) post :=
  of_exec (exec_pure a env p) (refl p) h

theorem via {m m' : PassM α} {q : Pass} {post : α → Pass → Prop}
    (hexec : m.exec env p = m'.exec env q) (hreach : reach p q)
    (h : Ends reach expected env q m' post) : Ends reach expected env p m post := by
  cases hexec' : m'.exec env q with
  | mk result r =>
    rw [hexec'] at hexec
    cases result with
    | ok a =>
      rcases h.of_ok hexec' with ⟨hreach', hpost⟩
      exact of_exec hexec (trans hreach hreach') hpost
    | error fault =>
      rcases h.of_error hexec' with ⟨hreach', hfault⟩
      exact of_exec_error hexec (trans hreach hreach') hfault

theorem bind {m : PassM α} {f : α → PassM β} {mid : α → Pass → Prop} {post : β → Pass → Prop}
    (hm : Ends reach expected env p m mid)
    (hf : ∀ a q, reach p q → mid a q → Ends reach expected env q (f a) post) :
    Ends reach expected env p (m >>= f) post := by
  cases hexec : m.exec env p with
  | mk result q =>
    cases result with
    | error fault =>
      rcases hm.of_error hexec with ⟨hreach, hfault⟩
      exact of_exec_error (exec_bind_error hexec) hreach hfault
    | ok a =>
      rcases hm.of_ok hexec with ⟨hreach, hmid⟩
      exact via (exec_bind_ok hexec) hreach (hf a q hreach hmid)

theorem step {m : PassM α} {f : α → PassM β} {a : α} {q : Pass} {post : β → Pass → Prop}
    (hexec : m.exec env p = (.ok a, q)) (hreach : reach p q)
    (hf : Ends reach expected env q (f a) post) :
    Ends reach expected env p (m >>= f) post := by
  have hknown : Ends reach expected env p m (fun b r => b = a ∧ r = q) :=
    of_exec hexec hreach ⟨rfl, rfl⟩
  apply hknown.bind
  rintro b r _ ⟨rfl, rfl⟩
  exact hf

theorem look {m : PassM α} {f : α → PassM β} {a : α} {post : β → Pass → Prop}
    (hexec : m.exec env p = (.ok a, p)) (hf : Ends reach expected env p (f a) post) :
    Ends reach expected env p (m >>= f) post :=
  step hexec (refl p) hf

theorem map {m : PassM α} {f : α → β} {post : β → Pass → Prop}
    (h : Ends reach expected env p m (fun a q => post (f a) q)) :
    Ends reach expected env p (f <$> m) post := by
  rw [map_eq_pure_bind]
  exact h.bind fun a q _ hpost => .pure hpost

theorem raise {problem : Problem} {post : α → Pass → Prop} (h : expected (.problem problem)) :
    Ends reach expected env p (PassM.raise problem) post :=
  of_exec_error (exec_raise problem env p) (refl p) h

theorem raise_bind {problem : Problem} {f : α → PassM β} {post : β → Pass → Prop}
    (h : expected (.problem problem)) :
    Ends reach expected env p (PassM.raise problem >>= f) post :=
  of_exec_error (exec_bind_error (exec_raise problem env p)) (refl p) h

theorem require {value : Option α} {problem : Problem} {post : α → Pass → Prop}
    (hnone : value = none → expected (.problem problem))
    (hsome : ∀ a, value = some a → post a p) :
    Ends reach expected env p (PassM.require value problem) post := by
  cases value with
  | none => exact raise (hnone rfl)
  | some a => exact .pure (hsome a rfl)

theorem require_bind {value : Option α} {problem : Problem} {f : α → PassM β}
    {post : β → Pass → Prop} (hnone : expected (.problem problem))
    (h : ∀ a, value = some a → Ends reach expected env p (f a) post) :
    Ends reach expected env p (PassM.require value problem >>= f) post := by
  cases value with
  | none => exact raise_bind hnone
  | some a => exact look (exec_pure a env p) (h a rfl)

theorem search {find : SymbolTable → Option α} {f : α → PassM β} {post : β → Pass → Prop}
    (hnone : expected .endless)
    (h : ∀ a, find p.table = some a → Ends reach expected env p (f a) post) :
    Ends reach expected env p (PassM.search find >>= f) post := by
  cases hfound : find p.table with
  | none => exact of_exec_error (exec_bind_error (exec_search_none hfound env)) (refl p) hnone
  | some a => exact look (exec_search hfound env) (h a hfound)

/-!
### Lists of actions
-/

theorem mapM {f : α → PassM β} {rel : α → β → Pass → Prop} (xs : List α)
    (hmono : ∀ a b q r, reach q r → rel a b q → rel a b r)
    (h : ∀ a ∈ xs, ∀ q, reach p q → Ends reach expected env q (f a) (rel a)) :
    Ends reach expected env p (xs.mapM f)
    (fun ys q => List.Forall₂ (fun a b => rel a b q) xs ys) := by
  induction xs generalizing p with
  | nil => exact .pure .nil
  | cons x rest ih =>
    rw [List.mapM_cons]
    refine (h x (.head _) p (refl p)).bind fun y q hpq hy => ?_
    have hrest := ih (p := q) fun a ha r hqr => h a (.tail _ ha) r (trans hpq hqr)
    refine hrest.bind fun ys r hqr hys => .pure ?_
    exact .cons (hmono x y q r hqr hy) hys

theorem exists_mem_of_forall₂ {rel : α → β → Prop} {xs : List α} {ys : List β}
    (h : List.Forall₂ rel xs ys) : ∀ b ∈ ys, ∃ a ∈ xs, rel a b := by
  induction h with
  | nil =>
    intro b hb
    cases hb
  | cons hhead _ ih =>
    intro b hb
    cases hb with
    | head => exact ⟨_, .head _, hhead⟩
    | tail _ hb =>
      rcases ih b hb with ⟨a, ha, hrel⟩
      exact ⟨a, .tail _ ha, hrel⟩

theorem forall_mem_of_forall₂ {keep : β → Prop} {xs : List α} {ys : List β}
    (h : List.Forall₂ (fun _ b => keep b) xs ys) : ∀ b ∈ ys, keep b := by
  intro b hb
  rcases exists_mem_of_forall₂ h b hb with ⟨_, _, hkeep⟩
  exact hkeep

theorem mapM_each {f : α → PassM β} (keep : β → Pass → Prop) (xs : List α)
    (hmono : ∀ b q r, reach q r → keep b q → keep b r)
    (h : ∀ a ∈ xs, ∀ q, reach p q → Ends reach expected env q (f a) keep) :
    Ends reach expected env p (xs.mapM f) (fun ys q => ∀ b ∈ ys, keep b q) := by
  have hmapped : Ends reach expected env p (xs.mapM f)
      (fun ys q => List.Forall₂ (fun _ b => keep b q) xs ys) :=
    mapM xs (fun _ => hmono) h
  apply hmapped.mono
  intro ys q _ hall
  exact forall_mem_of_forall₂ hall

theorem mapM_any {f : α → PassM β} (xs : List α)
    (h : ∀ a ∈ xs, ∀ q, reach p q → Ends reach expected env q (f a) fun _ _ => True) :
    Ends reach expected env p (xs.mapM f) fun _ _ => True :=
  (mapM_each _ xs (fun _ _ _ _ h => h) h).mono fun _ _ _ _ => trivial

omit [Pass.Course reach] in
theorem counted {f : α → PassM β} {xs : List α} {post : List β → Pass → Prop}
    (h : Ends reach expected env p (xs.mapM f) post) :
    Ends reach expected env p (xs.mapM f) fun ys q => post ys q ∧ ys.length = xs.length := by
  cases hexec : (xs.mapM f).exec env p with
  | mk result q =>
    cases result with
    | ok ys =>
      rcases h.of_ok hexec with ⟨hreach, hpost⟩
      exact of_exec hexec hreach ⟨hpost, length_of_exec_mapM hexec⟩
    | error fault =>
      rcases h.of_error hexec with ⟨hreach, hfault⟩
      exact of_exec_error hexec hreach hfault

theorem filterMapM {f : α → PassM (Option β)} {keep : β → Pass → Prop} (xs : List α)
    (hmono : ∀ b q r, reach q r → keep b q → keep b r)
    (h : ∀ a ∈ xs, ∀ q, reach p q →
      Ends reach expected env q (f a) (fun found r => ∀ b, found = some b → keep b r)) :
    Ends reach expected env p (xs.filterMapM f) (fun ys q => ∀ b ∈ ys, keep b q) := by
  induction xs generalizing p with
  | nil =>
    refine .pure ?_
    intro b hb
    cases hb
  | cons x rest ih =>
    rw [List.filterMapM_cons]
    refine (h x (.head _) p (refl p)).bind fun found q hpq hfound => ?_
    have hrest := ih (p := q) fun a ha r hqr => h a (.tail _ ha) r (trans hpq hqr)
    cases found with
    | none => exact hrest
    | some y =>
      refine hrest.bind fun ys r hqr hys => .pure ?_
      intro b hb
      cases hb with
      | head => exact hmono y q r hqr (hfound y rfl)
      | tail _ hb => exact hys b hb

/-!
### Problems of single declarations, and scopes
-/

theorem orElseKeep {action fallback : PassM α} {snippet : String} {post : α → Pass → Prop}
    (hreport : ∀ q diagnostic, reach q { q with diagnostics := q.diagnostics ++ [diagnostic] })
    (haction : Ends reach expected env p action post)
    (hfallback : ∀ q, reach p q → q.diagnostics ≠ [] →
      Ends reach expected env q fallback post) :
    Ends reach expected env p (PassM.orElseKeep action snippet fallback) post := by
  have hcatch := exec_orElseKeep action fallback snippet env p
  cases hexec : action.exec env p with
  | mk result q =>
    rw [hexec] at hcatch
    cases result with
    | ok a =>
      rcases haction.of_ok hexec with ⟨hreach, hpost⟩
      exact of_exec hcatch hreach hpost
    | error fault =>
      rcases haction.of_error hexec with ⟨hreach, hfault⟩
      cases fault with
      | exhausted | endless => exact of_exec_error hcatch hreach hfault
      | problem problem =>
        by_cases hseverity : problem.severity = .declaration
        · simp only [if_pos hseverity] at hcatch
          have hreported := trans hreach
            (hreport q (problem.diagnose env.rule (some snippet)))
          exact via hcatch hreported (hfallback _ hreported (by simp))
        · simp only [if_neg hseverity] at hcatch
          exact of_exec_error hcatch hreach hfault

theorem within {node : NodeId} {part : PassM α} {post : α → Pass → Prop}
    (hmono : ∀ a q r, reach q r → r.table = q.table → r.ids = q.ids →
      r.diagnostics = q.diagnostics → post a q → post a r)
    (h : ∀ q, reach p q → q.table = p.table → q.ids = p.ids →
      q.diagnostics = p.diagnostics → Ends reach expected env q part post) :
    Ends reach expected env p (PassM.within node part) post := by
  unfold PassM.within
  have henter : reach p { p with scopes := p.scopes.enter p.table node } :=
    of_same_record rfl rfl rfl
  refine .step (exec_enter node env p) henter ?_
  refine (h _ henter rfl rfl rfl).bind fun a q _ hpost => ?_
  have hexit : reach q { q with scopes := q.scopes.exit node } := of_same_record rfl rfl rfl
  exact .step (exec_exit node env q) hexit (.pure (hmono a q _ hexit rfl rfl rfl hpost))

end Ends

/-- However an action ends, the state has grown; a result meets the
postcondition, and a fault is an expected one. -/
abbrev Yields (expected : Fault → Prop) (env : PassEnv) (p : Pass) (m : PassM α)
    (post : α → Pass → Prop) : Prop :=
  Ends Pass.Grows expected env p m post

/-- However an action ends, the state has grown, and a result meets the
postcondition. -/
abbrev Obtains (env : PassEnv) (p : Pass) (m : PassM α) (post : α → Pass → Prop) : Prop :=
  Yields Fault.any env p m post

end PassM
end Desugar
