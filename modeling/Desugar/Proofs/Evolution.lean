import Desugar.NormalForm.Check
import Desugar.Proofs.Coinage
import Desugar.Proofs.Construction
import Mathlib.Data.List.Basic

/-!
# Evolution of the state

A state that grows also keeps its scopes: a scope keeps its parent and its names
and gains only names of new synthetic bindings, and the scope of a node stays
with the node or moves on to a new one.  What is reported, which types are added,
and whether names are reserved that nothing bears, is limited by the liberties of
the pass.

An action leaves a postcondition when the state evolves however it ends, and its
result meets the postcondition.
-/

namespace Desugar

/-!
## Fresh names
-/

namespace SymbolTable

theorem candidate_injective (stem : String) {i j : Nat}
    (h : candidate stem i = candidate stem j) : i = j := by
  have hlist := congrArg String.toList h
  cases i with
  | zero =>
    cases j with
    | zero => rfl
    | succ j => simp [candidate, String.toList_append] at hlist
  | succ i =>
    cases j with
    | zero => simp [candidate, String.toList_append] at hlist
    | succ j =>
      simp only [candidate, String.toList_append] at hlist
      have hdigits := congrArg (fun digits => Nat.ofDigitChars 10 digits 0)
        (List.append_cancel_left hlist)
      simpa [Nat.toString_eq_ofList_toDigits] using hdigits

theorem le_length_of_taken (stem : String) (count : Nat) (taken : List String) (first : Nat)
    (h : ∀ i < count, candidate stem (first + i) ∈ taken) : count ≤ taken.length := by
  induction count generalizing taken first with
  | zero => exact Nat.zero_le _
  | succ count ih =>
    have hhead : candidate stem first ∈ taken := h 0 (Nat.succ_pos count)
    have htail :
        ∀ i < count, candidate stem (first + 1 + i) ∈ taken.erase (candidate stem first) := by
      intro i hi
      apply (List.mem_erase_of_ne ?_).mpr
      · have hnext := h (i + 1) (Nat.succ_lt_succ hi)
        rwa [← Nat.add_assoc, Nat.add_right_comm] at hnext
      · intro heq
        have := candidate_injective stem heq
        omega
    have hrest := ih (taken.erase (candidate stem first)) (first + 1) htail
    have hlength := List.length_erase_of_mem hhead
    have hpos := List.length_pos_of_mem hhead
    omega

theorem firstFree_cases (taken : List String) (stem : String) (fuel k : Nat) :
    firstFree taken stem fuel k ∉ taken ∨ ∀ i ≤ fuel, candidate stem (k + i) ∈ taken := by
  induction fuel generalizing k with
  | zero =>
    by_cases htaken : candidate stem k ∈ taken
    · right
      intro i hi
      rwa [Nat.le_zero.mp hi]
    · exact .inl htaken
  | succ fuel ih =>
    unfold firstFree
    by_cases htaken : candidate stem k ∈ taken
    · rw [if_pos (List.contains_iff_mem.mpr htaken)]
      rcases ih (k + 1) with hfree | hall
      · exact .inl hfree
      · right
        intro i hi
        cases i with
        | zero => exact htaken
        | succ i =>
          have hnext := hall i (Nat.le_of_succ_le_succ hi)
          rwa [Nat.add_right_comm, Nat.add_assoc] at hnext
    · rw [if_neg (fun h => htaken (List.contains_iff_mem.mp h))]
      exact .inl htaken

theorem freshName_not_taken (table : SymbolTable) (stem : String) :
    (table.freshName stem).1 ∉ table.takenNames := by
  rcases firstFree_cases table.takenNames stem table.takenNames.length 0 with hfree | hall
  · exact hfree
  · have hlength := le_length_of_taken stem (table.takenNames.length + 1) table.takenNames 0
      fun i hi => hall i (Nat.le_of_lt_succ hi)
    omega

/-!
## Names of scopes
-/

/-- A table whose scopes hold, under each name, a binding of that name. -/
def Named (table : SymbolTable) : Prop :=
  ∀ (i : Nat) (scope : Scope), table.scopes[i]? = some scope → ∀ entry ∈ scope.names,
    ∃ binding, table.binding? entry.2 = some binding ∧ binding.name = entry.1

/-- A table whose scopes hold no name twice. -/
def Distinct (table : SymbolTable) : Prop :=
  ∀ scope ∈ table.scopes, (scope.names.map Prod.fst).Nodup

end SymbolTable

/-- A scope that has gained only names of synthetic bindings after the first so
many. -/
structure Scope.Gains (first : Nat) (bindings : Array Binding) (old new : Scope) : Prop where
  parent : new.parent = old.parent
  names : ∃ more, new.names = old.names ++ more ∧ ∀ entry ∈ more, first ≤ entry.2.index ∧
    ∃ binding, bindings[entry.2.index]? = some binding ∧ binding.name = entry.1 ∧
      binding.synthetic = true

namespace Scope

theorem Gains.refl (first : Nat) (bindings : Array Binding) (scope : Scope) :
    scope.Gains first bindings scope where
  parent := rfl
  names := ⟨[], (List.append_nil _).symm, fun _ h => nomatch h⟩

theorem Gains.trans {first first' : Nat} {bindings bindings' : Array Binding} {a b c : Scope}
    (hab : a.Gains first bindings b) (hbc : b.Gains first' bindings' c) (hle : first ≤ first')
    (hbindings : ∀ (i : Nat) (binding : Binding), bindings[i]? = some binding →
      bindings'[i]? = some binding) :
    a.Gains first bindings' c where
  parent := hbc.parent.trans hab.parent
  names := by
    rcases hab.names with ⟨more, hmore, hnew⟩
    rcases hbc.names with ⟨more', hmore', hnew'⟩
    refine ⟨more ++ more', by rw [hmore', hmore, List.append_assoc], ?_⟩
    intro entry hentry
    rcases List.mem_append.mp hentry with hentry | hentry
    · rcases hnew entry hentry with ⟨hfirst, binding, hbinding, hrest⟩
      exact ⟨hfirst, binding, hbindings _ _ hbinding, hrest⟩
    · rcases hnew' entry hentry with ⟨hfirst, hrest⟩
      exact ⟨Nat.le_trans hle hfirst, hrest⟩

theorem setName_of_not_mem {name : String} {binding : BindingId}
    {names : List (String × BindingId)} (h : ∀ entry ∈ names, entry.1 ≠ name) :
    setName name binding names = names ++ [(name, binding)] := by
  induction names with
  | nil => rfl
  | cons entry rest ih =>
    have hentry : (entry.1 == name) = false := beq_false_of_ne (h entry (.head _))
    rw [setName, hentry, List.cons_append, ih fun other hother => h other (.tail _ hother)]
    rfl

theorem map_setName_of_mem {name : String} {binding : BindingId}
    {names : List (String × BindingId)} (h : name ∈ names.map Prod.fst) :
    (setName name binding names).map Prod.fst = names.map Prod.fst := by
  induction names with
  | nil => cases h
  | cons entry rest ih =>
    rw [setName]
    split
    · rename_i hsame
      rw [List.map_cons, List.map_cons, eq_of_beq hsame]
    · rename_i hother
      have hne : name ≠ entry.1 := fun heq => hother (beq_iff_eq.mpr heq.symm)
      rw [List.map_cons, List.map_cons, ih (List.mem_of_ne_of_mem hne h)]

theorem nodup_setName {name : String} {binding : BindingId} {names : List (String × BindingId)}
    (h : (names.map Prod.fst).Nodup) : ((setName name binding names).map Prod.fst).Nodup := by
  by_cases hmem : name ∈ names.map Prod.fst
  · rw [map_setName_of_mem hmem]
    exact h
  · have hnew : ∀ entry ∈ names, entry.1 ≠ name :=
      fun entry hentry heq => hmem (List.mem_map.mpr ⟨entry, hentry, heq⟩)
    rw [setName_of_not_mem hnew, List.map_append, List.map_singleton, ← List.concat_eq_append]
    exact h.concat hmem

end Scope

namespace SymbolTable

/-- What has become of the scope of a node: it is still there, or it belongs to
a node between two numbers. -/
def Rekeyed (first last : Nat) (old new : SymbolTable) (id : NodeId) : Prop :=
  new.scopeOf[id]? = old.scopeOf[id]? ∨
    (new.scopeOf[id]? = none ∧ ∃ (scope : ScopeId) (key : NodeId), old.scopeOf[id]? = some scope ∧
      first ≤ key.val.toNat ∧ key.Below last ∧ new.scopeOf[key]? = some scope)

structure KeepsScopes (old new : SymbolTable) : Prop where
  named : new.Named
  gains : ∀ (i : Nat) (scope : Scope), old.scopes[i]? = some scope →
    ∃ scope', new.scopes[i]? = some scope' ∧
      scope.Gains old.bindings.size new.bindings scope'

theorem KeepsScopes.refl {table : SymbolTable} (h : table.Named) : table.KeepsScopes table where
  named := h
  gains _ scope hscope := ⟨scope, hscope, .refl _ _ _⟩

theorem KeepsScopes.trans {a b c : SymbolTable} (hab : a.KeepsScopes b) (hbc : b.KeepsScopes c)
    (hsize : a.bindings.size ≤ b.bindings.size)
    (hbindings : ∀ (i : Nat) (binding : Binding), b.bindings[i]? = some binding →
      c.bindings[i]? = some binding) :
    a.KeepsScopes c where
  named := hbc.named
  gains := by
    intro i scope hscope
    rcases hab.gains i scope hscope with ⟨mid, hmid, hgains⟩
    rcases hbc.gains i mid hmid with ⟨last, hlast, hgains'⟩
    exact ⟨last, hlast, hgains.trans hgains' hsize hbindings⟩

theorem KeepsScopes.of_same {old new : SymbolTable} (hscopes : new.scopes = old.scopes)
    (hbindings : new.bindings = old.bindings) (hnamed : old.Named) : old.KeepsScopes new where
  named := by
    unfold Named binding?
    rw [hscopes, hbindings]
    exact hnamed
  gains := by
    rw [hscopes, hbindings]
    exact (KeepsScopes.refl hnamed).gains

theorem Distinct.of_same {old new : SymbolTable} (hscopes : new.scopes = old.scopes)
    (h : old.Distinct) : new.Distinct := by
  unfold Distinct
  rw [hscopes]
  exact h

/-- Everything but types and facts about nodes is the same. -/
structure SameScopes (old new : SymbolTable) : Prop where
  scopes : new.scopes = old.scopes
  bindings : new.bindings = old.bindings
  reserved : new.reserved = old.reserved

theorem Distinct.pushBinding {table : SymbolTable} (h : table.Distinct) (binding : Binding) :
    (table.pushBinding binding).2.Distinct := by
  intro scope hscope
  rcases Array.mem_iff_getElem?.mp hscope with ⟨i, hi⟩
  simp only [SymbolTable.pushBinding, Array.getElem?_modify] at hi
  split at hi
  · rcases Option.map_eq_some_iff.mp hi with ⟨before, hbefore, rfl⟩
    exact Scope.nodup_setName (h before (Array.mem_of_getElem? hbefore))
  · exact h scope (Array.mem_of_getElem? hi)

theorem keepsScopes_declareSynthetic {table : SymbolTable} {scope : ScopeId} {name : String}
    {ty : TypeId} (hname : ∀ binding ∈ table.bindings, binding.name ≠ name)
    (hnamed : table.Named) : table.KeepsScopes (table.declareSynthetic scope name ty).2 := by
  have hnew : ∀ (i : Nat) (found : Scope), table.scopes[i]? = some found →
      ∀ entry ∈ found.names, entry.1 ≠ name := by
    intro i found hfound entry hentry heq
    rcases hnamed i found hfound entry hentry with ⟨binding, hbinding, hsame⟩
    exact hname binding (Array.mem_of_getElem? hbinding) (hsame.trans heq)
  have hkept : ∀ (i : Nat) (binding : Binding), table.bindings[i]? = some binding →
      (table.declareSynthetic scope name ty).2.bindings[i]? = some binding := by
    have hextends : table.Extends 0 (table.declareSynthetic scope name ty).2 :=
      SymbolTable.extends_pushBinding _
    exact hextends.bindings
  have hadded : (table.declareSynthetic scope name ty).2.bindings[table.bindings.size]? =
      some ⟨name, some ty, scope, .var, true⟩ :=
    Array.getElem?_push_size
  have hgains : ∀ (i : Nat) (found : Scope), table.scopes[i]? = some found →
      ∃ found', (table.declareSynthetic scope name ty).2.scopes[i]? = some found' ∧
        found.Gains table.bindings.size
          (table.declareSynthetic scope name ty).2.bindings found' := by
    intro i found hfound
    simp only [declareSynthetic, pushBinding, Array.getElem?_modify, hfound]
    split
    · refine ⟨_, rfl, rfl, [(name, ⟨table.bindings.size⟩)], ?_, ?_⟩
      · exact Scope.setName_of_not_mem (hnew i found hfound)
      · intro entry hentry
        cases List.mem_singleton.mp hentry
        exact ⟨Nat.le_refl _, _, hadded, rfl, rfl⟩
    · exact ⟨found, rfl, .refl _ _ _⟩
  refine ⟨?_, hgains⟩
  intro i found' hfound' entry hentry
  cases hfound : table.scopes[i]? with
  | none =>
    simp [declareSynthetic, pushBinding, Array.getElem?_modify, hfound] at hfound'
  | some found =>
    rcases hgains i found hfound with ⟨found'', hfound'', hgain⟩
    cases Option.some.inj (hfound''.symm.trans hfound')
    rcases hgain.names with ⟨more, hmore, hentries⟩
    rw [hmore] at hentry
    rcases List.mem_append.mp hentry with hentry | hentry
    · rcases hnamed i found hfound entry hentry with ⟨binding, hbinding, hsame⟩
      exact ⟨binding, hkept _ _ hbinding, hsame⟩
    · rcases hentries entry hentry with ⟨_, binding, hbinding, hsame, _⟩
      exact ⟨binding, hbinding, hsame⟩

theorem size_le_of_extends {bound : Nat} {old new : SymbolTable} (h : old.Extends bound new) :
    old.bindings.size ≤ new.bindings.size := by
  by_contra hlt
  have hfound := Array.getElem?_eq_getElem (Nat.lt_of_not_le hlt)
  have hkept := h.bindings _ _ hfound
  rw [Array.getElem?_size] at hkept
  cases hkept

end SymbolTable

/-!
## Evolution
-/

/-- What a pass may do beyond drawing identities and recording facts for them:
report problems, add types of some forms, lift headers into statement lists, and
reserve names that are not coined. -/
structure Liberty where
  reports : Prop
  adds : Ty → Prop
  lifts : Property → Bool
  reserves : Prop

abbrev Liberty.AddsBasics (lib : Liberty) : Prop :=
  ∀ kind, lib.adds (.basic kind)

class Liberty.Reserving (lib : Liberty) : Prop where
  reserves : lib.reserves

structure Pass.Evolves (lib : Liberty) (p q : Pass) : Prop extends p.Grows q where
  silent : ¬ lib.reports → q.diagnostics = p.diagnostics
  added : ∃ more, q.table.types.toList = p.table.types.toList ++ more ∧ ∀ type ∈ more, lib.adds type
  scopeOf : ∀ id : NodeId, id.Below p.ids.count →
    p.table.Rekeyed p.ids.count q.ids.count q.table id
  scopes : p.table.Named → p.table.KeepsScopes q.table
  distinct : p.table.Distinct → q.table.Distinct
  coined : ¬ lib.reserves → ∃ made labels, p.table.Coins q.table made labels

namespace Pass.Evolves

variable {lib : Liberty} {p q r : Pass}

theorem of_same_record (hids : q.ids = p.ids) (htable : q.table = p.table)
    (hdiagnostics : q.diagnostics = p.diagnostics) : p.Evolves lib q where
  toGrows := .of_same_record hids htable hdiagnostics
  silent _ := hdiagnostics
  added := ⟨[], by rw [htable, List.append_nil], fun _ h => nomatch h⟩
  scopeOf _ _ := .inl (by rw [htable])
  scopes hnamed := by
    rw [htable]
    exact .refl hnamed
  distinct := .of_same (by rw [htable])
  coined _ := ⟨[], [], .of_same (by rw [htable]) (by rw [htable])⟩

theorem counted (p : Pass) : p.Evolves lib { p with changes := p.changes + 1 } :=
  .of_same_record rfl rfl rfl

theorem refl (p : Pass) : p.Evolves lib p :=
  of_same_record rfl rfl rfl

theorem trans (hpq : p.Evolves lib q) (hqr : q.Evolves lib r) : p.Evolves lib r where
  toGrows := hpq.toGrows.trans hqr.toGrows
  silent hsilent := (hqr.silent hsilent).trans (hpq.silent hsilent)
  added := by
    rcases hpq.added with ⟨more, hmore, hadds⟩
    rcases hqr.added with ⟨more', hmore', hadds'⟩
    refine ⟨more ++ more', by rw [hmore', hmore, List.append_assoc], ?_⟩
    intro type htype
    rcases List.mem_append.mp htype with htype | htype
    · exact hadds type htype
    · exact hadds' type htype
  scopeOf := by
    intro id hid
    have hid' : id.Below q.ids.count := PassM.below_mono hpq.toGrows hid
    rcases hpq.scopeOf id hid with hsame | ⟨hnone, scope, key, hscope, hkey, hlast, hmoved⟩
    · rcases hqr.scopeOf id hid' with hsame' | ⟨hnone', scope, key, hscope, hkey, hlast, hmoved⟩
      · exact .inl (hsame'.trans hsame)
      · exact .inr ⟨hnone', scope, key, hsame.symm.trans hscope, Nat.le_trans hpq.ids hkey, hlast,
          hmoved⟩
    · right
      have hgone : r.table.scopeOf[id]? = none := by
        rcases hqr.scopeOf id hid' with hsame' | ⟨hnone', _⟩
        · exact hsame'.trans hnone
        · exact hnone'
      rcases hqr.scopeOf key hlast with hsame' | ⟨_, scope', key', hscope', hkey', hlast', hmoved'⟩
      · exact ⟨hgone, scope, key, hscope, hkey, Nat.lt_of_lt_of_le hlast hqr.ids,
          hsame'.trans hmoved⟩
      · have heq : scope' = scope := Option.some.inj (hscope'.symm.trans hmoved)
        subst heq
        exact ⟨hgone, scope', key', hscope, Nat.le_trans hpq.ids hkey', hlast', hmoved'⟩
  scopes hnamed := by
    have hfirst := hpq.scopes hnamed
    exact hfirst.trans (hqr.scopes hfirst.named) (SymbolTable.size_le_of_extends hpq.table)
      hqr.table.bindings
  distinct hdistinct := hqr.distinct (hpq.distinct hdistinct)
  coined hcoined := by
    rcases hpq.coined hcoined with ⟨made, labels, hcoins⟩
    rcases hqr.coined hcoined with ⟨made', labels', hcoins'⟩
    exact ⟨made ++ made', labels ++ labels', hcoins.trans hcoins'⟩

theorem of_take {id : NodeId} {ids : NodeSupply} {table : SymbolTable}
    (htake : p.ids.take? = some (id, ids)) (h : p.table.Extends p.ids.count table)
    (hrecorded : ∀ other : NodeId, table.Recorded other → p.table.Recorded other ∨ other = id)
    (htypes : table.types = p.table.types) (hsame : p.table.SameScopes table)
    (hscopeOf : ∀ other : NodeId, other.Below p.ids.count →
      p.table.Rekeyed p.ids.count ids.count table other) :
    p.Evolves lib { p with ids := ids, table := table } where
  toGrows := .of_take htake h hrecorded
  silent _ := rfl
  added := ⟨[], by rw [htypes, List.append_nil], fun _ h => nomatch h⟩
  scopeOf := hscopeOf
  scopes := .of_same hsame.scopes hsame.bindings
  distinct := .of_same hsame.scopes
  coined _ := ⟨[], [], .of_same hsame.bindings hsame.reserved⟩

theorem of_table {table : SymbolTable} (h : p.table.Extends p.ids.count table)
    (hrecorded : ∀ id : NodeId, table.Recorded id → p.table.Recorded id)
    (hadded : ∃ more, table.types.toList = p.table.types.toList ++ more ∧
      ∀ type ∈ more, lib.adds type)
    (hscopeOf : table.scopeOf = p.table.scopeOf)
    (hscopes : p.table.Named → p.table.KeepsScopes table)
    (hdistinct : p.table.Distinct → table.Distinct)
    (hcoined : ¬ lib.reserves → ∃ made labels, p.table.Coins table made labels) :
    p.Evolves lib { p with table := table } where
  toGrows := .of_table h fun id hid => .inl (hrecorded id hid)
  silent _ := rfl
  added := hadded
  scopeOf _ _ := .inl (by rw [hscopeOf])
  scopes := hscopes
  distinct := hdistinct
  coined := hcoined

theorem report (hreports : lib.reports) (diagnostic : Diagnostic) :
    p.Evolves lib { p with diagnostics := p.diagnostics ++ [diagnostic] } where
  toGrows := ⟨Nat.le_refl _, .refl _ _, fun _ h => .inl h, List.prefix_append _ _⟩
  silent hsilent := absurd hreports hsilent
  added := ⟨[], (List.append_nil _).symm, fun _ h => nomatch h⟩
  scopeOf _ _ := .inl rfl
  scopes := .refl
  distinct := id
  coined _ := ⟨[], [], .of_same rfl rfl⟩

/-!
### Operations of the table
-/

theorem of_reserve {names : List String} (h : ¬ lib.reserves →
      ∃ made labels, p.table.Coins (p.table.reserve names) made labels) :
    p.Evolves lib { p with table := p.table.reserve names } :=
  of_table (SymbolTable.extends_reserve names) (fun _ h => h)
    ⟨[], (List.append_nil _).symm, fun _ h => nomatch h⟩ rfl (.of_same rfl rfl) (.of_same rfl) h

theorem reserve [lib.Reserving] (names : List String) :
    p.Evolves lib { p with table := p.table.reserve names } :=
  of_reserve fun h => absurd Liberty.Reserving.reserves h

theorem freshName (stem : String) :
    p.Evolves lib { p with table := (p.table.freshName stem).2 } :=
  of_reserve fun _ => ⟨[], _, .label (p.table.freshName_not_taken stem)⟩

theorem pushType {type : Ty} (hadds : lib.adds type) :
    p.Evolves lib { p with table := (p.table.pushType type).2 } :=
  of_table (SymbolTable.extends_pushType type) (fun _ h => h)
    ⟨[type], by simp [SymbolTable.pushType], by simpa using hadds⟩ rfl (.of_same rfl rfl)
    (.of_same rfl) (fun _ => ⟨[], [], .of_same rfl rfl⟩)

theorem intern {type : Ty} (hadds : lib.adds type) :
    p.Evolves lib { p with table := (p.table.intern type).2 } := by
  unfold SymbolTable.intern
  split
  · exact pushType hadds
  · cases p.table.types.idxOf? type with
    | none => exact pushType hadds
    | some index => exact refl p

theorem defaultType (hadds : lib.AddsBasics) (ty : TypeId) :
    p.Evolves lib { p with table := (p.table.defaultType ty).2 } := by
  unfold SymbolTable.defaultType
  split
  · rename_i kind _
    split
    · cases kind.default? with
      | none => exact refl p
      | some default => exact intern (hadds default)
    · exact refl p
  · exact refl p

theorem newScope (parent : ScopeId) :
    p.Evolves lib { p with table := (p.table.newScope parent).2 } := by
  refine of_table (SymbolTable.extends_newScope parent) (fun _ h => h)
    ⟨[], (List.append_nil _).symm, fun _ h => nomatch h⟩ rfl (fun hnamed => ⟨?_, ?_⟩) ?_
    (fun _ => ⟨[], [], .of_same rfl rfl⟩)
  · intro i scope hscope entry hentry
    rw [SymbolTable.newScope, Array.getElem?_push] at hscope
    split at hscope
    · cases hscope
      cases hentry
    · exact hnamed i scope hscope entry hentry
  · intro i scope hscope
    refine ⟨scope, ?_, .refl _ _ _⟩
    rw [SymbolTable.newScope, Array.getElem?_push, if_neg]
    · exact hscope
    · intro hi
      rw [hi, Array.getElem?_size] at hscope
      cases hscope
  · intro hdistinct scope hscope
    rcases Array.mem_push.mp hscope with hscope | rfl
    · exact hdistinct scope hscope
    · exact .nil

theorem take_attachScope {id : NodeId} {ids : NodeSupply} (htake : p.ids.take? = some (id, ids))
    (scope : ScopeId) :
    p.Evolves lib { p with ids := ids, table := p.table.attachScope id scope } := by
  apply of_take htake (SymbolTable.extends_attachScope scope)
    (fun _ h => SymbolTable.recorded_attachScope h) rfl ⟨rfl, rfl, rfl⟩
  intro other hother
  have hfresh : p.ids.count ≤ id.val.toNat := by
    rw [(NodeSupply.take?_eq_some htake).1]
    exact Nat.le_refl _
  exact .inl (NodeMap.getElem?_insert_of_ne (hother.ne hfresh))

theorem take_moveScope {id : NodeId} {ids : NodeSupply} (htake : p.ids.take? = some (id, ids))
    (source : NodeId) :
    p.Evolves lib { p with ids := ids, table := (p.table.moveScope source id).2 } := by
  have hfresh : p.ids.count ≤ id.val.toNat := by
    rw [(NodeSupply.take?_eq_some htake).1]
    exact Nat.le_refl _
  have hrest : (p.table.moveScope source id).2.types = p.table.types ∧
      p.table.SameScopes (p.table.moveScope source id).2 := by
    unfold SymbolTable.moveScope
    cases p.table.scopeOf[source]? with
    | none | some scope => exact ⟨rfl, ⟨rfl, rfl, rfl⟩⟩
  apply of_take htake (SymbolTable.extends_moveScope source id)
    (fun _ h => SymbolTable.recorded_moveScope h) hrest.1 hrest.2
  intro other hother
  unfold SymbolTable.moveScope
  cases hscope : p.table.scopeOf[source]? with
  | none => exact .inl rfl
  | some scope =>
    have hne : id ≠ other := hother.ne hfresh
    by_cases hsource : source = other
    · subst hsource
      right
      refine ⟨?_, scope, id, hscope, hfresh, Pass.Grows.below_of_take htake, ?_⟩
      · exact (NodeMap.getElem?_insert_of_ne hne).trans Std.ExtTreeMap.getElem?_erase_self
      · exact Std.ExtTreeMap.getElem?_insert_self
    · left
      exact (NodeMap.getElem?_insert_of_ne hne).trans (NodeMap.getElem?_erase_of_ne hsource)

theorem declareSynthetic {scope : ScopeId} {name : String} {ty : TypeId}
    (hname : name ∉ p.table.takenNames) :
    p.Evolves lib
      { p with table := ((p.table.reserve [name]).declareSynthetic scope name ty).2 } := by
  have hother : ∀ binding ∈ p.table.bindings, binding.name ≠ name := by
    intro binding hbinding heq
    apply hname
    apply List.mem_append_right
    exact List.mem_map.mpr ⟨binding, Array.mem_toList_iff.mpr hbinding, heq⟩
  apply of_table
  · exact (SymbolTable.extends_reserve [name]).trans (Nat.le_refl _)
      (SymbolTable.extends_pushBinding _)
  · exact fun _ h => h
  · exact ⟨[], (List.append_nil _).symm, fun _ h => nomatch h⟩
  · rfl
  · intro hnamed
    have hkeeps : (p.table.reserve [name]).KeepsScopes
        ((p.table.reserve [name]).declareSynthetic scope name ty).2 :=
      SymbolTable.keepsScopes_declareSynthetic hother hnamed
    exact ⟨hkeeps.named, hkeeps.gains⟩
  · intro hdistinct
    have hreserved : (p.table.reserve [name]).Distinct := hdistinct
    exact hreserved.pushBinding _
  · exact fun _ => ⟨_, [], .binding hname rfl⟩

instance : Pass.Course (Pass.Evolves lib) :=
  ⟨.of_same_record, .trans⟩

end Pass.Evolves

/-!
## Outcomes of actions
-/

namespace PassM

variable {α β : Type}

/-- However an action ends, the state has evolved, and a result meets the
postcondition. -/
abbrev Leaves (lib : Liberty) (env : PassEnv) (p : Pass) (m : PassM α) (post : α → Pass → Prop) :
    Prop :=
  Ends (Pass.Evolves lib) Fault.any env p m post

namespace Leaves

variable {lib : Liberty} {env : PassEnv} {p : Pass}

theorem of_exec_error {m : PassM α} {fault : Fault} {q : Pass} {post : α → Pass → Prop}
    (h : m.exec env p = (.error fault, q)) (hevolves : p.Evolves lib q) :
    Leaves lib env p m post :=
  Ends.of_exec_error h hevolves trivial

theorem of_error {m : PassM α} {fault : Fault} {q : Pass} {post : α → Pass → Prop}
    (h : Leaves lib env p m post) (herror : m.exec env p = (.error fault, q)) :
    p.Evolves lib q :=
  (Ends.of_error h herror).1

theorem raise {problem : Problem} {post : α → Pass → Prop} :
    Leaves lib env p (PassM.raise problem) post :=
  Ends.raise trivial

theorem raise_bind {problem : Problem} {f : α → PassM β} {post : β → Pass → Prop} :
    Leaves lib env p (PassM.raise problem >>= f) post :=
  Ends.raise_bind trivial

theorem require {value : Option α} {problem : Problem} {f : α → PassM β}
    {post : β → Pass → Prop} (h : ∀ a, value = some a → Leaves lib env p (f a) post) :
    Leaves lib env p (PassM.require value problem >>= f) post :=
  Ends.require_bind trivial h

theorem orElseKeep {action fallback : PassM α} {snippet : String} {post : α → Pass → Prop}
    (hreports : lib.reports) (haction : Leaves lib env p action post)
    (hfallback : ∀ q, p.Evolves lib q → Leaves lib env q fallback post) :
    Leaves lib env p (PassM.orElseKeep action snippet fallback) post :=
  Ends.orElseKeep (fun _ => .report hreports) haction fun q hpq _ => hfallback q hpq

/-!
### Drawing an identity
-/

theorem of_drawsOne {m : PassM α} {result : NodeId → α} {table : NodeId → SymbolTable}
    {post : α → Pass → Prop} (h : DrawsOne m env p result table)
    (hextends : ∀ id : NodeId, p.ids.count ≤ id.val.toNat →
      p.table.Extends p.ids.count (table id))
    (hrecorded : ∀ id other : NodeId, (table id).Recorded other →
      p.table.Recorded other ∨ other = id)
    (htypes : ∀ id, (table id).types = p.table.types)
    (hsame : ∀ id, p.table.SameScopes (table id))
    (hscopeOf : ∀ id, (table id).scopeOf = p.table.scopeOf)
    (hpost : ∀ (id : NodeId) (ids : NodeSupply), p.ids.count ≤ id.val.toNat → id.Below ids.count →
      p.Evolves lib { p with ids := ids, table := table id } →
      post (result id) { p with ids := ids, table := table id }) :
    Leaves lib env p m post := by
  apply Ends.of_drawsOne h trivial
  intro id ids htake hfresh hid
  have hevolves : p.Evolves lib { p with ids := ids, table := table id } :=
    .of_take htake (hextends id hfresh) (hrecorded id) (htypes id) (hsame id)
      (fun _ _ => .inl (by rw [hscopeOf]))
  exact ⟨hevolves, hpost id ids hfresh hid hevolves⟩

end Leaves
end PassM
end Desugar
