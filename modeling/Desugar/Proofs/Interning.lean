import Mathlib.Data.List.Infix
import Mathlib.Data.List.ReduceOption
import Desugar.Proofs.TableReadback

/-!
# Interned types

A structural type has one position in an arena, the first at which it stands, whatever
was asked of the arena before.  An index of the positions may be kept beside the arena,
filled up to a mark when it is needed and lost when the table is stored; no answer
depends on it.
-/

namespace Desugar

open Json

/-!
## Storing
-/

theorem Json.depth_arr_map_le {α : Type} {encode : α → Json} (bound : Nat)
    (h : ∀ a, (encode a).depth ≤ bound) (as : List α) :
    (arr (as.map encode)).depth ≤ bound + 1 := by
  apply Nat.succ_le_succ
  induction as with
  | nil => exact Nat.zero_le _
  | cons a rest ih => exact Nat.max_le.mpr ⟨h a, ih⟩

theorem Ty.depth_toJson_le (ty : Ty) : ty.toJson.depth ≤ 3 := by
  have hids : ∀ ids : List TypeId, (TypeIds.toJson ids).depth ≤ 1 := depth_arr_map_le 0 (by simp)
  cases ty with
  | named package name underlying args =>
    have hpackage : (ofOption Package.toJson package).depth ≤ 1 := by
      cases package <;> simp [ofOption, Package.toJson, fieldsDepth]
    have hargs := hids args
    simp [Ty.toJson, fieldsDepth]
    omega
  | signature params results variadic =>
    have hparams := hids params
    have hresults := hids results
    simp [Ty.toJson, fieldsDepth]
    omega
  | struct fields =>
    have hfield : ∀ field : StructField, field.toJson.depth ≤ 1 := by
      simp [StructField.toJson, fieldsDepth]
    simpa [Ty.toJson, Nat.lt_succ_iff] using depth_arr_map_le 1 hfield fields
  | interface methods =>
    have hmethod : ∀ method : InterfaceMethod, method.toJson.depth ≤ 1 := by
      simp [InterfaceMethod.toJson, fieldsDepth]
    simpa [Ty.toJson, Nat.lt_succ_iff] using depth_arr_map_le 1 hmethod methods
  | tuple members => exact Nat.le_succ_of_le (by simpa [Ty.toJson] using hids members)
  | _ => simp [Ty.toJson, fieldsDepth]

theorem SymbolTable.depth_toJson_le (table : SymbolTable) : table.toJson.depth ≤ 5 := by
  have hfacts : ∀ {α : Type} {encode : α → Json}, (∀ a, (encode a).depth = 0) →
      ∀ facts : NodeMap α, (NodeMap.toJson encode facts).depth = 1 := by
    intro α encode h facts
    rw [NodeMap.toJson, depth_obj, fieldsDepth_map fun fact _ => h fact.2]
  have hscope : ∀ scope : Scope, scope.toJson.depth ≤ 2 := by
    intro scope
    have hnames : fieldsDepth (scope.names.map fun entry => (entry.1, entry.2.toJson)) = 0 :=
      fieldsDepth_map fun entry _ => entry.2.depth_toJson
    simp [Scope.toJson, fieldsDepth, hnames]
  have hbinding : ∀ binding : Binding, binding.toJson.depth ≤ 1 := by
    simp [Binding.toJson, fieldsDepth]
  have htypes := depth_arr_map_le 3 Ty.depth_toJson_le table.types.toList
  have hscopes := depth_arr_map_le 2 hscope table.scopes.toList
  have hbindings := depth_arr_map_le 1 hbinding table.bindings.toList
  simp only [SymbolTable.toJson, depth_obj, fieldsDepth, hfacts TypeId.depth_toJson,
    hfacts BindingId.depth_toJson, hfacts ScopeId.depth_toJson,
    hfacts fun selection : Selection => depth_str selection.tag]
  omega

namespace SymbolTable

/-- A table stored as text and read again. -/
def reload? (table : SymbolTable) : Option SymbolTable :=
  (parseShallow? table.toJson.pretty).bind SymbolTable.ofJson?

theorem reload?_eq {table : SymbolTable} (h : table.Representable) :
    table.reload? = some table.stored := by
  have htext : parseShallow? table.toJson.pretty = some (table.toJson.seen Json.nestingLimit) := by
    rw [parseShallow?, parse?_pretty table.writable]
    rfl
  rw [reload?, htext, Option.bind_some, recovers h]
  exact if_pos (Nat.le_trans table.depth_toJson_le (by decide))

end SymbolTable

/-!
## What lasts of an arena
-/

/-- All of a type that never changes: a named type may be given another underlying one. -/
def Ty.lasting : Ty → Ty
  | .named package name _ args => .named package name none args
  | type => type

theorem Ty.lasting_eq_iff {type other : Ty} (h : type.isNamed = false) :
    other.lasting = type ↔ other = type := by
  cases other with
  | named package name underlying args =>
    refine ⟨fun heq => ?_, fun heq => ?_⟩ <;> subst heq <;> cases h
  | _ => exact Iff.rfl

namespace SymbolTable

def lasting (table : SymbolTable) : List Ty :=
  table.types.toList.map Ty.lasting

theorem idxOf?_types (table : SymbolTable) (type : Ty) :
    table.types.toList.idxOf? type = table.types.idxOf? type := by
  rw [← List.idxOf?_toArray, Array.toArray_toList]

theorem idxOf?_lasting (table : SymbolTable) {type : Ty} (h : type.isNamed = false) :
    table.lasting.idxOf? type = table.types.idxOf? type := by
  have hsame : (fun other => other == type) ∘ Ty.lasting = fun other => other == type :=
    funext fun other => decide_eq_decide.mpr (Ty.lasting_eq_iff h)
  rw [lasting, List.idxOf?, List.findIdx?_map, hsame, ← idxOf?_types]
  rfl

theorem length_lasting (table : SymbolTable) : table.lasting.length = table.types.size := by
  rw [lasting, List.length_map, Array.length_toList]

theorem lasting_pushType (table : SymbolTable) (type : Ty) :
    (table.pushType type).2.lasting = table.lasting ++ [type.lasting] := by
  simp [lasting, pushType]

theorem lasting_setUnderlying (table : SymbolTable) (named type : TypeId) :
    (table.setUnderlying named type).lasting = table.lasting := by
  apply List.ext_getElem?
  intro index
  simp only [lasting, setUnderlying, List.getElem?_map, Array.getElem?_toList,
    Array.getElem?_modify]
  split
  · cases table.types[index]? with
    | none => rfl
    | some found => cases found <;> rfl
  · rfl

/-- Whether a type stands at a position, and nowhere before it. -/
def FirstAt (table : SymbolTable) (type : Ty) (id : TypeId) : Prop :=
  table.types[id.index]? = some type ∧ ∀ index < id.index, table.types[index]? ≠ some type

theorem firstAt_of_idxOf? {table : SymbolTable} {type : Ty} {id : TypeId}
    (hstructural : type.isNamed = false) (h : table.lasting.idxOf? type = some id.index) :
    table.FirstAt type id := by
  rw [idxOf?_lasting table hstructural, ← idxOf?_types] at h
  rcases List.findIdx?_eq_some_iff_getElem.mp h with ⟨hlt, hfound, hbefore⟩
  have hfound' : table.types[id.index]? = some type :=
    Array.getElem?_eq_some_iff.mpr ⟨by simpa using hlt, by simpa using hfound⟩
  refine ⟨hfound', fun index hindex heq => ?_⟩
  rcases Array.getElem?_eq_some_iff.mp heq with ⟨_, rfl⟩
  exact hbefore index hindex (by simp)

theorem idxOf?_of_prefix {table after : SymbolTable} {type : Ty} {index : Nat}
    (hkept : table.lasting <+: after.lasting) (h : table.lasting.idxOf? type = some index) :
    after.lasting.idxOf? type = some index := by
  rcases hkept with ⟨rest, hrest⟩
  rw [List.idxOf?] at h ⊢
  rw [← hrest, List.findIdx?_append, h]
  rfl

theorem lasting_intern (table : SymbolTable) (type : Ty) :
    table.lasting <+: (table.intern type).2.lasting := by
  unfold intern
  split
  · exact ⟨_, (table.lasting_pushType type).symm⟩
  · split
    · exact List.prefix_rfl
    · exact ⟨_, (table.lasting_pushType type).symm⟩

theorem idxOf?_append_singleton (types : List Ty) (type other : Ty) :
    (types ++ [other]).idxOf? type =
      (types.idxOf? type).or (if other = type then some types.length else none) := by
  rw [List.idxOf?, List.findIdx?_append]
  by_cases h : other = type <;> simp [h]

theorem idxOf?_intern (table : SymbolTable) {type : Ty} (h : type.isNamed = false) :
    (table.intern type).2.lasting.idxOf? type = some (table.intern type).1.index := by
  have hlasting : type.lasting = type := (Ty.lasting_eq_iff h).mpr rfl
  unfold intern
  rw [if_neg (by simp [h])]
  split
  · rename_i index hindex
    rw [idxOf?_lasting table h, hindex]
  · rename_i hnone
    rw [lasting_pushType, idxOf?_append_singleton, idxOf?_lasting table h, hnone, hlasting,
      if_pos rfl, length_lasting]
    rfl

end SymbolTable

/-!
## Calls

Whatever is asked of an arena, a type is interned, a position is given back, or a named
type is linked to its underlying type.
-/

inductive TypeCall where
  | intern (type : Ty)
  | basic (kind : BasicKind)
  | defaultType (id : TypeId)
  | newNamed (package : Option Package) (name : String)
  | setUnderlying (named type : TypeId)

inductive TypeRequest where
  | intern (type : Ty)
  | keep (id : TypeId)
  | link (named type : TypeId)

namespace TypeRequest

def mentions : TypeRequest → List TypeId
  | .intern type => type.mentions
  | .keep _ => []
  | .link _ type => [type]

def perform (table : SymbolTable) : TypeRequest → Option TypeId × SymbolTable
  | .intern type => (some (table.intern type).1, (table.intern type).2)
  | .keep id => (some id, table)
  | .link named type => (none, table.setUnderlying named type)

theorem lasting_perform (request : TypeRequest) (table : SymbolTable) :
    table.lasting <+: (request.perform table).2.lasting := by
  cases request with
  | intern type => exact table.lasting_intern type
  | keep id => exact List.prefix_rfl
  | link named type =>
    rw [perform, table.lasting_setUnderlying]

theorem representable_perform {request : TypeRequest} {table : SymbolTable}
    (h : table.Representable) (hrequest : ∀ id ∈ request.mentions, Addressable id.index) :
    (request.perform table).2.Representable := by
  have hpush : ∀ type : Ty, (∀ id ∈ type.mentions, Addressable id.index) →
      (table.pushType type).2.Representable := by
    intro type htype
    refine { h with types := fun found hfound => ?_ }
    rcases Array.mem_push.mp hfound with hfound | rfl
    · exact h.types found hfound
    · exact htype
  cases request with
  | intern type =>
    simp only [perform, SymbolTable.intern]
    split
    · exact hpush type hrequest
    · split
      · exact h
      · exact hpush type hrequest
  | keep id => exact h
  | link named type =>
    refine { h with types := fun found hfound => ?_ }
    rcases Array.mem_iff_getElem?.mp hfound with ⟨index, hindex⟩
    simp only [perform, SymbolTable.setUnderlying, Array.getElem?_modify] at hindex
    split at hindex
    · rcases Option.map_eq_some_iff.mp hindex with ⟨old, hold, rfl⟩
      have hold := h.types old (Array.mem_of_getElem? hold)
      cases old with
      | named package name underlying args =>
        intro id hid
        rcases List.mem_cons.mp hid with rfl | hid
        · exact hrequest id (.head _)
        · exact hold id (List.mem_append_right _ hid)
      | _ => exact hold
    · exact h.types found (Array.mem_of_getElem? hindex)

end TypeRequest

namespace TypeCall

def run (call : TypeCall) (table : SymbolTable) : Option TypeId × SymbolTable :=
  match call with
  | .intern type => (some (table.intern type).1, (table.intern type).2)
  | .basic kind => (some (table.basic kind).1, (table.basic kind).2)
  | .defaultType id => (some (table.defaultType id).1, (table.defaultType id).2)
  | .newNamed package name =>
      (some (table.newNamed package name).1, (table.newNamed package name).2)
  | .setUnderlying named type => (none, table.setUnderlying named type)

def request (ty : TypeId → Ty) : TypeCall → TypeRequest
  | .intern type => .intern type
  | .basic kind => .intern (.basic kind)
  | .newNamed package name => .intern (.named package name none [])
  | .setUnderlying named type => .link named type
  | .defaultType id =>
      match ty id with
      | .basic kind =>
          if kind.isUntyped then
            kind.default?.elim (.keep id) fun default => .intern (.basic default)
          else .keep id
      | _ => .keep id

/-- A call whose types a document can mention. -/
def Addressable : TypeCall → Prop
  | .intern type => ∀ id ∈ type.mentions, Desugar.Addressable id.index
  | .setUnderlying _ type => Desugar.Addressable type.index
  | _ => True

theorem Addressable.request {call : TypeCall} (h : call.Addressable) (ty : TypeId → Ty) :
    ∀ id ∈ (call.request ty).mentions, Desugar.Addressable id.index := by
  cases call with
  | intern type => exact h
  | setUnderlying named type => exact List.forall_mem_singleton.mpr h
  | basic kind | newNamed package name => exact List.forall_mem_nil _
  | defaultType id =>
    simp only [TypeCall.request]
    cases ty id with
    | basic kind => cases kind <;> exact List.forall_mem_nil _
    | _ => exact List.forall_mem_nil _

theorem run_eq_perform (call : TypeCall) (table : SymbolTable) :
    call.run table = (call.request table.ty).perform table := by
  cases call with
  | defaultType id =>
    simp only [run, request, SymbolTable.defaultType]
    cases table.ty id with
    | basic kind =>
      dsimp only
      split
      · cases kind.default? <;> rfl
      · rfl
    | _ => rfl
  | _ => rfl

end TypeCall

namespace SymbolTable

def afterCalls (table : SymbolTable) (calls : List TypeCall) : SymbolTable :=
  calls.foldl (fun table call => (call.run table).2) table

def answers (table : SymbolTable) : List TypeCall → List (Option TypeId)
  | [] => []
  | call :: rest => (call.run table).1 :: (call.run table).2.answers rest

theorem lasting_afterCalls (table : SymbolTable) (calls : List TypeCall) :
    table.lasting <+: (table.afterCalls calls).lasting := by
  induction calls generalizing table with
  | nil => exact List.prefix_rfl
  | cons call rest ih =>
    have hfirst := (call.request table.ty).lasting_perform table
    rw [← call.run_eq_perform] at hfirst
    exact hfirst.trans (ih _)

end SymbolTable

/-!
## An index of positions
-/

/-- A table with an index of the first positions of its structural types, which is
complete for the types before a mark. -/
structure IndexedTable where
  table : SymbolTable
  interned : List (Ty × TypeId)
  mark : Nat

namespace IndexedTable

/-- A new table, or one that was read, has nothing in its index. -/
def ofTable (table : SymbolTable) : IndexedTable :=
  ⟨table, [], 0⟩

def enter (interned : List (Ty × TypeId)) (entry : Ty × Nat) : List (Ty × TypeId) :=
  if entry.1.isNamed || (interned.lookup entry.1).isSome then interned
  else (entry.1, ⟨entry.2⟩) :: interned

def reindex (indexed : IndexedTable) : IndexedTable :=
  { indexed with
    interned := ((indexed.table.types.toList.drop indexed.mark).zipIdx indexed.mark).foldl enter
      indexed.interned
    mark := indexed.table.types.size }

def intern (indexed : IndexedTable) (type : Ty) : TypeId × IndexedTable :=
  let pushed := indexed.table.pushType type
  if type.isNamed then (pushed.1, { indexed with table := pushed.2 })
  else
    match indexed.reindex.interned.lookup type with
    | some found => (found, indexed.reindex)
    | none =>
        (pushed.1, ⟨pushed.2, (type, pushed.1) :: indexed.reindex.interned, pushed.2.types.size⟩)

def run (call : TypeCall) (indexed : IndexedTable) : Option TypeId × IndexedTable :=
  match call.request indexed.table.ty with
  | .intern type => (some (indexed.intern type).1, (indexed.intern type).2)
  | .keep id => (some id, indexed)
  | .link named type => (none, { indexed with table := indexed.table.setUnderlying named type })

def reload? (indexed : IndexedTable) : Option IndexedTable :=
  indexed.table.reload?.map ofTable

def Indexes (types : List Ty) (interned : List (Ty × TypeId)) : Prop :=
  ∀ type : Ty, type.isNamed = false → interned.lookup type = (types.idxOf? type).map TypeId.mk

theorem Indexes.enter {types : List Ty} {interned : List (Ty × TypeId)} (h : Indexes types interned)
    (type : Ty) : Indexes (types ++ [type.lasting]) (enter interned (type, types.length)) := by
  intro other hother
  rw [SymbolTable.idxOf?_append_singleton, IndexedTable.enter]
  simp only [Ty.lasting_eq_iff hother]
  by_cases hnamed : type.isNamed
  · have hne : type ≠ other := fun heq => by simp [heq, hother] at hnamed
    rw [if_pos (by simp [hnamed]), if_neg hne, Option.or_none, h other hother]
  · have htype := h type (Bool.eq_false_iff.mpr hnamed)
    cases hfound : types.idxOf? type with
    | some index =>
      rw [hfound] at htype
      rw [if_pos (by simp [htype]), h other hother]
      by_cases heq : type = other
      · rw [← heq, hfound]
        rfl
      · rw [if_neg heq, Option.or_none]
    | none =>
      rw [hfound] at htype
      rw [if_neg (by simp [hnamed, htype]), List.lookup_cons]
      by_cases heq : type = other
      · simp [← heq, hfound]
      · have hne : (other == type) = false := beq_false_of_ne (Ne.symm heq)
        rw [hne, h other hother, if_neg heq, Option.or_none]

theorem Indexes.foldl {types : List Ty} {interned : List (Ty × TypeId)}
    (h : Indexes types interned) (rest : List Ty) :
    Indexes (types ++ rest.map Ty.lasting)
      ((rest.zipIdx types.length).foldl IndexedTable.enter interned) := by
  induction rest generalizing types interned with
  | nil => simpa using h
  | cons type rest ih =>
    have hnext := ih (h.enter type)
    rw [List.length_append, List.append_assoc] at hnext
    exact hnext

def Coherent (indexed : IndexedTable) : Prop :=
  indexed.mark ≤ indexed.table.lasting.length ∧
    Indexes (indexed.table.lasting.take indexed.mark) indexed.interned

theorem coherent_ofTable (table : SymbolTable) : (ofTable table).Coherent :=
  ⟨Nat.zero_le _, fun _ _ => rfl⟩

theorem coherent_of_indexes {table : SymbolTable} {interned : List (Ty × TypeId)}
    (h : Indexes table.lasting interned) : Coherent ⟨table, interned, table.types.size⟩ := by
  rw [Coherent, ← table.length_lasting, List.take_length]
  exact ⟨Nat.le_refl _, h⟩

theorem indexes_reindex {indexed : IndexedTable} (h : indexed.Coherent) :
    Indexes indexed.table.lasting indexed.reindex.interned := by
  have hlength : (indexed.table.lasting.take indexed.mark).length = indexed.mark :=
    List.length_take_of_le h.1
  have hall := h.2.foldl (indexed.table.types.toList.drop indexed.mark)
  rw [hlength, List.map_drop] at hall
  rwa [← SymbolTable.lasting, List.take_append_drop] at hall

theorem intern_agrees {indexed : IndexedTable} (h : indexed.Coherent) (type : Ty) :
    (indexed.intern type).1 = (indexed.table.intern type).1 ∧
      (indexed.intern type).2.table = (indexed.table.intern type).2 ∧
      (indexed.intern type).2.Coherent := by
  have hpushed := indexed.table.lasting_pushType type
  by_cases hnamed : type.isNamed = true
  · rw [intern, SymbolTable.intern, if_pos hnamed, if_pos hnamed]
    refine ⟨rfl, rfl, ?_, ?_⟩
    · show indexed.mark ≤ (indexed.table.pushType type).2.lasting.length
      rw [hpushed, List.length_append]
      exact Nat.le_add_right_of_le h.1
    · show Indexes ((indexed.table.pushType type).2.lasting.take indexed.mark) indexed.interned
      rw [hpushed, List.take_append_of_le_length h.1]
      exact h.2
  · have hstructural := Bool.eq_false_iff.mpr hnamed
    have hindexes := indexes_reindex h
    have hlookup := hindexes type hstructural
    rw [intern, SymbolTable.intern, if_neg hnamed, if_neg hnamed, hlookup,
      indexed.table.idxOf?_lasting hstructural]
    cases hfound : indexed.table.types.idxOf? type with
    | some index => exact ⟨rfl, rfl, coherent_of_indexes hindexes⟩
    | none =>
      have hentered := hindexes.enter type
      rw [indexed.table.idxOf?_lasting hstructural, hfound] at hlookup
      rw [IndexedTable.enter, if_neg (by simp [hnamed, hlookup]), indexed.table.length_lasting,
        ← hpushed] at hentered
      exact ⟨rfl, rfl, coherent_of_indexes hentered⟩

theorem run_agrees {indexed : IndexedTable} (h : indexed.Coherent) (call : TypeCall) :
    (run call indexed).1 = (call.run indexed.table).1 ∧
      (run call indexed).2.table = (call.run indexed.table).2 ∧ (run call indexed).2.Coherent := by
  rw [call.run_eq_perform, run]
  cases call.request indexed.table.ty with
  | intern type =>
    rcases intern_agrees h type with ⟨hid, htable, hcoherent⟩
    exact ⟨congrArg some hid, htable, hcoherent⟩
  | keep id => exact ⟨rfl, rfl, h⟩
  | link named type =>
    have hsame := indexed.table.lasting_setUnderlying named type
    refine ⟨rfl, rfl, ?_⟩
    simp only [Coherent, hsame]
    exact h

end IndexedTable

/-!
## Calls and reloads
-/

section

variable {σ : Type} (run : TypeCall → σ → Option TypeId × σ) (reload : σ → Option σ)

/-- The answers of some calls, between which the state may be stored and read again. -/
def stepAnswers? : List (Option TypeCall) → σ → Option (List (Option TypeId))
  | [], _ => some []
  | some call :: rest, state =>
      (stepAnswers? rest (run call state).2).map fun answers => (run call state).1 :: answers
  | none :: rest, state => (reload state).bind (stepAnswers? rest)

variable {run reload}

theorem stepAnswers?_eq {R : σ → SymbolTable → Prop}
    (hrun : ∀ (call : TypeCall) {state table}, call.Addressable → R state table →
      (run call state).1 = (call.run table).1 ∧ R (run call state).2 (call.run table).2)
    (hreload : ∀ {state table}, R state table →
      ∃ state', reload state = some state' ∧ R state' table)
    (steps : List (Option TypeCall)) (hsteps : ∀ call ∈ steps.reduceOption, call.Addressable)
    {state : σ} {table : SymbolTable} (h : R state table) :
    stepAnswers? run reload steps state = some (table.answers steps.reduceOption) := by
  induction steps generalizing state table with
  | nil => rfl
  | cons step rest ih =>
    cases step with
    | some call =>
      rw [List.reduceOption_cons_of_some] at hsteps ⊢
      rcases hrun call (hsteps call (.head _)) h with ⟨hanswer, hnext⟩
      have hrest := ih (fun other hother => hsteps other (.tail _ hother)) hnext
      rw [stepAnswers?, hrest, hanswer]
      rfl
    | none =>
      rw [List.reduceOption_cons_of_none] at hsteps ⊢
      rcases hreload h with ⟨state', hstate, hnext⟩
      rw [stepAnswers?, hstate]
      exact ih hsteps hnext

end

namespace SymbolTable

def SameTypes (table other : SymbolTable) : Prop :=
  table.types = other.types ∧ table.Representable

theorem SameTypes.run {table other : SymbolTable} (h : table.SameTypes other) {call : TypeCall}
    (hcall : call.Addressable) : (call.run table).1 = (call.run other).1 ∧
      (call.run table).2.SameTypes (call.run other).2 := by
  have hty : table.ty = other.ty := by
    funext id
    rw [ty, ty, h.1]
  have hrepresentable := TypeRequest.representable_perform h.2 (hcall.request table.ty)
  rw [call.run_eq_perform, call.run_eq_perform, ← hty]
  cases hrequest : call.request table.ty with
  | intern type =>
    rw [hrequest] at hrepresentable
    have hintern : (table.intern type).1 = (other.intern type).1 ∧
        (table.intern type).2.types = (other.intern type).2.types := by
      unfold intern pushType
      rw [h.1]
      split
      · exact ⟨rfl, rfl⟩
      · split
        · exact ⟨rfl, h.1⟩
        · exact ⟨rfl, rfl⟩
    exact ⟨congrArg some hintern.1, hintern.2, hrepresentable⟩
  | keep id => exact ⟨rfl, h⟩
  | link named type =>
    rw [hrequest] at hrepresentable
    refine ⟨rfl, ?_, hrepresentable⟩
    simp only [TypeRequest.perform, setUnderlying, h.1]

theorem SameTypes.stored {table other : SymbolTable} (h : table.SameTypes other) :
    table.stored.SameTypes other :=
  ⟨h.1, { h.2 with }⟩

theorem intern_eq_iff (table : SymbolTable) (between : List TypeCall) {type type' : Ty}
    (h : type.isNamed = false) (h' : type'.isNamed = false) :
    (table.intern type).1 = (((table.intern type).2.afterCalls between).intern type').1 ↔
      type = type' := by
  have hlast := ((table.intern type).2.afterCalls between).idxOf?_intern h'
  have hfirst := idxOf?_of_prefix (((table.intern type).2.lasting_afterCalls between).trans
    (lasting_intern _ type')) (table.idxOf?_intern h)
  constructor
  · intro heq
    rw [heq] at hfirst
    have hfound := (firstAt_of_idxOf? h hfirst).1
    rw [(firstAt_of_idxOf? h' hlast).1] at hfound
    exact (Option.some.inj hfound).symm
  · rintro rfl
    rw [hfirst] at hlast
    exact congrArg TypeId.mk (Option.some.inj hlast)

/-- Interning gives a structural type the first position at which it stands, and a named
type a new one.  Two structural types get one position exactly when they are equal, whatever
is asked in between.  Nothing in the arena changes but underlying types.  Storing the table
between any calls changes no answer, nor does an index of positions. -/
theorem interning_canonical {table : SymbolTable} (htable : table.Representable)
    (calls : List TypeCall) (hcalls : ∀ call ∈ calls, call.Addressable) :
    let after := table.afterCalls calls
    (∀ type, type.isNamed = false → (after.intern type).2.FirstAt type (after.intern type).1) ∧
    (∀ type, type.isNamed = true → (after.intern type).1.index = after.types.size) ∧
    (∀ package name, (after.newNamed package name).1.index = after.types.size) ∧
    (∀ type type' between, type.isNamed = false → type'.isNamed = false →
      ((after.intern type).1 = (((after.intern type).2.afterCalls between).intern type').1 ↔
        type = type')) ∧
    table.types.toList.map Ty.lasting <+: after.types.toList.map Ty.lasting ∧
    ∀ steps : List (Option TypeCall), steps.reduceOption = calls →
      stepAnswers? TypeCall.run reload? steps table = some (table.answers calls) ∧
      stepAnswers? IndexedTable.run IndexedTable.reload? steps (.ofTable table) =
        some (table.answers calls) := by
  refine ⟨fun type h => firstAt_of_idxOf? h (idxOf?_intern _ h), fun type h => ?_, fun _ _ => rfl,
    fun type type' between => intern_eq_iff _ between, table.lasting_afterCalls calls, ?_⟩
  · rw [intern, if_pos h]
    rfl
  · rintro steps rfl
    constructor
    · exact stepAnswers?_eq (R := SameTypes) (fun call _ _ hcall h => h.run hcall)
        (fun h => ⟨_, reload?_eq h.2, h.stored⟩) steps hcalls ⟨rfl, htable⟩
    · refine stepAnswers?_eq
        (R := fun indexed table => indexed.table.SameTypes table ∧ indexed.Coherent)
        (fun call indexed _ hcall h => ?_) (fun {indexed _} h => ?_) steps hcalls
        ⟨⟨rfl, htable⟩, IndexedTable.coherent_ofTable table⟩
      · rcases IndexedTable.run_agrees h.2 call with ⟨hanswer, hstate, hcoherent⟩
        have hsame := h.1.run hcall
        rw [← hanswer, ← hstate] at hsame
        exact ⟨hsame.1, hsame.2, hcoherent⟩
      · refine ⟨_, ?_, h.1.stored, IndexedTable.coherent_ofTable indexed.table.stored⟩
        rw [IndexedTable.reload?, reload?_eq h.1.2]
        rfl

/-- A type stands twice in an arena that was read. -/
def repeatedTable : SymbolTable :=
  { empty with types := #[.basic .int, .slice ⟨0⟩, .basic .int] }

/-- The table is stored and read again before the first and the second call. -/
def repeatedSteps : List (Option TypeCall) :=
  [none, some (.newNamed none "T"), none, some (.basic .int), some (.setUnderlying ⟨3⟩ ⟨2⟩)]

theorem repeatedTable_canonical :
    repeatedTable.Representable ∧ (∀ call ∈ repeatedSteps.reduceOption, call.Addressable) ∧
      stepAnswers? IndexedTable.run IndexedTable.reload? repeatedSteps (.ofTable repeatedTable) =
        some [some ⟨3⟩, some ⟨0⟩, none] := by
  have htable : repeatedTable.Representable := by decide +kernel
  have hcalls : ∀ call ∈ repeatedSteps.reduceOption, call.Addressable := by
    simp [repeatedSteps, List.reduceOption, TypeCall.Addressable, Addressable, positionLimit]
  have hanswers :
      repeatedTable.answers repeatedSteps.reduceOption = [some ⟨3⟩, some ⟨0⟩, none] := by
    decide +kernel
  have hsteps := (interning_canonical htable _ hcalls).2.2.2.2.2 repeatedSteps rfl
  rw [hanswers] at hsteps
  exact ⟨htable, hcalls, hsteps.2⟩

end SymbolTable
end Desugar
