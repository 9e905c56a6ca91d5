import Desugar.Proofs.Growth
import Desugar.Proofs.PromotedFields

/-!
# Types of a closed table

The types of a table are closed when every type they mention stands in the
arena.  What such a table says about one of its types, no growth of the table
can change; without this, a type that is missing today may be filled in by the
next type that is added.

The embedded fields that a search finds lead from the operand to the field: each
is a field of the type before it.
-/

namespace Desugar

namespace Ty

def mentions : Ty → List TypeId
  | .basic _ | .typeParam _ | .invalid => []
  | .named _ _ underlying args => underlying.toList ++ args
  | .pointer elem | .slice elem | .array _ elem | .chan _ elem => [elem]
  | .map key value => [key, value]
  | .signature params results _ => params ++ results
  | .struct fields => fields.map StructField.ty
  | .interface methods => methods.map InterfaceMethod.sig
  | .tuple members => members

end Ty

namespace SymbolTable

def HasType (table : SymbolTable) (id : TypeId) : Prop :=
  id.index < table.types.size

/-- A table whose types mention only types of the arena, and which records only
types of the arena for expressions. -/
structure Closed (table : SymbolTable) : Prop where
  mentions : ∀ type ∈ table.types, ∀ id ∈ type.mentions, table.HasType id
  exprTypes : ∀ (node : NodeId) (id : TypeId), table.exprTypes[node]? = some id →
    table.HasType id

section

variable {bound : Nat} {old new : SymbolTable}

/-!
## Stability
-/

theorem ty_eq_of_hasType (h : old.Extends bound new) {id : TypeId} (hid : old.HasType id) :
    new.ty id = old.ty id := by
  have hfound : old.types[id.index]? = some old.types[id.index] := Array.getElem?_eq_getElem hid
  unfold ty
  rw [hfound, h.types _ _ hfound]

theorem Closed.hasType_of_mentions (hclosed : old.Closed) (id : TypeId) {part : TypeId}
    (hpart : part ∈ (old.ty id).mentions) : old.HasType part := by
  unfold ty at hpart
  cases hfound : old.types[id.index]? with
  | none =>
    rw [hfound] at hpart
    cases hpart
  | some type =>
    rw [hfound] at hpart
    exact hclosed.mentions type (Array.mem_of_getElem? hfound) part hpart

theorem structureOf_eq_of_hasType (hclosed : old.Closed) (h : old.Extends bound new)
    {id : TypeId} (hid : old.HasType id) : new.structureOf id = old.structureOf id := by
  unfold structureOf underlying
  generalize nestingLimit = limit
  induction limit generalizing id with
  | zero => exact ty_eq_of_hasType h hid
  | succ limit ih =>
    have hsame := ty_eq_of_hasType h hid
    unfold followNamed
    rw [hsame]
    cases hfound : old.ty id with
    | named package name next args =>
      cases next with
      | none => exact hsame
      | some next =>
        apply ih
        apply hclosed.hasType_of_mentions id
        rw [hfound]
        exact .head _
    | _ => exact hsame

theorem Closed.hasType_of_pointerElem (hclosed : old.Closed) {id elem : TypeId}
    (h : old.pointerElem id = some elem) : old.HasType elem := by
  apply hclosed.hasType_of_mentions (old.underlying id)
  unfold pointerElem at h
  cases hform : old.structureOf id with
  | pointer found =>
    rw [hform] at h
    cases h
    show elem ∈ (old.structureOf id).mentions
    rw [hform]
    exact .head _
  | _ =>
    rw [hform] at h
    cases h

theorem Closed.hasType_of_fieldsOf (hclosed : old.Closed) {id : TypeId}
    {fields : List StructField} (h : old.fieldsOf id = some fields) {field : StructField}
    (hfield : field ∈ fields) : old.HasType field.ty := by
  apply hclosed.hasType_of_mentions (old.underlying id)
  unfold fieldsOf at h
  cases hform : old.structureOf id with
  | struct found =>
    rw [hform] at h
    cases h
    show field.ty ∈ (old.structureOf id).mentions
    rw [hform]
    exact List.mem_map.mpr ⟨field, hfield, rfl⟩
  | _ =>
    rw [hform] at h
    cases h

theorem Closed.hasType_holder (hclosed : old.Closed) {id : TypeId} (hid : old.HasType id) :
    old.HasType (old.holder id) := by
  unfold holder
  cases helem : old.pointerElem id with
  | none => exact hid
  | some elem => exact hclosed.hasType_of_pointerElem helem

theorem pointerElem_eq_of_hasType (hclosed : old.Closed) (h : old.Extends bound new)
    {id : TypeId} (hid : old.HasType id) : new.pointerElem id = old.pointerElem id := by
  unfold pointerElem
  rw [structureOf_eq_of_hasType hclosed h hid]

theorem fieldsOf_eq_of_hasType (hclosed : old.Closed) (h : old.Extends bound new)
    {id : TypeId} (hid : old.HasType id) : new.fieldsOf id = old.fieldsOf id := by
  unfold fieldsOf
  rw [structureOf_eq_of_hasType hclosed h hid]

theorem isPointerToArray_eq_of_hasType (hclosed : old.Closed) (h : old.Extends bound new)
    {id : TypeId} (hid : old.HasType id) :
    new.isPointerToArray id = old.isPointerToArray id := by
  unfold isPointerToArray
  rw [pointerElem_eq_of_hasType hclosed h hid]
  cases helem : old.pointerElem id with
  | none => rfl
  | some elem =>
    show new.isArray elem = old.isArray elem
    unfold isArray
    rw [structureOf_eq_of_hasType hclosed h (hclosed.hasType_of_pointerElem helem)]

theorem not_isPointerToArray_of_isArray {table : SymbolTable} {id : TypeId}
    (h : table.isArray id = true) : table.isPointerToArray id = false := by
  unfold isArray at h
  unfold isPointerToArray pointerElem
  cases hform : table.structureOf id with
  | array len elem => rfl
  | _ =>
    rw [hform] at h
    cases h

/-!
## The search for a field
-/

def FieldTrail.Known (table : SymbolTable) (trail : FieldTrail) : Prop :=
  table.HasType trail.ty ∧ ∀ field ∈ trail.path, table.HasType field.ty

theorem Closed.known_inner (hclosed : old.Closed) {trail : FieldTrail} (htrail : trail.Known old)
    {fields : List StructField} (hfields : old.fieldsOf (old.holder trail.ty) = some fields) :
    ∀ inner ∈ (fields.filter StructField.embedded).map
      (fun field => FieldTrail.mk field.ty (trail.path ++ [field])), inner.Known old := by
  intro inner hinner
  rcases List.mem_map.mp hinner with ⟨field, hfield, rfl⟩
  have hty := hclosed.hasType_of_fieldsOf hfields (List.mem_filter.mp hfield).1
  constructor
  · exact hty
  · intro other hother
    rcases List.mem_append.mp hother with hother | hother
    · exact htrail.2 other hother
    · rw [List.mem_singleton.mp hother]
      exact hty

def LevelSearch.Known (table : SymbolTable) : LevelSearch → Prop
  | .found path => ∀ field ∈ path, table.HasType field.ty
  | .deeper next _ => ∀ trail ∈ next, trail.Known table

theorem searchLevel_eq_of_known (hclosed : old.Closed) (h : old.Extends bound new) (name : String)
    (level next : List FieldTrail) (seen : List TypeId)
    (hlevel : ∀ trail ∈ level, trail.Known old) (hnext : ∀ trail ∈ next, trail.Known old) :
    new.searchLevel name level next seen = old.searchLevel name level next seen ∧
      (old.searchLevel name level next seen).Known old := by
  induction level generalizing next seen with
  | nil => exact ⟨rfl, hnext⟩
  | cons trail rest ih =>
    have htrail := hlevel trail (.head _)
    have hrest : ∀ other ∈ rest, other.Known old := fun other ho => hlevel other (.tail _ ho)
    have hholder : new.holder trail.ty = old.holder trail.ty := by
      unfold holder
      rw [pointerElem_eq_of_hasType hclosed h htrail.1]
    have hfields := fieldsOf_eq_of_hasType hclosed h (hclosed.hasType_holder htrail.1)
    simp only [holder] at hholder hfields
    simp only [searchLevel, hholder, hfields]
    split
    · exact ih next seen hrest hnext
    · cases hfound : old.fieldsOf ((old.pointerElem trail.ty).getD trail.ty) with
      | none => exact ih next _ hrest hnext
      | some fields =>
        dsimp only
        split
        · exact ⟨rfl, htrail.2⟩
        · apply ih _ _ hrest
          intro other hother
          rcases List.mem_append.mp hother with hother | hother
          · exact hnext other hother
          · exact hclosed.known_inner htrail hfound other hother

theorem searchFields_eq_of_known (hclosed : old.Closed) (h : old.Extends bound new) (name : String)
    (limit : Nat) (level : List FieldTrail) (seen : List TypeId)
    (hlevel : ∀ trail ∈ level, trail.Known old) :
    new.searchFields name limit level seen = old.searchFields name limit level seen ∧
      ∀ path, old.searchFields name limit level seen = some path →
        ∀ field ∈ path, old.HasType field.ty := by
  induction limit generalizing level seen with
  | zero => exact ⟨rfl, fun _ hpath => by cases hpath⟩
  | succ limit ih =>
    have hnil : ∀ trail ∈ ([] : List FieldTrail), trail.Known old := fun _ ht => by cases ht
    rcases searchLevel_eq_of_known hclosed h name level [] seen hlevel hnil with ⟨hsame, hknown⟩
    simp only [searchFields, hsame]
    cases hfound : old.searchLevel name level [] seen with
    | found path =>
      rw [hfound] at hknown
      refine ⟨rfl, ?_⟩
      intro found heq
      cases heq
      exact hknown
    | deeper next seen' =>
      rw [hfound] at hknown
      cases next with
      | nil => exact ⟨rfl, fun _ hpath => by cases hpath⟩
      | cons trail rest => exact ih _ _ hknown

theorem fieldPath_eq_of_hasType (hclosed : old.Closed) (h : old.Extends bound new)
    {id : TypeId} (hid : old.HasType id) (name : String) :
    new.fieldPath id name = old.fieldPath id name ∧
      ∀ path, old.fieldPath id name = some path → ∀ field ∈ path, old.HasType field.ty := by
  apply searchFields_eq_of_known hclosed h
  intro trail htrail
  rw [List.mem_singleton.mp htrail]
  exact ⟨hid, fun _ hfield => by cases hfield⟩

theorem implicitDeref_eq_of_hasType (hclosed : old.Closed) (h : old.Extends bound new)
    {id : TypeId} (hid : old.HasType id) (name : String) :
    new.implicitDeref id name = old.implicitDeref id name := by
  rcases fieldPath_eq_of_hasType hclosed h hid name with ⟨hsame, hknown⟩
  unfold implicitDeref
  rw [pointerElem_eq_of_hasType hclosed h hid, hsame]
  cases hpath : old.fieldPath id name with
  | none => rfl
  | some path =>
    have hany : path.any (fun field => (new.pointerElem field.ty).isSome) =
        path.any (fun field => (old.pointerElem field.ty).isSome) := by
      rw [Bool.eq_iff_iff, List.any_eq_true, List.any_eq_true]
      apply exists_congr
      intro field
      apply and_congr_right
      intro hfield
      rw [pointerElem_eq_of_hasType hclosed h (hknown path hpath field hfield)]
    simp only [Option.any_some, hany]

end

/-!
## Paths of embedded fields
-/

def HasField (table : SymbolTable) (holder : TypeId) (name : String) : Prop :=
  ∃ fields, table.fieldsOf holder = some fields ∧ ∃ field ∈ fields, field.name = name

section

variable {table : SymbolTable} {name : String}

theorem not_pointer_of_hasField {holder : TypeId} (h : table.HasField holder name) :
    table.pointerElem holder = none := by
  rcases h with ⟨fields, hfields, _⟩
  unfold fieldsOf at hfields
  unfold pointerElem
  cases hform : table.structureOf holder with
  | pointer elem =>
    rw [hform] at hfields
    cases hfields
  | _ => rfl

theorem implicitDeref_of_hasField {holder : TypeId} (h : table.HasField holder name) :
    table.implicitDeref holder name = false := by
  have hpointer := not_pointer_of_hasField h
  rcases h with ⟨fields, hfields, field, hfield, hname⟩
  have hany : fields.any (fun field => field.name == name) = true := by
    rw [List.any_eq_true]
    exact ⟨field, hfield, beq_iff_eq.mpr hname⟩
  have hlevel : table.searchLevel name [⟨holder, []⟩] [] [] = .found [] := by
    simp only [searchLevel, hpointer, Option.getD_none, hfields, hany]
    rfl
  have hpath : table.fieldPath holder name = some [] := by
    unfold fieldPath nestingLimit searchFields
    rw [hlevel]
  simp only [implicitDeref, hpointer, hpath]
  rfl

theorem hasField_of_declares {id : TypeId} (h : table.declares name id = true) :
    table.HasField (table.holder id) name := by
  rcases (Option.any_eq_true _ _).mp h with ⟨fields, hfields, hany⟩
  rcases List.any_eq_true.mp hany with ⟨field, hfield, hname⟩
  exact ⟨fields, hfields, field, hfield, beq_iff_eq.mp hname⟩

theorem hasField_of_fieldPath {base : TypeId} {path : List StructField}
    (h : table.fieldPath base name = some path) :
    ∃ last, table.Promotes base path last ∧ table.HasField (table.holder last) name :=
  (promotes_of_fieldPath h).imp fun _ hlast => ⟨hlast.1, hasField_of_declares hlast.2⟩

end

section

variable {bound : Nat} {old new : SymbolTable}

theorem hasField_of_extends (h : old.Extends bound new) {holder : TypeId} {name : String}
    (hfield : old.HasField holder name) : new.HasField holder name := by
  rcases hfield with ⟨fields, hfields, hname⟩
  refine ⟨fields, ?_, hname⟩
  unfold fieldsOf at hfields ⊢
  cases hform : old.structureOf holder with
  | struct found =>
    rw [hform] at hfields
    rw [structureOf_of_extends h hform (by simp)]
    exact hfields
  | _ =>
    rw [hform] at hfields
    cases hfields

end

end SymbolTable
end Desugar
