import Desugar.Symbols.Arena
import Mathlib.Data.List.Nodup
import Mathlib.Data.List.Pairwise

/-!
# Promoted fields

The search for a field comes to the types that embedded fields lead to, level by
level, and to each holder of fields once.  What it finds is the first place it
comes to that declares the field.  No chain of embedded fields to a declaration
is shorter than the one that is found, for a chain that runs through a holder
seen before goes on as the search went on from there.
-/

namespace Desugar
namespace SymbolTable

/-- The type whose fields a value has: what it points to, or its own type. -/
def holder (table : SymbolTable) (id : TypeId) : TypeId :=
  (table.pointerElem id).getD id

def declares (table : SymbolTable) (name : String) (id : TypeId) : Bool :=
  (table.fieldsOf (table.holder id)).any fun fields => fields.any fun field => field.name == name

/-- A chain of embedded fields from one type to another.  Each is declared by the
struct behind the type that the one before it leads to. -/
inductive Promotes (table : SymbolTable) : TypeId → List StructField → TypeId → Prop where
  | nil (id : TypeId) : Promotes table id [] id
  | cons {id last : TypeId} {fields chain : List StructField} {field : StructField}
      (hfields : table.fieldsOf (table.holder id) = some fields) (hfield : field ∈ fields)
      (hembedded : field.embedded = true) (hrest : Promotes table field.ty chain last) :
      Promotes table id (field :: chain) last

theorem Promotes.snoc {table : SymbolTable} {id mid : TypeId} {chain fields : List StructField}
    {field : StructField} (h : table.Promotes id chain mid)
    (hfields : table.fieldsOf (table.holder mid) = some fields) (hfield : field ∈ fields)
    (hembedded : field.embedded = true) : table.Promotes id (chain ++ [field]) field.ty := by
  induction h with
  | nil id => exact .cons hfields hfield hembedded (.nil _)
  | cons hfields' hfield' hembedded' _ ih => exact .cons hfields' hfield' hembedded' (ih hfields)

/-!
## The order of the search
-/

namespace FieldTrail

variable (table : SymbolTable)

def holder (trail : FieldTrail) : TypeId :=
  table.holder trail.ty

def inner (trail : FieldTrail) : List FieldTrail :=
  (((table.fieldsOf (trail.holder table)).getD []).filter StructField.embedded).map fun field =>
    ⟨field.ty, trail.path ++ [field]⟩

/-- The places of a level whose holders are met for the first time. -/
def fresh : List TypeId → List FieldTrail → List FieldTrail
  | _, [] => []
  | seen, trail :: rest =>
      if trail.holder table ∈ seen then fresh seen rest
      else trail :: fresh (trail.holder table :: seen) rest

def seenAfter (seen : List TypeId) (level : List FieldTrail) : List TypeId :=
  ((fresh table seen level).map (holder table)).reverse ++ seen

/-- The places that a search of so many levels looks into, in its order. -/
def visits : Nat → List TypeId → List FieldTrail → List FieldTrail
  | 0, _, _ => []
  | n + 1, seen, level =>
      fresh table seen level ++
        visits n (seenAfter table seen level) ((fresh table seen level).flatMap (inner table))

variable {table} {seen : List TypeId} {level : List FieldTrail} {trail : FieldTrail}

theorem mem_inner_iff {next : FieldTrail} : next ∈ trail.inner table ↔
    ∃ fields field, table.fieldsOf (trail.holder table) = some fields ∧ field ∈ fields ∧
      field.embedded = true ∧ next = ⟨field.ty, trail.path ++ [field]⟩ := by
  unfold inner
  cases hfields : table.fieldsOf (trail.holder table) with
  | none => simp
  | some fields =>
    rw [Option.getD_some, List.mem_map]
    constructor
    · rintro ⟨field, hfield, rfl⟩
      exact ⟨fields, field, rfl, (List.mem_filter.mp hfield).1, (List.mem_filter.mp hfield).2, rfl⟩
    · rintro ⟨_, field, hsome, hfield, hembedded, rfl⟩
      cases hsome
      exact ⟨field, List.mem_filter.mpr ⟨hfield, hembedded⟩, rfl⟩

theorem fresh_sublist (seen : List TypeId) (level : List FieldTrail) :
    (fresh table seen level).Sublist level := by
  induction level generalizing seen with
  | nil => exact .refl []
  | cons trail rest ih =>
    unfold fresh
    split
    · exact (ih seen).cons trail
    · exact (ih _).cons_cons trail

theorem mem_seenAfter_iff {id : TypeId} : id ∈ seenAfter table seen level ↔
    id ∈ seen ∨ ∃ trail ∈ fresh table seen level, trail.holder table = id := by
  rw [seenAfter, List.mem_append, List.mem_reverse, List.mem_map, or_comm]

theorem mem_seenAfter_of_mem (htrail : trail ∈ level) :
    trail.holder table ∈ seenAfter table seen level := by
  rw [mem_seenAfter_iff]
  induction level generalizing seen with
  | nil => cases htrail
  | cons first rest ih =>
    unfold fresh
    by_cases hfirst : first.holder table ∈ seen
    · rw [if_pos hfirst]
      rcases List.mem_cons.mp htrail with rfl | htrail
      · exact .inl hfirst
      · exact ih htrail
    · rw [if_neg hfirst]
      rcases List.mem_cons.mp htrail with rfl | htrail
      · exact .inr ⟨trail, .head _, rfl⟩
      · rcases @ih (first.holder table :: seen) htrail with hseen | ⟨found, hfound, hholder⟩
        · rcases List.mem_cons.mp hseen with hseen | hseen
          · exact .inr ⟨first, .head _, hseen.symm⟩
          · exact .inl hseen
        · exact .inr ⟨found, .tail _ hfound, hholder⟩

theorem nodup_seenAfter (h : seen.Nodup) : (seenAfter table seen level).Nodup := by
  unfold seenAfter
  induction level generalizing seen with
  | nil => exact h
  | cons trail rest ih =>
    unfold fresh
    split
    · exact ih h
    · rename_i hnew
      have hrest := ih (List.nodup_cons.mpr ⟨hnew, h⟩)
      rw [List.map_cons, List.reverse_cons, List.append_assoc]
      exact hrest

@[simp] theorem visits_nil (n : Nat) (seen : List TypeId) : visits table n seen [] = [] := by
  induction n generalizing seen with
  | zero => rfl
  | succ n ih => exact ih _

theorem nodup_visits (h : seen.Nodup) (n : Nat) :
    (((visits table n seen level).map (holder table)).reverse ++ seen).Nodup := by
  induction n generalizing seen level with
  | zero => exact h
  | succ n ih =>
    have hrest := @ih (seenAfter table seen level) ((fresh table seen level).flatMap (inner table))
      (nodup_seenAfter h)
    rw [visits, List.map_append, List.reverse_append, List.append_assoc]
    exact hrest

end FieldTrail

open FieldTrail

theorem searchLevel_eq (table : SymbolTable) (name : String) (level next : List FieldTrail)
    (seen : List TypeId) : table.searchLevel name level next seen =
      match (fresh table seen level).find? (fun trail => table.declares name trail.ty) with
      | some trail => .found trail.path
      | none => .deeper (next ++ (fresh table seen level).flatMap (inner table))
          (seenAfter table seen level) := by
  unfold seenAfter
  induction level generalizing next seen with
  | nil => simp [searchLevel, fresh]
  | cons trail rest ih =>
    have hholder : (table.pointerElem trail.ty).getD trail.ty = trail.holder table := rfl
    simp only [searchLevel, hholder, List.contains_iff_mem]
    by_cases hseen : trail.holder table ∈ seen
    · rw [if_pos hseen, ih, fresh, if_pos hseen]
    · rw [if_neg hseen, fresh, if_neg hseen]
      cases hfields : table.fieldsOf (trail.holder table) with
      | none =>
        have hdeclares : table.declares name trail.ty = false := by
          rw [declares]
          exact congrArg (Option.any _) hfields
        have hinner : trail.inner table = [] := by
          rw [FieldTrail.inner, hfields]
          rfl
        simp [ih, hdeclares, hinner]
      | some fields =>
        have hdeclares : table.declares name trail.ty =
            fields.any (fun field => field.name == name) := by
          rw [declares]
          exact congrArg (Option.any _) hfields
        have hinner : (fields.filter StructField.embedded).map
            (fun field => FieldTrail.mk field.ty (trail.path ++ [field])) = trail.inner table := by
          rw [FieldTrail.inner, hfields]
          rfl
        cases hfound : fields.any (fun field => field.name == name) with
        | true => simp [hdeclares, hfound]
        | false => simp [ih, hdeclares, hfound, hinner]

theorem searchFields_eq_find? (table : SymbolTable) (name : String) (n : Nat)
    (level : List FieldTrail) (seen : List TypeId) : table.searchFields name n level seen =
      ((visits table n seen level).find? fun trail => table.declares name trail.ty).map
        FieldTrail.path := by
  induction n generalizing level seen with
  | zero => rfl
  | succ n ih =>
    rw [searchFields, searchLevel_eq, visits, List.find?_append]
    cases (fresh table seen level).find? (fun trail => table.declares name trail.ty) with
    | some trail => rfl
    | none =>
      rw [List.nil_append, Option.none_or]
      cases hnext : (fresh table seen level).flatMap (inner table) with
      | nil => rw [visits_nil]; rfl
      | cons first rest => exact ih _ _

/-!
## Chains and places
-/

namespace FieldTrail

variable {table : SymbolTable} {seen : List TypeId} {level : List FieldTrail} {base : TypeId}

theorem promotes_of_mem_visits (hlevel : ∀ trail ∈ level, table.Promotes base trail.path trail.ty)
    (n : Nat) : ∀ trail ∈ visits table n seen level, table.Promotes base trail.path trail.ty := by
  induction n generalizing seen level with
  | zero =>
    intro trail htrail
    cases htrail
  | succ n ih =>
    have hfresh : ∀ trail ∈ fresh table seen level, table.Promotes base trail.path trail.ty :=
      fun trail htrail => hlevel trail ((fresh_sublist seen level).subset htrail)
    intro trail htrail
    rcases List.mem_append.mp htrail with htrail | htrail
    · exact hfresh trail htrail
    · refine ih ?_ trail htrail
      intro next hnext
      rcases List.mem_flatMap.mp hnext with ⟨outer, houter, hnext⟩
      rcases mem_inner_iff.mp hnext with ⟨fields, field, hfields, hfield, hembedded, rfl⟩
      exact (hfresh outer houter).snoc hfields hfield hembedded

theorem length_of_mem_fresh {k : Nat} (hlevel : ∀ trail ∈ level, trail.path.length = k) :
    ∀ trail ∈ fresh table seen level, trail.path.length = k :=
  fun trail htrail => hlevel trail ((fresh_sublist seen level).subset htrail)

theorem length_of_mem_next {k : Nat} (hlevel : ∀ trail ∈ level, trail.path.length = k) :
    ∀ next ∈ (fresh table seen level).flatMap (inner table), next.path.length = k + 1 := by
  intro next hnext
  rcases List.mem_flatMap.mp hnext with ⟨outer, houter, hnext⟩
  rcases mem_inner_iff.mp hnext with ⟨fields, field, _, _, _, rfl⟩
  rw [List.length_append, length_of_mem_fresh hlevel outer houter, List.length_singleton]

theorem length_of_mem_visits {k : Nat} (hlevel : ∀ trail ∈ level, trail.path.length = k)
    (n : Nat) : (∀ trail ∈ visits table n seen level,
        k ≤ trail.path.length ∧ trail.path.length < k + n) ∧
      (visits table n seen level).Pairwise fun a b => a.path.length ≤ b.path.length := by
  induction n generalizing seen level k with
  | zero =>
    refine ⟨fun trail htrail => ?_, .nil⟩
    cases htrail
  | succ n ih =>
    have hfresh := @length_of_mem_fresh table seen level k hlevel
    rcases @ih (seenAfter table seen level) _ (k + 1) (length_of_mem_next hlevel) with
      ⟨hbounds, hordered⟩
    constructor
    · intro trail htrail
      rcases List.mem_append.mp htrail with htrail | htrail
      · have hlength := hfresh trail htrail
        omega
      · have hlength := hbounds trail htrail
        omega
    · refine List.pairwise_append.mpr ⟨?_, hordered, ?_⟩
      · apply List.pairwise_of_forall_mem_list
        intro a ha b hb
        exact Nat.le_of_eq ((hfresh a ha).trans (hfresh b hb).symm)
      · intro a ha b hb
        have hlength := hbounds b hb
        rw [hfresh a ha]
        omega

/-- What is embedded in a holder that has been met has been met, too, or is next. -/
def Closed (table : SymbolTable) (seen : List TypeId) (level : List FieldTrail) : Prop :=
  ∀ id ∈ seen, ∀ fields, table.fieldsOf id = some fields → ∀ field ∈ fields,
    field.embedded = true → table.holder field.ty ∈ seenAfter table seen level

theorem mem_seenAfter_next {fields : List StructField} {field : StructField}
    (htrail : trail ∈ fresh table seen level)
    (hfields : table.fieldsOf (trail.holder table) = some fields)
    (hfield : field ∈ fields) (hembedded : field.embedded = true) :
    table.holder field.ty ∈ seenAfter table (seenAfter table seen level)
      ((fresh table seen level).flatMap (inner table)) := by
  have hnext : (⟨field.ty, trail.path ++ [field]⟩ : FieldTrail) ∈ trail.inner table :=
    mem_inner_iff.mpr ⟨fields, field, hfields, hfield, hembedded, rfl⟩
  have hholder : holder table ⟨field.ty, trail.path ++ [field]⟩ = table.holder field.ty := rfl
  rw [← hholder]
  exact mem_seenAfter_of_mem (List.mem_flatMap.mpr ⟨trail, htrail, hnext⟩)

theorem Closed.next (h : Closed table seen level) :
    Closed table (seenAfter table seen level) ((fresh table seen level).flatMap (inner table)) := by
  intro id hid fields hfields field hfield hembedded
  rcases mem_seenAfter_iff.mp hid with hid | ⟨trail, htrail, rfl⟩
  · exact mem_seenAfter_iff.mpr (.inl (h id hid fields hfields field hfield hembedded))
  · exact mem_seenAfter_next htrail hfields hfield hembedded

theorem exists_visit {id last : TypeId} {chain : List StructField} {k n : Nat}
    (h : table.Promotes id chain last) (hclosed : Closed table seen level)
    (hlevel : ∀ trail ∈ level, trail.path.length = k)
    (hid : table.holder id ∈ seenAfter table seen level) (hn : chain.length < n) :
    table.holder last ∈ seen ∨ ∃ trail ∈ visits table n seen level,
      trail.holder table = table.holder last ∧ trail.path.length ≤ k + chain.length := by
  induction h generalizing seen level k n with
  | nil id =>
    rcases mem_seenAfter_iff.mp hid with hseen | ⟨trail, htrail, hholder⟩
    · exact .inl hseen
    · cases n with
      | zero => exact absurd hn (Nat.not_lt_zero _)
      | succ n =>
        have hlength := length_of_mem_fresh hlevel trail htrail
        exact .inr ⟨trail, List.mem_append_left _ htrail, hholder, by omega⟩
  | @cons id last fields chain field hfields hfield hembedded _ ih =>
    rw [List.length_cons] at hn ⊢
    rcases mem_seenAfter_iff.mp hid with hseen | ⟨outer, houter, hholder⟩
    · -- The search went on from this holder before.
      have hnext := hclosed _ hseen fields hfields field hfield hembedded
      rcases ih hclosed hlevel hnext (Nat.lt_of_succ_lt hn) with
        hseen | ⟨trail, htrail, hlast, hlength⟩
      · exact .inl hseen
      · exact .inr ⟨trail, htrail, hlast, by omega⟩
    · -- The search looks into this holder now.
      cases n with
      | zero => exact absurd hn (Nat.not_lt_zero _)
      | succ n =>
        have hmem := mem_seenAfter_next houter (hholder ▸ hfields) hfield hembedded
        rcases ih hclosed.next (length_of_mem_next hlevel) hmem (Nat.lt_of_succ_lt_succ hn) with
          hseen | ⟨trail, htrail, hlast, hlength⟩
        · rcases mem_seenAfter_iff.mp hseen with hseen | ⟨trail, htrail, hlast⟩
          · exact .inl hseen
          · have hlength := length_of_mem_fresh hlevel trail htrail
            exact .inr ⟨trail, List.mem_append_left _ htrail, hlast, by omega⟩
        · exact .inr ⟨trail, List.mem_append_right _ htrail, hlast, by omega⟩

end FieldTrail

/-!
## The field that is found
-/

/-- The places that the search for a field of a type looks into, in its order. -/
def fieldVisits (table : SymbolTable) (base : TypeId) : List FieldTrail :=
  FieldTrail.visits table nestingLimit [] [⟨base, []⟩]

section

variable {table : SymbolTable} {base : TypeId} {name : String}

theorem fieldPath_eq_find? (table : SymbolTable) (base : TypeId) (name : String) :
    table.fieldPath base name =
      ((table.fieldVisits base).find? fun trail => table.declares name trail.ty).map
        FieldTrail.path :=
  table.searchFields_eq_find? name nestingLimit _ _

theorem nodup_fieldVisits (table : SymbolTable) (base : TypeId) :
    ((table.fieldVisits base).map (FieldTrail.holder table)).Nodup := by
  have hnodup := @FieldTrail.nodup_visits table [] [⟨base, []⟩] .nil nestingLimit
  rw [List.append_nil] at hnodup
  exact List.nodup_reverse.mp hnodup

theorem promotes_of_mem_fieldVisits {trail : FieldTrail} (h : trail ∈ table.fieldVisits base) :
    table.Promotes base trail.path trail.ty := by
  refine FieldTrail.promotes_of_mem_visits ?_ nestingLimit trail h
  intro first hfirst
  rw [List.mem_singleton.mp hfirst]
  exact .nil base

theorem length_fieldVisits (table : SymbolTable) (base : TypeId) :
    (∀ trail ∈ table.fieldVisits base, trail.path.length < nestingLimit) ∧
      (table.fieldVisits base).Pairwise fun a b => a.path.length ≤ b.path.length := by
  have hfirst : ∀ trail ∈ [FieldTrail.mk base []], trail.path.length = 0 :=
    List.forall_mem_singleton.mpr rfl
  rcases @FieldTrail.length_of_mem_visits table [] _ 0 hfirst nestingLimit with ⟨hbounds, hordered⟩
  refine ⟨fun trail htrail => ?_, hordered⟩
  have hlength := (hbounds trail htrail).2
  rwa [Nat.zero_add] at hlength

theorem exists_mem_fieldVisits {chain : List StructField} {last : TypeId}
    (h : table.Promotes base chain last) (hlength : chain.length < nestingLimit) :
    ∃ trail ∈ table.fieldVisits base, trail.holder table = table.holder last ∧
      trail.path.length ≤ chain.length := by
  have hclosed : FieldTrail.Closed table [] [⟨base, []⟩] := by
    intro id hid
    cases hid
  have hfirst : ∀ trail ∈ [FieldTrail.mk base []], trail.path.length = 0 :=
    List.forall_mem_singleton.mpr rfl
  have hbase : FieldTrail.holder table ⟨base, []⟩ ∈ FieldTrail.seenAfter table [] [⟨base, []⟩] :=
    FieldTrail.mem_seenAfter_of_mem (List.mem_singleton.mpr rfl)
  rcases FieldTrail.exists_visit h hclosed hfirst hbase hlength with hnone | hvisit
  · cases hnone
  · rw [Nat.zero_add] at hvisit
    exact hvisit

theorem declares_congr {id id' : TypeId} (h : table.holder id = table.holder id') :
    table.declares name id = table.declares name id' := by
  unfold declares
  rw [h]

theorem promotes_of_fieldPath {path : List StructField}
    (h : table.fieldPath base name = some path) :
    ∃ last, table.Promotes base path last ∧ table.declares name last = true := by
  rw [fieldPath_eq_find?] at h
  rcases Option.map_eq_some_iff.mp h with ⟨trail, hfound, rfl⟩
  have hdeclares := List.find?_some hfound
  exact ⟨trail.ty, promotes_of_mem_fieldVisits (List.mem_of_find?_eq_some hfound), hdeclares⟩

theorem length_le_of_fieldPath {path chain : List StructField} {last : TypeId}
    (h : table.fieldPath base name = some path) (hpromotes : table.Promotes base chain last)
    (hdeclares : table.declares name last = true) : path.length ≤ chain.length := by
  rw [fieldPath_eq_find?] at h
  rcases Option.map_eq_some_iff.mp h with ⟨found, hfound, rfl⟩
  rcases length_fieldVisits table base with ⟨hbounds, hordered⟩
  by_cases hlength : chain.length < nestingLimit
  · rcases exists_mem_fieldVisits hpromotes hlength with ⟨trail, htrail, hholder, hle⟩
    have hdeclares' : table.declares name trail.ty = true := by
      rw [declares_congr hholder]
      exact hdeclares
    rcases (List.find?_eq_some_iff_append.mp hfound).2 with ⟨before, after, hvisits, hbefore⟩
    rw [hvisits] at htrail hordered
    rcases List.mem_append.mp htrail with htrail | htrail
    · have hnot := hbefore trail htrail
      rw [hdeclares'] at hnot
      cases hnot
    · rcases List.mem_cons.mp htrail with rfl | htrail
      · exact hle
      · have hfirst := (List.pairwise_cons.mp (List.pairwise_append.mp hordered).2.1).1 trail htrail
        exact Nat.le_trans hfirst hle
  · exact Nat.le_trans (Nat.le_of_lt (hbounds found (List.mem_of_find?_eq_some hfound)))
      (Nat.not_lt.mp hlength)

theorem le_length_of_fieldPath_eq_none {chain : List StructField} {last : TypeId}
    (h : table.fieldPath base name = none) (hpromotes : table.Promotes base chain last)
    (hdeclares : table.declares name last = true) : nestingLimit ≤ chain.length := by
  rw [fieldPath_eq_find?, Option.map_eq_none_iff, List.find?_eq_none] at h
  apply Nat.not_lt.mp
  intro hlength
  rcases exists_mem_fieldVisits hpromotes hlength with ⟨trail, htrail, hholder, _⟩
  apply h trail htrail
  rw [declares_congr hholder]
  exact hdeclares

end

/-- The path to a field is the shortest chain of embedded fields from a type to a
declaration of the field, and there is none only if all such chains are too long.
The search is one pass over holders, each of which it looks into once. -/
theorem fieldPath_shallowest (table : SymbolTable) (base : TypeId) (name : String) :
    (∀ path, table.fieldPath base name = some path →
      (∃ last, table.Promotes base path last ∧ table.declares name last = true) ∧
      ∀ chain last, table.Promotes base chain last → table.declares name last = true →
        path.length ≤ chain.length) ∧
    (table.fieldPath base name = none →
      ∀ chain last, table.Promotes base chain last → table.declares name last = true →
        64 ≤ chain.length) ∧
    table.fieldPath base name =
      ((table.fieldVisits base).find? fun trail => table.declares name trail.ty).map
        FieldTrail.path ∧
    ((table.fieldVisits base).map (FieldTrail.holder table)).Nodup := by
  refine ⟨?_, ?_, table.fieldPath_eq_find? base name, table.nodup_fieldVisits base⟩
  · intro path hpath
    refine ⟨promotes_of_fieldPath hpath, ?_⟩
    intro chain last hpromotes hdeclares
    exact length_le_of_fieldPath hpath hpromotes hdeclares
  · intro hnone chain last hpromotes hdeclares
    exact le_length_of_fieldPath_eq_none hnone hpromotes hdeclares

-- Two structs that embed pointers to each other, the second one with a field of its own.
example :
    let table := { SymbolTable.empty with
      types := #[.basic .int, .named none "Outer" (some ⟨2⟩) [], .struct [⟨"Inner", ⟨3⟩, true⟩],
        .pointer ⟨4⟩, .named none "Inner" (some ⟨5⟩) [],
        .struct [⟨"Outer", ⟨6⟩, true⟩, ⟨"count", ⟨0⟩, false⟩], .pointer ⟨1⟩] }
    table.fieldPath ⟨6⟩ "count" = some [⟨"Inner", ⟨3⟩, true⟩] ∧
      table.fieldPath ⟨6⟩ "size" = none := by
  decide

end SymbolTable
end Desugar
