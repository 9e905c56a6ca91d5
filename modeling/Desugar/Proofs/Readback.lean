import Desugar.Proofs.WrittenText
import Desugar.Syntax.Decode

/-!
# Reading encodings back

A reader sees of a written value what fits into the nesting it allows.  It
recovers what was encoded when it gets this from the whole value, and nothing
from any smaller part of it.

Readers that count down an allowance of their own recover what was encoded as
soon as the allowance covers all that can be seen.
-/

namespace Desugar
namespace Json

/-!
## What can be seen of a value
-/

def seen (value : Json) (room : Nat) : Json :=
  value.respelled.within room

@[simp] theorem seen_null (room : Nat) : null.seen room = null :=
  rfl

@[simp] theorem seen_bool (value : Bool) (room : Nat) : (bool value).seen room = bool value :=
  rfl

@[simp] theorem seen_str (value : String) (room : Nat) : (str value).seen room = str value :=
  rfl

@[simp] theorem ofNat_ne_null (n : Nat) : ofNat n ≠ null :=
  nofun

@[simp] theorem seen_ofNat (n room : Nat) : (ofNat n).seen room = ofNat n :=
  rfl

theorem withinItems_respelledItems (items : List Json) (room : Nat) :
    withinItems (respelledItems items) room = items.map (fun item => item.seen room) := by
  induction items with
  | nil => rfl
  | cons item rest ih => simp [respelledItems, withinItems, ih, seen]

theorem withinMembers_respelledMembers (members : List (String × Json)) (room : Nat) :
    withinMembers (respelledMembers (members.map fun member => (⟨member.1, false⟩, member.2)))
        room =
      members.map (fun member => (spelledKey member.1, member.2.seen room)) := by
  induction members with
  | nil => rfl
  | cons member rest ih => simp [respelledMembers, withinMembers, ih, seen]

theorem seen_arr (items : List Json) (room : Nat) :
    (arr items).seen room =
      if 0 < room then arr (items.map (fun item => item.seen (room - 1))) else unreadable := by
  cases room with
  | zero => rfl
  | succ room => simp [seen, respelled, within, withinItems_respelledItems]

theorem seen_obj (members : List (String × Json)) (room : Nat) :
    (obj members).seen room =
      if 0 < room then
        object (members.map (fun member => (spelledKey member.1, member.2.seen (room - 1))))
      else unreadable := by
  cases room with
  | zero => rfl
  | succ room => simp [seen, obj, respelled, within, withinMembers_respelledMembers]

/-!
### Depth
-/

def fieldsDepth : List (String × Json) → Nat
  | [] => 0
  | (_, value) :: rest => max value.depth (fieldsDepth rest)

@[simp] theorem depth_obj (members : List (String × Json)) :
    (obj members).depth = fieldsDepth members + 1 := by
  have hmembers : ∀ members : List (String × Json),
      depthMembers (members.map fun member => (⟨member.1, false⟩, member.2)) =
        fieldsDepth members := by
    intro members
    induction members with
    | nil => rfl
    | cons member rest ih => simp [depthMembers, fieldsDepth, ih]
  rw [obj, depth, hmembers]

@[simp] theorem depth_arr (items : List Json) : (arr items).depth = depthItems items + 1 :=
  rfl

@[simp] theorem depth_str (value : String) : (str value).depth = 0 := by
  rw [depth]

@[simp] theorem depth_bool (value : Bool) : (bool value).depth = 0 :=
  rfl

@[simp] theorem depth_null : null.depth = 0 :=
  rfl

@[simp] theorem depth_ofNat (n : Nat) : (ofNat n).depth = 0 := by
  rw [ofNat, depth]

@[simp] theorem depth_ofOption_scalar {α : Type} {encode : α → Json}
    (h : ∀ a, (encode a).depth = 0) (o : Option α) : (ofOption encode o).depth = 0 := by
  cases o with
  | none => rfl
  | some a => exact h a

@[simp] theorem depth_tagWith (tag : String) (content : Json) :
    (tagWith tag content).depth = content.depth + 1 := by
  simp [tagWith, fieldsDepth]

@[simp] theorem depth_tagRecord (tag : String) (fields : List (String × Json)) :
    (tagRecord tag fields).depth = fieldsDepth fields + 1 + 1 := by
  simp [tagRecord, fieldsDepth]

mutual

theorem depth_respelled : ∀ value : Json, value.respelled.depth = value.depth
  | .null => rfl
  | .bool _ => rfl
  | .num _ => rfl
  | .str _ => rfl
  | .arr items => by rw [respelled, depth, depth, depthItems_respelledItems items]
  | .object members => by rw [respelled, depth, depth, depthMembers_respelledMembers members]
  | .unreadable => rfl

theorem depthItems_respelledItems :
    ∀ items : List Json, depthItems (respelledItems items) = depthItems items
  | [] => rfl
  | value :: rest => by
      rw [respelledItems, depthItems, depthItems, depth_respelled value,
        depthItems_respelledItems rest]

theorem depthMembers_respelledMembers :
    ∀ members : List (Key × Json), depthMembers (respelledMembers members) = depthMembers members
  | [] => rfl
  | (_, value) :: rest => by
      rw [respelledMembers, depthMembers, depthMembers, depth_respelled value,
        depthMembers_respelledMembers rest]

end

mutual

theorem depth_within : ∀ (value : Json) (room : Nat),
    (value.within room).depth = min value.depth room
  | .null, _ => by simp [within, depth]
  | .bool _, _ => by simp [within, depth]
  | .num _, _ => by simp [within, depth]
  | .str _, _ => by simp [within, depth]
  | .arr _, 0 => by simp [within, depth]
  | .arr items, room + 1 => by
      rw [within, depth, depth, depthItems_within items room, Nat.add_min_add_right]
  | .object _, 0 => by simp [within, depth]
  | .object members, room + 1 => by
      rw [within, depth, depth, depthMembers_within members room, Nat.add_min_add_right]
  | .unreadable, _ => by simp [within, depth]

theorem depthItems_within :
    ∀ (items : List Json) (room : Nat),
      depthItems (withinItems items room) = min (depthItems items) room
  | [], _ => by simp [withinItems, depthItems]
  | value :: rest, room => by
      rw [withinItems, depthItems, depthItems, depth_within value room,
        depthItems_within rest room]
      omega

theorem depthMembers_within :
    ∀ (members : List (Key × Json)) (room : Nat),
      depthMembers (withinMembers members room) = min (depthMembers members) room
  | [], _ => by simp [withinMembers, depthMembers]
  | (_, value) :: rest, room => by
      rw [withinMembers, depthMembers, depthMembers, depth_within value room,
        depthMembers_within rest room]
      omega

end

theorem depth_seen (value : Json) (room : Nat) :
    (value.seen room).depth = min value.depth room := by
  rw [seen, depth_within, depth_respelled]

mutual

theorem within_eq_self : ∀ (value : Json) (room : Nat), value.depth ≤ room →
    value.within room = value
  | .null, _, _ => rfl
  | .bool _, _, _ => rfl
  | .num _, _, _ => rfl
  | .str _, _, _ => rfl
  | .arr items, room + 1, h => by
      rw [depth] at h
      rw [within, withinItems_eq_self items room (by omega)]
  | .object members, room + 1, h => by
      rw [depth] at h
      rw [within, withinMembers_eq_self members room (by omega)]
  | .unreadable, _, _ => rfl

theorem withinItems_eq_self :
    ∀ (items : List Json) (room : Nat), depthItems items ≤ room → withinItems items room = items
  | [], _, _ => rfl
  | value :: rest, room, h => by
      rw [depthItems] at h
      rw [withinItems, within_eq_self value room (by omega),
        withinItems_eq_self rest room (by omega)]

theorem withinMembers_eq_self :
    ∀ (members : List (Key × Json)) (room : Nat), depthMembers members ≤ room →
      withinMembers members room = members
  | [], _, _ => rfl
  | (_, value) :: rest, room, h => by
      rw [depthMembers] at h
      rw [withinMembers, within_eq_self value room (by omega),
        withinMembers_eq_self rest room (by omega)]

end

theorem seen_min (value : Json) (room : Nat) :
    value.seen (min value.depth room) = value.seen room := by
  rcases Nat.le_total value.depth room with h | h
  · have hdepth := depth_respelled value
    rw [Nat.min_eq_left h, seen, seen, within_eq_self _ _ (by omega), within_eq_self _ _ (by omega)]
  · rw [Nat.min_eq_right h]

theorem seen_ne_null {value : Json} (h : 0 < value.depth) (room : Nat) :
    value.seen room ≠ null := by
  cases value with
  | arr items => rw [seen_arr]; split <;> simp
  | object members => cases room <;> simp [seen, respelled, within]
  | _ => simp [depth] at h

/-!
## Records and variants
-/

section Outcomes

variable {α β : Type} (p q : Prop) [Decidable p] [Decidable q]

@[simp] theorem ite_bind (x : Option α) (f : α → Option β) :
    (if p then x else none).bind f = if p then x.bind f else none := by
  split <;> rfl

@[simp] theorem ite_map (x : Option α) (f : α → β) :
    (if p then x else none).map f = if p then x.map f else none := by
  split <;> rfl

@[simp] theorem ite_ite_none (x : Option α) :
    (if p then if q then x else none else none) = if p ∧ q then x else none := by
  by_cases hp : p <;> simp [hp]

variable {p q} in
theorem ite_none_congr {x : Option α} (h : p ↔ q) :
    (if p then x else none) = if q then x else none := by
  simp only [h]

end Outcomes

@[simp] theorem variant?_seen_tagWith (tag : String) (content : Json) (room : Nat) :
    ((tagWith tag content).seen room).variant? =
      if 0 < room then some (tag, some (content.seen (room - 1))) else none := by
  rw [tagWith, seen_obj]
  split <;> rfl

@[simp] theorem variant?_seen_tagRecord (tag : String) (fields : List (String × Json))
    (room : Nat) :
    ((tagRecord tag fields).seen room).variant? =
      if 0 < room then some (tag, some ((obj fields).seen (room - 1))) else none :=
  variant?_seen_tagWith tag (obj fields) room

theorem variant?_bind_tagWith {α : Type} (tag : String) (content : Json) (room : Nat)
    (next : String × Option Json → Option α) :
    (((tagWith tag content).seen room).variant? >>= next) =
      if 0 < room then next (tag, some (content.seen (room - 1))) else none := by
  rw [variant?_seen_tagWith]
  split <;> rfl

theorem variant?_bind_tagRecord {α : Type} (tag : String) (fields : List (String × Json))
    (room : Nat) (next : String × Option Json → Option α) :
    (((tagRecord tag fields).seen room).variant? >>= next) =
      if 0 < room then next (tag, some ((obj fields).seen (room - 1))) else none :=
  variant?_bind_tagWith tag (obj fields) room next

@[simp] theorem variant?_str (tag : String) : (str tag).variant? = some (tag, none) :=
  rfl

@[simp] theorem record?_seen {fields : List String} {members : List (String × Json)}
    (h : fields.all (fun field => members.countP (fun member => member.1 == field) ≤ 1) = true)
    (room : Nat) :
    record? fields ((obj members).seen room) =
      if 0 < room then
        some ⟨members.map (fun member => (member.1, member.2.seen (room - 1))), false⟩
      else none := by
  rw [seen_obj]
  split
  · have hcount (field : String) :
        (members.map fun member => (spelledKey member.1, member.2.seen (room - 1))).countP
          (fun member => member.1.text == field) =
        members.countP (fun member => member.1 == field) := by
      rw [List.countP_map]
      rfl
    simp only [record?, hcount, h, if_true, List.map_map]
    rfl
  · rfl

namespace Record

variable {α : Type} {name : String} {read : Json → Option α}

@[simp] theorem get?_cons (field : String × Json) (rest : List (String × Json))
    (positional : Bool) :
    get? ⟨field :: rest, positional⟩ name =
      if field.1 = name then some field.2 else get? ⟨rest, positional⟩ name := by
  simp only [get?, List.find?_cons]
  by_cases h : field.1 = name
  · simp [h]
  · simp [h, beq_false_of_ne h]

@[simp] theorem required_eq_bind (record : Record) :
    record.required name read = (record.get? name).bind read :=
  rfl

@[simp] theorem optional_eq_elim (record : Record) :
    record.optional name read =
      (record.get? name).elim (if record.positional then none else some none) (nullable? read) := by
  rw [optional]
  cases record.get? name with
  | none => rfl
  | some value => cases value <;> rfl

@[simp] theorem defaulting_eq_elim (record : Record) (default : α) :
    record.defaulting name default read = (record.get? name).elim (some default) read := by
  rw [defaulting]
  cases record.get? name <;> rfl

end Record

/-!
## Scalars and lists
-/

@[simp] theorem str?_str (value : String) : str? (str value) = some value :=
  rfl

@[simp] theorem bool?_bool (value : Bool) : bool? (bool value) = some value :=
  rfl

@[simp] theorem word32?_ofNat (n : UInt32) : word32? (ofNat n.toNat) = some n := by
  have hn : n.toNat < UInt32.size := n.toNat_lt
  simp [word32?, natBelow?, ofNat, nat?, hn]

@[simp] theorem word64?_ofNat (n : UInt64) : word64? (ofNat n.toNat) = some n := by
  have hn : n.toNat < UInt64.size := n.toNat_lt
  simp [word64?, natBelow?, ofNat, nat?, hn]

/-!
## Recovering what was written
-/

/-- Reading what is seen of a written value gives back what was encoded, when all
of the value is seen, and gives nothing otherwise. -/
def Recovers {α : Type} (read : Json → Option α) (value : Json) (room : Nat) (a : α) : Prop :=
  read (value.seen room) = if value.depth ≤ room then some a else none

namespace Recovers

variable {α : Type} {read : Json → Option α} {room : Nat}

theorem eq {value : Json} {a : α} (h : Recovers read value room a) :
    read (value.seen room) = if value.depth ≤ room then some a else none :=
  h

theorem nil : Recovers (list? read) (arr []) room [] := by
  rw [Recovers, seen_arr, depth_arr, depthItems]
  by_cases hroom : 0 < room
  · rw [if_pos hroom, if_pos (by omega)]
    rfl
  · rw [if_neg hroom, if_neg (by omega)]
    rfl

theorem cons {value : Json} {items : List Json} {a : α} {as : List α}
    (hvalue : Recovers read value (room - 1) a)
    (hitems : Recovers (list? read) (arr items) room as) :
    Recovers (list? read) (arr (value :: items)) room (a :: as) := by
  unfold Recovers at *
  rw [seen_arr, depth_arr] at hitems ⊢
  rw [depthItems]
  by_cases hroom : 0 < room
  · simp only [hroom, if_true, list?] at hitems ⊢
    rw [List.map_cons, List.mapM_cons, hvalue, hitems]
    simp only [Option.bind_eq_bind, ite_bind, Option.bind_some, pure, ite_ite_none]
    exact ite_none_congr (by omega)
  · rw [if_neg hroom, if_neg (by omega)]
    rfl

theorem list {encode : α → Json} :
    ∀ as : List α, (∀ a ∈ as, Recovers read (encode a) (room - 1) a) →
      Recovers (list? read) (arr (as.map encode)) room as
  | [], _ => nil
  | a :: as, h => cons (h a (.head _)) (list as fun b hb => h b (.tail _ hb))

theorem nullable {value : Json} {a : α} (hne : value.seen room ≠ null)
    (h : Recovers read value room a) : Recovers (nullable? read) value room (some a) := by
  have hread : nullable? read (value.seen room) = (read (value.seen room)).map some := by
    cases hseen : value.seen room with
    | null => exact absurd hseen hne
    | _ => rfl
  unfold Recovers at *
  rw [hread, h, ite_map, Option.map_some]

theorem absent {β : Type} (read : Json → Option β) : Recovers (nullable? read) null room none := by
  simp [Recovers, nullable?]

theorem optional {encode : α → Json} (o : Option α) (hne : ∀ a, (encode a).seen room ≠ null)
    (h : ∀ a, o = some a → Recovers read (encode a) room a) :
    Recovers (nullable? read) (ofOption encode o) room o := by
  cases o with
  | none => exact absent read
  | some a => exact (h a rfl).nullable (hne a)

theorem optional_text (room : Nat) (o : Option String) :
    Recovers (nullable? str?) (ofOption str o) room o :=
  optional o (by simp) fun a _ => by simp [Recovers]

theorem optional_length (room : Nat) (o : Option UInt64) :
    Recovers (nullable? word64?) (ofOption (fun n : UInt64 => ofNat n.toNat) o) room o :=
  optional o (by simp) fun a _ => by simp [Recovers]

theorem zero {value : Json} {a : α} (hpos : 0 < value.depth) (h : read unreadable = none) :
    Recovers read value 0 a := by
  have hseen : value.seen 0 = unreadable := by
    cases value with
    | arr items | object members => rfl
    | _ => simp [depth] at hpos
  rw [Recovers, hseen, h, if_neg (by omega)]

end Recovers

/-- The readers of a type, one for each allowance of nesting, recover what was
encoded as long as the allowance covers all that can be seen. -/
def Recoverable {α : Type} (read : Nat → Json → Option α) (encode : α → Json) (n : Nat) : Prop :=
  ∀ (a : α) (room : Nat), room ≤ n → Recovers (read n) (encode a) room a

namespace Recoverable

variable {α : Type} {read : Nat → Json → Option α} {encode : α → Json}

theorem zero (hpos : ∀ a, 0 < (encode a).depth) (h : ∀ value, read 0 value = none) :
    Recoverable read encode 0 := by
  intro a room hroom
  rw [Nat.le_zero.mp hroom]
  exact Recovers.zero (hpos a) (h _)

theorem list {n : Nat} (h : Recoverable read encode n) (as : List α) (room : Nat)
    (hroom : room ≤ n + 1) :
    Recovers (list? (read n)) (arr (as.map encode)) room as :=
  Recovers.list as fun a _ => h a (room - 1) (by omega)

theorem optional {n : Nat} (h : Recoverable read encode n) (hpos : ∀ a, 0 < (encode a).depth)
    (o : Option α) (room : Nat) (hroom : room ≤ n) :
    Recovers (nullable? (read n)) (ofOption encode o) room o :=
  Recovers.optional o (fun a => seen_ne_null (hpos a) room) fun a _ => h a room hroom

theorem depth_succ (h : ∀ n, Recoverable read encode n) (a : α) (room : Nat) :
    Recovers (fun value => read (value.depth + 1) value) (encode a) room a := by
  have hmin := h (min (encode a).depth room + 1) a (min (encode a).depth room) (by omega)
  unfold Recovers at *
  rw [seen_min] at hmin
  show read (((encode a).seen room).depth + 1) _ = _
  rw [depth_seen, hmin]
  exact ite_none_congr (by omega)

end Recoverable

/-!
## Writable encodings
-/

@[simp] theorem writable_obj_nil : (obj []).Writable :=
  trivial

@[simp] theorem writable_obj_cons (name : String) (value : Json) (rest : List (String × Json)) :
    (obj ((name, value) :: rest)).Writable ↔ value.Writable ∧ (obj rest).Writable :=
  Iff.rfl

@[simp] theorem writable_tagWith (tag : String) (content : Json) :
    (tagWith tag content).Writable ↔ content.Writable := by
  simp [tagWith]

@[simp] theorem writable_tagRecord (tag : String) (fields : List (String × Json)) :
    (tagRecord tag fields).Writable ↔ (obj fields).Writable := by
  simp [tagRecord]

@[simp] theorem writable_str (value : String) : (str value).Writable :=
  trivial

@[simp] theorem writable_bool (value : Bool) : (bool value).Writable :=
  trivial

@[simp] theorem writable_null : null.Writable :=
  trivial

@[simp] theorem writable_ofNat (n : Nat) : (ofNat n).Writable :=
  trivial

theorem writableItems_map {α : Type} {encode : α → Json} {as : List α}
    (h : ∀ a ∈ as, (encode a).Writable) : (arr (as.map encode)).Writable := by
  induction as with
  | nil => trivial
  | cons a as ih => exact ⟨h a (.head _), ih fun b hb => h b (.tail _ hb)⟩

theorem writable_obj_map {α : Type} {key : α → String} {encode : α → Json} {as : List α}
    (h : ∀ a ∈ as, (encode a).Writable) : (obj (as.map fun a => (key a, encode a))).Writable := by
  induction as with
  | nil => exact writable_obj_nil
  | cons a as ih =>
    rw [List.map_cons, writable_obj_cons]
    exact ⟨h a (.head _), ih fun b hb => h b (.tail _ hb)⟩

theorem writable_ofOption {α : Type} {encode : α → Json} {o : Option α}
    (h : ∀ a, o = some a → (encode a).Writable) : (ofOption encode o).Writable := by
  cases o with
  | none => trivial
  | some a => exact h a rfl

end Json
end Desugar
