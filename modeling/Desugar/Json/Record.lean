import Desugar.Json.Basic

/-!
# Records and variants in JSON

A record is an object with its fields by name, or an array of its fields in the
order of their declaration.  In an object an unknown field is ignored and a
repeated one refused; an absent field is allowed when it is optional or has a
default.  In an array only a tail of fields with defaults may be absent.

A variant is its tag alone when it carries nothing, and otherwise an object
whose single member is the tag with the content.
-/

namespace Desugar
namespace Json

structure Record where
  given : List (String × Json)
  positional : Bool

def record? (fields : List String) : Json → Option Record
  | .object members =>
      if fields.all (fun field => members.countP (fun member => member.1.text == field) ≤ 1) then
        some ⟨members.map (fun member => (member.1.text, member.2)), false⟩
      else none
  | .arr items =>
      if items.length ≤ fields.length then some ⟨fields.zip items, true⟩ else none
  | _ => none

namespace Record

def get? (record : Record) (name : String) : Option Json :=
  (record.given.find? (fun field => field.1 == name)).map Prod.snd

variable {α : Type}

def required (record : Record) (name : String) (read : Json → Option α) : Option α :=
  (record.get? name).bind read

def optional (record : Record) (name : String) (read : Json → Option α) : Option (Option α) :=
  match record.get? name with
  | none => if record.positional then none else some none
  | some .null => some none
  | some value => (read value).map some

def defaulting (record : Record) (name : String) (default : α) (read : Json → Option α) :
    Option α :=
  match record.get? name with
  | none => some default
  | some value => read value

end Record

def variant? : Json → Option (String × Option Json)
  | .str tag => some (tag, none)
  | .object [(tag, content)] => some (tag.text, some content)
  | _ => none

def isUnit : Option Json → Bool
  | none => true
  | some .null => true
  | some _ => false

def tagged? {α : Type} (table : List (String × α)) (value : Json) : Option α := do
  let (tag, content) ← value.variant?
  if isUnit content then (table.find? (fun entry => entry.1 == tag)).map Prod.snd else none

/-!
## Scalars and lists
-/

def bool? : Json → Option Bool
  | .bool value => some value
  | _ => none

def str? : Json → Option String
  | .str value => some value
  | _ => none

def nat? : Json → Option Nat
  | .num (.int (.ofNat value)) => some value
  | _ => none

def natBelow? (bound : Nat) (value : Json) : Option Nat :=
  value.nat?.bind (fun n => if n < bound then some n else none)

def word32? (value : Json) : Option UInt32 :=
  (value.natBelow? UInt32.size).map UInt32.ofNat

def word64? (value : Json) : Option UInt64 :=
  (value.natBelow? UInt64.size).map UInt64.ofNat

def list? {α : Type} (read : Json → Option α) : Json → Option (List α)
  | .arr items => items.mapM read
  | _ => none

def nullable? {α : Type} (read : Json → Option α) : Json → Option (Option α)
  | .null => some none
  | value => (read value).map some

end Json
end Desugar
