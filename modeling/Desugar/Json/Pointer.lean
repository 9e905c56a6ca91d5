import Desugar.Json.Basic

/-!
# Changes inside a value

A pointer is a path of member names and positions.
-/

namespace Desugar
namespace Json

def pointer (text : String) : List String :=
  (text.splitOn "/").tail

def setMember (name : String) (value : Json) : List (Key × Json) → List (Key × Json)
  | [] => [(⟨name, false⟩, value)]
  | member :: rest =>
      if member.1.text = name then (member.1, value) :: rest
      else member :: setMember name value rest

def setItem (index : Nat) (value : Json) (items : List Json) : List Json :=
  if index < items.length then items.set index value else items ++ [value]

/-- Put a value at the end of a path, or remove what is there.  There is no
result when the path leads nowhere. -/
def changeAt? (change : Option Json) : List String → Json → Option Json
  | [], _ => change
  | [name], .object members =>
      match change with
      | some value => some (.object (setMember name value members))
      | none => some (.object (members.filter (fun member => member.1.text ≠ name)))
  | [position], .arr items => do
      let index ← position.toNat?
      match change with
      | some value => some (.arr (setItem index value items))
      | none => some (.arr (items.eraseIdx index))
  | name :: path, .object members => do
      let inner ← (Json.object members).member? name
      let inner ← changeAt? change path inner
      some (.object (setMember name inner members))
  | position :: path, .arr items => do
      let index ← position.toNat?
      let inner ← items[index]?
      let inner ← changeAt? change path inner
      some (.arr (items.set index inner))
  | _, _ => none

end Json
end Desugar
