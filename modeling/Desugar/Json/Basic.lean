/-!
# JSON values

Object members keep the order in which they were written, repeated names
included, so that a reader of records can refuse a repetition.  Numbers are
integers whenever their numeral is one; any other numeral keeps its text, since
no format of this library accepts it.

A text can hold parts that are well formed and still cannot be read, such as a
string with half of a surrogate pair.  They are values that no format accepts
either, so they do harm only where something is read from them.
-/

namespace Desugar

inductive Numeral where
  | int (value : Int)
  | other (text : String)
deriving DecidableEq, Inhabited

structure Key where
  text : String
  escaped : Bool := false
deriving DecidableEq, Inhabited

inductive Json where
  | null
  | bool (value : Bool)
  | num (value : Numeral)
  | str (value : String)
  | arr (items : List Json)
  | object (members : List (Key × Json))
  | unreadable
deriving Inhabited

namespace Json

def obj (members : List (String × Json)) : Json :=
  .object (members.map (fun member => (⟨member.1, false⟩, member.2)))

def ofNat (n : Nat) : Json :=
  .num (.int n)

def ofOption {α : Type} (encode : α → Json) : Option α → Json
  | none => .null
  | some a => encode a

/-!
## Nesting

The depth counts arrays and objects only: a scalar has depth zero.
-/

mutual

def depth : Json → Nat
  | .null => 0
  | .bool _ => 0
  | .num _ => 0
  | .str _ => 0
  | .arr items => depthItems items + 1
  | .object members => depthMembers members + 1
  | .unreadable => 0

def depthItems : List Json → Nat
  | [] => 0
  | value :: rest => max value.depth (depthItems rest)

def depthMembers : List (Key × Json) → Nat
  | [] => 0
  | (_, value) :: rest => max value.depth (depthMembers rest)

end

mutual

def within : Json → Nat → Json
  | .arr _, 0 => .unreadable
  | .arr items, room + 1 => .arr (withinItems items room)
  | .object _, 0 => .unreadable
  | .object members, room + 1 => .object (withinMembers members room)
  | value, _ => value

def withinItems : List Json → Nat → List Json
  | [], _ => []
  | value :: rest, room => value.within room :: withinItems rest room

def withinMembers : List (Key × Json) → Nat → List (Key × Json)
  | [], _ => []
  | (name, value) :: rest, room => (name, value.within room) :: withinMembers rest room

end

/-!
## Structural equality

Names are the same when their texts are.
-/

mutual

def same : Json → Json → Bool
  | .null, .null => true
  | .bool a, .bool b => a == b
  | .num a, .num b => a == b
  | .str a, .str b => a == b
  | .arr a, .arr b => sameItems a b
  | .object a, .object b => sameMembers a b
  | .unreadable, .unreadable => true
  | _, _ => false

def sameItems : List Json → List Json → Bool
  | [], [] => true
  | a :: as, b :: bs => same a b && sameItems as bs
  | _, _ => false

def sameMembers : List (Key × Json) → List (Key × Json) → Bool
  | [], [] => true
  | (m, a) :: as, (n, b) :: bs => m.text == n.text && same a b && sameMembers as bs
  | _, _ => false

end

/-!
## Repeated members

Seen as a mapping, an object holds the last value given for each name.
-/

mutual

def collapse : Json → Json
  | .arr items => .arr (collapseItems items)
  | .object members => .object (collapseMembers members)
  | value => value

def collapseItems : List Json → List Json
  | [] => []
  | value :: rest => value.collapse :: collapseItems rest

def collapseMembers : List (Key × Json) → List (Key × Json)
  | [] => []
  | (name, value) :: rest =>
      let later := collapseMembers rest
      if later.any (fun member => member.1.text == name.text) then later
      else (name, value.collapse) :: later

end

def member? (name : String) : Json → Option Json
  | .object members => (members.find? (fun member => member.1.text == name)).map Prod.snd
  | _ => none

end Json
end Desugar
