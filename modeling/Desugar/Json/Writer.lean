import Desugar.Json.Basic

/-!
# Writing JSON

Two layouts of the same text: compact, and indented by two spaces with one
member or item a line.  A quoted string escapes the quote, the backslash and
the control characters below the space, and nothing else.  What cannot be read
cannot be written either, and null stands in its place.
-/

namespace Desugar
namespace Json

def hexDigit (n : Nat) : Char :=
  Char.ofNat (if n < 10 then n + 48 else n + 87)

def escapeChar (c : Char) : List Char :=
  if c = '"' then ['\\', '"']
  else if c = '\\' then ['\\', '\\']
  else if c = '\n' then ['\\', 'n']
  else if c = '\r' then ['\\', 'r']
  else if c = '\t' then ['\\', 't']
  else if c.toNat = 8 then ['\\', 'b']
  else if c.toNat = 12 then ['\\', 'f']
  else if c.toNat < 32 then
    ['\\', 'u', '0', '0', hexDigit (c.toNat / 16), hexDigit (c.toNat % 16)]
  else [c]

def quote (s : String) : String :=
  String.ofList ('"' :: (s.toList.flatMap escapeChar ++ ['"']))

def writeNumeral : Numeral → String
  | .int value => toString value
  | .other text => text

/-!
## Compact layout
-/

mutual

def compact : Json → String
  | .null => "null"
  | .bool true => "true"
  | .bool false => "false"
  | .num n => writeNumeral n
  | .str s => quote s
  | .arr items => "[" ++ compactItems items ++ "]"
  | .object members => "\x7b" ++ compactMembers members ++ "\x7d"
  | .unreadable => "null"

def compactItems : List Json → String
  | [] => ""
  | value :: [] => value.compact
  | value :: rest => value.compact ++ "," ++ compactItems rest

def compactMembers : List (Key × Json) → String
  | [] => ""
  | (name, value) :: [] => quote name.text ++ ":" ++ value.compact
  | (name, value) :: rest => quote name.text ++ ":" ++ value.compact ++ "," ++ compactMembers rest

end

/-!
## Indented layout
-/

def newline (indent : Nat) : String :=
  "\n" ++ String.ofList (List.replicate (2 * indent) ' ')

mutual

def prettyAt (indent : Nat) : Json → String
  | .null => "null"
  | .bool true => "true"
  | .bool false => "false"
  | .num n => writeNumeral n
  | .str s => quote s
  | .arr [] => "[]"
  | .arr items => "[" ++ prettyItems (indent + 1) items ++ newline indent ++ "]"
  | .object [] => "\x7b\x7d"
  | .object members => "\x7b" ++ prettyMembers (indent + 1) members ++ newline indent ++ "\x7d"
  | .unreadable => "null"

def prettyItems (indent : Nat) : List Json → String
  | [] => ""
  | value :: [] => newline indent ++ prettyAt indent value
  | value :: rest => newline indent ++ prettyAt indent value ++ "," ++ prettyItems indent rest

def prettyMembers (indent : Nat) : List (Key × Json) → String
  | [] => ""
  | (name, value) :: [] => newline indent ++ quote name.text ++ ": " ++ prettyAt indent value
  | (name, value) :: rest =>
      newline indent ++ quote name.text ++ ": " ++ prettyAt indent value ++ "," ++
        prettyMembers indent rest

end

def pretty (value : Json) : String :=
  prettyAt 0 value

end Json
end Desugar
