import Desugar.Json.Basic

/-!
# Reading JSON

Reading is strict about the form of the whole text.  A scanner cuts the
characters into tokens, and a stack of open arrays and objects assembles the
tokens into a value.  Both are automata that take one character or one token at
a time, so neither needs a bound on the nesting of the text.
-/

namespace Desugar
namespace Json

/-- A lexical unit of JSON text.  A string has no content when it cannot be read;
otherwise it can serve as a value or as a name. -/
inductive Token where
  | arrOpen
  | arrClose
  | objOpen
  | objClose
  | colon
  | comma
  | scalar (value : Json)
  | text (content : Option Key)

/-!
## Numerals

An integer numeral has no leading zero; the sign of a negative zero cannot be
kept by an integer, so that numeral stays text.
-/

def isDecimal (c : Char) : Bool :=
  '0' ≤ c && c ≤ '9'

def decimalValue (digits : List Char) : Nat :=
  digits.foldl (fun value c => 10 * value + (c.toNat - 48)) 0

def isIntegerPart : List Char → Bool
  | [] => false
  | [_] => true
  | c :: _ => c != '0'

def isExponent (cs : List Char) : Bool :=
  let digits := match cs with
    | '+' :: rest => rest
    | '-' :: rest => rest
    | rest => rest
  !digits.isEmpty && digits.all isDecimal

def isNumeralTail : List Char → Bool
  | [] => true
  | '.' :: rest =>
      !(rest.takeWhile isDecimal).isEmpty &&
        match rest.dropWhile isDecimal with
        | [] => true
        | 'e' :: exponent => isExponent exponent
        | 'E' :: exponent => isExponent exponent
        | _ => false
  | 'e' :: exponent => isExponent exponent
  | 'E' :: exponent => isExponent exponent
  | _ => false

def readNumeral (cs : List Char) : Option Numeral :=
  let negative := cs.head? == some '-'
  let body := if negative then cs.tail else cs
  let digits := body.takeWhile isDecimal
  let tail := body.dropWhile isDecimal
  if isIntegerPart digits && isNumeralTail tail then
    if tail.isEmpty && !(negative && decimalValue digits == 0) then
      some (.int (if negative then -(decimalValue digits : Int) else decimalValue digits))
    else some (.other (String.ofList cs))
  else none

def readWord (cs : List Char) : Option Json :=
  if cs = "null".toList then some .null
  else if cs = "true".toList then some (.bool true)
  else if cs = "false".toList then some (.bool false)
  else none

/-!
## The scanner
-/

/-- A string in the making: its characters in reverse, whether it has an escape,
and whether a surrogate in it stands alone. -/
structure Draft where
  chars : List Char := []
  escaped : Bool := false
  broken : Bool := false

namespace Draft

def push (draft : Draft) (c : Char) : Draft :=
  { draft with chars := c :: draft.chars }

def spoil (draft : Draft) : Draft :=
  { draft with broken := true }

def content (draft : Draft) : Option Key :=
  if draft.broken then none else some ⟨String.ofList draft.chars.reverse, draft.escaped⟩

end Draft

inductive Scan where
  | between
  | numeral (text : List Char)
  | word (text : List Char)
  | string (draft : Draft)
  | escape (draft : Draft)
  | hex (draft : Draft) (missing : Nat) (value : Nat) (lead : Option Nat)
  | pairSlash (draft : Draft) (lead : Nat)
  | pairMark (draft : Draft) (lead : Nat)

def isBlank (c : Char) : Bool :=
  c == ' ' || c == '\n' || c == '\r' || c == '\t'

def isNumeralChar (c : Char) : Bool :=
  isDecimal c || c == '-' || c == '+' || c == '.' || c == 'e' || c == 'E'

def isWordChar (c : Char) : Bool :=
  'a' ≤ c && c ≤ 'z'

def hexValue? (c : Char) : Option Nat :=
  if isDecimal c then some (c.toNat - 48)
  else if 'a' ≤ c && c ≤ 'f' then some (c.toNat - 87)
  else if 'A' ≤ c && c ≤ 'F' then some (c.toNat - 55)
  else none

def isLead (n : Nat) : Bool :=
  0xD800 ≤ n && n < 0xDC00

def isTrail (n : Nat) : Bool :=
  0xDC00 ≤ n && n < 0xE000

/-- The string after an escape of four hexadecimal digits: a leading surrogate
waits for its trailing one, and neither stands alone. -/
def closeHex (draft : Draft) (value : Nat) : Option Nat → Scan
  | none =>
      if isLead value then .pairSlash draft value
      else if isTrail value then .string draft.spoil
      else .string (draft.push (Char.ofNat value))
  | some lead =>
      if isTrail value then
        .string (draft.push (Char.ofNat (0x10000 + (lead - 0xD800) * 0x400 + (value - 0xDC00))))
      else .string draft.spoil

def scanBetween (c : Char) : Option (Scan × List Token) :=
  if isBlank c then some (.between, [])
  else if c = '[' then some (.between, [.arrOpen])
  else if c = ']' then some (.between, [.arrClose])
  else if c = '\x7b' then some (.between, [.objOpen])
  else if c = '\x7d' then some (.between, [.objClose])
  else if c = ':' then some (.between, [.colon])
  else if c = ',' then some (.between, [.comma])
  else if c = '"' then some (.string {}, [])
  else if isDecimal c || c == '-' then some (.numeral [c], [])
  else if isWordChar c then some (.word [c], [])
  else none

def scanString (draft : Draft) (c : Char) : Option (Scan × List Token) :=
  if c = '"' then some (.between, [.text draft.content])
  else if c = '\\' then some (.escape { draft with escaped := true }, [])
  else if c.toNat < 32 then none
  else some (.string (draft.push c), [])

def scanEscape (draft : Draft) (c : Char) : Option Scan :=
  if c = '"' || c = '\\' || c = '/' then some (.string (draft.push c))
  else if c = 'b' then some (.string (draft.push (Char.ofNat 8)))
  else if c = 'f' then some (.string (draft.push (Char.ofNat 12)))
  else if c = 'n' then some (.string (draft.push '\n'))
  else if c = 'r' then some (.string (draft.push '\r'))
  else if c = 't' then some (.string (draft.push '\t'))
  else if c = 'u' then some (.hex draft 4 0 none)
  else none

def scan : Scan → Char → Option (Scan × List Token)
  | .between, c => scanBetween c
  | .numeral text, c =>
      if isNumeralChar c then some (.numeral (c :: text), [])
      else do
        let number ← readNumeral text.reverse
        let (next, tokens) ← scanBetween c
        return (next, .scalar (.num number) :: tokens)
  | .word text, c =>
      if isWordChar c then some (.word (c :: text), [])
      else do
        let value ← readWord text.reverse
        let (next, tokens) ← scanBetween c
        return (next, .scalar value :: tokens)
  | .string draft, c => scanString draft c
  | .escape draft, c => (scanEscape draft c).map (fun next => (next, []))
  | .hex draft missing value lead, c => do
      let digit ← hexValue? c
      let value := 16 * value + digit
      if missing ≤ 1 then return (closeHex draft value lead, [])
      else return (.hex draft (missing - 1) value lead, [])
  | .pairSlash draft lead, c =>
      if c = '\\' then some (.pairMark draft lead, []) else scanString draft.spoil c
  | .pairMark draft lead, c =>
      if c = 'u' then some (.hex draft 4 0 (some lead), [])
      else (scanEscape draft.spoil c).map (fun next => (next, []))

def scanEnd : Scan → Option (List Token)
  | .between => some []
  | .numeral text => (readNumeral text.reverse).map (fun number => [.scalar (.num number)])
  | .word text => (readWord text.reverse).map (fun value => [.scalar value])
  | _ => none

def scanAll : Scan → List Token → List Char → Option (List Token)
  | state, done, [] => (scanEnd state).map (fun tokens => (tokens.reverse ++ done).reverse)
  | state, done, c :: rest =>
      match scan state c with
      | none => none
      | some (next, tokens) => scanAll next (tokens.reverse ++ done) rest

def tokens? (text : String) : Option (List Token) :=
  scanAll .between [] text.toList

/-!
## The assembler
-/

/-- An array or object that is still open, its finished parts in reverse. -/
inductive Frame where
  | arr (items : List Json)
  | obj (members : List (Option Key × Json)) (name : Option Key)

inductive Assembly where
  | value (stack : List Frame)
  | firstItem (stack : List Frame)
  | firstName (stack : List Frame)
  | name (members : List (Option Key × Json)) (stack : List Frame)
  | colon (members : List (Option Key × Json)) (name : Option Key) (stack : List Frame)
  | done (value : Json) (stack : List Frame)

def closeText : Option Key → Json
  | none => .unreadable
  | some content => .str content.text

def closeMembers (members : List (Option Key × Json)) : Json :=
  match members.reverse.mapM (fun member => member.1.map (fun name => (name, member.2))) with
  | none => .unreadable
  | some members => .object members

def assembleValue (stack : List Frame) : Token → Option Assembly
  | .scalar value => some (.done value stack)
  | .text content => some (.done (closeText content) stack)
  | .arrOpen => some (.firstItem stack)
  | .objOpen => some (.firstName stack)
  | _ => none

def assemble : Assembly → Token → Option Assembly
  | .value stack, token => assembleValue stack token
  | .firstItem stack, .arrClose => some (.done (.arr []) stack)
  | .firstItem stack, token => assembleValue (.arr [] :: stack) token
  | .firstName stack, .objClose => some (.done (.object []) stack)
  | .firstName stack, .text name => some (.colon [] name stack)
  | .name members stack, .text name => some (.colon members name stack)
  | .colon members name stack, .colon => some (.value (.obj members name :: stack))
  | .done value (.arr items :: stack), .comma => some (.value (.arr (value :: items) :: stack))
  | .done value (.arr items :: stack), .arrClose =>
      some (.done (.arr (value :: items).reverse) stack)
  | .done value (.obj members name :: stack), .comma =>
      some (.name ((name, value) :: members) stack)
  | .done value (.obj members name :: stack), .objClose =>
      some (.done (closeMembers ((name, value) :: members)) stack)
  | _, _ => none

def assembleAll : Assembly → List Token → Option Assembly
  | state, [] => some state
  | state, token :: rest =>
      match assemble state token with
      | none => none
      | some next => assembleAll next rest

/-- The value a text spells, if it spells exactly one. -/
def parse? (text : String) : Option Json := do
  let tokens ← tokens? text
  match ← assembleAll (.value []) tokens with
  | .done value [] => some value
  | _ => none

def nestingLimit : Nat :=
  127

def shallow (value : Json) : Json :=
  value.within nestingLimit

def parseShallow? (text : String) : Option Json :=
  (parse? text).map shallow

end Json
end Desugar
