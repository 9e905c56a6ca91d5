/-!
# Rounding

Fractions of natural numbers, rounded to a number of significant bits or to a
number of decimal places.  A value halfway between two neighbours goes to the
even one.
-/

namespace Desugar

/-- The natural number nearest to a quotient; a half goes to the even neighbour. -/
def roundDiv (num den : Nat) : Nat :=
  let floor := num / den
  let twice := 2 * (num % den)
  if twice < den then floor
  else if den < twice then floor + 1
  else floor + floor % 2

structure Ratio where
  num : Nat
  den : Nat
deriving DecidableEq, Inhabited

namespace Ratio

def ofNat (n : Nat) : Ratio :=
  ⟨n, 1⟩

def div (x y : Ratio) : Ratio :=
  ⟨x.num * y.den, x.den * y.num⟩

def mul (x y : Ratio) : Ratio :=
  ⟨x.num * y.num, x.den * y.den⟩

def roundToPower (x : Ratio) : Int → Ratio
  | .ofNat up => ⟨roundDiv x.num (x.den * Nat.pow 2 up) * Nat.pow 2 up, 1⟩
  | .negSucc down => ⟨roundDiv (x.num * Nat.pow 2 (down + 1)) x.den, Nat.pow 2 (down + 1)⟩

/-- The exponent of the last bit when a fraction is written with a number of
significant bits. -/
def lastBit (bits : Nat) (x : Ratio) : Int :=
  let guess : Int := Nat.log2 x.num - Nat.log2 x.den
  let reached : Bool := match guess with
    | .ofNat up => x.den * Nat.pow 2 up ≤ x.num
    | .negSucc down => x.den ≤ x.num * Nat.pow 2 (down + 1)
  (if reached then guess else guess - 1) - (bits - 1)

def roundToBits (bits : Nat) (x : Ratio) : Ratio :=
  if x.num = 0 then ⟨0, 1⟩ else x.roundToPower (x.lastBit bits)

def doubleBits : Nat :=
  53

/-- The nearest double-precision number.  The fractions that occur here are far
from the ends of its range. -/
def toDouble (x : Ratio) : Ratio :=
  x.roundToBits doubleBits

def fixed (places : Nat) (x : Ratio) : String :=
  let unit := Nat.pow 10 places
  let scaled := roundDiv (x.num * unit) x.den
  let whole := toString (scaled / unit)
  if places = 0 then whole
  else
    let digits := (toString (scaled % unit)).toList
    whole ++ "." ++ String.ofList (digits.leftpad places '0')

end Ratio
end Desugar
