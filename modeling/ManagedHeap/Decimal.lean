/-!
# Decimal text of floating-point numbers

The text of a float shows the fewest decimal digits that read back as the same
float and, of those with equally few digits, the nearest. Both steps are exact
arithmetic on natural numbers: the float is `mantissa * 2 ^ exponent`, and the
reals that round to it form an interval whose ends count when the mantissa is
even.
-/

namespace ManagedHeap.Decimal

/-- The number `digits * 10 ^ exponent`. -/
structure Digits where
  digits : Nat
  exponent : Int
deriving DecidableEq, Repr, Inhabited

/-- A positive rational and the interval around it, over one denominator. -/
structure Interval where
  low : Nat
  value : Nat
  high : Nat
  denominator : Nat
  closed : Bool
deriving DecidableEq, Repr, Inhabited

namespace Interval

/-- The interval of reals that round to `mantissa * 2 ^ exponent`. The gap below
a power of two is half as wide as the gap above it. -/
def ofBinary (mantissa : Nat) (exponent : Int) (narrow : Bool) : Interval :=
  let low := if narrow then 4 * mantissa - 1 else 4 * mantissa - 2
  let up := 1 <<< (exponent - 2).toNat
  { low := low * up, value := 4 * mantissa * up, high := (4 * mantissa + 2) * up,
    denominator := 1 <<< (2 - exponent).toNat, closed := mantissa % 2 == 0 }

def inUnits (i : Interval) (e : Int) : Interval :=
  let up := Nat.pow 10 (-e).toNat
  { i with
    low := i.low * up
    value := i.value * up
    high := i.high * up
    denominator := i.denominator * Nat.pow 10 e.toNat }

def contains (i : Interval) (n : Nat) : Bool :=
  let x := n * i.denominator
  if i.closed then i.low ≤ x && x ≤ i.high else i.low < x && x < i.high

/-- The whole number of the interval next to its value; a tie goes up. -/
def nearest? (i : Interval) : Option Nat :=
  let below := i.value / i.denominator
  let above := below + 1
  match i.contains below, i.contains above with
  | true, true =>
    if i.value - below * i.denominator < above * i.denominator - i.value then some below
    else some above
  | true, false => some below
  | false, true => some above
  | false, false => none

/-- The first unit `10 ^ e`, counting `e` down from `start`, that has a multiple in
the interval. -/
def firstUnit (i : Interval) (start : Int) : Nat → Digits
  | 0 => ⟨0, 0⟩
  | steps + 1 =>
    match (i.inUnits start).nearest? with
    | some (n + 1) => ⟨n + 1, start⟩
    | _ => firstUnit i (start - 1) steps

end Interval

/-- The fewest digits of a positive float given by its exponent and fraction fields. -/
def shortest (exponent fraction : Nat) : Digits :=
  let interval :=
    if exponent = 0 then Interval.ofBinary fraction (-1074) false
    else Interval.ofBinary (fraction + 1 <<< 52) (exponent - 1075)
      (fraction == 0 && 1 < exponent)
  interval.firstUnit 309 640

/-- `digits * 10 ^ exponent` without an exponent, with at least `places` decimals. -/
def Digits.positional (d : Digits) (places : Nat) : String :=
  let text := toString d.digits
  let zeros (n : Nat) := String.ofList (List.replicate n '0')
  let decimals := (-d.exponent).toNat
  if decimals = 0 then
    let whole := text ++ zeros d.exponent.toNat
    if places = 0 then whole else whole ++ "." ++ zeros places
  else
    let padded := (zeros (decimals + 1 - text.length) ++ text).toList
    let point := padded.length - decimals
    String.ofList (padded.take point) ++ "." ++ String.ofList (padded.drop point)

def Digits.scientific (d : Digits) : String :=
  let text := (toString d.digits).toList
  let power := d.exponent + (text.length - 1 : Nat)
  let tail := text.drop 1
  let fraction := if tail.isEmpty then "" else "." ++ String.ofList tail
  String.ofList (text.take 1) ++ fraction ++ "e" ++ toString power

def exponentField (x : Float) : Nat := x.toBits.toNat >>> 52 % 2048

def fractionField (x : Float) : Nat := x.toBits.toNat % 1 <<< 52

def isNegative (x : Float) : Bool := x.toBits.toNat >>> 63 == 1

def special? (x : Float) : Option String :=
  if exponentField x != 2047 then none
  else if fractionField x != 0 then some "NaN"
  else if isNegative x then some "-inf"
  else some "inf"

def digits (x : Float) : Digits := shortest (exponentField x) (fractionField x)

def signed (x : Float) (magnitude : String) : String :=
  if isNegative x then "-" ++ magnitude else magnitude

/-- Plain text: never an exponent, and no decimals on whole numbers. -/
def plain (x : Float) : String :=
  (special? x).getD (signed x ((digits x).positional 0))

/-- Listing text: whole numbers keep one decimal, and magnitudes from `10 ^ 16` up or
below `10 ^ -4` are written with a power of ten. -/
def listing (x : Float) : String :=
  let a := x.abs
  (special? x).getD (signed x
    (if a ≥ 1e16 || (a != 0 && a < 1e-4) then (digits x).scientific
     else (digits x).positional 1))

end ManagedHeap.Decimal
