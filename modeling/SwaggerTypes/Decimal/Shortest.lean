import SwaggerTypes.Decimal.Double
/-!
The shortest decimal that reads back as a given number, and the notations it is written in.
-/
namespace SwaggerTypes.Decimal

/-- A positive decimal `0.d₁d₂… * 10 ^ point`; its last digit is not zero. -/
structure Digits where
  digits : List Char
  point : Int

inductive Tie where
  | up
  | toEven

namespace Double

/-- The reals that round to a positive finite number, as multiples of a quarter of its unit:
its lower end, the number itself, its upper end, and whether the ends belong to it. -/
structure Neighbourhood where
  low : Nat
  mid : Nat
  high : Nat
  closed : Bool

/-- Half a unit to both sides, but only a quarter below a power of two. -/
def neighbourhood (d : Double) : Neighbourhood :=
  let m := d.significand
  let below := if m = fractions && 1 < d.biased then 1 else 2
  ⟨4 * m - below, 4 * m, 4 * m + 2, m % 2 = 0⟩

/-- Whether the grid point `c / (num / den)` lies in the neighbourhood, where `num / den` is a
quarter unit in steps of the grid. -/
def Neighbourhood.holds (n : Neighbourhood) (unit : Nat × Nat) (c : Nat) : Bool :=
  let point := c * unit.2
  if n.closed then n.low * unit.1 ≤ point && point ≤ n.high * unit.1
  else n.low * unit.1 < point && point < n.high * unit.1

/-- The multiple of `10 ^ p` that stands for the number, if one reads back: the nearer of its two
neighbours on that grid that do. -/
def onGrid (tie : Tie) (d : Double) (p : Int) : Option Nat :=
  let n := d.neighbourhood
  let unit := scale 10 (-p) (scale 2 (d.exponent - 2) (1, 1))
  let value := n.mid * unit.1
  let floor := value / unit.2
  match n.holds unit floor, n.holds unit (floor + 1) with
  | false, false => none
  | true, false => some floor
  | false, true => some (floor + 1)
  | true, true =>
    let twice := 2 * (value % unit.2)
    if twice < unit.2 then some floor
    else if unit.2 < twice then some (floor + 1)
    else match tie with
      | .up => some (floor + 1)
      | .toEven => some (if floor % 2 = 0 then floor else floor + 1)

def reaches (d : Double) (p : Int) : Bool :=
  let unit := scale 10 (-p) (scale 2 d.exponent (d.significand, 1))
  unit.2 ≤ unit.1

/-- The largest `p` with `10 ^ p` not above a positive finite number. -/
def decimalOrder (d : Double) : Int :=
  let estimate := ((d.significand.log2 : Int) + d.exponent) * 30103 / 100000
  let above := [estimate + 2, estimate + 1, estimate].find? d.reaches
  above.getD (estimate - 1)

def digitsOf (c : Nat) (p : Int) : Digits :=
  let cs := Nat.toDigits 10 c
  ⟨(cs.reverse.dropWhile (· = '0')).reverse, cs.length + p⟩

/-- The decimal with the fewest digits that reads back as a positive finite number, and of those
the nearest one. Seventeen digits always suffice. -/
def shortest (tie : Tie) (d : Double) : Digits :=
  let order := d.decimalOrder
  let hit := (List.range 17).findSome? fun (n : Nat) =>
    let p := order - n
    (d.onGrid tie p).map fun c => digitsOf c p
  hit.getD ⟨['0'], 1⟩

end Double

def Digits.positional (d : Digits) : String :=
  let zeros (n : Int) := List.replicate n.toNat '0'
  let size : Int := d.digits.length
  String.ofList <|
    if d.point ≤ 0 then '0' :: '.' :: zeros (-d.point) ++ d.digits
    else if size ≤ d.point then d.digits ++ zeros (d.point - size)
    else d.digits.take d.point.toNat ++ '.' :: d.digits.drop d.point.toNat

/-- One digit before the point, and a signed exponent. -/
def Digits.scientific (d : Digits) : String :=
  let e := d.point - 1
  let fraction := d.digits.drop 1
  String.ofList (d.digits.take 1 ++ if fraction.isEmpty then [] else '.' :: fraction)
    ++ "e" ++ (if e < 0 then "-" else "+") ++ toString e.natAbs

def Double.sign (d : Double) : String := if d.negative then "-" else ""

/-- A number as declarations write it: never an exponent, and no fraction of zero. A tie between
two shortest decimals goes up. -/
def Double.plainText (d : Double) : String :=
  if d.isNaN then "NaN"
  else if d.isInfinite then d.sign ++ "inf"
  else if d.magnitude.val = 0 then d.sign ++ "0"
  else d.sign ++ (d.shortest .up).positional

/-- A number as messages and keys write it: it always shows a point or an exponent, the exponent
below `0.00001` and from `10000000000000000` on. A tie goes to the even digit. -/
def Double.pointedText (d : Double) : String :=
  if d.isNaN then "NaN"
  else if d.isInfinite then d.sign ++ "inf"
  else if d.magnitude.val = 0 then d.sign ++ "0.0"
  else
    let s := d.shortest .toEven
    d.sign ++
      if -5 < s.point && s.point ≤ 16 then
        if s.digits.length ≤ s.point then s.positional ++ ".0" else s.positional
      else s.scientific

end SwaggerTypes.Decimal
