import SwaggerTypes.Decimal.Double
/-!
Decimal numerals read as integers and as floating point numbers.
-/
namespace SwaggerTypes.Decimal

def digitValue (base : Nat) (c : Char) : Option Nat :=
  let v :=
    if c.isDigit then some (c.toNat - '0'.toNat)
    else if 'a' ≤ c && c ≤ 'f' then some (c.toNat - 'a'.toNat + 10)
    else if 'A' ≤ c && c ≤ 'F' then some (c.toNat - 'A'.toNat + 10)
    else none
  v.filter (· < base)

/-- The number that digits of a base write; at least one digit, and nothing else. -/
def readNat (base : Nat) (cs : List Char) : Option Nat :=
  if cs.isEmpty then none
  else (cs.mapM (digitValue base)).map (List.foldl (fun n d => n * base + d) 0)

/-- A sign that may stand in front, and what follows it. -/
def splitSign : List Char → Bool × List Char
  | '-' :: cs => (true, cs)
  | '+' :: cs => (false, cs)
  | cs => (false, cs)

def readExponent : List Char → Option Int
  | [] => some 0
  | c :: cs =>
    if c = 'e' || c = 'E' then
      let (negative, digits) := splitSign cs
      (readNat 10 digits).map fun n => if negative then -(n : Int) else n
    else none

/-- A numeral without sign: digits, a point and more digits, either side of the point possibly
empty but not both, then an exponent. -/
def readUnsigned (negative : Bool) (cs : List Char) : Option Double := do
  let whole := cs.takeWhile Char.isDigit
  let afterWhole := cs.dropWhile Char.isDigit
  let (fraction, rest) := match afterWhole with
    | '.' :: more => (more.takeWhile Char.isDigit, more.dropWhile Char.isDigit)
    | _ => ([], afterWhole)
  let n ← readNat 10 (whole ++ fraction)
  let e ← readExponent rest
  some (Double.ofDecimal negative n (e - fraction.length))

def readDouble (s : String) : Option Double :=
  let (negative, cs) := splitSign s.toList
  readUnsigned negative cs

end SwaggerTypes.Decimal
