/-!
Binary floating point numbers of 64 bits as data: a sign and the other 63 bits. A finite number is
`significand * 2 ^ exponent`; the decimal a text gives is rounded to the nearest of them.
-/
namespace SwaggerTypes.Decimal

/-- A number of IEEE format binary64: its sign, and its exponent and fraction bits together. -/
structure Double where
  negative : Bool
  magnitude : Fin 0x8000000000000000
deriving DecidableEq, Repr

namespace Double

/-- The bits of infinity without a sign. Any larger bits are no number. -/
def infinityBits : Nat := 0x7FF0000000000000

def zero (negative : Bool) : Double := ⟨negative, 0⟩
def infinity (negative : Bool) : Double := ⟨negative, Fin.ofNat _ infinityBits⟩
def nan (negative : Bool) : Double := ⟨negative, Fin.ofNat _ 0x7FF8000000000000⟩

def isNaN (d : Double) : Bool := infinityBits < d.magnitude.val
def isInfinite (d : Double) : Bool := d.magnitude.val = infinityBits
def isFinite (d : Double) : Bool := d.magnitude.val < infinityBits

def same (a b : Double) : Bool :=
  !a.isNaN && a.magnitude = b.magnitude && (a.negative = b.negative || a.magnitude.val = 0)

/-- The number of fractions, `2 ^ 52`. It is also the value of the leading digit, which is not
among the bits of a number. -/
def fractions : Nat := 0x10000000000000

def biased (d : Double) : Nat := d.magnitude.val / fractions

/-- The integer part of a finite number's binary form, below `2 ^ 53`. -/
def significand (d : Double) : Nat :=
  if d.biased = 0 then d.magnitude.val else d.magnitude.val % fractions + fractions

def exponent (d : Double) : Int := (max d.biased 1 : Nat) - 1075

/-- `num / den` rounded to the nearest integer, a half to the even one. -/
def roundHalfEven (num den : Nat) : Nat :=
  let q := num / den
  let twice := 2 * (num % den)
  if twice < den then q
  else if den < twice then q + 1
  else if q % 2 = 0 then q else q + 1

/-- `a * base ^ e` as a fraction, for a factor that may stand on either side. -/
def scale (base : Nat) (e : Int) (frac : Nat × Nat) : Nat × Nat :=
  (frac.1 * base.pow e.toNat, frac.2 * base.pow (-e).toNat)

/-- The magnitude nearest to a positive fraction, a half going to the even significand. The
significand gets 53 bits, fewer only at the smallest exponent. -/
def nearestMagnitude (frac : Nat × Nat) : Nat :=
  let low : Int := max ((frac.1.log2 : Int) - frac.2.log2 - 53) (-1074)
  let atLow := scale 2 (-low) frac
  let e := if 2 * fractions * atLow.2 ≤ atLow.1 then low + 1 else low
  let atE := scale 2 (-e) frac
  (e + 1074).toNat * fractions + roundHalfEven atE.1 atE.2

/-- The number nearest to `digits * 10 ^ e`, infinite when that is beyond the largest one. -/
def ofDecimal (negative : Bool) (digits : Nat) (e : Int) : Double :=
  let order : Int := (Nat.toDigits 10 digits).length + e
  if digits = 0 || order < -330 then zero negative
  else if 310 < order then infinity negative
  else ⟨negative, Fin.ofNat _ (min infinityBits (nearestMagnitude (scale 10 e (digits, 1))))⟩

def ofInt (n : Int) : Double := ofDecimal (n < 0) n.natAbs 0

end Double

end SwaggerTypes.Decimal
