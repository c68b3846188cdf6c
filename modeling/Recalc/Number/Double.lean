namespace Recalc

-- The mantissa times a power of two.
structure Double where
  mantissa : Nat
  exponent : Int
deriving DecidableEq

namespace Double

-- Two to the power of 53.
def mantissaLimit : Nat := 9007199254740992

def leastExponent : Int := -1074

def greatestExponent : Int := 971

-- The quotient rounded to the nearest whole number, halves to the even one.
def nearest (num den : Nat) : Nat :=
  let quotient := num / den
  let twice := 2 * (num % den)
  if twice < den ∨ (twice = den ∧ quotient % 2 = 0) then quotient else quotient + 1

-- A fraction counted in units of a power of a base, as a fraction.
def inUnits (base : Nat) (exponent : Int) (num den : Nat) : Nat × Nat :=
  (num * Nat.pow base (-exponent).toNat, den * Nat.pow base exponent.toNat)

-- The units of which a positive fraction has as many as a mantissa may count,
-- unless they are the smallest units.
def unitOf (num den : Nat) : Int :=
  let guess := (num.log2 : Int) - (den.log2 : Int) - 53
  let (scaledNum, scaledDen) := inUnits 2 guess num den
  let unit := if scaledNum / scaledDen < mantissaLimit then guess else guess + 1
  if unit < leastExponent then leastExponent else unit

-- The nearest number to a fraction, if the fraction is not too large.
def round? (num den : Nat) : Option Double :=
  if num = 0 then some ⟨0, 0⟩
  else
    let unit := unitOf num den
    let (scaledNum, scaledDen) := inUnits 2 unit num den
    let mantissa := nearest scaledNum scaledDen
    let rounded : Double :=
      if mantissa = mantissaLimit then ⟨mantissaLimit / 2, unit + 1⟩ else ⟨mantissa, unit⟩
    if rounded.exponent ≤ greatestExponent then some rounded else none

def num (value : Double) : Nat := value.mantissa * Nat.pow 2 value.exponent.toNat

def den (value : Double) : Nat := Nat.pow 2 (-value.exponent).toNat

def times? (value other : Double) : Option Double :=
  round? (value.num * other.num) (value.den * other.den)

def over? (value other : Double) : Option Double :=
  round? (value.num * other.den) (value.den * other.num)

def powerOfTen? (exponent : Nat) : Option Double := round? (Nat.pow 10 exponent) 1

def greatestPower : Nat := 308

-- A number times a power of ten. Powers that are no numbers themselves are
-- out of range for a factor and are divided off in parts. The fuel bounds the
-- parts, of which two bring every machine word to zero.
def scale? (value : Double) (exponent : Int) : Nat → Option Double
  | 0 => some ⟨0, 0⟩
  | fuel + 1 =>
    if exponent.natAbs ≤ greatestPower then do
      let power ← powerOfTen? exponent.natAbs
      if 0 ≤ exponent then value.times? power else value.over? power
    else if value.mantissa = 0 then some value
    else if 0 ≤ exponent then none
    else do
      let part ← value.over? (← powerOfTen? greatestPower)
      part.scale? (exponent + greatestPower) fuel

def ofDecimal? (digits : Nat) (exponent : Int) : Option Double := do
  (← round? digits 1).scale? exponent 3

-- Whether a decimal stands for a number.
def isSpelledBy (value : Double) (digits : Nat) (exponent : Int) : Bool :=
  let (num, den) := inUnits 10 (-exponent) digits 1
  round? num den == some value

-- The digits that stand for a number in units of a power of ten, if any do;
-- of two choices the nearer one.
def digitsAt? (value : Double) (exponent : Int) : Option Nat :=
  let (num, den) := inUnits 10 exponent value.num value.den
  let near := nearest num den
  let far := if near = num / den then near + 1 else near - 1
  [near, far].find? fun digits => value.isSpelledBy digits exponent

-- The powers of ten that digits may count, the greatest first.
def decimalExponents : List Int := (List.range 633).map fun (k : Nat) => 308 - (k : Int)

-- All digits of a number, since halves are fives among tenths.
def exact (value : Double) : Nat × Int :=
  (value.num * Nat.pow 5 (-value.exponent).toNat, if value.exponent < 0 then value.exponent else 0)

-- The decimal with the fewest digits that stands for a number, as digits and
-- a power of ten.
def shortest (value : Double) : Nat × Int :=
  if value.mantissa = 0 then (0, 0)
  else
    let found := decimalExponents.findSome? fun exponent =>
      (value.digitsAt? exponent).map fun digits => (digits, exponent)
    found.getD value.exact

end Double

end Recalc
