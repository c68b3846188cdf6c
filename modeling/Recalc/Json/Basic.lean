import Recalc.Number.Digits

namespace Recalc

-- A number by its decimal digits. The exponent is absent unless it is written.
structure Numeral where
  negative : Bool
  whole : List Char
  fraction : List Char
  exponent : Option Int
deriving DecidableEq, Inhabited

-- Members stay as they are written, repeated ones included.
-- A text with half of a surrogate pair has no content.
inductive Json
  | null
  | bool (truth : Bool)
  | num (numeral : Numeral)
  | str (content : Option String)
  | arr (items : List Json)
  | obj (members : List (Option String × Json))
deriving Inhabited

namespace Numeral

def isPlain (numeral : Numeral) : Bool := numeral.fraction.isEmpty && numeral.exponent.isNone

-- A plain number that is a machine word, with or without a sign. Zero has no
-- sign.
def integer? (numeral : Numeral) : Option Int :=
  let size := Number.ofDigits numeral.whole
  if !numeral.isPlain then none
  else if numeral.negative then
    if 0 < size ∧ 2 * size ≤ Number.wordLimit then some (-(size : Int)) else none
  else if size < Number.wordLimit then some size
  else none

-- The leading digits that make a machine word, and the power of ten that they
-- are to be multiplied with.
def scientific (numeral : Numeral) : Nat × Int :=
  let (sum, dropped) := Number.takeWord 0 numeral.whole
  let (sum, ignored) := Number.takeWord sum numeral.fraction
  let taken := numeral.fraction.length - ignored.length
  (sum, (dropped.length : Int) - (taken : Int) + numeral.exponent.getD 0)

end Numeral

end Recalc
