import Recalc.Json.Basic
import Recalc.Number.Double
import Recalc.Value.Basic

namespace Recalc

-- Machine words are kept as they are, other numbers as the nearest double, if
-- they are not too large for one.
def Numeral.value? (numeral : Numeral) : Option Value :=
  match numeral.integer? with
  | some number => some (.num number)
  | none =>
    let (digits, exponent) := numeral.scientific
    (Double.ofDecimal? digits exponent).map fun double =>
      let (digits, exponent) := double.shortest
      .decimal numeral.negative digits exponent

def Numeral.ofNat (negative : Bool) (size : Nat) (exponent : Option Int) : Numeral :=
  ⟨negative, Nat.toDigits 10 size, [], exponent⟩

namespace Json

-- How deeply a text may nest what is kept of it.
def nestingLimit : Nat := 127

mutual

-- The room is the number of levels that may still be opened.
def value? (room : Nat) : Json → Option Value
  | .null => some .null
  | .bool truth => some (.bool truth)
  | .num numeral => numeral.value?
  | .str content => content.map .str
  | .arr items => if room = 0 then none else (values? (room - 1) items).map .arr
  | .obj members => if room = 0 then none else (memberValues? (room - 1) [] members).map .obj

def values? (room : Nat) : List Json → Option (List Value)
  | [] => some []
  | item :: rest => do
    let value ← value? room item
    let values ← values? room rest
    some (value :: values)

-- A member that is written again keeps its place and takes the new value.
def memberValues? (room : Nat) (done : List (String × Value)) :
    List (Option String × Json) → Option (List (String × Value))
  | [] => some done
  | (none, _) :: _ => none
  | (some name, item) :: rest => do
    let value ← value? room item
    memberValues? room (Value.putMember done name value) rest

end

mutual

def ofValue : Value → Json
  | .null => .null
  | .bool truth => .bool truth
  | .num number => .num (.ofNat (decide (number < 0)) number.natAbs none)
  | .decimal negative digits exponent => .num (.ofNat negative digits (some exponent))
  | .str text => .str (some text)
  | .arr values => .arr (ofValues values)
  | .obj members => .obj (ofMembers members)

def ofValues : List Value → List Json
  | [] => []
  | value :: rest => ofValue value :: ofValues rest

def ofMembers : List (String × Value) → List (Option String × Json)
  | [] => []
  | (name, value) :: rest => (some name, ofValue value) :: ofMembers rest

end

end Json

end Recalc
