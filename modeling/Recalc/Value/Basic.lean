import Recalc.Ordered.Map

namespace Recalc

-- A number that is no machine word is a decimal: digits times a power of ten.
inductive Value
  | null
  | bool (truth : Bool)
  | num (number : Int)
  | decimal (negative : Bool) (digits : Nat) (exponent : Int)
  | str (text : String)
  | arr (items : List Value)
  | obj (members : List (String × Value))
deriving BEq, Inhabited

namespace Value

def member? (members : List (String × Value)) (name : String) : Option Value :=
  OrderedMap.find? members name

-- A new member comes last; a member that is already there keeps its place.
def putMember (members : List (String × Value)) (name : String) (value : Value) :
    List (String × Value) :=
  OrderedMap.put members name value

theorem member?_putMember (members : List (String × Value)) (name key : String) (value : Value) :
    member? (putMember members name value) key =
      if key = name then some value else member? members key :=
  OrderedMap.find?_put

end Value

end Recalc
