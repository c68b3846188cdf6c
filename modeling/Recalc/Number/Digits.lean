namespace Recalc.Number

-- Two to the power of 64.
def wordLimit : Nat := 18446744073709551616

def digit (c : Char) : Nat := c.toNat - '0'.toNat

def ofDigits (digits : List Char) : Nat :=
  digits.foldl (fun sum c => sum * 10 + digit c) 0

-- Takes digits as long as the number that they spell is a machine word. Gives
-- that number, begun with the given one, and the digits left over.
def takeWord (sum : Nat) : List Char → Nat × List Char
  | [] => (sum, [])
  | c :: rest =>
    if sum * 10 + digit c < wordLimit then takeWord (sum * 10 + digit c) rest
    else (sum, c :: rest)

end Recalc.Number
