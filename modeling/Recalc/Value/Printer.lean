import Recalc.Value.Basic

namespace Recalc.Value

def hexDigits (width number : Nat) : List Char :=
  match width with
  | 0 => []
  | width + 1 => hexDigits width (number / 16) ++ [Nat.digitChar (number % 16)]

def writeUnit (out : String) (unit : Nat) : String :=
  (hexDigits 4 unit).foldl String.push (out ++ "\\u")

-- A character outside ASCII is written by its UTF-16 units.
def writeChar (out : String) (c : Char) : String :=
  let code := c.toNat
  if c = '"' then out ++ "\\\""
  else if c = '\\' then out ++ "\\\\"
  else if 0x20 ≤ code ∧ code < 0x7F then out.push c
  else if code < 0x10000 then writeUnit out code
  else
    let high := 0xD800 + (code - 0x10000) / 0x400
    let low := 0xDC00 + (code - 0x10000) % 0x400
    writeUnit (writeUnit out high) low

def writeText (out : String) (text : String) : String :=
  (text.foldl writeChar (out.push '"')).push '"'

mutual

def write (out : String) : Value → String
  | .null => out ++ "null"
  | .bool true => out ++ "true"
  | .bool false => out ++ "false"
  | .num number => out ++ toString number
  | .decimal negative digits exponent =>
    (if negative then out.push '-' else out) ++ toString digits ++ "e" ++ toString exponent
  | .str text => writeText out text
  | .arr [] => out ++ "[]"
  | .arr (value :: rest) => (writeItems (write (out.push '[') value) rest).push ']'
  | .obj [] => out ++ "\x7b\x7d"
  | .obj ((key, value) :: rest) =>
    (writeMembers (write ((writeText (out.push '\x7b') key).push ':') value) rest).push '\x7d'

def writeItems (out : String) : List Value → String
  | [] => out
  | value :: rest => writeItems (write (out.push ',') value) rest

def writeMembers (out : String) : List (String × Value) → String
  | [] => out
  | (key, value) :: rest =>
    writeMembers (write ((writeText (out.push ',') key).push ':') value) rest

end

def render (value : Value) : String := write "" value

end Recalc.Value
