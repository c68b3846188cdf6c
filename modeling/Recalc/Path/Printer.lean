import Recalc.Path.Basic

namespace Recalc

namespace Segment

def escaped : List Char → List Char
  | [] => []
  | c :: rest => if c = '"' ∨ c = '\\' then '\\' :: c :: escaped rest else c :: escaped rest

def spelling : Segment → List Char
  | .key name =>
    if Text.isIdentifier name.toList then '.' :: name.toList
    else '[' :: '"' :: (escaped name.toList ++ ['"', ']'])
  | .index position => '[' :: ((toString position).toList ++ [']'])

end Segment

namespace Path

def stepsSpelling (segments : List Segment) : List Char :=
  segments.flatMap Segment.spelling

def spelling (path : Path) : List Char :=
  path.entity.toList ++ stepsSpelling path.segments

def render (path : Path) : String := String.ofList path.spelling

-- The path as seen from its entity, without a leading dot.
def relative (path : Path) : String :=
  match stepsSpelling path.segments with
  | '.' :: rest => String.ofList rest
  | chars => String.ofList chars

end Path

end Recalc
