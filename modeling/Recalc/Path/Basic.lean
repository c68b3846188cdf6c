import Recalc.Number.Digits
import Recalc.Text.Identifier

namespace Recalc

inductive Segment
  | key (name : String)
  | index (position : Nat)
deriving DecidableEq, Ord, Inhabited

structure Path where
  entity : String
  segments : List Segment
deriving DecidableEq, Ord, Inhabited

namespace Segment

-- Digits alone, without a leading zero, that make a machine word. A longer
-- number stays a name.
def position? (name : List Char) : Option Nat :=
  if name.isEmpty || !name.all Char.isDigit then none
  else if name.head? = some '0' ∧ 1 < name.length then none
  else if Number.ofDigits name < Number.wordLimit then some (Number.ofDigits name)
  else none

-- A name that spells a position is one, so that `data[0]`, `data["0"]` and
-- `data.0` are one path.
def ofName (name : String) : Segment :=
  match position? name.toList with
  | some position => .index position
  | none => .key name

-- The member that a step names in an object.
def name : Segment → String
  | .key name => name
  | .index position => toString position

def Canonical : Segment → Prop
  | .key name => position? name.toList = none
  | .index position => position < Number.wordLimit

end Segment

namespace Path

def ofEntity (entity : String) : Path := ⟨entity, []⟩

def isEntity (path : Path) : Bool := path.segments.isEmpty

def depth (path : Path) : Nat := path.segments.length

def truncate (path : Path) (depth : Nat) : Path :=
  ⟨path.entity, path.segments.take depth⟩

def parent? (path : Path) : Option Path :=
  if path.segments.isEmpty then none else some ⟨path.entity, path.segments.dropLast⟩

-- Every container of a path, the nearest first and the entity last.
def ancestors (path : Path) : List Path :=
  (List.range path.depth).reverse.map path.truncate

def child (path : Path) (segment : Segment) : Path :=
  ⟨path.entity, path.segments ++ [segment]⟩

def childKey (path : Path) (name : String) : Path := path.child (.ofName name)

def childIndex (path : Path) (position : Nat) : Path := path.child (.index position)

-- At or below the other path.
def startsWith (path other : Path) : Bool :=
  path.entity == other.entity && other.segments.isPrefixOf path.segments

def isChildOf (path other : Path) : Bool :=
  path.depth == other.depth + 1 && path.startsWith other

def startsAccessor (c : Char) : Bool := c == '.' || c == '['

-- Where the entity's name ends: before the first dot or bracket.
def splitEntity (text : List Char) : List Char × List Char :=
  (text.takeWhile fun c => !startsAccessor c, text.dropWhile fun c => !startsAccessor c)

def entityName (text : String) : String := String.ofList (splitEntity text.toList).1

structure Canonical (path : Path) : Prop where
  named : path.entity ≠ ""
  plain : ∀ c ∈ path.entity.toList, startsAccessor c = false
  steps : ∀ segment ∈ path.segments, segment.Canonical

end Path

end Recalc
