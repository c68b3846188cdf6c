import Recalc.Json.Content

namespace Recalc.Json

def occurrences (name : String) : List (Option String × Json) → List Json
  | [] => []
  | (key, item) :: rest =>
    if key = some name then item :: occurrences name rest else occurrences name rest

def namedField (members : List (Option String × Json)) (name : String) : Option (Option Json) :=
  match occurrences name members with
  | [] => some none
  | [item] => some (some item)
  | _ => none

-- The fields of a record, in the order of the names. A missing one is `none`.
-- A record names its fields, each at most once, or lists them and may stop early.
def fields? (names : List String) : Json → Option (List (Option Json))
  | .obj members =>
    if members.all (·.1.isSome) then names.mapM (namedField members) else none
  | .arr items =>
    if items.length ≤ names.length then
      some (items.map some ++ List.replicate (names.length - items.length) none)
    else none
  | _ => none

def text? : Json → Option String
  | .str content => content
  | _ => none

def bool? : Json → Option Bool
  | .bool truth => some truth
  | _ => none

def word? : Json → Option Nat
  | .num numeral => numeral.integer?.bind fun number =>
    if 0 ≤ number then some number.toNat else none
  | _ => none

def list? : Json → Option (List Json)
  | .arr items => some items
  | _ => none

def member? (member : Option String × Json) : Option (String × Json) :=
  member.1.map (·, member.2)

def members? : Json → Option (List (String × Json))
  | .obj members => members.mapM member?
  | _ => none

def texts? (json : Json) : Option (List String) := do
  (← json.list?).mapM text?

-- One of a few names. A name may also be the only member of an object, with
-- null as its value.
def name? : Json → Option String
  | .str content => content
  | .obj [(name, .null)] => name
  | _ => none

def orDefault {α : Type} (read : Json → Option α) (default : α) : Option Json → Option α
  | some json => read json
  | none => some default

def required {α : Type} (read : Json → Option α) : Option Json → Option α
  | some json => read json
  | none => none

-- Null stands for a missing value.
def nullable {α : Type} (read : Json → Option α) : Json → Option (Option α)
  | .null => some none
  | json => (read json).map some

end Recalc.Json
