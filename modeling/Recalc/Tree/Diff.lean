import Recalc.Path.Parser
import Recalc.Value.Basic

namespace Recalc

inductive Event
  | new
  | delete
  | edit
deriving DecidableEq

-- For a new or edited path the value is the present one, for a deleted path
-- the former one.
structure Diff where
  event : Event
  path : String
  value : Option Value

namespace Diff

def new (path : String) (value : Value) : Diff := ⟨.new, path, some value⟩

def delete (path : String) : Diff := ⟨.delete, path, none⟩

def edit (path : String) (value : Value) : Diff := ⟨.edit, path, some value⟩

def target (diff : Diff) : Path := Path.parseLenient diff.path

end Diff

end Recalc
