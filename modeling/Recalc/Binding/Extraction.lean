import Recalc.Binding.Cache
import Recalc.Binding.Dependencies
import Recalc.Path.Lookup
import Recalc.Tree.Entity

namespace Recalc.Binding

-- What the binding at a path reads. Only text holds bindings.
def ofBinding (config : Config) (known : Path → Bool) (cache : Cache) (entity : Entity)
    (path : Path) : Dependencies × Cache :=
  match entity.kind.capabilities.form, path.lookup entity.value with
  | some form, some (.str text) =>
    let (parsed, cache) := cache.parse form text
    (resolve config known path parsed, cache)
  | _, _ => (∅, cache)

def internalTargets (entity : Entity) (path : Path) : List Path :=
  match entity.config.internalDependencies.get? path.relative with
  | some targets =>
    (targets.map (Path.ofRelative path.entity)).filter fun target => !decide (target = path)
  | none => []

def addInternal (entity : Entity) (path : Path) (found : Dependencies) : Dependencies :=
  ⟨found.references.insertMany (internalTargets entity path), found.errors⟩

-- What one path of an entity reads.
def ofPath (config : Config) (known : Path → Bool) (cache : Cache) (entity : Entity)
    (path : Path) : Dependencies × Cache :=
  let (found, cache) :=
    if entity.config.isDynamic path.relative then ofBinding config known cache entity path
    else (∅, cache)
  (addInternal entity path found, cache)

abbrev Extraction := OrderedMap Path Dependencies × Cache

def scanPath (config : Config) (known : Path → Bool) (name : String) (entity : Entity)
    (state : Extraction) (relative : String) : Extraction :=
  let path := Path.ofRelative name relative
  let (found, cache) := ofBinding config known state.2 entity path
  (state.1.insert path found, cache)

def deriveProperty (name : String) (entity : Entity) (found : OrderedMap Path Dependencies)
    (property : String) : OrderedMap Path Dependencies :=
  let path := Path.ofRelative name property
  found.insert path (addInternal entity path ((found.get? path).getD ∅))

-- What each path of an entity reads, in the order in which the paths are
-- configured. Entities outside the graph read nothing.
def ofEntity (config : Config) (known : Path → Bool) (cache : Cache) (name : String)
    (entity : Entity) : Extraction :=
  if entity.reactive then
    let (found, cache) :=
      entity.config.scannedPaths.foldl (scanPath config known name entity) (∅, cache)
    (entity.config.internalDependencies.keys.foldl (deriveProperty name entity) found, cache)
  else (∅, cache)

end Recalc.Binding
