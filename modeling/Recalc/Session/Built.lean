import Recalc.Binding.Extraction
import Recalc.Graph.Linking
import Recalc.Graph.Operations
import Recalc.Tree.Basic
import Std.Data.TreeSet

namespace Recalc

-- The paths against which references resolve.
abbrev Keys := Std.TreeSet Path

def Keys.addAll (keys : Keys) (paths : List Path) : Keys := paths.foldl (·.insert ·) keys

def Keys.removeAll (keys : Keys) (paths : List Path) : Keys := paths.foldl (·.erase ·) keys

structure Built where
  graph : Graph
  keys : Keys
  -- The errors of the paths that have any.
  errors : OrderedMap Path (List DependencyError)
  cache : Binding.Cache

namespace Built

def addEntity (tree : Tree) (state : Graph × Keys) (entry : String × Entity) : Graph × Keys :=
  let (graph, keys) := state
  let (name, entity) := entry
  let paths := tree.entityPaths name
  let keys := Keys.addAll keys paths
  if entity.reactive then
    let setters := entity.config.setterPaths name
    let (graph, _) := graph.addNodes paths true
    let (graph, _) := graph.addNodesOfKind setters .setter true
    (graph, Keys.addAll keys setters)
  else (graph, keys)

def addInternalFunctions (config : Config) (state : Graph × Keys) : Graph × Keys :=
  let functions := config.internalFunctions.toList.map Path.ofEntity
  ((state.1.addNodesOfKind functions .internal true).1, Keys.addAll state.2 functions)

def addReading (built : Built) (entry : Path × Binding.Dependencies) : Built :=
  let (path, found) := entry
  { built with
    graph := (built.graph.addDependency path found.references.toList).1
    errors := if found.errors.isEmpty then built.errors else built.errors.insert path found.errors }

def addBindings (config : Config) (built : Built) (entry : String × Entity) : Built :=
  let (found, cache) :=
    Binding.ofEntity config built.keys.contains built.cache entry.1 entry.2
  found.entries.foldl addReading { built with cache }

def linkEntity (config : Config) (tree : Tree) (graph : Graph) (entry : String × Entity) : Graph :=
  let (name, entity) := entry
  if entity.reactive && config.linksChildren entity.kind then
    (graph.linkAbove (tree.entityPaths name ++ entity.config.setterPaths name)).1
  else graph

-- One pass over all nodes does if containers of every kind are linked.
def linkContainers (config : Config) (tree : Tree) (graph : Graph) : Graph :=
  if config.linksAllChildren then graph.linkAll.1
  else tree.entities.entries.foldl (linkEntity config tree) graph

def ofTree (config : Config) (cache : Binding.Cache) (tree : Tree) : Built :=
  let (graph, keys) :=
    addInternalFunctions config (tree.entities.entries.foldl (addEntity tree) (∅, ∅))
  let built := tree.entities.entries.foldl (addBindings config) ⟨graph, keys, ∅, cache⟩
  { built with graph := linkContainers config tree built.graph }

end Built

end Recalc
