import Recalc.Schedule.Sort
import Recalc.Session.Batch

namespace Recalc

structure Session where
  config : Config
  cache : Binding.Cache
  tree : Tree
  graph : Graph
  keys : Keys
  sorted : Sorted
  errors : ErrorStore

structure Update where
  -- Paths that are left and read a removed one.
  readersOfRemoved : List Path
  removed : List RemovedPath
  -- Whether nodes or edges changed.
  changed : Bool
  -- What the batch touched and all that reads it, in the order of evaluation.
  affected : List Path
  errors : List DependencyError

namespace Session

def sort (session : Session) : Session :=
  let sorted := session.graph.sortAll
  { session with sorted, errors := session.errors.replaceCycles sorted.cycles }

-- Builds everything again from a tree.
def reset (session : Session) (tree : Tree) : Session :=
  let built := Built.ofTree session.config session.cache.clear tree
  let errors := built.errors.entries.foldl
    (fun errors entry => errors.replaceExtraction entry.1 entry.2) (∅ : ErrorStore)
  sort { session with
    cache := built.cache
    tree
    graph := built.graph
    keys := built.keys
    errors }

def start (config : Config) (cache : Binding.Cache) (tree : Tree) : Session :=
  reset ⟨config, cache, ∅, ∅, ∅, .empty, ∅⟩ tree

def ofTree (tree : Tree) (config : Config) : Session :=
  start config (.ofCapacity config.cacheCapacity) tree

def seeds (batch : Batch) : List Path :=
  batch.touched.toList ++ batch.added.toList ++ batch.readersOfRemoved.toList

-- Applies a batch of diffs that led from the session's tree to another one.
-- The order of evaluation stays as it is if no node or edge changed.
def apply (session : Session) (tree : Tree) (diffs : List Diff) : Session × Update :=
  let batch := (Batch.start session.graph session.keys session.errors session.cache).apply
    session.config session.tree tree diffs
  let session := { session with
    cache := batch.cache
    tree
    graph := batch.graph
    keys := batch.keys
    errors := batch.errors }
  let session := if batch.changed then session.sort else session
  let affected := (session.graph.sortAffected (seeds batch)).evaluationOrder
  (session, ⟨batch.readersOfRemoved.toList, batch.removed, batch.changed, affected, batch.raised⟩)

def recordEvaluation (session : Session) (path : Path) (messages : List String) : Session :=
  { session with errors := session.errors.recordEvaluation path messages }

def isKnown (session : Session) (path : Path) : Bool := session.keys.contains path

end Session

end Recalc
