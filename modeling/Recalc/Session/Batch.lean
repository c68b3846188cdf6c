import Recalc.Error.Store
import Recalc.Session.Built
import Recalc.Tree.Diff

namespace Recalc

structure RemovedPath where
  entityId : String
  path : Path
deriving DecidableEq

-- The state of a batch: what the session keeps and what the batch has done.
structure Batch where
  graph : Graph
  keys : Keys
  errors : ErrorStore
  cache : Binding.Cache
  readersOfRemoved : OrderedSet Path
  removed : List RemovedPath
  changed : Bool
  -- Paths whose value or binding changed.
  touched : OrderedSet Path
  added : OrderedSet Path
  raised : List DependencyError

namespace Batch

-- Every path that an event brings can be referred to from the start.
def registerKeys (tree : Tree) (keys : Keys) (diff : Diff) : Keys :=
  match diff.event with
  | .new =>
    let path := diff.target
    match tree.entity? path.entity with
    | none => keys
    | some entity =>
      let setters := if path.isEntity then entity.config.setterPaths path.entity else []
      Keys.addAll keys (path.ancestors ++ tree.pathsUnder path ++ setters)
  | .delete => keys
  | .edit => keys

def touch (batch : Batch) (path : Path) : Batch :=
  { batch with touched := batch.touched.insert path }

def addKeys (batch : Batch) (paths : List Path) : Batch :=
  { batch with keys := Keys.addAll batch.keys paths }

def linkIf (config : Config) (kind : Kind) (graph : Graph) (paths : List Path) : Graph :=
  if config.linksChildren kind then (graph.linkAbove paths).1 else graph

-- Nodes that have been added resolve what was unresolved before.
def recordAdded (config : Config) (kind : Kind) (batch : Batch) (added : List Path) : Batch :=
  if added.isEmpty then batch
  else
    { batch with
      graph := linkIf config kind batch.graph added
      errors := added.foldl ErrorStore.resolveReference batch.errors
      changed := true
      added := batch.added.insertMany added }

def applyReading (config : Config) (kind : Kind) (batch : Batch)
    (entry : Path × Binding.Dependencies) : Batch :=
  let (path, found) := entry
  let (graph, affected) := batch.graph.addDependency path found.references.toList
  let graph := if affected.isEmpty then graph else linkIf config kind graph affected.toList
  { batch with
    graph
    errors := batch.errors.replaceExtraction path found.errors
    changed := batch.changed || !affected.isEmpty
    touched := batch.touched.insert path
    raised := batch.raised ++ found.errors }

def readEntity (config : Config) (name : String) (entity : Entity) (batch : Batch) : Batch :=
  let (found, cache) := Binding.ofEntity config batch.keys.contains batch.cache name entity
  found.entries.foldl (applyReading config entity.kind) { batch with cache }

def readPath (config : Config) (entity : Entity) (path : Path) (batch : Batch) : Batch :=
  let (found, cache) := Binding.ofPath config batch.keys.contains batch.cache entity path
  applyReading config entity.kind { batch with cache } (path, found)

-- The paths that an event adds: containers that are missing, then the path
-- with all below it, as the tree or else the event has it.
def newPaths (tree : Tree) (graph : Graph) (path : Path) (value : Option Value) : List Path :=
  let containers := (path.ancestors.filter fun ancestor => !graph.contains ancestor).reverse
  let below := tree.pathsUnder path
  containers ++
    if below.isEmpty then
      match value with
      | some value => path.allBelow value
      | none => [path]
    else below

def onNew (config : Config) (tree : Tree) (entity : Entity) (path : Path) (value : Option Value)
    (batch : Batch) : Batch :=
  let missing := !batch.graph.contains (.ofEntity path.entity)
  let paths := newPaths tree batch.graph path value
  let batch := batch.addKeys paths
  let (graph, added) := batch.graph.addNodes paths true
  let batch := recordAdded config entity.kind { batch with graph } added
  let batch :=
    if path.isEntity || missing then
      let setters := entity.config.setterPaths path.entity
      let batch := batch.addKeys setters
      let (graph, added) := batch.graph.addNodesOfKind setters .setter true
      recordAdded config entity.kind { batch with graph } added
    else batch
  let batch :=
    if tree.isDynamicLeaf path then readPath config entity path batch
    else readEntity config path.entity entity batch
  batch.touch path

def isKnownOrBelow (keys : Keys) (path : Path) : Bool :=
  keys.contains path || path.ancestors.any keys.contains

-- A reader of a removed path has an unresolved reference, unless a container
-- of the path can still stand for it.
def flagReader (keys : Keys) (graph : Graph) (gone : List Path) (errors : ErrorStore)
    (reader : Path) : ErrorStore :=
  (graph.pendingOf reader).foldl (fun errors target =>
    if decide (target ∈ gone) && !isKnownOrBelow keys target then
      errors.flagUnresolved reader target
    else errors) errors

def evictTexts (tree : Tree) (form : Option Binding.Form) (cache : Binding.Cache)
    (paths : List Path) : Binding.Cache :=
  match form with
  | none => cache
  | some form =>
    paths.foldl (fun cache path =>
      match tree.get? path with
      | some (.str text) => cache.evict form text
      | _ => cache) cache

def forget (id : String) (batch : Batch) (path : Path) : Batch :=
  { batch with
    errors := batch.errors.clearPath path
    touched := batch.touched.erase path
    added := batch.added.erase path
    removed := batch.removed ++ [⟨id, path⟩] }

def readersOutside (graph : Graph) (gone : List Path) : OrderedSet Path :=
  .ofList ((gone.flatMap graph.dependents).filter fun reader => !decide (reader ∈ gone))

def onDelete (config : Config) (former : Tree) (entity : Entity) (path : Path) (batch : Batch) :
    Batch :=
  let below := former.pathsUnder path
  let removed := if below.isEmpty then [path] else below
  let setters := if path.isEntity then entity.config.setterPaths path.entity else []
  let gone := removed ++ setters
  let readers := readersOutside batch.graph gone
  let (graph, anySetter) := batch.graph.removeNodes setters
  let (graph, anyPath) := graph.removeNodes removed
  let keys := Keys.removeAll batch.keys gone
  let errors :=
    if config.reportUnresolved then
      readers.toList.foldl (flagReader keys graph gone) batch.errors
    else batch.errors
  let batch := { batch with
    graph
    keys
    errors
    cache := evictTexts former entity.kind.capabilities.form batch.cache removed
    readersOfRemoved := batch.readersOfRemoved.insertMany readers.toList
    changed := batch.changed || anySetter || anyPath }
  removed.foldl (forget (entity.config.id.getD "")) batch

def textOf? : Option Value → Option String
  | some (.str text) => some text
  | _ => none

-- The reading of a text that an edit replaces is no longer needed.
def evictEdited (former : Tree) (entity : Entity) (path : Path) (value : Option Value)
    (cache : Binding.Cache) : Binding.Cache :=
  match textOf? (former.get? path), entity.kind.capabilities.form with
  | some text, some form => if textOf? value = some text then cache else cache.evict form text
  | _, _ => cache

-- Only text holds bindings, so an edit to another value leaves the graph as
-- it is.
def onEdit (config : Config) (former tree : Tree) (entity : Entity) (path : Path)
    (value : Option Value) (batch : Batch) : Batch :=
  let value := value.or (tree.get? path)
  let batch := { batch with cache := evictEdited former entity path value batch.cache }
  if (textOf? value).isSome then
    let batch := if (tree.get? path).isSome then batch.addKeys [path] else batch
    (readPath config entity path batch).touch path
  else batch.touch path

-- Entities outside the graph have no nodes, but what they lose can no longer
-- be referred to.
def onOutside (former : Tree) (event : Event) (path : Path) (batch : Batch) : Batch :=
  match event with
  | .delete => { batch with keys := Keys.removeAll batch.keys (former.pathsUnder path) }
  | .new => batch
  | .edit => batch

def applyDiff (config : Config) (former tree : Tree) (batch : Batch) (diff : Diff) : Batch :=
  let path := diff.target
  let source := match diff.event with
    | .delete => former
    | .new => tree
    | .edit => tree
  match source.entity? path.entity with
  | none => batch
  | some entity =>
    if entity.reactive then
      match diff.event with
      | .new => onNew config tree entity path diff.value batch
      | .delete => onDelete config former entity path batch
      | .edit => onEdit config former tree entity path diff.value batch
    else onOutside former diff.event path batch

def start (graph : Graph) (keys : Keys) (errors : ErrorStore) (cache : Binding.Cache) : Batch :=
  ⟨graph, keys, errors, cache, ∅, [], false, ∅, ∅, []⟩

def dropGoneReaders (batch : Batch) : Batch :=
  { batch with readersOfRemoved := batch.readersOfRemoved.filter batch.graph.contains }

def apply (config : Config) (former tree : Tree) (diffs : List Diff) (batch : Batch) : Batch :=
  let batch := { batch with keys := diffs.foldl (registerKeys tree) batch.keys }
  (diffs.foldl (applyDiff config former tree) batch).dropGoneReaders

end Batch

end Recalc
