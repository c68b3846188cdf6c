import Recalc.Graph.Edge

namespace Recalc.Graph

-- A new node takes the next id, and the dependents that wait for it read it.
def insertNode (graph : Graph) (path : Path) (kind : NodeKind) : Graph :=
  let id := graph.nextId
  let graph := { graph with
    nodes := graph.nodes.insert id (.ofPath path kind)
    ids := graph.ids.insert path id
    nextId := id + 1 }
  graph.promote path id

def addNode (check : Bool) (state : Graph × List Path) (entry : Path × NodeKind) :
    Graph × List Path :=
  let (graph, added) := state
  if graph.contains entry.1 then (graph, if check then added else added ++ [entry.1])
  else (graph.insertNode entry.1 entry.2, added ++ [entry.1])

def addEntries (graph : Graph) (entries : List (Path × NodeKind)) (check : Bool) :
    Graph × List Path :=
  entries.foldl (addNode check) (graph, [])

-- Adds nodes for the paths that are none yet and reports these paths, or all
-- of the paths if duplicates are not checked.
def addNodes (graph : Graph) (paths : List Path) (check : Bool) : Graph × List Path :=
  graph.addEntries (paths.map fun path => (path, NodeKind.ofPath path)) check

def addNodesOfKind (graph : Graph) (paths : List Path) (kind : NodeKind) (check : Bool) :
    Graph × List Path :=
  graph.addEntries (paths.map fun path => (path, kind)) check

-- A dependent loses a removed node. It waits for the path to come back,
-- unless it read the path as its direct child.
def detach (path : Path) (id : Nat) (graph : Graph) (dependent : Nat) : Graph :=
  match graph.nodes[dependent]? with
  | none => graph
  | some node =>
    let graph := graph.update dependent (.removeDependency id)
    if path.isChildOf node.path then graph else graph.park dependent path

def removeNode (state : Graph × Bool) (path : Path) : Graph × Bool :=
  let (graph, removed) := state
  match graph.id? path with
  | none => (graph, removed)
  | some id =>
    let rest := { graph with ids := graph.ids.erase path, nodes := graph.nodes.erase id }
    match graph.nodes[id]? with
    | none => (rest, removed)
    | some node =>
      let rest := node.dependencies.toList.foldl
        (fun rest dependency => rest.update dependency (.removeDependent id)) rest
      let rest := node.dependents.toList.foldl (detach path id) rest
      (rest.waitFor id ∅, true)

-- Removes the nodes of the paths with all their edges and reports whether
-- there was any.
def removeNodes (graph : Graph) (paths : List Path) : Graph × Bool :=
  paths.foldl removeNode (graph, false)

-- Whether one node is by its path a direct child of another.
def isStructural (graph : Graph) (parent child : Nat) : Bool :=
  match graph.path? parent, graph.path? child with
  | some parent, some child => child.isChildOf parent
  | _, _ => false

def report (graph : Graph) (affected : OrderedSet Path) (id : Nat) : OrderedSet Path :=
  match graph.path? id with
  | some path => affected.insert path
  | none => affected

def unlinkReporting (dependent : Nat) (state : Graph × OrderedSet Path) (dependency : Nat) :
    Graph × OrderedSet Path :=
  let (graph, affected) := state
  (graph.unlink dependent dependency, graph.report affected dependency)

def linkReporting (dependent : Nat) (state : Graph × OrderedSet Path) (dependency : Nat) :
    Graph × OrderedSet Path :=
  let (graph, affected) := state
  let (graph, added) := graph.link dependent dependency
  (graph, if added then graph.report affected dependency else affected)

-- The live edges of a node that it no longer declares. Edges to its direct
-- children stay.
def staleEdges (graph : Graph) (dependent : Nat) (node : Node) (live : OrderedSet Nat) : List Nat :=
  node.dependencies.toList.filter fun dependency =>
    !live.contains dependency && !graph.isStructural dependent dependency

-- Replaces what a node reads. Targets that are nodes become live edges, the
-- others pending ones.
def redeclare (graph : Graph) (id : Nat) (targets : List Path) (affected : OrderedSet Path) :
    Graph × OrderedSet Path :=
  match graph.nodes[id]? with
  | none => (graph, affected)
  | some node =>
    if node.kind.acceptsDependencies then
      let targets := targets.filter fun target => !decide (target = node.path)
      let live := OrderedSet.ofList (targets.filterMap graph.id?)
      let missing := OrderedSet.ofList (targets.filter fun target => !graph.contains target)
      let state := (graph.staleEdges id node live).foldl (unlinkReporting id) (graph, affected)
      let (graph, affected) := live.toList.foldl (linkReporting id) state
      (graph.waitFor id missing, affected)
    else (graph, affected)

-- Replaces what a path reads, which becomes a node if it is none. Reports the
-- targets whose dependents changed, after the path itself if it is new.
def addDependency (graph : Graph) (dependent : Path) (targets : List Path) :
    Graph × OrderedSet Path :=
  match graph.id? dependent with
  | some id => graph.redeclare id targets ∅
  | none =>
    let grown := graph.insertNode dependent (.ofPath dependent)
    grown.redeclare graph.nextId targets ((∅ : OrderedSet Path).insert dependent)

end Recalc.Graph
