import Recalc.Graph.Basic

namespace Recalc

namespace Node

def ofPath (path : Path) (kind : NodeKind) : Node := ⟨path, kind, ∅, ∅⟩

def addDependency (id : Nat) (node : Node) : Node :=
  { node with dependencies := node.dependencies.insert id }

def addDependent (id : Nat) (node : Node) : Node :=
  { node with dependents := node.dependents.insert id }

def removeDependency (id : Nat) (node : Node) : Node :=
  { node with dependencies := node.dependencies.erase id }

def removeDependent (id : Nat) (node : Node) : Node :=
  { node with dependents := node.dependents.erase id }

end Node

namespace Graph

def update (graph : Graph) (id : Nat) (change : Node → Node) : Graph :=
  { graph with nodes := graph.nodes.modify id change }

def hasEdge (graph : Graph) (dependent dependency : Nat) : Bool :=
  (graph.nodes[dependent]?).any fun node => node.dependencies.contains dependency

-- The graph with an edge, and whether the edge is a new one. No node reads
-- itself.
def link (graph : Graph) (dependent dependency : Nat) : Graph × Bool :=
  if dependent = dependency ∨ dependent ∉ graph.nodes ∨ dependency ∉ graph.nodes then
    (graph, false)
  else
    ((graph.update dependent (.addDependency dependency)).update dependency
        (.addDependent dependent),
      !graph.hasEdge dependent dependency)

def unlink (graph : Graph) (dependent dependency : Nat) : Graph :=
  (graph.update dependent (.removeDependency dependency)).update dependency
    (.removeDependent dependent)

def addWaiter (graph : Graph) (target : Path) (dependent : Nat) : Graph :=
  { graph with
    waiting := graph.waiting.insert target ((graph.waiting.getD target ∅).insert dependent) }

def removeWaiter (graph : Graph) (target : Path) (dependent : Nat) : Graph :=
  match graph.waiting[target]? with
  | none => graph
  | some waiters =>
    let left := waiters.erase dependent
    { graph with
      waiting :=
        if left.isEmpty then graph.waiting.erase target else graph.waiting.insert target left }

def putPending (graph : Graph) (dependent : Nat) (targets : OrderedSet Path) : Graph :=
  { graph with
    pending :=
      if targets.isEmpty then graph.pending.erase dependent
      else graph.pending.insert dependent targets }

def pendingAt (graph : Graph) (dependent : Nat) : OrderedSet Path := graph.pending.getD dependent ∅

-- A dependent begins to wait for a path that is no longer a node.
def park (graph : Graph) (dependent : Nat) (target : Path) : Graph :=
  (graph.addWaiter target dependent).putPending dependent
    ((graph.pendingAt dependent).insert target)

-- A dependent waits for exactly these paths.
def waitFor (graph : Graph) (dependent : Nat) (targets : OrderedSet Path) : Graph :=
  let dropped := (graph.pendingAt dependent).difference targets
  let graph := dropped.foldl (fun graph target => graph.removeWaiter target dependent) graph
  let graph := targets.toList.foldl (fun graph target => graph.addWaiter target dependent) graph
  graph.putPending dependent targets

-- One dependent that waited for a path reads the node that it has become.
def promoteOne (path : Path) (id : Nat) (graph : Graph) (dependent : Nat) : Graph :=
  ((graph.putPending dependent ((graph.pendingAt dependent).erase path)).link dependent id).1

def promote (graph : Graph) (path : Path) (id : Nat) : Graph :=
  match graph.waiting[path]? with
  | none => graph
  | some waiters =>
    waiters.toList.foldl (promoteOne path id) { graph with waiting := graph.waiting.erase path }

end Graph

end Recalc
