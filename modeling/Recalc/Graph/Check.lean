import Recalc.Graph.Basic

namespace Recalc

inductive GraphFault
  | missingInverse (dependent dependency : String)
  | missingForward (dependent dependency : String)
  | selfEdge (path : String)
  | danglingEdge (path : String)
  | stalePending (dependent target : String)
deriving DecidableEq

def GraphFault.message : GraphFault → String
  | .missingInverse dependent dependency =>
    "edge `" ++ dependent ++ "` -> `" ++ dependency ++ "` has no inverse entry"
  | .missingForward dependent dependency =>
    "inverse entry `" ++ dependency ++ "` <- `" ++ dependent ++ "` has no forward edge"
  | .selfEdge path => "`" ++ path ++ "` depends on itself"
  | .danglingEdge path => "`" ++ path ++ "` has an edge to a node that no longer exists"
  | .stalePending dependent target =>
    "`" ++ dependent ++ "` waits on `" ++ target ++ "`, which is already a node"

namespace Graph

def dependencyFault? (graph : Graph) (id : Nat) (node : Node) (dependency : Nat) :
    Option GraphFault :=
  if dependency = id then some (.selfEdge node.path.render)
  else
    match graph.nodes[dependency]? with
    | none => some (.danglingEdge node.path.render)
    | some target =>
      if target.dependents.contains id then none
      else some (.missingInverse node.path.render target.path.render)

def dependentFault? (graph : Graph) (id : Nat) (node : Node) (dependent : Nat) :
    Option GraphFault :=
  match graph.nodes[dependent]? with
  | none => some (.danglingEdge node.path.render)
  | some source =>
    if source.dependencies.contains id then none
    else some (.missingForward source.path.render node.path.render)

def nodeFault? (graph : Graph) (entry : Nat × Node) : Option GraphFault :=
  (entry.2.dependencies.toList.findSome? (graph.dependencyFault? entry.1 entry.2)).or
    (entry.2.dependents.toList.findSome? (graph.dependentFault? entry.1 entry.2))

def pendingFault? (graph : Graph) (entry : Nat × OrderedSet Path) : Option GraphFault :=
  match graph.path? entry.1 with
  | none => some (.danglingEdge ("#" ++ toString entry.1))
  | some dependent =>
    (entry.2.toList.find? graph.contains).map fun target =>
      .stalePending dependent.render target.render

-- The first fault, if any.
def fault? (graph : Graph) : Option GraphFault :=
  (graph.nodeList.findSome? graph.nodeFault?).or
    (graph.pending.toList.findSome? graph.pendingFault?)

end Graph

end Recalc
