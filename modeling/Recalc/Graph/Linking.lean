import Recalc.Graph.Edge

namespace Recalc.Graph

-- Climbs from a node through its containers, as long as they are nodes that
-- accept dependencies, and counts the new edges.
def climb (graph : Graph) (current : Nat) : List Path → Graph × Nat
  | [] => (graph, 0)
  | ancestor :: rest =>
    match graph.id? ancestor with
    | none => (graph, 0)
    | some parent =>
      if (graph.nodes[parent]?).any fun node => node.kind.acceptsDependencies then
        let (graph, added) := graph.link parent current
        let (graph, count) := graph.climb parent rest
        (graph, if added then count + 1 else count)
      else (graph, 0)

def linkAncestors (state : Graph × Nat) (path : Path) : Graph × Nat :=
  let (graph, count) := state
  match graph.id? path with
  | none => (graph, count)
  | some id =>
    let (graph, added) := graph.climb id path.ancestors
    (graph, count + added)

-- Links the containers above each of the paths and counts the new edges.
def linkAbove (graph : Graph) (paths : List Path) : Graph × Nat :=
  paths.foldl linkAncestors (graph, 0)

def linkAll (graph : Graph) : Graph × Nat := graph.linkAbove graph.paths

end Recalc.Graph
