import Recalc.Graph.Basic
import Recalc.Schedule.Level
import Recalc.Schedule.Search

namespace Recalc

structure Sorted where
  -- Acyclic nodes alone.
  order : List Path
  -- The order cut where a node may read one before it.
  levels : List (List Path)
  cycles : List (List Path)
  -- All nodes, the members of a cycle together.
  evaluationOrder : List Path
deriving DecidableEq

namespace Sorted

def empty : Sorted := ⟨[], [], [], []⟩

instance : Inhabited Sorted := ⟨empty⟩

def isAcyclic (sorted : Sorted) : Bool := sorted.cycles.isEmpty

def cyclicPaths (sorted : Sorted) : List Path := sorted.cycles.flatten

-- Adds a unit to what a sort has found and to the level of its wave.
def addUnit (paths : Schedule.Cluster → List Path) (found : Sorted × List Path)
    (unit : Schedule.Cluster) : Sorted × List Path :=
  let (sorted, level) := found
  let members := paths unit
  let sorted := { sorted with evaluationOrder := sorted.evaluationOrder ++ members }
  if unit.cyclic then ({ sorted with cycles := sorted.cycles ++ [members] }, level)
  else ({ sorted with order := sorted.order ++ members }, level ++ members)

-- Adds a wave. It makes a level if there is an acyclic node in it.
def addWave (paths : Schedule.Cluster → List Path) (sorted : Sorted)
    (wave : List Schedule.Cluster) : Sorted :=
  let (sorted, level) := wave.foldl (addUnit paths) (sorted, [])
  if level.isEmpty then sorted else { sorted with levels := sorted.levels ++ [level] }

end Sorted

namespace Graph

-- The edges among some nodes, the nodes numbered in order.
def adjacency (graph : Graph) (ids : List Nat) : Array (List Nat) :=
  let numbers := ids.zipIdx.foldl (fun numbers entry => numbers.insert entry.1 entry.2)
    (∅ : Std.TreeMap Nat Nat)
  (ids.map fun id =>
    match graph.nodes[id]? with
    | some node => node.dependencies.toList.filterMap fun dependency => numbers[dependency]?
    | none => []).toArray

-- Sorts the nodes with the given ids, which ascend.
def sortIds (graph : Graph) (ids : List Nat) : Sorted :=
  let names := ids.toArray
  let paths := fun (unit : Schedule.Cluster) =>
    (unit.members.filterMap (names[·]?)).filterMap graph.path?
  (Schedule.waves (graph.adjacency ids)).foldl (Sorted.addWave paths) .empty

def sortAll (graph : Graph) : Sorted := graph.sortIds graph.nodeIds

def readers (graph : Graph) (id : Nat) : List Nat :=
  match graph.nodes[id]? with
  | some node => node.dependents.toList
  | none => []

theorem readers_of_not_mem {graph : Graph} {id : Nat} (h : id ∉ graph.nodeIds) :
    graph.readers id = [] := by
  have hnone : graph.nodes[id]? = none :=
    Std.TreeMap.getElem?_eq_none fun hm => h (Std.TreeMap.mem_keys.mpr hm)
  rw [readers, hnone]

-- The ids of the seeds that are nodes and of all that reads them, directly or
-- not, in ascending order.
def affected (graph : Graph) (seeds : List Path) : List Nat :=
  (Schedule.Search.run (fun _ => graph.readers_of_not_mem)
    ⟨∅, seeds.filterMap graph.id?⟩).met.toList

def sortAffected (graph : Graph) (seeds : List Path) : Sorted :=
  graph.sortIds (graph.affected seeds)

end Graph

end Recalc
