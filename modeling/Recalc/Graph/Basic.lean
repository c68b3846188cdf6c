import Recalc.Ordered.Map
import Recalc.Ordered.Set
import Recalc.Path.Order
import Recalc.Path.Printer

namespace Recalc

inductive NodeKind
  | entity
  | property
  -- A function of an entity that writes a property. It reads nothing.
  | setter
  -- A function of the platform. It reads nothing.
  | internal
deriving DecidableEq

def NodeKind.ofPath (path : Path) : NodeKind :=
  if path.isEntity then .entity else .property

def NodeKind.acceptsDependencies : NodeKind → Bool
  | .entity => true
  | .property => true
  | .setter => false
  | .internal => false

structure Node where
  path : Path
  kind : NodeKind
  dependencies : OrderedSet Nat
  dependents : OrderedSet Nat

-- Ids count up and are never used again, so their order is the order in
-- which nodes came in.
structure Graph where
  nodes : Std.TreeMap Nat Node
  ids : Std.TreeMap Path Nat
  nextId : Nat
  -- What each dependent waits for.
  pending : Std.TreeMap Nat (OrderedSet Path)
  -- The dependents that wait for each missing path.
  waiting : Std.TreeMap Path (OrderedSet Nat)

namespace Graph

def empty : Graph := ⟨∅, ∅, 0, ∅, ∅⟩

instance : EmptyCollection Graph := ⟨empty⟩

instance : Inhabited Graph := ⟨empty⟩

def id? (graph : Graph) (path : Path) : Option Nat := graph.ids[path]?

def contains (graph : Graph) (path : Path) : Bool := (graph.id? path).isSome

def path? (graph : Graph) (id : Nat) : Option Path := (graph.nodes[id]?).map Node.path

def node? (graph : Graph) (path : Path) : Option Node :=
  (graph.id? path).bind fun id => graph.nodes[id]?

def nodeList (graph : Graph) : List (Nat × Node) := graph.nodes.toList

def nodeIds (graph : Graph) : List Nat := graph.nodes.keys

def paths (graph : Graph) : List Path := graph.nodes.values.map Node.path

def pathsOf (graph : Graph) (ids : OrderedSet Nat) : List Path := ids.toList.filterMap graph.path?

-- The nodes that a path reads.
def dependencies (graph : Graph) (path : Path) : List Path :=
  match graph.node? path with
  | some node => graph.pathsOf node.dependencies
  | none => []

-- The nodes that read a path.
def dependents (graph : Graph) (path : Path) : List Path :=
  match graph.node? path with
  | some node => graph.pathsOf node.dependents
  | none => []

-- What a path declares that is not a node.
def pendingOf (graph : Graph) (path : Path) : List Path :=
  match (graph.id? path).bind fun id => graph.pending[id]? with
  | some targets => targets.toList
  | none => []

def declared (graph : Graph) (path : Path) : List Path :=
  graph.dependencies path ++ graph.pendingOf path

def nodeCount (graph : Graph) : Nat := graph.nodes.size

def edgeCount (graph : Graph) : Nat :=
  graph.nodes.values.foldl (fun count node => count + node.dependencies.size) 0

def pendingCount (graph : Graph) : Nat :=
  graph.pending.values.foldl (fun count targets => count + targets.size) 0

-- The edges of the nodes that have any, by the text of paths. Of two nodes
-- with one text the first gives the place and the last the edges.
def edgeTable (graph : Graph) (edges : Node → OrderedSet Nat) : OrderedMap String (List String) :=
  .ofList ((graph.nodes.values.filter fun node => !(edges node).isEmpty).map fun node =>
    (node.path.render, (graph.pathsOf (edges node)).map Path.render))

def dependencyTable (graph : Graph) : OrderedMap String (List String) :=
  graph.edgeTable Node.dependencies

def dependentTable (graph : Graph) : OrderedMap String (List String) :=
  graph.edgeTable Node.dependents

end Graph

end Recalc
