import Recalc.Path.Lookup
import Recalc.Tree.Entity

namespace Recalc

structure Tree where
  entities : OrderedMap String Entity

namespace Tree

def empty : Tree := ⟨∅⟩

instance : EmptyCollection Tree := ⟨empty⟩

instance : Inhabited Tree := ⟨empty⟩

-- Entities in a tree are normalized. One that is already there is replaced in
-- its place.
def insert (tree : Tree) (name : String) (entity : Entity) : Tree :=
  ⟨tree.entities.insert name entity.normalize⟩

def erase (tree : Tree) (name : String) : Tree := ⟨tree.entities.erase name⟩

def entity? (tree : Tree) (name : String) : Option Entity := tree.entities.get? name

def size (tree : Tree) : Nat := tree.entities.size

def isEmpty (tree : Tree) : Bool := tree.entities.isEmpty

def names (tree : Tree) : List String := tree.entities.keys

def get? (tree : Tree) (path : Path) : Option Value :=
  match tree.entity? path.entity with
  | some entity => path.lookup entity.value
  | none => none

def putValue (tree : Tree) (name : String) (entity : Entity) (value : Value) : Tree :=
  ⟨tree.entities.insert name { entity with value }⟩

-- The tree after writing at a path, and whether the path could be reached.
def set (tree : Tree) (path : Path) (value : Value) : Tree × Bool :=
  match tree.entity? path.entity with
  | none => (tree, false)
  | some entity =>
    let (value, done) := entity.value.set path.segments value
    (tree.putValue path.entity entity value, done)

-- Every path of one entity, the entity first.
def entityPaths (tree : Tree) (name : String) : List Path :=
  match tree.entity? name with
  | some entity => (Path.ofEntity name).allBelow entity.value
  | none => []

-- Every path at or below a path that the tree holds.
def pathsUnder (tree : Tree) (path : Path) : List Path :=
  match tree.get? path with
  | some value => path.allBelow value
  | none => []

def allPaths (tree : Tree) : List Path := tree.names.flatMap tree.entityPaths

-- Whether a path is a property whose value is a binding.
def isDynamicLeaf (tree : Tree) (path : Path) : Bool :=
  match tree.entity? path.entity with
  | some entity => !path.isEntity && entity.config.isDynamic path.relative
  | none => false

end Tree

end Recalc
