import Recalc.Proofs.Binding.Locality
import Recalc.Proofs.Graph.Kind
import Recalc.Proofs.Session.Presence

namespace Recalc

open Binding (Dependencies)

namespace Path

-- What is listed entity by entity is found by the name of the entity.
theorem mem_flatMap_entries {tree : Tree} {path : Path} {list : String × Entity → List Path}
    (hown : ∀ entry, AllIn entry.1 (list entry)) :
    path ∈ tree.entities.entries.flatMap list ↔
      ∃ entity, tree.entity? path.entity = some entity ∧ path ∈ list (path.entity, entity) := by
  rw [List.mem_flatMap]
  constructor
  · rintro ⟨⟨name, entity⟩, he, hp⟩
    obtain rfl : path.entity = name := hown _ path hp
    exact ⟨entity, OrderedMap.get?_eq_some_iff.mpr he, hp⟩
  · rintro ⟨entity, he, hp⟩
    exact ⟨_, OrderedMap.get?_eq_some_iff.mp he, hp⟩

end Path

namespace Tree

-- Trees whose entities have names without dots and brackets.
def Plain (tree : Tree) : Prop :=
  ∀ name ∈ tree.names, ∀ c ∈ name.toList, Path.startsAccessor c = false

-- The paths and the setters of the entities that take part in the graph.
def pathsOf (tree : Tree) (entry : String × Entity) : List Path :=
  if entry.2.reactive then tree.entityPaths entry.1 else []

def settersOf (entry : String × Entity) : List Path :=
  if entry.2.reactive then entry.2.config.setterPaths entry.1 else []

def reactivePaths (tree : Tree) : List Path := tree.entities.entries.flatMap tree.pathsOf

def setterPaths (tree : Tree) : List Path := tree.entities.entries.flatMap settersOf

-- All that can be referred to.
def knownPaths (config : Config) (tree : Tree) : List Path :=
  tree.allPaths ++ tree.setterPaths ++ config.functionPaths

-- What reading the entity of a path yields for the path, against all that can
-- be referred to.
def extracted (config : Config) (cache : Binding.Cache) (tree : Tree) (path : Path) :
    Option Dependencies :=
  (tree.entity? path.entity).bind fun entity =>
    (Binding.ofEntity config (fun key => decide (key ∈ tree.knownPaths config)) cache path.entity
      entity).1.get? path

-- The kind of node that a path is. A path of an entity is a node before a
-- setter is, and a setter before a function of the platform.
def nodeKind (config : Config) (cache : Binding.Cache) (tree : Tree) (path : Path) :
    Option NodeKind :=
  if path ∈ tree.reactivePaths then some (.ofPath path)
  else if path ∈ tree.setterPaths then some .setter
  else if path ∈ config.functionPaths then some .internal
  else if (tree.extracted config cache path).isSome then some (.ofPath path)
  else none

def accepts (config : Config) (cache : Binding.Cache) (tree : Tree) (path : Path) : Bool :=
  (tree.nodeKind config cache path).any NodeKind.acceptsDependencies

-- Whether reading a path yields a reference.
def Refers (config : Config) (cache : Binding.Cache) (tree : Tree) (path target : Path) : Prop :=
  ∃ found, tree.extracted config cache path = some found ∧ target ∈ found.references

-- Whether a container depends on a direct child by the configuration.
def Links (config : Config) (tree : Tree) (path child : Path) : Prop :=
  child.isChildOf path = true ∧ (config.linksAllChildren = true ∨
    ∃ entity, tree.entity? path.entity = some entity ∧ config.linksChildren entity.kind = true ∧
      child ∈ tree.keyPaths path.entity)

variable {config : Config} {cache : Binding.Cache} {known : Path → Bool} {tree : Tree}
  {path : Path} {entity : Entity} {name : String}

theorem allIn_pathsOf (tree : Tree) (entry : String × Entity) :
    Path.AllIn entry.1 (tree.pathsOf entry) := by
  unfold pathsOf
  split
  · exact tree.allIn_entityPaths entry.1
  · exact fun _ h => absurd h List.not_mem_nil

theorem allIn_settersOf (entry : String × Entity) : Path.AllIn entry.1 (settersOf entry) := by
  unfold settersOf
  split
  · exact EntityConfig.allIn_setterPaths _ _
  · exact fun _ h => absurd h List.not_mem_nil

theorem mem_reactivePaths : path ∈ tree.reactivePaths ↔
    ∃ entity, tree.entity? path.entity = some entity ∧ entity.reactive = true ∧
      path ∈ tree.entityPaths path.entity := by
  rw [reactivePaths, Path.mem_flatMap_entries tree.allIn_pathsOf]
  refine exists_congr fun entity => and_congr_right fun _ => ?_
  unfold pathsOf
  by_cases hr : entity.reactive = true <;> simp [hr]

theorem mem_setterPaths : path ∈ tree.setterPaths ↔
    ∃ entity, tree.entity? path.entity = some entity ∧ entity.reactive = true ∧
      path ∈ entity.config.setterPaths path.entity := by
  rw [setterPaths, Path.mem_flatMap_entries allIn_settersOf]
  refine exists_congr fun entity => and_congr_right fun _ => ?_
  unfold settersOf
  by_cases hr : entity.reactive = true <;> simp [hr]

theorem mem_allPaths_iff : path ∈ tree.allPaths ↔ path ∈ tree.entityPaths path.entity := by
  constructor
  · intro hp
    obtain ⟨name, _, hm⟩ := List.mem_flatMap.mp hp
    rwa [tree.allIn_entityPaths name path hm]
  · intro hp
    refine List.mem_flatMap.mpr ⟨path.entity, ?_, hp⟩
    unfold entityPaths at hp
    cases he : tree.entity? path.entity with
    | none =>
        rw [he] at hp
        exact absurd hp List.not_mem_nil
    | some entity => exact OrderedMap.mem_keys_iff.mpr ⟨entity, he⟩

-- An entity brings its paths and, if it takes part in the graph, its setters.
theorem mem_keyPaths_iff :
    path ∈ tree.keyPaths path.entity ↔ path ∈ tree.allPaths ∨ path ∈ tree.setterPaths := by
  rw [mem_allPaths_iff, mem_setterPaths]
  cases he : tree.entity? path.entity with
  | none => simp [keyPaths_of_none he, entityPaths, he]
  | some entity =>
      rw [keyPaths_of_entity? he, List.mem_append]
      refine or_congr Iff.rfl ⟨fun hp => ⟨entity, rfl, ?_, hp⟩, ?_⟩
      · by_contra hr
        rw [EntityConfig.setterPaths_of_not_reactive (by simpa using hr)] at hp
        exact absurd hp List.not_mem_nil
      · rintro ⟨found, hfound, _, hp⟩
        rwa [Option.some_inj.mp hfound]

theorem mem_knownPaths : path ∈ tree.knownPaths config ↔
    path ∈ tree.keyPaths path.entity ∨ path ∈ config.functionPaths := by
  rw [knownPaths, List.mem_append, List.mem_append, mem_keyPaths_iff]

theorem mem_knownPaths_of_mem_keyPaths {name : String} (h : path ∈ tree.keyPaths name) :
    path ∈ tree.knownPaths config := by
  refine mem_knownPaths.mpr (Or.inl ?_)
  rwa [tree.allIn_keyPaths name path h]

theorem Plain.ofEntity {name : String} {entity : Entity} (h : tree.Plain)
    (he : tree.entity? name = some entity) : (Path.ofEntity name).Plain :=
  h name (OrderedMap.mem_keys_iff.mpr ⟨entity, he⟩)

theorem Plain.of_mem_keyPaths {name : String} (h : tree.Plain) (hp : path ∈ tree.keyPaths name) :
    path.Plain := by
  obtain ⟨entity, he⟩ := exists_of_mem_keyPaths hp
  exact Path.plain_of_entity_eq (h.ofEntity he) (tree.allIn_keyPaths name path hp)

-- The setters of an entity are its children, and all else that it brings goes
-- back to the entity.
theorem rooted_keyPaths (tree : Tree) (name : String) : Path.Rooted (tree.keyPaths name) := by
  cases he : tree.entity? name with
  | none =>
      rw [keyPaths_of_none he]
      exact fun _ h => absurd h List.not_mem_nil
  | some entity =>
      have hpaths : tree.entityPaths name = (Path.ofEntity name).allBelow entity.value := by
        rw [entityPaths, he]
      rw [keyPaths_of_entity? he, hpaths]
      intro path hm above hp
      rw [List.mem_append] at hm ⊢
      rcases hm with hm | hm
      · exact Or.inl (Path.rooted_allBelow name entity.value path hm above hp)
      · unfold EntityConfig.setterPaths at hm
        split at hm
        · obtain ⟨setter, _, rfl⟩ := List.mem_map.mp hm
          rw [Path.childKey, Path.parent?_child] at hp
          cases hp
          exact Or.inl (Path.mem_allBelow_self _ _)
        · exact absurd hm List.not_mem_nil

-- Reading an entity, without a cache.
def yielded (config : Config) (known : Path → Bool) (tree : Tree) (path : Path) :
    Option Dependencies :=
  (tree.entity? path.entity).bind fun entity =>
    (Binding.readings config known path.entity entity).get? path

-- Entities outside the graph are not read.
theorem yielded_of_not_reactive {entity : Entity} (he : tree.entity? path.entity = some entity)
    (hr : entity.reactive = false) : tree.yielded config known path = none := by
  rw [yielded, he, Option.bind_some]
  by_contra hsome
  obtain ⟨found, hfound⟩ := Option.ne_none_iff_exists'.mp hsome
  have hreactive := Binding.reactive_of_mem_readings (OrderedMap.mem_keys_iff.mpr ⟨found, hfound⟩)
  rw [hr] at hreactive
  cases hreactive

theorem yielded_of_mem (h : tree.Plain) {entry : String × Entity}
    (he : entry ∈ tree.entities.entries)
    (hp : path ∈ (Binding.readings config known entry.1 entry.2).keys) :
    tree.yielded config known path = (Binding.readings config known entry.1 entry.2).get? path := by
  have hname : path.entity = entry.1 :=
    Binding.entity_of_mem_readings (h _ (List.mem_map_of_mem he)) hp
  have hentity : tree.entity? entry.1 = some entry.2 := OrderedMap.get?_eq_some_iff.mpr he
  rw [yielded, hname, hentity, Option.bind_some]

theorem mem_readPaths (h : tree.Plain) :
    path ∈ tree.readPaths config known ↔ (tree.yielded config known path).isSome = true := by
  constructor
  · intro hp
    obtain ⟨entry, he, hk⟩ := List.mem_flatMap.mp hp
    rw [yielded_of_mem h he hk]
    exact OrderedMap.contains_iff.mpr hk
  · intro hp
    obtain ⟨found, hfound⟩ := Option.isSome_iff_exists.mp hp
    obtain ⟨entity, he, hget⟩ := Option.bind_eq_some_iff.mp hfound
    exact List.mem_flatMap.mpr
      ⟨_, OrderedMap.get?_eq_some_iff.mp he, OrderedMap.mem_keys_iff.mpr ⟨found, hget⟩⟩

theorem entries_readings (h : tree.Plain) {entry : String × Entity}
    (he : entry ∈ tree.entities.entries) :
    (Binding.readings config known entry.1 entry.2).entries =
      (Binding.readings config known entry.1 entry.2).keys.map fun path =>
        (path, (tree.yielded config known path).getD ∅) := by
  rw [OrderedMap.keys, List.map_map]
  refine ((List.map_congr_left fun found hf => ?_).trans (List.map_id _)).symm
  rw [Function.comp_apply, yielded_of_mem h he (List.mem_map_of_mem hf),
    OrderedMap.get?_eq_some_iff.mpr hf]
  rfl

end Tree

namespace Built

variable {config : Config} {cache : Binding.Cache} {tree first second : Tree} {path target : Path}
  {graph : Graph} {i j : Nat}

section Kinds

-- The nodes that an entity brings, in order.
def seedsOf (tree : Tree) (entry : String × Entity) : List (Path × NodeKind) :=
  ((tree.pathsOf entry).map fun path => (path, NodeKind.ofPath path)) ++
    (Tree.settersOf entry).map fun path => (path, .setter)

theorem kind?_addEntity {state : Graph × Keys} (h : state.1.Consistent) (tree : Tree)
    (entry : String × Entity) (path : Path) : (addEntity tree state entry).1.Consistent ∧
      (addEntity tree state entry).1.kind? path =
        (state.1.kind? path).or (OrderedMap.find? (seedsOf tree entry) path) := by
  unfold addEntity seedsOf Tree.pathsOf Tree.settersOf
  dsimp only
  split
  · refine ⟨(h.addEntries true _).addEntries true _, ?_⟩
    show (Graph.addEntries (Graph.addEntries _ _ true).1 _ true).1.kind? path = _
    rw [(h.addEntries true _).kind?_addEntries, h.kind?_addEntries, Option.or_assoc,
      OrderedMap.find?_append]
  · exact ⟨h, by simp [OrderedMap.find?]⟩

-- By induction on the entities. A path that is a setter of one is no path of
-- another.
theorem find?_seeds {entries : List (String × Entity)} (h : (entries.map Prod.fst).Nodup)
    (tree : Tree) (path : Path) :
    OrderedMap.find? (entries.flatMap (seedsOf tree)) path =
      if path ∈ entries.flatMap tree.pathsOf then some (.ofPath path)
      else if path ∈ entries.flatMap Tree.settersOf then some .setter
      else none := by
  induction entries with
  | nil => rfl
  | cons entry rest ih =>
      obtain ⟨hnew, hrest⟩ := List.nodup_cons.mp h
      simp only [List.flatMap_cons, OrderedMap.find?_append, ih hrest, seedsOf,
        OrderedMap.find?_map, List.mem_append]
      by_cases hp : path ∈ tree.pathsOf entry
      · simp [hp]
      · by_cases hs : path ∈ Tree.settersOf entry
        · have hother : path ∉ rest.flatMap tree.pathsOf := by
            intro hm
            obtain ⟨other, ho, hm⟩ := List.mem_flatMap.mp hm
            refine hnew (List.mem_map.mpr ⟨other, ho, ?_⟩)
            rw [← tree.allIn_pathsOf other path hm, ← Tree.allIn_settersOf entry path hs]
          simp [hp, hs, hother]
        · rw [if_neg hp, if_neg hs, Option.none_or, Option.none_or]
          simp only [or_iff_right hp, or_iff_right hs]

theorem kind?_nodes : (nodes config tree).1.kind? path =
    if path ∈ tree.reactivePaths then some (.ofPath path)
    else if path ∈ tree.setterPaths then some .setter
    else if path ∈ config.functionPaths then some .internal
    else none := by
  have hfold : ∀ (entries : List (String × Entity)) (state : Graph × Keys),
      state.1.Consistent → (entries.foldl (addEntity tree) state).1.Consistent ∧
        (entries.foldl (addEntity tree) state).1.kind? path =
          (state.1.kind? path).or (OrderedMap.find? (entries.flatMap (seedsOf tree)) path) := by
    intro entries
    induction entries with
    | nil => exact fun state h => ⟨h, by simp [OrderedMap.find?]⟩
    | cons entry rest ih =>
        intro state h
        obtain ⟨hc, hk⟩ := kind?_addEntity h tree entry path
        obtain ⟨hrest, hkind⟩ := ih _ hc
        refine ⟨hrest, hkind.trans ?_⟩
        rw [hk, Option.or_assoc, List.flatMap_cons, OrderedMap.find?_append]
  obtain ⟨hc, hk⟩ := hfold tree.entities.entries (∅, ∅) .empty
  have hnone : (∅ : Graph).kind? path = none := rfl
  have hseeds := find?_seeds tree.entities.nodup tree path
  show (Graph.addNodesOfKind _ config.functionPaths .internal true).1.kind? path = _
  rw [Graph.addNodesOfKind, hc.kind?_addEntries, hk, hnone, Option.none_or, hseeds,
    OrderedMap.find?_map]
  unfold Tree.reactivePaths Tree.setterPaths
  split
  · rfl
  · split <;> rfl

end Kinds

section Bound

-- What a build finds at each path that it reads.
def yielded (config : Config) (tree : Tree) (path : Path) : Option Dependencies :=
  tree.yielded config (nodes config tree).2.contains path

def declared (config : Config) (tree : Tree) (path : Path) : List Path :=
  ((yielded config tree path).getD ∅).references.toList

theorem known_nodes (config : Config) (tree : Tree) :
    (nodes config tree).2.contains = fun path => decide (path ∈ tree.knownPaths config) := by
  funext path
  rw [Bool.eq_iff_iff, Std.TreeSet.contains_iff_mem, decide_eq_true_iff, mem_keys_nodes,
    Tree.mem_knownPaths]

theorem extracted_eq (hs : cache.Sound) :
    tree.extracted config cache path = yielded config tree path := by
  unfold Tree.extracted yielded Tree.yielded
  rw [known_nodes]
  congr 1
  funext entity
  rw [(Binding.ofEntity_eq config _ path.entity entity hs).1]

theorem mem_foundPaths (h : tree.Plain) :
    path ∈ foundPaths config tree ↔ (yielded config tree path).isSome = true :=
  Tree.mem_readPaths h

-- A tree of plain names is read path by path.
theorem bound_of_plain (config : Config) (hs : cache.Sound) (h : tree.Plain) :
    ∃ cache', bound config cache tree =
      { ((foundPaths config tree).map fun path =>
          (path, (yielded config tree path).getD ∅)).foldl addReading
            ⟨(nodes config tree).1, (nodes config tree).2, ∅, cache⟩ with cache := cache' } := by
  obtain ⟨cache', he⟩ := foldl_addBindings config tree.entities.entries
    ⟨(nodes config tree).1, (nodes config tree).2, ∅, cache⟩ hs
  refine ⟨cache', he.trans ?_⟩
  have hentries : (tree.entities.entries.flatMap fun entry =>
      (Binding.readings config (nodes config tree).2.contains entry.1 entry.2).entries) =
        (foundPaths config tree).map fun path => (path, (yielded config tree path).getD ∅) := by
    rw [foundPaths, Tree.readPaths, List.map_flatMap]
    exact List.flatMap_congr fun entry hentry => Tree.entries_readings h hentry
  dsimp only
  rw [hentries]

theorem graph_bound (hs : cache.Sound) (h : tree.Plain) : (bound config cache tree).graph =
    (nodes config tree).1.declareAll (declared config tree) (foundPaths config tree) := by
  obtain ⟨cache', he⟩ := bound_of_plain config hs h
  rw [he, graph_foldl_addReading]
  rfl

theorem consistent_bound (config : Config) (hs : cache.Sound) (h : tree.Plain) :
    (bound config cache tree).graph.Consistent := by
  rw [graph_bound hs h]
  exact (well_nodes config tree).1.declareAll _ _

-- Every path declares what is found at it.
theorem wired_bound (hs : cache.Sound) (h : tree.Plain) :
    Graph.Wired false (declared config tree) (bound config cache tree).graph := by
  obtain ⟨hc, hw⟩ := well_nodes config tree
  have hall := hw.declareAll hc (declared config tree) (foundPaths config tree)
  have hsame : Graph.renewed (fun _ => []) (declared config tree) (foundPaths config tree) =
      declared config tree := by
    funext path
    unfold Graph.renewed
    split
    · rfl
    · next hp =>
      have hnone : yielded config tree path = none := by
        simpa [mem_foundPaths h] using hp
      rw [declared, hnone]
      rfl
  rw [graph_bound hs h]
  rwa [hsame] at hall

theorem kind?_bound (hs : cache.Sound) (h : tree.Plain) :
    (bound config cache tree).graph.kind? path = tree.nodeKind config cache path := by
  rw [graph_bound hs h, (well_nodes config tree).1.kind?_declareAll, kind?_nodes]
  unfold Tree.nodeKind
  rw [extracted_eq hs]
  simp only [mem_foundPaths h]
  split
  · rfl
  · split
    · rfl
    · split <;> rfl

end Bound

section Linked

-- What is linked if containers of some kinds only are.
def linkedPaths (config : Config) (tree : Tree) (entry : String × Entity) : List Path :=
  if entry.2.reactive && config.linksChildren entry.2.kind then tree.keyPaths entry.1 else []

theorem linkEntity_eq {entry : String × Entity} (he : tree.entity? entry.1 = some entry.2) :
    linkEntity config tree graph entry = (graph.linkAbove (linkedPaths config tree entry)).1 := by
  unfold linkEntity linkedPaths
  dsimp only
  split
  · rw [Tree.keyPaths_of_entity? he]
  · rfl

theorem rooted_linkedPaths (config : Config) (tree : Tree) (entry : String × Entity) :
    Path.Rooted (linkedPaths config tree entry) := by
  unfold linkedPaths
  split
  · exact tree.rooted_keyPaths entry.1
  · exact fun _ h => absurd h List.not_mem_nil

theorem linksChildren_foldl_linkEntity {entries : List (String × Entity)}
    (he : ∀ entry ∈ entries, tree.entity? entry.1 = some entry.2) (h : graph.Consistent) :
    Graph.LinksChildren graph (entries.foldl (linkEntity config tree) graph) :=
  List.foldlRecOn entries _ (motive := fun now => Graph.LinksChildren graph now) (.refl graph)
    fun now hl entry hm => by
      rw [linkEntity_eq (he entry hm)]
      exact hl.trans ((hl.consistent h).linksChildren_linkAbove _)

theorem reads_foldl_linkEntity {entries : List (String × Entity)}
    (he : ∀ entry ∈ entries, tree.entity? entry.1 = some entry.2) (h : graph.Consistent) :
    (entries.foldl (linkEntity config tree) graph).Reads i j ↔ graph.Reads i j ∨
      graph.Contains i j ∧
        ∃ path ∈ entries.flatMap (linkedPaths config tree), graph.path? j = some path := by
  induction entries generalizing graph with
  | nil => simp
  | cons entry rest ih =>
      obtain ⟨hentry, hrest⟩ := List.forall_mem_cons.mp he
      have hl := h.linksChildren_linkAbove (linkedPaths config tree entry)
      rw [List.foldl_cons, linkEntity_eq hentry, ih hrest (hl.consistent h),
        h.reads_linkAbove_iff (rooted_linkedPaths config tree entry),
        Graph.contains_congr hl.nodes, hl.nodes.path?, List.flatMap_cons, or_assoc, ← and_or_left]
      simp only [List.mem_append, or_and_right, exists_or]

theorem linksChildren_linkContainers (config : Config) (tree : Tree) (h : graph.Consistent) :
    Graph.LinksChildren graph (linkContainers config tree graph) := by
  unfold linkContainers
  split
  · exact h.linksChildren_linkAll
  · exact linksChildren_foldl_linkEntity (fun entry he => OrderedMap.get?_eq_some_iff.mpr he) h

theorem reads_linkContainers (h : graph.Consistent) :
    (linkContainers config tree graph).Reads i j ↔ graph.Reads i j ∨ graph.Contains i j ∧
      (config.linksAllChildren = true ∨
        ∃ path ∈ tree.entities.entries.flatMap (linkedPaths config tree),
          graph.path? j = some path) := by
  unfold linkContainers
  by_cases hall : config.linksAllChildren = true
  · rw [if_pos hall, h.reads_linkAll]
    simp only [hall, true_or, and_true]
  · rw [if_neg hall, reads_foldl_linkEntity (fun entry he => OrderedMap.get?_eq_some_iff.mpr he) h]
    simp only [hall, Bool.false_eq_true, false_or]

end Linked

section Outcome

-- What a build of a tree is to return.
structure Specified (config : Config) (cache : Binding.Cache) (tree : Tree) (built : Built) :
    Prop where
  keys : ∀ path, path ∈ built.keys ↔ path ∈ tree.knownPaths config
  nodes : ∀ path, built.graph.contains path = true ↔
    path ∈ tree.reactivePaths ∨ path ∈ tree.setterPaths ∨ path ∈ config.functionPaths ∨
      (tree.extracted config cache path).isSome = true
  kinds : ∀ path, built.graph.kind? path = tree.nodeKind config cache path
  pending : ∀ path target, target ∈ built.graph.pendingOf path ↔
    tree.Refers config cache path target ∧ tree.accepts config cache path = true ∧
      built.graph.contains target = false
  live : ∀ path target, target ∈ built.graph.dependencies path ↔
    built.graph.contains target = true ∧ tree.accepts config cache path = true ∧
      (tree.Refers config cache path target ∨ tree.Links config path target)
  errors : ∀ path errors, built.errors.get? path = some errors ↔
    errors ≠ [] ∧ ∃ found, tree.extracted config cache path = some found ∧ found.errors = errors

-- Builds that return the same sets.
structure SameOutcome (first second : Built) : Prop where
  keys : ∀ path, path ∈ second.keys ↔ path ∈ first.keys
  kinds : ∀ path, second.graph.kind? path = first.graph.kind? path
  pending : ∀ path target,
    target ∈ second.graph.pendingOf path ↔ target ∈ first.graph.pendingOf path
  live : ∀ path target,
    target ∈ second.graph.dependencies path ↔ target ∈ first.graph.dependencies path
  errors : ∀ path, second.errors.get? path = first.errors.get? path

theorem isSome_nodeKind : (tree.nodeKind config cache path).isSome = true ↔
    path ∈ tree.reactivePaths ∨ path ∈ tree.setterPaths ∨ path ∈ config.functionPaths ∨
      (tree.extracted config cache path).isSome = true := by
  unfold Tree.nodeKind
  by_cases hr : path ∈ tree.reactivePaths
  · simp [hr]
  · by_cases hs : path ∈ tree.setterPaths
    · simp [hr, hs]
    · by_cases hf : path ∈ config.functionPaths
      · simp [hr, hs, hf]
      · simp [hr, hs, hf]

theorem refers_iff (hs : cache.Sound) :
    tree.Refers config cache path target ↔ target ∈ declared config tree path := by
  unfold Tree.Refers declared
  rw [extracted_eq hs, OrderedSet.mem_toList]
  cases yielded config tree path with
  | none => exact ⟨fun ⟨_, h, _⟩ => (Option.some_ne_none _ h.symm).elim,
      fun h => absurd h (OrderedSet.not_mem_empty target)⟩
  | some found => simp

theorem ne_of_mem_declared (h : target ∈ declared config tree path) : target ≠ path := by
  unfold declared at h
  cases hy : yielded config tree path with
  | none =>
      rw [hy] at h
      exact absurd h List.not_mem_nil
  | some found =>
      rw [hy] at h
      obtain ⟨entity, _, hget⟩ := Option.bind_eq_some_iff.mp hy
      exact Binding.ne_of_mem_references_readings hget (OrderedSet.mem_toList.mp h)

-- Nodes below the entity of a name come from the entity of this name, and only
-- if it takes part in the graph.
theorem reactive_of_nodeKind {entity : Entity} (hs : cache.Sound)
    (he : tree.entity? path.entity = some entity) (hdepth : path.isEntity = false)
    (hn : (tree.nodeKind config cache path).isSome = true) : entity.reactive = true := by
  rcases isSome_nodeKind.mp hn with hp | hp | hp | hp
  · obtain ⟨found, hfound, hr, _⟩ := Tree.mem_reactivePaths.mp hp
    rwa [Option.some_inj.mp (he.symm.trans hfound)]
  · obtain ⟨found, hfound, hr, _⟩ := Tree.mem_setterPaths.mp hp
    rwa [Option.some_inj.mp (he.symm.trans hfound)]
  · obtain ⟨function, _, rfl⟩ := List.mem_map.mp hp
    cases hdepth
  · rw [extracted_eq hs] at hp
    obtain ⟨found, hfound⟩ := Option.isSome_iff_exists.mp hp
    obtain ⟨other, ho, hget⟩ := Option.bind_eq_some_iff.mp hfound
    rw [Option.some_inj.mp (he.symm.trans ho)]
    exact Binding.reactive_of_mem_readings (OrderedMap.mem_keys_iff.mpr ⟨found, hget⟩)

theorem isEntity_of_isChildOf (h : target.isChildOf path = true) : target.isEntity = false := by
  have := Path.depth_of_parent (Path.isChildOf_iff.mp h)
  cases hs : target.segments with
  | nil => simp [Path.depth, hs] at this
  | cons segment rest => simp [Path.isEntity, hs]

-- What is linked by kinds, by the name of the entity.
theorem mem_linkedPaths_iff (hs : cache.Sound) (hchild : target.isChildOf path = true)
    (hn : (tree.nodeKind config cache target).isSome = true) :
    target ∈ tree.entities.entries.flatMap (linkedPaths config tree) ↔
      ∃ entity, tree.entity? path.entity = some entity ∧
        config.linksChildren entity.kind = true ∧ target ∈ tree.keyPaths path.entity := by
  have hown : ∀ entry, Path.AllIn entry.1 (linkedPaths config tree entry) := by
    intro entry
    unfold linkedPaths
    split
    · exact tree.allIn_keyPaths entry.1
    · exact fun _ h => absurd h List.not_mem_nil
  rw [Path.mem_flatMap_entries hown, Path.entity_of_isChildOf hchild]
  refine exists_congr fun entity => and_congr_right fun he => ?_
  have hr := reactive_of_nodeKind hs he (isEntity_of_isChildOf hchild) hn
  unfold linkedPaths
  by_cases hk : config.linksChildren entity.kind = true <;> simp [hr, hk]

-- Reading adds no keys.
theorem mem_keys_ofTree (hs : cache.Sound) :
    path ∈ (ofTree config cache tree).keys ↔ path ∈ tree.knownPaths config := by
  obtain ⟨cache', he⟩ := foldl_addBindings config tree.entities.entries
    ⟨(nodes config tree).1, (nodes config tree).2, ∅, cache⟩ hs
  rw [ofTree_eq, bound, he, keys_foldl_addReading, Tree.mem_knownPaths]
  exact mem_keys_nodes

theorem contains_foldl_addReading {built : Built} {entries : List (Path × Binding.Dependencies)} :
    (entries.foldl addReading built).graph.contains path = true ↔
      built.graph.contains path = true ∨ path ∈ entries.map Prod.fst := by
  induction entries generalizing built with
  | nil => simp
  | cons entry rest ih =>
      rw [List.foldl_cons, ih, List.map_cons, List.mem_cons, ← or_assoc]
      exact or_congr Graph.contains_addDependency Iff.rfl

-- The nodes of a build, whatever the names of its entities are.
theorem contains_ofTree_found (hs : cache.Sound) :
    (ofTree config cache tree).graph.contains path = true ↔ path ∈ tree.reactivePaths ∨
      path ∈ tree.setterPaths ∨ path ∈ config.functionPaths ∨ path ∈ foundPaths config tree := by
  have hc : (bound config cache tree).graph.Consistent :=
    (well_foldl_addBindings config hs tree).1.consistent
  obtain ⟨cache', he⟩ := foldl_addBindings config tree.entities.entries
    ⟨(nodes config tree).1, (nodes config tree).2, ∅, cache⟩ hs
  rw [ofTree_eq]
  dsimp only
  rw [(linksChildren_linkContainers config tree hc).nodes.contains, bound, he]
  dsimp only
  rw [contains_foldl_addReading, ← (well_nodes config tree).1.isSome_kind?, kind?_nodes]
  have hfound : path ∈ (tree.entities.entries.flatMap fun entry =>
      (Binding.readings config (nodes config tree).2.contains entry.1 entry.2).entries).map
        Prod.fst ↔ path ∈ foundPaths config tree := by
    rw [List.map_flatMap]
    rfl
  rw [hfound, ← or_assoc, ← or_assoc, or_assoc (a := path ∈ tree.reactivePaths)]
  refine or_congr ?_ Iff.rfl
  by_cases hr : path ∈ tree.reactivePaths
  · simp [hr]
  · by_cases hset : path ∈ tree.setterPaths <;> simp [hr, hset]

section Parts

variable (hs : cache.Sound) (h : tree.Plain)

include hs h

theorem linksChildren_bound (config : Config) :
    Graph.LinksChildren (bound config cache tree).graph (ofTree config cache tree).graph := by
  rw [ofTree_eq]
  exact linksChildren_linkContainers config tree (consistent_bound config hs h)

theorem consistent_ofTree (config : Config) : (ofTree config cache tree).graph.Consistent :=
  (linksChildren_bound hs h config).consistent (consistent_bound config hs h)

theorem kind?_ofTree :
    (ofTree config cache tree).graph.kind? path = tree.nodeKind config cache path := by
  rw [(linksChildren_bound hs h config).nodes.kind?, kind?_bound hs h]

theorem contains_ofTree_iff : (ofTree config cache tree).graph.contains path = true ↔
    path ∈ tree.reactivePaths ∨ path ∈ tree.setterPaths ∨ path ∈ config.functionPaths ∨
      (tree.extracted config cache path).isSome = true := by
  rw [contains_ofTree_found hs, mem_foundPaths h, extracted_eq hs]

theorem accepts_iff (hi : (ofTree config cache tree).graph.path? i = some path) :
    (ofTree config cache tree).graph.Accepts i ↔ tree.accepts config cache path = true := by
  rw [(consistent_ofTree hs h config).accepts_iff_kind? hi, kind?_ofTree hs h]
  rfl

theorem exists_of_accepts (ha : tree.accepts config cache path = true) :
    ∃ i, (ofTree config cache tree).graph.path? i = some path ∧
      (ofTree config cache tree).graph.Accepts i := by
  obtain ⟨kind, hkind, _⟩ := (Option.any_eq_true _ _).mp ha
  rw [← kind?_ofTree hs h] at hkind
  obtain ⟨i, hl⟩ := (consistent_ofTree hs h config).kind?_eq_some_iff.mp hkind
  exact ⟨i, Graph.path?_of_label hl, (accepts_iff hs h (Graph.path?_of_label hl)).mpr ha⟩

theorem awaits_ofTree (hi : (ofTree config cache tree).graph.path? i = some path)
    (ha : (ofTree config cache tree).graph.Accepts i) :
    (ofTree config cache tree).graph.Awaits i target ↔
      target ∈ declared config tree path ∧
        (ofTree config cache tree).graph.id? target = none := by
  have hl := linksChildren_bound hs h config
  rw [hl.nodes.path?] at hi
  rw [hl.nodes.accepts] at ha
  rw [hl.waiting.awaits, hl.nodes.id?, (wired_bound hs h).awaits i target path hi ha]
  exact and_congr_right fun hm => and_iff_right (ne_of_mem_declared hm)

theorem reads_ofTree (hi : (ofTree config cache tree).graph.path? i = some path)
    (ha : (ofTree config cache tree).graph.Accepts i)
    (hj : (ofTree config cache tree).graph.path? j = some target) :
    (ofTree config cache tree).graph.Reads i j ↔
      target ∈ declared config tree path ∨ tree.Links config path target := by
  have hb := consistent_bound config hs h
  have hl := linksChildren_bound hs h config
  have hn : (tree.nodeKind config cache target).isSome = true := by
    rw [← kind?_ofTree hs h, (consistent_ofTree hs h config).isSome_kind?]
    exact (consistent_ofTree hs h config).contains_iff.mpr ⟨j, hj⟩
  rw [hl.nodes.path?] at hi hj
  rw [hl.nodes.accepts] at ha
  have hdeclared : (∃ other ∈ declared config tree path, other ≠ path ∧
      (bound config cache tree).graph.id? other = some j) ↔
        target ∈ declared config tree path := by
    simp only [hb.id?_iff, hj, Option.some_inj]
    refine ⟨fun ⟨other, hm, _, he⟩ => he ▸ hm, fun hm => ⟨target, hm, ne_of_mem_declared hm, rfl⟩⟩
  have hcontains : (bound config cache tree).graph.Contains i j ↔
      target.isChildOf path = true := by
    rw [Graph.Contains, Graph.isStructural, hi, hj]
    exact and_iff_left ha
  rw [ofTree_eq]
  dsimp only
  rw [reads_linkContainers hb, (wired_bound hs h).reads i j path hi ha, hdeclared, hcontains]
  simp only [Bool.false_eq_true, false_and, or_false, hj, Option.some_inj, exists_eq_right']
  refine or_congr Iff.rfl (and_congr_right fun hchild => or_congr Iff.rfl ?_)
  exact mem_linkedPaths_iff hs hchild hn

theorem mem_pendingOf_ofTree : target ∈ (ofTree config cache tree).graph.pendingOf path ↔
    tree.Refers config cache path target ∧ tree.accepts config cache path = true ∧
      (ofTree config cache tree).graph.contains target = false := by
  have hc := consistent_ofTree hs h config
  rw [hc.mem_pendingOf, refers_iff hs, Graph.contains, Option.isSome_eq_false_iff,
    Option.isNone_iff_eq_none]
  constructor
  · rintro ⟨i, hi, hw⟩
    have ha := hc.awaits_accepts i target hw
    obtain ⟨hm, hnone⟩ := (awaits_ofTree hs h hi ha).mp hw
    exact ⟨hm, (accepts_iff hs h hi).mp ha, hnone⟩
  · rintro ⟨hm, haccepts, hnone⟩
    obtain ⟨i, hi, ha⟩ := exists_of_accepts hs h haccepts
    exact ⟨i, hi, (awaits_ofTree hs h hi ha).mpr ⟨hm, hnone⟩⟩

theorem mem_dependencies_ofTree : target ∈ (ofTree config cache tree).graph.dependencies path ↔
    (ofTree config cache tree).graph.contains target = true ∧
      tree.accepts config cache path = true ∧
        (tree.Refers config cache path target ∨ tree.Links config path target) := by
  have hc := consistent_ofTree hs h config
  rw [hc.mem_dependencies, refers_iff hs, hc.contains_iff]
  constructor
  · rintro ⟨i, j, hi, hr, hj⟩
    have ha := hc.reads_accepts i j hr
    exact ⟨⟨j, hj⟩, (accepts_iff hs h hi).mp ha, (reads_ofTree hs h hi ha hj).mp hr⟩
  · rintro ⟨⟨j, hj⟩, haccepts, hr⟩
    obtain ⟨i, hi, ha⟩ := exists_of_accepts hs h haccepts
    exact ⟨i, j, hi, (reads_ofTree hs h hi ha hj).mpr hr, hj⟩

theorem get?_errors_ofTree {errors : List DependencyError} :
    (ofTree config cache tree).errors.get? path = some errors ↔ errors ≠ [] ∧
      ∃ found, tree.extracted config cache path = some found ∧ found.errors = errors := by
  obtain ⟨cache', he⟩ := bound_of_plain config hs h
  rw [ofTree_eq, he, extracted_eq hs]
  dsimp only
  rw [errors_foldl_addReading, OrderedMap.get?_empty, Option.ite_none_right_eq_some,
    mem_foundPaths h]
  cases yielded config tree path with
  | none => simp
  | some found =>
      constructor
      · rintro ⟨⟨_, hne⟩, he⟩
        cases he
        exact ⟨hne, found, rfl, rfl⟩
      · rintro ⟨hne, _, hf, rfl⟩
        cases hf
        exact ⟨⟨rfl, hne⟩, rfl⟩

-- The closed form of a build.
theorem specified_ofTree : Specified config cache tree (ofTree config cache tree) where
  keys _ := mem_keys_ofTree hs
  nodes _ := contains_ofTree_iff hs h
  kinds _ := kind?_ofTree hs h
  pending _ _ := mem_pendingOf_ofTree hs h
  live _ _ := mem_dependencies_ofTree hs h
  errors _ _ := get?_errors_ofTree hs h

end Parts

section Order

variable (h : ∀ name, second.entity? name = first.entity? name)

include h

theorem mem_knownPaths_congr :
    path ∈ second.knownPaths config ↔ path ∈ first.knownPaths config := by
  rw [Tree.mem_knownPaths, Tree.mem_knownPaths, Tree.keyPaths_congr (h path.entity)]

variable {others : Binding.Cache} (hs : cache.Sound) (ho : others.Sound)

include hs ho

theorem extracted_congr :
    second.extracted config others path = first.extracted config cache path := by
  have hknown : (nodes config second).2.contains = (nodes config first).2.contains := by
    simp only [known_nodes, mem_knownPaths_congr h]
  rw [extracted_eq hs, extracted_eq ho, yielded, yielded, Tree.yielded, Tree.yielded, hknown, h]

theorem nodeKind_congr :
    second.nodeKind config others path = first.nodeKind config cache path := by
  unfold Tree.nodeKind
  simp only [extracted_congr h hs ho, Tree.mem_reactivePaths, Tree.mem_setterPaths, h,
    Tree.entityPaths]

theorem refers_congr : second.Refers config others path target ↔
    first.Refers config cache path target := by
  unfold Tree.Refers
  rw [extracted_congr h hs ho]

omit hs ho in
theorem links_congr :
    second.Links config path target ↔ first.Links config path target := by
  unfold Tree.Links
  rw [h, Tree.keyPaths_congr (h path.entity)]

end Order

theorem Specified.contains {built : Built} (h : Specified config cache tree built) :
    built.graph.contains path = (tree.nodeKind config cache path).isSome := by
  rw [Bool.eq_iff_iff, h.nodes, isSome_nodeKind]

theorem Specified.sameOutcome {others : Binding.Cache} {built other : Built}
    (h : Specified config cache first built) (k : Specified config others second other)
    (hs : cache.Sound) (ho : others.Sound)
    (hsame : ∀ name, second.entity? name = first.entity? name) : SameOutcome built other where
  keys path := by rw [h.keys, k.keys, mem_knownPaths_congr hsame]
  kinds path := by rw [h.kinds, k.kinds, nodeKind_congr hsame hs ho]
  pending path target := by
    rw [h.pending, k.pending, h.contains, k.contains, Tree.accepts, Tree.accepts,
      refers_congr hsame hs ho, nodeKind_congr hsame hs ho, nodeKind_congr hsame hs ho]
  live path target := by
    rw [h.live, k.live, h.contains, k.contains, Tree.accepts, Tree.accepts,
      refers_congr hsame hs ho, links_congr hsame, nodeKind_congr hsame hs ho,
      nodeKind_congr hsame hs ho]
  errors path := by
    ext errors
    rw [h.errors, k.errors, extracted_congr hsame hs ho]

theorem entity?_of_perm (h : second.entities.entries.Perm first.entities.entries)
    (name : String) : second.entity? name = first.entity? name := by
  ext entity
  show OrderedMap.get? _ _ = _ ↔ OrderedMap.get? _ _ = _
  rw [OrderedMap.get?_eq_some_iff, OrderedMap.get?_eq_some_iff]
  exact h.mem_iff

-- A build returns what its closed form says, and so the same for every order
-- of the entities.
theorem specified_in_any_order (config : Config) (hs : cache.Sound) (h : tree.Plain) :
    Specified config cache tree (ofTree config cache tree) ∧
      ∀ (others : Binding.Cache) (second : Tree), others.Sound →
        second.entities.entries.Perm tree.entities.entries →
          SameOutcome (ofTree config cache tree) (ofTree config others second) := by
  refine ⟨specified_ofTree hs h, fun others second ho hperm => ?_⟩
  have hplain : second.Plain := fun name hname => h name ((hperm.map Prod.fst).mem_iff.mp hname)
  exact (specified_ofTree hs h).sameOutcome (specified_ofTree ho hplain) hs ho
    (entity?_of_perm hperm)

-- A reader with a setter, and an entity of another kind that it reads.
def reader : Entity :=
  ((Entity.ofKind .widget (.obj [("text", .str "{{ Source.data }}")])).withBindings
    ["text"]).withSetter "setText" "text"

def source : Entity := .ofKind .action (.obj [("data", .str "ready")])

def linksWidgets : Config := { Config.standard with parentEdges := .ofList [.widget] }

theorem plain_reader_source :
    (((∅ : Tree).insert "Reader" reader).insert "Source" source).Plain := by
  intro name hname
  have hname : name ∈ ["Reader", "Source"] := hname
  rcases List.mem_pair.mp hname with rfl | rfl <;> simp [Path.startsAccessor]

-- A reference to an entity that comes later is live, and the reader is linked
-- to its setter.
theorem specified_forward_reference :
    let forward := ((∅ : Tree).insert "Reader" reader).insert "Source" source
    let backward := ((∅ : Tree).insert "Source" source).insert "Reader" reader
    let built := ofTree linksWidgets (.ofCapacity 8) forward
    built.graph.dependencies ⟨"Reader", [.key "text"]⟩ = [⟨"Source", [.key "data"]⟩] ∧
      ⟨"Reader", [.key "setText"]⟩ ∈ built.graph.dependencies (.ofEntity "Reader") ∧
      built.graph.dependencies (.ofEntity "Source") = [] ∧
      Specified linksWidgets (.ofCapacity 8) forward built ∧
      SameOutcome built (ofTree linksWidgets (.ofCapacity 4) backward) := by
  have hall := specified_in_any_order linksWidgets (Binding.Cache.sound_ofCapacity 8)
    plain_reader_source
  exact ⟨by decide +kernel, by decide +kernel, by decide +kernel, hall.1,
    hall.2 _ _ (Binding.Cache.sound_ofCapacity 4) (.swap _ _ _)⟩

end Outcome

end Built

end Recalc
