import Recalc.Proofs.Session.Editing
import Recalc.Proofs.Session.Lacking

namespace Recalc

open Binding (Dependencies)

namespace Tree

theorem rooted_entityPaths (tree : Tree) (name : String) : Path.Rooted (tree.entityPaths name) := by
  unfold entityPaths
  split
  · exact Path.rooted_allBelow name _
  · exact fun _ hp => absurd hp List.not_mem_nil

end Tree

namespace Batch

variable {config : Config} {former tree : Tree} {batch : Batch} {kind : Kind} {entity : Entity}
  {name : String} {names : List String} {path : Path} {start : Graph} {keys : Keys}
  {found before now : Path → Dependencies} {entries : List (Path × NodeKind)}

section Bring

-- Paths that come in, as nodes and as what can be referred to.
def bring (config : Config) (kind : Kind) (nodeKind : Path → NodeKind) (paths : List Path)
    (batch : Batch) : Batch :=
  grow config kind (paths.map fun path => (path, nodeKind path)) (batch.addKeys paths)

-- A whole entity brings its paths, and then its setters.
theorem growNew_ofEntity (he : tree.entity? name = some entity) (value : Option Value) :
    growNew config tree entity (.ofEntity name) value batch =
      bring config entity.kind (fun _ => .setter) (entity.config.setterPaths name)
        (bring config entity.kind .ofPath (tree.entityPaths name) batch) := by
  unfold growNew growSetters
  dsimp only
  rw [newPaths_ofEntity he, if_pos (by rw [Path.isEntity_ofEntity, Bool.true_or])]
  rfl

variable {nodeKind : Path → NodeKind} {paths : List Path}

-- What comes in anew is resolved.
theorem errors_bring : (bring config kind nodeKind paths batch).errors =
    (batch.graph.addEntries (paths.map fun path => (path, nodeKind path)) true).2.foldl
      ErrorStore.resolveReference batch.errors := by
  unfold bring grow recordAdded
  split
  · next hempty =>
    have hnil := List.isEmpty_iff.mp hempty
    rw [addKeys] at hnil
    rw [hnil]
    rfl
  · rfl

variable (h : batch.graph.Consistent)

include h

theorem consistent_bring : (bring config kind nodeKind paths batch).graph.Consistent :=
  consistent_grow (by exact h) config kind _

theorem contains_bring : (bring config kind nodeKind paths batch).graph.contains path = true ↔
    batch.graph.contains path = true ∨ path ∈ paths := by
  unfold bring
  rw [contains_grow (by exact h), List.map_map]
  simp [addKeys, Function.comp_def]

theorem kind?_bring : (bring config kind nodeKind paths batch).graph.kind? path =
    (batch.graph.kind? path).or (if path ∈ paths then some (nodeKind path) else none) := by
  have hc : (batch.addKeys paths).graph.Consistent := h
  unfold bring
  rw [(linksChildren_grow hc config kind _).nodes.kind?, hc.kind?_addEntries,
    OrderedMap.find?_map]
  rfl

theorem mem_added_of_bring (hn : path ∈ paths) : batch.graph.contains path = true ∨
    path ∈ (batch.graph.addEntries (paths.map fun path => (path, nodeKind path)) true).2 := by
  have hc := h.addEntries true (paths.map fun path => (path, nodeKind path))
  obtain ⟨id, hid⟩ := hc.contains_iff.mp
    (Graph.contains_addEntries.mpr (Or.inr (by simpa [Function.comp_def] using hn)))
  obtain ⟨label, hl⟩ := Graph.path?_eq_some_iff.mp hid
  refine or_iff_not_imp_right.mpr fun hm => h.contains_iff.mpr ⟨id, ?_⟩
  exact Graph.path?_of_label ((h.drift_addEntries _).node id path label hl hm)

-- What is new and contains nothing that was there keeps a graph wired.
theorem wired_bring {declared : Path → List Path} (hk : config.linksChildren kind = true)
    (hw : Graph.Wired true declared batch.graph)
    (hapart : ∀ path ∈ paths, batch.graph.contains path = false →
      ∀ child, batch.graph.contains child = true → child.isChildOf path = false) :
    Graph.Wired true declared (bring config kind nodeKind paths batch).graph := by
  have hgraph : (bring config kind nodeKind paths batch).graph =
      ((batch.graph.addEntries (paths.map fun path => (path, nodeKind path)) true).1.linkAbove
        (batch.graph.addEntries (paths.map fun path => (path, nodeKind path)) true).2).1 := by
    unfold bring grow recordAdded
    split
    · next hempty =>
      have hnil := List.isEmpty_iff.mp hempty
      rw [addKeys] at hnil
      rw [hnil]
      rfl
    · exact if_pos hk
  rw [hgraph]
  refine hw.grown h fun entry he => ?_
  obtain ⟨path, hm, rfl⟩ := List.mem_map.mp he
  exact hapart path hm

end Bring

-- Readings of paths that are nodes, each of what is found now.
theorem Follows.foldl_applyReading {done paths : List Path}
    (h : Follows start keys (Graph.renewed before now done) batch)
    (hs : ∀ path ∈ paths, start.contains path = true) (hp : ∀ path ∈ paths, path.Plain)
    (hr : ∀ path, Binding.Readable (now path)) :
    Follows start keys (Graph.renewed before now (done ++ paths))
      ((paths.map fun path => (path, now path)).foldl (Batch.applyReading config kind) batch) := by
  induction paths generalizing batch done with
  | nil =>
      rw [List.append_nil]
      exact h
  | cons path rest ih =>
      obtain ⟨hnode, hs⟩ := List.forall_mem_cons.mp hs
      obtain ⟨hplain, hp⟩ := List.forall_mem_cons.mp hp
      have hstep : Follows start keys (Graph.renewed before now (done ++ [path]))
          (Batch.applyReading config kind batch (path, now path)) := by
        rw [← Graph.update_renewed]
        exact h.applyReading hnode hplain (hr path)
      rw [List.append_cons]
      exact ih hstep hs hp

theorem Follows.touch (h : Follows start keys found batch) (path : Path) :
    Follows start keys found (batch.touch path) :=
  ⟨h.consistent, h.cache, h.nodes, h.keys, h.wired, h.reported⟩

-- An entity whose paths are nodes is read path by path.
theorem Follows.readEntity (h : Follows start keys before batch)
    (hentries : (Binding.readings config keys.contains name entity).entries =
      (Binding.readings config keys.contains name entity).keys.map fun path => (path, now path))
    (hs : ∀ path ∈ (Binding.readings config keys.contains name entity).keys,
      start.contains path = true ∧ path.Plain)
    (hr : ∀ path, Binding.Readable (now path)) :
    Follows start keys
      (Graph.renewed before now (Binding.readings config keys.contains name entity).keys)
      (readEntity config name entity batch) := by
  obtain ⟨he, hcache⟩ := Binding.ofEntity_eq config keys.contains name entity h.cache
  have hbatch : Follows start keys (Graph.renewed before now [])
      { batch with cache := (Binding.ofEntity config keys.contains batch.cache name entity).2 } :=
    ⟨h.consistent, hcache, h.nodes, h.keys, h.wired, h.reported⟩
  unfold Batch.readEntity
  dsimp only
  rw [h.known, he, hentries]
  exact hbatch.foldl_applyReading (fun path hp => (hs path hp).1) (fun path hp => (hs path hp).2) hr

-- A batch to which an entity is to come. What is found at other paths is what
-- is to be found at last, and the errors are once the entity is resolved.
structure Misses (config : Config) (tree : Tree) (names : List String) (name : String)
    (before : Path → Dependencies) (batch : Batch) : Prop where
  consistent : batch.graph.Consistent
  cache : batch.cache.Sound
  kinds : ∀ path, batch.graph.kind? path = if path.entity ∈ name :: names then none
    else tree.nodeKind config (.ofCapacity config.cacheCapacity) path
  wired : Graph.Wired true (fun path => (before path).references.toList) batch.graph
  keys : ∀ path,
    path ∈ batch.keys ∨ path ∈ tree.keyPaths name ↔ path ∈ tree.knownPaths config
  reported : ErrorStore.Reported (fun path => (before path).errors)
    ((tree.keyPaths name).foldl ErrorStore.resolveReference batch.errors)
  settled : ∀ path, (path.entity = name → Built.yielded config tree path = none) →
    before path = Built.yields config tree names path

namespace Misses

variable (h : Misses config tree names name before batch)
  (hw : tree.Confined config name entity) (hlinks : ∀ kind, config.linksChildren kind = true)
  (value : Option Value)

include h

theorem not_contains (hp : path.entity = name) : batch.graph.contains path = false := by
  rw [Bool.eq_false_iff, ne_eq, ← h.consistent.isSome_kind?, h.kinds, if_pos (by simp [hp])]
  exact Bool.false_ne_true

include hw

theorem kind?_growNew (hout : name ∉ names) :
    (growNew config tree entity (.ofEntity name) value batch).graph.kind? path =
      if path.entity ∈ names then none
      else tree.nodeKind config (.ofCapacity config.cacheCapacity) path := by
  rw [growNew_ofEntity hw.there, kind?_bring (consistent_bring h.consistent),
    kind?_bring h.consistent, h.kinds, Option.or_assoc]
  by_cases hp : path.entity = name
  · rw [if_pos (by simp [hp]), if_neg (show path.entity ∉ names from hp ▸ hout), Option.none_or,
      hw.nodeKind (Binding.Cache.sound_ofCapacity _) hp]
  · have hpaths : path ∉ tree.entityPaths name := fun hm => hp (tree.allIn_entityPaths name path hm)
    have hsetters : path ∉ entity.config.setterPaths name :=
      fun hm => hp (EntityConfig.allIn_setterPaths _ name path hm)
    simp [hp, hpaths, hsetters]

include hlinks in
-- Nothing of the entity was a node, so no new container holds what was one.
theorem wired_growNew : Graph.Wired true (fun path => (before path).references.toList)
    (growNew config tree entity (.ofEntity name) value batch).graph := by
  have hchild : ∀ {above child : Path}, above.entity = name → child.isChildOf above = true →
      child.entity = name := fun ha hc => (Path.entity_of_isChildOf hc).symm.trans ha
  rw [growNew_ofEntity hw.there]
  refine wired_bring (consistent_bring h.consistent) (hlinks _)
    (wired_bring h.consistent (hlinks _) h.wired fun path hm _ child hc => ?_)
    fun setter hm hmissing child hc => ?_
  · refine Bool.eq_false_iff.mpr fun hbelow => ?_
    have hnone := h.not_contains (hchild (tree.allIn_entityPaths name path hm) hbelow)
    exact Bool.eq_false_iff.mp hnone hc
  · refine Bool.eq_false_iff.mpr fun hbelow => ?_
    have hnone := h.not_contains (hchild (EntityConfig.allIn_setterPaths _ name setter hm) hbelow)
    have hlisted : child ∈ tree.entityPaths name :=
      ((contains_bring h.consistent).mp hc).resolve_left (Bool.eq_false_iff.mp hnone)
    -- A path of the entity goes back to the entity by paths of the entity.
    have habove := tree.rooted_entityPaths name child hlisted setter (Path.isChildOf_iff.mp hbelow)
    exact Bool.eq_false_iff.mp hmissing ((contains_bring h.consistent).mpr (Or.inr habove))

-- All that the entity brings is new, and resolved.
theorem reported_growNew : ErrorStore.Reported (fun path => (before path).errors)
    (growNew config tree entity (.ofEntity name) value batch).errors := by
  refine h.reported.congr fun key => ?_
  have hc : (bring config entity.kind .ofPath (tree.entityPaths name) batch).graph.Consistent :=
    consistent_bring h.consistent
  rw [growNew_ofEntity hw.there, errors_bring, errors_bring, ← List.foldl_append,
    ErrorStore.atKey_foldl_resolveReference, ErrorStore.atKey_foldl_resolveReference]
  refine congrArg (List.filter · _) (ErrorStore.unnamed_congr fun path => ?_)
  rw [Tree.keyPaths_of_entity? hw.there, List.mem_append, List.mem_append]
  have hpaths : path ∈ tree.entityPaths name → path ∈ (batch.graph.addEntries
      ((tree.entityPaths name).map fun path => (path, NodeKind.ofPath path)) true).2 := fun hm =>
    (mem_added_of_bring h.consistent hm).resolve_left
      (Bool.eq_false_iff.mp (h.not_contains (tree.allIn_entityPaths name path hm)))
  constructor
  · refine Or.imp (fun hm => ?_) fun hm => ?_
    all_goals simpa [Function.comp_def] using Graph.mem_entries_of_mem_addEntries hm
  · rintro (hm | hm)
    · exact Or.inl (hpaths hm)
    · refine (mem_added_of_bring hc hm).imp_left fun hthere => ?_
      refine hpaths (((contains_bring h.consistent).mp hthere).resolve_left ?_)
      exact Bool.eq_false_iff.mp (h.not_contains (EntityConfig.allIn_setterPaths _ name path hm))

include hlinks in
-- The batch once the nodes of the entity are there.
theorem follows_growNew : Follows (growNew config tree entity (.ofEntity name) value batch).graph
    (Built.nodes config tree).2 before
    (growNew config tree entity (.ofEntity name) value batch) := by
  have hproceeds := Proceeds.growNew config tree tree entity (.ofEntity name) value batch
  refine ⟨consistent_moves h.consistent hproceeds.moves, hproceeds.cache h.cache, .refl _,
    fun path => ?_, h.wired_growNew hw hlinks value, h.reported_growNew hw value⟩
  rw [mem_keys_growNew hw.there, h.keys, Tree.mem_knownPaths, Built.mem_keys_nodes]

-- The entity is read at paths that are nodes already.
theorem contains_of_mem_readings (hplain : tree.Plain) (hp : path ∈
    (Binding.readings config (Built.nodes config tree).2.contains name entity).keys) :
    (growNew config tree entity (.ofEntity name) value batch).graph.contains path = true ∧
      path.Plain := by
  have hname : path.entity = name := Binding.entity_of_mem_readings (hplain.ofEntity hw.there) hp
  refine ⟨(contains_growNew_ofEntity h.consistent hw.there).mpr (Or.inr ?_),
    Path.plain_of_entity_eq (hplain.ofEntity hw.there) hname⟩
  refine hw.mem_keyPaths hname ?_
  subst hname
  exact (Built.isSome_yielded_iff hw.there).mpr hp

-- Reading the entity finds the rest.
theorem renewed_readings : Graph.renewed before (Built.yields config tree names)
    (Binding.readings config (Built.nodes config tree).2.contains name entity).keys =
      Built.yields config tree names := by
  funext path
  unfold Graph.renewed
  split
  · rfl
  · next hp =>
    refine h.settled path fun hname => Option.not_isSome_iff_eq_none.mp fun hsome => hp ?_
    subst hname
    exact (Built.isSome_yielded_iff hw.there).mp hsome

include hlinks in
theorem follows_onNew (hplain : tree.Plain) (hout : name ∉ names) : Follows
    (growNew config tree entity (.ofEntity name) value batch).graph (Built.nodes config tree).2
    (Built.yields config tree names)
    (onNew config tree entity (.ofEntity name) value batch) := by
  have hread := (h.follows_growNew hw hlinks value).readEntity
    (Built.entries_readings_yields hplain hw.there hout)
    (fun path => h.contains_of_mem_readings hw value hplain)
    (Built.readable_yields config tree names)
  rw [h.renewed_readings hw] at hread
  rw [onNew_eq, if_neg (by simp [Tree.isDynamicLeaf_ofEntity])]
  exact hread.touch _

include hlinks in
-- An entity that has come in is lacked no longer.
theorem comes (hplain : tree.Plain) (hout : name ∉ names) :
    Lacks config tree names (onNew config tree entity (.ofEntity name) value batch) := by
  have hread := h.follows_onNew hw hlinks value hplain hout
  refine ⟨hread.consistent, hread.cache, fun path => ?_, hread.wired, fun path => ?_,
    hread.reported⟩
  · rw [hread.nodes.kind?, h.kind?_growNew hw value hout]
  · rw [hread.keys, Built.mem_keys_nodes, Tree.mem_knownPaths]

end Misses

end Batch

end Recalc
