import Recalc.Proofs.Graph.Exchange
import Recalc.Proofs.Schedule.Order
import Recalc.Proofs.Session.Removal

namespace Recalc

open Binding (Dependencies)

namespace Tree

-- An entity of the tree that is part of the graph with paths of its own only.
structure Confined (config : Config) (tree : Tree) (name : String) (entity : Entity) : Prop where
  there : tree.entity? name = some entity
  reactive : entity.reactive = true
  apart : name ∉ config.internalFunctions
  brought : ∀ path, path.entity = name → ¬tree.Strays config path

variable {config : Config} {cache : Binding.Cache} {tree : Tree} {name : String} {entity : Entity}
  {path : Path}

theorem not_mem_functionPaths (h : name ∉ config.internalFunctions) (hp : path.entity = name) :
    path ∉ config.functionPaths := fun hf => by
  obtain ⟨function, hm, rfl⟩ := List.mem_map.mp hf
  exact h (hp ▸ OrderedSet.mem_toList.mp hm)

-- No path strays from a tree whose entities are read at what it brings.
theorem not_strays_of_brought (h : ∀ entry ∈ tree.entities.entries, ∀ path ∈
    (Binding.ofEntity config (fun _ => false) (.ofCapacity config.cacheCapacity) entry.1
      entry.2).1.keys, path ∈ tree.reactivePaths ∨ path ∈ tree.setterPaths) (path : Path) :
    ¬tree.Strays config path := by
  rintro ⟨⟨name, entity, he, hp⟩, hout⟩
  exact hout (owns_iff.mpr (h (name, entity) (OrderedMap.get?_eq_some_iff.mp he) path hp))

-- Where the entity of a path is read it is brought.
theorem Confined.mem_keyPaths (h : tree.Confined config name entity) (hp : path.entity = name)
    (hy : (Built.yielded config tree path).isSome = true) : path ∈ tree.keyPaths name := by
  obtain ⟨found, hfound⟩ := Option.isSome_iff_exists.mp hy
  obtain ⟨other, ho, hget⟩ := Option.bind_eq_some_iff.mp hfound
  have howns := (owns_or_strays config _ ho
    (OrderedMap.mem_keys_iff.mpr ⟨found, hget⟩)).resolve_right (h.brought path hp)
  exact hp ▸ howns.2

-- The nodes of the entity are its paths, and its setters besides.
theorem Confined.nodeKind (h : tree.Confined config name entity) (hs : cache.Sound)
    (hp : path.entity = name) : tree.nodeKind config cache path =
      (if path ∈ tree.entityPaths name then some (.ofPath path) else none).or
        (if path ∈ entity.config.setterPaths name then some .setter else none) := by
  subst hp
  have hpaths : path ∈ tree.reactivePaths ↔ path ∈ tree.entityPaths path.entity := by
    simp [mem_reactivePaths, h.there, h.reactive]
  have hsetters : path ∈ tree.setterPaths ↔ path ∈ entity.config.setterPaths path.entity := by
    simp [mem_setterPaths, h.there, h.reactive]
  have hread : (tree.extracted config cache path).isSome = true →
      path ∈ tree.entityPaths path.entity ∨ path ∈ entity.config.setterPaths path.entity := by
    rw [Built.extracted_eq hs, ← List.mem_append, ← keyPaths_of_entity? h.there]
    exact h.mem_keyPaths rfl
  unfold Tree.nodeKind
  simp only [hpaths, hsetters, not_mem_functionPaths h.apart rfl, if_false]
  by_cases hentity : path ∈ tree.entityPaths path.entity
  · simp [hentity]
  · by_cases hsetter : path ∈ entity.config.setterPaths path.entity
    · simp [hentity, hsetter]
    · simp [hentity, hsetter, mt hread (not_or.mpr ⟨hentity, hsetter⟩)]

theorem Confined.isSome_nodeKind (h : tree.Confined config name entity) (hs : cache.Sound)
    (hp : path.entity = name) :
    (tree.nodeKind config cache path).isSome = true ↔ path ∈ tree.keyPaths name := by
  rw [h.nodeKind hs hp, keyPaths_of_entity? h.there, List.mem_append]
  by_cases hentity : path ∈ tree.entityPaths name <;> simp [hentity]

-- Nodes that a tree has for no entity of its own are functions.
theorem nodeKind_of_none (hs : cache.Sound) (he : tree.entity? path.entity = none) :
    tree.nodeKind config cache path =
      if path ∈ config.functionPaths then some .internal else none := by
  have hyielded : Built.yielded config tree path = none := by
    rw [Built.yielded, Tree.yielded, he, Option.bind_none]
  unfold Tree.nodeKind
  rw [Built.extracted_eq hs, hyielded]
  simp [mem_reactivePaths, mem_setterPaths, he]

-- Entities outside the graph have no nodes.
theorem nodeKind_of_not_reactive (hs : cache.Sound) (he : tree.entity? path.entity = some entity)
    (hr : entity.reactive = false) (ha : path.entity ∉ config.internalFunctions) :
    tree.nodeKind config cache path = none := by
  have hyielded : Built.yielded config tree path = none := yielded_of_not_reactive he hr
  unfold Tree.nodeKind
  rw [Built.extracted_eq hs, hyielded]
  simp [mem_reactivePaths, mem_setterPaths, he, hr, not_mem_functionPaths ha rfl]

end Tree

namespace Built

variable {config : Config} {tree : Tree} {names : List String} {name : String} {path : Path}

-- What a build finds at a path, if some entities are left out of it.
def yields (config : Config) (tree : Tree) (names : List String) (path : Path) : Dependencies :=
  if path.entity ∈ names then ∅ else (yielded config tree path).getD ∅

theorem yields_of_mem (h : path.entity ∈ names) : yields config tree names path = ∅ := if_pos h

theorem yields_of_none (h : yielded config tree path = none) :
    yields config tree names path = ∅ := by
  rw [yields, h, Option.getD_none, ite_self]

theorem yields_cons (h : path.entity ≠ name) :
    yields config tree (name :: names) path = yields config tree names path := by
  simp [yields, h]

theorem isSome_yielded_iff {entity : Entity} (he : tree.entity? path.entity = some entity) :
    (yielded config tree path).isSome = true ↔
      path ∈ (Binding.readings config (nodes config tree).2.contains path.entity entity).keys := by
  rw [yielded, Tree.yielded, he, Option.bind_some]
  exact OrderedMap.contains_iff

-- Reading an entity against all that the build knows.
theorem entries_readings_yields {entity : Entity} (h : tree.Plain)
    (he : tree.entity? name = some entity) (hout : name ∉ names) :
    (Binding.readings config (nodes config tree).2.contains name entity).entries =
      (Binding.readings config (nodes config tree).2.contains name entity).keys.map fun path =>
        (path, yields config tree names path) := by
  rw [Tree.entries_readings h (OrderedMap.get?_eq_some_iff.mp he)]
  refine List.map_congr_left fun path hp => ?_
  have hname : path.entity = name := Binding.entity_of_mem_readings (h.ofEntity he) hp
  rw [yields, if_neg (show path.entity ∉ names from hname ▸ hout), yielded]

theorem readable_yields (config : Config) (tree : Tree) (names : List String) (path : Path) :
    Binding.Readable (yields config tree names path) := by
  unfold yields
  split
  · exact Binding.readable_empty
  · cases hy : yielded config tree path with
    | none => exact Binding.readable_empty
    | some found =>
        obtain ⟨entity, _, hget⟩ := Option.bind_eq_some_iff.mp hy
        exact Binding.readable_readings _ (OrderedMap.get?_eq_some_iff.mp hget)

-- No error of a build says that what it knows is unresolved.
theorem namesUnknown_yields :
    Binding.NamesUnknown (nodes config tree).2.contains (yields config tree names path).errors := by
  unfold yields
  split
  · exact Binding.namesUnknown_nil
  · cases hy : yielded config tree path with
    | none => exact Binding.namesUnknown_nil
    | some found =>
        obtain ⟨entity, _, hget⟩ := Option.bind_eq_some_iff.mp hy
        exact Binding.namesUnknown_readings _ (OrderedMap.get?_eq_some_iff.mp hget)

theorem plain_of_yielded (h : tree.Plain) {found : Dependencies}
    (hy : yielded config tree path = some found) : path.Plain := by
  obtain ⟨entity, he, _⟩ := Option.bind_eq_some_iff.mp hy
  exact h.ofEntity he

-- The errors of a build, as a session takes them over.
theorem reported_yields {cache : Binding.Cache} (hs : cache.Sound) (h : tree.Plain) :
    ErrorStore.Reported (fun path => (yields config tree [] path).errors)
      ((ofTree config cache tree).errors.entries.foldl
        (fun errors entry => errors.replaceExtraction entry.1 entry.2) (∅ : ErrorStore)) := by
  have hlisted := ErrorStore.reported_entries (ofTree config cache tree).errors
    fun path errors he => by
      obtain ⟨_, found, hfound, rfl⟩ := (get?_errors_ofTree hs h).mp he
      rw [extracted_eq hs] at hfound
      have hreadable := readable_yields config tree [] path
      rw [yields, if_neg List.not_mem_nil, hfound] at hreadable
      exact ⟨plain_of_yielded h hfound, hreadable.extraction⟩
  have hsame : (fun path => ((ofTree config cache tree).errors.get? path).getD []) =
      fun path => (yields config tree [] path).errors := by
    funext path
    rw [yields, if_neg List.not_mem_nil]
    cases hget : (ofTree config cache tree).errors.get? path with
    | some errors =>
        obtain ⟨_, found, hfound, rfl⟩ := (get?_errors_ofTree hs h).mp hget
        rw [extracted_eq hs] at hfound
        rw [hfound]
        rfl
    | none =>
        cases hy : yielded config tree path with
        | none => rfl
        | some found =>
            by_contra hne
            have hsome := (get?_errors_ofTree hs h).mpr
              ⟨fun hnil => hne hnil.symm, found, (extracted_eq hs).trans hy, rfl⟩
            rw [hget] at hsome
            cases hsome
  rwa [hsame] at hlisted

theorem unnamed_yields {paths : List Path} (hp : ∀ path ∈ paths, path.Plain)
    (hk : ∀ path ∈ paths, path ∈ tree.knownPaths config) :
    ∀ error ∈ (yields config tree names path).errors,
      ErrorStore.unnamed paths error = true := by
  intro error he
  refine List.all_eq_true.mpr fun other ho => ?_
  rw [Bool.not_eq_true', Bool.eq_false_iff]
  intro hnames
  have hunknown := namesUnknown_yields error he other (hp other ho) hnames
  rw [known_nodes, decide_eq_false_iff_not] at hunknown
  exact hunknown (hk other ho)

end Built

namespace Batch

-- A batch that has all that a build of a tree has, but for some entities. What
-- these bring can be referred to all the same.
structure Lacks (config : Config) (tree : Tree) (names : List String) (batch : Batch) : Prop where
  consistent : batch.graph.Consistent
  cache : batch.cache.Sound
  kinds : ∀ path, batch.graph.kind? path = if path.entity ∈ names then none
    else tree.nodeKind config (.ofCapacity config.cacheCapacity) path
  wired : Graph.Wired true (fun path => (Built.yields config tree names path).references.toList)
    batch.graph
  keys : ∀ path, path ∈ batch.keys ↔ path ∈ tree.knownPaths config
  reported : ErrorStore.Reported (fun path => (Built.yields config tree names path).errors)
    batch.errors

-- Readers of what went are of no matter here.
theorem Lacks.dropGoneReaders {config : Config} {tree : Tree} {names : List String} {batch : Batch}
    (h : Lacks config tree names batch) : Lacks config tree names batch.dropGoneReaders :=
  ⟨h.consistent, h.cache, h.kinds, h.wired, h.keys, h.reported⟩

end Batch

namespace Session

variable {config : Config} {tree : Tree} {session first second : Session} {names : List String}
  {diffs : List Diff}

-- A session as a batch that has not begun.
def toBatch (session : Session) : Batch :=
  .start session.graph session.keys session.errors session.cache

theorem graph_toBatch (session : Session) : session.toBatch.graph = session.graph := rfl

theorem keys_toBatch (session : Session) : session.toBatch.keys = session.keys := rfl

theorem errors_toBatch (session : Session) : session.toBatch.errors = session.errors := rfl

theorem cache_toBatch (session : Session) : session.toBatch.cache = session.cache := rfl

-- The paths of some cycle, as a set.
def HasCycle (session : Session) (members : Path → Prop) : Prop :=
  ∃ cycle ∈ session.sorted.cycles, ∀ path, path ∈ cycle ↔ members path

-- Sessions that can be told apart only by the ids of their nodes, by the order
-- in which they list things, and by errors of evaluation.
structure Matches (first second : Session) : Prop where
  kinds : ∀ path, second.graph.kind? path = first.graph.kind? path
  live : ∀ path target,
    target ∈ second.graph.dependencies path ↔ target ∈ first.graph.dependencies path
  pending : ∀ path target,
    target ∈ second.graph.pendingOf path ↔ target ∈ first.graph.pendingOf path
  keys : ∀ path, path ∈ second.keys ↔ path ∈ first.keys
  cycles : ∀ members, second.HasCycle members ↔ first.HasCycle members
  errors : ∀ key, second.errors.extractionsAt key = first.errors.extractionsAt key

theorem hasCycle_congr (hf : first.Coherent) (hs : second.Coherent)
    (hlive : ∀ path target,
      target ∈ second.graph.dependencies path ↔ target ∈ first.graph.dependencies path)
    (members : Path → Prop) : second.HasCycle members ↔ first.HasCycle members := by
  have hdepends : second.graph.DependsOn = first.graph.DependsOn :=
    funext fun path => funext fun target => propext (hlive path target)
  unfold HasCycle
  rw [hf.sorted, hs.sorted, hf.consistent.cycle_iff, hs.consistent.cycle_iff]
  simp only [Graph.Joined, hdepends]

-- Sessions that lack nothing of one tree.
theorem matches_of_lacks (hf : first.Coherent) (hs : second.Coherent)
    (h : first.toBatch.Lacks config tree []) (k : second.toBatch.Lacks config tree []) :
    Matches first second := by
  have hkinds : ∀ path, second.graph.kind? path = first.graph.kind? path :=
    fun path => (k.kinds path).trans (h.kinds path).symm
  have hlive : ∀ path target,
      target ∈ second.graph.dependencies path ↔ target ∈ first.graph.dependencies path :=
    fun _ _ => h.wired.mem_dependencies_congr k.wired hf.consistent hs.consistent hkinds
  exact {
    kinds := hkinds
    live := hlive
    pending := fun _ _ =>
      h.wired.mem_pendingOf_congr k.wired hf.consistent hs.consistent hkinds
    keys := fun path => (k.keys path).trans (h.keys path).symm
    cycles := hasCycle_congr hf hs hlive
    errors := h.reported.extractionsAt_eq k.reported }

-- A fresh build lacks nothing.
theorem lacks_start (hl : config.linksAllChildren = true) (cache : Binding.Cache)
    (h : tree.Plain) : (start config cache tree).toBatch.Lacks config tree [] := by
  have hs := Binding.Cache.sound_clear cache
  have hcoherent := coherent_start config cache tree
  have hgraph := graph_start config cache tree
  refine ⟨hcoherent.consistent, hcoherent.cache, fun path => ?_, ?_, fun path => ?_, ?_⟩
  · rw [if_neg List.not_mem_nil, graph_toBatch, hgraph, Built.kind?_ofTree hs h]
    exact Built.nodeKind_congr (fun _ => rfl) (Binding.Cache.sound_ofCapacity _) hs
  · rw [graph_toBatch, hgraph, Built.ofTree_eq]
    dsimp only
    rw [Built.linkContainers, if_pos hl]
    exact (Built.wired_bound hs h).linkAll (Built.consistent_bound config hs h)
  · rw [keys_toBatch]
    exact mem_keys_start config cache tree
  · rw [errors_toBatch]
    unfold start reset
    rw [errors_sort]
    exact (Built.reported_yields hs h).replaceCycles

-- Sorting adds nothing but errors of cycles.
theorem lacks_apply (h : (session.batchOf tree diffs).Lacks config tree names) :
    (session.apply tree diffs).1.toBatch.Lacks config tree names := by
  have hgraph := graph_apply session tree diffs
  refine ⟨?_, ?_, fun path => ?_, ?_, fun path => ?_, ?_⟩
  · rw [graph_toBatch, hgraph]
    exact h.consistent
  · rw [cache_toBatch, field_apply cache_sort]
    exact h.cache
  · rw [graph_toBatch, hgraph]
    exact h.kinds path
  · rw [graph_toBatch, hgraph]
    exact h.wired
  · rw [keys_toBatch, keys_apply]
    exact h.keys path
  · rw [errors_toBatch, fst_apply]
    split
    · rw [errors_sort]
      exact h.reported.replaceCycles
    · exact h.reported

section Mirrored

-- Two labels, each of which reads the other.
def mirrored : Tree :=
  (labelled "{{ Mirror.text }}").insert "Mirror" (label "{{ Label.text }}")

theorem plain_mirrored : mirrored.Plain := by
  intro name hname
  have hname : name ∈ ["Label", "Mirror"] := hname
  rcases List.mem_pair.mp hname with rfl | rfl <;> simp [Path.startsAccessor]

theorem not_strays_mirrored (path : Path) : ¬mirrored.Strays .standard path :=
  Tree.not_strays_of_brought (by decide +kernel) path

end Mirrored

end Session

end Recalc
