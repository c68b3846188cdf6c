import Recalc.Proofs.Binding.Agreement
import Recalc.Proofs.Error.Report
import Recalc.Proofs.Graph.Wiring
import Recalc.Proofs.Session.Coherence
import Recalc.Proofs.Tree.Shape

namespace Recalc

open Binding (Dependencies)

namespace Tree

-- Trees whose entities have plain names and canonically spelled configurations.
structure Spelled (tree : Tree) : Prop where
  named : ∀ entry ∈ tree.entities.entries, entry.1 ≠ ""
  plain : ∀ entry ∈ tree.entities.entries, ∀ c ∈ entry.1.toList, Path.startsAccessor c = false
  config : ∀ entry ∈ tree.entities.entries, entry.2.config.Spelled

-- Trees that come from inserting entities of plain names, with relative paths
-- that the strict reader takes below the name.
inductive Assembled : Tree → Prop
  | empty : Assembled ∅
  | insert {tree : Tree} {name : String} {entity : Entity} (h : Assembled tree)
      (hname : name ≠ "") (hplain : ∀ c ∈ name.toList, Path.startsAccessor c = false)
      (hread : ∀ relative ∈ entity.config.relatives,
        ∃ path, Path.parse (Path.joined name relative) = .ok path) :
      Assembled (tree.insert name entity)

theorem mem_relatives_normalize {config : EntityConfig} {relative : String}
    (h : relative ∈ config.normalize.relatives) :
    ∃ raw ∈ config.relatives, EntityConfig.canonical raw = relative := by
  have hset : ∀ (paths : OrderedSet String), relative ∈
      (OrderedSet.ofList (paths.toList.map EntityConfig.canonical)).toList →
        ∃ raw ∈ paths.toList, EntityConfig.canonical raw = relative := fun paths hp =>
    List.mem_map.mp (OrderedSet.mem_ofList.mp (OrderedSet.mem_toList.mp hp))
  rcases List.mem_append.mp h with hs | hk
  · rcases List.mem_append.mp hs with hb | ht
    · split at hb
      · next hform =>
        obtain ⟨raw, hraw, rfl⟩ := hset _ hb
        refine ⟨raw, List.mem_append_left _ (List.mem_append_left _ ?_), rfl⟩
        rwa [if_pos (show config.kind.capabilities.form.isSome = true from hform)]
      · cases hb
    · split at ht
      · next hscans =>
        obtain ⟨raw, hraw, rfl⟩ := hset _ ht
        refine ⟨raw, List.mem_append_left _ (List.mem_append_right _ ?_), rfl⟩
        rwa [if_pos (show config.scansTriggers = true from hscans)]
      · cases ht
  · obtain ⟨targets, hget⟩ := OrderedMap.mem_keys_iff.mp hk
    obtain ⟨entry, he, heq⟩ := List.mem_map.mp (OrderedMap.get?_ofList_mem hget)
    exact ⟨entry.1, List.mem_append_right _ (List.mem_map_of_mem he), congrArg Prod.fst heq⟩

-- Inserting spells configured paths canonically.
theorem Assembled.spelled (h : Assembled tree) : tree.Spelled := by
  induction h with
  | empty =>
      have hnone : ∀ entry, entry ∉ (∅ : Tree).entities.entries := fun _ => List.not_mem_nil
      exact ⟨fun _ he => absurd he (hnone _), fun _ he => absurd he (hnone _),
        fun _ he => absurd he (hnone _)⟩
  | insert h hname hplain hread ih =>
      refine ⟨fun entry he => ?_, fun entry he => ?_, fun entry he => ?_⟩
      all_goals
        rcases OrderedMap.mem_entries_insert.mp he with ⟨hk, hv⟩ | ⟨_, hold⟩
      · rwa [hk]
      · exact ih.named entry hold
      · rwa [hk]
      · exact ih.plain entry hold
      · refine ⟨fun relative hr => ?_⟩
        rw [hv] at hr
        obtain ⟨raw, hraw, rfl⟩ := mem_relatives_normalize hr
        obtain ⟨path, hpath⟩ := hread raw hraw
        exact Path.spelled_canonical hplain hpath
      · exact ih.config entry hold

-- What is read at a path. Entities outside the graph read nothing.
def reading (config : Config) (known : Path → Bool) (tree : Tree) (path : Path) : Dependencies :=
  match tree.entity? path.entity with
  | some entity => if entity.reactive then Binding.reading config known entity path else ∅
  | none => ∅

-- The paths that a build reads, in order.
def readPaths (config : Config) (known : Path → Bool) (tree : Tree) : List Path :=
  tree.entities.entries.flatMap fun entry => (Binding.readings config known entry.1 entry.2).keys

variable {config : Config} {known others : Path → Bool} {tree first second : Tree} {path : Path}
  {entity : Entity}

theorem reading_of_reactive (he : tree.entity? path.entity = some entity)
    (hr : entity.reactive = true) :
    tree.reading config known path = Binding.reading config known entity path := by
  unfold reading
  rw [he]
  exact if_pos hr

theorem reading_of_not_reactive (he : tree.entity? path.entity = some entity)
    (hr : entity.reactive = false) : tree.reading config known path = ∅ := by
  unfold reading
  rw [he]
  exact if_neg (by simp [hr])

theorem Spelled.entries_readings (h : tree.Spelled) {entry : String × Entity}
    (he : entry ∈ tree.entities.entries) :
    (Binding.readings config known entry.1 entry.2).entries =
      (Binding.readings config known entry.1 entry.2).keys.map fun path =>
        (path, tree.reading config known path) := by
  rw [OrderedMap.keys, List.map_map]
  refine ((List.map_congr_left fun found hf => ?_).trans (List.map_id _)).symm
  have hr := Binding.reactive_of_mem_readings (List.mem_map_of_mem hf)
  have hget := OrderedMap.get?_eq_some_iff.mpr hf
  rw [Binding.get?_readings hr (h.config entry he) (h.named entry he) (h.plain entry he)] at hget
  split at hget
  · next hcond =>
    have hentity : tree.entity? found.1.entity = some entry.2 := by
      rw [hcond.1]
      exact OrderedMap.get?_eq_some_iff.mpr he
    rw [Function.comp_apply, reading_of_reactive hentity hr, Option.some_inj.mp hget]
    rfl
  · cases hget

-- Where a build does not read, there is nothing to read.
theorem Spelled.reading_of_not_mem (h : tree.Spelled)
    (hp : path ∉ tree.readPaths config known) : tree.reading config known path = ∅ := by
  unfold reading
  split
  · next entity he =>
    split
    · next hr =>
      have hm : (path.entity, entity) ∈ tree.entities.entries := OrderedMap.get?_eq_some_iff.mp he
      refine Binding.reading_of_not_mem fun hin => hp (List.mem_flatMap.mpr ⟨_, hm, ?_⟩)
      rw [OrderedMap.mem_keys_iff, Binding.get?_readings hr (h.config _ hm) (h.named _ hm)
        (h.plain _ hm), if_pos ⟨rfl, hin⟩]
      exact ⟨_, rfl⟩
    · rfl
  · rfl

-- The paths that are read for an entity are its own.
theorem Spelled.allIn_readings (h : tree.Spelled) {entry : String × Entity}
    (he : entry ∈ tree.entities.entries) :
    Path.AllIn entry.1 (Binding.readings config known entry.1 entry.2).keys := by
  intro path hp
  have hr := Binding.reactive_of_mem_readings hp
  obtain ⟨found, hget⟩ := OrderedMap.mem_keys_iff.mp hp
  rw [Binding.get?_readings hr (h.config entry he) (h.named entry he) (h.plain entry he)] at hget
  split at hget
  · next hcond => exact hcond.1
  · cases hget

theorem Spelled.plain_readPaths (h : tree.Spelled) :
    ∀ path ∈ tree.readPaths config known, path.Plain := by
  intro path hp
  obtain ⟨entry, he, hkey⟩ := List.mem_flatMap.mp hp
  rw [Path.Plain, h.allIn_readings he path hkey]
  exact h.plain entry he

theorem SameButTexts.readPaths (h : SameButTexts first second) :
    second.readPaths config others = first.readPaths config known := by
  have hblank : ∀ (tree : Tree) (known : Path → Bool), tree.readPaths config known =
      (tree.entities.entries.map blankEntry).flatMap fun entry =>
        (Binding.readings config (fun _ => false) entry.1 entry.2).keys := by
    intro tree known
    rw [List.flatMap_map]
    refine List.flatMap_congr fun entry _ => ?_
    exact Binding.keys_readings_congr rfl
  rw [hblank, hblank, show _ = _ from h]

theorem SameButTexts.spelled (h : SameButTexts first second) (hs : first.Spelled) :
    second.Spelled := by
  have hm : ∀ entry ∈ second.entities.entries, ∃ before ∈ first.entities.entries,
      before.1 = entry.1 ∧ before.2.config = entry.2.config := by
    rintro ⟨name, entity⟩ he
    obtain ⟨before, hb, hconfig, _⟩ := h.entity? (OrderedMap.get?_eq_some_iff.mpr he)
    exact ⟨(name, before), OrderedMap.get?_eq_some_iff.mp hb, rfl, hconfig⟩
  refine ⟨fun entry he => ?_, fun entry he => ?_, fun entry he => ?_⟩
  all_goals obtain ⟨before, hb, hname, hconfig⟩ := hm entry he
  · rw [← hname]
    exact hs.named before hb
  · rw [← hname]
    exact hs.plain before hb
  · rw [← hconfig]
    exact hs.config before hb

end Tree

namespace Built

variable {config : Config} {cache : Binding.Cache} {tree first second : Tree} {built : Built}
  {path : Path}

section Readings

theorem foldl_addReading_withCache (entries : List (Path × Dependencies)) (built : Built)
    (cache : Binding.Cache) :
    entries.foldl addReading { built with cache } = { entries.foldl addReading built with cache } := by
  induction entries generalizing built with
  | nil => rfl
  | cons entry rest ih => exact ih (addReading built entry)

theorem keys_foldl_addReading (entries : List (Path × Dependencies)) (built : Built) :
    (entries.foldl addReading built).keys = built.keys :=
  List.foldlRecOn entries _ (motive := fun now : Built => now.keys = built.keys) rfl
    fun _ h _ _ => h

-- Entities are read one after the other, all against the same keys.
theorem foldl_addBindings (config : Config) (entities : List (String × Entity)) (built : Built)
    (h : built.cache.Sound) : ∃ cache, entities.foldl (addBindings config) built =
      { (entities.flatMap fun entry =>
          (Binding.readings config built.keys.contains entry.1 entry.2).entries).foldl addReading
            built with cache } := by
  induction entities generalizing built with
  | nil => exact ⟨built.cache, rfl⟩
  | cons entry rest ih =>
      obtain ⟨he, hs⟩ := Binding.ofEntity_eq config built.keys.contains entry.1 entry.2 h
      have hstep : addBindings config built entry =
          { (Binding.readings config built.keys.contains entry.1 entry.2).entries.foldl addReading
              built with
            cache :=
              (Binding.ofEntity config built.keys.contains built.cache entry.1 entry.2).2 } := by
        rw [← he, ← foldl_addReading_withCache]
        rfl
      obtain ⟨cache, hrest⟩ := ih (addBindings config built entry) (by rw [hstep]; exact hs)
      refine ⟨cache, ?_⟩
      rw [List.foldl_cons, hrest, hstep, List.flatMap_cons, List.foldl_append,
        foldl_addReading_withCache]
      dsimp only
      rw [keys_foldl_addReading]

-- What is read, path by path, declared in the graph.
theorem graph_foldl_addReading (found : Path → Dependencies) (paths : List Path) (built : Built) :
    ((paths.map fun path => (path, found path)).foldl addReading built).graph =
      built.graph.declareAll (fun path => (found path).references.toList) paths := by
  unfold Graph.declareAll
  induction paths generalizing built with
  | nil => rfl
  | cons path rest ih => exact ih (addReading built (path, found path))

theorem errors_foldl_addReading (found : Path → Dependencies) (paths : List Path) (built : Built) :
    ((paths.map fun path => (path, found path)).foldl addReading built).errors.get? path =
      if path ∈ paths ∧ (found path).errors ≠ [] then some (found path).errors
      else built.errors.get? path := by
  induction paths generalizing built with
  | nil => simp
  | cons other rest ih =>
      have hget : (addReading built (other, found other)).errors.get? path =
          if path = other ∧ (found path).errors ≠ [] then some (found path).errors
          else built.errors.get? path := by
        unfold addReading
        dsimp only
        split
        · next hnil =>
          rw [if_neg]
          rintro ⟨rfl, hne⟩
          exact hne (List.isEmpty_iff.mp hnil)
        · next hne =>
          rw [OrderedMap.get?_insert]
          by_cases hp : path = other
          · subst hp
            simp [mt List.isEmpty_iff.mpr hne]
          · simp [hp]
      rw [List.map_cons, List.foldl_cons, ih, hget]
      by_cases hp : path = other
      · subst hp
        by_cases hnil : (found path).errors = [] <;> simp [hnil]
      · simp [hp]

end Readings

section Nodes

-- The nodes of a tree and the keys, before anything is read.
def nodes (config : Config) (tree : Tree) : Graph × Keys :=
  addInternalFunctions config (tree.entities.entries.foldl (addEntity tree) (∅, ∅))

theorem nodes_congr (h : Tree.SameButTexts first second) :
    nodes config second = nodes config first := by
  have hfold : ∀ (tree : Tree), (∀ name, tree.entityPaths name = first.entityPaths name) →
      tree.entities.entries.foldl (addEntity tree) (∅, ∅) =
        (tree.entities.entries.map Tree.blankEntry).foldl (addEntity first) (∅, ∅) := by
    intro tree hpaths
    rw [List.foldl_map]
    congr 1
    funext state entry
    unfold addEntity
    dsimp only
    rw [hpaths]
    rfl
  unfold nodes
  rw [hfold second h.entityPaths, hfold first fun _ => rfl, show _ = _ from h]

-- Nodes that have not been read declare nothing.
theorem well_nodes (config : Config) (tree : Tree) :
    (nodes config tree).1.Consistent ∧ Graph.Wired false (fun _ => []) (nodes config tree).1 := by
  have hadd : ∀ (graph : Graph) (entries : List (Path × NodeKind)),
      graph.Consistent ∧ Graph.Wired false (fun _ => []) graph →
        (graph.addEntries entries true).1.Consistent ∧
          Graph.Wired false (fun _ => []) (graph.addEntries entries true).1 :=
    fun graph entries h => ⟨h.1.addEntries true entries, h.2.addEntries h.1 entries⟩
  refine hadd _ _ (List.foldlRecOn tree.entities.entries (addEntity tree)
    (motive := fun state : Graph × Keys =>
      state.1.Consistent ∧ Graph.Wired false (fun _ => []) state.1) ⟨.empty, .empty⟩
    fun state hs entry _ => ?_)
  unfold addEntity
  dsimp only
  split
  · exact hadd _ _ (hadd _ _ hs)
  · exact hs

theorem mem_addAll {keys : Keys} {paths : List Path} :
    path ∈ Keys.addAll keys paths ↔ path ∈ keys ∨ path ∈ paths := by
  unfold Keys.addAll
  induction paths generalizing keys with
  | nil => simp
  | cons other rest ih =>
      rw [List.foldl_cons, ih, Std.TreeSet.mem_insert, Std.compare_eq_iff_eq, List.mem_cons,
        eq_comm (a := other), or_comm (a := path = other), or_assoc]

-- Listed paths are keys, and nodes if their entity takes part in the graph.
structure Holds (state : Graph × Keys) (reactive : Bool) (paths : List Path) : Prop where
  keys : ∀ path ∈ paths, path ∈ state.2
  nodes : reactive = true → ∀ path ∈ paths, state.1.contains path = true

theorem Holds.addEntity {state : Graph × Keys} {reactive : Bool} {paths : List Path}
    (h : Holds state reactive paths) (entry : String × Entity) :
    Holds (addEntity tree state entry) reactive paths := by
  unfold Built.addEntity
  dsimp only
  split
  · refine ⟨fun path hp => ?_, fun hr path hp => ?_⟩
    · exact mem_addAll.mpr (Or.inl (mem_addAll.mpr (Or.inl (h.keys path hp))))
    · exact Graph.contains_addEntries.mpr (Or.inl (Graph.contains_addEntries.mpr
        (Or.inl (h.nodes hr path hp))))
  · exact ⟨fun path hp => mem_addAll.mpr (Or.inl (h.keys path hp)), h.nodes⟩

theorem holds_addEntity (state : Graph × Keys) (entry : String × Entity) :
    Holds (addEntity tree state entry) entry.2.reactive (tree.entityPaths entry.1) := by
  unfold Built.addEntity
  dsimp only
  split
  · refine ⟨fun path hp => ?_, fun _ path hp => ?_⟩
    · exact mem_addAll.mpr (Or.inl (mem_addAll.mpr (Or.inr hp)))
    · refine Graph.contains_addEntries.mpr (Or.inl (Graph.contains_addEntries.mpr (Or.inr ?_)))
      simpa using hp
  · next hr =>
    exact ⟨fun path hp => mem_addAll.mpr (Or.inr hp), fun hreactive => absurd hreactive hr⟩

theorem holds_nodes {entry : String × Entity} (he : entry ∈ tree.entities.entries) :
    Holds (nodes config tree) entry.2.reactive (tree.entityPaths entry.1) := by
  obtain ⟨before, after, hsplit⟩ := List.append_of_mem he
  have hentities : Holds (tree.entities.entries.foldl (Built.addEntity tree) (∅, ∅))
      entry.2.reactive (tree.entityPaths entry.1) := by
    rw [hsplit, List.foldl_append, List.foldl_cons]
    exact List.foldlRecOn after _ (motive := fun state : Graph × Keys =>
      Holds state entry.2.reactive (tree.entityPaths entry.1)) (holds_addEntity _ entry)
      fun _ hs other _ => hs.addEntity other
  exact ⟨fun path hp => mem_addAll.mpr (Or.inl (hentities.keys path hp)),
    fun hr path hp => Graph.contains_addEntries.mpr (Or.inl (hentities.nodes hr path hp))⟩

end Nodes

section Build

-- A tree whose bindings have been read, before containers are linked.
def bound (config : Config) (cache : Binding.Cache) (tree : Tree) : Built :=
  tree.entities.entries.foldl (addBindings config)
    ⟨(nodes config tree).1, (nodes config tree).2, ∅, cache⟩

theorem ofTree_eq : ofTree config cache tree =
    { bound config cache tree with
      graph := linkContainers config tree (bound config cache tree).graph } := rfl

-- What a build finds at each path.
def found (config : Config) (tree : Tree) (path : Path) : Dependencies :=
  tree.reading config (nodes config tree).2.contains path

def foundPaths (config : Config) (tree : Tree) : List Path :=
  tree.readPaths config (nodes config tree).2.contains

theorem bound_eq (config : Config) (hs : cache.Sound) (h : tree.Spelled) :
    ∃ cache', bound config cache tree =
      { ((foundPaths config tree).map fun path => (path, found config tree path)).foldl addReading
          ⟨(nodes config tree).1, (nodes config tree).2, ∅, cache⟩ with cache := cache' } := by
  obtain ⟨cache', he⟩ := foldl_addBindings config tree.entities.entries
    ⟨(nodes config tree).1, (nodes config tree).2, ∅, cache⟩ hs
  refine ⟨cache', he.trans ?_⟩
  have hentries : (tree.entities.entries.flatMap fun entry =>
      (Binding.readings config (nodes config tree).2.contains entry.1 entry.2).entries) =
        (foundPaths config tree).map fun path => (path, found config tree path) := by
    rw [foundPaths, Tree.readPaths, List.map_flatMap]
    exact List.flatMap_congr fun entry hentry => h.entries_readings hentry
  dsimp only
  rw [hentries]

theorem keys_ofTree (hs : cache.Sound) (h : tree.Spelled) :
    (ofTree config cache tree).keys = (nodes config tree).2 := by
  obtain ⟨cache', he⟩ := bound_eq config hs h
  rw [ofTree_eq, he, keys_foldl_addReading]

theorem graph_ofTree (hl : config.linksAllChildren = true) (hs : cache.Sound) (h : tree.Spelled) :
    (ofTree config cache tree).graph =
      ((nodes config tree).1.declareAll (fun path => (found config tree path).references.toList)
        (foundPaths config tree)).linkAll.1 := by
  obtain ⟨cache', he⟩ := bound_eq config hs h
  rw [ofTree_eq, linkContainers, if_pos hl, he, graph_foldl_addReading]

theorem errors_ofTree (config : Config) (hs : cache.Sound) (h : tree.Spelled) (path : Path) :
    (ofTree config cache tree).errors.get? path =
      if path ∈ foundPaths config tree ∧ (found config tree path).errors ≠ [] then
        some (found config tree path).errors
      else none := by
  obtain ⟨cache', he⟩ := bound_eq config hs h
  rw [ofTree_eq, he]
  dsimp only
  rw [errors_foldl_addReading, OrderedMap.get?_empty]

theorem found_of_not_mem (h : tree.Spelled) (hp : path ∉ foundPaths config tree) :
    found config tree path = ∅ :=
  h.reading_of_not_mem hp

theorem readable_found (hp : path.Plain) : Binding.Readable (found config tree path) := by
  unfold found Tree.reading
  split
  · split
    · exact Binding.readable_reading hp
    · exact Binding.readable_empty
  · exact Binding.readable_empty

-- The errors of a build, as a session takes them over.
theorem reported_ofTree (hs : cache.Sound) (h : tree.Spelled) :
    ErrorStore.Reported (fun path => (found config tree path).errors)
      ((ofTree config cache tree).errors.entries.foldl
        (fun errors entry => errors.replaceExtraction entry.1 entry.2) (∅ : ErrorStore)) := by
  have hget := errors_ofTree config hs h
  have hlisted := ErrorStore.reported_entries (ofTree config cache tree).errors
    fun path errors he => by
      rw [hget] at he
      split at he
      · next hcond =>
        have hp := h.plain_readPaths _ hcond.1
        cases he
        exact ⟨hp, (readable_found hp).extraction⟩
      · cases he
  have hsame : (fun path => ((ofTree config cache tree).errors.get? path).getD []) =
      fun path => (found config tree path).errors := by
    funext path
    rw [hget]
    by_cases hp : path ∈ foundPaths config tree
    · by_cases hnil : (found config tree path).errors = [] <;> simp [hp, hnil]
    · rw [if_neg (fun hin => hp hin.1), found_of_not_mem h hp]
      rfl
  rwa [hsame] at hlisted

-- Every path of a built graph declares what is read at it.
theorem wired_ofTree (hl : config.linksAllChildren = true) (hs : cache.Sound) (h : tree.Spelled) :
    Graph.Wired true (fun path => (found config tree path).references.toList)
      (ofTree config cache tree).graph := by
  obtain ⟨hc, hw⟩ := well_nodes config tree
  rw [graph_ofTree hl hs h]
  refine Graph.Wired.linkAll ?_ (hc.declareAll _ _)
  have hall := hw.declareAll hc (fun path => (found config tree path).references.toList)
    (foundPaths config tree)
  have hsame : Graph.renewed (fun _ => [])
      (fun path => (found config tree path).references.toList) (foundPaths config tree) =
        fun path => (found config tree path).references.toList := by
    funext path
    unfold Graph.renewed
    split
    · rfl
    · next hp =>
      rw [found_of_not_mem h hp]
      rfl
  rwa [hsame] at hall

-- Builds of trees that differ in texts only have the same nodes.
theorem sameNodes_ofTree {cache' : Binding.Cache} (hl : config.linksAllChildren = true)
    (hs : cache.Sound) (hs' : cache'.Sound) (h : Tree.SameButTexts first second)
    (hspelled : first.Spelled) :
    Graph.SameNodes (ofTree config cache first).graph (ofTree config cache' second).graph := by
  have hc := (well_nodes config first).1
  have hc' := (well_nodes config second).1
  rw [graph_ofTree hl hs hspelled, graph_ofTree hl hs' (h.spelled hspelled)]
  refine ((hc.declareAll _ _).linksChildren_linkAll.nodes.symm.trans ?_).trans
    (hc'.declareAll _ _).linksChildren_linkAll.nodes
  rw [foundPaths, foundPaths, h.readPaths, nodes_congr h]
  exact (Graph.SameNodes.refl _).declareAll _ _ _

-- Listed paths are nodes of a build, if their entity takes part.
theorem contains_ofTree (hl : config.linksAllChildren = true) (hs : cache.Sound) (h : tree.Spelled)
    {entry : String × Entity} (he : entry ∈ tree.entities.entries)
    (hr : entry.2.reactive = true) (hp : path ∈ tree.entityPaths entry.1) :
    (ofTree config cache tree).graph.contains path = true := by
  rw [graph_ofTree hl hs h,
    ((well_nodes config tree).1.declareAll _ _).linksChildren_linkAll.nodes.contains]
  exact Graph.contains_declareAll ((holds_nodes he).nodes hr path hp)

-- Paths that are read are nodes of a build.
theorem contains_ofTree_of_read (hl : config.linksAllChildren = true) (hs : cache.Sound)
    (h : tree.Spelled) (hp : path ∈ foundPaths config tree) :
    (ofTree config cache tree).graph.contains path = true := by
  rw [graph_ofTree hl hs h,
    ((well_nodes config tree).1.declareAll _ _).linksChildren_linkAll.nodes.contains]
  exact Graph.contains_of_mem_declareAll hp

end Build

end Built

end Recalc
