import Recalc.Proofs.Binding.Locality
import Recalc.Proofs.Graph.Lasting
import Recalc.Proofs.Session.Known

namespace Recalc

open Binding (Dependencies)

namespace Tree

theorem ne_of_mem_reading {config : Config} {known : Path → Bool} {tree : Tree}
    {path target : Path} (h : target ∈ (tree.reading config known path).references) :
    target ≠ path := by
  unfold reading at h
  split at h
  · split at h
    · exact Binding.ne_of_mem_references_reading h
    · exact absurd h (OrderedSet.not_mem_empty target)
  · exact absurd h (OrderedSet.not_mem_empty target)

end Tree

-- What a path declares, its direct children aside, if it may declare at all.
structure Graph.Settled (graph : Graph) (path : Path) (wanted : Path → Prop) : Prop where
  consistent : graph.Consistent
  declares : ∃ id kind, graph.Declares id path kind
    fun target => kind.acceptsDependencies = true ∧ wanted target

-- In a graph in closed form every node has settled what its path declares.
theorem Graph.Wired.settled {graph : Graph} {linked : Bool} {declared : Path → List Path}
    {path : Path} (h : Wired linked declared graph) (hc : graph.Consistent)
    (hcontains : graph.contains path = true) (hself : ∀ target ∈ declared path, target ≠ path) :
    graph.Settled path fun target => target ∈ declared path := by
  obtain ⟨id, hp⟩ := hc.contains_iff.mp hcontains
  obtain ⟨kind, hl⟩ := path?_eq_some_iff.mp hp
  refine ⟨hc, id, kind, hl, fun j target hj hchild => ?_, fun target hchild => ?_⟩
  · have hstruct : graph.isStructural id j = false := by
      simp [Graph.isStructural, hp, hj, hchild]
    by_cases ha : graph.Accepts id
    · rw [h.reads id j path hp ha]
      simp only [hc.id?_iff, hj, Option.some_inj, hstruct, (accepts_iff_of_label hl).mp ha,
        Bool.false_eq_true, and_false, or_false, true_and]
      constructor
      · rintro ⟨other, ho, _, rfl⟩
        exact ho
      · exact fun ht => ⟨target, ht, hself target ht, rfl⟩
    · exact iff_of_false (fun hr => ha (hc.reads_accepts id j hr))
        fun hw => ha ((accepts_iff_of_label hl).mpr hw.1)
  · by_cases ha : graph.Accepts id
    · rw [h.awaits id target path hp ha, and_iff_right ((accepts_iff_of_label hl).mp ha), ← and_assoc,
        and_iff_left_of_imp (hself target)]
    · exact iff_of_false (fun hr => ha (hc.awaits_accepts id target hr))
        fun hw => ha ((accepts_iff_of_label hl).mpr hw.1.1)

theorem Graph.Settled.congr {graph : Graph} {path : Path} {wanted others : Path → Prop}
    (h : graph.Settled path wanted) (hw : ∀ target, wanted target ↔ others target) :
    graph.Settled path others := by
  obtain ⟨id, kind, hd⟩ := h.declares
  exact ⟨h.consistent, id, kind, hd.congr fun target => and_congr_right fun _ => hw target⟩

namespace Batch

variable {config : Config} {former tree : Tree} {batch : Batch} {kind : Kind} {entity : Entity}
  {path target : Path} {wanted : Path → Prop} {name : String}

section Others

theorem settled_grow (h : batch.graph.Settled path wanted) (config : Config) (kind : Kind)
    (entries : List (Path × NodeKind)) :
    (grow config kind entries batch).graph.Settled path wanted := by
  obtain ⟨id, nodeKind, hd⟩ := h.declares
  exact ⟨consistent_grow h.consistent config kind entries, id, nodeKind,
    (hd.addEntries h.consistent entries true).linksChildren
      (linksChildren_grow h.consistent config kind entries)⟩

theorem settled_applyReading (h : batch.graph.Settled path wanted) (config : Config) (kind : Kind)
    (found : Dependencies) (hne : target ≠ path) :
    (applyReading config kind batch (target, found)).graph.Settled path wanted := by
  obtain ⟨id, nodeKind, hd⟩ := h.declares
  exact ⟨consistent_applyReading h.consistent config kind target found, id, nodeKind,
    (hd.addDependency h.consistent hne _).linksChildren
      (linksChildren_applyReading h.consistent config kind target found)⟩

theorem settled_foldl_applyReading (h : batch.graph.Settled path wanted) (config : Config)
    (kind : Kind) {entries : List (Path × Dependencies)} (hne : path ∉ entries.map Prod.fst) :
    (entries.foldl (applyReading config kind) batch).graph.Settled path wanted :=
  List.foldlRecOn entries _ (motive := fun now : Batch => now.graph.Settled path wanted) h
    fun _ hnow entry he => settled_applyReading hnow config kind entry.2
      fun heq => hne (heq ▸ List.mem_map_of_mem he)

theorem settled_readEntity (h : batch.graph.Settled path wanted) (hcache : batch.cache.Sound)
    (ht : tree.Spelled) (he : tree.entity? name = some entity) (hne : name ≠ path.entity) :
    (readEntity config name entity batch).graph.Settled path wanted := by
  unfold readEntity
  dsimp only
  rw [(Binding.ofEntity_eq config batch.keys.contains name entity hcache).1]
  refine settled_foldl_applyReading (by exact h) config entity.kind fun hp => hne ?_
  exact (ht.allIn_readings (OrderedMap.get?_eq_some_iff.mp he) path hp).symm

theorem settled_growSetters (h : batch.graph.Settled path wanted) (config : Config)
    (entity : Entity) (target : Path) (missing : Bool) :
    (growSetters config entity target missing batch).graph.Settled path wanted := by
  have hadd : (batch.addKeys (entity.config.setterPaths target.entity)).graph.Settled path wanted := h
  unfold growSetters
  split
  · exact settled_grow hadd config entity.kind _
  · exact h

theorem settled_growNew (h : batch.graph.Settled path wanted) (config : Config) (tree : Tree)
    (entity : Entity) (target : Path) (value : Option Value) :
    (growNew config tree entity target value batch).graph.Settled path wanted := by
  have hadd : (batch.addKeys (newPaths tree batch.graph target value)).graph.Settled path wanted := h
  exact settled_growSetters (settled_grow hadd config entity.kind _) config entity target _

theorem settled_onNew (h : batch.graph.Settled path wanted) (hcache : batch.cache.Sound)
    (ht : tree.Spelled) (he : tree.entity? target.entity = some entity)
    (hne : target.entity ≠ path.entity) (value : Option Value) :
    (onNew config tree entity target value batch).graph.Settled path wanted := by
  have hgrown := settled_growNew h config tree entity target value
  have hsound := (Proceeds.growNew config tree tree entity target value batch).cache hcache
  rw [onNew_eq]
  unfold touch
  dsimp only
  split
  · exact settled_applyReading (by exact hgrown) config entity.kind _
      fun heq => hne (congrArg Path.entity heq)
  · exact settled_readEntity hgrown hsound ht he hne

theorem allIn_removedSetters (entity : Entity) (target : Path) :
    Path.AllIn target.entity (removedSetters entity target) := by
  unfold removedSetters
  split
  · exact entity.config.allIn_setterPaths target.entity
  · exact fun _ hp => absurd hp List.not_mem_nil

theorem settled_onDelete (h : batch.graph.Settled path wanted) (hne : target.entity ≠ path.entity) :
    (onDelete config former entity target batch).graph.Settled path wanted := by
  have hsetters : path ∉ removedSetters entity target :=
    fun hp => hne (allIn_removedSetters entity target path hp).symm
  have hpaths : path ∉ removedPaths former target :=
    fun hp => hne (allIn_removedPaths former target path hp).symm
  obtain ⟨id, nodeKind, hd⟩ := h.declares
  rw [onDelete_eq, graph_foldl_forget]
  exact ⟨consistent_deleted former entity target h.consistent, id, nodeKind,
    (hd.removeNodes h.consistent hsetters).removeNodes (h.consistent.removeNodes _) hpaths⟩

theorem settled_onEdit (h : batch.graph.Settled path wanted) (hne : target.entity ≠ path.entity)
    (value : Option Value) :
    (onEdit config former tree entity target value batch).graph.Settled path wanted := by
  have hread : ∀ {batch : Batch}, batch.graph.Settled path wanted →
      (readPath config entity target batch).graph.Settled path wanted := fun hb =>
    settled_applyReading (by exact hb) config entity.kind _ fun heq => hne (congrArg Path.entity heq)
  unfold onEdit touch
  dsimp only
  split
  · split <;> exact hread h
  · exact h

theorem graph_onOutside (event : Event) :
    (onOutside former event target batch).graph = batch.graph := by
  cases event <;> rfl

-- What a path declares is left alone by whatever happens to other entities.
theorem settled_applyDiff (h : batch.graph.Settled path wanted) (hcache : batch.cache.Sound)
    (ht : tree.Spelled) {diff : Diff} (hne : diff.target.entity ≠ path.entity) :
    (applyDiff config former tree batch diff).graph.Settled path wanted := by
  unfold applyDiff
  dsimp only
  split
  · exact h
  · next entity he =>
    split
    · split
      · next hevent =>
        rw [hevent] at he
        exact settled_onNew h hcache ht he hne _
      · exact settled_onDelete h hne
      · exact settled_onEdit h hne _
    · rw [graph_onOutside]
      exact h

end Others

section Own

theorem consistent_foldl_applyReading (h : batch.graph.Consistent) (config : Config) (kind : Kind)
    (entries : List (Path × Dependencies)) :
    (entries.foldl (applyReading config kind) batch).graph.Consistent :=
  List.foldlRecOn entries _ (motive := fun now : Batch => now.graph.Consistent) h
    fun _ hnow entry _ => consistent_applyReading hnow config kind entry.1 entry.2

-- A path that is read declares what it reads.
theorem settled_reading (h : batch.graph.Consistent) (config : Config) (kind : Kind)
    (found : Dependencies) (hself : ∀ target ∈ found.references, target ≠ path) :
    (applyReading config kind batch (path, found)).graph.Settled path
      fun target => target ∈ found.references := by
  obtain ⟨id, nodeKind, hd⟩ := h.declares_addDependency path found.references.toList
  have hl := linksChildren_applyReading h config kind path found
  refine ⟨consistent_applyReading h config kind path found, id, nodeKind, ?_⟩
  refine (hd.linksChildren hl).congr fun target => and_congr_right fun _ => ?_
  exact and_iff_left_of_imp (hself target)

-- Of the readings of an entity the one of the path counts, since each path is
-- read once.
theorem settled_readEntity_own (h : batch.graph.Consistent) (hcache : batch.cache.Sound)
    (ht : tree.Spelled) (he : tree.entity? name = some entity)
    (hp : path ∈ (Binding.readings config batch.keys.contains name entity).keys) :
    (readEntity config name entity batch).graph.Settled path
      fun target => target ∈ (tree.reading config batch.keys.contains path).references := by
  have hm : (name, entity) ∈ tree.entities.entries := OrderedMap.get?_eq_some_iff.mp he
  unfold readEntity
  dsimp only
  rw [(Binding.ofEntity_eq config batch.keys.contains name entity hcache).1,
    ht.entries_readings hm]
  obtain ⟨before, after, hsplit⟩ := List.append_of_mem hp
  have hnodup := (Binding.readings config batch.keys.contains name entity).nodup
  have hafter : path ∉ after := by
    have hnodup : (before ++ path :: after).Nodup := hsplit ▸ hnodup
    exact (List.nodup_cons.mp hnodup.of_append_right).1
  rw [show (Binding.readings config batch.keys.contains (name, entity).1 (name, entity).2).keys =
    _ from hsplit, List.map_append, List.foldl_append, List.map_cons, List.foldl_cons]
  refine settled_foldl_applyReading (settled_reading ?_ config entity.kind _ fun target ht => ?_)
    config entity.kind ?_
  · exact consistent_foldl_applyReading (by exact h) config entity.kind _
  · exact Tree.ne_of_mem_reading ht
  · rw [List.map_map]
    exact fun hin => hafter (by simpa using hin)

-- An entity that comes in is read against what is known, all of its own paths
-- among it.
theorem settled_onNew_own (h : batch.graph.Consistent) (hcache : batch.cache.Sound)
    (ht : tree.Spelled) (he : tree.entity? name = some entity)
    (hknown : ∀ key ∈ tree.keyPaths name, key ∈ batch.keys)
    (hp : path ∈ (Binding.readings config batch.keys.contains name entity).keys)
    (value : Option Value) :
    (onNew config tree entity (.ofEntity name) value batch).graph.Settled path
      fun target => target ∈ (tree.reading config batch.keys.contains path).references := by
  have hproceeds := Proceeds.growNew config tree tree entity (.ofEntity name) value batch
  have hkeys : (growNew config tree entity (.ofEntity name) value batch).keys.contains =
      batch.keys.contains := Keys.contains_congr fun key =>
    (mem_keys_growNew he value).trans (or_iff_left_of_imp (hknown key))
  rw [← hkeys] at hp ⊢
  rw [onNew_eq, if_neg (by simp [Tree.isDynamicLeaf_ofEntity])]
  exact settled_readEntity_own (consistent_moves h hproceeds.moves) (hproceeds.cache hcache) ht he hp

end Own

end Batch

end Recalc
