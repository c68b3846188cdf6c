import Recalc.Proofs.Binding.Locality
import Recalc.Proofs.Graph.Drift
import Recalc.Proofs.Session.Known

namespace Recalc

namespace Graph

variable {graph : Graph} {path other : Path} {targets : List Path}

theorem contains_ensure_iff :
    (graph.ensure other).contains path = true ↔ graph.contains path = true ∨ path = other := by
  unfold ensure
  split
  · next hc =>
    refine (or_iff_left_of_imp ?_).symm
    rintro rfl
    exact hc
  · exact contains_insertNode

theorem contains_addDependency : (graph.addDependency other targets).1.contains path = true ↔
    graph.contains path = true ∨ path = other := by
  rw [(sameNodes_addDependency graph other targets).contains, contains_ensure_iff]

end Graph

namespace Batch

variable {config : Config} {former tree : Tree} {batch : Batch} {kind : Kind} {entity : Entity}
  {path target : Path} {name : String} {value : Option Value} {missing : Bool}
  {entries : List (Path × NodeKind)}

variable (h : batch.graph.Consistent)

include h

theorem contains_grow : (grow config kind entries batch).graph.contains path = true ↔
    batch.graph.contains path = true ∨ path ∈ entries.map Prod.fst := by
  rw [(linksChildren_grow h config kind entries).nodes.contains]
  exact Graph.contains_addEntries

theorem contains_applyReading {found : Binding.Dependencies} :
    (applyReading config kind batch (target, found)).graph.contains path = true ↔
      batch.graph.contains path = true ∨ path = target := by
  rw [(linksChildren_applyReading h config kind target found).nodes.contains]
  exact Graph.contains_addDependency

theorem contains_foldl_applyReading {readings : List (Path × Binding.Dependencies)} :
    (readings.foldl (applyReading config kind) batch).graph.contains path = true ↔
      batch.graph.contains path = true ∨ path ∈ readings.map Prod.fst := by
  induction readings generalizing batch with
  | nil => simp
  | cons reading rest ih =>
      rw [List.foldl_cons, ih (consistent_applyReading h config kind reading.1 reading.2),
        contains_applyReading h, List.map_cons, List.mem_cons, or_assoc]

theorem contains_readEntity (hs : batch.cache.Sound) (known : Path → Bool) :
    (readEntity config name entity batch).graph.contains path = true ↔
      batch.graph.contains path = true ∨
        path ∈ (Binding.readings config known name entity).keys := by
  unfold readEntity
  dsimp only
  rw [(Binding.ofEntity_eq config batch.keys.contains name entity hs).1,
    contains_foldl_applyReading (by exact h), ← Binding.keys_readings_congr rfl]
  rfl

theorem contains_readPath : (readPath config entity target batch).graph.contains path = true ↔
    batch.graph.contains path = true ∨ path = target :=
  contains_applyReading (by exact h)

theorem contains_growSetters :
    (growSetters config entity target missing batch).graph.contains path = true ↔
      batch.graph.contains path = true ∨
        (target.isEntity || missing) = true ∧ path ∈ entity.config.setterPaths target.entity := by
  unfold growSetters
  split
  · next hcond =>
    rw [contains_grow (by exact h), hcond, List.map_map]
    simp [addKeys, Function.comp_def]
  · next hcond => simp [hcond]

theorem consistent_growSetters :
    (growSetters config entity target missing batch).graph.Consistent := by
  unfold growSetters
  split
  · exact consistent_grow (by exact h) config _ _
  · exact h

theorem consistent_growNew :
    (growNew config tree entity target value batch).graph.Consistent :=
  consistent_growSetters (consistent_grow (by exact h) config _ _)

theorem contains_growNew :
    (growNew config tree entity target value batch).graph.contains path = true ↔
      batch.graph.contains path = true ∨ path ∈ newPaths tree batch.graph target value ∨
        (target.isEntity || !batch.graph.contains (.ofEntity target.entity)) = true ∧
          path ∈ entity.config.setterPaths target.entity := by
  unfold growNew
  dsimp only
  rw [contains_growSetters (consistent_grow (by exact h) config _ _), contains_grow (by exact h),
    List.map_map, or_assoc]
  simp [addKeys, Function.comp_def]

theorem contains_growNew_ofEntity (he : tree.entity? name = some entity) :
    (growNew config tree entity (.ofEntity name) value batch).graph.contains path = true ↔
      batch.graph.contains path = true ∨ path ∈ tree.keyPaths name := by
  rw [contains_growNew h, newPaths_ofEntity he, Path.isEntity_ofEntity, Bool.true_or,
    and_iff_right rfl, ← List.mem_append, Tree.keyPaths_of_entity? he]
  exact Iff.rfl

theorem contains_onNew (hs : batch.cache.Sound) (known : Path → Bool) :
    (onNew config tree entity target value batch).graph.contains path = true ↔
      (growNew config tree entity target value batch).graph.contains path = true ∨
        if tree.isDynamicLeaf target = true then path = target
        else path ∈ (Binding.readings config known target.entity entity).keys := by
  have hgrown : (growNew config tree entity target value batch).graph.Consistent :=
    consistent_growNew h
  have hsound := (Proceeds.growNew config tree tree entity target value batch).cache hs
  rw [onNew_eq, touch]
  dsimp only
  split
  · exact contains_readPath hgrown
  · exact contains_readEntity hgrown hsound known

theorem contains_onDelete :
    (onDelete config former entity target batch).graph.contains path = true ↔
      batch.graph.contains path = true ∧ path ∉ gone former entity target := by
  rw [onDelete_eq, graph_foldl_forget]
  show ((batch.graph.removeNodes _).1.removeNodes _).1.contains path = true ↔ _
  rw [(h.removeNodes _).contains_removeNodes, h.contains_removeNodes, gone, List.mem_append, not_or,
    and_assoc, and_comm (a := path ∉ removedSetters entity target)]

theorem contains_onEdit :
    (onEdit config former tree entity target value batch).graph.contains path = true ↔
      batch.graph.contains path = true ∨
        (textOf? (value.or (tree.get? target))).isSome = true ∧ path = target := by
  unfold onEdit touch
  dsimp only
  split
  · next htext =>
    rw [htext, and_iff_right rfl]
    split
    · exact contains_readPath (by exact h)
    · exact contains_readPath (by exact h)
  · next htext => simp [htext]

end Batch

end Recalc
