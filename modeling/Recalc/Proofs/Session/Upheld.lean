import Recalc.Proofs.Session.Move

namespace Recalc.Batch

open Binding (Dependencies)

structure Upheld (config : Config) (keeps : Batch → Prop) : Prop where
  quiet {first second : Batch} (hk : keeps first) (h : Quiet first second) : keeps second
  grow {batch : Batch} (kind : Kind) (entries : List (Path × NodeKind)) (hk : keeps batch) :
    keeps (grow config kind entries batch)
  read {batch : Batch} (kind : Kind) (entry : Path × Dependencies) (hk : keeps batch) :
    keeps (applyReading config kind batch entry)

variable {config : Config} {keeps : Batch → Prop} {former tree : Tree} {batch : Batch}
  {entity : Entity} {name : String} {path : Path} {value : Option Value} {diff : Diff}
  {diffs : List Diff}

namespace Upheld

variable (h : Upheld config keeps)

include h

theorem readEntity (hk : keeps batch) : keeps (readEntity config name entity batch) := by
  unfold Batch.readEntity
  exact List.foldlRecOn _ _ (motive := keeps) (h.quiet hk ⟨rfl, rfl, rfl, rfl, rfl, fun _ => id⟩)
    fun now hnow entry _ => h.read entity.kind entry hnow

theorem readPath (hk : keeps batch) : keeps (readPath config entity path batch) := by
  unfold Batch.readPath
  exact h.read entity.kind _ (h.quiet hk ⟨rfl, rfl, rfl, rfl, rfl, fun _ => id⟩)

theorem touch (hk : keeps batch) : keeps (batch.touch path) :=
  h.quiet hk ⟨rfl, rfl, rfl, rfl, rfl, fun _ ht => OrderedSet.mem_insert.mpr (Or.inl ht)⟩

theorem addKeys (hk : keeps batch) (paths : List Path) : keeps (batch.addKeys paths) :=
  h.quiet hk ⟨rfl, rfl, rfl, rfl, rfl, fun _ => id⟩

theorem growNew (hk : keeps batch) : keeps (growNew config tree entity path value batch) := by
  have hpaths := h.grow entity.kind
    ((newPaths tree batch.graph path value).map fun path => (path, NodeKind.ofPath path))
    (h.addKeys hk (newPaths tree batch.graph path value))
  unfold Batch.growNew growSetters
  dsimp only
  split
  · exact h.grow entity.kind _ (h.addKeys hpaths _)
  · exact hpaths

theorem onNew (hk : keeps batch) : keeps (onNew config tree entity path value batch) := by
  rw [onNew_eq]
  refine h.touch ?_
  split
  · exact h.readPath (h.growNew hk)
  · exact h.readEntity (h.growNew hk)

theorem onEdit (hk : keeps batch) : keeps (onEdit config former tree entity path value batch) := by
  have hevicted : keeps { batch with
      cache := evictEdited former entity path (value.or (tree.get? path)) batch.cache } :=
    h.quiet hk ⟨rfl, rfl, rfl, rfl, rfl, fun _ => id⟩
  unfold Batch.onEdit
  dsimp only
  split
  · refine h.touch ?_
    split
    · exact h.readPath (h.addKeys hevicted _)
    · exact h.readPath hevicted
  · exact h.touch hevicted

theorem applyDiff
    (hdelete : diff.event = .delete → ∀ entity, former.entity? diff.target.entity = some entity →
      keeps batch → keeps (onDelete config former entity diff.target batch))
    (hk : keeps batch) : keeps (applyDiff config former tree batch diff) := by
  unfold Batch.applyDiff
  dsimp only
  split
  · exact hk
  · next entity he =>
    split
    · cases hevent : diff.event with
      | new => exact h.onNew hk
      | delete =>
          rw [hevent] at he
          exact hdelete hevent entity he hk
      | edit => exact h.onEdit hk
    · unfold onOutside
      split
      · exact h.quiet hk ⟨rfl, rfl, rfl, rfl, rfl, fun _ => id⟩
      · exact hk
      · exact hk

-- By induction on the diffs, each of which finds the property kept.
theorem applied
    (hdelete : ∀ diff ∈ diffs, diff.event = .delete → ∀ (batch : Batch) (entity : Entity),
      former.entity? diff.target.entity = some entity →
        keeps batch → keeps (onDelete config former entity diff.target batch))
    (hk : keeps batch) : keeps (batch.applied config former tree diffs) :=
  List.foldlRecOn diffs _ (motive := keeps) (h.quiet hk ⟨rfl, rfl, rfl, rfl, rfl, fun _ => id⟩)
    fun now hnow diff hd => h.applyDiff (fun hevent => hdelete diff hd hevent now) hnow

end Upheld

end Recalc.Batch
