import Recalc.Proofs.Session.Editing

namespace Recalc

open Binding (Dependencies)

theorem Keys.mem_removeAll {keys : Keys} {paths : List Path} {path : Path} :
    path ∈ keys.removeAll paths ↔ path ∈ keys ∧ path ∉ paths := by
  unfold Keys.removeAll
  induction paths generalizing keys with
  | nil => simp
  | cons other rest ih =>
      rw [List.foldl_cons, ih, Std.TreeSet.mem_erase, Ne, Std.compare_eq_iff_eq, List.mem_cons,
        not_or, and_comm (a := ¬other = path), and_assoc, eq_comm (a := other)]

namespace Path

variable {path : Path}

theorem eq_ofEntity (h : path.isEntity = true) : path = ofEntity path.entity := by
  cases path
  cases List.isEmpty_iff.mp h
  rfl

theorem isEntity_ofEntity (name : String) : (ofEntity name).isEntity = true := rfl

theorem ancestors_ofEntity (name : String) : (ofEntity name).ancestors = [] := rfl

end Path

namespace EntityConfig

theorem allIn_setterPaths (config : EntityConfig) (name : String) :
    Path.AllIn name (config.setterPaths name) := by
  intro path hp
  unfold setterPaths at hp
  split at hp
  · obtain ⟨setter, _, rfl⟩ := List.mem_map.mp hp
    rfl
  · exact absurd hp List.not_mem_nil

-- Entities outside the graph have no setters.
theorem setterPaths_of_not_reactive {entity : Entity} (h : entity.reactive = false)
    (name : String) : entity.config.setterPaths name = [] := by
  have hk : entity.config.kind.reactive = false := h
  unfold setterPaths
  cases hkind : entity.config.kind <;> rw [hkind] at hk <;> first | rfl | cases hk

end EntityConfig

namespace Tree

variable {tree first second : Tree} {name : String} {path : Path} {entity : Entity}

-- The keys that an entity brings.
def keyPaths (tree : Tree) (name : String) : List Path :=
  match tree.entity? name with
  | some entity => tree.entityPaths name ++ entity.config.setterPaths name
  | none => []

theorem keyPaths_of_entity? (he : tree.entity? name = some entity) :
    tree.keyPaths name = tree.entityPaths name ++ entity.config.setterPaths name := by
  rw [keyPaths, he]

theorem keyPaths_of_none (he : tree.entity? name = none) : tree.keyPaths name = [] := by
  rw [keyPaths, he]

theorem not_mem_keyPaths (he : tree.entity? name = none) : path ∉ tree.keyPaths name := by
  rw [keyPaths_of_none he]
  exact List.not_mem_nil

theorem exists_of_mem_keyPaths (hp : path ∈ tree.keyPaths name) :
    ∃ entity, tree.entity? name = some entity :=
  Option.ne_none_iff_exists'.mp fun hnone => not_mem_keyPaths hnone hp

theorem keyPaths_congr (h : second.entity? name = first.entity? name) :
    second.keyPaths name = first.keyPaths name := by
  rw [keyPaths, keyPaths, entityPaths, entityPaths, h]

theorem allIn_keyPaths (tree : Tree) (name : String) : Path.AllIn name (tree.keyPaths name) := by
  unfold keyPaths
  split
  · exact List.forall_mem_append.mpr ⟨allIn_entityPaths tree name, EntityConfig.allIn_setterPaths _ _⟩
  · exact fun _ hp => absurd hp List.not_mem_nil

theorem pathsUnder_ofEntity (tree : Tree) (name : String) :
    tree.pathsUnder (.ofEntity name) = tree.entityPaths name := by
  have hget : tree.get? (.ofEntity name) = (tree.entity? name).map Entity.value := by
    show (match tree.entity? name with
      | some entity => some entity.value
      | none => none) = _
    cases tree.entity? name <;> rfl
  rw [pathsUnder, hget, entityPaths]
  cases tree.entity? name <;> rfl

-- A whole entity is no property.
theorem isDynamicLeaf_ofEntity (tree : Tree) (name : String) :
    tree.isDynamicLeaf (.ofEntity name) = false := by
  unfold isDynamicLeaf
  split <;> rfl

theorem entityPaths_ne_nil (he : tree.entity? name = some entity) : tree.entityPaths name ≠ [] := by
  unfold entityPaths
  rw [he]
  exact List.ne_nil_of_mem (Path.mem_allBelow_self _ _)

end Tree

namespace Config

-- The functions of the platform, as paths.
def functionPaths (config : Config) : List Path :=
  config.internalFunctions.toList.map Path.ofEntity

end Config

namespace Built

variable {config : Config} {tree : Tree} {path : Path}

theorem mem_keys_addEntity {state : Graph × Keys} {entry : String × Entity}
    (he : tree.entity? entry.1 = some entry.2) :
    path ∈ (addEntity tree state entry).2 ↔ path ∈ state.2 ∨ path ∈ tree.keyPaths entry.1 := by
  rw [Tree.keyPaths_of_entity? he]
  unfold addEntity
  dsimp only
  split
  · rw [mem_addAll, mem_addAll, List.mem_append, or_assoc]
  · next hr =>
    rw [mem_addAll, EntityConfig.setterPaths_of_not_reactive (by simpa using hr), List.append_nil]

-- The keys of a build.
theorem mem_keys_nodes : path ∈ (nodes config tree).2 ↔
    path ∈ tree.keyPaths path.entity ∨ path ∈ config.functionPaths := by
  have hfold : ∀ (entries : List (String × Entity)),
      (∀ entry ∈ entries, tree.entity? entry.1 = some entry.2) → ∀ state : Graph × Keys,
        path ∈ (entries.foldl (addEntity tree) state).2 ↔
          path ∈ state.2 ∨ ∃ entry ∈ entries, path ∈ tree.keyPaths entry.1 := by
    intro entries
    induction entries with
    | nil => simp
    | cons entry rest ih =>
        intro he state
        obtain ⟨hentry, hrest⟩ := List.forall_mem_cons.mp he
        rw [List.foldl_cons, ih hrest, mem_keys_addEntity hentry, or_assoc]
        simp only [List.mem_cons, exists_eq_or_imp]
  show path ∈ Keys.addAll _ config.functionPaths ↔ _
  rw [mem_addAll, hfold _ fun entry he => OrderedMap.get?_eq_some_iff.mpr he]
  refine or_congr ⟨?_, fun hp => Or.inr ?_⟩ Iff.rfl
  · rintro (hnone | ⟨entry, _, hp⟩)
    · exact absurd hnone Std.TreeSet.not_mem_emptyc
    · rwa [tree.allIn_keyPaths entry.1 path hp]
  · obtain ⟨entity, he⟩ := Tree.exists_of_mem_keyPaths hp
    exact ⟨_, OrderedMap.get?_eq_some_iff.mp he, hp⟩

end Built

namespace Batch

variable {config : Config} {former tree : Tree} {batch : Batch} {entity : Entity} {name : String}
  {path target : Path} {keys : Keys} {diff : Diff} {kind : Kind} {value : Option Value}
  {missing : Bool}

-- A whole entity of the graph that comes in, and one that goes.
theorem applyDiff_new (hevent : diff.event = .new) (htarget : diff.target = .ofEntity name)
    (he : tree.entity? name = some entity) (hr : entity.reactive = true) :
    applyDiff config former tree batch diff =
      onNew config tree entity (.ofEntity name) diff.value batch := by
  unfold applyDiff
  rw [hevent, htarget]
  dsimp only [Path.ofEntity]
  rw [he]
  exact if_pos hr

theorem applyDiff_new_outside (hevent : diff.event = .new)
    (htarget : diff.target = .ofEntity name) (he : tree.entity? name = some entity)
    (hr : entity.reactive = false) : applyDiff config former tree batch diff = batch := by
  unfold applyDiff
  rw [hevent, htarget]
  dsimp only [Path.ofEntity]
  rw [he]
  exact if_neg (by simp [hr])

theorem applyDiff_delete (hevent : diff.event = .delete) (htarget : diff.target = .ofEntity name)
    (he : former.entity? name = some entity) (hr : entity.reactive = true) :
    applyDiff config former tree batch diff =
      onDelete config former entity (.ofEntity name) batch := by
  unfold applyDiff
  rw [hevent, htarget]
  dsimp only [Path.ofEntity]
  rw [he]
  exact if_pos hr

theorem applyDiff_edit (hevent : diff.event = .edit)
    (he : tree.entity? diff.target.entity = some entity) (hr : entity.reactive = true) :
    applyDiff config former tree batch diff =
      onEdit config former tree entity diff.target diff.value batch := by
  unfold applyDiff
  rw [hevent]
  dsimp only
  rw [he]
  exact if_pos hr

theorem mem_registerKeys (hwhole : diff.event = .new → diff.target.isEntity = true) :
    path ∈ registerKeys tree keys diff ↔
      path ∈ keys ∨ diff.event = .new ∧ path ∈ tree.keyPaths diff.target.entity := by
  unfold registerKeys
  cases hevent : diff.event with
  | new =>
      dsimp only
      cases he : tree.entity? diff.target.entity with
      | none => simp [Tree.keyPaths_of_none he]
      | some entity =>
          dsimp only
          have hwhole := hwhole hevent
          rw [if_pos hwhole, Built.mem_addAll, Tree.keyPaths_of_entity? he,
            Path.eq_ofEntity hwhole, Path.ancestors_ofEntity, Tree.pathsUnder_ofEntity]
          simp [Path.ofEntity]
  | delete => simp
  | edit => simp

theorem mem_foldl_registerKeys {diffs : List Diff}
    (hwhole : ∀ diff ∈ diffs, diff.event = .new → diff.target.isEntity = true) :
    path ∈ diffs.foldl (registerKeys tree) keys ↔ path ∈ keys ∨
      ∃ diff ∈ diffs, diff.event = .new ∧ path ∈ tree.keyPaths diff.target.entity := by
  induction diffs generalizing keys with
  | nil => simp
  | cons diff rest ih =>
      obtain ⟨hdiff, hrest⟩ := List.forall_mem_cons.mp hwhole
      rw [List.foldl_cons, ih hrest, mem_registerKeys hdiff, or_assoc]
      simp only [List.mem_cons, exists_eq_or_imp]

theorem keys_grow (entries : List (Path × NodeKind)) :
    (grow config kind entries batch).keys = batch.keys := by
  unfold grow recordAdded
  split <;> rfl

theorem keys_foldl_applyReading (entries : List (Path × Dependencies)) :
    (entries.foldl (applyReading config kind) batch).keys = batch.keys :=
  List.foldlRecOn entries _ (motive := fun now : Batch => now.keys = batch.keys) rfl
    fun _ h _ _ => h

theorem keys_readEntity : (readEntity config name entity batch).keys = batch.keys :=
  keys_foldl_applyReading _

theorem newPaths_ofEntity (he : tree.entity? name = some entity) (graph : Graph)
    (value : Option Value) :
    newPaths tree graph (.ofEntity name) value = tree.entityPaths name := by
  unfold newPaths
  rw [Path.ancestors_ofEntity, Tree.pathsUnder_ofEntity]
  dsimp only
  rw [if_neg (mt List.isEmpty_iff.mp (Tree.entityPaths_ne_nil he))]
  rfl

theorem mem_keys_growSetters :
    path ∈ (growSetters config entity target missing batch).keys ↔ path ∈ batch.keys ∨
      (target.isEntity || missing) = true ∧ path ∈ entity.config.setterPaths target.entity := by
  unfold growSetters
  split
  · next hcond =>
    rw [keys_grow, hcond, and_iff_right rfl]
    exact Built.mem_addAll
  · next hcond => simp [hcond]

theorem mem_keys_growNew_iff :
    path ∈ (growNew config tree entity target value batch).keys ↔
      path ∈ batch.keys ∨ path ∈ newPaths tree batch.graph target value ∨
        (target.isEntity || !batch.graph.contains (.ofEntity target.entity)) = true ∧
          path ∈ entity.config.setterPaths target.entity := by
  rw [growNew, mem_keys_growSetters, keys_grow, ← or_assoc]
  exact or_congr Built.mem_addAll Iff.rfl

-- When an entity comes in, all that it holds is known before it is read.
theorem mem_keys_growNew (he : tree.entity? name = some entity) (value : Option Value) :
    path ∈ (growNew config tree entity (.ofEntity name) value batch).keys ↔
      path ∈ batch.keys ∨ path ∈ tree.keyPaths name := by
  rw [mem_keys_growNew_iff, newPaths_ofEntity he, Path.isEntity_ofEntity, Bool.true_or,
    and_iff_right rfl, ← List.mem_append, Tree.keyPaths_of_entity? he]
  exact Iff.rfl

theorem keys_onNew : (onNew config tree entity target value batch).keys =
    (growNew config tree entity target value batch).keys := by
  rw [onNew_eq, touch]
  dsimp only
  split
  · rfl
  · exact keys_readEntity

theorem mem_keys_onDelete_iff :
    path ∈ (onDelete config former entity target batch).keys ↔
      path ∈ batch.keys ∧ path ∉ gone former entity target := by
  rw [onDelete_eq, field_foldl_forget _ _ _ Batch.keys fun _ _ => rfl]
  exact Keys.mem_removeAll

theorem removedPaths_ofEntity (he : former.entity? name = some entity) :
    removedPaths former (.ofEntity name) = former.entityPaths name := by
  unfold removedPaths
  rw [Tree.pathsUnder_ofEntity, if_neg (mt List.isEmpty_iff.mp (Tree.entityPaths_ne_nil he))]

theorem removedSetters_ofEntity (entity : Entity) (name : String) :
    removedSetters entity (.ofEntity name) = entity.config.setterPaths name :=
  if_pos (Path.isEntity_ofEntity name)

-- A whole entity goes with all that it brings.
theorem gone_ofEntity (he : former.entity? name = some entity) :
    gone former entity (.ofEntity name) = former.keyPaths name := by
  rw [gone, removedPaths_ofEntity he, removedSetters_ofEntity, Tree.keyPaths_of_entity? he]

theorem mem_keys_onEdit_iff :
    path ∈ (onEdit config former tree entity target value batch).keys ↔ path ∈ batch.keys ∨
      (textOf? (value.or (tree.get? target))).isSome = true ∧
        (tree.get? target).isSome = true ∧ path = target := by
  unfold onEdit touch
  dsimp only
  split
  · next htext =>
    rw [htext, and_iff_right rfl]
    split
    · next hthere =>
      rw [hthere, and_iff_right rfl]
      show path ∈ Keys.addAll batch.keys [target] ↔ _
      rw [Built.mem_addAll, List.mem_singleton]
    · next hmissing =>
      show path ∈ batch.keys ↔ _
      simp [hmissing]
  · next htext => simp [htext]

theorem mem_keys_onOutside (he : former.entity? name = some entity)
    (hr : entity.reactive = false) :
    path ∈ (onOutside former .delete (.ofEntity name) batch).keys ↔
      path ∈ batch.keys ∧ path ∉ former.keyPaths name := by
  rw [Tree.keyPaths_of_entity? he, EntityConfig.setterPaths_of_not_reactive hr, List.append_nil,
    ← Tree.pathsUnder_ofEntity]
  exact Keys.mem_removeAll

-- An entity that is known beforehand adds nothing when it comes in.
theorem mem_keys_applyDiff_new (hwhole : diff.target.isEntity = true) (hevent : diff.event = .new)
    (hknown : ∀ key ∈ tree.keyPaths diff.target.entity, key ∈ batch.keys) :
    path ∈ (applyDiff config former tree batch diff).keys ↔ path ∈ batch.keys := by
  unfold applyDiff
  rw [hevent]
  dsimp only
  split
  · exact Iff.rfl
  · next entity he =>
    split
    · rw [Path.eq_ofEntity hwhole, keys_onNew, mem_keys_growNew he]
      exact or_iff_left_of_imp (hknown path)
    · exact Iff.rfl

-- An entity that goes takes its keys.
theorem mem_keys_applyDiff_delete (hwhole : diff.target.isEntity = true)
    (hevent : diff.event = .delete) :
    path ∈ (applyDiff config former tree batch diff).keys ↔
      path ∈ batch.keys ∧ path ∉ former.keyPaths diff.target.entity := by
  unfold applyDiff
  rw [hevent]
  dsimp only
  split
  · next he => simp [Tree.keyPaths_of_none he]
  · next entity he =>
    rw [Path.eq_ofEntity hwhole]
    split
    · rw [mem_keys_onDelete_iff, gone_ofEntity he]
      exact Iff.rfl
    · next hr => exact mem_keys_onOutside he (by simpa using hr)

end Batch

end Recalc
