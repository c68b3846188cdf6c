import Recalc.Proofs.Binding.Usage
import Recalc.Proofs.Session.Coherence

namespace Recalc

open Binding (Form Cache)
open Binding.Cache (Uses Bounded)

-- A text that may be asked for in a tree: a path that is scanned holds it, as
-- the configuration spells the path or as a diff does.
def Tree.Asks (tree : Tree) (form : Form) (text : String) : Prop :=
  ∃ name entity path, tree.entity? name = some entity ∧ entity.reactive = true ∧
    Binding.Holds entity path form text ∧
      ((∃ relative ∈ entity.config.scannedPaths, path = Path.ofRelative name relative) ∨
        path.entity = name ∧ (∃ raw, path = Path.parseLenient raw) ∧
          entity.config.isDynamic path.relative = true)

namespace Batch

variable {config : Config} {former tree : Tree} {batch : Batch} {entity : Entity} {name : String}
  {path : Path} {value : Option Value} {diff : Diff} {diffs : List Diff}

theorem cache_foldl_applyReading (config : Config) (kind : Kind)
    (readings : List (Path × Binding.Dependencies)) (batch : Batch) :
    (readings.foldl (applyReading config kind) batch).cache = batch.cache :=
  List.foldlRecOn readings _ (motive := fun now : Batch => now.cache = batch.cache) rfl
    fun _ hnow _ _ => hnow

theorem uses_readEntity (he : tree.entity? name = some entity) :
    Uses tree.Asks batch.cache (readEntity config name entity batch).cache := by
  unfold readEntity
  dsimp only
  rw [cache_foldl_applyReading]
  exact Binding.uses_ofEntity fun hr relative hrelative form text hholds =>
    ⟨name, entity, _, he, hr, hholds, Or.inl ⟨relative, hrelative, rfl⟩⟩

theorem uses_readPath (batch : Batch) (he : tree.entity? path.entity = some entity)
    (hr : entity.reactive = true) (hp : ∃ raw, path = Path.parseLenient raw) :
    Uses tree.Asks batch.cache (readPath config entity path batch).cache :=
  Binding.uses_ofPath fun hd _ _ hholds =>
    ⟨path.entity, entity, path, he, hr, hholds, Or.inr ⟨rfl, hp, hd⟩⟩

theorem cache_grow (config : Config) (kind : Kind) (entries : List (Path × NodeKind))
    (batch : Batch) : (grow config kind entries batch).cache = batch.cache := by
  unfold grow recordAdded
  split <;> rfl

theorem cache_growNew (config : Config) (tree : Tree) (entity : Entity) (path : Path)
    (value : Option Value) (batch : Batch) :
    (growNew config tree entity path value batch).cache = batch.cache := by
  unfold growNew growSetters
  split
  · exact (cache_grow ..).trans (cache_grow ..)
  · exact cache_grow ..

theorem uses_onNew (he : tree.entity? path.entity = some entity) (hr : entity.reactive = true)
    (hp : ∃ raw, path = Path.parseLenient raw) :
    Uses tree.Asks batch.cache (onNew config tree entity path value batch).cache := by
  rw [onNew_eq, ← cache_growNew config tree entity path value batch]
  split
  · exact uses_readPath _ he hr hp
  · exact uses_readEntity he

theorem uses_evictTexts {asked : Form → String → Prop} (form : Option Form) (cache : Cache)
    (paths : List Path) : Uses asked cache (evictTexts former form cache paths) := by
  unfold evictTexts
  split
  · exact .refl
  · next form =>
    refine List.foldlRecOn paths _ (motive := Uses asked cache) .refl fun now hnow path _ => ?_
    split
    · exact hnow.tail (.drop now form _)
    · exact hnow

theorem cache_onDelete (config : Config) (former : Tree) (entity : Entity) (path : Path)
    (batch : Batch) : (onDelete config former entity path batch).cache =
      evictTexts former entity.kind.capabilities.form batch.cache (removedPaths former path) := by
  rw [onDelete_eq, cache_foldl_forget]
  rfl

theorem uses_onDelete {asked : Form → String → Prop} :
    Uses asked batch.cache (onDelete config former entity path batch).cache := by
  rw [cache_onDelete]
  exact uses_evictTexts _ _ _

theorem uses_evictEdited {asked : Form → String → Prop} (cache : Cache) :
    Uses asked cache (evictEdited former entity path value cache) := by
  unfold evictEdited
  split
  · split
    · exact .refl
    · exact .single (.drop cache _ _)
  · exact .refl

-- What an edit asks for comes after what it drops.
theorem uses_onEdit_evicted (he : tree.entity? path.entity = some entity)
    (hr : entity.reactive = true) (hp : ∃ raw, path = Path.parseLenient raw) :
    Uses tree.Asks (evictEdited former entity path (value.or (tree.get? path)) batch.cache)
      (onEdit config former tree entity path value batch).cache := by
  let evicted : Batch :=
    { batch with cache := evictEdited former entity path (value.or (tree.get? path)) batch.cache }
  unfold onEdit
  dsimp only
  split
  · split
    · exact uses_readPath (evicted.addKeys [path]) he hr hp
    · exact uses_readPath evicted he hr hp
  · exact .refl

theorem uses_onEdit (he : tree.entity? path.entity = some entity) (hr : entity.reactive = true)
    (hp : ∃ raw, path = Path.parseLenient raw) :
    Uses tree.Asks batch.cache (onEdit config former tree entity path value batch).cache :=
  (uses_evictEdited batch.cache).trans (uses_onEdit_evicted he hr hp)

theorem uses_applyDiff :
    Uses tree.Asks batch.cache (applyDiff config former tree batch diff).cache := by
  have hp : ∃ raw, diff.target = Path.parseLenient raw := ⟨diff.path, rfl⟩
  unfold applyDiff
  dsimp only
  split
  · exact .refl
  · next entity he =>
    split
    · next hr =>
      cases hevent : diff.event with
      | new =>
          rw [hevent] at he
          exact uses_onNew he hr hp
      | delete => exact uses_onDelete
      | edit =>
          rw [hevent] at he
          exact uses_onEdit he hr hp
    · unfold onOutside
      split <;> exact .refl

theorem uses_foldl_applyDiff (batch : Batch) :
    Uses tree.Asks batch.cache (diffs.foldl (applyDiff config former tree) batch).cache :=
  List.foldlRecOn diffs _ (motive := fun now : Batch => Uses tree.Asks batch.cache now.cache) .refl
    fun _ hnow _ _ => hnow.trans uses_applyDiff

end Batch

-- A build asks for texts of the tree that it builds from.
theorem Built.uses_ofTree (config : Config) (cache : Cache) (tree : Tree) :
    Uses tree.Asks cache (ofTree config cache tree).cache := by
  refine List.foldlRecOn tree.entities.entries (addBindings config)
    (motive := fun now : Built => Uses tree.Asks cache now.cache) .refl
    fun now hnow entry hentry => ?_
  refine hnow.trans ?_
  unfold addBindings
  dsimp only
  rw [cache_foldl_addReading]
  exact Binding.uses_ofEntity fun hr relative hrelative form text hholds =>
    ⟨entry.1, entry.2, _, OrderedMap.get?_eq_some_iff.mpr hentry, hr, hholds,
      Or.inl ⟨relative, hrelative, rfl⟩⟩

namespace Session

variable {session : Session} {bound : Nat}

theorem cache_apply (session : Session) (tree : Tree) (diffs : List Diff) :
    (session.apply tree diffs).1.cache = (session.batchOf tree diffs).cache :=
  field_apply cache_sort session tree diffs

theorem uses_apply (session : Session) (tree : Tree) (diffs : List Diff) :
    Uses tree.Asks session.cache (session.apply tree diffs).1.cache := by
  rw [cache_apply]
  exact Batch.uses_foldl_applyDiff { Batch.start session.graph session.keys session.errors
    session.cache with keys := diffs.foldl (Batch.registerKeys tree) session.keys }

theorem uses_reset (session : Session) (tree : Tree) :
    Uses tree.Asks session.cache.clear (session.reset tree).cache := by
  unfold reset
  rw [cache_sort]
  exact Built.uses_ofTree session.config session.cache.clear tree

theorem bounded_reset (session : Session) (h : session.cache.capacity = bound) (tree : Tree) :
    (session.reset tree).cache.Bounded bound :=
  have hclear : session.cache.clear.Bounded bound := ⟨h, Nat.zero_le bound⟩
  hclear.uses (uses_reset session tree)

-- A cache keeps within its bounds, whatever it drops.
theorem bounded_after (h : session.cache.Bounded bound) (actions : List Action) :
    (session.after actions).cache.Bounded bound := by
  refine List.foldlRecOn actions _ (motive := fun now : Session => now.cache.Bounded bound) h
    fun now hnow action _ => ?_
  cases action with
  | apply tree diffs => exact hnow.uses (uses_apply now tree diffs)
  | reset tree => exact bounded_reset now hnow.capacity tree
  | recordEvaluation path messages => exact hnow

end Session

end Recalc
