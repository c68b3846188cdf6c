import Mathlib.Logic.Relation
import Recalc.Proofs.Binding.Extraction
import Recalc.Proofs.Graph.Grounded
import Recalc.Session.Basic

namespace Recalc.Batch

open Binding

-- A change that concerns neither the graph nor what depends on it.
structure Quiet (first second : Batch) : Prop where
  graph : second.graph = first.graph
  errors : second.errors = first.errors
  changed : second.changed = first.changed
  added : second.added = first.added
  readers : second.readersOfRemoved = first.readersOfRemoved
  touched : ∀ path ∈ first.touched, path ∈ second.touched

def grow (config : Config) (kind : Kind) (entries : List (Path × NodeKind)) (batch : Batch) :
    Batch :=
  recordAdded config kind { batch with graph := (batch.graph.addEntries entries true).1 }
    (batch.graph.addEntries entries true).2

inductive Move (config : Config) (former : Tree) : Batch → Batch → Prop
  | quiet {first second : Batch} (h : Quiet first second) : Move config former first second
  | grow (kind : Kind) (entries : List (Path × NodeKind)) (batch : Batch) :
      Move config former batch (grow config kind entries batch)
  | read (kind : Kind) (path : Path) (found : Dependencies) (batch : Batch)
      (h : Readable found) : Move config former batch (applyReading config kind batch (path, found))
  | delete (entity : Entity) (path : Path) (batch : Batch) (h : path.Plain) :
      Move config former batch (onDelete config former entity path batch)

abbrev Moves (config : Config) (former : Tree) : Batch → Batch → Prop :=
  Relation.ReflTransGen (Move config former)

-- A batch keeps its cache sound while it moves.
structure Proceeds (config : Config) (former : Tree) (first second : Batch) : Prop where
  moves : Moves config former first second
  cache : first.cache.Sound → second.cache.Sound

variable {config : Config} {former tree : Tree} {batch first second third : Batch} {kind : Kind}
  {entity : Entity} {path : Path}

theorem Proceeds.refl (batch : Batch) : Proceeds config former batch batch := ⟨.refl, id⟩

theorem Proceeds.trans (h : Proceeds config former first second)
    (k : Proceeds config former second third) : Proceeds config former first third :=
  ⟨h.moves.trans k.moves, k.cache ∘ h.cache⟩

theorem Proceeds.quiet (h : Quiet first second) (hc : first.cache.Sound → second.cache.Sound) :
    Proceeds config former first second :=
  ⟨.single (.quiet h), hc⟩

theorem Proceeds.touch (batch : Batch) (path : Path) :
    Proceeds config former batch (batch.touch path) :=
  .quiet ⟨rfl, rfl, rfl, rfl, rfl, fun _ h => OrderedSet.mem_insert.mpr (Or.inl h)⟩ id

theorem Proceeds.addKeys (batch : Batch) (paths : List Path) :
    Proceeds config former batch (batch.addKeys paths) :=
  .quiet ⟨rfl, rfl, rfl, rfl, rfl, fun _ h => h⟩ id

theorem Proceeds.withCache (batch : Batch) {cache : Cache} (h : cache.Sound) :
    Proceeds config former batch { batch with cache } :=
  .quiet ⟨rfl, rfl, rfl, rfl, rfl, fun _ h => h⟩ fun _ => h

theorem Proceeds.grow (batch : Batch) (kind : Kind) (entries : List (Path × NodeKind)) :
    Proceeds config former batch (grow config kind entries batch) := by
  refine ⟨.single (.grow kind entries batch), fun h => ?_⟩
  unfold Batch.grow recordAdded
  split <;> exact h

theorem Proceeds.applyReading (batch : Batch) (kind : Kind) {entry : Path × Dependencies}
    (h : Readable entry.2) :
    Proceeds config former batch (applyReading config kind batch entry) :=
  ⟨.single (.read kind entry.1 entry.2 batch h), id⟩

theorem Proceeds.foldl_applyReading (entries : List (Path × Dependencies))
    (h : ∀ entry ∈ entries, Readable entry.2) (batch : Batch) :
    Proceeds config former batch (entries.foldl (Batch.applyReading config kind) batch) := by
  induction entries generalizing batch with
  | nil => exact .refl batch
  | cons entry rest ih =>
      obtain ⟨hentry, hrest⟩ := List.forall_mem_cons.mp h
      exact (Proceeds.applyReading batch kind hentry).trans (ih hrest _)

theorem Proceeds.readEntity (h : batch.cache.Sound) (name : String) :
    Proceeds config former batch (readEntity config name entity batch) := by
  obtain ⟨he, hs⟩ := ofEntity_eq config batch.keys.contains name entity h
  unfold Batch.readEntity
  dsimp only
  rw [he]
  exact (Proceeds.withCache batch hs).trans (.foldl_applyReading _ readable_readings _)

theorem Proceeds.readPath (h : batch.cache.Sound) (hp : path.Plain) :
    Proceeds config former batch (readPath config entity path batch) := by
  obtain ⟨he, hs⟩ := ofPath_eq config batch.keys.contains entity path h
  unfold Batch.readPath
  dsimp only
  rw [he]
  exact (Proceeds.withCache batch hs).trans (.applyReading _ _ (readable_reading hp))

section Delete

-- The paths that a deletion removes, besides setters.
def removedPaths (former : Tree) (path : Path) : List Path :=
  if (former.pathsUnder path).isEmpty then [path] else former.pathsUnder path

def removedSetters (entity : Entity) (path : Path) : List Path :=
  if path.isEntity then entity.config.setterPaths path.entity else []

def gone (former : Tree) (entity : Entity) (path : Path) : List Path :=
  removedPaths former path ++ removedSetters entity path

-- The graph without what a deletion removes, and whether setters and other
-- nodes were removed.
def deleted (former : Tree) (entity : Entity) (path : Path) (graph : Graph) :
    Graph × Bool × Bool :=
  let first := graph.removeNodes (removedSetters entity path)
  let second := first.1.removeNodes (removedPaths former path)
  (second.1, first.2, second.2)

variable {graph : Graph}

theorem consistent_deleted (former : Tree) (entity : Entity) (path : Path)
    (h : graph.Consistent) :
    (deleted former entity path graph).1.Consistent :=
  (h.removeNodes _).removeNodes _

theorem grounded_deleted (former : Tree) (entity : Entity) (path : Path) (h : graph.Grounded)
    (hc : graph.Consistent) :
    (deleted former entity path graph).1.Grounded :=
  (h.removeNodes hc _).removeNodes (hc.removeNodes _) _

-- A deletion that removes no node deletes paths that are none.
theorem deleted_of_false (h : graph.Consistent)
    (hs : (deleted former entity path graph).2.1 = false)
    (hp : (deleted former entity path graph).2.2 = false) :
    (deleted former entity path graph).1 = graph ∧
      ∀ other ∈ removedPaths former path, graph.id? other = none := by
  obtain ⟨hfirst, _⟩ := h.removeNodes_of_false hs
  unfold deleted at hp ⊢
  dsimp only at hp ⊢
  rw [hfirst] at hp ⊢
  exact h.removeNodes_of_false hp

def flagged (config : Config) (former : Tree) (entity : Entity) (path : Path) (batch : Batch) :
    ErrorStore :=
  if config.reportUnresolved then
    (readersOutside batch.graph (gone former entity path)).toList.foldl
      (flagReader (Keys.removeAll batch.keys (gone former entity path))
        (deleted former entity path batch.graph).1 (gone former entity path)) batch.errors
  else batch.errors

-- A deletion before the paths that it removes are forgotten.
def emptied (config : Config) (former : Tree) (entity : Entity) (path : Path) (batch : Batch) :
    Batch :=
  { batch with
    graph := (deleted former entity path batch.graph).1
    keys := Keys.removeAll batch.keys (gone former entity path)
    errors := flagged config former entity path batch
    cache := evictTexts former entity.kind.capabilities.form batch.cache (removedPaths former path)
    readersOfRemoved := batch.readersOfRemoved.insertMany
      (readersOutside batch.graph (gone former entity path)).toList
    changed := batch.changed || (deleted former entity path batch.graph).2.1 ||
      (deleted former entity path batch.graph).2.2 }

theorem onDelete_eq :
    onDelete config former entity path batch =
      (removedPaths former path).foldl (forget (entity.config.id.getD ""))
        (emptied config former entity path batch) := rfl

variable (batch : Batch) (id : String) (paths : List Path)

-- Forgetting leaves most of a batch as it is.
theorem field_foldl_forget {α : Type} (field : Batch → α)
    (h : ∀ batch path, field (forget id batch path) = field batch) :
    field (paths.foldl (forget id) batch) = field batch :=
  List.foldlRecOn paths _ (motive := fun now : Batch => field now = field batch) rfl
    fun now hnow path _ => (h now path).trans hnow

theorem graph_foldl_forget : (paths.foldl (forget id) batch).graph = batch.graph :=
  field_foldl_forget batch id paths Batch.graph fun _ _ => rfl

theorem cache_foldl_forget : (paths.foldl (forget id) batch).cache = batch.cache :=
  field_foldl_forget batch id paths Batch.cache fun _ _ => rfl

theorem changed_foldl_forget : (paths.foldl (forget id) batch).changed = batch.changed :=
  field_foldl_forget batch id paths Batch.changed fun _ _ => rfl

theorem readers_foldl_forget :
    (paths.foldl (forget id) batch).readersOfRemoved = batch.readersOfRemoved :=
  field_foldl_forget batch id paths Batch.readersOfRemoved fun _ _ => rfl

theorem errors_foldl_forget :
    (paths.foldl (forget id) batch).errors = paths.foldl ErrorStore.clearPath batch.errors := by
  induction paths generalizing batch with
  | nil => rfl
  | cons path rest ih => exact ih _

theorem mem_touched_foldl_forget :
    path ∈ (paths.foldl (forget id) batch).touched ↔ path ∈ batch.touched ∧ path ∉ paths := by
  induction paths generalizing batch with
  | nil => simp
  | cons other rest ih =>
      rw [List.foldl_cons, ih, forget, OrderedSet.mem_erase, List.mem_cons, not_or, and_assoc]

theorem mem_added_foldl_forget :
    path ∈ (paths.foldl (forget id) batch).added ↔ path ∈ batch.added ∧ path ∉ paths := by
  induction paths generalizing batch with
  | nil => simp
  | cons other rest ih =>
      rw [List.foldl_cons, ih, forget, OrderedSet.mem_erase, List.mem_cons, not_or, and_assoc]

end Delete

theorem sound_evictTexts {form : Option Form} {cache : Cache} (paths : List Path)
    (h : cache.Sound) : (evictTexts former form cache paths).Sound := by
  unfold evictTexts
  split
  · exact h
  · refine List.foldlRecOn paths _ (motive := Cache.Sound) h fun cache hc path _ => ?_
    split
    · exact hc.evict
    · exact hc

theorem Proceeds.onDelete (hp : path.Plain) :
    Proceeds config former batch (onDelete config former entity path batch) := by
  refine ⟨.single (.delete entity path batch hp), fun h => ?_⟩
  rw [onDelete_eq, cache_foldl_forget]
  exact sound_evictTexts _ h

theorem sound_evictEdited (former : Tree) (entity : Entity) (path : Path) (value : Option Value)
    {cache : Cache} (h : cache.Sound) :
    (evictEdited former entity path value cache).Sound := by
  unfold evictEdited
  split
  · split
    · exact h
    · exact h.evict
  · exact h

theorem Proceeds.onEdit (h : batch.cache.Sound) (hp : path.Plain) (value : Option Value) :
    Proceeds config former batch (onEdit config former tree entity path value batch) := by
  have hcache := sound_evictEdited former entity path (value.or (tree.get? path)) h
  unfold Batch.onEdit
  dsimp only
  refine (Proceeds.withCache batch hcache).trans ?_
  split
  · split
    · exact (Proceeds.addKeys _ _).trans ((Proceeds.readPath hcache hp).trans (.touch _ _))
    · exact (Proceeds.readPath hcache hp).trans (.touch _ _)
  · exact .touch _ _

-- The nodes for the setters of an entity that comes in.
def growSetters (config : Config) (entity : Entity) (path : Path) (missing : Bool)
    (batch : Batch) : Batch :=
  if path.isEntity || missing then
    grow config entity.kind
      ((entity.config.setterPaths path.entity).map fun setter => (setter, NodeKind.setter))
      (batch.addKeys (entity.config.setterPaths path.entity))
  else batch

-- The nodes for all that comes in.
def growNew (config : Config) (tree : Tree) (entity : Entity) (path : Path) (value : Option Value)
    (batch : Batch) : Batch :=
  let paths := newPaths tree batch.graph path value
  growSetters config entity path (!batch.graph.contains (.ofEntity path.entity))
    (grow config entity.kind (paths.map fun path => (path, NodeKind.ofPath path))
      (batch.addKeys paths))

theorem onNew_eq (value : Option Value) :
    onNew config tree entity path value batch =
      (if tree.isDynamicLeaf path then
        readPath config entity path (growNew config tree entity path value batch)
      else
        readEntity config path.entity entity
          (growNew config tree entity path value batch)).touch path := rfl

theorem Proceeds.growSetters (batch : Batch) (missing : Bool) :
    Proceeds config former batch (growSetters config entity path missing batch) := by
  unfold Batch.growSetters
  split
  · exact (Proceeds.addKeys _ _).trans (.grow _ _ _)
  · exact .refl batch

theorem Proceeds.growNew (config : Config) (former tree : Tree) (entity : Entity) (path : Path)
    (value : Option Value) (batch : Batch) :
    Proceeds config former batch (growNew config tree entity path value batch) :=
  (Proceeds.addKeys batch _).trans ((Proceeds.grow _ _ _).trans (.growSetters _ _))

theorem Proceeds.onNew (h : batch.cache.Sound) (hp : path.Plain) (value : Option Value) :
    Proceeds config former batch (onNew config tree entity path value batch) := by
  have hgrown := Proceeds.growNew config former tree entity path value batch
  rw [onNew_eq]
  refine (hgrown.trans ?_).trans (.touch _ path)
  split
  · exact .readPath (hgrown.cache h) hp
  · exact .readEntity (hgrown.cache h) path.entity

theorem Proceeds.onOutside (batch : Batch) (event : Event) :
    Proceeds config former batch (onOutside former event path batch) := by
  cases event with
  | delete => exact .quiet ⟨rfl, rfl, rfl, rfl, rfl, fun _ h => h⟩ id
  | new => exact .refl batch
  | edit => exact .refl batch

theorem Proceeds.applyDiff (config : Config) (former tree : Tree) (h : batch.cache.Sound)
    (diff : Diff) :
    Proceeds config former batch (applyDiff config former tree batch diff) := by
  have hp : diff.target.Plain := Path.plain_parseLenient diff.path
  unfold Batch.applyDiff
  dsimp only
  split
  · exact .refl batch
  · split
    · split
      · exact .onNew h hp _
      · exact .onDelete hp
      · exact .onEdit h hp _
    · exact .onOutside batch _

theorem Proceeds.foldl_applyDiff (h : batch.cache.Sound) (diffs : List Diff) :
    Proceeds config former batch (diffs.foldl (Batch.applyDiff config former tree) batch) := by
  induction diffs generalizing batch with
  | nil => exact .refl batch
  | cons diff rest ih =>
      have hstep := Proceeds.applyDiff config former tree h diff
      exact hstep.trans (ih (hstep.cache h))

-- What a batch is when its diffs have been applied, before readers that are
-- gone are dropped.
def applied (config : Config) (former tree : Tree) (diffs : List Diff) (batch : Batch) : Batch :=
  diffs.foldl (applyDiff config former tree)
    { batch with keys := diffs.foldl (registerKeys tree) batch.keys }

theorem proceeds_applied (config : Config) (former tree : Tree) (batch : Batch)
    (h : batch.cache.Sound) (diffs : List Diff) :
    Proceeds config former batch (batch.applied config former tree diffs) := by
  have hkeys : Proceeds config former batch
      { batch with keys := diffs.foldl (registerKeys tree) batch.keys } :=
    .quiet ⟨rfl, rfl, rfl, rfl, rfl, fun _ h => h⟩ id
  exact hkeys.trans (.foldl_applyDiff (hkeys.cache h) diffs)

end Recalc.Batch
