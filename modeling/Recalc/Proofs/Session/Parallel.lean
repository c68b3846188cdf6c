import Recalc.Proofs.Session.Policy

namespace Recalc

open Binding (Dependencies)

variable {stores : ErrorStore → ErrorStore → Prop}
  {lists : List DependencyError → List DependencyError → Prop} {apart : List Path → Prop}
  {here there : Config}

-- What two runs find at a path: the same references, and errors that relate.
structure Binding.Alike (lists : List DependencyError → List DependencyError → Prop)
    (first second : Dependencies) : Prop where
  references : second.references = first.references
  errors : lists first.errors second.errors

section Collecting

-- The errors of a build, path by path. A path without errors is not listed.
def collectErrors (errors : OrderedMap Path (List DependencyError))
    (readings : List (Path × Dependencies)) : OrderedMap Path (List DependencyError) :=
  readings.foldl (fun errors reading =>
    if reading.2.errors.isEmpty then errors else errors.insert reading.1 reading.2.errors) errors

-- A store that takes over the errors of a build.
def ErrorStore.ofReadings (readings : List (Path × Dependencies)) : ErrorStore :=
  (collectErrors ∅ readings).entries.foldl
    (fun store entry => store.replaceExtraction entry.1 entry.2) ∅

end Collecting

-- Policies that differ in nothing that decides on nodes and edges, and what is
-- to hold of the errors of two runs under them. A build may need its paths to
-- be apart.
structure Parallel (here there : Config) (stores : ErrorStore → ErrorStore → Prop)
    (lists : List DependencyError → List DependencyError → Prop) (apart : List Path → Prop) :
    Prop where
  functions : there.internalFunctions = here.internalFunctions
  parentEdges : there.parentEdges = here.parentEdges
  resolve (known : Path → Bool) (path : Path) (parsed : Binding.Parsed) :
    Binding.Alike lists (Binding.resolve here known path parsed)
      (Binding.resolve there known path parsed)
  nil : lists [] []
  append {errors errors' others others' : List DependencyError} (h : lists errors errors')
    (k : lists others others') : lists (errors ++ others) (errors' ++ others')
  ofReadings {readings others : List (Path × Dependencies)}
    (h : List.Forall₂ (fun reading other => other.1 = reading.1 ∧
      Binding.Alike lists reading.2 other.2) readings others)
    (ha : apart (readings.map Prod.fst)) :
    stores (ErrorStore.ofReadings readings) (ErrorStore.ofReadings others)
  replaceExtraction {first second : ErrorStore} {errors others : List DependencyError}
    (h : stores first second) (k : lists errors others) (path : Path) :
    stores (first.replaceExtraction path errors) (second.replaceExtraction path others)
  resolveReference {first second : ErrorStore} (h : stores first second) (path : Path) :
    stores (first.resolveReference path) (second.resolveReference path)
  flagReaders {first second : ErrorStore} (h : stores first second) (keys : Keys) (graph : Graph)
    (gone readers : List Path) :
    stores
      (if here.reportUnresolved then readers.foldl (Batch.flagReader keys graph gone) first
        else first)
      (if there.reportUnresolved then readers.foldl (Batch.flagReader keys graph gone) second
        else second)
  clearPath {first second : ErrorStore} (h : stores first second) (path : Path) :
    stores (first.clearPath path) (second.clearPath path)
  replaceCycles {first second : ErrorStore} (h : stores first second)
    (cycles : List (List Path)) :
    stores (first.replaceCycles cycles) (second.replaceCycles cycles)
  recordEvaluation {first second : ErrorStore} (h : stores first second) (path : Path)
    (messages : List String) :
    stores (first.recordEvaluation path messages) (second.recordEvaluation path messages)

namespace Parallel

variable {config : Config} (p : Parallel here there stores lists apart)

include p

theorem linksChildren : there.linksChildren = here.linksChildren := by
  funext kind
  rw [Config.linksChildren, Config.linksChildren, p.parentEdges]

theorem linksAllChildren : there.linksAllChildren = here.linksAllChildren := by
  rw [Config.linksAllChildren, Config.linksAllChildren, p.linksChildren]

theorem linkIf (kind : Kind) (graph : Graph) (paths : List Path) :
    Batch.linkIf there kind graph paths = Batch.linkIf here kind graph paths := by
  rw [Batch.linkIf, Batch.linkIf, p.linksChildren]

section Bindings

variable (known : Path → Bool) (entity : Entity)

theorem empty : Binding.Alike lists ∅ ∅ := ⟨rfl, p.nil⟩

theorem binding (path : Path) :
    Binding.Alike lists (Binding.binding here known entity path)
      (Binding.binding there known entity path) := by
  unfold Binding.binding
  split
  · exact p.resolve known path _
  · exact p.empty

omit p in
theorem addInternal {found other : Dependencies} (path : Path)
    (h : Binding.Alike lists found other) :
    Binding.Alike lists (Binding.addInternal entity path found)
      (Binding.addInternal entity path other) :=
  ⟨by rw [Binding.addInternal, Binding.addInternal, h.references], h.errors⟩

theorem reading (path : Path) :
    Binding.Alike lists (Binding.reading here known entity path)
      (Binding.reading there known entity path) := by
  unfold Binding.reading
  refine addInternal entity path ?_
  split
  · exact p.binding known entity path
  · exact p.empty

theorem readings (name : String) :
    OrderedMap.Related (Binding.Alike lists) (Binding.readings here known name entity)
      (Binding.readings there known name entity) := by
  unfold Binding.readings
  split
  · refine List.foldl_rel (r := OrderedMap.Related (Binding.Alike lists)) ?_
      fun property _ found others h =>
        h.insert _ (addInternal entity _ (h.getD _ p.empty))
    exact List.foldl_rel (r := OrderedMap.Related (Binding.Alike lists)) .empty
      fun relative _ found others h => h.insert _ (p.binding known entity _)
  · exact .empty

end Bindings

end Parallel

namespace Batch

-- Batches that differ in errors and caches only.
inductive Alike (stores : ErrorStore → ErrorStore → Prop)
    (lists : List DependencyError → List DependencyError → Prop) : Batch → Batch → Prop
  | intro (batch : Batch) {errors : ErrorStore} {cache : Binding.Cache}
      {raised : List DependencyError} (he : stores batch.errors errors)
      (hr : lists batch.raised raised) (hs : batch.cache.Sound) (hc : cache.Sound) :
      Alike stores lists batch { batch with errors, cache, raised }

variable {first second : Batch} {former tree : Tree} {kind : Kind} {entity : Entity}
  {name : String} {path : Path} {value : Option Value}

theorem Alike.touch (h : Alike stores lists first second) (path : Path) :
    Alike stores lists (first.touch path) (second.touch path) := by
  obtain ⟨he, hr, hs, hc⟩ := h
  exact .intro (first.touch path) he hr hs hc

theorem Alike.addKeys (h : Alike stores lists first second) (paths : List Path) :
    Alike stores lists (first.addKeys paths) (second.addKeys paths) := by
  obtain ⟨he, hr, hs, hc⟩ := h
  exact .intro (first.addKeys paths) he hr hs hc

end Batch

namespace Parallel

variable {first second : Batch} {former tree : Tree} {kind : Kind} {entity : Entity}
  {name : String} {path : Path} {value : Option Value} {diff : Diff}
  (p : Parallel here there stores lists apart)

include p

open Batch (Alike)

theorem grow (h : Alike stores lists first second) (kind : Kind) (entries : List (Path × NodeKind)) :
    Alike stores lists (Batch.grow here kind entries first)
      (Batch.grow there kind entries second) := by
  obtain ⟨he, hr, hs, hc⟩ := h
  unfold Batch.grow Batch.recordAdded
  dsimp only
  rw [p.linkIf]
  split
  · exact .intro { first with graph := _ } he hr hs hc
  · refine .intro { first with graph := _, errors := _, changed := true, added := _ } ?_ hr hs hc
    exact List.foldl_rel (r := stores) he fun path _ _ _ h => p.resolveReference h path

theorem applyReading (h : Alike stores lists first second) {reading other : Path × Dependencies}
    (hpath : other.1 = reading.1) (hfound : Binding.Alike lists reading.2 other.2) :
    Alike stores lists (Batch.applyReading here kind first reading)
      (Batch.applyReading there kind second other) := by
  obtain ⟨he, hr, hs, hc⟩ := h
  obtain ⟨path, found⟩ := reading
  obtain ⟨_, other⟩ := other
  obtain rfl : _ = path := hpath
  unfold Batch.applyReading
  dsimp only
  rw [hfound.references]
  simp only [p.linkIf]
  exact .intro { first with graph := _, errors := _, changed := _, touched := _, raised := _ }
    (p.replaceExtraction he hfound.errors _) (p.append hr hfound.errors) hs hc

theorem foldl_applyReading {readings others : List (Path × Dependencies)}
    (hreadings : List.Forall₂ (fun reading other => other.1 = reading.1 ∧
      Binding.Alike lists reading.2 other.2) readings others)
    (h : Alike stores lists first second) :
    Alike stores lists (readings.foldl (Batch.applyReading here kind) first)
      (others.foldl (Batch.applyReading there kind) second) := by
  induction hreadings generalizing first second with
  | nil => exact h
  | cons hreading _ ih => exact ih (p.applyReading h hreading.1 hreading.2)

theorem readEntity (h : Alike stores lists first second) :
    Alike stores lists (Batch.readEntity here name entity first)
      (Batch.readEntity there name entity second) := by
  obtain ⟨he, hr, hs, hc⟩ := h
  obtain ⟨hhere, hs⟩ := Binding.ofEntity_eq here first.keys.contains name entity hs
  obtain ⟨hthere, hc⟩ := Binding.ofEntity_eq there first.keys.contains name entity hc
  unfold Batch.readEntity
  dsimp only
  rw [hhere, hthere]
  exact p.foldl_applyReading (p.readings first.keys.contains entity name)
    (.intro { first with cache := _ } he hr hs hc)

theorem readPath (h : Alike stores lists first second) :
    Alike stores lists (Batch.readPath here entity path first)
      (Batch.readPath there entity path second) := by
  obtain ⟨he, hr, hs, hc⟩ := h
  obtain ⟨hhere, hs⟩ := Binding.ofPath_eq here first.keys.contains entity path hs
  obtain ⟨hthere, hc⟩ := Binding.ofPath_eq there first.keys.contains entity path hc
  unfold Batch.readPath
  dsimp only
  rw [hhere, hthere]
  let cache := (Binding.ofPath here first.keys.contains first.cache entity path).2
  exact p.applyReading (.intro { first with cache } he hr hs hc) rfl
    (p.reading first.keys.contains entity path)

theorem onNew (h : Alike stores lists first second) :
    Alike stores lists (Batch.onNew here tree entity path value first)
      (Batch.onNew there tree entity path value second) := by
  have hgraph : second.graph = first.graph := by cases h; rfl
  have hpaths := p.grow (h.addKeys (Batch.newPaths tree first.graph path value)) entity.kind
    ((Batch.newPaths tree first.graph path value).map fun path => (path, NodeKind.ofPath path))
  have hgrown : Alike stores lists (Batch.growNew here tree entity path value first)
      (Batch.growNew there tree entity path value second) := by
    unfold Batch.growNew Batch.growSetters
    rw [hgraph]
    split
    · exact p.grow (hpaths.addKeys _) _ _
    · exact hpaths
  rw [Batch.onNew_eq, Batch.onNew_eq]
  split
  · exact (p.readPath hgrown).touch path
  · exact (p.readEntity hgrown).touch path

theorem foldl_forget (h : Alike stores lists first second) (id : String) (paths : List Path) :
    Alike stores lists (paths.foldl (Batch.forget id) first)
      (paths.foldl (Batch.forget id) second) := by
  refine List.foldl_rel (r := Alike stores lists) h fun path _ first _ h => ?_
  obtain ⟨he, hr, hs, hc⟩ := h
  exact .intro (first.forget id path) (p.clearPath he path) hr hs hc

theorem onDelete (h : Alike stores lists first second) :
    Alike stores lists (Batch.onDelete here former entity path first)
      (Batch.onDelete there former entity path second) := by
  rw [Batch.onDelete_eq, Batch.onDelete_eq]
  refine p.foldl_forget ?_ _ _
  obtain ⟨he, hr, hs, hc⟩ := h
  exact .intro (Batch.emptied here former entity path first) (p.flagReaders he _ _ _ _) hr
    (Batch.sound_evictTexts _ hs) (Batch.sound_evictTexts _ hc)

theorem onEdit (h : Alike stores lists first second) :
    Alike stores lists (Batch.onEdit here former tree entity path value first)
      (Batch.onEdit there former tree entity path value second) := by
  have hevicted : Alike stores lists
      { first with cache :=
          Batch.evictEdited former entity path (value.or (tree.get? path)) first.cache }
      { second with cache :=
          Batch.evictEdited former entity path (value.or (tree.get? path)) second.cache } := by
    obtain ⟨he, hr, hs, hc⟩ := h
    exact .intro { first with cache := _ } he hr (Batch.sound_evictEdited former entity path _ hs)
      (Batch.sound_evictEdited former entity path _ hc)
  unfold Batch.onEdit
  dsimp only
  split
  · refine .touch (p.readPath ?_) path
    split
    · exact hevicted.addKeys [path]
    · exact hevicted
  · exact hevicted.touch path

theorem applyDiff (h : Alike stores lists first second) :
    Alike stores lists (Batch.applyDiff here former tree first diff)
      (Batch.applyDiff there former tree second diff) := by
  unfold Batch.applyDiff
  dsimp only
  split
  · exact h
  · split
    · split
      · exact p.onNew h
      · exact p.onDelete h
      · exact p.onEdit h
    · unfold Batch.onOutside
      split
      · obtain ⟨he, hr, hs, hc⟩ := h
        exact .intro { first with keys := _ } he hr hs hc
      · exact h
      · exact h

-- By induction on the diffs.
theorem batch (h : Alike stores lists first second) (diffs : List Diff) :
    Alike stores lists (first.apply here former tree diffs)
      (second.apply there former tree diffs) := by
  have hkeys : Alike stores lists
      { first with keys := diffs.foldl (Batch.registerKeys tree) first.keys }
      { second with keys := diffs.foldl (Batch.registerKeys tree) second.keys } := by
    obtain ⟨he, hr, hs, hc⟩ := h
    exact .intro { first with keys := _ } he hr hs hc
  have happlied : Alike stores lists
      (diffs.foldl (Batch.applyDiff here former tree)
        { first with keys := diffs.foldl (Batch.registerKeys tree) first.keys })
      (diffs.foldl (Batch.applyDiff there former tree)
        { second with keys := diffs.foldl (Batch.registerKeys tree) second.keys }) :=
    List.foldl_rel (r := Alike stores lists) hkeys fun _ _ _ _ h => p.applyDiff h
  unfold Batch.apply
  dsimp only
  generalize diffs.foldl (Batch.applyDiff here former tree) _ = first at happlied
  generalize diffs.foldl (Batch.applyDiff there former tree) _ = second at happlied
  obtain ⟨he, hr, hs, hc⟩ := happlied
  exact .intro first.dropGoneReaders he hr hs hc

end Parallel

namespace Built

variable {found others : List (Path × Dependencies)}

theorem collect_foldl_addReading (found : List (Path × Dependencies)) (built : Built) :
    (found.foldl addReading built).errors = collectErrors built.errors found := by
  unfold collectErrors
  induction found generalizing built with
  | nil => rfl
  | cons reading rest ih => exact ih (addReading built reading)

theorem graph_foldl_addReading_alike (built other : Built) (hgraph : other.graph = built.graph)
    (h : List.Forall₂ (fun reading other => other.1 = reading.1 ∧
      Binding.Alike lists reading.2 other.2) found others) :
    (others.foldl addReading other).graph = (found.foldl addReading built).graph := by
  induction h generalizing built other with
  | nil => exact hgraph
  | cons hreading _ ih =>
      refine ih _ _ ?_
      unfold addReading
      dsimp only
      rw [hgraph, hreading.1, hreading.2.references]

-- A build in terms of what it reads.
theorem ofTree_readings (config : Config) {cache : Binding.Cache} (hs : cache.Sound) (tree : Tree) :
    let bound := (readings config tree).foldl addReading
      ⟨(nodes config tree).1, (nodes config tree).2, ∅, cache⟩
    (ofTree config cache tree).graph = linkContainers config tree bound.graph ∧
      (ofTree config cache tree).keys = (nodes config tree).2 ∧
      (ofTree config cache tree).errors = collectErrors ∅ (readings config tree) := by
  obtain ⟨cache', he⟩ := foldl_addBindings config tree.entities.entries
    ⟨(nodes config tree).1, (nodes config tree).2, ∅, cache⟩ hs
  rw [ofTree_eq, bound, he]
  exact ⟨rfl, keys_foldl_addReading _ _, collect_foldl_addReading _ _⟩

end Built

namespace Parallel

variable (p : Parallel here there stores lists apart) {tree : Tree}

include p

theorem nodes (tree : Tree) : Built.nodes there tree = Built.nodes here tree := by
  unfold Built.nodes Built.addInternalFunctions
  rw [p.functions]

theorem linkContainers (tree : Tree) (graph : Graph) :
    Built.linkContainers there tree graph = Built.linkContainers here tree graph := by
  unfold Built.linkContainers Built.linkEntity
  rw [p.linksAllChildren, p.linksChildren]

theorem builtReadings (tree : Tree) :
    List.Forall₂ (fun reading other => other.1 = reading.1 ∧
        Binding.Alike lists reading.2 other.2)
      (Built.readings here tree) (Built.readings there tree) := by
  unfold Built.readings
  rw [p.nodes]
  exact List.rel_flatMap (List.forall₂_same.mpr fun _ _ => rfl) fun entry _ he =>
    he ▸ p.readings _ entry.2 entry.1

end Parallel

namespace Session

-- Sessions that differ in policies, errors and caches only.
inductive Alike (here there : Config) (stores : ErrorStore → ErrorStore → Prop) :
    Session → Session → Prop
  | intro (session : Session) {errors : ErrorStore} {cache : Binding.Cache}
      (hconfig : session.config = here) (he : stores session.errors errors)
      (hs : session.cache.Sound) (hc : cache.Sound) :
      Alike here there stores session { session with config := there, errors, cache }

theorem sort_eq (session : Session) : session.sort =
    { session with
      sorted := session.graph.sortAll
      errors := session.errors.replaceCycles session.graph.sortAll.cycles } := by
  rw [sort]

theorem Alike.same {first second : Session} (h : Alike here there stores first second) :
    second.tree = first.tree ∧ second.graph = first.graph ∧ second.keys = first.keys ∧
      second.sorted = first.sorted ∧ stores first.errors second.errors := by
  obtain ⟨_, he, _, _⟩ := h
  exact ⟨rfl, rfl, rfl, rfl, he⟩

-- What a batch tells about itself.
theorem update_apply (session : Session) (tree : Tree) (diffs : List Diff) :
    (session.apply tree diffs).2 =
      ⟨(session.batchOf tree diffs).readersOfRemoved.toList, (session.batchOf tree diffs).removed,
        (session.batchOf tree diffs).changed,
        ((session.batchOf tree diffs).graph.sortAffected
          (seeds (session.batchOf tree diffs))).evaluationOrder,
        (session.batchOf tree diffs).raised⟩ := by
  rw [← graph_apply]
  rfl

end Session

-- Updates that differ in errors only.
inductive Update.Alike (lists : List DependencyError → List DependencyError → Prop) :
    Update → Update → Prop
  | intro (update : Update) {errors : List DependencyError} (h : lists update.errors errors) :
      Alike lists update { update with errors }

theorem Update.Alike.same {first second : Update} (h : Alike lists first second) :
    second = { first with errors := second.errors } ∧ lists first.errors second.errors := by
  obtain ⟨h⟩ := h
  exact ⟨rfl, h⟩

namespace Parallel

open Session (Alike Action)

variable (p : Parallel here there stores lists apart) {tree : Tree} {first second : Session}

include p

-- Sorting gives an order anew, so the orders before do not matter.
theorem sort (hhere : first.config = here) (hthere : second.config = there)
    (htree : second.tree = first.tree) (hgraph : second.graph = first.graph)
    (hkeys : second.keys = first.keys) (he : stores first.errors second.errors)
    (hs : first.cache.Sound) (hc : second.cache.Sound) :
    Alike here there stores first.sort second.sort := by
  rw [Session.sort_eq, Session.sort_eq, hthere, htree, hgraph, hkeys]
  generalize first.graph.sortAll = sorted
  exact .intro { first with sorted, errors := _ } hhere (p.replaceCycles he _) hs hc

theorem sortAlike (h : Alike here there stores first second) :
    Alike here there stores first.sort second.sort := by
  obtain ⟨hconfig, he, hs, hc⟩ := h
  exact p.sort hconfig rfl rfl rfl rfl he hs hc

-- A build does not depend on what the session was before.
theorem reset (hhere : first.config = here) (hthere : second.config = there)
    (ha : apart ((Built.readings here tree).map Prod.fst)) :
    Alike here there stores (first.reset tree) (second.reset tree) := by
  subst hhere hthere
  have hs := Binding.Cache.sound_clear first.cache
  have hc := Binding.Cache.sound_clear second.cache
  obtain ⟨hgraph, hkeys, herrors⟩ := Built.ofTree_readings first.config hs tree
  obtain ⟨hgraph', hkeys', herrors'⟩ := Built.ofTree_readings second.config hc tree
  have hbound := Built.graph_foldl_addReading_alike
    ⟨(Built.nodes first.config tree).1, (Built.nodes first.config tree).2, ∅, first.cache.clear⟩
    ⟨(Built.nodes second.config tree).1, (Built.nodes second.config tree).2, ∅,
      second.cache.clear⟩ (by rw [p.nodes]) (p.builtReadings tree)
  unfold Session.reset
  dsimp only
  refine p.sort rfl rfl rfl ?_ ?_ ?_ (Built.well_ofTree first.config hs tree).2
    (Built.well_ofTree second.config hc tree).2
  · rw [hgraph, hgraph', hbound, p.linkContainers]
  · rw [hkeys, hkeys', p.nodes]
  · rw [herrors, herrors']
    exact p.ofReadings (p.builtReadings tree) ha

theorem apply (h : Alike here there stores first second) (tree : Tree) (diffs : List Diff) :
    Alike here there stores (first.apply tree diffs).1 (second.apply tree diffs).1 ∧
      Update.Alike lists (first.apply tree diffs).2 (second.apply tree diffs).2 := by
  obtain @⟨errors, cache, rfl, he, hs, hc⟩ := h
  let second : Session := { first with config := there, errors, cache }
  have hbatch : Batch.Alike stores lists (first.batchOf tree diffs) (second.batchOf tree diffs) :=
    p.batch (.intro (Batch.start first.graph first.keys first.errors first.cache) he p.nil hs hc)
      diffs
  rw [Session.fst_apply, Session.fst_apply, Session.update_apply, Session.update_apply]
  generalize first.batchOf tree diffs = batch at hbatch ⊢
  generalize second.batchOf tree diffs = other at hbatch ⊢
  obtain @⟨errors, cache, raised, he, hr, hs, hc⟩ := hbatch
  refine ⟨?_, ?_⟩
  · have hafter : Alike first.config there stores (first.withBatch tree batch)
        (second.withBatch tree { batch with errors, cache, raised }) :=
      .intro (first.withBatch tree batch) rfl he hs hc
    split
    · exact p.sortAlike hafter
    · exact hafter
  · unfold Session.seeds
    generalize batch.graph.sortAffected _ = sorted
    exact .intro ⟨batch.readersOfRemoved.toList, batch.removed, batch.changed,
      sorted.evaluationOrder, batch.raised⟩ hr

theorem perform (h : Alike here there stores first second) (action : Action)
    (ha : ∀ tree, action = .reset tree → apart ((Built.readings here tree).map Prod.fst)) :
    Alike here there stores (first.perform action) (second.perform action) := by
  cases action with
  | apply tree diffs => exact (p.apply h tree diffs).1
  | reset tree =>
      refine p.reset ?_ ?_ (ha tree rfl)
      · obtain ⟨hconfig, _⟩ := h
        exact hconfig
      · obtain ⟨_⟩ := h
        rfl
  | recordEvaluation path messages =>
      obtain ⟨hconfig, he, hs, hc⟩ := h
      exact .intro (first.recordEvaluation path messages) hconfig
        (p.recordEvaluation he path messages) hs hc

-- By induction on the actions. What a session builds from must be apart.
theorem after (h : Alike here there stores first second) (actions : List Action)
    (ha : ∀ tree, .reset tree ∈ actions → apart ((Built.readings here tree).map Prod.fst)) :
    Alike here there stores (first.after actions) (second.after actions) :=
  List.foldl_rel (r := Alike here there stores) h fun action hm _ _ h =>
    p.perform h action fun tree he => ha tree (he ▸ hm)

theorem start (cache other : Binding.Cache)
    (ha : apart ((Built.readings here tree).map Prod.fst)) :
    Alike here there stores (Session.start here cache tree) (Session.start there other tree) :=
  p.reset rfl rfl ha

end Parallel

end Recalc
