import Recalc.Proofs.Error.Store
import Recalc.Proofs.Path.Below
import Recalc.Proofs.Schedule.Sort
import Recalc.Proofs.Session.Move

namespace Recalc

namespace Batch

open Binding

variable {config : Config} {former tree : Tree} {batch first second : Batch} {kind : Kind}
  {entity : Entity} {path : Path} {start : Graph} {errors : ErrorStore}

-- A batch that notes no change has made none.
structure Steady (start : Graph) (errors : ErrorStore) (batch : Batch) : Prop where
  consistent : batch.graph.Consistent
  grounded : batch.graph.Grounded
  label : batch.changed = false → ∀ id, batch.graph.label? id = start.label? id
  reads : batch.changed = false → ∀ i j, batch.graph.Reads i j ↔ start.Reads i j
  cycles : batch.changed = false → ∀ key, batch.errors.cyclesAt key = errors.cyclesAt key

theorem Steady.of_changed (hc : batch.graph.Consistent) (hg : batch.graph.Grounded)
    (h : batch.changed = true) : Steady start errors batch := by
  have hn : ¬batch.changed = false := by
    rw [h]
    exact Bool.noConfusion
  exact ⟨hc, hg, fun hf => absurd hf hn, fun hf => absurd hf hn, fun hf => absurd hf hn⟩

theorem Steady.quiet (h : Steady start errors first) (hq : Quiet first second) :
    Steady start errors second := by
  refine ⟨?_, ?_, ?_, ?_, ?_⟩
  · rw [hq.graph]
    exact h.consistent
  · rw [hq.graph]
    exact h.grounded
  · rw [hq.changed, hq.graph]
    exact h.label
  · rw [hq.changed, hq.graph]
    exact h.reads
  · rw [hq.changed, hq.errors]
    exact h.cycles

theorem linksChildren_linkIf {graph : Graph} (h : graph.Consistent) (config : Config) (kind : Kind)
    (paths : List Path) : Graph.LinksChildren graph (linkIf config kind graph paths) := by
  unfold linkIf
  split
  · exact h.linksChildren_linkAbove paths
  · exact .refl graph

-- A reading declares what it found, and links containers if anything changed.
theorem linksChildren_applyReading (h : batch.graph.Consistent) (config : Config) (kind : Kind)
    (path : Path) (found : Dependencies) :
    Graph.LinksChildren (batch.graph.addDependency path found.references.toList).1
      (applyReading config kind batch (path, found)).graph := by
  unfold applyReading
  dsimp only
  split
  · exact .refl _
  · exact linksChildren_linkIf (h.addDependency path _) config kind _

theorem consistent_applyReading (h : batch.graph.Consistent) (config : Config) (kind : Kind)
    (path : Path) (found : Dependencies) :
    (applyReading config kind batch (path, found)).graph.Consistent :=
  (linksChildren_applyReading h config kind path found).consistent (h.addDependency path _)

theorem linksChildren_grow (h : batch.graph.Consistent) (config : Config) (kind : Kind)
    (entries : List (Path × NodeKind)) :
    Graph.LinksChildren (batch.graph.addEntries entries true).1
      (grow config kind entries batch).graph := by
  unfold grow recordAdded
  split
  · exact .refl _
  · exact linksChildren_linkIf (h.addEntries true entries) config kind _

theorem consistent_grow (h : batch.graph.Consistent) (config : Config) (kind : Kind)
    (entries : List (Path × NodeKind)) : (grow config kind entries batch).graph.Consistent :=
  (linksChildren_grow h config kind entries).consistent (h.addEntries true entries)

theorem consistent_move (h : first.graph.Consistent) (hm : Move config former first second) :
    second.graph.Consistent := by
  cases hm with
  | quiet hq => exact hq.graph ▸ h
  | grow kind entries batch => exact consistent_grow h config kind entries
  | read kind path found batch _ => exact consistent_applyReading h config kind path found
  | delete entity path batch _ =>
      rw [onDelete_eq, graph_foldl_forget]
      exact consistent_deleted former entity path h

theorem consistent_moves (h : first.graph.Consistent) (hm : Moves config former first second) :
    second.graph.Consistent := by
  induction hm with
  | refl => exact h
  | tail _ hstep ih => exact consistent_move ih hstep

theorem Steady.grow (h : Steady start errors batch) (entries : List (Path × NodeKind)) :
    Steady start errors (grow config kind entries batch) := by
  have hc := h.consistent.addEntries true entries
  have hg := h.grounded.addEntries h.consistent true entries
  unfold Batch.grow recordAdded
  split
  · next hempty =>
    have hsame := Graph.addEntries_of_nil (List.isEmpty_iff.mp hempty)
    rw [hsame] at hc hg ⊢
    exact ⟨hc, hg, h.label, h.reads, h.cycles⟩
  · have hl := linksChildren_linkIf hc config kind
      (batch.graph.addEntries entries true).2
    exact .of_changed (hl.consistent hc) (hg.linksChildren hl) rfl

theorem Steady.applyReading (h : Steady start errors batch) {found : Dependencies}
    (hf : Readable found) : Steady start errors (applyReading config kind batch (path, found)) := by
  have hc := h.consistent.addDependency path found.references.toList
  have hg := h.grounded.addDependency h.consistent path hf.plain
  have hcycles : batch.changed = false → ∀ key,
      (batch.errors.replaceExtraction path found.errors).cyclesAt key = errors.cyclesAt key :=
    fun hn key => (ErrorStore.cyclesAt_replaceExtraction hf.extraction).trans (h.cycles hn key)
  unfold Batch.applyReading
  dsimp only
  by_cases he : (batch.graph.addDependency path found.references.toList).2.isEmpty = true
  · obtain ⟨hs, hr⟩ := h.consistent.addDependency_of_isEmpty he
    rw [if_pos he, he]
    simp only [Bool.not_true, Bool.or_false]
    exact ⟨hc, hg, fun hn id => (hs.label id).trans (h.label hn id),
      fun hn i j => (hr i j).trans (h.reads hn i j), hcycles⟩
  · have hl := linksChildren_linkIf hc config kind
      (batch.graph.addDependency path found.references.toList).2.toList
    rw [if_neg he, Bool.eq_false_iff.mpr he]
    exact .of_changed (hl.consistent hc) (hg.linksChildren hl) (Bool.or_true _)

theorem cyclesAt_foldl_flagReader (keys : Keys) (graph : Graph) (gone readers : List Path)
    (key : String) :
    (readers.foldl (flagReader keys graph gone) errors).cyclesAt key = errors.cyclesAt key := by
  refine List.foldlRecOn readers _
    (motive := fun now : ErrorStore => now.cyclesAt key = errors.cyclesAt key) rfl
    fun now hn reader _ => ?_
  refine List.foldlRecOn (graph.pendingOf reader) _
    (motive := fun now : ErrorStore => now.cyclesAt key = errors.cyclesAt key) hn
    fun now hn target _ => ?_
  split
  · rw [ErrorStore.cyclesAt_flagUnresolved, hn]
  · exact hn

theorem cyclesAt_foldl_clearPath {paths : List Path}
    (h : ∀ path ∈ paths, errors.cyclesAt path.render = []) (key : String) :
    (paths.foldl ErrorStore.clearPath errors).cyclesAt key = errors.cyclesAt key := by
  induction paths generalizing errors with
  | nil => rfl
  | cons path rest ih =>
      obtain ⟨hpath, hrest⟩ := List.forall_mem_cons.mp h
      rw [List.foldl_cons, ih, ErrorStore.cyclesAt_clearPath hpath]
      intro other ho
      rw [ErrorStore.cyclesAt_clearPath hpath]
      exact hrest other ho

theorem allIn_removedPaths (former : Tree) (path : Path) :
    Path.AllIn path.entity (removedPaths former path) := by
  unfold removedPaths
  split
  · exact List.forall_mem_singleton.mpr rfl
  · exact former.allIn_pathsUnder path

theorem plain_of_mem_removedPaths (h : path.Plain) :
    ∀ other ∈ removedPaths former path, other.Plain :=
  fun other ho => Path.plain_of_entity_eq h (allIn_removedPaths former path other ho)

theorem cyclesAt_flagged (key : String) :
    (flagged config former entity path batch).cyclesAt key = batch.errors.cyclesAt key := by
  unfold flagged
  split
  · exact cyclesAt_foldl_flagReader _ _ _ _ key
  · rfl

-- A deletion that changes nothing clears texts of paths that are no nodes,
-- and these have no cycle errors.
theorem Steady.onDelete
    (hstart : ∀ path, path.Plain → start.id? path = none → errors.cyclesAt path.render = [])
    (hs : start.Consistent) (h : Steady start errors batch) (hp : path.Plain) :
    Steady start errors (onDelete config former entity path batch) := by
  have hc := consistent_deleted former entity path h.consistent
  have hg := grounded_deleted former entity path h.grounded h.consistent
  rw [onDelete_eq]
  have hgraph := graph_foldl_forget (emptied config former entity path batch)
    (entity.config.id.getD "") (removedPaths former path)
  have hchanged := changed_foldl_forget (emptied config former entity path batch)
    (entity.config.id.getD "") (removedPaths former path)
  refine ⟨by rw [hgraph]; exact hc, by rw [hgraph]; exact hg, ?_, ?_, ?_⟩
  all_goals
    intro hn
    obtain ⟨hn, hnode⟩ := Bool.or_eq_false_iff.mp (hchanged.symm.trans hn)
    obtain ⟨hn, hsetter⟩ := Bool.or_eq_false_iff.mp hn
    obtain ⟨hsame, hnone⟩ := deleted_of_false h.consistent hsetter hnode
  · intro id
    rw [hgraph]
    exact (congrArg (Graph.label? · id) hsame).trans (h.label hn id)
  · intro i j
    rw [hgraph, ← h.reads hn]
    exact iff_of_eq (congrArg (Graph.Reads · i j) hsame)
  · intro key
    rw [errors_foldl_forget, cyclesAt_foldl_clearPath, ← h.cycles hn]
    · exact cyclesAt_flagged key
    · intro other ho
      have hid : start.id? other = none := by
        rw [Option.eq_none_iff_forall_ne_some]
        intro id he
        rw [hs.id?_iff, Graph.path?_eq_some_iff] at he
        obtain ⟨kind, hl⟩ := he
        rw [← h.label hn] at hl
        have := (h.consistent.id?_iff other id).mpr (Graph.path?_of_label hl)
        rw [hnone other ho] at this
        cases this
      show (flagged config former entity path batch).cyclesAt other.render = []
      rw [cyclesAt_flagged, h.cycles hn]
      exact hstart other (plain_of_mem_removedPaths hp other ho) hid

theorem Steady.move
    (hstart : ∀ path, path.Plain → start.id? path = none → errors.cyclesAt path.render = [])
    (hs : start.Consistent) (h : Steady start errors first) (hm : Move config former first second) :
    Steady start errors second := by
  cases hm with
  | quiet hq => exact h.quiet hq
  | grow kind entries batch => exact h.grow entries
  | read kind path found batch hf => exact h.applyReading hf
  | delete entity path batch hp => exact h.onDelete hstart hs hp

theorem Steady.moves
    (hstart : ∀ path, path.Plain → start.id? path = none → errors.cyclesAt path.render = [])
    (hs : start.Consistent) (h : Steady start errors first) (hm : Moves config former first second) :
    Steady start errors second := by
  induction hm with
  | refl => exact h
  | tail _ hstep ih => exact ih.move hstart hs hstep

end Batch

namespace Built

open Binding

variable {config : Config} {tree : Tree}

-- What building keeps: a consistent graph in which declared paths are plain.
structure Well (graph : Graph) : Prop where
  consistent : graph.Consistent
  grounded : graph.Grounded

theorem Well.empty : Well ∅ := ⟨.empty, .empty⟩

theorem Well.addEntries {graph : Graph} (h : Well graph) (entries : List (Path × NodeKind))
    (check : Bool) : Well (graph.addEntries entries check).1 :=
  ⟨h.consistent.addEntries check entries, h.grounded.addEntries h.consistent check entries⟩

theorem Well.linksChildren {first second : Graph} (h : Well first)
    (hl : Graph.LinksChildren first second) : Well second :=
  ⟨hl.consistent h.consistent, h.grounded.linksChildren hl⟩

theorem Well.addEntity {state : Graph × Keys} (h : Well state.1) (entry : String × Entity) :
    Well (addEntity tree state entry).1 := by
  unfold Built.addEntity
  dsimp only
  split
  · exact (h.addEntries _ true).addEntries _ true
  · exact h

theorem Well.addReading {built : Built} (h : Well built.graph) {entry : Path × Dependencies}
    (hf : Readable entry.2) : Well (addReading built entry).graph :=
  ⟨h.consistent.addDependency _ _, h.grounded.addDependency h.consistent _ hf.plain⟩

theorem cache_foldl_addReading (entries : List (Path × Dependencies)) (built : Built) :
    (entries.foldl addReading built).cache = built.cache :=
  List.foldlRecOn entries _ (motive := fun now : Built => now.cache = built.cache) rfl
    fun _ h _ _ => h

theorem Well.addBindings {built : Built} (h : Well built.graph) (hs : built.cache.Sound)
    (entry : String × Entity) :
    Well (addBindings config built entry).graph ∧ (addBindings config built entry).cache.Sound := by
  obtain ⟨he, hcache⟩ := ofEntity_eq config built.keys.contains entry.1 entry.2 hs
  unfold Built.addBindings
  dsimp only
  rw [cache_foldl_addReading, he]
  refine ⟨?_, hcache⟩
  exact List.foldlRecOn _ _ (motive := fun now : Built => Well now.graph) h
    fun now hn reading hr => hn.addReading (readable_readings reading hr)

theorem Well.linkEntity {graph : Graph} (h : Well graph) (entry : String × Entity) :
    Well (linkEntity config tree graph entry) := by
  unfold Built.linkEntity
  dsimp only
  split
  · exact h.linksChildren (h.consistent.linksChildren_linkAbove _)
  · exact h

theorem Well.linkContainers {graph : Graph} (h : Well graph) :
    Well (linkContainers config tree graph) := by
  unfold Built.linkContainers
  split
  · exact h.linksChildren h.consistent.linksChildren_linkAll
  · exact List.foldlRecOn _ _ (motive := Well) h fun now hn entry _ => hn.linkEntity entry

-- A tree whose bindings have been read, before containers are linked.
theorem well_foldl_addBindings (config : Config) {cache : Cache} (h : cache.Sound) (tree : Tree) :
    let nodes := addInternalFunctions config (tree.entities.entries.foldl (addEntity tree) (∅, ∅))
    let built := tree.entities.entries.foldl (addBindings config) ⟨nodes.1, nodes.2, ∅, cache⟩
    Well built.graph ∧ built.cache.Sound := by
  intro nodes built
  have hentities : Well (tree.entities.entries.foldl (addEntity tree) (∅, ∅)).1 :=
    List.foldlRecOn _ _ (motive := fun state : Graph × Keys => Well state.1) Well.empty
      fun state hs entry _ => hs.addEntity entry
  have hnodes : Well nodes.1 := hentities.addEntries _ true
  exact List.foldlRecOn tree.entities.entries (addBindings config)
    (motive := fun built : Built => Well built.graph ∧ built.cache.Sound)
    (b := ⟨nodes.1, nodes.2, ∅, cache⟩) ⟨hnodes, h⟩
    fun built hb entry _ => hb.1.addBindings hb.2 entry

theorem well_ofTree (config : Config) {cache : Cache} (h : cache.Sound) (tree : Tree) :
    Well (ofTree config cache tree).graph ∧ (ofTree config cache tree).cache.Sound := by
  obtain ⟨hwell, hs⟩ := well_foldl_addBindings config h tree
  exact ⟨hwell.linkContainers, hs⟩

end Built

namespace Session

variable {session : Session} {config : Config} {cache : Binding.Cache} {tree : Tree}

structure Coherent (session : Session) : Prop where
  consistent : session.graph.Consistent
  grounded : session.graph.Grounded
  cache : session.cache.Sound
  sorted : session.sorted = session.graph.sortAll
  cycles : ∀ key, session.errors.cyclesAt key = ErrorStore.cycleErrors session.sorted.cycles key

-- What can be done to a session.
inductive Action
  | apply (tree : Tree) (diffs : List Diff)
  | reset (tree : Tree)
  | recordEvaluation (path : Path) (messages : List String)

def perform (session : Session) : Action → Session
  | .apply tree diffs => (session.apply tree diffs).1
  | .reset tree => session.reset tree
  | .recordEvaluation path messages => session.recordEvaluation path messages

def after (session : Session) (actions : List Action) : Session := actions.foldl perform session

theorem tree_sort (session : Session) : session.sort.tree = session.tree := by rw [sort]

theorem config_sort (session : Session) : session.sort.config = session.config := by rw [sort]

theorem keys_sort (session : Session) : session.sort.keys = session.keys := by rw [sort]

theorem graph_sort (session : Session) : session.sort.graph = session.graph := by rw [sort]

theorem cache_sort (session : Session) : session.sort.cache = session.cache := by rw [sort]

theorem sorted_sort (session : Session) : session.sort.sorted = session.graph.sortAll := by
  rw [sort]

theorem errors_sort (session : Session) :
    session.sort.errors = session.errors.replaceCycles session.graph.sortAll.cycles := by
  rw [sort]

theorem coherent_sort (hc : session.graph.Consistent) (hg : session.graph.Grounded)
    (hs : session.cache.Sound) : session.sort.Coherent where
  consistent := by
    rw [graph_sort]
    exact hc
  grounded := by
    rw [graph_sort]
    exact hg
  cache := by
    rw [cache_sort]
    exact hs
  sorted := by rw [sorted_sort, graph_sort]
  cycles key := by rw [errors_sort, sorted_sort, ErrorStore.cyclesAt_replaceCycles]

theorem coherent_reset (session : Session) (tree : Tree) : (session.reset tree).Coherent := by
  obtain ⟨hw, hs⟩ := Built.well_ofTree session.config (Binding.Cache.sound_clear session.cache) tree
  exact coherent_sort hw.consistent hw.grounded hs

theorem Coherent.recordEvaluation (h : session.Coherent) (path : Path) (messages : List String) :
    (session.recordEvaluation path messages).Coherent :=
  ⟨h.consistent, h.grounded, h.cache, h.sorted,
    fun key => ErrorStore.cyclesAt_recordEvaluation.trans (h.cycles key)⟩

-- The members of cycles are plain nodes.
theorem Coherent.member (h : session.Coherent) {cycle : List Path} {member : Path}
    (hc : cycle ∈ session.sorted.cycles) (hm : member ∈ cycle) :
    member.Plain ∧ ∃ id, session.graph.id? member = some id := by
  rw [h.sorted] at hc
  obtain ⟨id, _, hid, hr⟩ := Graph.transGen_of_mem_cycles Graph.nodup_nodeIds hc hm
  exact ⟨h.grounded.plain_of_cycle hr hid, id, (h.consistent.id?_iff _ _).mpr hid⟩

theorem Coherent.cyclesAt_of_missing (h : session.Coherent) {path : Path} (hp : path.Plain)
    (hid : session.graph.id? path = none) : session.errors.cyclesAt path.render = [] := by
  rw [h.cycles, ErrorStore.cycleErrors, List.flatMap_eq_nil_iff]
  intro cycle hc
  rw [List.map_eq_nil_iff, List.filter_eq_nil_iff]
  intro member hm he
  obtain ⟨hplain, id, hsome⟩ := h.member hc hm
  rw [Path.render_inj hplain hp (of_decide_eq_true he), hid] at hsome
  cases hsome

-- What a batch of diffs makes of a session before it is sorted again.
def batchOf (session : Session) (tree : Tree) (diffs : List Diff) : Batch :=
  (Batch.start session.graph session.keys session.errors session.cache).apply session.config
    session.tree tree diffs

def withBatch (session : Session) (tree : Tree) (batch : Batch) : Session :=
  { session with
    cache := batch.cache
    tree
    graph := batch.graph
    keys := batch.keys
    errors := batch.errors }

theorem fst_apply (session : Session) (tree : Tree) (diffs : List Diff) :
    (session.apply tree diffs).1 =
      if (session.batchOf tree diffs).changed then
        (session.withBatch tree (session.batchOf tree diffs)).sort
      else session.withBatch tree (session.batchOf tree diffs) := by
  rw [apply]
  rfl

-- What sorting leaves as it is, the batch decides.
theorem field_apply {α : Type} {field : Session → α}
    (h : ∀ session : Session, field session.sort = field session) (session : Session)
    (tree : Tree) (diffs : List Diff) :
    field (session.apply tree diffs).1 =
      field (session.withBatch tree (session.batchOf tree diffs)) := by
  rw [fst_apply]
  split
  · exact h _
  · rfl

theorem graph_apply (session : Session) (tree : Tree) (diffs : List Diff) :
    (session.apply tree diffs).1.graph = (session.batchOf tree diffs).graph :=
  field_apply graph_sort session tree diffs

theorem keys_apply (session : Session) (tree : Tree) (diffs : List Diff) :
    (session.apply tree diffs).1.keys = (session.batchOf tree diffs).keys :=
  field_apply keys_sort session tree diffs

theorem tree_apply (session : Session) (tree : Tree) (diffs : List Diff) :
    (session.apply tree diffs).1.tree = tree :=
  field_apply tree_sort session tree diffs

theorem config_apply (session : Session) (tree : Tree) (diffs : List Diff) :
    (session.apply tree diffs).1.config = session.config :=
  field_apply config_sort session tree diffs

theorem Coherent.steady (h : session.Coherent) (tree : Tree) (diffs : List Diff) :
    Batch.Steady session.graph session.errors (session.batchOf tree diffs) ∧
      (session.batchOf tree diffs).cache.Sound := by
  have hstart : Batch.Steady session.graph session.errors
      (Batch.start session.graph session.keys session.errors session.cache) :=
    ⟨h.consistent, h.grounded, fun _ _ => rfl, fun _ _ _ => Iff.rfl, fun _ _ => rfl⟩
  have hproceeds := Batch.proceeds_applied session.config session.tree tree
    (Batch.start session.graph session.keys session.errors session.cache) h.cache diffs
  obtain ⟨hc, hg, hl, hr, hcycles⟩ := hstart.moves
    (fun path hp hid => h.cyclesAt_of_missing hp hid) h.consistent hproceeds.moves
  exact ⟨⟨hc, hg, hl, hr, hcycles⟩, hproceeds.cache h.cache⟩

theorem Coherent.apply (h : session.Coherent) (tree : Tree) (diffs : List Diff) :
    (session.apply tree diffs).1.Coherent := by
  obtain ⟨hsteady, hcache⟩ := h.steady tree diffs
  rw [fst_apply]
  split
  · exact coherent_sort hsteady.consistent hsteady.grounded hcache
  · next hn =>
    have hn : (session.batchOf tree diffs).changed = false := Bool.eq_false_iff.mpr hn
    refine ⟨hsteady.consistent, hsteady.grounded, hcache, ?_, fun key => ?_⟩
    · -- The order is still that of the graph, since nodes and edges are the same.
      show session.sorted = (session.batchOf tree diffs).graph.sortAll
      rw [h.sorted]
      exact (Graph.sortAll_congr (hsteady.label hn) (hsteady.reads hn)).symm
    · show (session.batchOf tree diffs).errors.cyclesAt key = _
      rw [hsteady.cycles hn, h.cycles]
      rfl

theorem Coherent.perform (h : session.Coherent) (action : Action) :
    (session.perform action).Coherent := by
  cases action with
  | apply tree diffs => exact h.apply tree diffs
  | reset tree => exact coherent_reset session tree
  | recordEvaluation path messages => exact h.recordEvaluation path messages

theorem Coherent.after (h : session.Coherent) (actions : List Action) :
    (session.after actions).Coherent :=
  List.foldlRecOn actions _ (motive := Coherent) h fun _ hs action _ => hs.perform action

theorem coherent_start (config : Config) (cache : Binding.Cache) (tree : Tree) :
    (start config cache tree).Coherent :=
  coherent_reset _ tree

-- The cycle error of each member of a cycle, which is in no other cycle.
theorem Coherent.cyclesAt_member (h : session.Coherent) {cycle : List Path} {member : Path}
    (hc : cycle ∈ session.sorted.cycles) (hm : member ∈ cycle) :
    session.errors.cyclesAt member.render =
      [.cyclicDependency member.render (cycle.map Path.render)] := by
  have hnodup : session.sorted.cycles.flatten.Nodup := by
    rw [h.sorted]
    exact h.consistent.nodup_flatten_cycles Graph.nodup_nodeIds
  have hinj : ∀ other ∈ session.sorted.cycles.flatten, other.render = member.render →
      other = member := fun other ho he => by
    obtain ⟨some, hs, ho⟩ := List.mem_flatten.mp ho
    exact Path.render_inj (h.member hs ho).1 (h.member hc hm).1 he
  rw [h.cycles]
  exact ErrorStore.cycleErrors_of_mem hnodup hinj hc hm

-- After any history, the check finds no fault, the order is that of the
-- graph, and the cycle errors are one for each member of each cycle.
theorem coherent_history (config : Config) (cache : Binding.Cache) (tree : Tree)
    (actions : List Action) :
    let session := (start config cache tree).after actions
    session.graph.fault? = none ∧ session.sorted = session.graph.sortAll ∧
      (∀ cycle ∈ session.sorted.cycles, ∀ member ∈ cycle,
        (session.errors.atPath member).filter ErrorStore.isCycle =
          [.cyclicDependency member.render (cycle.map Path.render)]) ∧
      ∀ key, ∀ error ∈ session.errors.atKey key, ErrorStore.isCycle error = true →
        ∃ cycle ∈ session.sorted.cycles, ∃ member ∈ cycle, key = member.render ∧
          error = .cyclicDependency member.render (cycle.map Path.render) := by
  have h : ((start config cache tree).after actions).Coherent :=
    (coherent_start config cache tree).after actions
  refine ⟨Graph.fault?_eq_none h.consistent, h.sorted, fun cycle hc member hm =>
    h.cyclesAt_member hc hm, fun key error he hcycle => ?_⟩
  have hin : error ∈ ((start config cache tree).after actions).errors.cyclesAt key :=
    List.mem_filter.mpr ⟨he, hcycle⟩
  rw [h.cycles] at hin
  obtain ⟨cycle, hc, hin⟩ := List.mem_flatMap.mp hin
  obtain ⟨member, hm, rfl⟩ := List.mem_map.mp hin
  obtain ⟨hm, hk⟩ := List.mem_filter.mp hm
  exact ⟨cycle, hc, member, hm, (of_decide_eq_true hk).symm, rfl⟩

end Session

end Recalc
