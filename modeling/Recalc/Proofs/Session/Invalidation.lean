import Recalc.Proofs.Graph.Drift
import Recalc.Proofs.Schedule.Affected
import Recalc.Proofs.Session.Coherence

namespace Recalc

namespace Batch

open Binding Recalc.Graph

variable {config : Config} {former tree : Tree} {batch first second : Batch} {kind : Kind}
  {entity : Entity} {path : Path} {start : Graph}

-- What is to be evaluated again, apart from what reads it.
def seeded (batch : Batch) (path : Path) : Prop := path ∈ Session.seeds batch

theorem seeded_iff :
    batch.seeded path ↔
      path ∈ batch.touched ∨ path ∈ batch.added ∨ path ∈ batch.readersOfRemoved := by
  simp only [seeded, Session.seeds, List.mem_append, OrderedSet.mem_toList, or_assoc]

-- Since a batch began, its graph has drifted by its seeds only.
structure Seeded (start : Graph) (batch : Batch) : Prop where
  consistent : batch.graph.Consistent
  drift : Drift batch.seeded start batch.graph

theorem Seeded.quiet (h : Seeded start first) (hq : Quiet first second) : Seeded start second := by
  have hm : ∀ path, first.seeded path → second.seeded path := by
    intro path
    rw [seeded_iff, seeded_iff, hq.added, hq.readers]
    exact Or.imp_left (hq.touched path)
  refine ⟨?_, ?_⟩
  · rw [hq.graph]
    exact h.consistent
  · rw [hq.graph]
    exact h.drift.mono fun _ path _ => hm path

-- A step of the graph whose seeds are seeds of the batch from then on.
theorem Seeded.step {seeds : Path → Prop} (h : Seeded start first)
    (hc : second.graph.Consistent) (hd : Drift seeds first.graph second.graph)
    (hnew : ∀ path, seeds path → second.seeded path)
    (hold : ∀ id path, second.graph.path? id = some path → first.seeded path →
      second.seeded path) : Seeded start second :=
  ⟨hc, h.drift.trans (hd.mono fun _ path _ => hnew path) h.consistent hc hold⟩

theorem Seeded.grow (h : Seeded start batch) (entries : List (Path × NodeKind)) :
    Seeded start (grow config kind entries batch) := by
  have hc := h.consistent.addEntries true entries
  have hd := h.consistent.drift_addEntries entries
  unfold Batch.grow recordAdded
  split
  · next hempty =>
    have hsame := Graph.addEntries_of_nil (List.isEmpty_iff.mp hempty)
    rw [hsame]
    exact ⟨h.consistent, h.drift⟩
  · have hl := linksChildren_linkIf hc config kind
      (batch.graph.addEntries entries true).2
    refine h.step (hl.consistent hc) (hd.trans hl.drift hc (hl.consistent hc) fun _ _ _ ha => ha)
      (fun path ha => ?_) fun _ path _ => ?_
    · exact seeded_iff.mpr (Or.inr (Or.inl (OrderedSet.mem_insertMany.mpr (Or.inr ha))))
    · rw [seeded_iff, seeded_iff]
      exact Or.imp_right (Or.imp_left fun ha => OrderedSet.mem_insertMany.mpr (Or.inl ha))

theorem Seeded.applyReading (h : Seeded start batch) (found : Dependencies) :
    Seeded start (applyReading config kind batch (path, found)) := by
  have hc := h.consistent.addDependency path found.references.toList
  have hd := h.consistent.drift_addDependency path found.references.toList
  have hl := linksChildren_applyReading h.consistent config kind path found
  refine h.step (hl.consistent hc) (hd.trans hl.drift hc (hl.consistent hc) fun _ _ _ he => he)
    (fun other he => ?_) fun _ other _ => ?_
  · exact seeded_iff.mpr (Or.inl (OrderedSet.mem_insert.mpr (Or.inr he)))
  · rw [seeded_iff, seeded_iff]
    exact Or.imp_left fun ht => OrderedSet.mem_insert.mpr (Or.inl ht)

theorem mem_readersOutside {graph : Graph} (h : graph.Consistent) {gone : List Path}
    {reader : Path} :
    reader ∈ readersOutside graph gone ↔ reader ∉ gone ∧ ∃ target ∈ gone, ∃ i j,
      graph.path? i = some reader ∧ graph.Reads i j ∧ graph.path? j = some target := by
  simp only [readersOutside, OrderedSet.mem_ofList, List.mem_filter, List.mem_flatMap,
    h.mem_dependents, Bool.not_eq_true', decide_eq_false_iff_not]
  exact and_comm

-- A deletion drifts by those who read what it removes.
theorem drift_deleted {graph : Graph} (h : graph.Consistent) :
    Drift (· ∈ readersOutside graph (gone former entity path)) graph
      (deleted former entity path graph).1 := by
  have hs := h.shrinks_removeNodes (removedSetters entity path)
  have hshrinks := hs.trans ((h.removeNodes (removedSetters entity path)).shrinks_removeNodes
    (removedPaths former path))
  refine hshrinks.drift h fun i j reader target hr hi hn hj hg => ?_
  rw [mem_readersOutside h, gone, List.mem_append]
  exact ⟨fun hm => hn hm.symm, target, List.mem_append.mpr hg.symm, i, j, hi, hr, hj⟩

-- Nothing that a deletion removes is a node after it.
theorem not_mem_removedPaths {graph : Graph} (h : graph.Consistent) {id : Nat} {other : Path}
    (hp : (deleted former entity path graph).1.path? id = some other) :
    other ∉ removedPaths former path := by
  obtain ⟨kind, hl⟩ := path?_eq_some_iff.mp hp
  exact (((h.removeNodes (removedSetters entity path)).shrinks_removeNodes
    (removedPaths former path)).label id other kind |>.mp hl).2

-- A deletion forgets paths that are nodes no longer, so no seed is lost.
theorem Seeded.onDelete (h : Seeded start batch) :
    Seeded start (onDelete config former entity path batch) := by
  have hgraph : (Batch.onDelete config former entity path batch).graph =
      (deleted former entity path batch.graph).1 := by
    rw [onDelete_eq, graph_foldl_forget]
    rfl
  have hreaders : (Batch.onDelete config former entity path batch).readersOfRemoved =
      batch.readersOfRemoved.insertMany
        (readersOutside batch.graph (gone former entity path)).toList := by
    rw [onDelete_eq, readers_foldl_forget]
    rfl
  have hdrift : Drift (· ∈ readersOutside batch.graph (gone former entity path)) batch.graph
      (Batch.onDelete config former entity path batch).graph := by
    rw [hgraph]
    exact drift_deleted h.consistent
  refine h.step ?_ hdrift (fun other ho => ?_) fun id other hp hs => ?_
  · rw [hgraph]
    exact consistent_deleted former entity path h.consistent
  · rw [seeded_iff, hreaders, OrderedSet.mem_insertMany]
    exact Or.inr (Or.inr (Or.inr ho))
  · rw [hgraph] at hp
    have hleft := not_mem_removedPaths h.consistent hp
    rw [seeded_iff, hreaders, OrderedSet.mem_insertMany, onDelete_eq, mem_touched_foldl_forget,
      mem_added_foldl_forget]
    rcases seeded_iff.mp hs with ht | ha | hr
    · exact Or.inl ⟨ht, hleft⟩
    · exact Or.inr (Or.inl ⟨ha, hleft⟩)
    · exact Or.inr (Or.inr (Or.inl hr))

theorem Seeded.move (h : Seeded start first) (hm : Move config former first second) :
    Seeded start second := by
  cases hm with
  | quiet hq => exact h.quiet hq
  | grow kind entries batch => exact h.grow entries
  | read kind path found batch hf => exact h.applyReading found
  | delete entity path batch hp => exact h.onDelete

theorem Seeded.moves (h : Seeded start first) (hm : Moves config former first second) :
    Seeded start second := by
  induction hm with
  | refl => exact h
  | tail _ hstep ih => exact ih.move hstep

-- Readers that are nodes no longer need not be evaluated.
theorem Seeded.dropGoneReaders (h : Seeded start batch) : Seeded start batch.dropGoneReaders := by
  refine ⟨h.consistent, h.drift.mono fun id path hp hs => ?_⟩
  rw [seeded_iff] at hs ⊢
  refine Or.imp_right (Or.imp_right fun hr => OrderedSet.mem_filter.mpr ⟨hr, ?_⟩) hs
  exact h.consistent.contains_iff.mpr ⟨id, hp⟩

end Batch

namespace Session

variable {session : Session}

theorem Coherent.seeded (h : session.Coherent) (tree : Tree) (diffs : List Diff) :
    Batch.Seeded session.graph (session.batchOf tree diffs) := by
  have hproceeds := Batch.proceeds_applied session.config session.tree tree
    (Batch.start session.graph session.keys session.errors session.cache) h.cache diffs
  have hstart : Batch.Seeded session.graph
      (Batch.start session.graph session.keys session.errors session.cache) :=
    ⟨h.consistent, .refl session.graph⟩
  exact (hstart.moves hproceeds.moves).dropGoneReaders

theorem affected_apply (session : Session) (tree : Tree) (diffs : List Diff) :
    (session.apply tree diffs).2.affected =
      ((session.batchOf tree diffs).graph.sortAffected
        (seeds (session.batchOf tree diffs))).evaluationOrder := by
  simp only [apply, batchOf, apply_ite Session.graph, graph_sort, ite_self]

-- What an update says of a node that it does not affect.
structure Unaffected (before after : Graph) (affected : List Path) (path : Path) : Prop where
  present : before.contains path = true
  id : after.id? path = before.id? path
  kind : (after.node? path).map Node.kind = (before.node? path).map Node.kind
  keeps : ∀ target ∈ before.dependencies path, target ∈ after.dependencies path
  gains : ∀ target ∈ after.dependencies path, target ∉ before.dependencies path →
    target.isChildOf path = true
  clear : ∀ target ∈ after.dependencies path, target ∉ affected

theorem Coherent.unaffected (h : session.Coherent) {tree : Tree} {diffs : List Diff} {path : Path}
    (hp : (session.apply tree diffs).1.graph.contains path = true)
    (hn : path ∉ (session.apply tree diffs).2.affected) :
    Unaffected session.graph (session.apply tree diffs).1.graph
      (session.apply tree diffs).2.affected path := by
  obtain ⟨hc, hdrift⟩ := h.seeded tree diffs
  rw [affected_apply] at hn ⊢
  rw [graph_apply] at hp ⊢
  generalize session.batchOf tree diffs = batch at *
  obtain ⟨i, hi⟩ := hc.contains_iff.mp hp
  obtain ⟨kind, hl⟩ := Graph.path?_eq_some_iff.mp hi
  rw [hc.mem_sortAffected hi] at hn
  have hclear : ∀ j, batch.graph.Reads i j → j ∉ batch.graph.affected (seeds batch) :=
    fun j hr hj => hn (hc.mem_affected_of_reads hr hj)
  have hunseeded : ¬batch.seeded path := fun hs => hn (hc.mem_affected_of_seed hi hs)
  have hlabel := hdrift.node i path kind hl hunseeded
  have hbefore : session.graph.path? i = some path := Graph.path?_of_label hlabel
  refine ⟨h.consistent.contains_iff.mpr ⟨i, hbefore⟩, ?_, ?_, fun target ht => ?_,
    fun target ht hnew => ?_, fun target ht => ?_⟩
  · rw [(hc.id?_iff path i).mpr hi, (h.consistent.id?_iff path i).mpr hbefore]
  · rw [hc.kind_of_label hl, h.consistent.kind_of_label hlabel]
  · obtain ⟨k, j, hk, hr, hj⟩ := h.consistent.mem_dependencies.mp ht
    obtain rfl := h.consistent.path?_inj hk hbefore
    have hr' := hdrift.keeps k j path hi hunseeded hr
    obtain ⟨other, hj'⟩ := Graph.mem_nodes_iff_path.mp (hc.mem_of_reads hr')
    have hsame := hdrift.path?_of_mem h.consistent (h.consistent.mem_of_reads hr) hj'
    obtain rfl : target = other := Option.some_inj.mp (hj.symm.trans hsame)
    exact hc.mem_dependencies.mpr ⟨k, j, hi, hr', hj'⟩
  · obtain ⟨k, j, hk, hr, hj⟩ := hc.mem_dependencies.mp ht
    obtain rfl := hc.path?_inj hk hi
    rcases hdrift.gains k j path hi hunseeded hr with hold | hstruct | ⟨seed, hseed, hs⟩
    · have hj' := hdrift.path?_of_mem h.consistent (h.consistent.mem_of_reads hold) hj
      exact absurd (h.consistent.mem_dependencies.mpr ⟨k, j, hbefore, hold, hj'⟩) hnew
    · obtain ⟨above, below, ha, hb, hchild⟩ := Graph.isStructural_iff.mp hstruct
      obtain rfl : path = above := Option.some_inj.mp (hi.symm.trans ha)
      obtain rfl : target = below := Option.some_inj.mp (hj.symm.trans hb)
      exact hchild
    · exact absurd (hc.mem_affected_of_seed hseed hs) (hclear j hr)
  · obtain ⟨k, j, hk, hr, hj⟩ := hc.mem_dependencies.mp ht
    obtain rfl := hc.path?_inj hk hi
    rw [hc.mem_sortAffected hj]
    exact hclear j hr

-- After any history, a path that an update does not affect is not stale.
theorem unaffected_history (config : Config) (cache : Binding.Cache) (tree next : Tree)
    (actions : List Action) (diffs : List Diff) (path : Path) :
    let session := (start config cache tree).after actions
    let result := session.apply next diffs
    result.1.graph.contains path = true → path ∉ result.2.affected →
      Unaffected session.graph result.1.graph result.2.affected path :=
  fun hp hn => ((coherent_start config cache tree).after actions).unaffected hp hn

-- A label shows the total of a form, beside a field that nothing shows.
def form : Tree :=
  (∅ : Tree).insert "Form" ((Entity.ofKind .widget (.obj
    [("field", .num 1), ("label", .str "{{ Form.total }}"), ("total", .num 2)])).withBindings
      ["label"])

theorem unaffected_label :
    let session := start .standard (.ofCapacity 1) form
    let result := session.apply form [.edit "Form.field" (.num 3)]
    let path := Path.parseLenient "Form.label"
    session.graph.dependencies path = [Path.parseLenient "Form.total"] ∧
      Unaffected session.graph result.1.graph result.2.affected path :=
  ⟨by decide +kernel, unaffected_history .standard (.ofCapacity 1) form form []
    [.edit "Form.field" (.num 3)] (.parseLenient "Form.label") (by decide +kernel)
    (by decide +kernel)⟩

end Session

end Recalc
