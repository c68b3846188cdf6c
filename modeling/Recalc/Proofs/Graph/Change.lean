import Mathlib.Data.Set.Basic
import Recalc.Proofs.Graph.Counting
import Recalc.Proofs.Graph.Drift

namespace Recalc.Graph

variable {graph : Graph} {path target reader : Path} {paths targets : List Path}
  {kind : NodeKind} {i j id : Nat}

def nodeSet (graph : Graph) : Set Path := {path | graph.contains path = true}

section Added

theorem contains_insertNode_eq (other : Path) : (graph.insertNode path kind).contains other =
    (graph.contains other || other == path) := by
  rw [Bool.eq_iff_iff, contains_insertNode, Bool.or_eq_true, beq_iff_eq]

-- A path is compared with the nodes that are there when its turn comes, which
-- are those from before and the paths reported so far.
theorem reported_foldl_addNode (graph : Graph) (entries : List (Path × NodeKind))
    (added : List Path) :
    (entries.foldl (addNode true) (graph, added)).2 =
      added ++ ((entries.map Prod.fst).filter fun path => !graph.contains path).eraseDups := by
  induction entries generalizing graph added with
  | nil => exact (List.append_nil added).symm
  | cons entry rest ih =>
      obtain ⟨path, kind⟩ := entry
      rw [List.foldl_cons, List.map_cons]
      cases hid : graph.id? path with
      | some id =>
          have hc : graph.contains path = true := contains_of_id? hid
          rw [addNode_of_contains hc, if_pos rfl, ih, List.filter_cons_of_neg (by simp [hc])]
      | none =>
          have hc : graph.contains path = false := not_contains_of_id? hid
          rw [addNode_of_missing hid, ih, List.filter_cons_of_pos (by simp [hc]),
            List.eraseDups_cons, List.filter_filter, List.append_assoc, List.singleton_append]
          simp only [contains_insertNode_eq, Bool.not_or, Bool.and_comm]

-- The paths that are no nodes become nodes, and they are reported in order and
-- each once.
structure AddsMissing (graph : Graph) (paths : List Path) (result : Graph × List Path) : Prop where
  reported : result.2 = (paths.filter fun path => !graph.contains path).eraseDups
  nodes : result.1.nodeSet = graph.nodeSet ∪ {path | path ∈ result.2}

theorem addsMissing_addEntries (graph : Graph) (entries : List (Path × NodeKind)) :
    AddsMissing graph (entries.map Prod.fst) (graph.addEntries entries true) := by
  have hreported := reported_foldl_addNode graph entries []
  refine ⟨hreported, Set.ext fun path => ?_⟩
  have hmem : path ∈ (graph.addEntries entries true).2 ↔
      path ∈ entries.map Prod.fst ∧ graph.contains path = false := by
    rw [addEntries, hreported, List.nil_append, List.mem_eraseDups, List.mem_filter,
      Bool.not_eq_true']
  rw [Set.mem_union, Set.mem_ofPred_eq, hmem]
  refine contains_addEntries.trans ⟨?_, Or.imp_right And.left⟩
  rintro (hold | hnew)
  · exact Or.inl hold
  · cases hc : graph.contains path with
    | true => exact Or.inl hc
    | false => exact Or.inr ⟨hnew, rfl⟩

theorem addsMissing_addNodes (paths : List Path) :
    AddsMissing graph paths (graph.addNodes paths true) := by
  have h := graph.addsMissing_addEntries (paths.map fun path => (path, .ofPath path))
  rwa [List.map_map, Function.comp_def, List.map_id'] at h

theorem addsMissing_addNodesOfKind (paths : List Path) (kind : NodeKind) :
    AddsMissing graph paths (graph.addNodesOfKind paths kind true) := by
  have h := graph.addsMissing_addEntries (paths.map fun path => (path, kind))
  rwa [List.map_map, Function.comp_def, List.map_id'] at h

end Added

section Removed

theorem Consistent.removeNodes_eq_true_iff (h : graph.Consistent) :
    (graph.removeNodes paths).2 = true ↔ ∃ path ∈ paths, graph.contains path = true := by
  induction paths with
  | nil => simp [Graph.removeNodes]
  | cons path rest ih =>
      rw [Graph.removeNodes, List.foldl_cons]
      simp only [List.mem_cons, exists_eq_or_imp]
      cases hid : graph.id? path with
      | none =>
          have hc : graph.contains path = false := not_contains_of_id? hid
          rw [removeNode_of_none hid, hc]
          simp only [Bool.false_eq_true, false_or]
          exact ih
      | some id =>
          obtain ⟨node, hnode⟩ := h.node_of_id? hid
          have hc : graph.contains path = true := contains_of_id? hid
          rw [removeNode_of_some hid hnode, hc]
          exact iff_of_true (foldl_removeNode_true rest _) (Or.inl rfl)

-- No path becomes a node, and it is reported whether the nodes are fewer.
structure ReportsLoss (graph : Graph) (result : Graph × Bool) : Prop where
  subset : result.1.nodeSet ⊆ graph.nodeSet
  fewer_iff : result.2 = true ↔ result.1.nodeSet ≠ graph.nodeSet

theorem Consistent.reportsLoss_removeNodes (h : graph.Consistent) (paths : List Path) :
    ReportsLoss graph (graph.removeNodes paths) := by
  have hsubset : (graph.removeNodes paths).1.nodeSet ⊆ graph.nodeSet := fun path hp =>
    (h.contains_removeNodes.mp hp).1
  refine ⟨hsubset, h.removeNodes_eq_true_iff.trans ⟨?_, fun hne => ?_⟩⟩
  · rintro ⟨path, hp, hc⟩ hsame
    have hleft : path ∈ (graph.removeNodes paths).1.nodeSet := hsame ▸ hc
    exact (h.contains_removeNodes.mp hleft).2 hp
  · by_contra hnone
    refine hne (hsubset.antisymm fun path hc => h.contains_removeNodes.mpr ⟨hc, fun hp => ?_⟩)
    exact hnone ⟨path, hp, hc⟩

end Removed

section Declared

theorem Consistent.mem_dependents_iff_reads (h : graph.Consistent)
    (hi : graph.path? i = some reader) (hj : graph.path? j = some path) :
    reader ∈ graph.dependents path ↔ graph.Reads i j := by
  rw [h.mem_dependents]
  constructor
  · rintro ⟨i', j', hi', hr, hj'⟩
    rwa [h.path?_inj hi hi', h.path?_inj hj hj']
  · exact fun hr => ⟨i, j, hi, hr, hj⟩

theorem Consistent.not_mem_dependents_of_missing (h : graph.Consistent)
    (hnone : ∀ i, graph.path? i ≠ some reader) : reader ∉ graph.dependents path := by
  rw [h.mem_dependents]
  rintro ⟨i, _, hi, _⟩
  exact hnone i hi

-- A node that has just come in reads nothing yet.
theorem Consistent.mem_dependents_ensure (h : graph.Consistent) :
    path ∈ (graph.ensure path).dependents target ↔ path ∈ graph.dependents target := by
  cases hid : graph.id? path with
  | some id => rw [ensure_of_some hid]
  | none =>
      have hnone : ∀ i, graph.path? i ≠ some path := fun i hi => by
        rw [(h.id?_iff path i).mpr hi] at hid
        cases hid
      refine iff_of_false (fun hm => ?_) (h.not_mem_dependents_of_missing hnone)
      obtain ⟨i, j, hi, hr, -⟩ := (h.ensure.mem_dependents).mp hm
      rw [ensure_of_none hid] at hi hr
      have hold : i ∈ graph.nodes := by
        rcases h.reads_insertNode.mp hr with hr | ⟨-, hw⟩
        · exact hr.mem
        · exact h.owner _ _ hw
      have hne : i ≠ graph.nextId := fun he => h.fresh (he ▸ hold)
      rw [path?_insertNode, if_neg hne] at hi
      exact hnone i hi

theorem Consistent.mem_redeclare_iff (h : graph.Consistent) (hid : graph.id? path = some id)
    (affected : OrderedSet Path) : target ∈ (graph.redeclare id targets affected).2 ↔
      target ∈ affected ∨
        ¬(path ∈ (graph.redeclare id targets affected).1.dependents target ↔
          path ∈ graph.dependents target) := by
  have hs : SameNodes graph (graph.redeclare id targets affected).1 := sameNodes_redeclare _ _
  have hi := h.path?_of_id? path id hid
  by_cases ha : graph.Accepts id
  · obtain ⟨kind, hl, hk⟩ := label_of_accepts hi ha
    rw [h.mem_redeclare hl hk]
    refine or_congr Iff.rfl ⟨?_, fun hchanged => ?_⟩
    · rintro ⟨j, hj, hchanged⟩
      rwa [h.mem_dependents_iff_reads hi hj,
        h.redeclare.mem_dependents_iff_reads ((hs.path? id).trans hi) ((hs.path? j).trans hj)]
    · have hnode : ∃ j, graph.path? j = some target := by
        by_contra hnone
        refine hchanged (iff_of_false (fun hm => ?_) fun hm => ?_)
        · obtain ⟨_, j, _, _, hj⟩ := h.redeclare.mem_dependents.mp hm
          exact hnone ⟨j, (hs.path? j).symm.trans hj⟩
        · obtain ⟨_, j, _, _, hj⟩ := h.mem_dependents.mp hm
          exact hnone ⟨j, hj⟩
      obtain ⟨j, hj⟩ := hnode
      refine ⟨j, hj, ?_⟩
      rwa [h.mem_dependents_iff_reads hi hj, h.redeclare.mem_dependents_iff_reads
        ((hs.path? id).trans hi) ((hs.path? j).trans hj)] at hchanged
  · rw [redeclare_of_not_accepts ha]
    simp

-- The targets are reported that the path begins or ceases to read, and the
-- path itself if it is a new node.
structure ReportsReaders (graph : Graph) (path : Path) (result : Graph × OrderedSet Path) :
    Prop where
  mem_iff : ∀ target, target ∈ result.2 ↔
    ¬(path ∈ result.1.dependents target ↔ path ∈ graph.dependents target) ∨
      target = path ∧ graph.contains path = false
  quiet : result.2.isEmpty = true →
    SameNodes graph result.1 ∧ ∀ i j, result.1.Reads i j ↔ graph.Reads i j

theorem Consistent.reportsReaders_addDependency (h : graph.Consistent) (path : Path)
    (targets : List Path) : ReportsReaders graph path (graph.addDependency path targets) := by
  refine ⟨fun target => ?_, h.addDependency_of_isEmpty⟩
  obtain ⟨id, hid⟩ := id?_ensure graph path
  rw [addDependency_eq hid, h.ensure.mem_redeclare_iff hid, h.mem_dependents_ensure, or_comm]
  refine or_congr Iff.rfl ?_
  cases graph.contains path <;> simp

end Declared

section Linked

-- As many edges come in as are counted, and nothing else changes.
structure CountsEdges (graph : Graph) (result : Graph × Nat) : Prop where
  edges : result.1.edgeCount = graph.edgeCount + result.2
  nodes : SameNodes graph result.1
  waiting : SameWaiting graph result.1

theorem Consistent.countsEdges_linkAbove (h : graph.Consistent) (paths : List Path) :
    CountsEdges graph (graph.linkAbove paths) :=
  have hlinks := h.linksChildren_linkAbove paths
  ⟨edgeCount_linkAbove paths, hlinks.nodes, hlinks.waiting⟩

end Linked

-- What an operation returns tells what it has changed.
structure ReportsChanges (graph : Graph) : Prop where
  addNodes : ∀ paths, AddsMissing graph paths (graph.addNodes paths true)
  addNodesOfKind : ∀ paths kind, AddsMissing graph paths (graph.addNodesOfKind paths kind true)
  removeNodes : ∀ paths, ReportsLoss graph (graph.removeNodes paths)
  addDependency : ∀ path targets, ReportsReaders graph path (graph.addDependency path targets)
  linkAll : CountsEdges graph graph.linkAll
  linkAbove : ∀ paths, CountsEdges graph (graph.linkAbove paths)

-- After any operations, the next one reports what it changes.
theorem reportsChanges_run (operations : List Operation) :
    (Graph.run operations).ReportsChanges := by
  have h : (Graph.run operations).Consistent := .run operations
  exact {
    addNodes := addsMissing_addNodes
    addNodesOfKind := addsMissing_addNodesOfKind
    removeNodes := h.reportsLoss_removeNodes
    addDependency := h.reportsReaders_addDependency
    linkAll := h.countsEdges_linkAbove (Graph.run operations).paths
    linkAbove := h.countsEdges_linkAbove }

end Recalc.Graph
