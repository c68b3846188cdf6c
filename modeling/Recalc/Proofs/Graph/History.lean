import Recalc.Proofs.Graph.Linking

namespace Recalc.Graph

variable {graph : Graph} {path : Path} {kind : NodeKind} {check removed : Bool} {added : List Path}

section Fold

theorem addNode_of_contains (h : graph.contains path = true) :
    addNode check (graph, added) (path, kind) =
      (graph, if check then added else added ++ [path]) := by
  simp only [addNode, h, if_true]

theorem addNode_of_missing (h : graph.id? path = none) :
    addNode check (graph, added) (path, kind) = (graph.insertNode path kind, added ++ [path]) := by
  simp [addNode, contains, h]

theorem Consistent.addNode {entry : Path × NodeKind} (h : graph.Consistent) :
    (Graph.addNode check (graph, added) entry).1.Consistent := by
  obtain ⟨path, kind⟩ := entry
  cases hid : graph.id? path with
  | none =>
      rw [addNode_of_missing hid]
      exact h.insertNode hid
  | some id =>
      rw [addNode_of_contains (contains_of_id? hid)]
      exact h

theorem Consistent.addEntries (h : graph.Consistent) (check : Bool)
    (entries : List (Path × NodeKind)) : (graph.addEntries entries check).1.Consistent :=
  List.foldlRecOn entries _ (motive := fun state : Graph × List Path => state.1.Consistent) h
    fun _ hs _ _ => hs.addNode

theorem contains_insertNode {other : Path} :
    (graph.insertNode path kind).contains other = true ↔
      graph.contains other = true ∨ other = path := by
  rw [contains, id?_insertNode, contains]
  by_cases ho : other = path <;> simp [ho]

theorem contains_addEntries {entries : List (Path × NodeKind)} :
    (graph.addEntries entries check).1.contains path = true ↔
      graph.contains path = true ∨ path ∈ entries.map Prod.fst := by
  unfold addEntries
  generalize ([] : List Path) = added
  induction entries generalizing graph added with
  | nil => simp
  | cons entry rest ih =>
      obtain ⟨other, kind⟩ := entry
      cases hid : graph.id? other with
      | none =>
          rw [List.foldl_cons, addNode_of_missing hid, ih, contains_insertNode, List.map_cons,
            List.mem_cons, or_assoc]
      | some id =>
          have hc : graph.contains other = true := contains_of_id? hid
          rw [List.foldl_cons, addNode_of_contains hc, ih, List.map_cons, List.mem_cons]
          refine ⟨Or.imp_right Or.inr, ?_⟩
          rintro (hg | rfl | hr)
          · exact Or.inl hg
          · exact Or.inl hc
          · exact Or.inr hr

-- What is reported as added is among the entries.
theorem mem_entries_of_mem_addEntries {graph : Graph} {entries : List (Path × NodeKind)}
    {check : Bool} {path : Path} (h : path ∈ (graph.addEntries entries check).2) :
    path ∈ entries.map Prod.fst := by
  revert h
  refine List.foldlRecOn entries (Graph.addNode check)
    (motive := fun state : Graph × List Path => path ∈ state.2 → path ∈ entries.map Prod.fst)
    (b := (graph, [])) (fun h => absurd h List.not_mem_nil) fun state hs entry he h => ?_
  have hentry : path ∈ state.2 ++ [entry.1] := by
    unfold addNode at h
    dsimp only at h
    split at h
    · split at h
      · exact List.mem_append_left _ h
      · exact h
    · exact h
  rcases List.mem_append.mp hentry with hold | hnew
  · exact hs hold
  · rw [List.mem_singleton.mp hnew]
    exact List.mem_map_of_mem he

-- A path that is a node names a node.
theorem Consistent.node_of_id? {id : Nat} (h : graph.Consistent) (hid : graph.id? path = some id) :
    ∃ node, graph.nodes[id]? = some node := by
  obtain ⟨node, hnode, _⟩ := Option.map_eq_some_iff.mp ((h.id?_iff path id).mp hid)
  exact ⟨node, hnode⟩

theorem Consistent.removeNode (h : graph.Consistent) :
    (Graph.removeNode (graph, removed) path).1.Consistent := by
  cases hid : graph.id? path with
  | none =>
      rw [removeNode_of_none hid]
      exact h
  | some id =>
      obtain ⟨node, hnode⟩ := h.node_of_id? hid
      rw [removeNode_of_some hid hnode]
      exact h.removeFound hnode hid

theorem Consistent.removeNodes (h : graph.Consistent) (paths : List Path) :
    (graph.removeNodes paths).1.Consistent :=
  List.foldlRecOn paths _ (motive := fun state : Graph × Bool => state.1.Consistent) h
    fun _ hs _ _ => hs.removeNode

-- If no path is reported as new, nothing has been added.
theorem addEntries_of_nil {entries : List (Path × NodeKind)}
    (h : (graph.addEntries entries true).2 = []) : (graph.addEntries entries true).1 = graph := by
  refine List.foldlRecOn entries (addNode true)
    (motive := fun state : Graph × List Path => state.2 = [] → state.1 = graph) (fun _ => rfl)
    (fun state hs entry _ => ?_) h
  obtain ⟨now, added⟩ := state
  unfold addNode
  dsimp only
  split
  · exact hs
  · exact fun hn => absurd hn (List.append_ne_nil_of_right_ne_nil _ (List.cons_ne_nil _ _))

theorem foldl_removeNode_true (paths : List Path) (graph : Graph) :
    (paths.foldl removeNode (graph, true)).2 = true :=
  List.foldlRecOn paths removeNode (motive := fun state : Graph × Bool => state.2 = true) rfl
    fun state hs path _ => by
      unfold removeNode
      dsimp only
      split
      · exact hs
      · split
        · exact hs
        · rfl

-- If no node is reported as removed, none of the paths is a node.
theorem Consistent.removeNodes_of_false (h : graph.Consistent) {paths : List Path}
    (hr : (graph.removeNodes paths).2 = false) :
    (graph.removeNodes paths).1 = graph ∧ ∀ path ∈ paths, graph.id? path = none := by
  have hfold : ∀ (paths : List Path) (removed : Bool),
      (paths.foldl Graph.removeNode (graph, removed)).2 = false →
        removed = false ∧ (paths.foldl Graph.removeNode (graph, removed)).1 = graph ∧
          ∀ path ∈ paths, graph.id? path = none := by
    intro paths
    induction paths with
    | nil => exact fun removed hr => ⟨hr, rfl, fun path hp => absurd hp List.not_mem_nil⟩
    | cons path rest ih =>
        intro removed hr
        rw [List.foldl_cons] at hr ⊢
        cases hid : graph.id? path with
        | none =>
            rw [removeNode_of_none hid] at hr ⊢
            obtain ⟨hfalse, hsame, hrest⟩ := ih removed hr
            exact ⟨hfalse, hsame, List.forall_mem_cons.mpr ⟨hid, hrest⟩⟩
        | some id =>
            obtain ⟨node, hnode⟩ := h.node_of_id? hid
            rw [removeNode_of_some hid hnode] at hr
            exact absurd hr (Bool.not_eq_false _ ▸ foldl_removeNode_true rest _)
  exact (hfold paths false hr).2

end Fold

-- What can be asked of a graph.
inductive Operation
  | addNodes (paths : List Path) (check : Bool)
  | addNodesOfKind (paths : List Path) (kind : NodeKind) (check : Bool)
  | removeNodes (paths : List Path)
  | addDependency (dependent : Path) (targets : List Path)
  | linkAll
  | linkAbove (paths : List Path)

def Operation.apply (graph : Graph) : Operation → Graph
  | .addNodes paths check => (graph.addNodes paths check).1
  | .addNodesOfKind paths kind check => (graph.addNodesOfKind paths kind check).1
  | .removeNodes paths => (graph.removeNodes paths).1
  | .addDependency dependent targets => (graph.addDependency dependent targets).1
  | .linkAll => graph.linkAll.1
  | .linkAbove paths => (graph.linkAbove paths).1

def run (operations : List Operation) : Graph := operations.foldl Operation.apply ∅

theorem Consistent.apply (h : graph.Consistent) (operation : Operation) :
    (operation.apply graph).Consistent := by
  cases operation with
  | addNodes paths check => exact h.addEntries check _
  | addNodesOfKind paths kind check => exact h.addEntries check _
  | removeNodes paths => exact h.removeNodes paths
  | addDependency dependent targets => exact h.addDependency dependent targets
  | linkAll => exact h.linksChildren_linkAll.consistent h
  | linkAbove paths => exact (h.linksChildren_linkAbove paths).consistent h

theorem Consistent.run (operations : List Operation) : (Graph.run operations).Consistent :=
  List.foldlRecOn operations _ (motive := Consistent) .empty fun _ h operation _ =>
    h.apply operation

-- After any operations the tables agree, every edge joins two nodes and the
-- check finds nothing.
theorem faultless_run (operations : List Operation) :
    (Graph.run operations).Consistent ∧
      (∀ i j, (Graph.run operations).Reads i j →
        i ∈ (Graph.run operations).nodes ∧ j ∈ (Graph.run operations).nodes) ∧
      (Graph.run operations).fault? = none := by
  have h : (Graph.run operations).Consistent := .run operations
  exact ⟨h, fun _ _ hr => ⟨hr.mem, h.mem_of_reads hr⟩, fault?_eq_none h⟩

end Recalc.Graph
