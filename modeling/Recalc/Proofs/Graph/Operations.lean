import Recalc.Graph.Linking
import Recalc.Proofs.Graph.Consistency

namespace Recalc.Graph

variable {graph : Graph}

section Insert

variable {path : Path} {kind : NodeKind} {i j : Nat} {target : Path}

-- The graph with a new node that nobody reads yet.
def grow (graph : Graph) (path : Path) (kind : NodeKind) : Graph :=
  { graph with
    nodes := graph.nodes.insert graph.nextId (.ofPath path kind)
    ids := graph.ids.insert path graph.nextId
    nextId := graph.nextId + 1 }

theorem insertNode_eq (path : Path) (kind : NodeKind) :
    graph.insertNode path kind = (graph.grow path kind).promote path graph.nextId := rfl

theorem nodes_grow (i : Nat) :
    (graph.grow path kind).nodes[i]? =
      if i = graph.nextId then some (.ofPath path kind) else graph.nodes[i]? := by
  simp only [grow, Std.TreeMap.getElem?_insert, Std.compare_eq_iff_eq, eq_comm (a := i)]

theorem label?_grow (i : Nat) :
    (graph.grow path kind).label? i =
      if i = graph.nextId then some (path, kind) else graph.label? i := by
  unfold label?
  rw [nodes_grow]
  split <;> rfl

theorem reads_grow (h : graph.nextId ∉ graph.nodes) :
    (graph.grow path kind).Reads i j ↔ graph.Reads i j := by
  unfold Reads
  rw [nodes_grow]
  by_cases hi : i = graph.nextId
  · subst hi
    refine ⟨?_, fun hr => absurd (Reads.mem hr) h⟩
    rintro ⟨node, hnode, hj⟩
    rw [if_pos rfl] at hnode
    cases hnode
    exact absurd hj (OrderedSet.not_mem_empty j)
  · rw [if_neg hi]

theorem isRead_grow (h : graph.nextId ∉ graph.nodes) :
    (graph.grow path kind).IsRead j i ↔ graph.IsRead j i := by
  unfold IsRead
  rw [nodes_grow]
  by_cases hj : j = graph.nextId
  · subst hj
    refine ⟨?_, fun hr => absurd (IsRead.mem hr) h⟩
    rintro ⟨node, hnode, hi⟩
    rw [if_pos rfl] at hnode
    cases hnode
    exact absurd hi (OrderedSet.not_mem_empty i)
  · rw [if_neg hj]

theorem mirrored_grow (h : graph.nextId ∉ graph.nodes) (hm : graph.Mirrored) :
    (graph.grow path kind).Mirrored :=
  fun i j => by rw [reads_grow h, isRead_grow h, hm]

theorem mem_nodes_grow : i ∈ (graph.grow path kind).nodes ↔ i = graph.nextId ∨ i ∈ graph.nodes := by
  rw [grow, Std.TreeMap.mem_insert, Std.compare_eq_iff_eq, eq_comm]

theorem label?_insertNode (path : Path) (kind : NodeKind) (i : Nat) :
    (graph.insertNode path kind).label? i =
      if i = graph.nextId then some (path, kind) else graph.label? i := by
  rw [insertNode_eq, (sameNodes_promote _ _).label, label?_grow]

theorem path?_insertNode (path : Path) (kind : NodeKind) (i : Nat) :
    (graph.insertNode path kind).path? i =
      if i = graph.nextId then some path else graph.path? i := by
  ext other
  rw [path?_eq_some_iff, label?_insertNode]
  split
  · simp
  · rw [path?_eq_some_iff]

theorem accepts_insertNode_of_ne (hi : i ≠ graph.nextId) :
    (graph.insertNode path kind).Accepts i ↔ graph.Accepts i := by
  simp only [Accepts, label?_insertNode, if_neg hi]

theorem id?_insertNode (path : Path) (kind : NodeKind) (other : Path) :
    (graph.insertNode path kind).id? other =
      if other = path then some graph.nextId else graph.id? other := by
  rw [insertNode_eq, (sameNodes_promote _ _).id?, id?, grow]
  simp only [Std.TreeMap.getElem?_insert, Std.compare_eq_iff_eq, eq_comm (a := other)]
  rfl

theorem nextId_insertNode (path : Path) (kind : NodeKind) :
    (graph.insertNode path kind).nextId = graph.nextId + 1 := by
  rw [insertNode_eq, (sameNodes_promote _ _).nextId]
  rfl

-- Those who waited for the path read the new node.
theorem Consistent.reads_insertNode (h : graph.Consistent) :
    (graph.insertNode path kind).Reads i j ↔
      graph.Reads i j ∨ j = graph.nextId ∧ graph.Awaits i path := by
  have hi : graph.Awaits i path → i ≠ graph.nextId ∧ i ∈ graph.nodes := fun ha =>
    ⟨fun he => h.fresh (he ▸ h.owner _ _ ha), h.owner _ _ ha⟩
  have hw : (graph.grow path kind).IsAwaited path i ↔ graph.Awaits i path :=
    (h.awaits_iff i path).symm
  rw [insertNode_eq, reads_promote, reads_grow h.fresh, hw]
  simp only [Linkable, mem_nodes_grow]
  tauto

theorem Consistent.awaits_insertNode (h : graph.Consistent) :
    (graph.insertNode path kind).Awaits i target ↔ graph.Awaits i target ∧ target ≠ path := by
  have hw : (graph.grow path kind).IsAwaited path i ↔ graph.Awaits i path :=
    (h.awaits_iff i path).symm
  have ha : (graph.grow path kind).Awaits i target ↔ graph.Awaits i target := Iff.rfl
  rw [insertNode_eq, awaits_promote, ha, hw]
  constructor
  · rintro ⟨hold, hn⟩
    refine ⟨hold, ?_⟩
    rintro rfl
    exact hn ⟨hold, rfl⟩
  · rintro ⟨hold, hne⟩
    exact ⟨hold, fun hn => hne hn.2⟩

theorem isAwaited_insertNode :
    (graph.insertNode path kind).IsAwaited target i ↔ graph.IsAwaited target i ∧ target ≠ path :=
  isAwaited_promote

theorem Consistent.accepts_insertNode (h : graph.Consistent) (hi : graph.Accepts i) :
    (graph.insertNode path kind).Accepts i := by
  have hne : i ≠ graph.nextId := fun he => h.fresh (he ▸ Consistent.mem_of_accepts hi)
  exact (accepts_insertNode_of_ne hne).mpr hi

theorem Consistent.insertNode (h : graph.Consistent) (hnone : graph.id? path = none) :
    (graph.insertNode path kind).Consistent where
  id?_iff other id := by
    rw [id?_insertNode, path?_insertNode]
    by_cases hid : id = graph.nextId
    · subst hid
      by_cases ho : other = path
      · simp [ho]
      · simp [ho, h.id?_ne_nextId, Ne.symm ho]
    · rw [if_neg hid, ← h.id?_iff]
      by_cases ho : other = path
      · subst ho
        simp [hnone, Ne.symm hid]
      · rw [if_neg ho]
  below id hm := by
    rw [nextId_insertNode]
    rw [mem_nodes_iff, label?_insertNode] at hm
    by_cases hid : id = graph.nextId
    · omega
    · rw [if_neg hid, ← mem_nodes_iff] at hm
      exact Nat.lt_succ_of_lt (h.below id hm)
  mirror := mirrored_promote (mirrored_grow h.fresh h.mirror)
  irreflexive id hr := by
    rcases h.reads_insertNode.mp hr with hold | ⟨rfl, ha⟩
    · exact h.irreflexive id hold
    · exact h.fresh (h.owner _ _ ha)
  awaits_iff i target := by rw [h.awaits_insertNode, isAwaited_insertNode, h.awaits_iff]
  tight := tight_promote ⟨h.tight.pending, h.tight.waiting⟩
  owner i target ha := by
    obtain ⟨label, hl⟩ := mem_nodes_iff.mp (h.owner _ _ (h.awaits_insertNode.mp ha).1)
    rw [mem_nodes_iff, label?_insertNode]
    split
    · exact ⟨_, rfl⟩
    · exact ⟨label, hl⟩
  missing i target ha := by
    obtain ⟨hold, hne⟩ := h.awaits_insertNode.mp ha
    rw [id?_insertNode, if_neg hne, h.missing _ _ hold]
  reads_accepts i j hr := by
    rcases h.reads_insertNode.mp hr with hold | ⟨_, ha⟩
    · exact h.accepts_insertNode (h.reads_accepts _ _ hold)
    · exact h.accepts_insertNode (h.awaits_accepts _ _ ha)
  awaits_accepts i target ha :=
    h.accepts_insertNode (h.awaits_accepts _ _ (h.awaits_insertNode.mp ha).1)

end Insert

section Detach

variable {path : Path} {id i j : Nat} {target : Path}

-- A node that reads a path otherwise than as its container.
def ReadsAside (graph : Graph) (path : Path) (i : Nat) : Prop :=
  ∃ above, graph.path? i = some above ∧ path.isChildOf above = false

theorem readsAside_congr {second : Graph} (h : SameNodes graph second) :
    second.ReadsAside path i ↔ graph.ReadsAside path i := by
  simp only [ReadsAside, h.path?]

theorem detach_of_none {dependent : Nat} (h : graph.nodes[dependent]? = none) :
    detach path id graph dependent = graph := by
  unfold detach
  rw [h]

theorem detach_of_some {dependent : Nat} {node : Node} (h : graph.nodes[dependent]? = some node) :
    detach path id graph dependent =
      if path.isChildOf node.path then graph.update dependent (.removeDependency id)
      else (graph.update dependent (.removeDependency id)).park dependent path := by
  unfold detach
  rw [h]

theorem sameNodes_removeDependency (dependent : Nat) :
    SameNodes graph (graph.update dependent (.removeDependency id)) :=
  ⟨rfl, rfl, fun other => label?_removeDependency dependent id other⟩

theorem sameNodes_detach (dependent : Nat) : SameNodes graph (detach path id graph dependent) := by
  cases hnode : graph.nodes[dependent]? with
  | none =>
      rw [detach_of_none hnode]
      exact .refl graph
  | some node =>
      rw [detach_of_some hnode]
      split
      · exact sameNodes_removeDependency dependent
      · exact (sameNodes_removeDependency dependent).trans (sameLive_park _ _).sameNodes

theorem reads_detach {dependent : Nat} :
    (detach path id graph dependent).Reads i j ↔
      graph.Reads i j ∧ ¬(i = dependent ∧ j = id) := by
  cases hnode : graph.nodes[dependent]? with
  | none =>
      rw [detach_of_none hnode]
      refine ⟨fun hr => ⟨hr, ?_⟩, And.left⟩
      rintro ⟨rfl, rfl⟩
      obtain ⟨node, hsome, _⟩ := hr
      rw [hnode] at hsome
      cases hsome
  | some node =>
      rw [detach_of_some hnode]
      split
      · exact reads_removeDependency
      · rw [(sameLive_park _ _).reads, reads_removeDependency]

theorem isRead_detach {dependent : Nat} :
    (detach path id graph dependent).IsRead j i ↔ graph.IsRead j i := by
  cases hnode : graph.nodes[dependent]? with
  | none => rw [detach_of_none hnode]
  | some node =>
      rw [detach_of_some hnode]
      split
      · exact isRead_removeDependency
      · rw [(sameLive_park _ _).isRead, isRead_removeDependency]

theorem readsAside_of_some {dependent : Nat} {node : Node}
    (h : graph.nodes[dependent]? = some node) :
    graph.ReadsAside path dependent ↔ path.isChildOf node.path = false := by
  simp [ReadsAside, path?, h]

theorem awaits_detach {dependent : Nat} :
    (detach path id graph dependent).Awaits i target ↔
      graph.Awaits i target ∨ i = dependent ∧ target = path ∧ graph.ReadsAside path i := by
  cases hnode : graph.nodes[dependent]? with
  | none =>
      rw [detach_of_none hnode]
      refine ⟨Or.inl, ?_⟩
      rintro (hold | ⟨rfl, _, above, ha, _⟩)
      · exact hold
      · simp [path?, hnode] at ha
  | some node =>
      rw [detach_of_some hnode]
      by_cases hc : path.isChildOf node.path = true
      · rw [if_pos hc]
        refine ⟨Or.inl, ?_⟩
        rintro (hold | ⟨rfl, _, ha⟩)
        · exact hold
        · rw [readsAside_of_some hnode, hc] at ha
          cases ha
      · rw [if_neg hc, awaits_park]
        refine or_congr Iff.rfl (and_congr_right ?_)
        rintro rfl
        simp [readsAside_of_some hnode, hc]

theorem queued_detach {dependent : Nat} (h : graph.Queued) :
    (detach path id graph dependent).Queued := by
  cases hnode : graph.nodes[dependent]? with
  | none =>
      rw [detach_of_none hnode]
      exact h
  | some node =>
      rw [detach_of_some hnode]
      split
      · exact h
      · exact queued_park h

theorem tight_detach {dependent : Nat} (h : graph.Tight) :
    (detach path id graph dependent).Tight := by
  cases hnode : graph.nodes[dependent]? with
  | none =>
      rw [detach_of_none hnode]
      exact h
  | some node =>
      rw [detach_of_some hnode]
      split
      · exact ⟨h.pending, h.waiting⟩
      · exact tight_park ⟨h.pending, h.waiting⟩

theorem sameNodes_foldl_detach (readers : List Nat) :
    SameNodes graph (readers.foldl (detach path id) graph) :=
  List.foldlRecOn readers _ (motive := fun now => SameNodes graph now) (.refl graph)
    fun _ h _ _ => h.trans (sameNodes_detach _)

theorem reads_foldl_detach (readers : List Nat) :
    (readers.foldl (detach path id) graph).Reads i j ↔
      graph.Reads i j ∧ ¬(i ∈ readers ∧ j = id) := by
  induction readers generalizing graph with
  | nil => simp
  | cons dependent rest ih =>
      rw [List.foldl_cons, ih, reads_detach, List.mem_cons]
      tauto

theorem isRead_foldl_detach (readers : List Nat) :
    (readers.foldl (detach path id) graph).IsRead j i ↔ graph.IsRead j i := by
  induction readers generalizing graph with
  | nil => rfl
  | cons dependent rest ih => rw [List.foldl_cons, ih, isRead_detach]

theorem awaits_foldl_detach (readers : List Nat) :
    (readers.foldl (detach path id) graph).Awaits i target ↔
      graph.Awaits i target ∨ i ∈ readers ∧ target = path ∧ graph.ReadsAside path i := by
  induction readers generalizing graph with
  | nil => simp
  | cons dependent rest ih =>
      rw [List.foldl_cons, ih, awaits_detach, readsAside_congr (sameNodes_detach _), List.mem_cons]
      tauto

theorem queued_foldl_detach (readers : List Nat) (h : graph.Queued) :
    (readers.foldl (detach path id) graph).Queued :=
  List.foldlRecOn readers _ (motive := Queued) h fun _ hnow _ _ => queued_detach hnow

theorem tight_foldl_detach (readers : List Nat) (h : graph.Tight) :
    (readers.foldl (detach path id) graph).Tight :=
  List.foldlRecOn readers _ (motive := Tight) h fun _ hnow _ _ => tight_detach hnow

end Detach

section Remove

variable {path : Path} {id i j : Nat} {target : Path}

-- The graph without an entry for a node. Its edges are still there.
def shrink (graph : Graph) (path : Path) (id : Nat) : Graph :=
  { graph with ids := graph.ids.erase path, nodes := graph.nodes.erase id }

-- Without a node, nothing that it read has it as a reader.
def forgetReader (graph : Graph) (id : Nat) (dependencies : List Nat) : Graph :=
  dependencies.foldl (fun rest dependency => rest.update dependency (.removeDependent id)) graph

def removeFound (graph : Graph) (path : Path) (id : Nat) (node : Node) : Graph :=
  (node.dependents.toList.foldl (detach path id)
    ((graph.shrink path id).forgetReader id node.dependencies.toList)).waitFor id ∅

theorem removeNode_of_none {removed : Bool} (h : graph.id? path = none) :
    removeNode (graph, removed) path = (graph, removed) := by
  simp only [removeNode, h]

theorem removeNode_of_some {removed : Bool} {node : Node} (h : graph.id? path = some id)
    (hnode : graph.nodes[id]? = some node) :
    removeNode (graph, removed) path = (graph.removeFound path id node, true) := by
  simp only [removeNode, h, hnode]
  rfl

theorem nodes_shrink (i : Nat) :
    (graph.shrink path id).nodes[i]? = if i = id then none else graph.nodes[i]? := by
  simp only [shrink, Std.TreeMap.getElem?_erase, Std.compare_eq_iff_eq, eq_comm (a := i)]

theorem sameNodes_forgetReader (dependencies : List Nat) :
    SameNodes graph (graph.forgetReader id dependencies) :=
  List.foldlRecOn dependencies _ (motive := fun now => SameNodes graph now) (.refl graph)
    fun _ h _ _ => h.trans ⟨rfl, rfl, fun _ => label?_removeDependent _ _ _⟩

theorem reads_forgetReader (dependencies : List Nat) :
    (graph.forgetReader id dependencies).Reads i j ↔ graph.Reads i j :=
  List.foldlRecOn dependencies _ (motive := fun now : Graph => now.Reads i j ↔ graph.Reads i j)
    Iff.rfl fun _ h _ _ => reads_removeDependent.trans h

theorem isRead_forgetReader (dependencies : List Nat) :
    (graph.forgetReader id dependencies).IsRead j i ↔
      graph.IsRead j i ∧ ¬(j ∈ dependencies ∧ i = id) := by
  unfold forgetReader
  induction dependencies generalizing graph with
  | nil => simp
  | cons dependency rest ih =>
      rw [List.foldl_cons, ih, isRead_removeDependent, List.mem_cons]
      tauto

theorem sameWaiting_forgetReader (dependencies : List Nat) :
    SameWaiting graph (graph.forgetReader id dependencies) :=
  List.foldlRecOn dependencies _ (motive := fun now => SameWaiting graph now) (.refl graph)
    fun _ h _ _ => h.trans ⟨rfl, rfl⟩

theorem reads_shrink : (graph.shrink path id).Reads i j ↔ graph.Reads i j ∧ i ≠ id := by
  unfold Reads
  rw [nodes_shrink]
  by_cases hi : i = id <;> simp [hi]

theorem isRead_shrink : (graph.shrink path id).IsRead j i ↔ graph.IsRead j i ∧ j ≠ id := by
  unfold IsRead
  rw [nodes_shrink]
  by_cases hj : j = id <;> simp [hj]

theorem label?_shrink (i : Nat) :
    (graph.shrink path id).label? i = if i = id then none else graph.label? i := by
  unfold label?
  rw [nodes_shrink]
  split <;> rfl

section Found

variable {node : Node}

-- All that changes the nodes is that one of them goes.
theorem sameNodes_removeFound : SameNodes (graph.shrink path id) (graph.removeFound path id node) :=
  ((sameNodes_forgetReader _).trans (sameNodes_foldl_detach _)).trans
    (sameLive_waitFor _ _).sameNodes

theorem label?_removeFound (i : Nat) :
    (graph.removeFound path id node).label? i = if i = id then none else graph.label? i := by
  rw [sameNodes_removeFound.label, label?_shrink]

theorem path?_removeFound (i : Nat) :
    (graph.removeFound path id node).path? i = if i = id then none else graph.path? i := by
  ext other
  rw [path?_eq_some_iff, label?_removeFound]
  split
  · simp
  · rw [path?_eq_some_iff]

theorem accepts_removeFound {i : Nat} (hi : i ≠ id) :
    (graph.removeFound path id node).Accepts i ↔ graph.Accepts i := by
  simp only [Accepts, label?_removeFound, if_neg hi]

theorem id?_removeFound (other : Path) :
    (graph.removeFound path id node).id? other =
      if other = path then none else graph.id? other := by
  rw [sameNodes_removeFound.id?, id?, shrink]
  simp only [Std.TreeMap.getElem?_erase, Std.compare_eq_iff_eq, eq_comm (a := other)]
  rfl

theorem nextId_removeFound : (graph.removeFound path id node).nextId = graph.nextId := by
  rw [sameNodes_removeFound.nextId]
  rfl

theorem mem_nodes_removeFound {i : Nat} :
    i ∈ (graph.removeFound path id node).nodes ↔ i ∈ graph.nodes ∧ i ≠ id := by
  simp only [mem_nodes_iff, label?_removeFound]
  by_cases hi : i = id <;> simp [hi]

variable (h : graph.Consistent) (hnode : graph.nodes[id]? = some node)

include h hnode

theorem Consistent.mem_dependents_iff : i ∈ node.dependents ↔ graph.Reads i id := by
  rw [h.mirror]
  simp [IsRead, hnode]

theorem Consistent.reads_removeFound :
    (graph.removeFound path id node).Reads i j ↔ graph.Reads i j ∧ i ≠ id ∧ j ≠ id := by
  rw [removeFound, (sameLive_waitFor _ _).reads, reads_foldl_detach, reads_forgetReader,
    reads_shrink, OrderedSet.mem_toList, h.mem_dependents_iff hnode]
  constructor
  · rintro ⟨⟨hr, hi⟩, hn⟩
    refine ⟨hr, hi, ?_⟩
    rintro rfl
    exact hn ⟨hr, rfl⟩
  · rintro ⟨hr, hi, hj⟩
    exact ⟨⟨hr, hi⟩, fun hn => hj hn.2⟩

theorem Consistent.isRead_removeFound :
    (graph.removeFound path id node).IsRead j i ↔ graph.IsRead j i ∧ i ≠ id ∧ j ≠ id := by
  have hd : j ∈ node.dependencies ↔ graph.IsRead j id := by
    rw [← h.mirror]
    simp [Reads, hnode]
  rw [removeFound, (sameLive_waitFor _ _).isRead, isRead_foldl_detach, isRead_forgetReader,
    isRead_shrink, OrderedSet.mem_toList, hd]
  constructor
  · rintro ⟨⟨hr, hj⟩, hn⟩
    refine ⟨hr, ?_, hj⟩
    rintro rfl
    exact hn ⟨hr, rfl⟩
  · rintro ⟨hr, hi, hj⟩
    exact ⟨⟨hr, hj⟩, fun hn => hi hn.2⟩

-- The readers of a removed node wait for it, its container excepted.
theorem Consistent.awaits_removeFound :
    (graph.removeFound path id node).Awaits i target ↔
      i ≠ id ∧ (graph.Awaits i target ∨
        graph.Reads i id ∧ target = path ∧ graph.ReadsAside path i) := by
  rw [removeFound, awaits_waitFor]
  by_cases hi : i = id
  · simp [hi]
  · have ha : (graph.shrink path id).ReadsAside path i ↔ graph.ReadsAside path i := by
      simp only [ReadsAside, path?_eq_some_iff, label?_shrink, if_neg hi]
    rw [if_neg hi, awaits_foldl_detach, (sameWaiting_forgetReader _).awaits,
      readsAside_congr (sameNodes_forgetReader _), ha, OrderedSet.mem_toList,
      h.mem_dependents_iff hnode]
    simp only [ne_eq, hi, not_false_eq_true, true_and]
    rfl

theorem Consistent.removeFound (hid : graph.id? path = some id) :
    (graph.removeFound path id node).Consistent where
  id?_iff other i := by
    have hp : graph.path? id = some path := (h.id?_iff _ _).mp hid
    rw [id?_removeFound, path?_removeFound]
    by_cases hi : i = id
    · subst hi
      by_cases ho : other = path
      · simp [ho]
      · have hn : graph.id? other ≠ some i := fun hs =>
          ho (Option.some_inj.mp (((h.id?_iff _ _).mp hs).symm.trans hp))
        simp [ho, hn]
    · rw [if_neg hi, ← h.id?_iff]
      by_cases ho : other = path
      · subst ho
        simp [hid, Ne.symm hi]
      · rw [if_neg ho]
  below i hm := by
    rw [nextId_removeFound]
    exact h.below i (mem_nodes_removeFound.mp hm).1
  mirror i j := by rw [h.reads_removeFound hnode, h.isRead_removeFound hnode, h.mirror]
  irreflexive i hr := h.irreflexive i ((h.reads_removeFound hnode).mp hr).1
  awaits_iff := queued_waitFor (queued_foldl_detach _ ((sameWaiting_forgetReader _).queued
    h.awaits_iff))
  tight := tight_waitFor (tight_foldl_detach _ ((sameWaiting_forgetReader _).tight
    ⟨h.tight.pending, h.tight.waiting⟩))
  owner i target ha := by
    obtain ⟨hi, ha⟩ := (h.awaits_removeFound hnode).mp ha
    rcases ha with hold | ⟨hr, _, _⟩
    · exact mem_nodes_removeFound.mpr ⟨h.owner _ _ hold, hi⟩
    · exact mem_nodes_removeFound.mpr ⟨hr.mem, hi⟩
  missing i target ha := by
    rw [id?_removeFound]
    split
    · rfl
    · next hne =>
      rcases ((h.awaits_removeFound hnode).mp ha).2 with hold | ⟨_, rfl, _⟩
      · exact h.missing _ _ hold
      · exact absurd rfl hne
  reads_accepts i j hr := by
    obtain ⟨hr, hi, _⟩ := (h.reads_removeFound hnode).mp hr
    exact (accepts_removeFound hi).mpr (h.reads_accepts _ _ hr)
  awaits_accepts i target ha := by
    obtain ⟨hi, ha⟩ := (h.awaits_removeFound hnode).mp ha
    refine (accepts_removeFound hi).mpr ?_
    rcases ha with hold | ⟨hr, _, _⟩
    · exact h.awaits_accepts _ _ hold
    · exact h.reads_accepts _ _ hr

end Found

end Remove

end Recalc.Graph
