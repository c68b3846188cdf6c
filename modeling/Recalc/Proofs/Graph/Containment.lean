import Recalc.Proofs.Graph.Drift

namespace Recalc.Graph

variable {graph first second : Graph} {path : Path} {paths targets : List Path}
  {entries : List (Path × NodeKind)} {i j : Nat}

def ReadsYounger (graph : Graph) : Prop := ∀ i j, graph.Contains i j → i < j → graph.Reads i j

-- Nodes that were there before keep their labels and what they read of their
-- children.
structure Retains (first second : Graph) : Prop where
  old : ∀ id label, id < first.nextId → second.label? id = some label →
    first.label? id = some label
  reads : ∀ i j, first.Reads i j → second.Contains i j → second.Reads i j

theorem mem_of_contains (h : graph.Contains i j) : i ∈ graph.nodes ∧ j ∈ graph.nodes := by
  obtain ⟨above, below, hi, hj, _⟩ := isStructural_iff.mp h.1
  exact ⟨mem_nodes_iff_path.mpr ⟨above, hi⟩, mem_nodes_iff_path.mpr ⟨below, hj⟩⟩

theorem Retains.contains (h : Retains first second) (hi : i < first.nextId)
    (hj : j < first.nextId) (hc : second.Contains i j) : first.Contains i j := by
  obtain ⟨hs, path, kind, hl, hk⟩ := hc
  obtain ⟨above, below, ha, hb, hchild⟩ := isStructural_iff.mp hs
  obtain ⟨_, hla⟩ := path?_eq_some_iff.mp ha
  obtain ⟨_, hlb⟩ := path?_eq_some_iff.mp hb
  exact ⟨isStructural_iff.mpr ⟨above, below, path?_of_label (h.old i _ hi hla),
    path?_of_label (h.old j _ hj hlb), hchild⟩, path, kind, h.old i _ hi hl, hk⟩

-- Whatever the new nodes are, linking above all of them is enough.
theorem ReadsYounger.linkAbove (h : first.ReadsYounger) (hr : Retains first second)
    (hs : second.Consistent) (hnew : ∀ j path, first.nextId ≤ j → second.path? j = some path →
      path ∈ paths) : (second.linkAbove paths).1.ReadsYounger := by
  intro i j hc hlt
  have hl := hs.linksChildren_linkAbove paths
  have hc : second.Contains i j := (contains_congr hl.nodes).mp hc
  by_cases hj : j < first.nextId
  · have hold : first.Contains i j := hr.contains (Nat.lt_trans hlt hj) hj hc
    exact hl.keeps i j (hr.reads i j (h i j hold hlt) hc)
  · obtain ⟨path, hp⟩ := mem_nodes_iff_path.mp (mem_of_contains hc).2
    exact hs.reads_linkAbove (hnew j path (Nat.le_of_not_lt hj) hp) hp hc

theorem ReadsYounger.retained (h : first.ReadsYounger) (hr : Retains first second)
    (hs : second.Consistent) (hnone : ∀ j ∈ second.nodes, j < first.nextId) :
    second.ReadsYounger := by
  have hnew : ∀ j path, first.nextId ≤ j → second.path? j = some path → path ∈ ([] : List Path) :=
    fun j path hj hp => absurd (hnone j (mem_nodes_iff_path.mpr ⟨path, hp⟩)) (Nat.not_lt.mpr hj)
  exact h.linkAbove hr hs hnew

theorem Consistent.readsYounger_linkAll (h : graph.Consistent) : graph.linkAll.1.ReadsYounger :=
  fun _ _ hc _ =>
    h.reads_linkAll.mpr (Or.inr ((contains_congr h.linksChildren_linkAll.nodes).mp hc))

-- A node that has not been there before is seeded.
theorem Drift.seeded_of_new {seeded : Path → Prop} (h : Drift seeded first second)
    (hc : first.Consistent) (hj : first.nextId ≤ j) (hp : second.path? j = some path) :
    seeded path := by
  by_contra hn
  obtain ⟨kind, hl⟩ := path?_eq_some_iff.mp hp
  have := hc.below j (mem_nodes_iff.mpr ⟨_, h.node j path kind hl hn⟩)
  omega

theorem Consistent.reads_addEntries (h : graph.Consistent) (hr : graph.Reads i j) (check : Bool) :
    (graph.addEntries entries check).1.Reads i j := by
  refine (List.foldlRecOn entries (Graph.addNode check)
    (motive := fun state : Graph × List Path => state.1.Reads i j ∧ state.1.Consistent) ⟨hr, h⟩
    fun state hs entry _ => ⟨?_, hs.2.addNode⟩).1
  obtain ⟨now, added⟩ := state
  obtain ⟨path, kind⟩ := entry
  cases hid : now.id? path with
  | some id =>
      rw [addNode_of_contains (contains_of_id? hid)]
      exact hs.1
  | none =>
      rw [addNode_of_missing hid]
      exact hs.2.reads_insertNode.mpr (Or.inl hs.1)

theorem Consistent.retains_addEntries (h : graph.Consistent) (entries : List (Path × NodeKind)) :
    Retains graph (graph.addEntries entries true).1 :=
  ⟨(h.drift_addEntries entries).old, fun _ _ hr _ => h.reads_addEntries hr true⟩

theorem Consistent.reads_ensure (h : graph.Consistent) (hr : graph.Reads i j) :
    (graph.ensure path).Reads i j := by
  cases hid : graph.id? path with
  | some id =>
      rw [ensure_of_some hid]
      exact hr
  | none =>
      rw [ensure_of_none hid]
      exact h.reads_insertNode.mpr (Or.inl hr)

-- A declaration leaves the edges to direct children.
theorem Consistent.retains_addDependency (h : graph.Consistent) (path : Path)
    (targets : List Path) : Retains graph (graph.addDependency path targets).1 := by
  refine ⟨(h.drift_addDependency path targets).old, fun i j hr hc => ?_⟩
  have hs : SameNodes (graph.ensure path) (graph.addDependency path targets).1 :=
    sameNodes_addDependency graph path targets
  obtain ⟨id, hid⟩ := id?_ensure graph path
  have hensure : (graph.ensure path).Reads i j := h.reads_ensure hr
  rw [addDependency_eq hid]
  by_cases hi : i = id
  · subst hi
    obtain ⟨other, kind, hl, hk⟩ := h.ensure.reads_accepts _ _ hensure
    rw [h.ensure.reads_redeclare hl hk, if_pos rfl, ← hs.isStructural]
    exact Or.inr ⟨hensure, hc.1⟩
  · exact (h.ensure.reads_redeclare_of_ne hi).mpr hensure

theorem Consistent.retains_removeNodes (h : graph.Consistent) (paths : List Path) :
    Retains graph (graph.removeNodes paths).1 := by
  have hshrinks := h.shrinks_removeNodes paths
  refine ⟨fun id label _ hl => ((hshrinks.label id label.1 label.2).mp hl).1,
    fun i j hr hc => (hshrinks.reads i j).mpr ⟨hr, mem_of_contains hc⟩⟩

section Operations

variable (h : graph.ReadsYounger) (hc : graph.Consistent)

include h hc

theorem ReadsYounger.addEntries (entries : List (Path × NodeKind)) :
    ((graph.addEntries entries true).1.linkAbove
      (graph.addEntries entries true).2).1.ReadsYounger :=
  h.linkAbove (hc.retains_addEntries entries) (hc.addEntries true entries) fun _ _ hj hp =>
    (hc.drift_addEntries entries).seeded_of_new hc hj hp

theorem ReadsYounger.addDependency (path : Path) (targets : List Path) :
    ((graph.addDependency path targets).1.linkAbove
      (graph.addDependency path targets).2.toList).1.ReadsYounger := by
  refine h.linkAbove (hc.retains_addDependency path targets) (hc.addDependency path targets)
    fun j other hj hp => OrderedSet.mem_toList.mpr ?_
  obtain rfl : other = path := (hc.drift_addDependency path targets).seeded_of_new hc hj hp
  cases hid : graph.id? other with
  | none => exact hc.mem_addDependency_of_missing hid
  | some id =>
      have hs := sameNodes_addDependency graph other targets
      rw [ensure_of_some hid] at hs
      rw [hs.path?] at hp
      have := hc.below j (mem_nodes_iff_path.mpr ⟨other, hp⟩)
      omega

theorem ReadsYounger.removeNodes (paths : List Path) :
    (graph.removeNodes paths).1.ReadsYounger := by
  refine h.retained (hc.retains_removeNodes paths) (hc.removeNodes paths) fun j hj => ?_
  obtain ⟨⟨path, kind⟩, hl⟩ := mem_nodes_iff.mp hj
  exact hc.below j (mem_nodes_iff.mpr
    ⟨_, (((hc.shrinks_removeNodes paths).label j path kind).mp hl).1⟩)

end Operations

end Recalc.Graph
