import Recalc.Proofs.Graph.History
import Recalc.Proofs.Path.Plain
import Mathlib.Logic.Relation

namespace Recalc.Graph

variable {graph : Graph} {i j : Nat} {path : Path} {kind : NodeKind}

structure Grounded (graph : Graph) : Prop where
  reads : ∀ i j, graph.Reads i j →
    (∀ path, graph.path? j = some path → path.Plain) ∨ graph.isStructural i j = true
  awaits : ∀ i target, graph.Awaits i target → target.Plain

namespace Grounded

theorem empty : (∅ : Graph).Grounded :=
  ⟨fun _ _ h => absurd h.mem Std.TreeMap.not_mem_emptyc,
    fun _ target h => absurd h (OrderedSet.not_mem_empty target)⟩

theorem linksChildren {second : Graph} (h : graph.Grounded) (hl : LinksChildren graph second) :
    second.Grounded := by
  refine ⟨fun i j hr => ?_, fun i target ha => h.awaits i target (hl.waiting.awaits.mp ha)⟩
  simp only [hl.nodes.path?, hl.nodes.isStructural]
  rcases hl.adds i j hr with hold | hc
  · exact h.reads i j hold
  · exact Or.inr hc.1

theorem insertNode (h : graph.Grounded) (hc : graph.Consistent) :
    (graph.insertNode path kind).Grounded := by
  have hpath : ∀ i ∈ graph.nodes, (graph.insertNode path kind).path? i = graph.path? i := by
    intro i hi
    have hne : i ≠ graph.nextId := fun he => hc.fresh (he ▸ hi)
    rw [path?_insertNode, if_neg hne]
  refine ⟨fun i j hr => ?_, fun i target ha => h.awaits i target (hc.awaits_insertNode.mp ha).1⟩
  rcases hc.reads_insertNode.mp hr with hold | ⟨rfl, ha⟩
  · rw [hpath j (hc.mem_of_reads hold), Graph.isStructural, hpath i hold.mem,
      hpath j (hc.mem_of_reads hold)]
    exact h.reads i j hold
  · refine Or.inl fun other ho => ?_
    rw [path?_insertNode, if_pos rfl] at ho
    cases ho
    exact h.awaits i path ha

theorem removeFound {id : Nat} {node : Node} (h : graph.Grounded) (hc : graph.Consistent)
    (hnode : graph.nodes[id]? = some node) (hid : graph.path? id = some path) :
    (graph.removeFound path id node).Grounded := by
  have hpath : ∀ i, i ≠ id → (graph.removeFound path id node).path? i = graph.path? i := by
    intro i hi
    rw [path?_removeFound, if_neg hi]
  constructor
  · intro i j hr
    obtain ⟨hold, hi, hj⟩ := (hc.reads_removeFound hnode).mp hr
    rw [hpath j hj, Graph.isStructural, hpath i hi, hpath j hj]
    exact h.reads i j hold
  · intro i target ha
    rcases ((hc.awaits_removeFound hnode).mp ha).2 with hold | ⟨hr, rfl, above, ha, hchild⟩
    · exact h.awaits i target hold
    · rcases h.reads i id hr with hp | hs
      · exact hp target hid
      · obtain ⟨a, b, ha', hb, hab⟩ := isStructural_iff.mp hs
        rw [ha] at ha'
        rw [hid] at hb
        cases ha'
        cases hb
        rw [hchild] at hab
        cases hab

theorem redeclare {id : Nat} {targets : List Path} {affected : OrderedSet Path}
    (h : graph.Grounded) (hc : graph.Consistent) (htargets : ∀ target ∈ targets, target.Plain) :
    (graph.redeclare id targets affected).1.Grounded := by
  by_cases ha : graph.Accepts id
  · obtain ⟨path, kind, hl, hk⟩ := ha
    have hs : SameNodes graph (graph.redeclare id targets affected).1 :=
      sameNodes_redeclare targets affected
    constructor
    · intro i j hr
      rw [hc.reads_redeclare hl hk] at hr
      simp only [hs.path?, hs.isStructural]
      split at hr
      · next he =>
        subst he
        rcases hr with ⟨t, ht, _, hid⟩ | ⟨_, hstructural⟩
        · refine Or.inl fun other ho => ?_
          rw [(hc.id?_iff t j).mp hid] at ho
          cases ho
          exact htargets t ht
        · exact Or.inr hstructural
      · exact h.reads i j hr
    · intro i target hw
      rw [awaits_redeclare hl hk] at hw
      split at hw
      · exact htargets target hw.1
      · exact h.awaits i target hw
  · rw [redeclare_of_not_accepts ha]
    exact h

theorem addNode {check : Bool} {added : List Path} {entry : Path × NodeKind}
    (h : graph.Grounded) (hc : graph.Consistent) :
    (Graph.addNode check (graph, added) entry).1.Grounded := by
  obtain ⟨path, kind⟩ := entry
  cases hid : graph.id? path with
  | none =>
      rw [addNode_of_missing hid]
      exact h.insertNode hc
  | some id =>
      rw [addNode_of_contains (contains_of_id? hid)]
      exact h

theorem addEntries (h : graph.Grounded) (hc : graph.Consistent) (check : Bool)
    (entries : List (Path × NodeKind)) : (graph.addEntries entries check).1.Grounded :=
  (List.foldlRecOn entries (Graph.addNode check)
    (motive := fun state : Graph × List Path => state.1.Grounded ∧ state.1.Consistent)
    (b := (graph, [])) ⟨h, hc⟩ fun _ hs _ _ => ⟨hs.1.addNode hs.2, hs.2.addNode⟩).1

theorem removeNode {removed : Bool} (h : graph.Grounded) (hc : graph.Consistent) :
    (Graph.removeNode (graph, removed) path).1.Grounded := by
  cases hid : graph.id? path with
  | none =>
      rw [removeNode_of_none hid]
      exact h
  | some id =>
      obtain ⟨node, hnode⟩ := hc.node_of_id? hid
      rw [removeNode_of_some hid hnode]
      exact h.removeFound hc hnode ((hc.id?_iff _ _).mp hid)

theorem removeNodes (h : graph.Grounded) (hc : graph.Consistent) (paths : List Path) :
    (graph.removeNodes paths).1.Grounded :=
  (List.foldlRecOn paths Graph.removeNode
    (motive := fun state : Graph × Bool => state.1.Grounded ∧ state.1.Consistent)
    (b := (graph, false)) ⟨h, hc⟩ fun _ hs _ _ => ⟨hs.1.removeNode hs.2, hs.2.removeNode⟩).1

theorem addDependency {targets : List Path} (h : graph.Grounded) (hc : graph.Consistent)
    (path : Path) (htargets : ∀ target ∈ targets, target.Plain) :
    (graph.addDependency path targets).1.Grounded := by
  obtain ⟨id, hid⟩ := id?_ensure graph path
  rw [addDependency_eq hid]
  cases hg : graph.id? path with
  | some other =>
      rw [ensure_of_some hg]
      exact h.redeclare hc htargets
  | none =>
      rw [ensure_of_none hg]
      exact (h.insertNode hc).redeclare (hc.insertNode hg) htargets

-- Whoever reads a path that is not plain is its container.
theorem parent_of_reads (h : graph.Grounded) (hr : graph.Reads i j)
    (hj : graph.path? j = some path) (hn : ¬path.Plain) :
    ∃ above, graph.path? i = some above ∧ path.parent? = some above := by
  rcases h.reads i j hr with hp | hs
  · exact absurd (hp path hj) hn
  · obtain ⟨above, below, hi, hb, hchild⟩ := isStructural_iff.mp hs
    rw [hj] at hb
    cases hb
    exact ⟨above, hi, Path.isChildOf_iff.mp hchild⟩

-- So what reads it through others lies above it.
theorem above_of_transGen (h : graph.Grounded) (hr : Relation.TransGen graph.Reads i j)
    (hj : graph.path? j = some path) (hn : ¬path.Plain) :
    ∃ above, graph.path? i = some above ∧ ¬above.Plain ∧ above.depth < path.depth := by
  induction hr using Relation.TransGen.head_induction_on with
  | single hstep =>
      obtain ⟨above, hi, hp⟩ := h.parent_of_reads hstep hj hn
      refine ⟨above, hi, fun ha => hn ((Path.plain_parent hp).mp ha), ?_⟩
      have := Path.depth_of_parent hp
      omega
  | head hstep _ ih =>
      obtain ⟨middle, hm, hnm, hlt⟩ := ih
      obtain ⟨above, hi, hp⟩ := h.parent_of_reads hstep hm hnm
      refine ⟨above, hi, fun ha => hnm ((Path.plain_parent hp).mp ha), ?_⟩
      have := Path.depth_of_parent hp
      omega

theorem plain_of_cycle (h : graph.Grounded) (hr : Relation.TransGen graph.Reads i i)
    (hi : graph.path? i = some path) : path.Plain := by
  by_contra hn
  obtain ⟨above, ha, _, hlt⟩ := h.above_of_transGen hr hi hn
  rw [hi] at ha
  cases ha
  exact Nat.lt_irrefl _ hlt

end Grounded

end Recalc.Graph
