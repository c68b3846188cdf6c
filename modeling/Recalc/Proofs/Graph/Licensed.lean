import Recalc.Proofs.Graph.History
import Recalc.Proofs.Graph.Kind
import Recalc.Proofs.Path.Below

namespace Recalc.Graph

structure Licensed (declared linked : Path → Path → Prop) (graph : Graph) : Prop where
  reads : ∀ i j above below, graph.path? i = some above → graph.path? j = some below →
    graph.Reads i j → declared above below ∨ below.isChildOf above = true ∧ linked above below
  awaits : ∀ i above target, graph.path? i = some above → graph.Awaits i target →
    declared above target

namespace Licensed

variable {graph : Graph} {declared linked : Path → Path → Prop} {path target : Path}
  {kind : NodeKind} {targets paths : List Path}

theorem empty : Licensed declared linked ∅ :=
  ⟨fun _ _ _ _ _ _ h => absurd h.mem Std.TreeMap.not_mem_emptyc,
    fun _ _ target _ h => absurd h (OrderedSet.not_mem_empty target)⟩

theorem insertNode (h : graph.Licensed declared linked) (hc : graph.Consistent) :
    (graph.insertNode path kind).Licensed declared linked := by
  have hpath : ∀ i ∈ graph.nodes, (graph.insertNode path kind).path? i = graph.path? i := by
    intro i hi
    have hne : i ≠ graph.nextId := fun he => hc.fresh (he ▸ hi)
    rw [path?_insertNode, if_neg hne]
  refine ⟨fun i j above below ha hb hr => ?_, fun i above target ha hw => ?_⟩
  · rcases hc.reads_insertNode.mp hr with hold | ⟨rfl, hw⟩
    · rw [hpath i hold.mem] at ha
      rw [hpath j (hc.mem_of_reads hold)] at hb
      exact h.reads i j above below ha hb hold
    · -- A node that waited for the new one has declared it.
      rw [hpath i (Consistent.mem_of_accepts (hc.awaits_accepts _ _ hw))] at ha
      rw [path?_insertNode, if_pos rfl] at hb
      cases hb
      exact Or.inl (h.awaits i above path ha hw)
  · have hold := (hc.awaits_insertNode.mp hw).1
    rw [hpath i (Consistent.mem_of_accepts (hc.awaits_accepts _ _ hold))] at ha
    exact h.awaits i above target ha hold

theorem addNode {check : Bool} {added : List Path} {entry : Path × NodeKind}
    (h : graph.Licensed declared linked) (hc : graph.Consistent) :
    (Graph.addNode check (graph, added) entry).1.Licensed declared linked := by
  obtain ⟨path, kind⟩ := entry
  cases hid : graph.id? path with
  | none =>
      rw [addNode_of_missing hid]
      exact h.insertNode hc
  | some id =>
      rw [addNode_of_contains (contains_of_id? hid)]
      exact h

theorem addEntries (h : graph.Licensed declared linked) (hc : graph.Consistent) (check : Bool)
    (entries : List (Path × NodeKind)) :
    (graph.addEntries entries check).1.Licensed declared linked :=
  (List.foldlRecOn entries (Graph.addNode check)
    (motive := fun state : Graph × List Path =>
      state.1.Licensed declared linked ∧ state.1.Consistent)
    (b := (graph, [])) ⟨h, hc⟩ fun _ hs _ _ => ⟨hs.1.addNode hs.2, hs.2.addNode⟩).1

-- Who read a removed path otherwise than as its child has declared it.
theorem removeFound {id : Nat} {node : Node} (h : graph.Licensed declared linked)
    (hc : graph.Consistent) (hnode : graph.nodes[id]? = some node)
    (hid : graph.path? id = some path) :
    (graph.removeFound path id node).Licensed declared linked := by
  have hpath : ∀ i other, (graph.removeFound path id node).path? i = some other →
      graph.path? i = some other := by
    intro i other ho
    rw [path?_removeFound] at ho
    split at ho
    · cases ho
    · exact ho
  refine ⟨fun i j above below ha hb hr => ?_, fun i above target ha hw => ?_⟩
  · exact h.reads i j above below (hpath i above ha) (hpath j below hb)
      ((hc.reads_removeFound hnode).mp hr).1
  · have hi := hpath i above ha
    rcases ((hc.awaits_removeFound hnode).mp hw).2 with hold | ⟨hr, rfl, other, ho, hchild⟩
    · exact h.awaits i above target hi hold
    · rw [hi] at ho
      cases ho
      refine (h.reads i id above target hi hid hr).resolve_right fun hlinked => ?_
      rw [hchild] at hlinked
      cases hlinked.1

theorem removeNode {removed : Bool} (h : graph.Licensed declared linked) (hc : graph.Consistent) :
    (Graph.removeNode (graph, removed) path).1.Licensed declared linked := by
  cases hid : graph.id? path with
  | none =>
      rw [removeNode_of_none hid]
      exact h
  | some id =>
      obtain ⟨node, hnode⟩ := hc.node_of_id? hid
      rw [removeNode_of_some hid hnode]
      exact h.removeFound hc hnode ((hc.id?_iff _ _).mp hid)

theorem removeNodes (h : graph.Licensed declared linked) (hc : graph.Consistent)
    (paths : List Path) : (graph.removeNodes paths).1.Licensed declared linked :=
  (List.foldlRecOn paths Graph.removeNode
    (motive := fun state : Graph × Bool => state.1.Licensed declared linked ∧ state.1.Consistent)
    (b := (graph, false)) ⟨h, hc⟩ fun _ hs _ _ => ⟨hs.1.removeNode hs.2, hs.2.removeNode⟩).1

-- What linking adds besides needs leave for all children.
theorem linksChildren {second : Graph} (h : graph.Licensed declared linked)
    (hl : LinksChildren graph second)
    (hlinked : ∀ above below, below.isChildOf above = true → linked above below) :
    second.Licensed declared linked := by
  refine ⟨fun i j above below ha hb hr => ?_, fun i above target ha hw => ?_⟩
  · rw [hl.nodes.path?] at ha hb
    rcases hl.adds i j hr with hold | hcontains
    · exact h.reads i j above below ha hb hold
    · obtain ⟨container, child, hi, hj, hchild⟩ := isStructural_iff.mp hcontains.1
      rw [ha] at hi
      rw [hb] at hj
      cases hi
      cases hj
      exact Or.inr ⟨hchild, hlinked above below hchild⟩
  · rw [hl.nodes.path?] at ha
    exact h.awaits i above target ha (hl.waiting.awaits.mp hw)

-- What a climb above the paths adds needs leave.
theorem linkAbove (h : graph.Licensed declared linked) (hc : graph.Consistent)
    (hlinked : ∀ path ∈ paths, ∀ above below, path.startsWith below = true →
      below.isChildOf above = true → linked above below) :
    (graph.linkAbove paths).1.Licensed declared linked := by
  have hl := hc.linksChildren_linkAbove paths
  refine ⟨fun i j above below ha hb hr => ?_, fun i above target ha hw => ?_⟩
  · rw [hl.nodes.path?] at ha hb
    rcases hc.reads_linkAbove_within (Path.rooted_enclosing paths) (Path.subset_enclosing paths) hr
      with hold | ⟨hcontains, other, hother, hj⟩
    · exact h.reads i j above below ha hb hold
    · obtain ⟨container, child, hi, hj', hchild⟩ := isStructural_iff.mp hcontains.1
      obtain rfl : above = container := Option.some_inj.mp (ha.symm.trans hi)
      obtain rfl : below = child := Option.some_inj.mp (hb.symm.trans hj')
      obtain rfl : below = other := Option.some_inj.mp (hb.symm.trans hj)
      obtain ⟨path, hp, hbelow⟩ := Path.mem_enclosing.mp hother
      exact Or.inr ⟨hchild, hlinked path hp above below hbelow hchild⟩
  · rw [hl.nodes.path?] at ha
    exact h.awaits i above target ha (hl.waiting.awaits.mp hw)

section Declare

variable {id : Nat} {affected : OrderedSet Path}

theorem redeclare (h : graph.Licensed declared linked) (hc : graph.Consistent)
    (hid : graph.path? id = some path) (htargets : ∀ target ∈ targets, declared path target) :
    (graph.redeclare id targets affected).1.Licensed declared linked := by
  by_cases ha : graph.Accepts id
  · obtain ⟨kind, hl, hk⟩ := label_of_accepts hid ha
    have hs : SameNodes graph (graph.redeclare id targets affected).1 :=
      sameNodes_redeclare targets affected
    refine ⟨fun i j above below hi hj hr => ?_, fun i above target hi hw => ?_⟩
    · rw [hs.path?] at hi hj
      rw [hc.reads_redeclare hl hk] at hr
      split at hr
      · next he =>
        subst he
        rcases hr with ⟨t, ht, _, hfound⟩ | ⟨hold, _⟩
        · rw [hid] at hi
          rw [hc.path?_of_id? _ j hfound] at hj
          cases hi
          cases hj
          exact Or.inl (htargets _ ht)
        · exact h.reads i j above below hi hj hold
      · exact h.reads i j above below hi hj hr
    · rw [hs.path?] at hi
      rw [awaits_redeclare hl hk] at hw
      split at hw
      · next he =>
        subst he
        rw [hid] at hi
        cases hi
        exact htargets target hw.1
      · exact h.awaits i above target hi hw
  · rw [redeclare_of_not_accepts ha]
    exact h

-- A target whose edge from a node has come or gone is or was declared there,
-- since edges to children stay.
theorem declared_of_mem_redeclare (h : graph.Licensed declared linked) (hc : graph.Consistent)
    (hid : graph.path? id = some path) (htargets : ∀ target ∈ targets, declared path target)
    (ht : target ∈ (graph.redeclare id targets affected).2) :
    target ∈ affected ∨ declared path target := by
  by_cases ha : graph.Accepts id
  · obtain ⟨kind, hl, hk⟩ := label_of_accepts hid ha
    refine ((hc.mem_redeclare hl hk).mp ht).imp_right fun ⟨j, hj, hchanged⟩ => ?_
    rw [hc.reads_redeclare hl hk, if_pos rfl] at hchanged
    by_cases hnew : ∃ t ∈ targets, t ≠ path ∧ graph.id? t = some j
    · obtain ⟨t, hmem, _, hfound⟩ := hnew
      rw [hc.path?_of_id? _ j hfound] at hj
      cases hj
      exact htargets _ hmem
    · have hold : graph.Reads id j := by
        by_contra hn
        exact hchanged ⟨fun hr => hr.elim (absurd · hnew) And.left, fun hr => absurd hr hn⟩
      refine (h.reads id j path target hid hj hold).resolve_right fun hchild => hchanged ?_
      have hstructural : graph.isStructural id j = true :=
        isStructural_iff.mpr ⟨path, target, hid, hj, hchild.1⟩
      exact ⟨fun _ => hold, fun hr => Or.inr ⟨hr, hstructural⟩⟩
  · rw [redeclare_of_not_accepts ha] at ht
    exact Or.inl ht

theorem ensure (h : graph.Licensed declared linked) (hc : graph.Consistent) :
    (graph.ensure path).Licensed declared linked := by
  cases hid : graph.id? path with
  | some id =>
      rw [ensure_of_some hid]
      exact h
  | none =>
      rw [ensure_of_none hid]
      exact h.insertNode hc

theorem addDependency (h : graph.Licensed declared linked) (hc : graph.Consistent)
    (htargets : ∀ target ∈ targets, declared path target) :
    (graph.addDependency path targets).1.Licensed declared linked := by
  obtain ⟨id, hid⟩ := id?_ensure graph path
  rw [addDependency_eq hid]
  exact (h.ensure hc).redeclare hc.ensure (hc.ensure.path?_of_id? path id hid) htargets

theorem declared_of_mem_addDependency (h : graph.Licensed declared linked) (hc : graph.Consistent)
    (htargets : ∀ target ∈ targets, declared path target)
    (ht : target ∈ (graph.addDependency path targets).2) :
    target = path ∨ declared path target := by
  obtain ⟨id, hid⟩ := id?_ensure graph path
  rw [addDependency_eq hid] at ht
  refine ((h.ensure hc).declared_of_mem_redeclare hc.ensure
    (hc.ensure.path?_of_id? path id hid) htargets ht).imp_left fun hm => ?_
  split at hm
  · exact absurd hm (OrderedSet.not_mem_empty target)
  · exact (OrderedSet.mem_insert.mp hm).resolve_left (OrderedSet.not_mem_empty target)

end Declare

end Licensed

end Recalc.Graph
