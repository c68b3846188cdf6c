import Recalc.Graph.Check
import Recalc.Proofs.Graph.Edge

namespace Recalc.Graph

structure Consistent (graph : Graph) : Prop where
  -- Paths and ids name each other.
  id?_iff : ∀ path id, graph.id? path = some id ↔ graph.path? id = some path
  below : ∀ id ∈ graph.nodes, id < graph.nextId
  -- The two sides of an edge agree. Since a side is an entry of a node, no
  -- edge leads to a missing node.
  mirror : graph.Mirrored
  irreflexive : ∀ id, ¬graph.Reads id id
  awaits_iff : graph.Queued
  tight : graph.Tight
  owner : ∀ dependent target, graph.Awaits dependent target → dependent ∈ graph.nodes
  missing : ∀ dependent target, graph.Awaits dependent target → graph.id? target = none
  -- Setters and functions of the platform read nothing and wait for nothing.
  reads_accepts : ∀ dependent dependency, graph.Reads dependent dependency →
    graph.Accepts dependent
  awaits_accepts : ∀ dependent target, graph.Awaits dependent target → graph.Accepts dependent

variable {graph : Graph}

namespace Consistent

theorem mem_of_reads (h : graph.Consistent) {dependent dependency : Nat}
    (hr : graph.Reads dependent dependency) : dependency ∈ graph.nodes :=
  ((h.mirror dependent dependency).mp hr).mem

theorem fresh (h : graph.Consistent) : graph.nextId ∉ graph.nodes :=
  fun hm => Nat.lt_irrefl _ (h.below _ hm)

theorem path?_nextId (h : graph.Consistent) : graph.path? graph.nextId = none :=
  Option.eq_none_iff_forall_ne_some.mpr fun path hp => h.fresh (mem_nodes_iff_path.mpr ⟨path, hp⟩)

theorem id?_ne_nextId (h : graph.Consistent) {path : Path} :
    graph.id? path ≠ some graph.nextId := fun hid =>
  h.fresh (mem_nodes_iff_path.mpr ⟨path, (h.id?_iff _ _).mp hid⟩)

theorem contains_iff (h : graph.Consistent) {path : Path} :
    graph.contains path = true ↔ ∃ id, graph.path? id = some path := by
  simp only [contains, Option.isSome_iff_exists, h.id?_iff]

theorem path?_inj (h : graph.Consistent) {first second : Nat} {path : Path}
    (hf : graph.path? first = some path) (hs : graph.path? second = some path) :
    first = second := by
  rw [← h.id?_iff] at hf hs
  exact Option.some_inj.mp (hf.symm.trans hs)

theorem mem_of_accepts {id : Nat} (ha : graph.Accepts id) : id ∈ graph.nodes := by
  obtain ⟨_, _, hl, _⟩ := ha
  exact mem_nodes_iff.mpr ⟨_, hl⟩

-- What remains to be shown when the nodes stay as they are.
theorem of_sameNodes {second : Graph} (h : graph.Consistent) (hs : SameNodes graph second)
    (hmirror : second.Mirrored) (hqueued : second.Queued) (htight : second.Tight)
    (hreads : ∀ i j, second.Reads i j → i ≠ j ∧ graph.Accepts i)
    (hawaits : ∀ i target, second.Awaits i target →
      graph.Accepts i ∧ graph.id? target = none) : second.Consistent where
  id?_iff path id := by rw [hs.id?, hs.path?, h.id?_iff]
  below id hm := by
    rw [hs.nextId]
    exact h.below id (hs.mem.mp hm)
  mirror := hmirror
  irreflexive id hr := (hreads id id hr).1 rfl
  awaits_iff := hqueued
  tight := htight
  owner id target ha := hs.mem.mpr (mem_of_accepts (hawaits id target ha).1)
  missing id target ha := by
    rw [hs.id?]
    exact (hawaits id target ha).2
  reads_accepts id other hr := hs.accepts.mpr (hreads id other hr).2
  awaits_accepts id target ha := hs.accepts.mpr (hawaits id target ha).1

theorem kind_of_label (h : graph.Consistent) {id : Nat} {path : Path} {kind : NodeKind}
    (hl : graph.label? id = some (path, kind)) :
    (graph.node? path).map Node.kind = some kind := by
  obtain ⟨node, hnode, he⟩ := Option.map_eq_some_iff.mp hl
  cases he
  rw [node?, (h.id?_iff _ _).mpr (path?_of_label hl), Option.bind_some, hnode]
  rfl

theorem mem_dependencies (h : graph.Consistent) {path target : Path} :
    target ∈ graph.dependencies path ↔ ∃ i j, graph.path? i = some path ∧ graph.Reads i j ∧
      graph.path? j = some target := by
  simp only [dependencies, node?, pathsOf, ← h.id?_iff path, Reads]
  cases hid : graph.id? path with
  | none => simp
  | some id => cases hnode : graph.nodes[id]? <;> simp [hnode, OrderedSet.mem_toList]

theorem mem_dependents (h : graph.Consistent) {path reader : Path} :
    reader ∈ graph.dependents path ↔ ∃ i j, graph.path? i = some reader ∧ graph.Reads i j ∧
      graph.path? j = some path := by
  simp only [dependents, node?, pathsOf, ← h.id?_iff path, h.mirror _ _, IsRead]
  cases hid : graph.id? path with
  | none => simp
  | some id =>
      cases hnode : graph.nodes[id]? <;> simp [hnode, OrderedSet.mem_toList, and_comm]

theorem mem_pendingOf (h : graph.Consistent) {path target : Path} :
    target ∈ graph.pendingOf path ↔ ∃ i, graph.path? i = some path ∧ graph.Awaits i target := by
  simp only [pendingOf, ← h.id?_iff path, Awaits, pendingAt, Std.TreeMap.getD_eq_getD_getElem?]
  cases hid : graph.id? path with
  | none => simp
  | some id =>
      cases hpending : graph.pending[id]? <;>
        simp [hpending, OrderedSet.mem_toList, OrderedSet.not_mem_empty]

theorem empty : (∅ : Graph).Consistent where
  id?_iff path id := by
    have h : (∅ : Graph).id? path = none := rfl
    have hp : (∅ : Graph).path? id = none := rfl
    simp [h, hp]
  below id h := absurd h Std.TreeMap.not_mem_emptyc
  mirror dependent dependency := by
    constructor
    · exact fun h => absurd h.mem Std.TreeMap.not_mem_emptyc
    · exact fun h => absurd h.mem Std.TreeMap.not_mem_emptyc
  irreflexive id h := Std.TreeMap.not_mem_emptyc h.mem
  awaits_iff dependent target := by
    constructor
    · exact fun h => absurd h (OrderedSet.not_mem_empty target)
    · exact fun h => absurd h (OrderedSet.not_mem_empty dependent)
  tight := ⟨fun _ _ h => (Option.some_ne_none _ h.symm).elim,
    fun _ _ h => (Option.some_ne_none _ h.symm).elim⟩
  owner _ target h := absurd h (OrderedSet.not_mem_empty target)
  missing _ target h := absurd h (OrderedSet.not_mem_empty target)
  reads_accepts _ _ h := absurd h.mem Std.TreeMap.not_mem_emptyc
  awaits_accepts _ target h := absurd h (OrderedSet.not_mem_empty target)

end Consistent

section Check

theorem dependencyFault?_eq_none (h : graph.Consistent) {id dependency : Nat} {node : Node}
    (hnode : graph.nodes[id]? = some node) (hd : dependency ∈ node.dependencies) :
    graph.dependencyFault? id node dependency = none := by
  have hr : graph.Reads id dependency := ⟨node, hnode, hd⟩
  have hne : dependency ≠ id := by
    rintro rfl
    exact h.irreflexive _ hr
  obtain ⟨target, htarget, hi⟩ := (h.mirror _ _).mp hr
  simp [dependencyFault?, hne, htarget, hi]

theorem dependentFault?_eq_none (h : graph.Consistent) {id dependent : Nat} {node : Node}
    (hnode : graph.nodes[id]? = some node) (hd : dependent ∈ node.dependents) :
    graph.dependentFault? id node dependent = none := by
  obtain ⟨source, hsource, hi⟩ := (h.mirror _ _).mpr ⟨node, hnode, hd⟩
  simp [dependentFault?, hsource, hi]

theorem nodeFault?_eq_none (h : graph.Consistent) {id : Nat} {node : Node}
    (hnode : graph.nodes[id]? = some node) : graph.nodeFault? (id, node) = none := by
  rw [nodeFault?, Option.or_eq_none_iff, List.findSome?_eq_none_iff, List.findSome?_eq_none_iff]
  exact ⟨fun _ hd => dependencyFault?_eq_none h hnode hd,
    fun _ hd => dependentFault?_eq_none h hnode hd⟩

theorem pendingFault?_eq_none (h : graph.Consistent) {id : Nat} {targets : OrderedSet Path}
    (htargets : graph.pending[id]? = some targets) : graph.pendingFault? (id, targets) = none := by
  have hp : graph.pendingAt id = targets := by
    simp [pendingAt, Std.TreeMap.getD_eq_getD_getElem?, htargets]
  have ha : ∀ target ∈ targets, graph.Awaits id target := fun target ht => by
    rw [Awaits, hp]
    exact ht
  obtain ⟨first, hfirst⟩ := List.isEmpty_eq_false_iff_exists_mem.mp
    (h.tight.pending id targets htargets)
  obtain ⟨path, hpath⟩ := mem_nodes_iff_path.mp (h.owner _ _ (ha first hfirst))
  rw [pendingFault?, hpath]
  simp only [Option.map_eq_none_iff, List.find?_eq_none]
  intro target ht
  simp [contains, h.missing _ _ (ha target ht)]

theorem fault?_eq_none (h : graph.Consistent) : graph.fault? = none := by
  rw [fault?, Option.or_eq_none_iff, List.findSome?_eq_none_iff, List.findSome?_eq_none_iff]
  constructor
  · rintro ⟨id, node⟩ hm
    exact nodeFault?_eq_none h (Std.TreeMap.mem_toList_iff_getElem?_eq_some.mp hm)
  · rintro ⟨id, targets⟩ hm
    exact pendingFault?_eq_none h (Std.TreeMap.mem_toList_iff_getElem?_eq_some.mp hm)

end Check

end Recalc.Graph
