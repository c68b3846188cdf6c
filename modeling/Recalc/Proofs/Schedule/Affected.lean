import Recalc.Proofs.Schedule.Order

namespace Recalc.Graph

variable {graph : Graph} {seeds : List Path} {i j : Nat} {path target seed : Path}

theorem pairwise_affected : (graph.affected seeds).Pairwise (· < ·) :=
  Std.TreeSet.ordered_toList.imp Nat.compare_eq_lt.mp

namespace Consistent

variable (h : graph.Consistent)

include h

theorem mem_sortAffected (hp : graph.path? i = some path) :
    path ∈ (graph.sortAffected seeds).evaluationOrder ↔ i ∈ graph.affected seeds := by
  rw [sortAffected, mem_evaluationOrder nodup_affected]
  constructor
  · rintro ⟨j, hj, hpath⟩
    rwa [h.path?_inj hp hpath]
  · exact fun hi => ⟨i, hi, hp⟩

-- Seeds that are nodes are affected, and so is what reads an affected node.
theorem mem_affected_of_seed (hp : graph.path? i = some path) (hs : path ∈ seeds) :
    i ∈ graph.affected seeds :=
  h.mem_affected.mpr ⟨path, hs, i, (h.id?_iff path i).mpr hp, .refl⟩

theorem mem_affected_of_reads (hr : graph.Reads i j) (hj : j ∈ graph.affected seeds) :
    i ∈ graph.affected seeds := by
  obtain ⟨seed, hs, k, hk, hreach⟩ := h.mem_affected.mp hj
  exact h.mem_affected.mpr ⟨seed, hs, k, hk, hreach.tail hr⟩

theorem path?_of_affected (hi : i ∈ graph.affected seeds) : ∃ path, graph.path? i = some path := by
  obtain ⟨seed, _, k, hk, hreach⟩ := h.mem_affected.mp hi
  rcases Relation.ReflTransGen.cases_tail hreach with rfl | ⟨_, _, hr⟩
  · exact ⟨seed, (h.id?_iff _ _).mp hk⟩
  · exact mem_nodes_iff_path.mp hr.mem

theorem readerClosed_affected (seeds : List Path) : graph.ReaderClosed (graph.affected seeds) where
  consistent := h
  ascends := pairwise_affected
  nodes _ hi := mem_nodes_iff_path.mpr (h.path?_of_affected hi)
  readers _ _ hr hj := h.mem_affected_of_reads hr hj

theorem dependsOn_of_reads (hi : graph.path? i = some path) (hj : graph.path? j = some target)
    (hr : graph.Reads i j) : graph.DependsOn path target :=
  h.mem_dependencies.mpr ⟨i, j, hi, hr, hj⟩

-- What is affected is told by the paths alone.
theorem mem_affected_iff (hp : graph.path? i = some path) : i ∈ graph.affected seeds ↔
    ∃ seed ∈ seeds, graph.contains seed = true ∧
      Relation.ReflTransGen graph.DependsOn path seed := by
  constructor
  · intro hi
    obtain ⟨seed, hs, k, hk, hreach⟩ := h.mem_affected.mp hi
    refine ⟨seed, hs, h.contains_iff.mpr ⟨k, (h.id?_iff _ _).mp hk⟩, ?_⟩
    clear hi
    induction hreach generalizing path with
    | refl =>
        rw [(h.id?_iff _ _).mp hk] at hp
        cases hp
        exact .refl
    | tail _ hr ih =>
        obtain ⟨middle, hm⟩ := mem_nodes_iff_path.mp (h.mem_of_reads hr)
        exact (ih hm).head (h.dependsOn_of_reads hp hm hr)
  · rintro ⟨seed, hs, hc, hchain⟩
    induction hchain using Relation.ReflTransGen.head_induction_on generalizing i with
    | refl => exact h.mem_affected_of_seed hp hs
    | head hd _ ih =>
        obtain ⟨i', j, hi, hr, hj⟩ := h.mem_dependencies.mp hd
        obtain rfl : i = i' := h.path?_inj hp hi
        exact h.mem_affected_of_reads hr (ih hj)

theorem mem_evaluationOrder_sortAffected :
    path ∈ (graph.sortAffected seeds).evaluationOrder ↔ ∃ seed ∈ seeds,
      graph.contains seed = true ∧ Relation.ReflTransGen graph.DependsOn path seed := by
  constructor
  · intro hpath
    obtain ⟨i, hi, hp⟩ := (mem_evaluationOrder nodup_affected).mp hpath
    exact (h.mem_affected_iff hp).mp hi
  · rintro ⟨seed, hs, hc, hchain⟩
    obtain ⟨i, hp⟩ : ∃ i, graph.path? i = some path := by
      rcases Relation.ReflTransGen.cases_head hchain with rfl | ⟨_, hd, _⟩
      · exact h.contains_iff.mp hc
      · obtain ⟨i, _, hi, _⟩ := h.mem_dependencies.mp hd
        exact ⟨i, hi⟩
    exact (h.mem_sortAffected hp).mpr ((h.mem_affected_iff hp).mpr ⟨seed, hs, hc, hchain⟩)

-- A cycle that has one affected path is found in the same form by both sorts.
theorem cycles_sortAffected : (graph.sortAffected seeds).cycles.Perm
    (graph.sortAll.cycles.filter fun cycle =>
      cycle.any fun path => decide (path ∈ (graph.sortAffected seeds).evaluationOrder)) := by
  have haffected := h.readerClosed_affected seeds
  have hone : (graph.sortAffected seeds).cycles.Nodup := haffected.nodup_cycles
  have hall : graph.sortAll.cycles.Nodup := h.readerClosed_nodeIds.nodup_cycles
  refine (List.perm_ext_iff_of_nodup hone (hall.sublist List.filter_sublist)).mpr fun cycle => ?_
  have hmem := haffected.mem_cycles cycle
  rw [← sortAffected, ← h.mem_cycles_sortAll] at hmem
  simp only [hmem, List.mem_filter, List.any_eq_true, decide_eq_true_iff]

end Consistent

-- What a sort of seeds and of all that depends on them has to be.
structure SortsAffected (graph : Graph) (seeds : List Path) (sorted : Sorted) : Prop where
  nodup : sorted.evaluationOrder.Nodup
  mem_evaluationOrder : ∀ path, path ∈ sorted.evaluationOrder ↔ ∃ seed ∈ seeds,
    graph.contains seed = true ∧ Relation.ReflTransGen graph.DependsOn path seed
  before : ∀ path ∈ sorted.evaluationOrder, ∀ target ∈ sorted.evaluationOrder,
    graph.DependsOn path target → ¬graph.Joined path target →
      [target, path].Sublist sorted.evaluationOrder
  cycles : sorted.cycles.Perm (graph.sortAll.cycles.filter fun cycle =>
    cycle.any fun path => decide (path ∈ sorted.evaluationOrder))

-- Whatever has been done to a graph, any seeds are sorted with all that
-- depends on them.
theorem sortsAffected_run (operations : List Operation) (seeds : List Path) :
    (run operations).SortsAffected seeds ((run operations).sortAffected seeds) := by
  have h : (run operations).Consistent := .run operations
  exact {
    nodup := h.nodup_evaluationOrder nodup_affected
    mem_evaluationOrder := fun _ => h.mem_evaluationOrder_sortAffected
    before := fun _ _ _ ht => (h.readerClosed_affected seeds).before ht
    cycles := h.cycles_sortAffected }

end Recalc.Graph
