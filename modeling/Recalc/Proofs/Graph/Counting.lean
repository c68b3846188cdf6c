import Mathlib.Data.List.Flatten
import Mathlib.Data.List.Nodup
import Recalc.Proofs.Graph.Linking

namespace Recalc.Graph

variable {graph first second : Graph} {i j dependent dependency : Nat}

def edges (graph : Graph) : List (Nat × Nat) :=
  graph.nodes.toList.flatMap fun entry => entry.2.dependencies.toList.map (Prod.mk entry.1)

theorem mem_edges : (i, j) ∈ graph.edges ↔ graph.Reads i j := by
  simp only [edges, List.mem_flatMap, List.mem_map, Prod.mk.injEq, Prod.exists, Reads,
    Std.TreeMap.mem_toList_iff_getElem?_eq_some, OrderedSet.mem_toList]
  constructor
  · rintro ⟨_, node, hnode, _, hj, rfl, rfl⟩
    exact ⟨node, hnode, hj⟩
  · rintro ⟨node, hnode, hj⟩
    exact ⟨i, node, hnode, j, hj, rfl, rfl⟩

-- No id has two entries, and no entry names a dependency twice.
theorem nodup_edges (graph : Graph) : graph.edges.Nodup := by
  refine List.nodup_flatMap.mpr ⟨fun entry _ => ?_, ?_⟩
  · exact entry.2.dependencies.nodup.map fun _ _ he => congrArg Prod.snd he
  · refine Std.TreeMap.distinct_keys_toList.imp fun {one other} hne => ?_
    intro edge hone hother
    obtain ⟨_, _, rfl⟩ := List.mem_map.mp hone
    obtain ⟨_, _, he⟩ := List.mem_map.mp hother
    exact hne (Std.compare_eq_iff_eq.mpr (congrArg Prod.fst he).symm)

theorem length_edges (graph : Graph) : graph.edges.length = graph.edgeCount := by
  rw [edges, List.length_flatMap, edgeCount, values_eq_map_toList, List.foldl_map,
    List.sum_eq_foldl, List.foldl_map]
  simp only [List.length_map, OrderedSet.size]

-- The count is a matter of who reads whom.
theorem edgeCount_congr (h : ∀ i j, second.Reads i j ↔ first.Reads i j) :
    second.edgeCount = first.edgeCount := by
  rw [← length_edges, ← length_edges]
  refine ((List.perm_ext_iff_of_nodup second.nodup_edges first.nodup_edges).mpr ?_).length_eq
  rintro ⟨i, j⟩
  rw [mem_edges, mem_edges, h]

theorem edgeCount_link : (graph.link dependent dependency).1.edgeCount =
    graph.edgeCount + if (graph.link dependent dependency).2 then 1 else 0 := by
  by_cases hadded : (graph.link dependent dependency).2 = true
  · obtain ⟨hlinkable, hnew⟩ := link_added_iff.mp hadded
    have hcons : ((dependent, dependency) :: graph.edges).Nodup :=
      List.nodup_cons.mpr ⟨fun hm => hnew (mem_edges.mp hm), graph.nodup_edges⟩
    have hperm : (graph.link dependent dependency).1.edges.Perm
        ((dependent, dependency) :: graph.edges) := by
      refine (List.perm_ext_iff_of_nodup (nodup_edges _) hcons).mpr ?_
      rintro ⟨i, j⟩
      rw [mem_edges, reads_link, List.mem_cons, Prod.mk.injEq, mem_edges]
      simp only [hlinkable, and_true, or_comm]
    rw [if_pos hadded, ← length_edges, hperm.length_eq, List.length_cons, length_edges]
  · rw [if_neg hadded, Nat.add_zero]
    rw [link_added_iff, not_and_not_right] at hadded
    refine edgeCount_congr fun i j => ?_
    rw [reads_link, or_iff_left_iff_imp]
    rintro ⟨rfl, rfl, hlinkable⟩
    exact hadded hlinkable

theorem edgeCount_climb (current : Nat) (ancestors : List Path) :
    (graph.climb current ancestors).1.edgeCount =
      graph.edgeCount + (graph.climb current ancestors).2 := by
  induction ancestors generalizing graph current with
  | nil => rfl
  | cons ancestor rest ih =>
      rw [climb]
      cases graph.id? ancestor with
      | none => rfl
      | some parent =>
          dsimp only
          split
          · rw [ih, edgeCount_link]
            split <;> omega
          · rfl

theorem edgeCount_linkAncestors (graph : Graph) (count : Nat) (path : Path) :
    (linkAncestors (graph, count) path).1.edgeCount + count =
      graph.edgeCount + (linkAncestors (graph, count) path).2 := by
  unfold linkAncestors
  dsimp only
  split
  · rfl
  · rw [edgeCount_climb]
    omega

theorem edgeCount_linkAbove (paths : List Path) :
    (graph.linkAbove paths).1.edgeCount = graph.edgeCount + (graph.linkAbove paths).2 :=
  List.foldlRecOn paths linkAncestors
    (motive := fun state : Graph × Nat => state.1.edgeCount = graph.edgeCount + state.2) rfl
    fun (now, count) hnow path _ => by
      have hstep := now.edgeCount_linkAncestors count path
      dsimp only at hnow ⊢
      omega

end Recalc.Graph
