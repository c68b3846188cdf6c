import Recalc.Proofs.Ordered.Table
import Recalc.Proofs.Schedule.Affected

namespace Recalc.Graph

variable {graph other : Graph} {ids others : List Nat} {seeds more : List Path} {path target : Path}

theorem exists_getElem?_of_map_eq {α β γ : Type} {f : α → γ} {g : β → γ} {entries : List α}
    {rest : List β} (h : entries.map f = rest.map g) {k : Nat} {a : α} (hk : entries[k]? = some a) :
    ∃ b, rest[k]? = some b ∧ f a = g b := by
  have hat : (entries.map f)[k]? = (rest.map g)[k]? := by rw [h]
  rw [List.getElem?_map, List.getElem?_map, hk, Option.map_some] at hat
  obtain ⟨b, hb, he⟩ := Option.map_eq_some_iff.mp hat.symm
  exact ⟨b, hb, he.symm⟩

theorem map_path?_nodeIds : graph.nodeIds.map graph.path? = graph.paths.map some := by
  rw [nodeIds, paths, values_eq_map_toList, ← Std.TreeMap.map_fst_toList_eq_keys, List.map_map,
    List.map_map, List.map_map]
  refine List.map_congr_left fun entry hentry => ?_
  have hnode := Std.TreeMap.mem_toList_iff_getElem?_eq_some.mp hentry
  simp only [Function.comp_apply, path?, hnode, Option.map_some]

theorem Consistent.mem_paths (h : graph.Consistent) :
    path ∈ graph.paths ↔ graph.contains path = true := by
  rw [h.contains_iff]
  constructor
  · intro hp
    have hsome : some path ∈ graph.nodeIds.map graph.path? := by
      rw [map_path?_nodeIds]
      exact List.mem_map_of_mem hp
    obtain ⟨i, _, hi⟩ := List.mem_map.mp hsome
    exact ⟨i, hi⟩
  · rintro ⟨i, hi⟩
    exact mem_paths_of_path? hi

theorem map_path?_filter (keep : Path → Bool) :
    (graph.nodeIds.filter fun i => (graph.path? i).any keep).map graph.path? =
      (graph.paths.filter keep).map some := by
  calc (graph.nodeIds.filter (Option.any keep ∘ graph.path?)).map graph.path?
      = (graph.nodeIds.map graph.path?).filter (Option.any keep) := List.filter_map.symm
    _ = (graph.paths.map some).filter (Option.any keep) := by rw [map_path?_nodeIds]
    _ = (graph.paths.filter (Option.any keep ∘ some)).map some := List.filter_map

-- The affected nodes keep the order of all nodes.
theorem Consistent.map_path?_affected (h : graph.Consistent) (seeds : List Path) :
    (graph.affected seeds).map graph.path? = (graph.paths.filter fun path =>
      decide (path ∈ (graph.sortAffected seeds).evaluationOrder)).map some := by
  rw [← map_path?_filter]
  congr 1
  refine pairwise_affected.eq_of_mem_iff (pairwise_nodeIds.filter _) fun i => ?_
  rw [List.mem_filter, mem_nodeIds, mem_nodes_iff_path]
  constructor
  · intro hi
    obtain ⟨path, hp⟩ := h.path?_of_affected hi
    refine ⟨⟨path, hp⟩, ?_⟩
    rw [hp, Option.any_some, decide_eq_true_iff]
    exact (h.mem_sortAffected hp).mpr hi
  · rintro ⟨⟨path, hp⟩, hlisted⟩
    rw [hp, Option.any_some, decide_eq_true_iff] at hlisted
    exact (h.mem_sortAffected hp).mp hlisted

section Congruence

variable (h : graph.Consistent) (ho : other.Consistent)
  (hedges : ∀ path target, graph.DependsOn path target ↔ other.DependsOn path target)

include h ho hedges

-- Edges between ids are edges between their paths.
theorem Consistent.reads_congr {i j k l : Nat} (hi : graph.path? i = other.path? k)
    (hj : graph.path? j = other.path? l) (hr : graph.Reads i j) : other.Reads k l := by
  obtain ⟨path, hp⟩ := mem_nodes_iff_path.mp hr.mem
  obtain ⟨target, ht⟩ := mem_nodes_iff_path.mp (h.mem_of_reads hr)
  obtain ⟨k', l', hk, hread, hl⟩ :=
    ho.mem_dependencies.mp ((hedges path target).mp (h.dependsOn_of_reads hp ht hr))
  obtain rfl : k = k' := ho.path?_inj (hi ▸ hp) hk
  obtain rfl : l = l' := ho.path?_inj (hj ▸ ht) hl
  exact hread

theorem Consistent.sortIds_eq (hids : ids.Nodup) (hothers : others.Nodup)
    (hpaths : ids.map graph.path? = others.map other.path?) :
    graph.sortIds ids = other.sortIds others := by
  refine sortIds_congr hids hothers ?_ (fun k => ?_) fun k l => ⟨?_, ?_⟩
  · simpa using congrArg List.length hpaths
  · have hk : ((ids.map graph.path?)[k]?).bind id = ((others.map other.path?)[k]?).bind id := by
      rw [hpaths]
    simpa only [List.getElem?_map, Option.bind_map, Function.id_comp] using hk
  · rintro ⟨i, j, hi, hj, hr⟩
    obtain ⟨i', hi', hpi⟩ := exists_getElem?_of_map_eq hpaths hi
    obtain ⟨j', hj', hpj⟩ := exists_getElem?_of_map_eq hpaths hj
    exact ⟨i', j', hi', hj', h.reads_congr ho hedges hpi hpj hr⟩
  · rintro ⟨i, j, hi, hj, hr⟩
    obtain ⟨i', hi', hpi⟩ := exists_getElem?_of_map_eq hpaths.symm hi
    obtain ⟨j', hj', hpj⟩ := exists_getElem?_of_map_eq hpaths.symm hj
    exact ⟨i', j', hi', hj',
      ho.reads_congr h (fun path target => (hedges path target).symm) hpi hpj hr⟩

variable (hpaths : graph.paths = other.paths)

include hpaths

theorem Consistent.sortAll_eq : graph.sortAll = other.sortAll := by
  refine h.sortIds_eq ho hedges nodup_nodeIds nodup_nodeIds ?_
  rw [map_path?_nodeIds, map_path?_nodeIds, hpaths]

theorem Consistent.sortAffected_eq (hseeds : ∀ path, path ∈ seeds ↔ path ∈ more) :
    graph.sortAffected seeds = other.sortAffected more := by
  have hrelation : graph.DependsOn = other.DependsOn := by
    funext path target
    exact propext (hedges path target)
  have haffected : ∀ path, path ∈ (graph.sortAffected seeds).evaluationOrder ↔
      path ∈ (other.sortAffected more).evaluationOrder := fun path => by
    simp only [h.mem_evaluationOrder_sortAffected, ho.mem_evaluationOrder_sortAffected,
      ← h.mem_paths, ← ho.mem_paths, hpaths, hrelation, hseeds]
  refine h.sortIds_eq ho hedges nodup_affected nodup_affected ?_
  rw [h.map_path?_affected, ho.map_path?_affected, hpaths]
  simp only [haffected]

end Congruence

-- Only nodes depend on something.
theorem Consistent.dependsOn_iff_of_perm (h : graph.Consistent) (ho : other.Consistent)
    (hpaths : graph.paths = other.paths)
    (hperm : ∀ path ∈ graph.paths, (graph.dependencies path).Perm (other.dependencies path))
    (path target : Path) : graph.DependsOn path target ↔ other.DependsOn path target := by
  have hnode : ∀ now : Graph, now.Consistent → now.DependsOn path target → path ∈ now.paths :=
    fun now hn hd => by
      obtain ⟨i, _, hi, _⟩ := hn.mem_dependencies.mp hd
      exact mem_paths_of_path? hi
  constructor
  · exact fun hd => (hperm path (hnode graph h hd)).mem_iff.mp hd
  · exact fun hd => (hperm path (hpaths ▸ hnode other ho hd)).mem_iff.mpr hd

-- Graphs with the same paths in the same order and the same edges are sorted
-- alike, whatever has been done to them, and so are their parts above the same
-- seeds.
theorem sorts_alike_run (first second : List Operation)
    (hpaths : (run first).paths = (run second).paths)
    (hedges : ∀ path target, (run first).DependsOn path target ↔ (run second).DependsOn path target) :
    (run first).sortAll = (run second).sortAll ∧
      ∀ seeds more : List Path, (∀ path, path ∈ seeds ↔ path ∈ more) →
        (run first).sortAffected seeds = (run second).sortAffected more := by
  have h : (run first).Consistent := .run first
  have ho : (run second).Consistent := .run second
  exact ⟨h.sortAll_eq ho hedges hpaths, fun _ _ => h.sortAffected_eq ho hedges hpaths⟩

-- A node that came and went leaves a gap in the ids, and the edges of a loop
-- come in another order.
theorem sorts_alike_loop :
    let one : Path := .ofEntity "one"
    let two : Path := .ofEntity "two"
    let three : Path := .ofEntity "three"
    let first := run [.addNodes [one, two, three] true, .addDependency one [two, three],
      .addDependency two [one]]
    let second := run [.addNodes [one, .ofEntity "gone"] true, .addDependency one [.ofEntity "gone"],
      .removeNodes [.ofEntity "gone"], .addNodes [two, three] true, .addDependency two [one, three],
      .addDependency two [one], .addDependency one [three, two]]
    first.nodeIds ≠ second.nodeIds ∧ first.paths = second.paths ∧
      first.sortAll = second.sortAll ∧ first.sortAll.cycles = [[one, two]] ∧
      first.sortAffected [three, one] = second.sortAffected [one, three] := by
  intro one two three first second
  have hpaths : first.paths = second.paths := by decide +kernel
  have hperm : ∀ path ∈ first.paths, (first.dependencies path).Perm (second.dependencies path) := by
    decide +kernel
  have hedges := (Consistent.run _).dependsOn_iff_of_perm (Consistent.run _) hpaths hperm
  obtain ⟨hall, haffected⟩ := sorts_alike_run _ _ hpaths hedges
  exact ⟨by decide +kernel, hpaths, hall, by decide +kernel,
    haffected [three, one] [one, three] fun path => by simp only [List.mem_pair, or_comm]⟩

end Recalc.Graph
