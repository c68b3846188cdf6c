import Mathlib.Data.List.Flatten
import Mathlib.Data.List.Induction
import Recalc.Proofs.Graph.Consistency
import Recalc.Proofs.Schedule.Wave
import Recalc.Schedule.Sort

namespace Recalc

namespace Sorted

variable {paths : Schedule.Cluster → List Path}

-- The acyclic paths of a wave.
def levelOf (paths : Schedule.Cluster → List Path) (wave : List Schedule.Cluster) : List Path :=
  (wave.filter fun unit => !unit.cyclic).flatMap paths

theorem foldl_addUnit (found : Sorted × List Path) (wave : List Schedule.Cluster) :
    wave.foldl (addUnit paths) found =
      (⟨found.1.order ++ levelOf paths wave, found.1.levels,
        found.1.cycles ++ (wave.filter (·.cyclic)).map paths,
        found.1.evaluationOrder ++ wave.flatMap paths⟩, found.2 ++ levelOf paths wave) := by
  induction wave generalizing found with
  | nil => simp [levelOf]
  | cons unit rest ih =>
      rw [List.foldl_cons, ih, addUnit]
      cases hcyclic : unit.cyclic <;> simp [levelOf, hcyclic]

theorem addWave_eq (sorted : Sorted) (wave : List Schedule.Cluster) :
    sorted.addWave paths wave =
      ⟨sorted.order ++ levelOf paths wave,
        sorted.levels ++ [levelOf paths wave].filter fun level => !level.isEmpty,
        sorted.cycles ++ (wave.filter (·.cyclic)).map paths,
        sorted.evaluationOrder ++ wave.flatMap paths⟩ := by
  rw [addWave, foldl_addUnit]
  cases hlevel : levelOf paths wave <;> simp

-- Order and levels are collected apart: of a wave without an acyclic node there
-- is nothing in either.
theorem foldl_addWave (sorted : Sorted) (waves : List (List Schedule.Cluster)) :
    waves.foldl (addWave paths) sorted =
      ⟨sorted.order ++ waves.flatMap (levelOf paths),
        sorted.levels ++ (waves.map (levelOf paths)).filter fun level => !level.isEmpty,
        sorted.cycles ++ (waves.flatten.filter (·.cyclic)).map paths,
        sorted.evaluationOrder ++ waves.flatten.flatMap paths⟩ := by
  induction waves generalizing sorted with
  | nil => simp
  | cons wave rest ih =>
      rw [List.foldl_cons, ih, addWave_eq]
      simp only [List.map_cons, List.filter_cons, List.filter_nil]
      split <;> simp

end Sorted

namespace Graph

variable {graph other : Graph} {ids others : List Nat} {i j k l : Nat}

section Adjacency

theorem getElem?_foldl_insert {entries : List (Nat × Nat)} {table : Std.TreeMap Nat Nat}
    (h : (entries.map Prod.fst).Nodup) :
    (entries.foldl (fun table entry => table.insert entry.1 entry.2) table)[i]? = some k ↔
      (i, k) ∈ entries ∨ table[i]? = some k ∧ i ∉ entries.map Prod.fst := by
  induction entries generalizing table with
  | nil => simp
  | cons entry rest ih =>
      obtain ⟨hnew, hrest⟩ := List.nodup_cons.mp h
      rw [List.foldl_cons, ih hrest, Std.TreeMap.getElem?_insert]
      simp only [Std.compare_eq_iff_eq, List.mem_cons, List.map_cons, not_or]
      by_cases hi : entry.1 = i
      · subst hi
        simp only [if_true, Option.some_inj, not_true_eq_false, false_and, and_false, or_false]
        constructor
        · rintro (hm | ⟨rfl, _⟩)
          · exact Or.inr hm
          · exact Or.inl rfl
        · rintro (he | hm)
          · exact Or.inr ⟨(congrArg Prod.snd he).symm, hnew⟩
          · exact Or.inl hm
      · rw [if_neg hi]
        constructor
        · rintro (hm | ⟨ht, hn⟩)
          · exact Or.inl (Or.inr hm)
          · exact Or.inr ⟨ht, fun he => hi he.symm, hn⟩
        · rintro ((rfl | hm) | ⟨ht, _, hn⟩)
          · exact absurd rfl hi
          · exact Or.inl hm
          · exact Or.inr ⟨ht, hn⟩

-- The places of ids in a list.
def numbers (ids : List Nat) : Std.TreeMap Nat Nat :=
  ids.zipIdx.foldl (fun numbers entry => numbers.insert entry.1 entry.2) ∅

theorem getElem?_numbers (h : ids.Nodup) : (numbers ids)[i]? = some k ↔ ids[k]? = some i := by
  have hfst : (ids.zipIdx.map Prod.fst).Nodup := by
    rw [List.zipIdx_map_fst]
    exact h
  rw [numbers, getElem?_foldl_insert hfst, List.mk_mem_zipIdx_iff_getElem?]
  simp

theorem size_adjacency : (graph.adjacency ids).size = ids.length := by
  simp [adjacency]

-- The places of what a node reads.
def readPlaces (graph : Graph) (ids : List Nat) (id : Nat) : List Nat :=
  match graph.nodes[id]? with
  | some node => node.dependencies.toList.filterMap fun dependency => (numbers ids)[dependency]?
  | none => []

theorem successors_adjacency :
    Schedule.successors (graph.adjacency ids) k =
      ((ids[k]?).map (graph.readPlaces ids)).getD [] := by
  unfold Schedule.successors adjacency
  dsimp only
  rw [Array.getD_eq_getD_getElem?, List.getElem?_toArray, List.getElem?_map]
  rfl

-- Edges among the ids, by their places.
theorem mem_successors_adjacency (h : ids.Nodup) :
    l ∈ Schedule.successors (graph.adjacency ids) k ↔
      ∃ i j, ids[k]? = some i ∧ ids[l]? = some j ∧ graph.Reads i j := by
  rw [successors_adjacency]
  cases hk : ids[k]? with
  | none => simp
  | some i =>
      simp only [Option.map_some, Option.getD_some, Option.some_inj, exists_and_left,
        exists_eq_left']
      unfold readPlaces Reads
      cases graph.nodes[i]? with
      | none => simp
      | some node =>
          simp only [List.mem_filterMap, getElem?_numbers h, OrderedSet.mem_toList,
            Option.some_inj, exists_eq_left', and_comm]

theorem bounded_adjacency (h : ids.Nodup) : Schedule.Bounded (graph.adjacency ids) := by
  intro k l hl
  obtain ⟨_, j, _, hj, _⟩ := (mem_successors_adjacency h).mp hl
  rw [size_adjacency]
  exact (List.getElem?_eq_some_iff.mp hj).1

end Adjacency

section Order

-- The paths of some places.
def pathsAt (graph : Graph) (ids members : List Nat) : List Path :=
  members.filterMap fun k => (ids[k]?).bind graph.path?

def scheduled (graph : Graph) (ids : List Nat) : List Schedule.Cluster :=
  (Schedule.waves (graph.adjacency ids)).flatten

theorem filterMap_names (members : List Nat) :
    (members.filterMap (ids.toArray[·]?)).filterMap graph.path? = graph.pathsAt ids members := by
  simp only [List.filterMap_filterMap, pathsAt, List.getElem?_toArray]

theorem sortIds_eq_foldl :
    graph.sortIds ids = (Schedule.waves (graph.adjacency ids)).foldl
      (Sorted.addWave fun unit => graph.pathsAt ids unit.members) .empty := by
  simp only [sortIds, filterMap_names]

theorem evaluationOrder_sortIds :
    (graph.sortIds ids).evaluationOrder =
      graph.pathsAt ids ((graph.scheduled ids).flatMap (·.members)) := by
  rw [sortIds_eq_foldl, Sorted.foldl_addWave]
  simp only [Sorted.empty, List.nil_append, scheduled, pathsAt, List.filterMap_flatMap]

theorem cycles_sortIds :
    (graph.sortIds ids).cycles =
      ((graph.scheduled ids).filter (·.cyclic)).map fun unit => graph.pathsAt ids unit.members := by
  rw [sortIds_eq_foldl, Sorted.foldl_addWave]
  rfl

theorem levels_sortIds :
    (graph.sortIds ids).levels = ((Schedule.waves (graph.adjacency ids)).map
      (Sorted.levelOf fun unit => graph.pathsAt ids unit.members)).filter fun level =>
        !level.isEmpty := by
  rw [sortIds_eq_foldl, Sorted.foldl_addWave]
  rfl

theorem order_sortIds :
    (graph.sortIds ids).order = (Schedule.waves (graph.adjacency ids)).flatMap
      (Sorted.levelOf fun unit => graph.pathsAt ids unit.members) := by
  rw [sortIds_eq_foldl, Sorted.foldl_addWave]
  rfl

-- The levels that are left out are empty, so the order goes through the others.
theorem order_eq_flatten_levels :
    (graph.sortIds ids).order = (graph.sortIds ids).levels.flatten := by
  rw [order_sortIds, levels_sortIds, List.flatten_filter_not_isEmpty, List.flatMap_def]

-- The sort looks at places, their paths and the edges between them.
theorem sortIds_congr (hids : ids.Nodup) (hothers : others.Nodup)
    (hlength : ids.length = others.length)
    (hpath : ∀ k : Nat, (ids[k]?).bind graph.path? = (others[k]?).bind other.path?)
    (hreads : ∀ k l : Nat, (∃ i j, ids[k]? = some i ∧ ids[l]? = some j ∧ graph.Reads i j) ↔
      ∃ i j, others[k]? = some i ∧ others[l]? = some j ∧ other.Reads i j) :
    graph.sortIds ids = other.sortIds others := by
  have hwaves : Schedule.waves (graph.adjacency ids) = Schedule.waves (other.adjacency others) := by
    refine Schedule.waves_congr (bounded_adjacency hids) (bounded_adjacency hothers) ?_
      fun k l => ?_
    · rw [size_adjacency, size_adjacency, hlength]
    · rw [mem_successors_adjacency hids, mem_successors_adjacency hothers, hreads]
  have hpaths : graph.pathsAt ids = other.pathsAt others := by
    funext members
    simp only [pathsAt, hpath]
  rw [sortIds_eq_foldl, sortIds_eq_foldl, hwaves, hpaths]

theorem filterMap_range (ids : List Nat) :
    (List.range ids.length).filterMap (fun k => ids[k]?) = ids := by
  induction ids using List.reverseRec with
  | nil => rfl
  | append_singleton rest id ih =>
      rw [List.length_append, List.length_singleton, List.range_succ, List.filterMap_append]
      congr 1
      · refine (List.filterMap_congr fun k hk => ?_).trans ih
        exact List.getElem?_append_left (List.mem_range.mp hk)
      · simp

-- Every node that is sorted has its place in the order of evaluation.
theorem evaluationOrder_perm (h : ids.Nodup) :
    (graph.sortIds ids).evaluationOrder.Perm (ids.filterMap graph.path?) := by
  have hb : Schedule.Bounded (graph.adjacency ids) := bounded_adjacency h
  have hm := Schedule.members_perm_range hb
  have hpaths : graph.pathsAt ids (List.range ids.length) = ids.filterMap graph.path? := by
    have hr := congrArg (List.filterMap graph.path?) (filterMap_range ids)
    rwa [List.filterMap_filterMap] at hr
  rw [evaluationOrder_sortIds, ← hpaths]
  rw [size_adjacency] at hm
  exact hm.filterMap _

theorem mem_evaluationOrder (h : ids.Nodup) {path : Path} :
    path ∈ (graph.sortIds ids).evaluationOrder ↔ ∃ id ∈ ids, graph.path? id = some path := by
  rw [(evaluationOrder_perm h).mem_iff, List.mem_filterMap]

end Order

section All

theorem nodup_nodeIds : graph.nodeIds.Nodup := Std.TreeMap.nodup_keys

theorem mem_nodeIds : i ∈ graph.nodeIds ↔ i ∈ graph.nodes := Std.TreeMap.mem_keys

theorem pairwise_nodeIds : graph.nodeIds.Pairwise (· < ·) :=
  Std.TreeMap.ordered_keys.imp Nat.compare_eq_lt.mp

theorem nodeIds_congr (h : ∀ id, other.label? id = graph.label? id) :
    other.nodeIds = graph.nodeIds := by
  refine pairwise_nodeIds.eq_of_mem_iff pairwise_nodeIds fun id => ?_
  simp only [mem_nodeIds, mem_nodes_iff, h]

-- The sort of two graphs with the same nodes and the same edges is the same.
theorem sortAll_congr (h : ∀ id, other.label? id = graph.label? id)
    (hreads : ∀ i j, other.Reads i j ↔ graph.Reads i j) : other.sortAll = graph.sortAll := by
  rw [sortAll, sortAll, nodeIds_congr h]
  refine sortIds_congr nodup_nodeIds nodup_nodeIds rfl (fun k => ?_) fun k l => ?_
  · congr 1
    funext id
    ext path
    simp only [path?_eq_some_iff, h]
  · simp only [hreads]

end All

section Cycles

theorem transGen_of_cyclic (h : ids.Nodup) {unit : Schedule.Cluster}
    (hu : unit ∈ graph.scheduled ids) (hc : unit.cyclic = true) (hk : k ∈ unit.members) :
    Relation.TransGen (Schedule.Leads (Schedule.successors (graph.adjacency ids))) k k := by
  have hb : Schedule.Bounded (graph.adjacency ids) := bounded_adjacency h
  have hstaged := Schedule.staged_waves hb
  have hstrong := hstaged.strong unit hu k hk
  rw [hstaged.cyclic unit hu] at hc
  rcases Bool.or_eq_true_iff.mp hc with hlong | hself
  · -- Another member reads this one and is read by it.
    obtain ⟨l, hl, hne⟩ : ∃ l ∈ unit.members, l ≠ k := by
      by_contra hn
      have hall : ∀ l ∈ unit.members, l = k := fun l hl => by
        by_contra hne
        exact hn ⟨l, hl, hne⟩
      have hnodup : unit.members.Nodup := (hstaged.ascends unit hu).imp Nat.ne_of_lt
      have := (List.eq_replicate_of_mem hall) ▸ hnodup
      rw [List.nodup_replicate] at this
      have := of_decide_eq_true hlong
      omega
    obtain ⟨hkl, hlk⟩ := (hstrong l).mp hl
    rcases Relation.reflTransGen_iff_eq_or_transGen.mp hkl with he | ht
    · exact absurd he hne
    · exact ht.trans_left hlk
  · obtain ⟨hkl, hlk⟩ := (hstrong _).mp (Schedule.headD_mem (hstaged.nonempty unit hu))
    exact .trans_right hkl (.trans_left (.single (List.contains_iff_mem.mp hself)) hlk)

-- A member of a cycle reads itself through others.
theorem transGen_of_mem_cycles (h : ids.Nodup) {cycle : List Path} {path : Path}
    (hc : cycle ∈ (graph.sortIds ids).cycles) (hp : path ∈ cycle) :
    ∃ id ∈ ids, graph.path? id = some path ∧ Relation.TransGen graph.Reads id id := by
  rw [cycles_sortIds] at hc
  obtain ⟨unit, hu, rfl⟩ := List.mem_map.mp hc
  obtain ⟨hu, hcyclic⟩ := List.mem_filter.mp hu
  obtain ⟨k, hk, hpath⟩ := List.mem_filterMap.mp hp
  obtain ⟨id, hid, hpath⟩ := Option.bind_eq_some_iff.mp hpath
  refine ⟨id, List.mem_of_getElem? hid, hpath, ?_⟩
  have hlift : Relation.TransGen graph.Reads ((ids[k]?).getD 0) ((ids[k]?).getD 0) := by
    refine (transGen_of_cyclic h hu hcyclic hk).lift (fun k => (ids[k]?).getD 0) fun k l hkl => ?_
    obtain ⟨i, j, hi, hj, hr⟩ := (mem_successors_adjacency h).mp hkl
    show graph.Reads ((ids[k]?).getD 0) ((ids[l]?).getD 0)
    rw [hi, hj]
    exact hr
  rw [hid] at hlift
  exact hlift

theorem flatten_cycles_sublist :
    (graph.sortIds ids).cycles.flatten.Sublist (graph.sortIds ids).evaluationOrder := by
  rw [cycles_sortIds, evaluationOrder_sortIds, pathsAt, List.filterMap_flatMap]
  exact (List.filter_sublist.map _).flatten

theorem Consistent.nodup_evaluationOrder (h : graph.Consistent) (hids : ids.Nodup) :
    (graph.sortIds ids).evaluationOrder.Nodup := by
  rw [(evaluationOrder_perm hids).nodup_iff]
  refine hids.filterMap fun i j path hi hj => ?_
  exact h.path?_inj hi hj

-- No path is in two cycles or twice in one.
theorem Consistent.nodup_flatten_cycles (h : graph.Consistent) (hids : ids.Nodup) :
    (graph.sortIds ids).cycles.flatten.Nodup :=
  (h.nodup_evaluationOrder hids).sublist flatten_cycles_sublist

end Cycles

section Affected

variable {seeds : List Path}

theorem nodup_affected : (graph.affected seeds).Nodup :=
  Std.TreeSet.distinct_toList.imp fun hne he => hne (Std.compare_eq_iff_eq.mpr he)

theorem Consistent.mem_readers (h : graph.Consistent) : j ∈ graph.readers i ↔ graph.Reads j i := by
  rw [h.mirror]
  unfold readers IsRead
  cases graph.nodes[i]? with
  | none => simp
  | some node => simp [OrderedSet.mem_toList]

-- What a batch affects: its seeds and all that reads them, directly or not.
theorem Consistent.mem_affected (h : graph.Consistent) :
    j ∈ graph.affected seeds ↔ ∃ seed ∈ seeds, ∃ i, graph.id? seed = some i ∧
      Relation.ReflTransGen (fun v w => graph.Reads w v) i j := by
  have hleads : Schedule.Leads graph.readers = fun v w => graph.Reads w v := by
    funext v w
    exact propext h.mem_readers
  rw [affected, Std.TreeSet.mem_toList, Schedule.Search.mem_met_run, Schedule.Reaches, hleads]
  simp only [List.mem_filterMap]
  constructor
  · rintro ⟨i, ⟨seed, hs, hi⟩, hr⟩
    exact ⟨seed, hs, i, hi, hr⟩
  · rintro ⟨seed, hs, i, hi, hr⟩
    exact ⟨i, ⟨seed, hs, hi⟩, hr⟩

end Affected

end Graph

end Recalc
