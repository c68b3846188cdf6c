import Mathlib.Data.List.Pairwise
import Recalc.Proofs.Graph.History
import Recalc.Proofs.Schedule.Sort

namespace Recalc.Graph

variable {graph : Graph} {ids : List Nat} {k l : Nat} {path target one two : Path}

def DependsOn (graph : Graph) (path target : Path) : Prop := target ∈ graph.dependencies path

-- Paths that depend on each other, directly or not.
def Joined (graph : Graph) (one two : Path) : Prop :=
  Relation.ReflTransGen graph.DependsOn one two ∧ Relation.ReflTransGen graph.DependsOn two one

def Older (graph : Graph) (one two : Path) : Prop :=
  ∃ i j, graph.id? one = some i ∧ graph.id? two = some j ∧ i < j

instance : Std.Irrefl graph.Older where
  irrefl one := by
    rintro ⟨i, j, hi, hj, hlt⟩
    rw [hi] at hj
    cases hj
    omega

instance : Std.Antisymm graph.Older where
  antisymm one two := by
    rintro ⟨i, j, hi, hj, hlt⟩ ⟨i', j', hi', hj', hlt'⟩
    rw [hi] at hj'
    rw [hj] at hi'
    cases hj'
    cases hi'
    omega

-- What a sort of the nodes of a graph has to be.
structure Sorts (graph : Graph) (sorted : Sorted) : Prop where
  nodup : sorted.evaluationOrder.Nodup
  mem_evaluationOrder : ∀ path, path ∈ sorted.evaluationOrder ↔ graph.contains path = true
  before : ∀ path target, graph.DependsOn path target → ¬graph.Joined path target →
    [target, path].Sublist sorted.evaluationOrder
  before_strictly : ∀ path target, graph.DependsOn path target → ¬graph.Joined path target →
    path ∈ sorted.order → target ∈ sorted.order → [target, path].Sublist sorted.order
  mem_cycles : ∀ cycle, cycle ∈ sorted.cycles ↔ 1 < cycle.length ∧ cycle.Pairwise graph.Older ∧
    ∀ path ∈ cycle, ∀ other, other ∈ cycle ↔ graph.Joined path other
  nodup_cycles : sorted.cycles.Nodup
  contiguous : ∀ cycle ∈ sorted.cycles, cycle <:+: sorted.evaluationOrder
  order : sorted.order = sorted.evaluationOrder.filter fun path =>
    decide (path ∉ sorted.cycles.flatten)
  levels : sorted.order = sorted.levels.flatten
  apart : ∀ level ∈ sorted.levels, ∀ one ∈ level, ∀ two ∈ level,
    ¬Relation.TransGen graph.DependsOn one two

-- Ascending nodes with all that reads them.
structure ReaderClosed (graph : Graph) (ids : List Nat) : Prop where
  consistent : graph.Consistent
  ascends : ids.Pairwise (· < ·)
  nodes : ∀ i ∈ ids, i ∈ graph.nodes
  readers : ∀ i j, graph.Reads i j → j ∈ ids → i ∈ ids

theorem ReaderClosed.nodup (h : graph.ReaderClosed ids) : ids.Nodup := h.ascends.imp Nat.ne_of_lt

theorem Consistent.readerClosed_nodeIds (h : graph.Consistent) :
    graph.ReaderClosed graph.nodeIds where
  consistent := h
  ascends := pairwise_nodeIds
  nodes _ hi := mem_nodeIds.mp hi
  readers _ _ hr _ := mem_nodeIds.mpr hr.mem

section Places

-- The path at a place in a list of ids.
def pathAt (graph : Graph) (ids : List Nat) (k : Nat) : Option Path := (ids[k]?).bind graph.path?

abbrev placeReads (graph : Graph) (ids : List Nat) : Nat → List Nat :=
  Schedule.successors (graph.adjacency ids)

theorem pathAt_eq_some_iff :
    graph.pathAt ids k = some path ↔ ∃ i, ids[k]? = some i ∧ graph.path? i = some path := by
  rw [pathAt, Option.bind_eq_some_iff]

theorem lt_of_pathAt (hp : graph.pathAt ids k = some path) : k < ids.length := by
  obtain ⟨i, hi, _⟩ := pathAt_eq_some_iff.mp hp
  exact (List.getElem?_eq_some_iff.mp hi).1

theorem lt_size (hk : graph.pathAt ids k = some path) : k < (graph.adjacency ids).size := by
  rw [size_adjacency]
  exact lt_of_pathAt hk

namespace ReaderClosed

variable (h : graph.ReaderClosed ids)

include h

theorem exists_pathAt (hk : k < ids.length) : ∃ path, graph.pathAt ids k = some path := by
  obtain ⟨path, hp⟩ := mem_nodes_iff_path.mp (h.nodes _ (List.getElem_mem hk))
  exact ⟨path, pathAt_eq_some_iff.mpr ⟨_, List.getElem?_eq_getElem hk, hp⟩⟩

theorem exists_place :
    path ∈ (graph.sortIds ids).evaluationOrder ↔ ∃ k, graph.pathAt ids k = some path := by
  rw [mem_evaluationOrder h.nodup]
  constructor
  · rintro ⟨i, hi, hp⟩
    obtain ⟨k, hk⟩ := List.mem_iff_getElem?.mp hi
    exact ⟨k, pathAt_eq_some_iff.mpr ⟨i, hk, hp⟩⟩
  · rintro ⟨k, hk⟩
    obtain ⟨i, hi, hp⟩ := pathAt_eq_some_iff.mp hk
    exact ⟨i, List.mem_of_getElem? hi, hp⟩

theorem place_inj (hk : graph.pathAt ids k = some path) (hl : graph.pathAt ids l = some path) :
    k = l := by
  obtain ⟨i, hi, hp⟩ := pathAt_eq_some_iff.mp hk
  obtain ⟨j, hj, hq⟩ := pathAt_eq_some_iff.mp hl
  obtain rfl : i = j := h.consistent.path?_inj hp hq
  exact (List.getElem?_inj (lt_of_pathAt hk) h.nodup).mp (hi.trans hj.symm)

-- Ids ascend, so earlier places have older paths.
theorem older (hk : graph.pathAt ids k = some one) (hl : graph.pathAt ids l = some two)
    (hlt : k < l) : graph.Older one two := by
  obtain ⟨i, hi, hp⟩ := pathAt_eq_some_iff.mp hk
  obtain ⟨j, hj, hq⟩ := pathAt_eq_some_iff.mp hl
  obtain ⟨hk', rfl⟩ := List.getElem?_eq_some_iff.mp hi
  obtain ⟨hl', rfl⟩ := List.getElem?_eq_some_iff.mp hj
  exact ⟨_, _, (h.consistent.id?_iff _ _).mpr hp, (h.consistent.id?_iff _ _).mpr hq,
    List.pairwise_iff_getElem.mp h.ascends k l hk' hl' hlt⟩

theorem mem_placeReads (hk : graph.pathAt ids k = some path) :
    l ∈ graph.placeReads ids k ↔ ∃ target, graph.pathAt ids l = some target ∧
      graph.DependsOn path target := by
  rw [mem_successors_adjacency h.nodup]
  obtain ⟨i, hi, hp⟩ := pathAt_eq_some_iff.mp hk
  simp only [pathAt_eq_some_iff, DependsOn, h.consistent.mem_dependencies]
  constructor
  · rintro ⟨i', j, hi', hj, hr⟩
    rw [hi] at hi'
    cases hi'
    obtain ⟨target, ht⟩ := mem_nodes_iff_path.mp (h.consistent.mem_of_reads hr)
    exact ⟨target, ⟨j, hj, ht⟩, i, j, hp, hr, ht⟩
  · rintro ⟨target, ⟨j, hj, ht⟩, i', j', hp', hr, ht'⟩
    obtain rfl : i = i' := h.consistent.path?_inj hp hp'
    obtain rfl : j = j' := h.consistent.path?_inj ht ht'
    exact ⟨i, j, hi, hj, hr⟩

theorem not_mem_placeReads_self (k : Nat) : k ∉ graph.placeReads ids k := by
  intro hk
  obtain ⟨i, j, hi, hj, hr⟩ := (mem_successors_adjacency h.nodup).mp hk
  rw [hi] at hj
  cases hj
  exact h.consistent.irreflexive i hr

-- What depends on a listed path is listed.
theorem exists_place_of_dependsOn (hl : graph.pathAt ids l = some target)
    (hd : graph.DependsOn path target) : ∃ k, graph.pathAt ids k = some path := by
  obtain ⟨i, j, hi, hr, hj⟩ := h.consistent.mem_dependencies.mp hd
  obtain ⟨j', hj', ht⟩ := pathAt_eq_some_iff.mp hl
  obtain rfl : j = j' := h.consistent.path?_inj hj ht
  obtain ⟨k, hk⟩ := List.mem_iff_getElem?.mp (h.readers i j hr (List.mem_of_getElem? hj'))
  exact ⟨k, pathAt_eq_some_iff.mpr ⟨i, hk, hi⟩⟩

-- Chains of places are chains of paths.
theorem chain_of_reaches (hk : graph.pathAt ids k = some path)
    (hr : Schedule.Reaches (graph.placeReads ids) k l) :
    ∃ target, graph.pathAt ids l = some target ∧
      Relation.ReflTransGen graph.DependsOn path target := by
  induction hr with
  | refl => exact ⟨path, hk, .refl⟩
  | tail _ hstep ih =>
      obtain ⟨middle, hmiddle, hchain⟩ := ih
      obtain ⟨target, ht, hd⟩ := (h.mem_placeReads hmiddle).mp hstep
      exact ⟨target, ht, hchain.tail hd⟩

-- The list holds a chain that ends in it, since it holds whatever reads it.
theorem reaches_of_chain (hl : graph.pathAt ids l = some target)
    (hr : Relation.ReflTransGen graph.DependsOn path target) :
    ∃ k, graph.pathAt ids k = some path ∧ Schedule.Reaches (graph.placeReads ids) k l := by
  induction hr using Relation.ReflTransGen.head_induction_on with
  | refl => exact ⟨l, hl, .refl⟩
  | @head path middle hd _ ih =>
      obtain ⟨m, hm, hchain⟩ := ih
      obtain ⟨k, hk⟩ := h.exists_place_of_dependsOn hm hd
      exact ⟨k, hk, hchain.head ((h.mem_placeReads hk).mpr ⟨middle, hm, hd⟩)⟩

theorem reaches_iff (hk : graph.pathAt ids k = some path) (hl : graph.pathAt ids l = some target) :
    Schedule.Reaches (graph.placeReads ids) k l ↔
      Relation.ReflTransGen graph.DependsOn path target := by
  constructor
  · intro hr
    obtain ⟨other, ho, hchain⟩ := h.chain_of_reaches hk hr
    rw [hl] at ho
    cases ho
    exact hchain
  · intro hr
    obtain ⟨m, hm, hreaches⟩ := h.reaches_of_chain hl hr
    rwa [h.place_inj hk hm]

theorem transGen_places (hk : graph.pathAt ids k = some path)
    (hl : graph.pathAt ids l = some target)
    (hr : Relation.TransGen graph.DependsOn path target) :
    Relation.TransGen (Schedule.Leads (graph.placeReads ids)) k l := by
  obtain ⟨middle, hd, hrest⟩ := Relation.TransGen.head'_iff.mp hr
  obtain ⟨m, hm, hreaches⟩ := h.reaches_of_chain hl hrest
  exact .head' ((h.mem_placeReads hk).mpr ⟨middle, hm, hd⟩) hreaches

end ReaderClosed

end Places

section Order

variable {unit : Schedule.Cluster}

-- The waves of some nodes.
def stages (graph : Graph) (ids : List Nat) : List (List Schedule.Cluster) :=
  Schedule.waves (graph.adjacency ids)

def unitPaths (graph : Graph) (ids : List Nat) (unit : Schedule.Cluster) : List Path :=
  unit.members.filterMap (graph.pathAt ids)

theorem evaluationOrder_stages : (graph.sortIds ids).evaluationOrder =
    (graph.stages ids).flatten.flatMap (graph.unitPaths ids) := by
  rw [evaluationOrder_sortIds, pathsAt, List.filterMap_flatMap]
  rfl

theorem cycles_stages : (graph.sortIds ids).cycles =
    ((graph.stages ids).flatten.filter (·.cyclic)).map (graph.unitPaths ids) :=
  cycles_sortIds

theorem levels_stages : (graph.sortIds ids).levels =
    ((graph.stages ids).map (Sorted.levelOf (graph.unitPaths ids))).filter fun level =>
      !level.isEmpty :=
  levels_sortIds

theorem order_stages : (graph.sortIds ids).order =
    ((graph.stages ids).flatten.filter fun unit => !unit.cyclic).flatMap
      (graph.unitPaths ids) := by
  rw [List.filter_flatten, ← List.flatMap_def, List.flatMap_assoc]
  exact order_sortIds

theorem flatMap_filter {α β : Type} {entries : List α} {list : α → List β} {pick : α → Bool}
    {keep : β → Bool} (h : ∀ entry ∈ entries, ∀ b ∈ list entry, keep b = pick entry) :
    (entries.filter pick).flatMap list = (entries.flatMap list).filter keep := by
  induction entries with
  | nil => rfl
  | cons entry rest ih =>
      have hentry := h entry List.mem_cons_self
      have hrest := ih fun other ho => h other (List.mem_cons_of_mem entry ho)
      rw [List.filter_cons, List.flatMap_cons, List.filter_append, ← hrest]
      cases hp : pick entry with
      | true =>
          have hall : (list entry).filter keep = list entry :=
            List.filter_eq_self.mpr fun b hb => (hentry b hb).trans hp
          rw [hall]
          rfl
      | false =>
          have hnone : (list entry).filter keep = [] :=
            List.filter_eq_nil_iff.mpr fun b hb => by simp [hentry b hb, hp]
          rw [hnone]
          rfl

-- If nothing is listed twice, entries can be told by what they list.
theorem mem_flatMap_filter {α β : Type} {entries : List α} {list : α → List β} {pick : α → Bool}
    (h : (entries.flatMap list).Nodup) {entry : α} (hentry : entry ∈ entries) {b : β}
    (hb : b ∈ list entry) : b ∈ (entries.filter pick).flatMap list ↔ pick entry = true := by
  constructor
  · intro hmem
    obtain ⟨other, hother, hb'⟩ := List.mem_flatMap.mp hmem
    obtain ⟨hother, hpick⟩ := List.mem_filter.mp hother
    by_contra hne
    have hsymm : Std.Symm (Function.onFun List.Disjoint list) :=
      ⟨fun _ _ hd _ hone htwo => hd htwo hone⟩
    have happart := (List.nodup_flatMap.mp h).2.forall hentry hother fun he => hne (he ▸ hpick)
    exact happart hb hb'
  · exact fun hpick => List.mem_flatMap.mpr ⟨entry, List.mem_filter.mpr ⟨hentry, hpick⟩, hb⟩

theorem exists_ne_of_older {cycle : List Path} (hlong : 1 < cycle.length)
    (holder : cycle.Pairwise graph.Older) (path : Path) : ∃ other ∈ cycle, other ≠ path := by
  match cycle, hlong with
  | one :: two :: rest, _ =>
    have hlast : two ∈ two :: rest := List.mem_cons_self
    by_cases he : one = path
    · refine ⟨two, List.mem_cons_of_mem one hlast, ?_⟩
      rintro rfl
      subst he
      exact irrefl_of graph.Older one ((List.pairwise_cons.mp holder).1 one hlast)
    · exact ⟨one, List.mem_cons_self, he⟩

-- A path on its own is joined to itself only, so what is joined to another
-- path is a node.
theorem Consistent.contains_of_joined (h : graph.Consistent) (hj : graph.Joined one two)
    (hne : one ≠ two) : graph.contains one = true := by
  rcases Relation.ReflTransGen.cases_head hj.1 with he | ⟨middle, hd, _⟩
  · exact absurd he hne
  · obtain ⟨i, _, hi, _⟩ := h.mem_dependencies.mp hd
    exact h.contains_iff.mpr ⟨i, hi⟩

namespace ReaderClosed

variable (h : graph.ReaderClosed ids)

include h

theorem staged : Schedule.Staged (graph.adjacency ids) (graph.stages ids) :=
  Schedule.staged_waves (bounded_adjacency h.nodup)

theorem length_unitPaths (hu : unit ∈ (graph.stages ids).flatten) :
    (graph.unitPaths ids unit).length = unit.members.length := by
  refine List.filterMap_length_eq_length.mpr fun k hk => ?_
  have hsize := h.staged.bounded unit hu k hk
  rw [size_adjacency] at hsize
  obtain ⟨path, hp⟩ := h.exists_pathAt hsize
  rw [hp]
  rfl

theorem exists_unit (hp : path ∈ (graph.sortIds ids).evaluationOrder) :
    ∃ unit ∈ (graph.stages ids).flatten, path ∈ graph.unitPaths ids unit := by
  obtain ⟨k, hk⟩ := h.exists_place.mp hp
  obtain ⟨unit, hu, hm⟩ := h.staged.covers k (lt_size hk)
  exact ⟨unit, hu, List.mem_filterMap.mpr ⟨k, hm, hk⟩⟩

theorem pairwise_unitPaths (hu : unit ∈ (graph.stages ids).flatten) :
    (graph.unitPaths ids unit).Pairwise graph.Older :=
  List.pairwise_filterMap.mpr ((h.staged.ascends unit hu).imp fun hlt _ hk _ hl =>
    h.older hk hl hlt)

-- A unit holds the paths that its paths depend on and that depend on them.
theorem mem_unitPaths (hu : unit ∈ (graph.stages ids).flatten)
    (hp : one ∈ graph.unitPaths ids unit) :
    two ∈ graph.unitPaths ids unit ↔ graph.Joined one two := by
  obtain ⟨k, hk, hp⟩ := List.mem_filterMap.mp hp
  constructor
  · intro hq
    obtain ⟨l, hl, hq⟩ := List.mem_filterMap.mp hq
    obtain ⟨hkl, hlk⟩ := (h.staged.strong unit hu k hk l).mp hl
    exact ⟨(h.reaches_iff hp hq).mp hkl, (h.reaches_iff hq hp).mp hlk⟩
  · rintro ⟨hthere, hback⟩
    obtain ⟨l, hq, hlk⟩ := h.reaches_of_chain hp hback
    have hl := (h.staged.strong unit hu k hk l).mpr ⟨(h.reaches_iff hp hq).mpr hthere, hlk⟩
    exact List.mem_filterMap.mpr ⟨l, hl, hq⟩

theorem cyclic_iff (hu : unit ∈ (graph.stages ids).flatten) :
    unit.cyclic = true ↔ 1 < (graph.unitPaths ids unit).length := by
  rw [h.length_unitPaths hu]
  exact h.staged.cyclic_iff h.not_mem_placeReads_self hu

-- A listed path that is joined to another is on a cycle, which holds all that
-- the two are joined to.
theorem exists_cycle (hone : one ∈ (graph.sortIds ids).evaluationOrder)
    (hj : graph.Joined one two) (hne : one ≠ two) :
    ∃ cycle ∈ (graph.sortIds ids).cycles, cycle.Pairwise graph.Older ∧
      ∀ other, other ∈ cycle ↔ graph.Joined one other := by
  obtain ⟨unit, hu, hone⟩ := h.exists_unit hone
  have htwo : two ∈ graph.unitPaths ids unit := (h.mem_unitPaths hu hone).mpr hj
  have hlong : 1 < (graph.unitPaths ids unit).length := by
    by_contra hshort
    match hpaths : graph.unitPaths ids unit with
    | [] => simp [hpaths] at hone
    | [only] =>
      rw [hpaths, List.mem_singleton] at hone htwo
      exact hne (hone.trans htwo.symm)
    | _ :: _ :: _ => simp [hpaths] at hshort
  rw [cycles_stages]
  exact ⟨_, List.mem_map_of_mem (List.mem_filter.mpr ⟨hu, (h.cyclic_iff hu).mpr hlong⟩),
    h.pairwise_unitPaths hu, fun other => h.mem_unitPaths hu hone⟩

theorem mem_cycles (cycle : List Path) :
    cycle ∈ (graph.sortIds ids).cycles ↔ (1 < cycle.length ∧ cycle.Pairwise graph.Older ∧
      ∀ path ∈ cycle, ∀ other, other ∈ cycle ↔ graph.Joined path other) ∧
        ∃ path ∈ cycle, path ∈ (graph.sortIds ids).evaluationOrder := by
  constructor
  · intro hcycle
    have hlisted : ∀ path ∈ cycle, path ∈ (graph.sortIds ids).evaluationOrder := fun path hp =>
      flatten_cycles_sublist.subset (List.mem_flatten.mpr ⟨cycle, hcycle, hp⟩)
    rw [cycles_stages] at hcycle
    obtain ⟨unit, hunit, rfl⟩ := List.mem_map.mp hcycle
    obtain ⟨hu, hcyclic⟩ := List.mem_filter.mp hunit
    have hlong := (h.cyclic_iff hu).mp hcyclic
    obtain ⟨path, hp⟩ := List.exists_mem_of_length_pos (Nat.lt_trans Nat.zero_lt_one hlong)
    exact ⟨⟨hlong, h.pairwise_unitPaths hu, fun path hp other => h.mem_unitPaths hu hp⟩,
      path, hp, hlisted path hp⟩
  · rintro ⟨⟨hlong, holder, hjoined⟩, one, hone, hlisted⟩
    obtain ⟨two, htwo, hne⟩ := exists_ne_of_older hlong holder one
    obtain ⟨found, hfound, hsorted, hmem⟩ :=
      h.exists_cycle hlisted ((hjoined one hone two).mp htwo) hne.symm
    have hsame : found = cycle :=
      hsorted.eq_of_mem_iff holder fun other => by rw [hmem, hjoined one hone]
    exact hsame ▸ hfound

theorem nodup_cycles : (graph.sortIds ids).cycles.Nodup := by
  have hflat := h.consistent.nodup_flatten_cycles h.nodup
  refine (List.nodup_flatten.mp hflat).2.imp_of_mem fun hcycle _ happart he => ?_
  subst he
  obtain ⟨_, path, hp, _⟩ := (h.mem_cycles _).mp hcycle
  exact happart hp hp

theorem before (ht : target ∈ (graph.sortIds ids).evaluationOrder)
    (hd : graph.DependsOn path target) (hn : ¬graph.Joined path target) :
    [target, path].Sublist (graph.sortIds ids).evaluationOrder := by
  obtain ⟨l, hl⟩ := h.exists_place.mp ht
  obtain ⟨k, hk⟩ := h.exists_place_of_dependsOn hl hd
  have hthere : Relation.ReflTransGen graph.DependsOn path target := .single hd
  have hplaces := h.staged.before (lt_size hk)
    ((h.reaches_iff hk hl).mpr hthere) fun hr => hn ⟨hthere, (h.reaches_iff hl hk).mp hr⟩
  have hpaths := hplaces.filterMap (graph.pathAt ids)
  have hpair : [l, k].filterMap (graph.pathAt ids) = [target, path] := by simp [hk, hl]
  rw [hpair, List.filterMap_flatMap] at hpaths
  rw [evaluationOrder_stages]
  exact hpaths

theorem order_eq_filter :
    (graph.sortIds ids).order = (graph.sortIds ids).evaluationOrder.filter fun path =>
      decide (path ∉ (graph.sortIds ids).cycles.flatten) := by
  have hnodup := h.consistent.nodup_evaluationOrder h.nodup
  have hcycles : (graph.sortIds ids).cycles.flatten =
      ((graph.stages ids).flatten.filter (·.cyclic)).flatMap (graph.unitPaths ids) := by
    rw [cycles_stages, List.flatMap_def]
  rw [evaluationOrder_stages] at hnodup ⊢
  rw [order_stages]
  refine flatMap_filter fun unit hu path hp => ?_
  simp only [hcycles, mem_flatMap_filter hnodup hu hp]
  cases unit.cyclic <;> rfl

theorem before_strictly (hd : graph.DependsOn path target) (hn : ¬graph.Joined path target)
    (hpath : path ∈ (graph.sortIds ids).order) (htarget : target ∈ (graph.sortIds ids).order) :
    [target, path].Sublist (graph.sortIds ids).order := by
  rw [h.order_eq_filter] at hpath htarget ⊢
  have hfilter := (h.before (List.mem_filter.mp htarget).1 hd hn).filter
    fun path => decide (path ∉ (graph.sortIds ids).cycles.flatten)
  have hboth : ∀ other ∈ [target, path],
      decide (other ∉ (graph.sortIds ids).cycles.flatten) = true := by
    intro other ho
    rcases List.mem_pair.mp ho with rfl | rfl
    · exact (List.mem_filter.mp htarget).2
    · exact (List.mem_filter.mp hpath).2
  rwa [List.filter_eq_self.mpr hboth] at hfilter

theorem apart {level : List Path} (hlevel : level ∈ (graph.sortIds ids).levels)
    (hone : one ∈ level) (htwo : two ∈ level) : ¬Relation.TransGen graph.DependsOn one two := by
  rw [levels_stages] at hlevel
  obtain ⟨stage, hstage, rfl⟩ := List.mem_map.mp (List.mem_filter.mp hlevel).1
  obtain ⟨first, hfirst, hone⟩ := List.mem_flatMap.mp hone
  obtain ⟨second, hsecond, htwo⟩ := List.mem_flatMap.mp htwo
  obtain ⟨hfirst, hacyclic⟩ := List.mem_filter.mp hfirst
  obtain ⟨k, hk, hone⟩ := List.mem_filterMap.mp hone
  obtain ⟨l, hl, htwo⟩ := List.mem_filterMap.mp htwo
  intro hr
  exact h.staged.apart h.not_mem_placeReads_self hstage hfirst (List.mem_filter.mp hsecond).1
    (by simpa using hacyclic) hk hl (h.transGen_places hone htwo hr)

end ReaderClosed

theorem contiguous {cycle : List Path} (hc : cycle ∈ (graph.sortIds ids).cycles) :
    cycle <:+: (graph.sortIds ids).evaluationOrder := by
  rw [cycles_stages] at hc
  obtain ⟨unit, hu, rfl⟩ := List.mem_map.mp hc
  obtain ⟨before, after, hsplit⟩ := List.append_of_mem (List.mem_filter.mp hu).1
  rw [evaluationOrder_stages, hsplit, List.flatMap_append, List.flatMap_cons, ← List.append_assoc]
  exact List.infix_append _ _ _

end Order

section All

namespace Consistent

variable (h : graph.Consistent)

include h

theorem mem_evaluationOrder_sortAll :
    path ∈ graph.sortAll.evaluationOrder ↔ graph.contains path = true := by
  rw [sortAll, Graph.mem_evaluationOrder nodup_nodeIds, h.contains_iff]
  constructor
  · rintro ⟨id, _, hp⟩
    exact ⟨id, hp⟩
  · rintro ⟨id, hp⟩
    exact ⟨id, mem_nodeIds.mpr (mem_nodes_iff_path.mpr ⟨path, hp⟩), hp⟩

-- A cycle has two members, so they are nodes.
theorem mem_cycles_sortAll (cycle : List Path) :
    cycle ∈ graph.sortAll.cycles ↔ 1 < cycle.length ∧ cycle.Pairwise graph.Older ∧
      ∀ path ∈ cycle, ∀ other, other ∈ cycle ↔ graph.Joined path other := by
  rw [sortAll, h.readerClosed_nodeIds.mem_cycles]
  refine and_iff_left_of_imp fun hcycle => ?_
  obtain ⟨hlong, holder, hjoined⟩ := hcycle
  obtain ⟨one, hone⟩ := List.exists_mem_of_length_pos (Nat.lt_trans Nat.zero_lt_one hlong)
  obtain ⟨two, htwo, hne⟩ := exists_ne_of_older hlong holder one
  exact ⟨one, hone, h.mem_evaluationOrder_sortAll.mpr
    (h.contains_of_joined ((hjoined one hone two).mp htwo) hne.symm)⟩

-- The cycles as sets are told by what depends on what.
theorem cycle_iff (members : Path → Prop) :
    (∃ cycle ∈ graph.sortAll.cycles, ∀ path, path ∈ cycle ↔ members path) ↔
      ∃ one two, one ≠ two ∧ graph.Joined one two ∧ ∀ path, members path ↔ graph.Joined one path := by
  constructor
  · rintro ⟨cycle, hcycle, hmembers⟩
    obtain ⟨hlong, holder, hjoined⟩ := (h.mem_cycles_sortAll cycle).mp hcycle
    obtain ⟨one, hone⟩ := List.exists_mem_of_length_pos (Nat.lt_trans Nat.zero_lt_one hlong)
    obtain ⟨two, htwo, hne⟩ := exists_ne_of_older hlong holder one
    exact ⟨one, two, hne.symm, (hjoined one hone two).mp htwo, fun path => by
      rw [← hmembers, hjoined one hone]⟩
  · rintro ⟨one, two, hne, hjoin, hmembers⟩
    obtain ⟨cycle, hcycle, _, hmem⟩ := h.readerClosed_nodeIds.exists_cycle
      (h.mem_evaluationOrder_sortAll.mpr (h.contains_of_joined hjoin hne)) hjoin hne
    exact ⟨cycle, hcycle, fun path => by rw [hmem, hmembers]⟩

theorem contains_of_dependsOn (hd : graph.DependsOn path target) :
    graph.contains target = true := by
  obtain ⟨_, j, _, _, hj⟩ := h.mem_dependencies.mp hd
  exact h.contains_iff.mpr ⟨j, hj⟩

end Consistent

-- Whatever has been done to a graph, its nodes are sorted.
theorem sorts_run (operations : List Operation) :
    (run operations).Sorts (run operations).sortAll := by
  have h : (run operations).Consistent := .run operations
  have hall := h.readerClosed_nodeIds
  exact {
    nodup := h.nodup_evaluationOrder hall.nodup
    mem_evaluationOrder := fun _ => h.mem_evaluationOrder_sortAll
    before := fun _ _ hd =>
      hall.before (h.mem_evaluationOrder_sortAll.mpr (h.contains_of_dependsOn hd)) hd
    before_strictly := fun _ _ => hall.before_strictly
    mem_cycles := h.mem_cycles_sortAll
    nodup_cycles := hall.nodup_cycles
    contiguous := fun _ => contiguous
    order := hall.order_eq_filter
    levels := order_eq_flatten_levels
    apart := fun _ hlevel _ hone _ htwo => hall.apart hlevel hone htwo }

end All

end Recalc.Graph
