import Mathlib.Data.List.Pairwise
import Recalc.Proofs.Schedule.Condensation
import Recalc.Schedule.Level

namespace Recalc.Schedule

section Units

variable {next : Nat → List Nat} {found : List (List Nat)} {members second : List Nat} {v : Nat}

theorem headD_mem (h : members ≠ []) : members.headD 0 ∈ members := by
  cases members with
  | nil => exact absurd rfl h
  | cons v _ => exact List.mem_cons_self

-- The components of a graph, each known by any of its members.
structure Parted (found : List (List Nat)) : Prop where
  nonempty : ∀ members ∈ found, members ≠ []
  nodup : found.flatten.Nodup

theorem Parted.tail (h : Parted (members :: found)) : Parted found where
  nonempty _ hm := h.nonempty _ (List.mem_cons_of_mem members hm)
  nodup := (List.nodup_append.mp h.nodup).2.1

theorem Parted.eq_of_mem (h : Parted found) (hm : members ∈ found) (hs : second ∈ found)
    (hv : v ∈ members) (hw : v ∈ second) : members = second := by
  by_contra hne
  have hsymm : Std.Symm (List.Disjoint (α := Nat)) := ⟨fun _ _ hd _ hv hw => hd hw hv⟩
  exact (List.nodup_flatten.mp h.nodup).2.forall hm hs hne hv hw

theorem Parted.headD_inj (h : Parted found) (hm : members ∈ found) (hs : second ∈ found)
    (he : members.headD 0 = second.headD 0) : members = second :=
  h.eq_of_mem hm hs (headD_mem (h.nonempty members hm)) (he ▸ headD_mem (h.nonempty second hs))

theorem getElem?_foldl_insert (table : Std.TreeMap Nat Nat) (members : List Nat) (unit v : Nat) :
    (members.foldl (fun table node => table.insert node unit) table)[v]? =
      if v ∈ members then some unit else table[v]? := by
  induction members generalizing table with
  | nil => simp
  | cons node rest ih =>
      rw [List.foldl_cons, ih, Std.TreeMap.getElem?_insert]
      by_cases hv : v ∈ rest
      · simp [hv]
      · by_cases hn : node = v
        · simp [hn]
        · simp [hv, hn, Ne.symm hn]

theorem Parted.getElem?_unitsOf (h : Parted found) (hm : members ∈ found) (hv : v ∈ members) :
    (unitsOf found)[v]? = some (members.headD 0) := by
  induction found with
  | nil => exact absurd hm List.not_mem_nil
  | cons first rest ih =>
      rw [unitsOf, List.foldr_cons, getElem?_foldl_insert]
      rcases List.mem_cons.mp hm with rfl | hrest
      · exact if_pos hv
      · have hout : v ∉ first := fun hin =>
          (List.nodup_append.mp h.nodup).2.2 v hin v (List.mem_flatten.mpr ⟨members, hrest, hv⟩) rfl
        rw [if_neg hout]
        exact ih h.tail hrest

theorem Parted.getElem?_byUnit (h : Parted found) (hm : members ∈ found) :
    (byUnit found)[members.headD 0]? = some members := by
  induction found with
  | nil => exact absurd hm List.not_mem_nil
  | cons first rest ih =>
      rw [byUnit, List.foldr_cons, Std.TreeMap.getElem?_insert]
      by_cases he : first.headD 0 = members.headD 0
      · rw [h.headD_inj List.mem_cons_self hm he]
        simp
      · have hne : compare (first.headD 0) (members.headD 0) ≠ .eq := fun hc =>
          he (Std.compare_eq_iff_eq.mp hc)
        rw [if_neg hne]
        rcases List.mem_cons.mp hm with rfl | hrest
        · exact absurd rfl he
        · exact ih h.tail hrest

end Units

section Edges

variable {adjacency : Array (List Nat)} {unit : Nat → Nat} {edges : List (Nat × Nat)}
  {wave : List Nat} {u t : Nat}

theorem lt_size_of_mem_successors {v w : Nat} (h : w ∈ successors adjacency v) :
    v < adjacency.size := by
  by_contra hn
  simp [successors, hn] at h

theorem mem_crossings : (u, t) ∈ crossings adjacency unit ↔
    ∃ v, ∃ w ∈ successors adjacency v, unit v = u ∧ unit w = t ∧ u ≠ t := by
  simp only [crossings, List.mem_flatMap, List.mem_range, List.mem_filter, List.mem_map,
    Prod.mk.injEq, bne_iff_ne]
  constructor
  · rintro ⟨v, _, ⟨w, hw, hu, ht⟩, hne⟩
    exact ⟨v, w, hw, hu, ht, hne⟩
  · rintro ⟨v, w, hw, hu, ht, hne⟩
    exact ⟨v, lt_size_of_mem_successors hw, ⟨w, hw, hu, ht⟩, hne⟩

theorem getD_counts (edges : List (Nat × Nat)) (u : Nat) :
    (counts edges).getD u 0 = edges.countP fun edge => edge.1 == u := by
  induction edges with
  | nil => simp [counts]
  | cons edge rest ih =>
      rw [counts, List.foldr_cons, Std.TreeMap.getD_insert, List.countP_cons, ← ih, counts]
      by_cases hu : edge.1 = u
      · simp [hu]
      · simp [hu]

theorem count_getD_sources (edges : List (Nat × Nat)) (u t : Nat) :
    ((sources edges).getD t []).count u = edges.countP fun edge => edge.1 == u && edge.2 == t := by
  induction edges with
  | nil => simp [sources]
  | cons edge rest ih =>
      rw [sources, List.foldr_cons, Std.TreeMap.getD_insert, List.countP_cons, ← ih, sources]
      by_cases ht : edge.2 = t
      · simp [ht, List.count_cons]
      · simp [ht]

theorem countP_eq_add {α : Type} {one two both : α → Bool} {entries : List α}
    (h : ∀ entry ∈ entries, (both entry).toNat = (one entry).toNat + (two entry).toNat) :
    entries.countP both = entries.countP one + entries.countP two := by
  induction entries with
  | nil => rfl
  | cons entry rest ih =>
      obtain ⟨hentry, hrest⟩ := List.forall_mem_cons.mp h
      have hcons : ∀ pick : α → Bool,
          (entry :: rest).countP pick = rest.countP pick + (pick entry).toNat := fun pick => by
        rw [List.countP_cons]
        cases pick entry <;> rfl
      rw [hcons, hcons, hcons, hentry, ih hrest]
      omega

-- The edges to some units, each unit listed once.
theorem count_flatMap_sources (edges : List (Nat × Nat)) (u : Nat) (hn : wave.Nodup) :
    (wave.flatMap fun t => (sources edges).getD t []).count u =
      edges.countP fun edge => edge.1 == u && wave.contains edge.2 := by
  induction wave with
  | nil => simp
  | cons t rest ih =>
      obtain ⟨ht, hrest⟩ := List.nodup_cons.mp hn
      rw [List.flatMap_cons, List.count_append, ih hrest, count_getD_sources]
      refine (countP_eq_add fun edge _ => ?_).symm
      by_cases he : edge.2 = t
      · simp [he, ht]
      · simp [he]

end Edges

namespace Drain

theorem left_settle (drain : Drain) (u v : Nat) :
    (drain.settle u).left v = drain.left v - if u = v then 1 else 0 := by
  unfold settle
  split
  next h =>
    split
    next he => rw [← he, h]
    next => rfl
  next h =>
    rw [left] at h
    simp only [left, Std.TreeMap.getD_erase]
    by_cases he : u = v
    · simp [← he, h]
    · simp [he]
  next count h =>
    rw [left] at h
    simp only [left, Std.TreeMap.getD_insert]
    by_cases he : u = v
    · simp [← he, h]
    · simp [he]

theorem mem_ready_settle (drain : Drain) (u v : Nat) :
    v ∈ (drain.settle u).ready ↔ v ∈ drain.ready ∨ u = v ∧ drain.left v = 1 := by
  unfold settle
  split
  next h =>
    refine (or_iff_left ?_).symm
    rintro ⟨rfl, hone⟩
    omega
  next h =>
    rw [Std.TreeSet.mem_insert, Std.compare_eq_iff_eq, or_comm]
    refine or_congr_right (and_iff_left_of_imp ?_).symm
    rintro rfl
    exact h
  next count h =>
    refine (or_iff_left ?_).symm
    rintro ⟨rfl, hone⟩
    omega

-- By induction on the edges, each with what is left before it.
theorem left_foldl_settle (units : List Nat) (drain : Drain) (v : Nat) :
    (units.foldl settle drain).left v = drain.left v - units.count v := by
  induction units generalizing drain with
  | nil => rfl
  | cons u rest ih =>
      rw [List.foldl_cons, ih, left_settle, List.count_cons, Nat.sub_sub, Nat.add_comm]
      simp only [beq_iff_eq]

theorem mem_ready_foldl_settle (units : List Nat) (drain : Drain) (v : Nat) :
    v ∈ (units.foldl settle drain).ready ↔
      v ∈ drain.ready ∨ 0 < drain.left v ∧ drain.left v ≤ units.count v := by
  induction units generalizing drain with
  | nil =>
      refine (or_iff_left ?_).symm
      rintro ⟨hpos, hle⟩
      rw [List.count_nil] at hle
      omega
  | cons u rest ih =>
      rw [List.foldl_cons, ih, mem_ready_settle, left_settle, List.count_cons, or_assoc]
      refine or_congr_right ?_
      by_cases he : u = v
      · simp only [he, true_and, if_true, beq_self_eq_true]
        omega
      · simp [he]

theorem nodup_ready (drain : Drain) : drain.ready.toList.Nodup :=
  Std.TreeSet.distinct_toList.imp fun hne he => hne (Std.compare_eq_iff_eq.mpr he)

end Drain

-- The edges of a unit that lead to units not taken yet.
def openEdges (edges : List (Nat × Nat)) (taken : List Nat) (u : Nat) : Nat :=
  edges.countP fun edge => edge.1 == u && !taken.contains edge.2

theorem openEdges_eq_zero_iff {edges : List (Nat × Nat)} {taken : List Nat} {u : Nat} :
    openEdges edges taken u = 0 ↔ ∀ edge ∈ edges, edge.1 = u → edge.2 ∈ taken := by
  rw [openEdges, List.countP_eq_zero]
  refine forall₂_congr fun edge _ => ?_
  simp

-- A state of the counters when some units have been taken.
structure Drained (units : List Nat) (edges : List (Nat × Nat)) (taken : List Nat)
    (drain : Drain) : Prop where
  closed : ∀ edge ∈ edges, edge.1 ∈ taken → edge.2 ∈ taken
  left : ∀ u, drain.left u = openEdges edges taken u
  ready : ∀ u, u ∈ drain.ready ↔ u ∈ units ∧ u ∉ taken ∧ openEdges edges taken u = 0

namespace Drained

variable {units taken : List Nat} {edges : List (Nat × Nat)} {drain : Drain}

theorem start (units : List Nat) (edges : List (Nat × Nat)) :
    Drained units edges [] (Drain.start units edges) := by
  have hall : ∀ u, (counts edges).getD u 0 = openEdges edges [] u := fun u => by
    rw [getD_counts, openEdges]
    simp
  refine ⟨fun _ _ h => absurd h List.not_mem_nil, hall, fun u => ?_⟩
  simp only [Drain.start, Std.TreeSet.mem_ofList, List.contains_iff_mem, List.mem_filter, hall,
    beq_iff_eq, List.not_mem_nil, not_false_eq_true, true_and]

-- The open edges of a unit are those that the wave settles and those that stay
-- open after it, so no edge is settled twice.
theorem left_eq_add (h : Drained units edges taken drain) (u : Nat) :
    drain.left u = (drain.ready.toList.flatMap fun t => (sources edges).getD t []).count u +
      openEdges edges (drain.ready.toList ++ taken) u := by
  rw [h.left, count_flatMap_sources edges u drain.nodup_ready]
  refine countP_eq_add fun edge _ => ?_
  have hapart : edge.2 ∈ drain.ready.toList → edge.2 ∉ taken := fun hin =>
    ((h.ready _).mp (Std.TreeSet.mem_toList.mp hin)).2.1
  by_cases hin : edge.2 ∈ drain.ready.toList
  · simp [hin, hapart hin]
  · simp [hin]

-- Whatever is ready is taken, and the edges that lead to it are settled.
theorem advance (h : Drained units edges taken drain)
    (hsources : ∀ edge ∈ edges, edge.1 ∈ units) :
    Drained units edges (drain.ready.toList ++ taken) (drain.advance (sources edges)) := by
  have hnow : ∀ u, ({ drain with ready := ∅ } : Drain).left u = drain.left u := fun _ => rfl
  refine ⟨fun edge hedge hin => ?_, fun u => ?_, fun u => ?_⟩
  · rw [List.mem_append] at hin ⊢
    rcases hin with hin | hin
    · have hopen := ((h.ready _).mp (Std.TreeSet.mem_toList.mp hin)).2.2
      exact Or.inr (openEdges_eq_zero_iff.mp hopen edge hedge rfl)
    · exact Or.inr (h.closed edge hedge hin)
  · rw [Drain.advance, Drain.left_foldl_settle, hnow, h.left_eq_add, Nat.add_sub_cancel_left]
  · rw [Drain.advance, Drain.mem_ready_foldl_settle, or_iff_right Std.TreeSet.not_mem_emptyc, hnow,
      List.mem_append, Std.TreeSet.mem_toList, h.ready, ← h.left]
    have hadd := h.left_eq_add u
    constructor
    · rintro ⟨hpos, hle⟩
      have hsome : ¬openEdges edges taken u = 0 := by
        rw [← h.left]
        omega
      obtain ⟨edge, hedge, rfl, hout⟩ : ∃ edge ∈ edges, edge.1 = u ∧ edge.2 ∉ taken := by
        simpa [openEdges_eq_zero_iff] using hsome
      refine ⟨hsources edge hedge, ?_, by omega⟩
      rintro (⟨_, _, hzero⟩ | hin)
      · omega
      · exact hout (h.closed edge hedge hin)
    · rintro ⟨hu, hnot, hzero⟩
      have hpos : drain.left u ≠ 0 := fun hnone =>
        hnot (Or.inl ⟨hu, fun hin => hnot (Or.inr hin), hnone⟩)
      omega

end Drained

end Recalc.Schedule
