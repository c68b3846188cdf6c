import Mathlib.Data.List.Flatten
import Recalc.Proofs.Schedule.Level

namespace Recalc.Schedule

section Waves

variable {units others taken done : List Nat} {edges more : List (Nat × Nat)}
  {waves : List (List Nat)} {drain : Drain} {u t : Nat}

-- A unit that has not been taken and waits for taken units alone.
def Free (units : List Nat) (edges : List (Nat × Nat)) (taken : List Nat) (u : Nat) : Prop :=
  u ∈ units ∧ u ∉ taken ∧ ∀ edge ∈ edges, edge.1 = u → edge.2 ∈ taken

theorem free_congr (hunits : ∀ u, u ∈ units ↔ u ∈ others)
    (hedges : ∀ edge, edge ∈ edges ↔ edge ∈ more) (htaken : ∀ u, u ∈ taken ↔ u ∈ done) (u : Nat) :
    Free units edges taken u ↔ Free others more done u := by
  simp only [Free, hunits, htaken, hedges]

-- Waves of all units that are free, in ascending order, until no unit is.
inductive Waved (units : List Nat) (edges : List (Nat × Nat)) : List Nat → List (List Nat) → Prop
  | nil {taken : List Nat} (stuck : ∀ u, ¬Free units edges taken u) : Waved units edges taken []
  | cons {taken wave : List Nat} {later : List (List Nat)}
      (nonempty : wave ≠ [])
      (ascends : wave.Pairwise (· < ·))
      (free : ∀ u, u ∈ wave ↔ Free units edges taken u)
      (rest : Waved units edges (wave ++ taken) later) : Waved units edges taken (wave :: later)

theorem Drained.mem_ready (h : Drained units edges taken drain) (u : Nat) :
    u ∈ drain.ready ↔ Free units edges taken u := by
  rw [h.ready, openEdges_eq_zero_iff, Free]

theorem Drained.waved (h : Drained units edges taken drain)
    (hsources : ∀ edge ∈ edges, edge.1 ∈ units) :
    Waved units edges taken (drain.waves (sources edges)) := by
  induction drain using Drain.waves.induct (sources edges) generalizing taken with
  | case1 drain hdone =>
      rw [Drain.waves, if_pos hdone]
      refine .nil fun u hu => ?_
      exact Std.TreeSet.isEmpty_iff_forall_not_mem.mp hdone u ((h.mem_ready u).mpr hu)
  | case2 drain hopen ih =>
      rw [Drain.waves, if_neg hopen]
      refine .cons (fun hnil => hopen ?_) (Std.TreeSet.ordered_toList.imp Nat.compare_eq_lt.mp)
        (fun u => ?_) (ih (h.advance hsources))
      · rw [← Std.TreeSet.isEmpty_toList, hnil]
        rfl
      · rw [Std.TreeSet.mem_toList, h.mem_ready]

namespace Waved

theorem mem_flatten (h : Waved units edges taken waves) (hu : u ∈ waves.flatten) :
    u ∈ units ∧ u ∉ taken := by
  induction h with
  | nil => exact absurd hu List.not_mem_nil
  | cons _ _ free _ ih =>
      rcases List.mem_append.mp hu with hu | hu
      · exact ⟨((free u).mp hu).1, ((free u).mp hu).2.1⟩
      · exact ⟨(ih hu).1, fun hin => (ih hu).2 (List.mem_append_right _ hin)⟩

theorem nodup (h : Waved units edges taken waves) : waves.flatten.Nodup := by
  induction h with
  | nil => exact List.nodup_nil
  | cons _ ascends _ rest ih =>
      rw [List.flatten_cons, List.nodup_append]
      refine ⟨ascends.imp Nat.ne_of_lt, ih, fun u hu v hv => ?_⟩
      rintro rfl
      exact (rest.mem_flatten hv).2 (List.mem_append_left _ hu)

-- What a unit waits for is in an earlier wave.
theorem mem_before {before after : List (List Nat)} {wave : List Nat}
    (h : Waved units edges taken (before ++ wave :: after)) (hu : u ∈ wave)
    (hedge : (u, t) ∈ edges) : t ∈ taken ∨ t ∈ before.flatten := by
  induction before generalizing taken with
  | nil =>
      cases h with
      | cons _ _ free _ => exact Or.inl (((free u).mp hu).2.2 (u, t) hedge rfl)
  | cons first before ih =>
      cases h with
      | cons _ _ _ rest =>
          rw [List.flatten_cons, List.mem_append]
          rcases ih rest with hin | hin
          · exact (List.mem_append.mp hin).elim (fun hin => Or.inr (Or.inl hin)) Or.inl
          · exact Or.inr (Or.inr hin)

theorem unique {also : List (List Nat)} (h : Waved units edges taken waves)
    (k : Waved others more done also) (hunits : ∀ u, u ∈ units ↔ u ∈ others)
    (hedges : ∀ edge, edge ∈ edges ↔ edge ∈ more) (htaken : ∀ u, u ∈ taken ↔ u ∈ done) :
    waves = also := by
  induction h generalizing done also with
  | nil stuck =>
      cases k with
      | nil => rfl
      | @cons _ wave _ nonempty _ free _ =>
          obtain ⟨u, hu⟩ := List.exists_mem_of_ne_nil wave nonempty
          exact absurd ((free_congr hunits hedges htaken u).mpr ((free u).mp hu)) (stuck u)
  | @cons taken wave _ nonempty ascends free _ ih =>
      have hwave : ∀ u, u ∈ wave ↔ Free others more done u := fun u =>
        (free u).trans (free_congr hunits hedges htaken u)
      cases k with
      | nil stuck =>
          obtain ⟨u, hu⟩ := List.exists_mem_of_ne_nil wave nonempty
          exact absurd ((hwave u).mp hu) (stuck u)
      | @cons _ second _ _ ascends' free' rest' =>
          obtain rfl : wave = second :=
            ascends.eq_of_mem_iff ascends' fun u => by rw [hwave, free']
          rw [ih rest' fun u => by rw [List.mem_append, List.mem_append, htaken]]

-- If there are no loops of units, all of them are taken.
theorem complete (h : Waved units edges taken waves)
    (hloops : ∀ taken, (∀ u, ¬Free units edges taken u) → ∀ u ∈ units, u ∈ taken) :
    ∀ u ∈ units, u ∈ taken ∨ u ∈ waves.flatten := by
  induction h with
  | nil stuck => exact fun u hu => Or.inl (hloops _ stuck u hu)
  | cons _ _ _ _ ih =>
      intro u hu
      rw [List.flatten_cons, List.mem_append]
      rcases ih u hu with hin | hin
      · exact (List.mem_append.mp hin).elim (fun hin => Or.inr (Or.inl hin)) Or.inl
      · exact Or.inr (Or.inr hin)

end Waved

end Waves

-- Components can be proved about from those that they lead to.
theorem Layered.induction {next : Nat → List Nat} {found : List (List Nat)}
    {motive : List Nat → Prop} (h : Layered next found)
    (hstep : ∀ members ∈ found, (∀ v ∈ members, ∀ w ∈ next v, w ∉ members →
      ∀ other ∈ found, w ∈ other → motive other) → motive members) :
    ∀ members ∈ found, motive members := by
  induction h with
  | nil => exact fun members hm => absurd hm List.not_mem_nil
  | @cons first found _ _ _ fresh _ rest ih =>
      have hrest : ∀ members ∈ found, motive members := by
        refine ih fun members hm hbelow => ?_
        refine hstep members (List.mem_cons_of_mem first hm) fun v hv w hw hout other ho hin => ?_
        -- What a component leads to has been found before it.
        have hflat : w ∈ found.flatten :=
          rest.closed v (List.mem_flatten.mpr ⟨members, hm, hv⟩) w hw
        rcases List.mem_cons.mp ho with rfl | ho
        · exact absurd hflat (fresh w hin)
        · exact hbelow v hv w hw hout other ho hin
      intro members hm
      rcases List.mem_cons.mp hm with rfl | hm
      · refine hstep members List.mem_cons_self fun v _ w _ hout other ho hin => ?_
        rcases List.mem_cons.mp ho with rfl | ho
        · exact absurd hin hout
        · exact hrest other ho
      · exact hrest members hm

section Units

variable {adjacency : Array (List Nat)} {members : List Nat} {v w u : Nat}

def units (adjacency : Array (List Nat)) : List Nat := (components adjacency).map (·.headD 0)

def unitAt (adjacency : Array (List Nat)) (v : Nat) : Nat :=
  (unitsOf (components adjacency)).getD v 0

def unitEdges (adjacency : Array (List Nat)) : List (Nat × Nat) :=
  crossings adjacency (unitAt adjacency)

def unitWaves (adjacency : Array (List Nat)) : List (List Nat) :=
  (Drain.start (units adjacency) (unitEdges adjacency)).waves (sources (unitEdges adjacency))

theorem waves_eq_map (adjacency : Array (List Nat)) : waves adjacency = (unitWaves adjacency).map
    fun wave => wave.map (clusterOf adjacency (byUnit (components adjacency))) := rfl

theorem parted_components (h : Bounded adjacency) : Parted (components adjacency) where
  nonempty _ hm := (layered_components h).1.nonempty_of_mem (List.mem_reverse.mpr hm)
  nodup := (List.reverse_perm _).flatten.nodup_iff.mp (layered_components h).1.nodup

theorem exists_component (h : Bounded adjacency) (hv : v < adjacency.size) :
    ∃ members ∈ components adjacency, v ∈ members :=
  List.mem_flatten.mp (((layered_components h).2 v).mpr hv)

theorem unitAt_eq (h : Bounded adjacency) (hm : members ∈ components adjacency)
    (hv : v ∈ members) : unitAt adjacency v = members.headD 0 := by
  rw [unitAt, Std.TreeMap.getD_eq_getD_getElem?, (parted_components h).getElem?_unitsOf hm hv]
  rfl

theorem mem_of_unitAt (h : Bounded adjacency) (hm : members ∈ components adjacency)
    (hv : v < adjacency.size) (he : unitAt adjacency v = members.headD 0) : v ∈ members := by
  obtain ⟨other, ho, hin⟩ := exists_component h hv
  rw [unitAt_eq h ho hin] at he
  exact (parted_components h).headD_inj ho hm he ▸ hin

theorem mem_units_of_edge (h : Bounded adjacency) :
    ∀ edge ∈ unitEdges adjacency, edge.1 ∈ units adjacency := by
  intro edge hedge
  obtain ⟨v, w, hw, hv, _, _⟩ := mem_crossings.mp hedge
  obtain ⟨members, hm, hin⟩ := exists_component h (lt_size_of_mem_successors hw)
  exact List.mem_map.mpr ⟨members, hm, by rw [← hv, unitAt_eq h hm hin]⟩

theorem waved_unitWaves (h : Bounded adjacency) :
    Waved (units adjacency) (unitEdges adjacency) [] (unitWaves adjacency) :=
  (Drained.start _ _).waved (mem_units_of_edge h)

-- Nothing is stranded. If no unit is free, each component has been taken once
-- those that it leads to have been.
theorem mem_flatten_unitWaves (h : Bounded adjacency) :
    u ∈ (unitWaves adjacency).flatten ↔ u ∈ units adjacency := by
  refine ⟨fun hu => ((waved_unitWaves h).mem_flatten hu).1, fun hu => ?_⟩
  refine ((waved_unitWaves h).complete ?_ u hu).resolve_left List.not_mem_nil
  intro taken hnone u hu
  obtain ⟨members, hm, rfl⟩ := List.mem_map.mp hu
  refine (layered_components h).1.induction (motive := fun members => members.headD 0 ∈ taken)
    (fun members hm hbelow => ?_) members (List.mem_reverse.mpr hm)
  rw [List.mem_reverse] at hm
  by_contra hout
  refine hnone _ ⟨List.mem_map_of_mem hm, hout, fun edge hedge hfrom => ?_⟩
  obtain ⟨v, w, hw, hv, ht, hne⟩ := mem_crossings.mp hedge
  obtain ⟨other, ho, hin⟩ := exists_component h (h v w hw)
  have hv : v ∈ members := mem_of_unitAt h hm (lt_size_of_mem_successors hw) (hv.trans hfrom)
  have hleaves : w ∉ members := fun hin => hne (by rw [hfrom, ← ht, unitAt_eq h hm hin])
  rw [← ht, unitAt_eq h ho hin]
  exact hbelow v hv w hw hleaves other (List.mem_reverse.mpr ho) hin

theorem Parted.nodup_map_headD {found : List (List Nat)} (h : Parted found) :
    (found.map (·.headD 0)).Nodup := by
  refine h.nodup.sublist ?_
  induction found with
  | nil => exact .slnil
  | cons members rest ih =>
      have hfirst := headD_mem (h.nonempty members List.mem_cons_self)
      exact (List.singleton_sublist.mpr hfirst).append (ih h.tail)

theorem clusterOf_headD (h : Bounded adjacency) (hm : members ∈ components adjacency) :
    clusterOf adjacency (byUnit (components adjacency)) (members.headD 0) =
      ⟨members, isCyclic adjacency members⟩ := by
  have hget : (byUnit (components adjacency)).getD (members.headD 0) [] = members := by
    rw [Std.TreeMap.getD_eq_getD_getElem?, (parted_components h).getElem?_byUnit hm]
    rfl
  rw [clusterOf, hget]

-- The waves hold every component once.
theorem flatten_waves_perm (h : Bounded adjacency) : (waves adjacency).flatten.Perm
    ((components adjacency).map fun members => ⟨members, isCyclic adjacency members⟩) := by
  have hperm : (unitWaves adjacency).flatten.Perm (units adjacency) :=
    (List.perm_ext_iff_of_nodup (waved_unitWaves h).nodup
      (parted_components h).nodup_map_headD).mpr fun u => mem_flatten_unitWaves h
  have hclusters := hperm.map (clusterOf adjacency (byUnit (components adjacency)))
  have heach : (units adjacency).map (clusterOf adjacency (byUnit (components adjacency))) =
      (components adjacency).map fun members => ⟨members, isCyclic adjacency members⟩ := by
    rw [units, List.map_map]
    exact List.map_congr_left fun members hm => clusterOf_headD h hm
  rwa [heach, List.map_flatten, ← waves_eq_map] at hclusters

theorem mem_flatten_waves {unit : Cluster} (h : Bounded adjacency) :
    unit ∈ (waves adjacency).flatten ↔
      ∃ members ∈ components adjacency, ⟨members, isCyclic adjacency members⟩ = unit := by
  rw [(flatten_waves_perm h).mem_iff, List.mem_map]

-- The waves hold every node once.
theorem members_perm_range (h : Bounded adjacency) :
    ((waves adjacency).flatten.flatMap Cluster.members).Perm (List.range adjacency.size) := by
  have hmembers := (flatten_waves_perm h).flatMap_right Cluster.members
  rw [List.flatMap_map, List.flatMap_id'] at hmembers
  exact hmembers.trans ((List.reverse_perm _).symm.flatten.trans (flatten_components_perm h))

end Units

section Congruence

variable {adjacency same : Array (List Nat)} (h : Bounded adjacency) (hs : Bounded same)
  (hsize : adjacency.size = same.size)
  (he : ∀ v w, w ∈ successors adjacency v ↔ w ∈ successors same v)

include h hs hsize he

theorem mem_components_congr (members : List Nat) :
    members ∈ components adjacency ↔ members ∈ components same := by
  obtain ⟨hl, hall⟩ := layered_components h
  obtain ⟨ks, kall⟩ := layered_components hs
  rw [← List.mem_reverse, hl.mem_congr ks he fun v => ?_, List.mem_reverse]
  rw [(List.reverse_perm _).flatten.mem_iff, (List.reverse_perm _).flatten.mem_iff, hall, kall,
    hsize]

theorem unitAt_congr {v : Nat} (hv : v < adjacency.size) : unitAt adjacency v = unitAt same v := by
  obtain ⟨members, hm, hin⟩ := exists_component h hv
  rw [unitAt_eq h hm hin, unitAt_eq hs ((mem_components_congr h hs hsize he members).mp hm) hin]

theorem unitWaves_congr : unitWaves adjacency = unitWaves same := by
  refine (waved_unitWaves h).unique (waved_unitWaves hs) (fun u => ?_) (fun (u, t) => ?_)
    fun _ => Iff.rfl
  · simp only [units, List.mem_map, mem_components_congr h hs hsize he]
  · rw [unitEdges, unitEdges, mem_crossings, mem_crossings]
    refine exists_congr fun v => exists_congr fun w => ?_
    rw [← he]
    refine and_congr_right fun hw => ?_
    rw [unitAt_congr h hs hsize he (lt_size_of_mem_successors hw),
      unitAt_congr h hs hsize he (h v w hw)]

-- Only the edges count, not the order in which they are listed.
theorem waves_congr : waves adjacency = waves same := by
  rw [waves_eq_map, waves_eq_map, ← unitWaves_congr h hs hsize he]
  refine List.map_congr_left fun wave hwave => List.map_congr_left fun u hu => ?_
  obtain ⟨members, hm, rfl⟩ := List.mem_map.mp
    ((mem_flatten_unitWaves h).mp (List.mem_flatten.mpr ⟨wave, hwave, hu⟩))
  have hcyclic : isCyclic adjacency members = isCyclic same members := by
    unfold isCyclic
    congr 1
    rw [Bool.eq_iff_iff, List.contains_iff_mem, List.contains_iff_mem, he]
  rw [clusterOf_headD h hm,
    clusterOf_headD hs ((mem_components_congr h hs hsize he members).mp hm), hcyclic]

end Congruence

section Stages

variable {adjacency : Array (List Nat)} {stages : List (List Cluster)} {one two unit : Cluster}
  {v w : Nat}

-- Units in waves: the components of a graph, each once and after all that it
-- reads outside of itself.
structure Staged (adjacency : Array (List Nat)) (stages : List (List Cluster)) : Prop where
  covers : ∀ v < adjacency.size, ∃ unit ∈ stages.flatten, v ∈ unit.members
  bounded : ∀ unit ∈ stages.flatten, ∀ v ∈ unit.members, v < adjacency.size
  nonempty : ∀ unit ∈ stages.flatten, unit.members ≠ []
  nodup : (stages.flatten.flatMap Cluster.members).Nodup
  strong : ∀ unit ∈ stages.flatten, ∀ v ∈ unit.members, ∀ w, w ∈ unit.members ↔
    Reaches (successors adjacency) v w ∧ Reaches (successors adjacency) w v
  ascends : ∀ unit ∈ stages.flatten, unit.members.Pairwise (· < ·)
  cyclic : ∀ unit ∈ stages.flatten, unit.cyclic = isCyclic adjacency unit.members
  settled : ∀ before stage after, stages = before ++ stage :: after → ∀ unit ∈ stage,
    ∀ v ∈ unit.members, ∀ w ∈ successors adjacency v, w ∉ unit.members →
      ∃ other ∈ before.flatten, w ∈ other.members

theorem settled_waves (h : Bounded adjacency) {before after : List (List Cluster)}
    {stage : List Cluster} (hsplit : waves adjacency = before ++ stage :: after)
    (hunit : unit ∈ stage) (hv : v ∈ unit.members) (hw : w ∈ successors adjacency v)
    (hout : w ∉ unit.members) : ∃ other ∈ before.flatten, w ∈ other.members := by
  rw [waves_eq_map, List.map_eq_append_iff] at hsplit
  obtain ⟨earlier, rest, hwaves, rfl, hrest⟩ := hsplit
  obtain ⟨wave, later, rfl, rfl, -⟩ := List.map_eq_cons_iff.mp hrest
  obtain ⟨u, hu, rfl⟩ := List.mem_map.mp hunit
  have hwaved := waved_unitWaves h
  have hin : u ∈ (unitWaves adjacency).flatten := by simp [hwaves, hu]
  obtain ⟨members, hm, rfl⟩ := List.mem_map.mp ((mem_flatten_unitWaves h).mp hin)
  obtain ⟨second, hs, hw'⟩ := exists_component h (h v w hw)
  rw [clusterOf_headD h hm] at hv hout
  -- The edge leads from one unit to another.
  have hedge : (members.headD 0, second.headD 0) ∈ unitEdges adjacency := by
    refine mem_crossings.mpr ⟨v, w, hw, unitAt_eq h hm hv, unitAt_eq h hs hw', fun he => hout ?_⟩
    rwa [(parted_components h).headD_inj hm hs he]
  rw [hwaves] at hwaved
  have hbefore := (hwaved.mem_before hu hedge).resolve_left List.not_mem_nil
  refine ⟨_, by rw [← List.map_flatten]; exact List.mem_map_of_mem hbefore, ?_⟩
  rw [clusterOf_headD h hs]
  exact hw'

theorem staged_waves (h : Bounded adjacency) : Staged adjacency (waves adjacency) := by
  obtain ⟨hl, hall⟩ := layered_components h
  constructor
  case covers =>
    intro v hv
    obtain ⟨members, hm, hin⟩ := exists_component h hv
    exact ⟨_, (mem_flatten_waves h).mpr ⟨members, hm, rfl⟩, hin⟩
  case bounded =>
    intro unit hu v hv
    obtain ⟨members, hm, rfl⟩ := (mem_flatten_waves h).mp hu
    exact (hall v).mp (List.mem_flatten.mpr ⟨members, hm, hv⟩)
  case nonempty =>
    intro unit hu
    obtain ⟨members, hm, rfl⟩ := (mem_flatten_waves h).mp hu
    exact (parted_components h).nonempty members hm
  case nodup => exact (members_perm_range h).nodup_iff.mpr List.nodup_range
  case strong =>
    intro unit hu v hv
    obtain ⟨members, hm, rfl⟩ := (mem_flatten_waves h).mp hu
    exact hl.strong_of_mem (List.mem_reverse.mpr hm) hv
  case ascends =>
    intro unit hu
    obtain ⟨members, hm, rfl⟩ := (mem_flatten_waves h).mp hu
    exact hl.ascends_of_mem (List.mem_reverse.mpr hm)
  case cyclic =>
    intro unit hu
    obtain ⟨members, _, rfl⟩ := (mem_flatten_waves h).mp hu
    rfl
  case settled =>
    intro before stage after hsplit unit hunit v hv w hw hout
    exact settled_waves h hsplit hunit hv hw hout

namespace Staged

variable (h : Staged adjacency stages)

include h

-- What a unit reaches outside of itself is in an earlier stage.
theorem mem_before {before after : List (List Cluster)} {stage : List Cluster}
    (hsplit : stages = before ++ stage :: after) (hunit : unit ∈ stage) (hv : v ∈ unit.members)
    (hr : Reaches (successors adjacency) v w) :
    w ∈ unit.members ∨ ∃ other ∈ before.flatten, w ∈ other.members := by
  induction hr with
  | refl => exact Or.inl hv
  | @tail x w _ hstep ih =>
      rcases ih with hx | ⟨other, ho, hx⟩
      · by_cases hw : w ∈ unit.members
        · exact Or.inl hw
        · exact Or.inr (h.settled before stage after hsplit unit hunit x hx w hstep hw)
      · by_cases hw : w ∈ other.members
        · exact Or.inr ⟨other, ho, hw⟩
        · -- The step leads on from an earlier stage to one before it.
          obtain ⟨earlier, hearlier, hin⟩ := List.mem_flatten.mp ho
          obtain ⟨first, last, rfl⟩ := List.append_of_mem hearlier
          have hagain : stages = first ++ earlier :: (last ++ stage :: after) := by
            rw [hsplit, List.append_assoc, List.cons_append]
          obtain ⟨another, ha, hw⟩ := h.settled first earlier _ hagain other hin x hx w hstep hw
          refine Or.inr ⟨another, ?_, hw⟩
          rw [List.flatten_append]
          exact List.mem_append_left _ ha

-- What a node reaches comes before it, unless it reaches the node in turn.
theorem before (hv : v < adjacency.size) (hr : Reaches (successors adjacency) v w)
    (hn : ¬Reaches (successors adjacency) w v) :
    [w, v].Sublist (stages.flatten.flatMap Cluster.members) := by
  obtain ⟨one, hone, hv⟩ := h.covers v hv
  obtain ⟨stage, hstage, hin⟩ := List.mem_flatten.mp hone
  obtain ⟨earlier, later, hsplit⟩ := List.append_of_mem hstage
  have hout : w ∉ one.members := fun hw => hn ((h.strong one hone v hv w).mp hw).2
  obtain ⟨two, htwo, hw⟩ := (h.mem_before hsplit hin hv hr).resolve_left hout
  have hunits : [two, one].Sublist stages.flatten := by
    rw [hsplit, List.flatten_append, List.flatten_cons]
    exact (List.singleton_sublist.mpr htwo).append
      (List.singleton_sublist.mpr (List.mem_append_left _ hin))
  have hmembers : [w, v].Sublist ([two, one].flatMap Cluster.members) := by
    simp only [List.flatMap_cons, List.flatMap_nil, List.append_nil]
    exact (List.singleton_sublist.mpr hw).append (List.singleton_sublist.mpr hv)
  exact hmembers.trans (hunits.flatMap Cluster.members)

variable (hloop : ∀ v, v ∉ successors adjacency v)

include hloop

theorem cyclic_iff (hu : unit ∈ stages.flatten) :
    unit.cyclic = true ↔ 1 < unit.members.length := by
  rw [h.cyclic unit hu, isCyclic, Bool.or_eq_true, decide_eq_true_iff]
  exact or_iff_left fun hself => hloop _ (List.contains_iff_mem.mp hself)

-- No path leads from one acyclic unit of a stage to another or back to it.
theorem apart {stage : List Cluster} (hstage : stage ∈ stages) (hone : one ∈ stage)
    (htwo : two ∈ stage) (hacyclic : one.cyclic = false) (hv : v ∈ one.members)
    (hw : w ∈ two.members) : ¬Relation.TransGen (Leads (successors adjacency)) v w := by
  intro hr
  have hin : one ∈ stages.flatten := List.mem_flatten.mpr ⟨stage, hstage, hone⟩
  obtain ⟨earlier, later, hsplit⟩ := List.append_of_mem hstage
  rcases h.mem_before hsplit hone hv hr.to_reflTransGen with hback | ⟨other, ho, hw'⟩
  · -- The first step leads to another member of the unit, which has only one.
    obtain ⟨x, hstep, hrest⟩ := Relation.TransGen.head'_iff.mp hr
    have hx : x ∈ one.members := (h.strong one hin v hv x).mpr
      ⟨.single hstep, hrest.trans ((h.strong one hin v hv w).mp hback).2⟩
    have hne : v ≠ x := by
      rintro rfl
      exact hloop v hstep
    have hshort : ¬1 < one.members.length := by
      rw [← h.cyclic_iff hloop hin, hacyclic]
      exact Bool.false_ne_true
    obtain ⟨only, honly⟩ : ∃ only, one.members = [only] := by
      have := List.length_pos_of_mem hv
      exact List.length_eq_one_iff.mp (by omega)
    rw [honly, List.mem_singleton] at hv hx
    exact hne (hv.trans hx.symm)
  · -- No node is in two stages.
    have hnodup := h.nodup
    rw [hsplit, List.flatten_append, List.flatten_cons, List.flatMap_append, List.flatMap_append,
      List.nodup_append] at hnodup
    exact hnodup.2.2 w (List.mem_flatMap.mpr ⟨other, ho, hw'⟩) w
      (List.mem_append_left _ (List.mem_flatMap.mpr ⟨two, htwo, hw⟩)) rfl

end Staged

end Stages

end Recalc.Schedule
