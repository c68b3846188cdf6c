import Recalc.Proofs.Schedule.Descent

namespace Recalc.Schedule

namespace Descent

variable {next : Nat → List Nat} {descent : Descent} {v : Nat}

section Run

variable {adjacency : Array (List Nat)} {root : Nat}

-- What a step keeps, the search keeps.
theorem explore_induction {motive : Descent → Prop}
    (hstep : ∀ now, motive now → motive (now.step (successors adjacency)))
    (h : motive descent) : motive (descent.explore adjacency) := by
  induction descent using explore.induct adjacency with
  | case1 descent hdone =>
      rw [explore, dif_pos hdone]
      exact h
  | case2 descent hopen ih =>
      rw [explore, dif_neg hopen]
      exact ih (hstep descent h)

theorem frames_explore : (descent.explore adjacency).frames = [] := by
  induction descent using explore.induct adjacency with
  | case1 descent hdone => rwa [explore, dif_pos hdone]
  | case2 descent hopen ih => rwa [explore, dif_neg hopen]

theorem mem_numbers_step (hv : v ∈ descent.numbers) : v ∈ (descent.step next).numbers := by
  rcases numbers_step next descent with he | ⟨_, _, _, _, he⟩
  · rwa [he]
  · rw [he]
    exact Std.TreeMap.mem_insert.mpr (Or.inr hv)

-- A search that has met nodes of the graph alone.
structure Inside (adjacency : Array (List Nat)) (descent : Descent) : Prop where
  explored : Explored (successors adjacency) (Followed (successors adjacency) descent) descent
  small : ∀ v ∈ descent.numbers, v < adjacency.size

theorem Inside.step (hb : Bounded adjacency) (h : Inside adjacency descent) :
    Inside adjacency (descent.step (successors adjacency)) := by
  refine ⟨explored_step h.explored, fun v hv => ?_⟩
  rcases numbers_step (successors adjacency) descent with
    he | ⟨frame, hframe, w, hw, he⟩
  · exact h.small v (he ▸ hv)
  · rw [he, Std.TreeMap.mem_insert, Std.compare_eq_iff_eq] at hv
    rcases hv with rfl | hv
    · exact hb frame.node w (h.explored.rests frame hframe hw)
    · exact h.small v hv

theorem Inside.empty : Inside adjacency .empty where
  explored := {
    numbered := fun v => by simp [Descent.empty]
    small := fun v hv => absurd hv Std.TreeMap.not_mem_emptyc
    sorted := .nil
    marked := fun v => by simp [Descent.empty]
    apart := fun v hv => absurd hv List.not_mem_nil
    framed := .slnil
    layered := .nil
    rests := fun frame hframe => absurd hframe List.not_mem_nil
    descends := fun u hu => absurd hu List.not_mem_nil
    returns := fun v hv => absurd hv List.not_mem_nil
    low_le := fun u hu => absurd hu List.not_mem_nil
    attained := fun u hu => absurd hu List.not_mem_nil
    seen := fun v hv => absurd hv List.not_mem_nil
    kept := fun u hu => absurd hu List.not_mem_nil }
  small := fun v hv => absurd hv Std.TreeMap.not_mem_emptyc

-- Between two roots no frame is left, so no node is left on the stack.
theorem Inside.stack_eq_nil (h : Inside adjacency descent) (hdone : descent.frames = []) :
    descent.stack = [] := by
  refine List.eq_nil_iff_forall_not_mem.mpr fun v hv => ?_
  obtain ⟨u, hu, -⟩ := h.explored.exists_frame hv
  rw [path, hdone] at hu
  exact List.not_mem_nil hu

theorem Inside.addRoot (hb : Bounded adjacency) (hroot : root < adjacency.size)
    (h : Inside adjacency descent) (hdone : descent.frames = []) :
    Inside adjacency (Schedule.addRoot adjacency descent root) ∧
      (Schedule.addRoot adjacency descent root).frames = [] ∧
        (∀ v ∈ descent.numbers, v ∈ (Schedule.addRoot adjacency descent root).numbers) ∧
          root ∈ (Schedule.addRoot adjacency descent root).numbers := by
  unfold Schedule.addRoot
  split
  · next hmet => exact ⟨h, hdone, fun v hv => hv, hmet⟩
  · next hnew =>
    have hpath : descent.path = [] := by rw [path, hdone]; rfl
    have henter : Inside adjacency (descent.enter (successors adjacency) root) := by
      refine ⟨(h.explored.enter hnew ?_ fun v w hf => hf.1).mono fun v w => followed_enter,
        fun v hv => ?_⟩
      · rw [hpath]
        exact fun u hu => absurd hu List.not_mem_nil
      · rcases Std.TreeMap.mem_insert.mp hv with he | hv
        · exact Std.compare_eq_iff_eq.mp he ▸ hroot
        · exact h.small v hv
    have hkeeps : ∀ v ∈ (descent.enter (successors adjacency) root).numbers,
        v ∈ ((descent.enter (successors adjacency) root).explore adjacency).numbers := fun v hv =>
      explore_induction (motive := fun now => v ∈ now.numbers) (fun _ => mem_numbers_step) hv
    exact ⟨explore_induction (fun _ => Inside.step hb) henter, frames_explore,
      fun v hv => hkeeps v (Std.TreeMap.mem_insert.mpr (Or.inr hv)),
      hkeeps root Std.TreeMap.mem_insert_self⟩

-- By induction on the roots that are left.
theorem Inside.foldl_addRoot (hb : Bounded adjacency) {roots : List Nat}
    (hroots : ∀ root ∈ roots, root < adjacency.size) (h : Inside adjacency descent)
    (hdone : descent.frames = []) :
    Inside adjacency (roots.foldl (Schedule.addRoot adjacency) descent) ∧
      (roots.foldl (Schedule.addRoot adjacency) descent).frames = [] ∧
        ∀ v, v ∈ descent.numbers ∨ v ∈ roots →
          v ∈ (roots.foldl (Schedule.addRoot adjacency) descent).numbers := by
  induction roots generalizing descent with
  | nil => exact ⟨h, hdone, fun v hv => hv.resolve_right List.not_mem_nil⟩
  | cons root rest ih =>
      obtain ⟨hroot, hrest⟩ := List.forall_mem_cons.mp hroots
      obtain ⟨hnow, hdone, hkeeps, hmet⟩ := h.addRoot hb hroot hdone
      obtain ⟨hlast, hempty, hall⟩ := ih hrest hnow hdone
      refine ⟨hlast, hempty, fun v hv => hall v ?_⟩
      rcases hv with hv | hv
      · exact Or.inl (hkeeps v hv)
      · rcases List.mem_cons.mp hv with rfl | hv
        · exact Or.inl hmet
        · exact Or.inr hv

end Run

end Descent

section Components

variable {adjacency : Array (List Nat)}

-- The components of all nodes, each after all that it reaches.
theorem layered_components (h : Bounded adjacency) :
    Layered (successors adjacency) (components adjacency).reverse ∧
      ∀ v, v ∈ (components adjacency).flatten ↔ v < adjacency.size := by
  obtain ⟨hinside, hdone, hall⟩ := Descent.Inside.empty.foldl_addRoot h
    (fun root hroot => List.mem_range.mp hroot) rfl
  have hfound : (components adjacency).reverse =
      ((List.range adjacency.size).foldl (addRoot adjacency) .empty).found := by
    rw [components, List.reverse_reverse]
  have hin : ∀ v, v ∈ (components adjacency).flatten ↔
      v ∈ (components adjacency).reverse.flatten := fun v => by simp
  have hstack := hinside.stack_eq_nil hdone
  rw [hfound] at hin ⊢
  refine ⟨hinside.explored.layered, fun v => ?_⟩
  have hnumbered := hinside.explored.numbered v
  rw [hstack] at hnumbered
  rw [hin]
  constructor
  · exact fun hv => hinside.small v (hnumbered.mpr (Or.inr hv))
  · intro hv
    exact (hnumbered.mp (hall v (Or.inr (List.mem_range.mpr hv)))).resolve_left List.not_mem_nil

theorem flatten_components_perm (h : Bounded adjacency) :
    (components adjacency).reverse.flatten.Perm (List.range adjacency.size) := by
  obtain ⟨hl, hall⟩ := layered_components h
  refine (List.perm_ext_iff_of_nodup hl.nodup List.nodup_range).mpr fun v => ?_
  have hv := hall v
  simp only [List.mem_flatten, List.mem_reverse, List.mem_range] at hv ⊢
  exact hv

-- What the components of a graph have to be: the nodes that reach each other,
-- listed after all that they reach.
structure Condenses (adjacency : Array (List Nat)) (found : List (List Nat)) : Prop where
  partitions : found.flatten.Perm (List.range adjacency.size)
  nonempty : ∀ members ∈ found, members ≠ []
  ascends : ∀ members ∈ found, members.Pairwise (· < ·)
  together : ∀ v < adjacency.size, ∀ w < adjacency.size,
    (∃ members ∈ found, v ∈ members ∧ w ∈ members) ↔
      Reaches (successors adjacency) v w ∧ Reaches (successors adjacency) w v
  after : found.Pairwise fun earlier later =>
    ∀ v ∈ earlier, ∀ w ∈ later, ¬Reaches (successors adjacency) v w

-- The search finds the components of the graph.
theorem condenses_components (h : ∀ reads ∈ adjacency, ∀ w ∈ reads, w < adjacency.size) :
    Condenses adjacency (components adjacency) := by
  have hb : Bounded adjacency := bounded_of_mem h
  obtain ⟨hl, hall⟩ := layered_components hb
  exact {
    partitions := (List.reverse_perm _).symm.flatten.trans (flatten_components_perm hb)
    nonempty := fun members hm => hl.nonempty_of_mem (List.mem_reverse.mpr hm)
    ascends := fun members hm => hl.ascends_of_mem (List.mem_reverse.mpr hm)
    together := fun v hv w _ => by
      constructor
      · rintro ⟨members, hm, hv, hw⟩
        exact (hl.strong_of_mem (List.mem_reverse.mpr hm) hv w).mp hw
      · intro hr
        obtain ⟨members, hm, hv⟩ := List.mem_flatten.mp ((hall v).mpr hv)
        exact ⟨members, hm, hv, (hl.strong_of_mem (List.mem_reverse.mpr hm) hv w).mpr hr⟩
    after := List.pairwise_reverse.mp hl.pairwise_not_reaches }

-- Two loops that a bridge joins, with an edge across to a component found
-- before, a repeated edge and a node that reads itself.
theorem condenses_bridged_loops :
    let adjacency : Array (List Nat) := #[[1, 1], [2, 4], [0, 3], [3], [5, 3], [4]]
    (∀ reads ∈ adjacency, ∀ w ∈ reads, w < adjacency.size) ∧
      components adjacency = [[3], [4, 5], [0, 1, 2]] ∧
      Condenses adjacency (components adjacency) := by
  intro adjacency
  have h : ∀ reads ∈ adjacency, ∀ w ∈ reads, w < adjacency.size := by decide
  exact ⟨h, by decide +kernel, condenses_components h⟩

end Components

end Recalc.Schedule
