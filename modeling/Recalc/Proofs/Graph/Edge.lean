import Recalc.Proofs.Graph.Relations

namespace Recalc.Graph

variable {graph : Graph}

section Link

-- The edge that linking asks for may be there: two different nodes.
def Linkable (graph : Graph) (dependent dependency : Nat) : Prop :=
  dependent ≠ dependency ∧ dependent ∈ graph.nodes ∧ dependency ∈ graph.nodes

theorem link_of_linkable {dependent dependency : Nat} (h : graph.Linkable dependent dependency) :
    graph.link dependent dependency =
      ((graph.update dependent (.addDependency dependency)).update dependency
        (.addDependent dependent), !graph.hasEdge dependent dependency) := by
  refine if_neg ?_
  rintro (he | hi | hj)
  · exact h.1 he
  · exact hi h.2.1
  · exact hj h.2.2

theorem link_of_not_linkable {dependent dependency : Nat}
    (h : ¬graph.Linkable dependent dependency) :
    graph.link dependent dependency = (graph, false) := by
  refine if_pos ?_
  simpa only [Linkable, ne_eq, not_and_or, not_not] using h

theorem sameNodes_link (dependent dependency : Nat) :
    SameNodes graph (graph.link dependent dependency).1 := by
  by_cases h : graph.Linkable dependent dependency
  · rw [link_of_linkable h]
    exact ⟨rfl, rfl, fun id => by simp⟩
  · rw [link_of_not_linkable h]
    exact .refl graph

theorem sameWaiting_link (dependent dependency : Nat) :
    SameWaiting graph (graph.link dependent dependency).1 := by
  by_cases h : graph.Linkable dependent dependency
  · rw [link_of_linkable h]
    exact ⟨rfl, rfl⟩
  · rw [link_of_not_linkable h]
    exact ⟨rfl, rfl⟩

theorem reads_link {dependent dependency i j : Nat} :
    (graph.link dependent dependency).1.Reads i j ↔
      graph.Reads i j ∨ i = dependent ∧ j = dependency ∧ graph.Linkable dependent dependency := by
  by_cases h : graph.Linkable dependent dependency
  · rw [link_of_linkable h]
    simp [reads_addDependency, h, h.2.1]
  · simp [link_of_not_linkable h, h]

theorem isRead_link {dependent dependency i j : Nat} :
    (graph.link dependent dependency).1.IsRead j i ↔
      graph.IsRead j i ∨ i = dependent ∧ j = dependency ∧ graph.Linkable dependent dependency := by
  by_cases h : graph.Linkable dependent dependency
  · rw [link_of_linkable h]
    simp [isRead_addDependent, mem_nodes_update, h, h.2.2, and_comm]
  · simp [link_of_not_linkable h, h]

theorem mirrored_link {dependent dependency : Nat} (h : graph.Mirrored) :
    (graph.link dependent dependency).1.Mirrored :=
  fun i j => by rw [reads_link, isRead_link, h]

theorem hasEdge_iff {dependent dependency : Nat} :
    graph.hasEdge dependent dependency = true ↔ graph.Reads dependent dependency := by
  simp [hasEdge, Reads, Option.any_eq_true]

-- Linking reports a new edge exactly if there is one.
theorem link_added_iff {dependent dependency : Nat} :
    (graph.link dependent dependency).2 = true ↔
      graph.Linkable dependent dependency ∧ ¬graph.Reads dependent dependency := by
  by_cases h : graph.Linkable dependent dependency
  · rw [link_of_linkable h, Bool.not_eq_true', ← Bool.not_eq_true, hasEdge_iff]
    simp [h]
  · simp [link_of_not_linkable h, h]

theorem sameNodes_unlink (dependent dependency : Nat) :
    SameNodes graph (graph.unlink dependent dependency) :=
  ⟨rfl, rfl, fun id => by simp [unlink]⟩

theorem sameWaiting_unlink (dependent dependency : Nat) :
    SameWaiting graph (graph.unlink dependent dependency) := ⟨rfl, rfl⟩

theorem reads_unlink {dependent dependency i j : Nat} :
    (graph.unlink dependent dependency).Reads i j ↔
      graph.Reads i j ∧ ¬(i = dependent ∧ j = dependency) := by
  rw [unlink, reads_removeDependent, reads_removeDependency]

theorem isRead_unlink {dependent dependency i j : Nat} :
    (graph.unlink dependent dependency).IsRead j i ↔
      graph.IsRead j i ∧ ¬(i = dependent ∧ j = dependency) := by
  rw [unlink, isRead_removeDependent, isRead_removeDependency, and_comm (a := j = dependency)]

theorem mirrored_unlink {dependent dependency : Nat} (h : graph.Mirrored) :
    (graph.unlink dependent dependency).Mirrored :=
  fun i j => by rw [reads_unlink, isRead_unlink, h]

theorem relinked_link (dependent dependency : Nat) :
    Relinked graph (graph.link dependent dependency).1 :=
  ⟨sameNodes_link _ _, sameWaiting_link _ _, mirrored_link⟩

theorem relinked_unlink (dependent dependency : Nat) :
    Relinked graph (graph.unlink dependent dependency) :=
  ⟨sameNodes_unlink _ _, sameWaiting_unlink _ _, mirrored_unlink⟩

end Link

section Waiting

variable {target other : Path} {dependent i : Nat} {targets : OrderedSet Path}

theorem sameLive_addWaiter (target : Path) (dependent : Nat) :
    SameLive graph (graph.addWaiter target dependent) := ⟨rfl, rfl, rfl⟩

theorem sameLive_removeWaiter (target : Path) (dependent : Nat) :
    SameLive graph (graph.removeWaiter target dependent) := by
  unfold removeWaiter
  split <;> exact ⟨rfl, rfl, rfl⟩

theorem sameLive_putPending (dependent : Nat) (targets : OrderedSet Path) :
    SameLive graph (graph.putPending dependent targets) := ⟨rfl, rfl, rfl⟩

theorem awaits_addWaiter :
    (graph.addWaiter target dependent).Awaits i other ↔ graph.Awaits i other := Iff.rfl

theorem awaits_removeWaiter :
    (graph.removeWaiter target dependent).Awaits i other ↔ graph.Awaits i other := by
  unfold removeWaiter
  split <;> rfl

theorem isAwaited_addWaiter :
    (graph.addWaiter target dependent).IsAwaited other i ↔
      graph.IsAwaited other i ∨ other = target ∧ i = dependent := by
  simp only [IsAwaited, waitersAt, addWaiter, Std.TreeMap.getD_insert, Std.compare_eq_iff_eq]
  by_cases h : target = other
  · subst h; simp
  · simp [h, Ne.symm h]

theorem isAwaited_removeWaiter :
    (graph.removeWaiter target dependent).IsAwaited other i ↔
      graph.IsAwaited other i ∧ ¬(other = target ∧ i = dependent) := by
  unfold removeWaiter
  split
  · next h =>
    refine ⟨fun hi => ⟨hi, ?_⟩, And.left⟩
    rintro ⟨rfl, rfl⟩
    simp [IsAwaited, waitersAt, Std.TreeMap.getD_eq_getD_getElem?, h] at hi
  · next waiters h =>
    have hd : graph.waitersAt target = waiters := by
      simp [waitersAt, Std.TreeMap.getD_eq_getD_getElem?, h]
    by_cases he : target = other
    · subst he
      simp only [IsAwaited, hd, true_and, ← ne_eq, ← OrderedSet.mem_erase]
      simp only [waitersAt]
      split
      · next hempty =>
        simp [OrderedSet.not_mem_of_isEmpty hempty]
      · simp
    · simp only [IsAwaited, waitersAt]
      split <;> simp [Std.TreeMap.getD_erase, Std.TreeMap.getD_insert, he, Ne.symm he]

theorem awaits_putPending :
    (graph.putPending dependent targets).Awaits i other ↔
      if i = dependent then other ∈ targets else graph.Awaits i other := by
  unfold Awaits pendingAt putPending
  by_cases h : i = dependent
  · subst h
    rw [if_pos rfl]
    dsimp only
    split
    · next hempty =>
      simp [OrderedSet.not_mem_of_isEmpty hempty]
    · simp
  · rw [if_neg h]
    dsimp only
    split <;> simp [Std.TreeMap.getD_erase, Std.TreeMap.getD_insert, Ne.symm h]

theorem isAwaited_putPending :
    (graph.putPending dependent targets).IsAwaited other i ↔ graph.IsAwaited other i := Iff.rfl

theorem tight_addWaiter (h : graph.Tight) : (graph.addWaiter target dependent).Tight := by
  refine ⟨h.pending, fun other waiters hw => ?_⟩
  simp only [addWaiter, Std.TreeMap.getElem?_insert, Std.compare_eq_iff_eq] at hw
  split at hw
  · cases hw
    have hm : dependent ∈ (graph.waiting.getD target ∅).insert dependent :=
      OrderedSet.mem_insert.mpr (Or.inr rfl)
    exact List.isEmpty_eq_false_iff_exists_mem.mpr ⟨dependent, hm⟩
  · exact h.waiting other waiters hw

theorem tight_removeWaiter (h : graph.Tight) : (graph.removeWaiter target dependent).Tight := by
  unfold removeWaiter
  split
  · exact h
  · refine ⟨h.pending, fun other waiters hw => ?_⟩
    dsimp only at hw
    split at hw
    · simp only [Std.TreeMap.getElem?_erase] at hw
      split at hw
      · cases hw
      · exact h.waiting other waiters hw
    · next hne =>
      simp only [Std.TreeMap.getElem?_insert] at hw
      split at hw
      · cases hw
        exact Bool.eq_false_iff.mpr hne
      · exact h.waiting other waiters hw

theorem tight_putPending (h : graph.Tight) : (graph.putPending dependent targets).Tight := by
  refine ⟨fun i found hf => ?_, h.waiting⟩
  simp only [putPending] at hf
  split at hf
  · simp only [Std.TreeMap.getElem?_erase] at hf
    split at hf
    · cases hf
    · exact h.pending i found hf
  · next hne =>
    simp only [Std.TreeMap.getElem?_insert] at hf
    split at hf
    · cases hf
      exact Bool.eq_false_iff.mpr hne
    · exact h.pending i found hf

end Waiting

section Park

variable {dependent i : Nat} {target other : Path}

theorem sameLive_park (dependent : Nat) (target : Path) :
    SameLive graph (graph.park dependent target) := ⟨rfl, rfl, rfl⟩

theorem awaits_park :
    (graph.park dependent target).Awaits i other ↔
      graph.Awaits i other ∨ i = dependent ∧ other = target := by
  rw [park, awaits_putPending]
  by_cases h : i = dependent
  · subst h; simp [Awaits]
  · simp [h, awaits_addWaiter]

theorem isAwaited_park :
    (graph.park dependent target).IsAwaited other i ↔
      graph.IsAwaited other i ∨ i = dependent ∧ other = target := by
  rw [park, isAwaited_putPending, isAwaited_addWaiter, and_comm]

theorem queued_park (h : graph.Queued) : (graph.park dependent target).Queued :=
  fun i other => by rw [awaits_park, isAwaited_park, h]

theorem tight_park (h : graph.Tight) : (graph.park dependent target).Tight :=
  tight_putPending (tight_addWaiter h)

end Park

section WaitFor

variable {dependent i : Nat} {target : Path} {targets : OrderedSet Path}

theorem sameLive_foldl {α : Type} (step : Graph → α → Graph)
    (hstep : ∀ graph x, SameLive graph (step graph x)) (xs : List α) :
    SameLive graph (xs.foldl step graph) :=
  List.foldlRecOn xs step (motive := fun now => SameLive graph now) (.refl graph)
    fun now h x _ => h.trans (hstep now x)

theorem awaits_foldl {α : Type} (step : Graph → α → Graph)
    (hstep : ∀ graph x i t, (step graph x).Awaits i t ↔ graph.Awaits i t) (xs : List α) :
    (xs.foldl step graph).Awaits i target ↔ graph.Awaits i target :=
  List.foldlRecOn xs step (motive := fun now => now.Awaits i target ↔ graph.Awaits i target) Iff.rfl
    fun now h x _ => (hstep now x i target).trans h

theorem isAwaited_foldl_removeWaiter (gone : List Path) :
    (gone.foldl (fun graph target => graph.removeWaiter target dependent) graph).IsAwaited target i ↔
      graph.IsAwaited target i ∧ ¬(target ∈ gone ∧ i = dependent) := by
  induction gone generalizing graph with
  | nil => simp
  | cons other rest ih =>
      rw [List.foldl_cons, ih, isAwaited_removeWaiter, List.mem_cons]
      tauto

theorem isAwaited_foldl_addWaiter (come : List Path) :
    (come.foldl (fun graph target => graph.addWaiter target dependent) graph).IsAwaited target i ↔
      graph.IsAwaited target i ∨ target ∈ come ∧ i = dependent := by
  induction come generalizing graph with
  | nil => simp
  | cons other rest ih =>
      rw [List.foldl_cons, ih, isAwaited_addWaiter, List.mem_cons]
      tauto

theorem sameLive_waitFor (dependent : Nat) (targets : OrderedSet Path) :
    SameLive graph (graph.waitFor dependent targets) :=
  ((sameLive_foldl _ (fun _ _ => sameLive_removeWaiter _ _) _).trans
    (sameLive_foldl _ (fun _ _ => sameLive_addWaiter _ _) _)).trans (sameLive_putPending _ _)

theorem awaits_waitFor :
    (graph.waitFor dependent targets).Awaits i target ↔
      if i = dependent then target ∈ targets else graph.Awaits i target := by
  rw [waitFor, awaits_putPending, awaits_foldl _ (fun _ _ _ _ => awaits_addWaiter),
    awaits_foldl _ (fun _ _ _ _ => awaits_removeWaiter)]

-- The dependent leaves the queues of what it no longer waits for, which are
-- all its queues if the two tables agreed before.
theorem isAwaited_waitFor
    (h : ∀ target, graph.IsAwaited target dependent ↔ graph.Awaits dependent target) :
    (graph.waitFor dependent targets).IsAwaited target i ↔
      if i = dependent then target ∈ targets else graph.IsAwaited target i := by
  rw [waitFor, isAwaited_putPending, isAwaited_foldl_addWaiter, isAwaited_foldl_removeWaiter,
    OrderedSet.mem_toList, OrderedSet.mem_difference]
  by_cases hi : i = dependent
  · subst hi
    rw [h, Awaits]
    simp only [and_true, if_true]
    tauto
  · simp [hi]

theorem queued_waitFor (h : graph.Queued) : (graph.waitFor dependent targets).Queued :=
  fun i target => by
    rw [awaits_waitFor, isAwaited_waitFor fun target => (h dependent target).symm, h]

theorem tight_waitFor (h : graph.Tight) : (graph.waitFor dependent targets).Tight := by
  refine tight_putPending ?_
  refine List.foldlRecOn _ _ (motive := Tight) ?_ fun _ hnow _ _ => tight_addWaiter hnow
  exact List.foldlRecOn _ _ (motive := Tight) h fun _ hnow _ _ => tight_removeWaiter hnow

end WaitFor

section Promote

variable {path : Path} {id i j : Nat} {target : Path}

theorem sameNodes_promoteOne (dependent : Nat) :
    SameNodes graph (promoteOne path id graph dependent) :=
  (sameLive_putPending _ _).sameNodes.trans (sameNodes_link _ _)

theorem sameNodes_foldl_promoteOne (waiters : List Nat) :
    SameNodes graph (waiters.foldl (promoteOne path id) graph) :=
  List.foldlRecOn waiters _ (motive := fun now => SameNodes graph now) (.refl graph)
    fun _ h _ _ => h.trans (sameNodes_promoteOne _)

theorem linkable_congr {second : Graph} (h : SameNodes graph second) {dependent dependency : Nat} :
    second.Linkable dependent dependency ↔ graph.Linkable dependent dependency := by
  simp only [Linkable, h.mem]

theorem reads_foldl_promoteOne (waiters : List Nat) :
    (waiters.foldl (promoteOne path id) graph).Reads i j ↔
      graph.Reads i j ∨ i ∈ waiters ∧ j = id ∧ graph.Linkable i id := by
  induction waiters generalizing graph with
  | nil => simp
  | cons dependent rest ih =>
      have hs : SameLive graph (graph.putPending dependent
        ((graph.pendingAt dependent).erase path)) := sameLive_putPending _ _
      rw [List.foldl_cons, ih, linkable_congr (sameNodes_promoteOne dependent), promoteOne,
        reads_link, hs.reads, linkable_congr hs.sameNodes, List.mem_cons]
      constructor
      · rintro ((hold | ⟨rfl, rfl, hl⟩) | ⟨hi, rfl, hl⟩)
        · exact Or.inl hold
        · exact Or.inr ⟨Or.inl rfl, rfl, hl⟩
        · exact Or.inr ⟨Or.inr hi, rfl, hl⟩
      · rintro (hold | ⟨rfl | hi, rfl, hl⟩)
        · exact Or.inl (Or.inl hold)
        · exact Or.inl (Or.inr ⟨rfl, rfl, hl⟩)
        · exact Or.inr ⟨hi, rfl, hl⟩

theorem mirrored_foldl_promoteOne (waiters : List Nat) (h : graph.Mirrored) :
    (waiters.foldl (promoteOne path id) graph).Mirrored :=
  List.foldlRecOn waiters _ (motive := Mirrored) h
    fun _ hnow _ _ => mirrored_link ((sameLive_putPending _ _).mirrored hnow)

theorem awaits_foldl_promoteOne (waiters : List Nat) :
    (waiters.foldl (promoteOne path id) graph).Awaits i target ↔
      graph.Awaits i target ∧ ¬(i ∈ waiters ∧ target = path) := by
  induction waiters generalizing graph with
  | nil => simp
  | cons dependent rest ih =>
      rw [List.foldl_cons, ih, promoteOne, (sameWaiting_link _ _).awaits, awaits_putPending,
        List.mem_cons]
      by_cases hi : i = dependent
      · subst hi
        rw [if_pos rfl, OrderedSet.mem_erase]
        simp only [Awaits, true_or, true_and]
        tauto
      · simp [hi]

theorem isAwaited_foldl_promoteOne (waiters : List Nat) :
    (waiters.foldl (promoteOne path id) graph).IsAwaited target i ↔ graph.IsAwaited target i := by
  induction waiters generalizing graph with
  | nil => rfl
  | cons dependent rest ih =>
      rw [List.foldl_cons, ih, promoteOne, (sameWaiting_link _ _).isAwaited, isAwaited_putPending]

theorem tight_foldl_promoteOne (waiters : List Nat) (h : graph.Tight) :
    (waiters.foldl (promoteOne path id) graph).Tight :=
  List.foldlRecOn waiters _ (motive := Tight) h
    fun _ hnow _ _ => (sameWaiting_link _ _).tight (tight_putPending hnow)

-- The graph in which nobody waits for a path any more.
def dropWaiters (graph : Graph) (path : Path) : Graph :=
  { graph with waiting := graph.waiting.erase path }

theorem sameLive_dropWaiters (path : Path) : SameLive graph (graph.dropWaiters path) :=
  ⟨rfl, rfl, rfl⟩

theorem isAwaited_dropWaiters :
    (graph.dropWaiters path).IsAwaited target i ↔ graph.IsAwaited target i ∧ target ≠ path := by
  simp only [IsAwaited, waitersAt, dropWaiters, Std.TreeMap.getD_erase, Std.compare_eq_iff_eq]
  by_cases h : path = target
  · subst h; simp
  · simp [h, Ne.symm h]

theorem tight_dropWaiters (h : graph.Tight) : (graph.dropWaiters path).Tight := by
  refine ⟨h.pending, fun other waiters hw => ?_⟩
  simp only [dropWaiters, Std.TreeMap.getElem?_erase] at hw
  split at hw
  · cases hw
  · exact h.waiting other waiters hw

-- Without an entry there is nobody to promote, so both cases are one.
theorem promote_eq (graph : Graph) (path : Path) (id : Nat) :
    graph.promote path id = graph ∧ graph.waitersAt path = ∅ ∨
      graph.promote path id =
        (graph.waitersAt path).toList.foldl (promoteOne path id) (graph.dropWaiters path) := by
  unfold promote
  split
  · next h => exact Or.inl ⟨rfl, by simp [waitersAt, Std.TreeMap.getD_eq_getD_getElem?, h]⟩
  · next waiters h =>
    have hw : graph.waitersAt path = waiters := by
      simp [waitersAt, Std.TreeMap.getD_eq_getD_getElem?, h]
    rw [hw]
    exact Or.inr rfl

theorem sameNodes_promote (path : Path) (id : Nat) : SameNodes graph (graph.promote path id) := by
  rcases promote_eq graph path id with ⟨h, _⟩ | h
  · rw [h]
    exact .refl graph
  · rw [h]
    exact (sameLive_dropWaiters path).sameNodes.trans (sameNodes_foldl_promoteOne _)

theorem reads_promote :
    (graph.promote path id).Reads i j ↔
      graph.Reads i j ∨ graph.IsAwaited path i ∧ j = id ∧ graph.Linkable i id := by
  rcases promote_eq graph path id with ⟨h, hnone⟩ | h
  · simp [h, IsAwaited, hnone]
  · rw [h, reads_foldl_promoteOne, (sameLive_dropWaiters path).reads,
      linkable_congr (sameLive_dropWaiters path).sameNodes]
    rfl

theorem mirrored_promote (h : graph.Mirrored) : (graph.promote path id).Mirrored := by
  rcases promote_eq graph path id with ⟨he, _⟩ | he
  · rw [he]
    exact h
  · rw [he]
    exact mirrored_foldl_promoteOne _ ((sameLive_dropWaiters path).mirrored h)

theorem awaits_promote :
    (graph.promote path id).Awaits i target ↔
      graph.Awaits i target ∧ ¬(graph.IsAwaited path i ∧ target = path) := by
  rcases promote_eq graph path id with ⟨h, hnone⟩ | h
  · simp [h, IsAwaited, hnone]
  · rw [h, awaits_foldl_promoteOne]
    rfl

theorem isAwaited_promote :
    (graph.promote path id).IsAwaited target i ↔ graph.IsAwaited target i ∧ target ≠ path := by
  rcases promote_eq graph path id with ⟨h, hnone⟩ | h
  · rw [h]
    refine ⟨fun hi => ⟨hi, ?_⟩, And.left⟩
    rintro rfl
    simp [IsAwaited, hnone] at hi
  · rw [h, isAwaited_foldl_promoteOne, isAwaited_dropWaiters]

theorem tight_promote (h : graph.Tight) : (graph.promote path id).Tight := by
  rcases promote_eq graph path id with ⟨he, _⟩ | he
  · rw [he]
    exact h
  · rw [he]
    exact tight_foldl_promoteOne _ (tight_dropWaiters h)

end Promote

end Recalc.Graph
