import Recalc.Proofs.Graph.History

namespace Recalc.Graph

structure Drift (seeded : Path → Prop) (first second : Graph) : Prop where
  next : first.nextId ≤ second.nextId
  -- No id is used again.
  old : ∀ id label, id < first.nextId → second.label? id = some label →
    first.label? id = some label
  node : ∀ id path kind, second.label? id = some (path, kind) → ¬seeded path →
    first.label? id = some (path, kind)
  keeps : ∀ i j path, second.path? i = some path → ¬seeded path → first.Reads i j →
    second.Reads i j
  gains : ∀ i j path, second.path? i = some path → ¬seeded path → second.Reads i j →
    first.Reads i j ∨ second.isStructural i j = true ∨
      ∃ target, second.path? j = some target ∧ seeded target

variable {graph first second third : Graph} {path : Path} {kind : NodeKind} {i j : Nat}
  {seeded one two : Path → Prop}

namespace Drift

theorem refl (graph : Graph) : Drift seeded graph graph :=
  ⟨Nat.le_refl _, fun _ _ _ h => h, fun _ _ _ h _ => h, fun _ _ _ _ _ h => h,
    fun _ _ _ _ _ h => Or.inl h⟩

theorem mono (h : Drift one first second)
    (hm : ∀ id path, second.path? id = some path → one path → two path) :
    Drift two first second where
  next := h.next
  old := h.old
  node id path kind hl hn := h.node id path kind hl (hn ∘ hm id path (path?_of_label hl))
  keeps i j path hp hn := h.keeps i j path hp (hn ∘ hm i path hp)
  gains i j path hp hn hr := by
    rcases h.gains i j path hp (hn ∘ hm i path hp) hr with hold | hs | ⟨target, ht, hone⟩
    · exact Or.inl hold
    · exact Or.inr (Or.inl hs)
    · exact Or.inr (Or.inr ⟨target, ht, hm j target ht hone⟩)

-- A node of both graphs has one path.
theorem path?_of_mem (h : Drift seeded first second) (hc : first.Consistent)
    (hi : i ∈ first.nodes) (hp : second.path? i = some path) : first.path? i = some path := by
  obtain ⟨kind, hl⟩ := path?_eq_some_iff.mp hp
  exact path?_of_label (h.old i _ (hc.below i hi) hl)

-- What is seeded at first need only be seeded in the end if it is still a
-- node.
theorem trans (h : Drift one first second) (k : Drift two second third) (hs : second.Consistent)
    (ht : third.Consistent) (hm : ∀ id path, third.path? id = some path → one path → two path) :
    Drift two first third where
  next := Nat.le_trans h.next k.next
  old id label hid hl := h.old id label hid (k.old id label (Nat.lt_of_lt_of_le hid h.next) hl)
  node id path kind hl hn :=
    h.node id path kind (k.node id path kind hl hn) (hn ∘ hm id path (path?_of_label hl))
  keeps i j path hp hn hr := by
    obtain ⟨kind, hl⟩ := path?_eq_some_iff.mp hp
    have hp' : second.path? i = some path := path?_of_label (k.node i path kind hl hn)
    exact k.keeps i j path hp hn (h.keeps i j path hp' (hn ∘ hm i path hp) hr)
  gains i j path hp hn hr := by
    obtain ⟨target, hj⟩ := mem_nodes_iff_path.mp (ht.mem_of_reads hr)
    rcases k.gains i j path hp hn hr with hsecond | hstruct | hseed
    · -- The edge was there before the last step, and so were its two nodes.
      have hi' : second.path? i = some path := k.path?_of_mem hs hsecond.mem hp
      have hj' : second.path? j = some target := k.path?_of_mem hs (hs.mem_of_reads hsecond) hj
      rcases h.gains i j path hi' (hn ∘ hm i path hp) hsecond with hfirst | hstruct | hseed
      · exact Or.inl hfirst
      · obtain ⟨above, below, ha, hb, hchild⟩ := isStructural_iff.mp hstruct
        obtain rfl : path = above := Option.some_inj.mp (hi'.symm.trans ha)
        obtain rfl : target = below := Option.some_inj.mp (hj'.symm.trans hb)
        exact Or.inr (Or.inl (isStructural_iff.mpr ⟨path, target, hp, hj, hchild⟩))
      · obtain ⟨found, hf, hone⟩ := hseed
        obtain rfl : target = found := Option.some_inj.mp (hj'.symm.trans hf)
        exact Or.inr (Or.inr ⟨target, hj, hm j target hj hone⟩)
    · exact Or.inr (Or.inl hstruct)
    · exact Or.inr (Or.inr hseed)

end Drift

section Grow

theorem Consistent.drift_insertNode (h : graph.Consistent) :
    Drift (· = path) graph (graph.insertNode path kind) where
  next := by
    rw [nextId_insertNode]
    exact Nat.le_succ _
  old id label hid hl := by
    rwa [label?_insertNode, if_neg (Nat.ne_of_lt hid)] at hl
  node id other kind hl hn := by
    rw [label?_insertNode] at hl
    split at hl
    · cases hl
      exact absurd rfl hn
    · exact hl
  keeps i j other _ _ hr := h.reads_insertNode.mpr (Or.inl hr)
  gains i j other _ _ hr := by
    rcases h.reads_insertNode.mp hr with hold | ⟨rfl, _⟩
    · exact Or.inl hold
    · refine Or.inr (Or.inr ⟨path, ?_, rfl⟩)
      rw [path?_insertNode, if_pos rfl]

-- Added nodes drift by what is reported as new.
theorem Consistent.drift_addEntries (h : graph.Consistent) (entries : List (Path × NodeKind)) :
    Drift (· ∈ (graph.addEntries entries true).2) graph (graph.addEntries entries true).1 := by
  refine (List.foldlRecOn entries (Graph.addNode true)
    (motive := fun state : Graph × List Path =>
      Drift (· ∈ state.2) graph state.1 ∧ state.1.Consistent) ⟨.refl graph, h⟩
    fun state hs entry _ => ⟨?_, hs.2.addNode⟩).1
  obtain ⟨now, added⟩ := state
  obtain ⟨path, kind⟩ := entry
  cases hid : now.id? path with
  | some id =>
      rw [addNode_of_contains (contains_of_id? hid)]
      exact hs.1
  | none =>
      rw [addNode_of_missing hid]
      have hstep : Drift (· ∈ added ++ [path]) now (now.insertNode path kind) :=
        hs.2.drift_insertNode.mono fun _ other _ he => by
          rw [he]
          exact List.mem_append_right _ (List.mem_singleton_self path)
      exact hs.1.trans hstep hs.2 (hs.2.insertNode hid) fun _ _ _ => List.mem_append_left _

theorem LinksChildren.drift (h : LinksChildren first second) : Drift seeded first second where
  next := Nat.le_of_eq h.nodes.nextId.symm
  old id label _ hl := (h.nodes.label id).symm.trans hl
  node id path kind hl _ := (h.nodes.label id).symm.trans hl
  keeps i j _ _ _ hr := h.keeps i j hr
  gains i j _ _ _ hr := by
    rcases h.adds i j hr with hold | hc
    · exact Or.inl hold
    · rw [h.nodes.isStructural]
      exact Or.inr (Or.inl hc.1)

end Grow

section Declare

variable {id : Nat} {targets : List Path} {affected : OrderedSet Path}

-- A declaration changes what one node reads.
theorem Consistent.drift_redeclare (h : graph.Consistent) (hid : graph.id? path = some id) :
    Drift (· = path) graph (graph.redeclare id targets affected).1 := by
  have hs : SameNodes graph (graph.redeclare id targets affected).1 := sameNodes_redeclare _ _
  have hsame : ∀ i j other, (graph.redeclare id targets affected).1.path? i = some other →
      ¬other = path →
      ((graph.redeclare id targets affected).1.Reads i j ↔ graph.Reads i j) := by
    intro i j other hp hn
    have hne : i ≠ id := by
      rintro rfl
      rw [hs.path?, h.path?_of_id? path i hid] at hp
      exact hn (Option.some_inj.mp hp).symm
    exact h.reads_redeclare_of_ne hne
  exact ⟨Nat.le_of_eq hs.nextId.symm, fun id label _ hl => (hs.label id).symm.trans hl,
    fun id other kind hl _ => (hs.label id).symm.trans hl,
    fun i j other hp hn hr => (hsame i j other hp hn).mpr hr,
    fun i j other hp hn hr => Or.inl ((hsame i j other hp hn).mp hr)⟩

theorem Consistent.drift_ensure (h : graph.Consistent) :
    Drift (· = path) graph (graph.ensure path) := by
  cases hid : graph.id? path with
  | some id =>
      rw [ensure_of_some hid]
      exact .refl graph
  | none =>
      rw [ensure_of_none hid]
      exact h.drift_insertNode

theorem Consistent.drift_addDependency (h : graph.Consistent) (path : Path)
    (targets : List Path) :
    Drift (· = path) graph (graph.addDependency path targets).1 := by
  obtain ⟨id, hid⟩ := id?_ensure graph path
  rw [addDependency_eq hid]
  exact h.drift_ensure.trans (h.ensure.drift_redeclare hid) h.ensure h.ensure.redeclare
    fun _ _ _ he => he

end Declare

section Remove

-- A graph without some of its nodes and their edges, and otherwise the same.
structure Shrinks (gone : Path → Prop) (first second : Graph) : Prop where
  next : second.nextId = first.nextId
  label : ∀ id path kind, second.label? id = some (path, kind) ↔
    first.label? id = some (path, kind) ∧ ¬gone path
  reads : ∀ i j, second.Reads i j ↔ first.Reads i j ∧ i ∈ second.nodes ∧ j ∈ second.nodes

variable {gone also : Path → Prop} {removed : Bool}

theorem Shrinks.trans (h : Shrinks gone first second) (k : Shrinks also second third) :
    Shrinks (fun path => gone path ∨ also path) first third where
  next := k.next.trans h.next
  label id path kind := by rw [k.label, h.label, not_or, and_assoc]
  reads i j := by
    have hm : ∀ id ∈ third.nodes, id ∈ second.nodes := fun id hm => by
      obtain ⟨⟨path, kind⟩, hl⟩ := mem_nodes_iff.mp hm
      exact mem_nodes_iff.mpr ⟨_, ((k.label id path kind).mp hl).1⟩
    rw [k.reads, h.reads]
    constructor
    · rintro ⟨⟨hr, _⟩, hi, hj⟩
      exact ⟨hr, hi, hj⟩
    · rintro ⟨hr, hi, hj⟩
      exact ⟨⟨hr, hm i hi, hm j hj⟩, hi, hj⟩

theorem Consistent.shrinks_removeNode (h : graph.Consistent) :
    Shrinks (· = path) graph (Graph.removeNode (graph, removed) path).1 := by
  cases hid : graph.id? path with
  | none =>
      rw [removeNode_of_none hid]
      refine ⟨rfl, fun id other kind => ?_, fun i j => ?_⟩
      · refine ⟨fun hl => ⟨hl, ?_⟩, And.left⟩
        rintro rfl
        rw [(h.id?_iff _ _).mpr (path?_of_label hl)] at hid
        cases hid
      · exact ⟨fun hr => ⟨hr, hr.mem, h.mem_of_reads hr⟩, And.left⟩
  | some id =>
      obtain ⟨node, hnode⟩ := h.node_of_id? hid
      rw [removeNode_of_some hid hnode]
      refine ⟨nextId_removeFound, fun other found kind => ?_, fun i j => ?_⟩
      · rw [label?_removeFound]
        by_cases ho : other = id
        · subst ho
          rw [if_pos rfl]
          refine ⟨fun hl => (Option.some_ne_none _ hl.symm).elim, fun hl => absurd ?_ hl.2⟩
          have hp := path?_of_label hl.1
          rw [h.path?_of_id? path other hid] at hp
          exact (Option.some_inj.mp hp).symm
        · rw [if_neg ho]
          refine ⟨fun hl => ⟨hl, ?_⟩, And.left⟩
          rintro rfl
          exact ho (h.path?_inj (path?_of_label hl) (h.path?_of_id? found id hid))
      · rw [h.reads_removeFound hnode, mem_nodes_removeFound, mem_nodes_removeFound]
        constructor
        · rintro ⟨hr, hi, hj⟩
          exact ⟨hr, ⟨hr.mem, hi⟩, h.mem_of_reads hr, hj⟩
        · rintro ⟨hr, ⟨_, hi⟩, _, hj⟩
          exact ⟨hr, hi, hj⟩

theorem Consistent.shrinks_removeNodes (h : graph.Consistent) (paths : List Path) :
    Shrinks (· ∈ paths) graph (graph.removeNodes paths).1 := by
  unfold Graph.removeNodes
  generalize false = removed
  induction paths generalizing graph removed with
  | nil =>
      refine ⟨rfl, fun _ _ _ => ?_, fun i j => ?_⟩
      · simp
      · exact ⟨fun hr => ⟨hr, hr.mem, h.mem_of_reads hr⟩, And.left⟩
  | cons path rest ih =>
      have hstep : Shrinks (· = path) graph (Graph.removeNode (graph, removed) path).1 :=
        h.shrinks_removeNode
      have hleft : (Graph.removeNode (graph, removed) path).1.Consistent := h.removeNode
      have hrest := ih hleft (Graph.removeNode (graph, removed) path).2
      simp only [List.mem_cons]
      exact hstep.trans hrest

theorem Consistent.contains_removeNodes (h : graph.Consistent) {paths : List Path} :
    (graph.removeNodes paths).1.contains path = true ↔
      graph.contains path = true ∧ path ∉ paths := by
  have hshrinks := h.shrinks_removeNodes paths
  rw [(h.removeNodes paths).contains_iff, h.contains_iff]
  simp only [path?_eq_some_iff, hshrinks.label, exists_and_right]

-- A graph that shrinks drifts by those who read what is gone.
theorem Shrinks.drift (h : Shrinks gone first second) (hc : first.Consistent)
    (hr : ∀ i j reader target, first.Reads i j → first.path? i = some reader → ¬gone reader →
      first.path? j = some target → gone target → seeded reader) :
    Drift seeded first second where
  next := Nat.le_of_eq h.next.symm
  old id label _ hl := ((h.label id label.1 label.2).mp hl).1
  node id path kind hl _ := ((h.label id path kind).mp hl).1
  keeps i j path hp hn hreads := by
    obtain ⟨kind, hl⟩ := path?_eq_some_iff.mp hp
    obtain ⟨hfirst, hleft⟩ := (h.label i path kind).mp hl
    obtain ⟨⟨target, other⟩, hj⟩ := mem_nodes_iff.mp (hc.mem_of_reads hreads)
    have htarget : ¬gone target := fun hg =>
      hn (hr i j path target hreads (path?_of_label hfirst) hleft (path?_of_label hj) hg)
    exact (h.reads i j).mpr ⟨hreads, mem_nodes_iff.mpr ⟨_, hl⟩,
      mem_nodes_iff.mpr ⟨_, (h.label j target other).mpr ⟨hj, htarget⟩⟩⟩
  gains i j _ _ _ hreads := Or.inl ((h.reads i j).mp hreads).1

end Remove

end Recalc.Graph
