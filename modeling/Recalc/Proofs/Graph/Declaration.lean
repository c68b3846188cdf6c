import Recalc.Proofs.Graph.Operations

namespace Recalc.Graph

variable {graph : Graph}

section Reporting

variable {id i j : Nat} {affected : OrderedSet Path} {path : Path}

theorem mem_report {other : Nat} :
    path ∈ graph.report affected other ↔ path ∈ affected ∨ graph.path? other = some path := by
  unfold report
  cases graph.path? other with
  | none => simp
  | some found => simp [eq_comm]

-- Unlinking and linking in turn, with the paths that they report.
theorem relinked_foldl_unlinkReporting (stale : List Nat) :
    Relinked graph (stale.foldl (unlinkReporting id) (graph, affected)).1 :=
  List.foldlRecOn stale _
    (motive := fun state : Graph × OrderedSet Path => Relinked graph state.1) (.refl graph)
    fun _ h _ _ => h.trans (relinked_unlink _ _)

theorem relinked_foldl_linkReporting (live : List Nat) :
    Relinked graph (live.foldl (linkReporting id) (graph, affected)).1 :=
  List.foldlRecOn live _
    (motive := fun state : Graph × OrderedSet Path => Relinked graph state.1) (.refl graph)
    fun _ h _ _ => h.trans (relinked_link _ _)

theorem reads_foldl_unlinkReporting (stale : List Nat) :
    (stale.foldl (unlinkReporting id) (graph, affected)).1.Reads i j ↔
      graph.Reads i j ∧ ¬(i = id ∧ j ∈ stale) := by
  induction stale generalizing graph affected with
  | nil => simp
  | cons dependency rest ih =>
      rw [List.foldl_cons, unlinkReporting, ih, reads_unlink, List.mem_cons]
      tauto

theorem mem_foldl_unlinkReporting (stale : List Nat) :
    path ∈ (stale.foldl (unlinkReporting id) (graph, affected)).2 ↔
      path ∈ affected ∨ ∃ j ∈ stale, graph.path? j = some path := by
  induction stale generalizing graph affected with
  | nil => simp
  | cons dependency rest ih =>
      rw [List.foldl_cons, unlinkReporting, ih, mem_report]
      simp only [(sameNodes_unlink _ _).path?, List.mem_cons, exists_eq_or_imp, or_assoc]

theorem reads_foldl_linkReporting (live : List Nat) :
    (live.foldl (linkReporting id) (graph, affected)).1.Reads i j ↔
      graph.Reads i j ∨ i = id ∧ j ∈ live ∧ graph.Linkable id j := by
  induction live generalizing graph affected with
  | nil => simp
  | cons dependency rest ih =>
      rw [List.foldl_cons, linkReporting, ih, reads_link, linkable_congr (sameNodes_link _ _),
        List.mem_cons]
      constructor
      · rintro ((hold | ⟨rfl, rfl, hl⟩) | ⟨rfl, hj, hl⟩)
        · exact Or.inl hold
        · exact Or.inr ⟨rfl, Or.inl rfl, hl⟩
        · exact Or.inr ⟨rfl, Or.inr hj, hl⟩
      · rintro (hold | ⟨rfl, rfl | hj, hl⟩)
        · exact Or.inl (Or.inl hold)
        · exact Or.inl (Or.inr ⟨rfl, rfl, hl⟩)
        · exact Or.inr ⟨rfl, hj, hl⟩

theorem mem_foldl_linkReporting (live : List Nat) :
    path ∈ (live.foldl (linkReporting id) (graph, affected)).2 ↔
      path ∈ affected ∨
        ∃ j ∈ live, graph.path? j = some path ∧ graph.Linkable id j ∧ ¬graph.Reads id j := by
  induction live generalizing graph affected with
  | nil => simp
  | cons dependency rest ih =>
      have hs : SameNodes graph (graph.link id dependency).1 := sameNodes_link _ _
      have hm : path ∈ (if (graph.link id dependency).2 = true then
          (graph.link id dependency).1.report affected dependency else affected) ↔
          path ∈ affected ∨ graph.path? dependency = some path ∧
            graph.Linkable id dependency ∧ ¬graph.Reads id dependency := by
        by_cases ha : (graph.link id dependency).2 = true
        · rw [if_pos ha, mem_report, hs.path?]
          simp [link_added_iff.mp ha]
        · rw [if_neg ha]
          rw [link_added_iff] at ha
          simp [ha]
      rw [List.foldl_cons, linkReporting, ih, hm]
      simp only [hs.path?, linkable_congr hs, reads_link, List.mem_cons, exists_eq_or_imp, or_assoc]
      refine or_congr Iff.rfl ?_
      constructor
      · rintro (hd | ⟨j, hj, hp, hl, hn⟩)
        · exact Or.inl hd
        · exact Or.inr ⟨j, hj, hp, hl, fun hr => hn (Or.inl hr)⟩
      · rintro (hd | ⟨j, hj, hp, hl, hn⟩)
        · exact Or.inl hd
        · by_cases he : j = dependency
          · subst he
            exact Or.inl ⟨hp, hl, hn⟩
          · exact Or.inr ⟨j, hj, hp, hl, fun hr => hr.elim hn fun hr => he hr.2.1⟩

end Reporting

section Redeclare

variable {id i j : Nat} {path : Path} {kind : NodeKind} {targets : List Path} {target : Path}
  {affected : OrderedSet Path}

def liveTargets (graph : Graph) (path : Path) (targets : List Path) : OrderedSet Nat :=
  .ofList ((targets.filter fun target => !decide (target = path)).filterMap graph.id?)

def missingTargets (graph : Graph) (path : Path) (targets : List Path) : OrderedSet Path :=
  .ofList ((targets.filter fun target => !decide (target = path)).filter fun target =>
    !graph.contains target)

theorem mem_liveTargets :
    j ∈ graph.liveTargets path targets ↔ ∃ t ∈ targets, t ≠ path ∧ graph.id? t = some j := by
  simp only [liveTargets, OrderedSet.mem_ofList, List.mem_filterMap, List.mem_filter,
    Bool.not_eq_true', decide_eq_false_iff_not, and_assoc, ne_eq]

theorem mem_missingTargets :
    target ∈ graph.missingTargets path targets ↔
      target ∈ targets ∧ target ≠ path ∧ graph.id? target = none := by
  simp [missingTargets, contains, and_comm (a := graph.id? target = none)]

theorem redeclare_of_accepts {node : Node} (hnode : graph.nodes[id]? = some node)
    (hkind : node.kind.acceptsDependencies = true) :
    graph.redeclare id targets affected =
      let live := graph.liveTargets node.path targets
      let state := live.toList.foldl (linkReporting id)
        ((graph.staleEdges id node live).foldl (unlinkReporting id) (graph, affected))
      (state.1.waitFor id (graph.missingTargets node.path targets), state.2) := by
  simp only [redeclare, hnode, hkind, if_true]
  rfl

theorem redeclare_of_not_accepts (h : ¬graph.Accepts id) :
    graph.redeclare id targets affected = (graph, affected) := by
  unfold redeclare
  split
  · rfl
  · next node hnode =>
    refine if_neg fun hk => h ⟨node.path, node.kind, ?_, hk⟩
    rw [label?, hnode]
    rfl

theorem mem_staleEdges {node : Node} (hnode : graph.nodes[id]? = some node)
    {live : OrderedSet Nat} :
    j ∈ graph.staleEdges id node live ↔
      graph.Reads id j ∧ j ∉ live ∧ graph.isStructural id j = false := by
  have hr : graph.Reads id j ↔ j ∈ node.dependencies := by simp [Reads, hnode]
  rw [hr]
  simp [staleEdges, OrderedSet.contains, OrderedSet.mem_toList]

-- What a node reads is settled before what it waits for.
theorem redeclare_cases (graph : Graph) (id : Nat) (targets : List Path)
    (affected : OrderedSet Path) : (graph.redeclare id targets affected).1 = graph ∨
      ∃ linked missing, Relinked graph linked ∧
        (graph.redeclare id targets affected).1 = linked.waitFor id missing := by
  unfold redeclare
  split
  · exact Or.inl rfl
  · split
    · exact Or.inr ⟨_, _,
        (relinked_foldl_unlinkReporting _).trans (relinked_foldl_linkReporting _), rfl⟩
    · exact Or.inl rfl

theorem sameNodes_redeclare (targets : List Path) (affected : OrderedSet Path) :
    SameNodes graph (graph.redeclare id targets affected).1 := by
  rcases graph.redeclare_cases id targets affected with he | ⟨linked, missing, hr, he⟩
  · rw [he]
    exact .refl graph
  · rw [he]
    exact hr.nodes.trans (sameLive_waitFor id missing).sameNodes

theorem mirrored_redeclare (h : graph.Mirrored) :
    (graph.redeclare id targets affected).1.Mirrored := by
  rcases graph.redeclare_cases id targets affected with he | ⟨linked, missing, hr, he⟩
  · rwa [he]
  · rw [he]
    exact (sameLive_waitFor id missing).mirrored (hr.mirrored h)

theorem queued_redeclare (h : graph.Queued) :
    (graph.redeclare id targets affected).1.Queued := by
  rcases graph.redeclare_cases id targets affected with he | ⟨linked, missing, hr, he⟩
  · rwa [he]
  · rw [he]
    exact queued_waitFor (hr.waiting.queued h)

theorem tight_redeclare (h : graph.Tight) : (graph.redeclare id targets affected).1.Tight := by
  rcases graph.redeclare_cases id targets affected with he | ⟨linked, missing, hr, he⟩
  · rwa [he]
  · rw [he]
    exact tight_waitFor (hr.waiting.tight h)

theorem node_of_label (h : graph.label? id = some (path, kind)) :
    ∃ node, graph.nodes[id]? = some node ∧ node.path = path ∧ node.kind = kind := by
  obtain ⟨node, hnode, he⟩ := Option.map_eq_some_iff.mp h
  cases he
  exact ⟨node, hnode, rfl, rfl⟩

theorem Consistent.linkable_of_mem_liveTargets (h : graph.Consistent)
    (hl : graph.label? id = some (path, kind)) (hj : j ∈ graph.liveTargets path targets) :
    graph.Linkable id j := by
  obtain ⟨t, _, hne, ht⟩ := mem_liveTargets.mp hj
  have hp : graph.path? j = some t := (h.id?_iff _ _).mp ht
  refine ⟨?_, mem_nodes_iff.mpr ⟨_, hl⟩, mem_nodes_iff_path.mpr ⟨t, hp⟩⟩
  rintro rfl
  rw [path?_of_label hl] at hp
  exact hne (Option.some_inj.mp hp).symm

variable (h : graph.Consistent) (hl : graph.label? id = some (path, kind))
  (hk : kind.acceptsDependencies = true)

include h hl hk

-- A node reads the targets that are nodes and, as before, its children.
theorem Consistent.reads_redeclare :
    (graph.redeclare id targets affected).1.Reads i j ↔
      if i = id then
        (∃ t ∈ targets, t ≠ path ∧ graph.id? t = some j) ∨
          graph.Reads id j ∧ graph.isStructural id j = true
      else graph.Reads i j := by
  obtain ⟨node, hnode, rfl, rfl⟩ := node_of_label hl
  have hlink : j ∈ graph.liveTargets node.path targets → graph.Linkable id j :=
    h.linkable_of_mem_liveTargets hl
  rw [redeclare_of_accepts hnode hk]
  dsimp only
  rw [(sameLive_waitFor _ _).reads, reads_foldl_linkReporting,
    linkable_congr (relinked_foldl_unlinkReporting _).nodes, reads_foldl_unlinkReporting,
    mem_staleEdges hnode, OrderedSet.mem_toList, ← mem_liveTargets]
  by_cases hi : i = id
  · subst hi
    rw [if_pos rfl]
    by_cases hj : j ∈ graph.liveTargets node.path targets
    · simp [hj, hlink hj]
    · simp only [hj, false_or, not_false_eq_true, true_and, false_and, or_false, and_false]
      rw [not_and, Bool.not_eq_false]
      exact ⟨fun hn => ⟨hn.1, hn.2 hn.1⟩, fun hn => ⟨hn.1, fun _ => hn.2⟩⟩
  · simp [hi]

omit h in
theorem awaits_redeclare :
    (graph.redeclare id targets affected).1.Awaits i target ↔
      if i = id then target ∈ targets ∧ target ≠ path ∧ graph.id? target = none
      else graph.Awaits i target := by
  obtain ⟨node, hnode, rfl, rfl⟩ := node_of_label hl
  rw [redeclare_of_accepts hnode hk]
  dsimp only
  rw [awaits_waitFor, (relinked_foldl_linkReporting _).waiting.awaits,
    (relinked_foldl_unlinkReporting _).waiting.awaits, mem_missingTargets]

-- What one node declares leaves the others alone.
omit hl hk in
theorem Consistent.reads_redeclare_of_ne (hi : i ≠ id) :
    (graph.redeclare id targets affected).1.Reads i j ↔ graph.Reads i j := by
  by_cases ha : graph.Accepts id
  · obtain ⟨_, _, hl, hk⟩ := ha
    rw [h.reads_redeclare hl hk, if_neg hi]
  · rw [redeclare_of_not_accepts ha]

omit h hl hk in
theorem awaits_redeclare_of_ne (hi : i ≠ id) :
    (graph.redeclare id targets affected).1.Awaits i target ↔ graph.Awaits i target := by
  by_cases ha : graph.Accepts id
  · obtain ⟨_, _, hl, hk⟩ := ha
    rw [awaits_redeclare hl hk, if_neg hi]
  · rw [redeclare_of_not_accepts ha]

-- The paths reported are those whose edge from the node has come or gone.
theorem Consistent.mem_redeclare :
    target ∈ (graph.redeclare id targets affected).2 ↔
      target ∈ affected ∨ ∃ j, graph.path? j = some target ∧
        ¬((graph.redeclare id targets affected).1.Reads id j ↔ graph.Reads id j) := by
  obtain ⟨node, hnode, rfl, rfl⟩ := node_of_label hl
  have hr : ∀ j, (graph.redeclare id targets affected).1.Reads id j ↔ _ := fun j =>
    h.reads_redeclare hl hk
  simp only [hr, if_true, ← mem_liveTargets]
  rw [redeclare_of_accepts hnode hk]
  dsimp only
  rw [mem_foldl_linkReporting, mem_foldl_unlinkReporting]
  simp only [(relinked_foldl_unlinkReporting _).nodes.path?, reads_foldl_unlinkReporting,
    linkable_congr (relinked_foldl_unlinkReporting _).nodes, mem_staleEdges hnode,
    OrderedSet.mem_toList, or_assoc]
  refine or_congr Iff.rfl ⟨?_, ?_⟩
  · rintro (⟨j, ⟨hr, hj, hs⟩, hp⟩ | ⟨j, hj, hp, _, hn⟩)
    · refine ⟨j, hp, fun hiff => ?_⟩
      rcases hiff.mpr hr with hlive | ⟨_, hs'⟩
      · exact hj hlive
      · rw [hs] at hs'
        cases hs'
    · refine ⟨j, hp, fun hiff => hn ⟨hiff.mp (Or.inl hj), fun hs => hs.2.2.1 hj⟩⟩
  · rintro ⟨j, hp, hn⟩
    by_cases hj : j ∈ graph.liveTargets node.path targets
    · refine Or.inr ⟨j, hj, hp, h.linkable_of_mem_liveTargets hl hj, fun hr => hn ?_⟩
      exact ⟨fun _ => hr.1, fun _ => Or.inl hj⟩
    · refine Or.inl ⟨j, ?_, hp⟩
      by_cases hr : graph.Reads id j
      · refine ⟨hr, hj, Bool.eq_false_iff.mpr fun hs => hn ?_⟩
        exact ⟨fun _ => hr, fun _ => Or.inr ⟨hr, hs⟩⟩
      · exact absurd ⟨fun hx => hx.elim (absurd · hj) And.left, fun hx => absurd hx hr⟩ hn

omit hl hk in
theorem Consistent.redeclare : (graph.redeclare id targets affected).1.Consistent := by
  by_cases ha : graph.Accepts id
  · have ⟨path, kind, hl, hk⟩ := ha
    refine h.of_sameNodes (sameNodes_redeclare targets affected) (mirrored_redeclare h.mirror)
      (queued_redeclare h.awaits_iff) (tight_redeclare h.tight) (fun i j hr => ?_)
      fun i target hw => ?_
    · rw [h.reads_redeclare hl hk] at hr
      split at hr
      · next he =>
        subst he
        rcases hr with ⟨t, _, hne, ht⟩ | ⟨hr, _⟩
        · refine ⟨?_, ha⟩
          rintro rfl
          rw [h.id?_iff, path?_of_label hl] at ht
          exact hne (Option.some_inj.mp ht).symm
        · exact ⟨fun he => h.irreflexive _ (he ▸ hr), ha⟩
      · exact ⟨fun he => h.irreflexive _ (he ▸ hr), h.reads_accepts _ _ hr⟩
    · rw [awaits_redeclare hl hk] at hw
      split at hw
      · next he =>
        subst he
        exact ⟨ha, hw.2.2⟩
      · exact ⟨h.awaits_accepts _ _ hw, h.missing _ _ hw⟩
  · rw [redeclare_of_not_accepts ha]
    exact h

omit hl hk in
theorem Consistent.mem_redeclare_of_mem (ht : target ∈ affected) :
    target ∈ (graph.redeclare id targets affected).2 := by
  by_cases ha : graph.Accepts id
  · obtain ⟨path, kind, hl, hk⟩ := ha
    exact (h.mem_redeclare hl hk).mpr (Or.inl ht)
  · rw [redeclare_of_not_accepts ha]
    exact ht

end Redeclare

section Declare

variable {path target : Path} {targets : List Path} {i j : Nat}

-- The graph in which a path is a node.
def ensure (graph : Graph) (path : Path) : Graph :=
  if graph.contains path then graph else graph.insertNode path (.ofPath path)

theorem ensure_of_some {id : Nat} (h : graph.id? path = some id) : graph.ensure path = graph := by
  rw [ensure, contains, h]
  rfl

theorem ensure_of_none (h : graph.id? path = none) :
    graph.ensure path = graph.insertNode path (.ofPath path) := by
  rw [ensure, contains, h]
  rfl

theorem Consistent.ensure (h : graph.Consistent) : (graph.ensure path).Consistent := by
  cases hid : graph.id? path with
  | some id =>
      rw [ensure_of_some hid]
      exact h
  | none =>
      rw [ensure_of_none hid]
      exact h.insertNode hid

theorem id?_ensure (graph : Graph) (path : Path) : ∃ id, (graph.ensure path).id? path = some id := by
  cases hid : graph.id? path with
  | some id => exact ⟨id, by rw [ensure_of_some hid, hid]⟩
  | none => exact ⟨graph.nextId, by rw [ensure_of_none hid, id?_insertNode, if_pos rfl]⟩

-- A declaration makes the path a node first and reports it if it is new.
theorem addDependency_eq {id : Nat} (hid : (graph.ensure path).id? path = some id) :
    graph.addDependency path targets =
      (graph.ensure path).redeclare id targets
        (if graph.contains path then ∅ else (∅ : OrderedSet Path).insert path) := by
  unfold addDependency
  cases hg : graph.id? path with
  | some other =>
      rw [ensure_of_some hg, hg] at hid
      cases hid
      rw [ensure_of_some hg, contains, hg]
      rfl
  | none =>
      rw [ensure_of_none hg, id?_insertNode, if_pos rfl] at hid
      cases hid
      rw [ensure_of_none hg, contains, hg]
      rfl

theorem sameNodes_addDependency (graph : Graph) (path : Path) (targets : List Path) :
    SameNodes (graph.ensure path) (graph.addDependency path targets).1 := by
  obtain ⟨id, hid⟩ := id?_ensure graph path
  rw [addDependency_eq hid]
  exact sameNodes_redeclare _ _

theorem Consistent.addDependency (h : graph.Consistent) (path : Path) (targets : List Path) :
    (graph.addDependency path targets).1.Consistent := by
  obtain ⟨id, hid⟩ := id?_ensure graph path
  rw [addDependency_eq hid]
  exact h.ensure.redeclare

-- A path that becomes a node by declaring is reported.
theorem Consistent.mem_addDependency_of_missing (h : graph.Consistent)
    (hnone : graph.id? path = none) : path ∈ (graph.addDependency path targets).2 := by
  obtain ⟨id, hid⟩ := id?_ensure graph path
  rw [addDependency_eq hid, not_contains_of_id? hnone]
  exact h.ensure.mem_redeclare_of_mem (OrderedSet.mem_insert.mpr (Or.inr rfl))

-- A declaration that reports nothing changes no node and no edge.
theorem Consistent.addDependency_of_isEmpty (h : graph.Consistent)
    (he : (graph.addDependency path targets).2.isEmpty = true) :
    SameNodes graph (graph.addDependency path targets).1 ∧
      ∀ i j, (graph.addDependency path targets).1.Reads i j ↔ graph.Reads i j := by
  have hempty : ∀ target, target ∉ (graph.addDependency path targets).2 := fun _ =>
    OrderedSet.not_mem_of_isEmpty he
  cases hid : graph.id? path with
  | none => exact absurd (h.mem_addDependency_of_missing hid) (hempty path)
  | some id =>
      have hsame := ensure_of_some hid
      rw [addDependency_eq (hsame ▸ hid), hsame] at hempty ⊢
      refine ⟨sameNodes_redeclare _ _, fun i j => ?_⟩
      by_cases ha : graph.Accepts id
      · obtain ⟨path, kind, hl, hk⟩ := ha
        by_cases hi : i = id
        · subst hi
          by_contra hn
          -- An edge that came or went leads to a node, which would be reported.
          have hj : j ∈ graph.nodes := by
            by_contra hj
            refine hn ⟨fun hr => absurd ?_ hj, fun hr => absurd (h.mem_of_reads hr) hj⟩
            exact (sameNodes_redeclare _ _).mem.mp (h.redeclare.mem_of_reads hr)
          obtain ⟨target, ht⟩ := mem_nodes_iff_path.mp hj
          exact hempty target ((h.mem_redeclare hl hk).mpr (Or.inr ⟨j, ht, hn⟩))
        · rw [h.reads_redeclare hl hk, if_neg hi]
      · rw [redeclare_of_not_accepts ha]

end Declare

end Recalc.Graph
