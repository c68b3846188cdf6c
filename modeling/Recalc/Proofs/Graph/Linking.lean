import Mathlib.Logic.Relation
import Recalc.Proofs.Graph.Declaration
import Recalc.Proofs.Ordered.Table
import Recalc.Proofs.Path.Container

namespace Recalc.Graph

variable {graph first second : Graph} {i j k current parent : Nat} {path : Path}
  {paths : List Path}

-- An edge from a container to its direct child, if the container may read.
def Contains (graph : Graph) (parent child : Nat) : Prop :=
  graph.isStructural parent child = true ∧ graph.Accepts parent

theorem contains_congr (h : SameNodes first second) :
    second.Contains i j ↔ first.Contains i j := by
  simp only [Contains, h.isStructural, h.accepts]

theorem Consistent.link (h : graph.Consistent) (ha : graph.Accepts i) :
    (graph.link i j).1.Consistent := by
  have hw : SameWaiting graph (graph.link i j).1 := sameWaiting_link i j
  refine h.of_sameNodes (sameNodes_link i j) (mirrored_link h.mirror) (hw.queued h.awaits_iff)
    (hw.tight h.tight) (fun id other hr => ?_) fun id target ht => ?_
  · rcases reads_link.mp hr with hold | ⟨rfl, rfl, hne, _⟩
    · exact ⟨fun he => h.irreflexive _ (he ▸ hold), h.reads_accepts _ _ hold⟩
    · exact ⟨hne, ha⟩
  · have hold := hw.awaits.mp ht
    exact ⟨h.awaits_accepts _ _ hold, h.missing _ _ hold⟩

-- What linking containers may do to a graph: add edges to direct children.
structure LinksChildren (first second : Graph) : Prop where
  nodes : SameNodes first second
  waiting : SameWaiting first second
  keeps : ∀ i j, first.Reads i j → second.Reads i j
  adds : ∀ i j, second.Reads i j → first.Reads i j ∨ first.Contains i j
  consistent : first.Consistent → second.Consistent

namespace LinksChildren

variable {third : Graph}

theorem refl (graph : Graph) : LinksChildren graph graph :=
  ⟨.refl graph, .refl graph, fun _ _ h => h, fun _ _ h => Or.inl h, fun h => h⟩

theorem trans (h : LinksChildren first second) (k : LinksChildren second third) :
    LinksChildren first third where
  nodes := h.nodes.trans k.nodes
  waiting := h.waiting.trans k.waiting
  keeps i j hr := k.keeps i j (h.keeps i j hr)
  adds i j hr := by
    rcases k.adds i j hr with hr | hc
    · exact h.adds i j hr
    · exact Or.inr ((contains_congr h.nodes).mp hc)
  consistent hc := k.consistent (h.consistent hc)

theorem link (h : graph.Contains i j) : LinksChildren graph (graph.link i j).1 where
  nodes := sameNodes_link i j
  waiting := sameWaiting_link i j
  keeps _ _ hr := reads_link.mpr (Or.inl hr)
  adds a b hr := by
    rcases reads_link.mp hr with hold | ⟨rfl, rfl, _⟩
    · exact Or.inl hold
    · exact Or.inr h
  consistent hc := hc.link h.2

end LinksChildren

theorem accepts_of_any
    (h : (graph.nodes[i]?).any (fun node => node.kind.acceptsDependencies) = true) :
    graph.Accepts i := by
  obtain ⟨node, hnode, hk⟩ := (Option.any_eq_true _ _).mp h
  exact ⟨node.path, node.kind, by rw [label?, hnode]; rfl, hk⟩

theorem any_of_accepts (h : graph.Accepts i) :
    (graph.nodes[i]?).any (fun node => node.kind.acceptsDependencies) = true := by
  obtain ⟨path, kind, hl, hk⟩ := h
  obtain ⟨node, hnode, rfl, rfl⟩ := node_of_label hl
  exact (Option.any_eq_true _ _).mpr ⟨node, hnode, hk⟩

section Climb

-- The unbroken chain of containers above a node, with the node itself.
def Ascends (graph : Graph) : Nat → Nat → Prop :=
  Relation.ReflTransGen fun below above => graph.Contains above below

theorem ascends_congr (h : SameNodes first second) :
    second.Ascends i j ↔ first.Ascends i j := by
  simp only [Ascends, contains_congr h]

theorem ascends_iff :
    graph.Ascends i j ↔ i = j ∨ ∃ above, graph.Contains above i ∧ graph.Ascends above j :=
  Relation.ReflTransGen.cases_head_iff

theorem Consistent.path?_of_id? (h : graph.Consistent) (path : Path) (id : Nat)
    (hid : graph.id? path = some id) : graph.path? id = some path :=
  (h.id?_iff path id).mp hid

theorem Consistent.contains_iff_parent (h : graph.Consistent) (hj : graph.path? j = some path) :
    graph.Contains i j ↔
      ∃ other, path.parent? = some other ∧ graph.id? other = some i ∧ graph.Accepts i := by
  simp only [Contains, isStructural_iff, hj, Path.isChildOf_iff, h.id?_iff]
  constructor
  · rintro ⟨⟨above, _, hi, he, hparent⟩, ha⟩
    cases he
    exact ⟨above, hparent, hi, ha⟩
  · rintro ⟨above, hparent, hi, ha⟩
    exact ⟨⟨above, path, hi, rfl, hparent⟩, ha⟩

-- A path has one container.
theorem Consistent.contains_unique (h : graph.Consistent) (hi : graph.Contains i k)
    (hj : graph.Contains j k) : i = j := by
  obtain ⟨path, hk⟩ : ∃ path, graph.path? k = some path := by
    obtain ⟨_, path, _, hk, _⟩ := isStructural_iff.mp hi.1
    exact ⟨path, hk⟩
  obtain ⟨above, hparent, hi, _⟩ := (h.contains_iff_parent hk).mp hi
  obtain ⟨other, hparent', hj, _⟩ := (h.contains_iff_parent hk).mp hj
  obtain rfl : above = other := Option.some_inj.mp (hparent.symm.trans hparent')
  exact Option.some_inj.mp (hi.symm.trans hj)

theorem linkable_of_contains (hc : graph.Contains i j) : graph.Linkable i j := by
  obtain ⟨above, path, hi, hj, hchild⟩ := isStructural_iff.mp hc.1
  refine ⟨?_, mem_nodes_iff_path.mpr ⟨above, hi⟩, mem_nodes_iff_path.mpr ⟨path, hj⟩⟩
  rintro rfl
  obtain rfl : path = above := Option.some_inj.mp (hj.symm.trans hi)
  have := Path.depth_of_parent (Path.isChildOf_iff.mp hchild)
  omega

theorem Consistent.climb_of_not_contains (h : graph.Consistent)
    (hp : graph.path? current = some path) (hnone : ∀ i, ¬ graph.Contains i current) :
    graph.climb current path.ancestors = (graph, 0) := by
  simp only [h.contains_iff_parent hp, not_exists, not_and] at hnone
  cases hparent : path.parent? with
  | none => rw [Path.ancestors_of_entity hparent, climb]
  | some other =>
      rw [Path.ancestors_of_parent hparent, climb]
      cases hid : graph.id? other with
      | none => rfl
      | some above =>
          exact if_neg fun hany => hnone above other hparent hid (accepts_of_any hany)

theorem Consistent.climb_of_contains (h : graph.Consistent)
    (hp : graph.path? current = some path) (hc : graph.Contains parent current) :
    ∃ other, path.parent? = some other ∧ graph.path? parent = some other ∧
      (graph.climb current path.ancestors).1 =
        ((graph.link parent current).1.climb parent other.ancestors).1 := by
  obtain ⟨other, hparent, hid, ha⟩ := (h.contains_iff_parent hp).mp hc
  refine ⟨other, hparent, (h.id?_iff other parent).mp hid, ?_⟩
  rw [Path.ancestors_of_parent hparent, climb, hid]
  dsimp only
  rw [if_pos (any_of_accepts ha)]

-- By induction on the depth of the path. The first step of a climb links the
-- container to the node, and the rest of it begins at the container.
theorem Consistent.linksChildren_climb (h : graph.Consistent)
    (hp : graph.path? current = some path) :
    LinksChildren graph (graph.climb current path.ancestors).1 := by
  induction hdepth : path.depth using Nat.strongRecOn generalizing graph current path with
  | ind depth ih =>
      by_cases hcontained : ∃ parent, graph.Contains parent current
      · obtain ⟨parent, hc⟩ := hcontained
        obtain ⟨other, hparent, ho, hclimb⟩ := h.climb_of_contains hp hc
        have hl : LinksChildren graph (graph.link parent current).1 := .link hc
        have hlt : other.depth < depth := by
          have := Path.depth_of_parent hparent
          omega
        rw [hclimb]
        exact hl.trans (ih other.depth hlt (hl.consistent h) ((hl.nodes.path? parent).trans ho) rfl)
      · rw [not_exists] at hcontained
        rw [h.climb_of_not_contains hp hcontained]
        exact .refl graph

-- A climb passes all that is above, one container after another.
theorem Consistent.reads_climb_iff (h : graph.Consistent)
    (hp : graph.path? current = some path) :
    (graph.climb current path.ancestors).1.Reads i j ↔
      graph.Reads i j ∨ graph.Contains i j ∧ graph.Ascends current j := by
  induction hdepth : path.depth using Nat.strongRecOn generalizing graph current path with
  | ind depth ih =>
      by_cases hcontained : ∃ parent, graph.Contains parent current
      · obtain ⟨parent, hc⟩ := hcontained
        obtain ⟨other, hparent, ho, hclimb⟩ := h.climb_of_contains hp hc
        have hs : SameNodes graph (graph.link parent current).1 := sameNodes_link parent current
        have hlt : other.depth < depth := by
          have := Path.depth_of_parent hparent
          omega
        rw [hclimb, ih other.depth hlt (h.link hc.2) ((hs.path? parent).trans ho) rfl, reads_link,
          contains_congr hs, ascends_congr hs, ascends_iff (i := current), or_assoc]
        refine or_congr Iff.rfl ⟨?_, ?_⟩
        · rintro (⟨rfl, rfl, -⟩ | ⟨hij, hup⟩)
          · exact ⟨hc, Or.inl rfl⟩
          · exact ⟨hij, Or.inr ⟨parent, hc, hup⟩⟩
        · rintro ⟨hij, rfl | ⟨above, habove, hup⟩⟩
          · exact Or.inl ⟨h.contains_unique hij hc, rfl, linkable_of_contains hc⟩
          · rw [h.contains_unique habove hc] at hup
            exact Or.inr ⟨hij, hup⟩
      · rw [not_exists] at hcontained
        rw [h.climb_of_not_contains hp hcontained, ascends_iff]
        refine (or_iff_left ?_).symm
        rintro ⟨hij, rfl | ⟨above, habove, -⟩⟩
        · exact hcontained i hij
        · exact hcontained above habove

end Climb

section Above

namespace Consistent

theorem linksChildren_linkAncestors (h : graph.Consistent) (path : Path) (count : Nat) :
    LinksChildren graph (linkAncestors (graph, count) path).1 := by
  cases hid : graph.id? path with
  | none =>
      simp only [linkAncestors, hid]
      exact .refl graph
  | some id =>
      simp only [linkAncestors, hid]
      exact h.linksChildren_climb (h.path?_of_id? path id hid)

theorem linksChildren_foldl (h : graph.Consistent) (paths : List Path) (count : Nat) :
    LinksChildren graph (paths.foldl linkAncestors (graph, count)).1 :=
  List.foldlRecOn paths linkAncestors
    (motive := fun state : Graph × Nat => LinksChildren graph state.1) (.refl graph)
    fun _ hl path _ => hl.trans (linksChildren_linkAncestors (hl.consistent h) path _)

theorem linksChildren_linkAbove (h : graph.Consistent) (paths : List Path) :
    LinksChildren graph (graph.linkAbove paths).1 :=
  h.linksChildren_foldl paths 0

end Consistent

-- A child on the chain above one of the paths.
def Passed (graph : Graph) (paths : List Path) (j : Nat) : Prop :=
  ∃ path ∈ paths, ∃ k, graph.path? k = some path ∧ graph.Ascends k j

theorem passed_congr (h : SameNodes first second) :
    second.Passed paths j ↔ first.Passed paths j := by
  simp only [Passed, h.path?, ascends_congr h]

theorem Consistent.reads_linkAncestors_iff (h : graph.Consistent) (path : Path) (count : Nat) :
    (linkAncestors (graph, count) path).1.Reads i j ↔
      graph.Reads i j ∨ graph.Contains i j ∧ ∃ k, graph.path? k = some path ∧
        graph.Ascends k j := by
  cases hid : graph.id? path with
  | none =>
      have hnone : ∀ k, graph.path? k ≠ some path := fun k hk => by
        rw [(h.id?_iff path k).mpr hk] at hid
        cases hid
      simp [linkAncestors, hid, hnone]
  | some id =>
      have hp := h.path?_of_id? path id hid
      have hk : ∀ k, graph.path? k = some path ↔ k = id := fun k =>
        ⟨fun hk => h.path?_inj hk hp, fun hk => hk ▸ hp⟩
      simp only [linkAncestors, hid, h.reads_climb_iff hp, hk, exists_eq_left]

theorem Consistent.reads_linkAbove_iff_passed (h : graph.Consistent) (paths : List Path) :
    (graph.linkAbove paths).1.Reads i j ↔
      graph.Reads i j ∨ graph.Contains i j ∧ graph.Passed paths j := by
  unfold linkAbove
  generalize 0 = count
  induction paths generalizing graph count with
  | nil => simp [Passed]
  | cons path rest ih =>
      have hl := h.linksChildren_linkAncestors path count
      rw [List.foldl_cons, ih (hl.consistent h), h.reads_linkAncestors_iff, contains_congr hl.nodes,
        passed_congr hl.nodes, or_assoc, ← and_or_left]
      simp only [Passed, List.mem_cons, exists_eq_or_imp]

namespace Consistent

-- Linking above a path gives it to its container.
theorem reads_linkAbove (h : graph.Consistent) (hp : path ∈ paths)
    (hj : graph.path? j = some path) (hc : graph.Contains i j) :
    (graph.linkAbove paths).1.Reads i j :=
  (h.reads_linkAbove_iff_passed paths).mpr (Or.inr ⟨hc, path, hp, j, hj, .refl⟩)

theorem mem_paths_of_path? (hj : graph.path? j = some path) : path ∈ graph.paths := by
  obtain ⟨node, hnode, rfl⟩ := Option.map_eq_some_iff.mp hj
  exact List.mem_map_of_mem (mem_values_iff.mpr ⟨j, hnode⟩)

theorem linksChildren_linkAll (h : graph.Consistent) : LinksChildren graph graph.linkAll.1 :=
  h.linksChildren_linkAbove graph.paths

-- Linking all nodes adds exactly the edges to direct children.
theorem reads_linkAll (h : graph.Consistent) :
    graph.linkAll.1.Reads i j ↔ graph.Reads i j ∨ graph.Contains i j := by
  refine (h.reads_linkAbove_iff_passed graph.paths).trans (or_congr Iff.rfl ?_)
  refine and_iff_left_of_imp fun hc => ?_
  obtain ⟨_, below, _, hj, _⟩ := isStructural_iff.mp hc.1
  exact ⟨below, mem_paths_of_path? hj, j, hj, .refl⟩

end Consistent

end Above

end Recalc.Graph
