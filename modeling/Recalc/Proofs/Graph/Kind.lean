import Recalc.Proofs.Graph.Wiring
import Recalc.Proofs.Path.Below

namespace Recalc.Graph

variable {graph first second : Graph} {path other : Path} {kind : NodeKind} {paths : List Path}
  {i j : Nat}

def kind? (graph : Graph) (path : Path) : Option NodeKind := (graph.node? path).map Node.kind

theorem kind?_eq (graph : Graph) (path : Path) :
    graph.kind? path = (graph.id? path).bind fun id => (graph.label? id).map Prod.snd := by
  unfold kind? node? label?
  cases graph.id? path with
  | none => rfl
  | some id =>
      rw [Option.bind_some, Option.bind_some, Option.map_map]
      rfl

theorem SameNodes.kind? (h : SameNodes first second) (path : Path) :
    second.kind? path = first.kind? path := by
  rw [kind?_eq, kind?_eq, h.id?]
  simp only [h.label]

theorem Consistent.kind?_eq_some_iff (h : graph.Consistent) :
    graph.kind? path = some kind ↔ ∃ i, graph.label? i = some (path, kind) := by
  constructor
  · intro hk
    rw [kind?_eq] at hk
    obtain ⟨id, hid, hk⟩ := Option.bind_eq_some_iff.mp hk
    obtain ⟨⟨found, _⟩, hl, rfl⟩ := Option.map_eq_some_iff.mp hk
    obtain rfl : path = found :=
      Option.some_inj.mp ((h.path?_of_id? path id hid).symm.trans (path?_of_label hl))
    exact ⟨id, hl⟩
  · rintro ⟨i, hl⟩
    exact h.kind_of_label hl

theorem Consistent.isSome_kind? (h : graph.Consistent) :
    (graph.kind? path).isSome = graph.contains path := by
  rw [kind?_eq, contains]
  cases hid : graph.id? path with
  | none => rfl
  | some id =>
      obtain ⟨node, hnode⟩ := h.node_of_id? hid
      simp [label?, hnode]

-- Whether a node may read is a matter of its kind.
theorem Consistent.accepts_iff_kind? (h : graph.Consistent) (hi : graph.path? i = some path) :
    graph.Accepts i ↔ (graph.kind? path).any NodeKind.acceptsDependencies = true := by
  constructor
  · intro ha
    obtain ⟨kind, hl, hk⟩ := label_of_accepts hi ha
    rw [h.kind?_eq_some_iff.mpr ⟨i, hl⟩]
    exact hk
  · intro hany
    obtain ⟨kind, hsome, hk⟩ := (Option.any_eq_true _ _).mp hany
    obtain ⟨other, hl⟩ := h.kind?_eq_some_iff.mp hsome
    obtain rfl : other = i := h.path?_inj (path?_of_label hl) hi
    exact ⟨path, kind, hl, hk⟩

section Entries

theorem Consistent.kind?_insertNode (h : graph.Consistent) :
    (graph.insertNode path kind).kind? other =
      if other = path then some kind else graph.kind? other := by
  rw [kind?_eq, id?_insertNode]
  by_cases ho : other = path
  · rw [if_pos ho, if_pos ho, Option.bind_some, label?_insertNode, if_pos rfl]
    rfl
  · rw [if_neg ho, if_neg ho, kind?_eq]
    cases hid : graph.id? other with
    | none => rfl
    | some id =>
        have hne : id ≠ graph.nextId := by
          rintro rfl
          exact h.id?_ne_nextId hid
        rw [Option.bind_some, Option.bind_some, label?_insertNode, if_neg hne]

-- The first entry of a path tells its kind.
theorem Consistent.kind?_addEntries (h : graph.Consistent) (entries : List (Path × NodeKind)) :
    (graph.addEntries entries true).1.kind? path =
      (graph.kind? path).or (OrderedMap.find? entries path) := by
  unfold Graph.addEntries
  generalize ([] : List Path) = added
  induction entries generalizing graph added with
  | nil => simp [OrderedMap.find?]
  | cons entry rest ih =>
      obtain ⟨other, kind⟩ := entry
      rw [List.foldl_cons, OrderedMap.find?]
      cases hid : graph.id? other with
      | none =>
          have hnone : graph.kind? other = none := by rw [kind?_eq, hid]; rfl
          rw [addNode_of_missing hid, ih (h.insertNode hid), h.kind?_insertNode]
          by_cases ho : other = path
          · subst ho
            simp [hnone]
          · simp [ho, Ne.symm ho]
      | some id =>
          have hc : graph.contains other = true := contains_of_id? hid
          rw [addNode_of_contains hc, ih h]
          by_cases ho : other = path
          · subst ho
            obtain ⟨found, hfound⟩ := Option.isSome_iff_exists.mp (h.isSome_kind?.trans hc)
            rw [hfound]
            rfl
          · rw [if_neg ho]

theorem Consistent.kind?_ensure (h : graph.Consistent) :
    (graph.ensure path).kind? other =
      (graph.kind? other).or (if other = path then some (.ofPath path) else none) := by
  cases hid : graph.id? path with
  | none =>
      have hnone : graph.kind? path = none := by rw [kind?_eq, hid]; rfl
      rw [ensure_of_none hid, h.kind?_insertNode]
      by_cases ho : other = path
      · subst ho
        simp [hnone]
      · simp [ho]
  | some id =>
      have hc : graph.contains path = true := contains_of_id? hid
      rw [ensure_of_some hid]
      by_cases ho : other = path
      · subst ho
        obtain ⟨found, hfound⟩ := Option.isSome_iff_exists.mp (h.isSome_kind?.trans hc)
        rw [hfound]
        rfl
      · simp [ho]

-- A path that declares is a property if it was no node before.
theorem Consistent.kind?_declareAll (h : graph.Consistent) (targets : Path → List Path)
    (paths : List Path) : (graph.declareAll targets paths).kind? path =
      (graph.kind? path).or (if path ∈ paths then some (.ofPath path) else none) := by
  unfold Graph.declareAll
  induction paths generalizing graph with
  | nil => simp
  | cons other rest ih =>
      rw [List.foldl_cons, ih (h.addDependency other _),
        (sameNodes_addDependency graph other _).kind?, h.kind?_ensure]
      by_cases ho : path = other
      · subst ho
        cases graph.kind? path <;> simp
      · simp [ho]

end Entries

section Above

-- A climb stays among paths that have their containers with them.
theorem Ascends.mem_of_rooted {k : Nat} (h : graph.Ascends k j) (hrooted : Path.Rooted paths)
    (hk : graph.path? k = some path) (hm : path ∈ paths) :
    ∃ above ∈ paths, graph.path? j = some above := by
  induction h with
  | refl => exact ⟨path, hm, hk⟩
  | tail _ hc ih =>
      obtain ⟨below, hbelow, hp⟩ := ih
      obtain ⟨above, _, ha, hp', hchild⟩ := isStructural_iff.mp hc.1
      cases hp.symm.trans hp'
      exact ⟨above, hrooted below hbelow above (Path.isChildOf_iff.mp hchild), ha⟩

-- What linking above a list of paths adds leads from a container to one of
-- these paths or to one that encloses them.
theorem Consistent.reads_linkAbove_within (h : graph.Consistent) {roots : List Path}
    (hrooted : Path.Rooted roots) (hpaths : paths ⊆ roots)
    (hr : (graph.linkAbove paths).1.Reads i j) :
    graph.Reads i j ∨ graph.Contains i j ∧ ∃ path ∈ roots, graph.path? j = some path := by
  refine ((h.reads_linkAbove_iff_passed paths).mp hr).imp_right ?_
  rintro ⟨hc, path, hm, k, hk, hup⟩
  exact ⟨hc, hup.mem_of_rooted hrooted hk (hpaths hm)⟩

-- Linking above a list of paths gives each of them to its container.
theorem Consistent.reads_linkAbove_iff (h : graph.Consistent) (hrooted : Path.Rooted paths) :
    (graph.linkAbove paths).1.Reads i j ↔
      graph.Reads i j ∨ graph.Contains i j ∧ ∃ path ∈ paths, graph.path? j = some path := by
  constructor
  · exact h.reads_linkAbove_within hrooted (List.Subset.refl paths)
  · rintro (hold | ⟨hc, path, hm, hj⟩)
    · exact (h.linksChildren_linkAbove paths).keeps i j hold
    · exact h.reads_linkAbove hm hj hc

end Above

end Recalc.Graph
