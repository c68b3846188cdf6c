import Recalc.Path.Parser
import Recalc.Proofs.Graph.History

namespace Recalc.Graph

variable {graph second : Graph} {id : Nat} {path other : Path} {kind : NodeKind}
  {wanted : Path → Prop} {targets paths : List Path}

-- A node reads the wanted targets that are nodes and awaits the others.
structure Declares (graph : Graph) (id : Nat) (path : Path) (kind : NodeKind)
    (wanted : Path → Prop) : Prop where
  label : graph.label? id = some (path, kind)
  reads : ∀ j target, graph.path? j = some target → target.isChildOf path = false →
    (graph.Reads id j ↔ wanted target)
  awaits : ∀ target, target.isChildOf path = false →
    (graph.Awaits id target ↔ wanted target ∧ graph.id? target = none)

namespace Declares

theorem path? (h : graph.Declares id path kind wanted) : graph.path? id = some path :=
  path?_of_label h.label

theorem congr {others : Path → Prop} (h : graph.Declares id path kind wanted)
    (hw : ∀ target, wanted target ↔ others target) : graph.Declares id path kind others where
  label := h.label
  reads j target hp hchild := (h.reads j target hp hchild).trans (hw target)
  awaits target hchild := by rw [h.awaits target hchild, hw]

theorem of_sameNodes (h : graph.Declares id path kind wanted) (hs : SameNodes graph second)
    (hreads : ∀ j target, graph.path? j = some target → target.isChildOf path = false →
      (second.Reads id j ↔ graph.Reads id j))
    (hawaits : ∀ target, second.Awaits id target ↔ graph.Awaits id target) :
    second.Declares id path kind wanted where
  label := (hs.label id).trans h.label
  reads j target hp hc := by
    rw [hs.path?] at hp
    rw [hreads j target hp hc, h.reads j target hp hc]
  awaits target hc := by rw [hawaits, h.awaits target hc, hs.id?]

-- A target that becomes a node is read instead of awaited.
theorem insertNode (h : graph.Declares id path kind wanted) (hc : graph.Consistent)
    (hnone : graph.id? other = none) (otherKind : NodeKind) :
    (graph.insertNode other otherKind).Declares id path kind wanted where
  label := by
    have hne : id ≠ graph.nextId := fun he =>
      hc.fresh (he ▸ mem_nodes_iff.mpr ⟨_, h.label⟩)
    rw [label?_insertNode, if_neg hne, h.label]
  reads j target hp hchild := by
    rw [path?_insertNode] at hp
    rw [hc.reads_insertNode]
    by_cases hj : j = graph.nextId
    · subst hj
      rw [if_pos rfl] at hp
      obtain rfl : other = target := Option.some_inj.mp hp
      have hnew : ¬graph.Reads id graph.nextId := fun hr => hc.fresh (hc.mem_of_reads hr)
      simp [hnew, h.awaits other hchild, hnone]
    · rw [if_neg hj] at hp
      simp [hj, h.reads j target hp hchild]
  awaits target hchild := by
    rw [hc.awaits_insertNode, h.awaits target hchild, id?_insertNode]
    by_cases ht : target = other <;> simp [ht]

theorem addEntries (h : graph.Declares id path kind wanted) (hc : graph.Consistent)
    (entries : List (Path × NodeKind)) (check : Bool) :
    (graph.addEntries entries check).1.Declares id path kind wanted := by
  refine (List.foldlRecOn entries (addNode check)
    (motive := fun state : Graph × List Path =>
      state.1.Declares id path kind wanted ∧ state.1.Consistent) ⟨h, hc⟩
    fun state hs entry _ => ⟨?_, hs.2.addNode⟩).1
  obtain ⟨now, added⟩ := state
  obtain ⟨other, otherKind⟩ := entry
  cases hid : now.id? other with
  | none =>
      rw [addNode_of_missing hid]
      exact hs.1.insertNode hs.2 hid otherKind
  | some found =>
      rw [addNode_of_contains (contains_of_id? hid)]
      exact hs.1

-- A target that is removed is awaited instead of read.
theorem removeNode {removed : Bool} (h : graph.Declares id path kind wanted)
    (hc : graph.Consistent) (hne : other ≠ path) :
    (Graph.removeNode (graph, removed) other).1.Declares id path kind wanted := by
  cases hid : graph.id? other with
  | none =>
      rw [removeNode_of_none hid]
      exact h
  | some gone =>
      obtain ⟨node, hnode⟩ := hc.node_of_id? hid
      have hgone : graph.path? gone = some other := hc.path?_of_id? other gone hid
      have hkeep : id ≠ gone := by
        rintro rfl
        exact hne (Option.some_inj.mp (hgone.symm.trans h.path?))
      rw [removeNode_of_some hid hnode]
      refine ⟨?_, fun j target hp hchild => ?_, fun target hchild => ?_⟩
      · rw [label?_removeFound, if_neg hkeep, h.label]
      · rw [path?_removeFound] at hp
        split at hp
        · cases hp
        · next hj =>
          rw [hc.reads_removeFound hnode, h.reads j target hp hchild]
          simp [hkeep, hj]
      · rw [hc.awaits_removeFound hnode, id?_removeFound, h.awaits target hchild]
        by_cases ht : target = other
        · subst ht
          have haside : graph.ReadsAside target id := ⟨path, h.path?, hchild⟩
          simp [hkeep, hid, h.reads gone target hgone hchild, haside]
        · simp [hkeep, ht]

theorem removeNodes (h : graph.Declares id path kind wanted) (hc : graph.Consistent)
    (hnot : path ∉ paths) : (graph.removeNodes paths).1.Declares id path kind wanted :=
  (List.foldlRecOn paths Graph.removeNode
    (motive := fun state : Graph × Bool =>
      state.1.Declares id path kind wanted ∧ state.1.Consistent) ⟨h, hc⟩
    fun _ hs _ hm => ⟨hs.1.removeNode hs.2 fun he => hnot (he ▸ hm), hs.2.removeNode⟩).1

-- What another node declares changes only what that node reads and awaits.
theorem addDependency (h : graph.Declares id path kind wanted) (hc : graph.Consistent)
    (hne : other ≠ path) (targets : List Path) :
    (graph.addDependency other targets).1.Declares id path kind wanted := by
  have hensure : (graph.ensure other).Declares id path kind wanted := by
    cases hid : graph.id? other with
    | some found =>
        rw [ensure_of_some hid]
        exact h
    | none =>
        rw [ensure_of_none hid]
        exact h.insertNode hc hid _
  obtain ⟨found, hid⟩ := id?_ensure graph other
  have hkeep : id ≠ found := by
    rintro rfl
    have hp := hc.ensure.path?_of_id? other id hid
    exact hne (Option.some_inj.mp (hp.symm.trans hensure.path?))
  rw [addDependency_eq hid]
  exact hensure.of_sameNodes (sameNodes_redeclare _ _)
    (fun _ _ _ _ => hc.ensure.reads_redeclare_of_ne hkeep)
    fun _ => awaits_redeclare_of_ne hkeep

-- Linking containers adds edges to direct children only.
theorem linksChildren (h : graph.Declares id path kind wanted) (hl : LinksChildren graph second) :
    second.Declares id path kind wanted := by
  refine h.of_sameNodes hl.nodes (fun j target hp hchild => ⟨fun hr => ?_, hl.keeps id j⟩)
    fun _ => hl.waiting.awaits
  rcases hl.adds id j hr with hold | ⟨hs, _⟩
  · exact hold
  · obtain ⟨above, below, ha, hb, hs⟩ := isStructural_iff.mp hs
    obtain rfl : path = above := Option.some_inj.mp (h.path?.symm.trans ha)
    obtain rfl : target = below := Option.some_inj.mp (hp.symm.trans hb)
    exact absurd (hchild.symm.trans hs) Bool.false_ne_true

end Declares

theorem accepts_iff_of_label (hl : graph.label? id = some (path, kind)) :
    graph.Accepts id ↔ kind.acceptsDependencies = true := by
  simp [Accepts, hl]

theorem Consistent.accepts_of_any (hc : graph.Consistent) (hl : graph.label? id = some (path, kind))
    (ha : (graph.node? path).any (fun node => node.kind.acceptsDependencies) = true) :
    kind.acceptsDependencies = true := by
  obtain ⟨node, hnode, hk⟩ := (Option.any_eq_true _ _).mp ha
  have hkind := hc.kind_of_label hl
  rw [hnode] at hkind
  cases hkind
  exact hk

-- Right after it has declared its targets, a node reads those that are nodes
-- and awaits the others. A node that accepts no dependencies does neither.
theorem Consistent.declares_redeclare (hc : graph.Consistent)
    (hl : graph.label? id = some (path, kind)) (targets : List Path)
    (affected : OrderedSet Path) :
    (graph.redeclare id targets affected).1.Declares id path kind
      fun target => kind.acceptsDependencies = true ∧ target ∈ targets ∧ target ≠ path := by
  have hp : graph.path? id = some path := path?_of_label hl
  have hs : SameNodes graph (graph.redeclare id targets affected).1 := sameNodes_redeclare _ _
  have hl' := (hs.label id).trans hl
  refine ⟨hl', fun j target hj hchild => ?_, fun target hchild => ?_⟩
  · rw [hs.path?] at hj
    by_cases hk : kind.acceptsDependencies = true
    · have hstruct : graph.isStructural id j = false := by
        simp [Graph.isStructural, hp, hj, hchild]
      rw [hc.reads_redeclare hl hk, if_pos rfl]
      simp [hc.id?_iff, hj, hk, hstruct]
    · exact iff_of_false
        (fun hr => hk ((accepts_iff_of_label hl').mp (hc.redeclare.reads_accepts _ _ hr)))
        fun hw => hk hw.1
  · by_cases hk : kind.acceptsDependencies = true
    · rw [awaits_redeclare hl hk, if_pos rfl, hs.id?]
      simp [hk, and_assoc]
    · exact iff_of_false
        (fun hr => hk ((accepts_iff_of_label hl').mp (hc.redeclare.awaits_accepts _ _ hr)))
        fun hw => hk hw.1.1

theorem Consistent.declares_addDependency (hc : graph.Consistent) (path : Path)
    (targets : List Path) : ∃ id kind, (graph.addDependency path targets).1.Declares id path kind
      fun target => kind.acceptsDependencies = true ∧ target ∈ targets ∧ target ≠ path := by
  obtain ⟨id, hid⟩ := id?_ensure graph path
  obtain ⟨kind, hl⟩ := path?_eq_some_iff.mp (hc.ensure.path?_of_id? path id hid)
  refine ⟨id, kind, ?_⟩
  rw [addDependency_eq hid]
  exact hc.ensure.declares_redeclare hl targets _

-- Neither removes a path nor lets it declare.
def Operation.Spares (path : Path) : Operation → Prop
  | .removeNodes paths => path ∉ paths
  | .addDependency dependent _ => dependent ≠ path
  | .addNodes _ _ | .addNodesOfKind _ _ _ | .linkAll | .linkAbove _ => True

instance (path : Path) : DecidablePred (Operation.Spares path) := fun operation => by
  cases operation <;> unfold Operation.Spares <;> infer_instance

theorem Declares.apply (h : graph.Declares id path kind wanted) (hc : graph.Consistent)
    {operation : Operation} (hs : operation.Spares path) :
    (operation.apply graph).Declares id path kind wanted := by
  cases operation with
  | addNodes paths check => exact h.addEntries hc _ check
  | addNodesOfKind paths kind check => exact h.addEntries hc _ check
  | removeNodes paths => exact h.removeNodes hc hs
  | addDependency dependent targets => exact h.addDependency hc hs targets
  | linkAll => exact h.linksChildren hc.linksChildren_linkAll
  | linkAbove paths => exact h.linksChildren (hc.linksChildren_linkAbove paths)

theorem Declares.foldl (h : graph.Declares id path kind wanted) (hc : graph.Consistent)
    {operations : List Operation} (hs : ∀ operation ∈ operations, operation.Spares path) :
    (operations.foldl Operation.apply graph).Declares id path kind wanted :=
  (List.foldlRecOn operations Operation.apply
    (motive := fun now : Graph => now.Declares id path kind wanted ∧ now.Consistent) ⟨h, hc⟩
    fun _ hnow operation hm => ⟨hnow.1.apply hnow.2 (hs operation hm), hnow.2.apply operation⟩).1

section Asking

variable {target : Path}

theorem Declares.mem_dependencies (h : graph.Declares id path kind wanted) (hc : graph.Consistent)
    (hchild : target.isChildOf path = false) :
    target ∈ graph.dependencies path ↔ wanted target ∧ graph.contains target = true := by
  rw [hc.mem_dependencies, hc.contains_iff]
  constructor
  · rintro ⟨i, j, hi, hr, hj⟩
    obtain rfl : i = id := hc.path?_inj hi h.path?
    exact ⟨(h.reads j target hj hchild).mp hr, j, hj⟩
  · rintro ⟨hw, j, hj⟩
    exact ⟨id, j, h.path?, (h.reads j target hj hchild).mpr hw, hj⟩

theorem Declares.mem_pendingOf (h : graph.Declares id path kind wanted) (hc : graph.Consistent)
    (hchild : target.isChildOf path = false) :
    target ∈ graph.pendingOf path ↔ wanted target ∧ graph.contains target = false := by
  have hnone : graph.contains target = false ↔ graph.id? target = none := by simp [contains]
  rw [hc.mem_pendingOf, hnone, ← h.awaits target hchild]
  constructor
  · rintro ⟨i, hi, ha⟩
    obtain rfl : i = id := hc.path?_inj hi h.path?
    exact ha
  · exact fun ha => ⟨id, h.path?, ha⟩

theorem Declares.mem_declared (h : graph.Declares id path kind wanted) (hc : graph.Consistent)
    (hchild : target.isChildOf path = false) : target ∈ graph.declared path ↔ wanted target := by
  rw [declared, List.mem_append, h.mem_dependencies hc hchild, h.mem_pendingOf hc hchild]
  cases graph.contains target <;> simp

end Asking

-- Whatever is done to other nodes, a node declares its last targets, its
-- direct children aside, until it is removed.
theorem declared_run (before after : List Operation) (dependent : Path) (targets : List Path)
    (hspares : ∀ operation ∈ after, operation.Spares dependent)
    (haccepts : ((run (before ++ .addDependency dependent targets :: after)).node? dependent).any
      (fun node => node.kind.acceptsDependencies) = true) :
    let graph := run (before ++ .addDependency dependent targets :: after)
    (∀ target, target.isChildOf dependent = false →
      (target ∈ graph.declared dependent ↔ target ∈ targets ∧ target ≠ dependent)) ∧
    ∀ target ∈ targets, target ≠ dependent → target.isChildOf dependent = false →
      (target ∈ graph.dependencies dependent ↔ graph.contains target = true) ∧
      (target ∈ graph.pendingOf dependent ↔ graph.contains target = false) ∧
      (graph.contains target = true → dependent ∈ graph.dependents target) := by
  intro graph
  have hc : graph.Consistent := .run _
  have hsplit : graph =
      after.foldl Operation.apply ((run before).addDependency dependent targets).1 := by
    simp only [graph, run, List.foldl_append, List.foldl_cons]
    rfl
  obtain ⟨id, kind, hdeclares⟩ := (Consistent.run before).declares_addDependency dependent targets
  have h := hdeclares.foldl ((Consistent.run before).addDependency dependent targets) hspares
  rw [← hsplit] at h
  have hk : kind.acceptsDependencies = true := hc.accepts_of_any h.label haccepts
  refine ⟨fun target hchild => ?_, fun target ht hne hchild => ⟨?_, ?_, fun hcontains => ?_⟩⟩
  · simp [h.mem_declared hc hchild, hk]
  · simp [h.mem_dependencies hc hchild, hk, ht, hne]
  · simp [h.mem_pendingOf hc hchild, hk, ht, hne]
  · obtain ⟨j, hj⟩ := hc.contains_iff.mp hcontains
    exact hc.mem_dependents.mpr
      ⟨id, j, h.path?, (h.reads j target hj hchild).mpr ⟨hk, ht, hne⟩, hj⟩

-- A target that is removed and comes back is read again, beside a child and
-- what another node declares in between.
theorem declared_returning_target :
    let reader := Path.parseLenient "Panel.label"
    let target := Path.parseLenient "Input.text"
    let before := [Operation.addNodes [reader, target, .parseLenient "Panel.label.size"] true]
    let after := [Operation.linkAll, .removeNodes [target],
      .addDependency (.parseLenient "Panel") [target], .addNodes [target] true]
    let graph := run (before ++ .addDependency reader [target, reader] :: after)
    (graph.declared reader).length = 2 ∧ (target ∈ graph.declared reader ↔
      target ∈ [target, reader] ∧ target ≠ reader) ∧ reader ∈ graph.dependents target := by
  intro reader target before after graph
  have h := declared_run before after reader [target, reader] (by decide +kernel)
    (by decide +kernel)
  exact ⟨by decide +kernel, h.1 target (by decide +kernel),
    (h.2 target (by decide +kernel) (by decide +kernel) (by decide +kernel)).2.2
      (by decide +kernel)⟩

end Recalc.Graph
