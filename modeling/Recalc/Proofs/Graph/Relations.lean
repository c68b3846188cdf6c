import Recalc.Graph.Operations
import Mathlib.Tactic.Common

namespace Recalc.Graph

def label? (graph : Graph) (id : Nat) : Option (Path × NodeKind) :=
  (graph.nodes[id]?).map fun node => (node.path, node.kind)

-- An edge by the entry of the node that reads.
def Reads (graph : Graph) (dependent dependency : Nat) : Prop :=
  ∃ node, graph.nodes[dependent]? = some node ∧ dependency ∈ node.dependencies

-- An edge by the entry of the node that is read.
def IsRead (graph : Graph) (dependency dependent : Nat) : Prop :=
  ∃ node, graph.nodes[dependency]? = some node ∧ dependent ∈ node.dependents

def waitersAt (graph : Graph) (target : Path) : OrderedSet Nat := graph.waiting.getD target ∅

def Awaits (graph : Graph) (dependent : Nat) (target : Path) : Prop :=
  target ∈ graph.pendingAt dependent

def IsAwaited (graph : Graph) (target : Path) (dependent : Nat) : Prop :=
  dependent ∈ graph.waitersAt target

def Accepts (graph : Graph) (id : Nat) : Prop :=
  ∃ path kind, graph.label? id = some (path, kind) ∧ kind.acceptsDependencies = true

-- The two sides of every edge agree.
def Mirrored (graph : Graph) : Prop := ∀ i j, graph.Reads i j ↔ graph.IsRead j i

-- The two tables of what is waited for agree.
def Queued (graph : Graph) : Prop := ∀ i target, graph.Awaits i target ↔ graph.IsAwaited target i

-- A table never keeps an empty set.
structure Tight (graph : Graph) : Prop where
  pending : ∀ (dependent : Nat) (targets : OrderedSet Path),
    graph.pending[dependent]? = some targets → targets.isEmpty = false
  waiting : ∀ (target : Path) (waiters : OrderedSet Nat),
    graph.waiting[target]? = some waiters → waiters.isEmpty = false

variable {graph : Graph}

theorem path?_eq_some_iff {id : Nat} {path : Path} :
    graph.path? id = some path ↔ ∃ kind, graph.label? id = some (path, kind) := by
  simp [path?, label?]

theorem path?_of_label {id : Nat} {path : Path} {kind : NodeKind}
    (h : graph.label? id = some (path, kind)) : graph.path? id = some path :=
  path?_eq_some_iff.mpr ⟨kind, h⟩

theorem contains_of_id? {id : Nat} {path : Path} (h : graph.id? path = some id) :
    graph.contains path = true := by
  rw [contains, h]
  rfl

theorem not_contains_of_id? {path : Path} (h : graph.id? path = none) :
    graph.contains path = false := by
  rw [contains, h]
  rfl

theorem label_of_accepts {id : Nat} {path : Path} (hp : graph.path? id = some path)
    (ha : graph.Accepts id) :
    ∃ kind, graph.label? id = some (path, kind) ∧ kind.acceptsDependencies = true := by
  obtain ⟨found, kind, hl, hk⟩ := ha
  obtain rfl : path = found := Option.some_inj.mp (hp.symm.trans (path?_of_label hl))
  exact ⟨kind, hl, hk⟩

theorem mem_nodes_iff {id : Nat} : id ∈ graph.nodes ↔ ∃ label, graph.label? id = some label := by
  rw [Std.TreeMap.mem_iff_isSome_getElem?, Option.isSome_iff_exists]
  constructor
  · rintro ⟨node, h⟩
    exact ⟨_, by rw [label?, h]; rfl⟩
  · rintro ⟨label, h⟩
    obtain ⟨node, h, _⟩ := Option.map_eq_some_iff.mp h
    exact ⟨node, h⟩

theorem mem_nodes_iff_path {id : Nat} : id ∈ graph.nodes ↔ ∃ path, graph.path? id = some path := by
  simp only [mem_nodes_iff, path?_eq_some_iff, Prod.exists]

theorem Reads.mem {dependent dependency : Nat} (h : graph.Reads dependent dependency) :
    dependent ∈ graph.nodes := by
  obtain ⟨node, hnode, _⟩ := h
  exact Std.TreeMap.mem_iff_isSome_getElem?.mpr (by rw [hnode]; rfl)

theorem IsRead.mem {dependency dependent : Nat} (h : graph.IsRead dependency dependent) :
    dependency ∈ graph.nodes := by
  obtain ⟨node, hnode, _⟩ := h
  exact Std.TreeMap.mem_iff_isSome_getElem?.mpr (by rw [hnode]; rfl)

theorem isStructural_iff {parent child : Nat} :
    graph.isStructural parent child = true ↔
      ∃ above below, graph.path? parent = some above ∧ graph.path? child = some below ∧
        below.isChildOf above = true := by
  unfold isStructural
  cases graph.path? parent <;> cases graph.path? child <;> simp

section Update

theorem nodes_update (id other : Nat) (change : Node → Node) :
    (graph.update id change).nodes[other]? =
      (graph.nodes[other]?).map fun node => if other = id then change node else node := by
  simp only [update, Std.TreeMap.getElem?_modify, Std.compare_eq_iff_eq]
  by_cases h : id = other
  · subst h; simp
  · simp [h, Ne.symm h]

theorem label?_update (id other : Nat) {change : Node → Node}
    (hpath : ∀ node, (change node).path = node.path)
    (hkind : ∀ node, (change node).kind = node.kind) :
    (graph.update id change).label? other = graph.label? other := by
  simp only [label?, nodes_update, Option.map_map]
  congr 1
  funext node
  by_cases h : other = id <;> simp [h, hpath, hkind]

theorem mem_nodes_update {id other : Nat} {change : Node → Node} :
    other ∈ (graph.update id change).nodes ↔ other ∈ graph.nodes := by
  rw [Std.TreeMap.mem_iff_isSome_getElem?, Std.TreeMap.mem_iff_isSome_getElem?, nodes_update,
    Option.isSome_map]

theorem reads_update_of_eq {id dependent dependency : Nat} (change : Node → Node)
    (h : ∀ node, (change node).dependencies = node.dependencies) :
    (graph.update id change).Reads dependent dependency ↔ graph.Reads dependent dependency := by
  simp only [Reads, nodes_update, Option.map_eq_some_iff, exists_exists_and_eq_and]
  by_cases he : dependent = id <;> simp [he, h]

theorem isRead_update_of_eq {id dependent dependency : Nat} (change : Node → Node)
    (h : ∀ node, (change node).dependents = node.dependents) :
    (graph.update id change).IsRead dependency dependent ↔ graph.IsRead dependency dependent := by
  simp only [IsRead, nodes_update, Option.map_eq_some_iff, exists_exists_and_eq_and]
  by_cases he : dependency = id <;> simp [he, h]

@[simp] theorem label?_addDependency (id added other : Nat) :
    (graph.update id (.addDependency added)).label? other = graph.label? other :=
  label?_update id other (fun _ => rfl) (fun _ => rfl)

@[simp] theorem label?_addDependent (id added other : Nat) :
    (graph.update id (.addDependent added)).label? other = graph.label? other :=
  label?_update id other (fun _ => rfl) (fun _ => rfl)

@[simp] theorem label?_removeDependency (id removed other : Nat) :
    (graph.update id (.removeDependency removed)).label? other = graph.label? other :=
  label?_update id other (fun _ => rfl) (fun _ => rfl)

@[simp] theorem label?_removeDependent (id removed other : Nat) :
    (graph.update id (.removeDependent removed)).label? other = graph.label? other :=
  label?_update id other (fun _ => rfl) (fun _ => rfl)

@[simp] theorem reads_addDependent {id added dependent dependency : Nat} :
    (graph.update id (.addDependent added)).Reads dependent dependency ↔
      graph.Reads dependent dependency :=
  reads_update_of_eq (.addDependent added) fun _ => rfl

@[simp] theorem reads_removeDependent {id removed dependent dependency : Nat} :
    (graph.update id (.removeDependent removed)).Reads dependent dependency ↔
      graph.Reads dependent dependency :=
  reads_update_of_eq (.removeDependent removed) fun _ => rfl

@[simp] theorem isRead_addDependency {id added dependent dependency : Nat} :
    (graph.update id (.addDependency added)).IsRead dependency dependent ↔
      graph.IsRead dependency dependent :=
  isRead_update_of_eq (.addDependency added) fun _ => rfl

@[simp] theorem isRead_removeDependency {id removed dependent dependency : Nat} :
    (graph.update id (.removeDependency removed)).IsRead dependency dependent ↔
      graph.IsRead dependency dependent :=
  isRead_update_of_eq (.removeDependency removed) fun _ => rfl

theorem reads_addDependency {id added dependent dependency : Nat} :
    (graph.update id (.addDependency added)).Reads dependent dependency ↔
      graph.Reads dependent dependency ∨
        dependent = id ∧ dependency = added ∧ id ∈ graph.nodes := by
  simp only [Reads, nodes_update, Option.map_eq_some_iff, exists_exists_and_eq_and,
    Std.TreeMap.mem_iff_isSome_getElem?, Option.isSome_iff_exists]
  by_cases he : dependent = id
  · subst he
    simp only [if_true, Node.addDependency, OrderedSet.mem_insert, true_and]
    constructor
    · rintro ⟨node, hnode, hold | rfl⟩
      · exact Or.inl ⟨node, hnode, hold⟩
      · exact Or.inr ⟨rfl, node, hnode⟩
    · rintro (⟨node, hnode, hold⟩ | ⟨rfl, node, hnode⟩)
      · exact ⟨node, hnode, Or.inl hold⟩
      · exact ⟨node, hnode, Or.inr rfl⟩
  · simp [he]

theorem isRead_addDependent {id added dependent dependency : Nat} :
    (graph.update id (.addDependent added)).IsRead dependency dependent ↔
      graph.IsRead dependency dependent ∨
        dependency = id ∧ dependent = added ∧ id ∈ graph.nodes := by
  simp only [IsRead, nodes_update, Option.map_eq_some_iff, exists_exists_and_eq_and,
    Std.TreeMap.mem_iff_isSome_getElem?, Option.isSome_iff_exists]
  by_cases he : dependency = id
  · subst he
    simp only [if_true, Node.addDependent, OrderedSet.mem_insert, true_and]
    constructor
    · rintro ⟨node, hnode, hold | rfl⟩
      · exact Or.inl ⟨node, hnode, hold⟩
      · exact Or.inr ⟨rfl, node, hnode⟩
    · rintro (⟨node, hnode, hold⟩ | ⟨rfl, node, hnode⟩)
      · exact ⟨node, hnode, Or.inl hold⟩
      · exact ⟨node, hnode, Or.inr rfl⟩
  · simp [he]

theorem reads_removeDependency {id removed dependent dependency : Nat} :
    (graph.update id (.removeDependency removed)).Reads dependent dependency ↔
      graph.Reads dependent dependency ∧ ¬(dependent = id ∧ dependency = removed) := by
  simp only [Reads, nodes_update, Option.map_eq_some_iff, exists_exists_and_eq_and]
  by_cases he : dependent = id
  · simp [he, Node.removeDependency, ← and_assoc]
  · simp [he]

theorem isRead_removeDependent {id removed dependent dependency : Nat} :
    (graph.update id (.removeDependent removed)).IsRead dependency dependent ↔
      graph.IsRead dependency dependent ∧ ¬(dependency = id ∧ dependent = removed) := by
  simp only [IsRead, nodes_update, Option.map_eq_some_iff, exists_exists_and_eq_and]
  by_cases he : dependency = id
  · simp [he, Node.removeDependent, ← and_assoc]
  · simp [he]

end Update

-- Two graphs with the same nodes, apart from their edges.
structure SameNodes (first second : Graph) : Prop where
  ids : second.ids = first.ids
  nextId : second.nextId = first.nextId
  label : ∀ id, second.label? id = first.label? id

structure SameWaiting (first second : Graph) : Prop where
  pending : second.pending = first.pending
  waiting : second.waiting = first.waiting

namespace SameNodes

variable {first second third : Graph}

theorem refl (graph : Graph) : SameNodes graph graph := ⟨rfl, rfl, fun _ => rfl⟩

theorem trans (h : SameNodes first second) (k : SameNodes second third) :
    SameNodes first third :=
  ⟨k.ids.trans h.ids, k.nextId.trans h.nextId, fun id => (k.label id).trans (h.label id)⟩

theorem id? (h : SameNodes first second) (path : Path) : second.id? path = first.id? path := by
  unfold Graph.id?
  rw [h.ids]

theorem contains (h : SameNodes first second) (path : Path) :
    second.contains path = first.contains path := by
  unfold Graph.contains
  rw [h.id?]

theorem path? (h : SameNodes first second) (id : Nat) : second.path? id = first.path? id := by
  ext path
  simp only [path?_eq_some_iff, h.label]

theorem mem (h : SameNodes first second) {id : Nat} : id ∈ second.nodes ↔ id ∈ first.nodes := by
  simp only [mem_nodes_iff, h.label]

theorem accepts (h : SameNodes first second) {id : Nat} : second.Accepts id ↔ first.Accepts id := by
  simp only [Accepts, h.label]

theorem isStructural (h : SameNodes first second) (parent child : Nat) :
    second.isStructural parent child = first.isStructural parent child := by
  unfold Graph.isStructural
  rw [h.path?, h.path?]

end SameNodes

-- Two graphs with the same nodes and the same edges between them.
structure SameLive (first second : Graph) : Prop where
  nodes : second.nodes = first.nodes
  ids : second.ids = first.ids
  nextId : second.nextId = first.nextId

namespace SameLive

variable {first second third : Graph}

theorem refl (graph : Graph) : SameLive graph graph := ⟨rfl, rfl, rfl⟩

theorem trans (h : SameLive first second) (k : SameLive second third) : SameLive first third :=
  ⟨k.nodes.trans h.nodes, k.ids.trans h.ids, k.nextId.trans h.nextId⟩

theorem sameNodes (h : SameLive first second) : SameNodes first second :=
  ⟨h.ids, h.nextId, fun id => by unfold label?; rw [h.nodes]⟩

theorem reads (h : SameLive first second) {i j : Nat} : second.Reads i j ↔ first.Reads i j := by
  unfold Reads
  rw [h.nodes]

theorem isRead (h : SameLive first second) {i j : Nat} : second.IsRead j i ↔ first.IsRead j i := by
  unfold IsRead
  rw [h.nodes]

theorem mirrored (h : SameLive first second) (hm : first.Mirrored) : second.Mirrored :=
  fun i j => by rw [h.reads, h.isRead, hm]

end SameLive

namespace SameWaiting

variable {first second third : Graph}

theorem refl (graph : Graph) : SameWaiting graph graph := ⟨rfl, rfl⟩

theorem trans (h : SameWaiting first second) (k : SameWaiting second third) :
    SameWaiting first third :=
  ⟨k.pending.trans h.pending, k.waiting.trans h.waiting⟩

theorem awaits (h : SameWaiting first second) {i : Nat} {t : Path} :
    second.Awaits i t ↔ first.Awaits i t := by
  unfold Awaits pendingAt
  rw [h.pending]

theorem isAwaited (h : SameWaiting first second) {i : Nat} {t : Path} :
    second.IsAwaited t i ↔ first.IsAwaited t i := by
  unfold IsAwaited waitersAt
  rw [h.waiting]

theorem queued (h : SameWaiting first second) (hq : first.Queued) : second.Queued :=
  fun i target => by rw [h.awaits, h.isAwaited, hq]

theorem tight (h : SameWaiting first second) (ht : first.Tight) : second.Tight := by
  refine ⟨fun dependent targets => ?_, fun target waiters => ?_⟩
  · rw [h.pending]
    exact ht.pending dependent targets
  · rw [h.waiting]
    exact ht.waiting target waiters

end SameWaiting

-- Two graphs that differ in edges only, each of which has both of its sides.
structure Relinked (first second : Graph) : Prop where
  nodes : SameNodes first second
  waiting : SameWaiting first second
  mirrored : first.Mirrored → second.Mirrored

namespace Relinked

variable {first second third : Graph}

theorem refl (graph : Graph) : Relinked graph graph := ⟨.refl graph, .refl graph, id⟩

theorem trans (h : Relinked first second) (k : Relinked second third) : Relinked first third :=
  ⟨h.nodes.trans k.nodes, h.waiting.trans k.waiting, k.mirrored ∘ h.mirrored⟩

end Relinked

end Recalc.Graph
