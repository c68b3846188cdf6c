import Mathlib.Logic.Function.Basic
import Recalc.Proofs.Graph.History

namespace Recalc.Graph

structure Wired (linked : Bool) (declared : Path → List Path) (graph : Graph) : Prop where
  reads : ∀ i j path, graph.path? i = some path → graph.Accepts i →
    (graph.Reads i j ↔ (∃ target ∈ declared path, target ≠ path ∧ graph.id? target = some j) ∨
      linked = true ∧ graph.isStructural i j = true)
  awaits : ∀ i target path, graph.path? i = some path → graph.Accepts i →
    (graph.Awaits i target ↔ target ∈ declared path ∧ target ≠ path ∧ graph.id? target = none)
  -- Only nodes declare anything.
  owned : ∀ path, graph.id? path = none → declared path = []

variable {graph first second : Graph} {declared : Path → List Path} {linked : Bool}
  {path : Path} {kind : NodeKind} {targets : List Path} {id i j : Nat} {affected : OrderedSet Path}

-- The same if of the children of a node only some are linked, those that are
-- held.
structure Woven (held : Path → Prop) (declared : Path → List Path) (graph : Graph) : Prop where
  reads : ∀ i j path, graph.path? i = some path → graph.Accepts i →
    (graph.Reads i j ↔ (∃ target ∈ declared path, target ≠ path ∧ graph.id? target = some j) ∨
      ∃ child, graph.path? j = some child ∧ child.isChildOf path = true ∧ held child)
  awaits : ∀ i target path, graph.path? i = some path → graph.Accepts i →
    (graph.Awaits i target ↔ target ∈ declared path ∧ target ≠ path ∧ graph.id? target = none)
  owned : ∀ path, graph.id? path = none → declared path = []

namespace Woven

variable {held : Path → Prop}

-- A new node declares nothing, and those who declare it read it. It is not
-- held, nor does it hold anything.
theorem insertNode (h : Woven held declared graph) (hc : graph.Consistent)
    (hnone : graph.id? path = none) (hout : ¬held path)
    (hbelow : ∀ child, held child → child.isChildOf path = false) :
    Woven held declared (graph.insertNode path kind) := by
  refine ⟨fun i j other hp ha => ?_, fun i target other hp ha => ?_, fun other ho => ?_⟩
  · rw [path?_insertNode] at hp
    rw [hc.reads_insertNode, path?_insertNode]
    simp only [id?_insertNode]
    by_cases hi : i = graph.nextId
    · subst hi
      obtain rfl : path = other := Option.some_inj.mp ((if_pos rfl).symm.trans hp)
      rw [h.owned path hnone]
      simp only [List.not_mem_nil, false_and, exists_false, false_or]
      refine iff_of_false (not_or.mpr ⟨fun hr => hc.fresh hr.mem, ?_⟩) ?_
      · exact fun hw => hc.fresh (hc.owner _ _ hw.2)
      · rintro ⟨child, _, hchild, hheld⟩
        rw [hbelow child hheld] at hchild
        cases hchild
    · rw [if_neg hi] at hp
      rw [accepts_insertNode_of_ne hi] at ha
      rw [h.reads i j other hp ha, h.awaits i path other hp ha]
      by_cases hj : j = graph.nextId
      · subst hj
        constructor
        · rintro ((⟨target, _, _, ht⟩ | ⟨child, hchild, _⟩) | ⟨_, hdeclared⟩)
          · exact absurd ht hc.id?_ne_nextId
          · rw [hc.path?_nextId] at hchild
            cases hchild
          · exact Or.inl ⟨path, hdeclared.1, hdeclared.2.1, if_pos rfl⟩
        · rintro (⟨target, ht, hne, hid⟩ | ⟨child, hchild, _, hheld⟩)
          · split at hid
            · next he => exact Or.inr ⟨rfl, he ▸ ht, he ▸ hne, hnone⟩
            · exact absurd hid hc.id?_ne_nextId
          · rw [if_pos rfl] at hchild
            cases hchild
            exact absurd hheld hout
      · rw [if_neg hj, or_iff_left fun hn => hj hn.1]
        refine or_congr (exists_congr fun target => and_congr_right fun _ =>
          and_congr_right fun _ => ?_) Iff.rfl
        split
        · next he =>
          rw [he, hnone]
          exact ⟨fun hs => (Option.some_ne_none _ hs.symm).elim,
            fun hs => absurd (Option.some_inj.mp hs).symm hj⟩
        · exact Iff.rfl
  · rw [path?_insertNode] at hp
    rw [hc.awaits_insertNode, id?_insertNode]
    by_cases hi : i = graph.nextId
    · subst hi
      obtain rfl : path = other := Option.some_inj.mp ((if_pos rfl).symm.trans hp)
      rw [h.owned path hnone]
      simp only [List.not_mem_nil, false_and, iff_false, not_and]
      exact fun hw => absurd (hc.owner _ _ hw) hc.fresh
    · rw [if_neg hi] at hp
      rw [accepts_insertNode_of_ne hi] at ha
      rw [h.awaits i target other hp ha]
      by_cases ht : target = path <;> simp [ht]
  · rw [id?_insertNode] at ho
    split at ho
    · cases ho
    · exact h.owned other ho

-- Of the entries only those count that are no nodes yet.
theorem addEntries (h : Woven held declared graph) (hc : graph.Consistent)
    {entries : List (Path × NodeKind)}
    (hnew : ∀ entry ∈ entries, graph.contains entry.1 = false →
      ¬held entry.1 ∧ ∀ child, held child → child.isChildOf entry.1 = false) :
    Woven held declared (graph.addEntries entries true).1 := by
  refine (List.foldlRecOn entries (Graph.addNode true)
    (motive := fun state : Graph × List Path => Woven held declared state.1 ∧ state.1.Consistent ∧
      ∀ path, graph.contains path = true → state.1.contains path = true) ⟨h, hc, fun _ => id⟩
    fun state hs entry he => ?_).1
  obtain ⟨now, added⟩ := state
  obtain ⟨path, kind⟩ := entry
  obtain ⟨hwoven, hconsistent, hkept⟩ := hs
  cases hid : now.id? path with
  | some id =>
      rw [addNode_of_contains (contains_of_id? hid)]
      exact ⟨hwoven, hconsistent, hkept⟩
  | none =>
      have hmissing : graph.contains path = false := Bool.eq_false_iff.mpr fun hm => by
        cases (not_contains_of_id? hid).symm.trans (hkept path hm)
      obtain ⟨hout, hbelow⟩ := hnew _ he hmissing
      rw [addNode_of_missing hid]
      exact ⟨hwoven.insertNode hconsistent hid hout hbelow, hconsistent.insertNode hid,
        fun other ho => contains_insertNode.mpr (Or.inl (hkept other ho))⟩

end Woven

theorem wired_iff_woven :
    Wired linked declared graph ↔ Woven (fun _ => linked = true) declared graph := by
  have hchild : ∀ i j path, graph.path? i = some path →
      (linked = true ∧ graph.isStructural i j = true ↔
        ∃ child, graph.path? j = some child ∧ child.isChildOf path = true ∧ linked = true) := by
    intro i j path hp
    rw [isStructural_iff]
    constructor
    · rintro ⟨hl, above, child, ha, hj, hs⟩
      obtain rfl : path = above := Option.some_inj.mp (hp.symm.trans ha)
      exact ⟨child, hj, hs, hl⟩
    · rintro ⟨child, hj, hs, hl⟩
      exact ⟨hl, path, child, hp, hj, hs⟩
  constructor
  · rintro ⟨hreads, hawaits, howned⟩
    exact ⟨fun i j path hp ha => (hreads i j path hp ha).trans (or_congr Iff.rfl (hchild i j path hp)),
      hawaits, howned⟩
  · rintro ⟨hreads, hawaits, howned⟩
    exact ⟨fun i j path hp ha =>
      (hreads i j path hp ha).trans (or_congr Iff.rfl (hchild i j path hp).symm), hawaits, howned⟩

namespace Wired

theorem insertNode (h : Wired false declared graph) (hc : graph.Consistent)
    (hnone : graph.id? path = none) : Wired false declared (graph.insertNode path kind) :=
  wired_iff_woven.mpr ((wired_iff_woven.mp h).insertNode hc hnone Bool.false_ne_true
    fun _ hheld => absurd hheld Bool.false_ne_true)

theorem empty : Wired linked (fun _ => []) ∅ :=
  ⟨fun _ _ _ _ ⟨_, _, hl, _⟩ => (Option.some_ne_none _ hl.symm).elim,
    fun _ _ _ _ ⟨_, _, hl, _⟩ => (Option.some_ne_none _ hl.symm).elim, fun _ _ => rfl⟩

theorem addEntries (h : Wired false declared graph) (hc : graph.Consistent)
    (entries : List (Path × NodeKind)) :
    Wired false declared (graph.addEntries entries true).1 :=
  wired_iff_woven.mpr ((wired_iff_woven.mp h).addEntries hc fun _ _ _ =>
    ⟨Bool.false_ne_true, fun _ hheld => absurd hheld Bool.false_ne_true⟩)

-- A node that declares anew keeps nothing of what it declared before, unless
-- it declares it again or its children are linked anyway.
theorem redeclare (h : Wired linked declared graph) (hc : graph.Consistent)
    (hid : graph.id? path = some id) (hkeep : linked = true ∨ declared path ⊆ targets) :
    Wired linked (Function.update declared path targets) (graph.redeclare id targets affected).1 := by
  have hs : SameNodes graph (graph.redeclare id targets affected).1 := sameNodes_redeclare _ _
  have hpath := hc.path?_of_id? path id hid
  have hother : ∀ {i other}, i ≠ id → graph.path? i = some other →
      Function.update declared path targets other = declared other := by
    intro i other hi hp
    refine Function.update_of_ne ?_ _ _
    rintro rfl
    exact hi (hc.path?_inj hp hpath)
  refine ⟨fun i j other hp ha => ?_, fun i target other hp ha => ?_, fun other ho => ?_⟩
  · rw [hs.path?] at hp
    rw [hs.accepts] at ha
    simp only [hs.id?, hs.isStructural]
    by_cases hi : i = id
    · subst hi
      obtain rfl : path = other := Option.some_inj.mp (hpath.symm.trans hp)
      obtain ⟨kind, hl, hk⟩ := label_of_accepts hp ha
      rw [hc.reads_redeclare hl hk, if_pos rfl, Function.update_self, h.reads i j path hp ha]
      constructor
      · rintro (hnew | ⟨⟨target, ht, hne, hj⟩ | hlinked, hstruct⟩)
        · exact Or.inl hnew
        · rcases hkeep with hlinked | hsub
          · exact Or.inr ⟨hlinked, hstruct⟩
          · exact Or.inl ⟨target, hsub ht, hne, hj⟩
        · exact Or.inr hlinked
      · rintro (hnew | hlinked)
        · exact Or.inl hnew
        · exact Or.inr ⟨Or.inr hlinked, hlinked.2⟩
    · rw [hc.reads_redeclare_of_ne hi, hother hi hp]
      exact h.reads i j other hp ha
  · rw [hs.path?] at hp
    rw [hs.accepts] at ha
    rw [hs.id?]
    by_cases hi : i = id
    · subst hi
      obtain rfl : path = other := Option.some_inj.mp (hpath.symm.trans hp)
      obtain ⟨kind, hl, hk⟩ := label_of_accepts hp ha
      rw [awaits_redeclare hl hk, if_pos rfl, Function.update_self]
    · rw [awaits_redeclare_of_ne hi, hother hi hp]
      exact h.awaits i target other hp ha
  · rw [hs.id?] at ho
    have hne : other ≠ path := by
      rintro rfl
      rw [hid] at ho
      cases ho
    rw [Function.update_of_ne hne]
    exact h.owned other ho

-- A path that declares is a node from then on.
theorem addDependency (h : Wired false declared graph) (hc : graph.Consistent)
    (hsub : declared path ⊆ targets) :
    Wired false (Function.update declared path targets) (graph.addDependency path targets).1 := by
  have hensure : Wired false declared (graph.ensure path) := by
    cases hid : graph.id? path with
    | some id =>
        rw [ensure_of_some hid]
        exact h
    | none =>
        rw [ensure_of_none hid]
        exact h.insertNode hc hid
  obtain ⟨id, hid⟩ := id?_ensure graph path
  rw [addDependency_eq hid]
  exact hensure.redeclare hc.ensure hid (Or.inr hsub)

-- A node of a linked graph declares anew.
theorem addDependency_of_id? (h : Wired true declared graph) (hc : graph.Consistent)
    (hid : graph.id? path = some id) :
    Wired true (Function.update declared path targets) (graph.addDependency path targets).1 := by
  have hensure : (graph.ensure path).id? path = some id := by rw [ensure_of_some hid, hid]
  rw [addDependency_eq hensure, ensure_of_some hid]
  exact h.redeclare hc hid (Or.inl rfl)

-- Linking leaves what is declared and what is waited for.
theorem relinked {before : Bool} (h : Wired before declared first) (hl : LinksChildren first second)
    (hreads : ∀ i j path, first.path? i = some path → first.Accepts i →
      (second.Reads i j ↔ first.Reads i j ∨ linked = true ∧ first.isStructural i j = true))
    (hbefore : before = true → linked = true) : Wired linked declared second := by
  refine ⟨fun i j path hp ha => ?_, fun i target path hp ha => ?_, fun path hp => ?_⟩
  · rw [hl.nodes.path?] at hp
    rw [hl.nodes.accepts] at ha
    simp only [hreads i j path hp ha, hl.nodes.id?, hl.nodes.isStructural, h.reads i j path hp ha,
      or_assoc]
    refine or_congr Iff.rfl ⟨fun hr => ?_, Or.inr⟩
    exact hr.elim (fun hr => ⟨hbefore hr.1, hr.2⟩) id
  · rw [hl.nodes.path?] at hp
    rw [hl.nodes.accepts] at ha
    rw [hl.waiting.awaits, hl.nodes.id?]
    exact h.awaits i target path hp ha
  · rw [hl.nodes.id?] at hp
    exact h.owned path hp

theorem linkAll (h : Wired false declared graph) (hc : graph.Consistent) :
    Wired true declared graph.linkAll.1 := by
  refine h.relinked hc.linksChildren_linkAll (fun i j path hp ha => ?_) fun _ => rfl
  simp only [hc.reads_linkAll, Contains, ha, and_true, true_and]

-- In a linked graph there is nothing to link.
theorem linksChildren (h : Wired true declared first) (hl : LinksChildren first second) :
    Wired true declared second := by
  refine h.relinked hl (fun i j path hp ha => ⟨fun hr => ?_, fun hr => ?_⟩) id
  · exact (hl.adds i j hr).imp_right fun hcontains => ⟨rfl, hcontains.1⟩
  · exact hl.keeps i j (hr.elim id fun hs => (h.reads i j path hp ha).mpr (Or.inr hs))

-- Wired graphs with the same nodes have the same edges, live and pending.
theorem reads_iff (h : Wired linked declared first) (k : Wired linked declared second)
    (hs : SameNodes first second) (hf : first.Consistent) (hc : second.Consistent) :
    second.Reads i j ↔ first.Reads i j := by
  by_cases ha : first.Accepts i
  · have ⟨path, kind, hl, _⟩ := ha
    have hp := path?_of_label hl
    rw [h.reads i j path hp ha, k.reads i j path (by rw [hs.path?, hp]) (hs.accepts.mpr ha)]
    simp only [hs.id?, hs.isStructural]
  · exact iff_of_false (fun hr => ha (hs.accepts.mp (hc.reads_accepts i j hr)))
      fun hr => ha (hf.reads_accepts i j hr)

theorem awaits_iff {target : Path} (h : Wired linked declared first)
    (k : Wired linked declared second) (hs : SameNodes first second) (hf : first.Consistent)
    (hc : second.Consistent) : second.Awaits i target ↔ first.Awaits i target := by
  by_cases ha : first.Accepts i
  · have ⟨path, kind, hl, _⟩ := ha
    have hp := path?_of_label hl
    rw [h.awaits i target path hp ha,
      k.awaits i target path (by rw [hs.path?, hp]) (hs.accepts.mpr ha), hs.id?]
  · exact iff_of_false (fun hr => ha (hs.accepts.mp (hc.awaits_accepts i target hr)))
      fun hr => ha (hf.awaits_accepts i target hr)

end Wired

section Renewed

variable {α : Type} {before now : Path → α} {done : List Path}

-- What paths have after some of them have been dealt with.
def renewed (before now : Path → α) (done : List Path) (path : Path) : α :=
  if path ∈ done then now path else before path

theorem update_renewed (before now : Path → α) (done : List Path) (path : Path) :
    Function.update (renewed before now done) path (now path) =
      renewed before now (done ++ [path]) := by
  funext other
  by_cases ho : other = path
  · subst ho
    rw [Function.update_self, renewed, if_pos (by simp)]
  · simp only [Function.update_of_ne ho, renewed, List.mem_append, List.mem_singleton, ho, or_false]

end Renewed

section All

def declareAll (graph : Graph) (targets : Path → List Path) (paths : List Path) : Graph :=
  paths.foldl (fun graph path => (graph.addDependency path (targets path)).1) graph

variable {targets others : Path → List Path} {paths : List Path}

theorem Consistent.declareAll (h : graph.Consistent) (targets : Path → List Path)
    (paths : List Path) : (graph.declareAll targets paths).Consistent :=
  List.foldlRecOn paths _ (motive := Consistent) h fun _ hg path _ =>
    hg.addDependency path _

-- After all paths have declared, in any order, each has its targets.
theorem Wired.declareAll (h : Wired false (fun _ => []) graph) (hc : graph.Consistent)
    (targets : Path → List Path) (paths : List Path) :
    Wired false (renewed (fun _ => []) targets paths) (graph.declareAll targets paths) := by
  have hfold : ∀ (paths done : List Path) (graph : Graph), graph.Consistent →
      Wired false (renewed (fun _ => []) targets done) graph →
        Wired false (renewed (fun _ => []) targets (done ++ paths))
          (graph.declareAll targets paths) := by
    intro paths
    induction paths with
    | nil =>
        intro done graph _ h
        rw [List.append_nil]
        exact h
    | cons path rest ih =>
        intro done graph hc h
        have hsub : renewed (fun _ => []) targets done path ⊆ targets path := by
          unfold renewed
          split
          · exact List.Subset.refl _
          · exact List.nil_subset _
        have hstep := h.addDependency hc hsub
        rw [update_renewed] at hstep
        rw [List.append_cons]
        exact ih (done ++ [path]) _ (hc.addDependency path _) hstep
  have hnone : renewed (fun _ => []) targets [] = fun _ => [] := rfl
  exact hfold paths [] graph hc (hnone ▸ h)

end All

section Nodes

-- Which nodes there are does not depend on what is declared.
theorem SameNodes.insertNode (h : SameNodes first second) :
    SameNodes (first.insertNode path kind) (second.insertNode path kind) where
  ids := by
    rw [insertNode_eq, insertNode_eq, (sameNodes_promote _ _).ids, (sameNodes_promote _ _).ids,
      grow, grow]
    dsimp only
    rw [h.ids, h.nextId]
  nextId := by rw [nextId_insertNode, nextId_insertNode, h.nextId]
  label id := by rw [label?_insertNode, label?_insertNode, h.nextId, h.label]

theorem SameNodes.ensure (h : SameNodes first second) (path : Path) :
    SameNodes (first.ensure path) (second.ensure path) := by
  unfold Graph.ensure
  rw [h.contains]
  split
  · exact h
  · exact h.insertNode

theorem contains_ensure {other : Path} (h : graph.contains other = true) :
    (graph.ensure path).contains other = true := by
  unfold Graph.ensure
  split
  · exact h
  · exact contains_insertNode.mpr (Or.inl h)

theorem contains_declareAll {targets : Path → List Path} {paths : List Path}
    (h : graph.contains path = true) : (graph.declareAll targets paths).contains path = true :=
  List.foldlRecOn paths _ (motive := fun graph : Graph => graph.contains path = true) h
    fun now hg other _ =>
      ((sameNodes_addDependency now other _).contains path).trans (contains_ensure hg)

theorem contains_of_mem_declareAll {targets : Path → List Path} {paths : List Path}
    (h : path ∈ paths) : (graph.declareAll targets paths).contains path = true := by
  obtain ⟨before, after, rfl⟩ := List.append_of_mem h
  have hsplit : graph.declareAll targets (before ++ path :: after) =
      (((graph.declareAll targets before).addDependency path (targets path)).1).declareAll
        targets after := by
    rw [declareAll, List.foldl_append, List.foldl_cons]
    rfl
  rw [hsplit]
  refine contains_declareAll ?_
  obtain ⟨id, hid⟩ := id?_ensure (graph.declareAll targets before) path
  rw [(sameNodes_addDependency _ path _).contains, contains, hid]
  rfl

theorem SameNodes.symm (h : SameNodes first second) : SameNodes second first :=
  ⟨h.ids.symm, h.nextId.symm, fun id => (h.label id).symm⟩

theorem SameNodes.declareAll (h : SameNodes first second) (targets others : Path → List Path)
    (paths : List Path) :
    SameNodes (first.declareAll targets paths) (second.declareAll others paths) := by
  unfold Graph.declareAll
  induction paths generalizing first second with
  | nil => exact h
  | cons path rest ih =>
      exact ih ((sameNodes_addDependency first path _).symm.trans
        ((h.ensure path).trans (sameNodes_addDependency second path _)))

end Nodes

end Recalc.Graph
