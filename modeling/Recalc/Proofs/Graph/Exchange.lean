import Recalc.Proofs.Graph.Drift
import Recalc.Proofs.Graph.Kind

namespace Recalc.Graph

variable {graph first second : Graph} {declared : Path → List Path} {held : Path → Prop}
  {linked removed : Bool} {path above target : Path} {paths : List Path} {i j : Nat}

section Come

-- Linking gives the other children to their containers.
theorem Woven.linksChildren (h : Woven held declared first) (hl : LinksChildren first second)
    (hlinked : ∀ i j child, first.Contains i j → first.path? j = some child → ¬held child →
      second.Reads i j) : Wired true declared second := by
  refine wired_iff_woven.mpr ⟨fun i j path hp ha => ?_, fun i target path hp ha => ?_,
    fun path hp => ?_⟩
  · rw [hl.nodes.path?] at hp
    rw [hl.nodes.accepts] at ha
    have hfirst := h.reads i j path hp ha
    simp only [hl.nodes.id?, hl.nodes.path?, and_true]
    constructor
    · intro hr
      rcases hl.adds i j hr with hold | hc
      · refine (hfirst.mp hold).imp_right ?_
        rintro ⟨child, hj, hchild, _⟩
        exact ⟨child, hj, hchild⟩
      · obtain ⟨above, child, hi, hj, hchild⟩ := isStructural_iff.mp hc.1
        obtain rfl : path = above := Option.some_inj.mp (hp.symm.trans hi)
        exact Or.inr ⟨child, hj, hchild⟩
    · rintro (hdeclared | ⟨child, hj, hchild⟩)
      · exact hl.keeps i j (hfirst.mpr (Or.inl hdeclared))
      · by_cases hheld : held child
        · exact hl.keeps i j (hfirst.mpr (Or.inr ⟨child, hj, hchild, hheld⟩))
        · exact hlinked i j child ⟨isStructural_iff.mpr ⟨path, child, hp, hj, hchild⟩, ha⟩ hj hheld
  · rw [hl.nodes.path?] at hp
    rw [hl.nodes.accepts] at ha
    rw [hl.waiting.awaits, hl.nodes.id?]
    exact h.awaits i target path hp ha
  · rw [hl.nodes.id?] at hp
    exact h.owned path hp

-- In a wired graph every child that is a node is held.
theorem Wired.woven (h : Wired true declared graph) (hc : graph.Consistent) :
    Woven (graph.contains · = true) declared graph := by
  obtain ⟨hreads, hawaits, howned⟩ := wired_iff_woven.mp h
  refine ⟨fun i j path hp ha => (hreads i j path hp ha).trans (or_congr Iff.rfl ?_), hawaits,
    howned⟩
  refine exists_congr fun child => and_congr_right fun hj => and_congr_right fun _ => ?_
  exact iff_of_true rfl (hc.contains_iff.mpr ⟨j, hj⟩)

-- New nodes that are linked above, none of which contains a node that was
-- there before.
theorem Wired.grown (h : Wired true declared graph) (hc : graph.Consistent)
    {entries : List (Path × NodeKind)}
    (hapart : ∀ entry ∈ entries, graph.contains entry.1 = false →
      ∀ child, graph.contains child = true → child.isChildOf entry.1 = false) :
    Wired true declared
      ((graph.addEntries entries true).1.linkAbove (graph.addEntries entries true).2).1 := by
  have hgrown := hc.addEntries true entries
  have hwoven := (h.woven hc).addEntries hc fun entry he hmissing =>
    ⟨Bool.eq_false_iff.mp hmissing, hapart entry he hmissing⟩
  have hlinked := hgrown.linksChildren_linkAbove (graph.addEntries entries true).2
  refine hwoven.linksChildren hlinked fun i j child hcontains hj hout => ?_
  refine hgrown.reads_linkAbove ?_ hj hcontains
  -- What is a node and was none before is reported as new.
  obtain ⟨kind, hl⟩ := path?_eq_some_iff.mp hj
  by_contra hnew
  exact hout (hc.contains_iff.mpr
    ⟨j, path?_of_label ((hc.drift_addEntries entries).node j child kind hl hnew)⟩)

end Come

section Go

theorem Shrinks.path? {gone : Path → Prop} (h : Shrinks gone first second) :
    second.path? i = some path ↔ first.path? i = some path ∧ ¬gone path := by
  simp only [path?_eq_some_iff, h.label, exists_and_right]

theorem Shrinks.reads_iff {gone : Path → Prop} (h : Shrinks gone first second)
    (hi : second.path? i = some path) (hj : second.path? j = some target) :
    second.Reads i j ↔ first.Reads i j := by
  rw [h.reads]
  exact and_iff_left ⟨mem_nodes_iff_path.mpr ⟨path, hi⟩, mem_nodes_iff_path.mpr ⟨target, hj⟩⟩

theorem Consistent.kind?_removeNodes (h : graph.Consistent) :
    (graph.removeNodes paths).1.kind? path = if path ∈ paths then none else graph.kind? path := by
  ext kind
  rw [(h.removeNodes paths).kind?_eq_some_iff]
  simp only [(h.shrinks_removeNodes paths).label, exists_and_right, ← h.kind?_eq_some_iff]
  by_cases hp : path ∈ paths <;> simp [hp]

-- Whether a node has been removed before makes no difference to the graph.
theorem removeNodes_append (graph : Graph) (paths others : List Path) :
    ((graph.removeNodes paths).1.removeNodes others).1 =
      (graph.removeNodes (paths ++ others)).1 := by
  have hstep : ∀ (graph : Graph) (one two : Bool) (path : Path),
      (removeNode (graph, one) path).1 = (removeNode (graph, two) path).1 := by
    intro graph one two path
    unfold removeNode
    dsimp only
    split
    · rfl
    · split <;> rfl
  have hfold : ∀ (paths : List Path) (one two : Graph × Bool), one.1 = two.1 →
      (paths.foldl removeNode one).1 = (paths.foldl removeNode two).1 := by
    intro paths
    induction paths with
    | nil => exact fun one two h => h
    | cons path rest ih =>
        rintro ⟨graph, one⟩ ⟨_, two⟩ rfl
        exact ih _ _ (hstep graph one two path)
  rw [removeNodes, removeNodes, removeNodes, List.foldl_append]
  exact hfold others _ _ rfl

theorem Consistent.awaits_removeNode (h : graph.Consistent) (hi : graph.path? i = some above)
    (hleft : above ≠ path) :
    (Graph.removeNode (graph, removed) path).1.Awaits i target ↔ graph.Awaits i target ∨
      target = path ∧ path.isChildOf above = false ∧
        ∃ j, graph.path? j = some path ∧ graph.Reads i j := by
  cases hid : graph.id? path with
  | none =>
      rw [removeNode_of_none hid]
      refine (or_iff_left ?_).symm
      rintro ⟨_, _, j, hj, _⟩
      rw [(h.id?_iff path j).mpr hj] at hid
      cases hid
  | some id =>
      obtain ⟨node, hnode⟩ := h.node_of_id? hid
      have hpath := h.path?_of_id? path id hid
      have hne : i ≠ id := by
        rintro rfl
        exact hleft (Option.some_inj.mp (hi.symm.trans hpath))
      have hreads : graph.Reads i id ↔ ∃ j, graph.path? j = some path ∧ graph.Reads i j := by
        simp only [← h.id?_iff, hid, Option.some_inj, exists_eq_left']
      have haside : graph.ReadsAside path i ↔ path.isChildOf above = false := by
        simp only [ReadsAside, hi, Option.some_inj, exists_eq_left']
      rw [removeNode_of_some hid hnode, h.awaits_removeFound hnode, and_iff_right hne, hreads,
        haside]
      exact or_congr Iff.rfl (by rw [and_left_comm, and_comm (a := ∃ j, _)])

-- What is left waits for each removed node that it read otherwise than as its
-- container. By induction on the paths, each of which is gone after its turn.
theorem Consistent.awaits_removeNodes (h : graph.Consistent) (hi : graph.path? i = some above)
    (hleft : above ∉ paths) :
    (graph.removeNodes paths).1.Awaits i target ↔ graph.Awaits i target ∨
      target ∈ paths ∧ target.isChildOf above = false ∧
        ∃ j, graph.path? j = some target ∧ graph.Reads i j := by
  suffices hfold : ∀ removed : Bool,
      (paths.foldl Graph.removeNode (graph, removed)).1.Awaits i target ↔
        graph.Awaits i target ∨ target ∈ paths ∧ target.isChildOf above = false ∧
          ∃ j, graph.path? j = some target ∧ graph.Reads i j from hfold false
  intro removed
  induction paths generalizing graph removed with
  | nil => simp
  | cons path rest ih =>
      obtain ⟨hhead, hrest⟩ := not_or.mp (mt List.mem_cons.mpr hleft)
      have hshrinks : Shrinks (· = path) graph (Graph.removeNode (graph, removed) path).1 :=
        h.shrinks_removeNode
      have hi' := hshrinks.path?.mpr ⟨hi, hhead⟩
      have hreads : (∃ j, (Graph.removeNode (graph, removed) path).1.path? j = some target ∧
          (Graph.removeNode (graph, removed) path).1.Reads i j) ↔
            target ≠ path ∧ ∃ j, graph.path? j = some target ∧ graph.Reads i j := by
        constructor
        · rintro ⟨j, hj, hr⟩
          exact ⟨(hshrinks.path?.mp hj).2, j, (hshrinks.path?.mp hj).1,
            (hshrinks.reads_iff hi' hj).mp hr⟩
        · rintro ⟨hne, j, hj, hr⟩
          have hj' := hshrinks.path?.mpr ⟨hj, hne⟩
          exact ⟨j, hj', (hshrinks.reads_iff hi' hj').mpr hr⟩
      rw [List.foldl_cons, ih h.removeNode hi' hrest, hreads, h.awaits_removeNode hi hhead,
        List.mem_cons]
      by_cases ht : target = path
      · subst ht
        simp
      · simp [ht]

-- What is left reads what it read, apart from what is removed.
theorem Consistent.mem_dependencies_removeNodes (h : graph.Consistent) (hleft : above ∉ paths) :
    target ∈ (graph.removeNodes paths).1.dependencies above ↔
      target ∈ graph.dependencies above ∧ target ∉ paths := by
  have hshrinks := h.shrinks_removeNodes paths
  rw [(h.removeNodes paths).mem_dependencies, h.mem_dependencies]
  constructor
  · rintro ⟨i, j, hi, hr, hj⟩
    obtain ⟨hj', hout⟩ := hshrinks.path?.mp hj
    exact ⟨⟨i, j, (hshrinks.path?.mp hi).1, (hshrinks.reads_iff hi hj).mp hr, hj'⟩, hout⟩
  · rintro ⟨⟨i, j, hi, hr, hj⟩, hout⟩
    have hi' := hshrinks.path?.mpr ⟨hi, hleft⟩
    have hj' := hshrinks.path?.mpr ⟨hj, hout⟩
    exact ⟨i, j, hi', (hshrinks.reads_iff hi' hj').mpr hr, hj'⟩

theorem Consistent.mem_pendingOf_removeNodes (h : graph.Consistent) (hleft : above ∉ paths) :
    target ∈ (graph.removeNodes paths).1.pendingOf above ↔ target ∈ graph.pendingOf above ∨
      target ∈ paths ∧ target.isChildOf above = false ∧ target ∈ graph.dependencies above := by
  have hshrinks := h.shrinks_removeNodes paths
  rw [(h.removeNodes paths).mem_pendingOf, h.mem_pendingOf, h.mem_dependencies]
  constructor
  · rintro ⟨i, hi, hw⟩
    obtain ⟨hi', _⟩ := hshrinks.path?.mp hi
    refine ((h.awaits_removeNodes hi' hleft).mp hw).imp (fun hold => ⟨i, hi', hold⟩) ?_
    rintro ⟨ht, hchild, j, hj, hr⟩
    exact ⟨ht, hchild, i, j, hi', hr, hj⟩
  · have hawaits : ∀ i, graph.path? i = some above → (graph.Awaits i target ∨ target ∈ paths ∧
        target.isChildOf above = false ∧ ∃ j, graph.path? j = some target ∧ graph.Reads i j) →
          ∃ i, (graph.removeNodes paths).1.path? i = some above ∧
            (graph.removeNodes paths).1.Awaits i target := fun i hi hw =>
      ⟨i, hshrinks.path?.mpr ⟨hi, hleft⟩, (h.awaits_removeNodes hi hleft).mpr hw⟩
    rintro (⟨i, hi, hw⟩ | ⟨ht, hchild, i, j, hi, hr, hj⟩)
    · exact hawaits i hi (Or.inl hw)
    · exact hawaits i hi (Or.inr ⟨ht, hchild, j, hj, hr⟩)

end Go

section Wiring

-- The edges of a wired graph, path by path.
theorem Consistent.declares_iff (h : graph.Consistent) (hi : graph.path? i = some path)
    (hj : graph.path? j = some target) :
    ((∃ other ∈ declared path, other ≠ path ∧ graph.id? other = some j) ∨
      linked = true ∧ graph.isStructural i j = true) ↔
        target ∈ declared path ∧ target ≠ path ∨ linked = true ∧ target.isChildOf path = true := by
  refine or_congr ?_ (and_congr_right fun _ => ?_)
  · simp only [h.id?_iff, hj, Option.some_inj]
    constructor
    · rintro ⟨other, ho, hne, rfl⟩
      exact ⟨ho, hne⟩
    · exact fun ht => ⟨target, ht.1, ht.2, rfl⟩
  · simp [isStructural, hi, hj]

theorem Wired.reads_of_paths (h : Wired linked declared graph) (hc : graph.Consistent)
    (hi : graph.path? i = some path) (ha : graph.Accepts i) (hj : graph.path? j = some target) :
    graph.Reads i j ↔
      target ∈ declared path ∧ target ≠ path ∨ linked = true ∧ target.isChildOf path = true :=
  (h.reads i j path hi ha).trans (hc.declares_iff hi hj)

theorem Consistent.wired (hc : graph.Consistent)
    (hreads : ∀ i j path target, graph.path? i = some path → graph.Accepts i →
      graph.path? j = some target → (graph.Reads i j ↔
        target ∈ declared path ∧ target ≠ path ∨ linked = true ∧ target.isChildOf path = true))
    (hawaits : ∀ i target path, graph.path? i = some path → graph.Accepts i →
      (graph.Awaits i target ↔ target ∈ declared path ∧ target ≠ path ∧ graph.id? target = none))
    (howned : ∀ path, graph.id? path = none → declared path = []) :
    Wired linked declared graph := by
  refine ⟨fun i j path hi ha => ?_, hawaits, howned⟩
  by_cases hj : j ∈ graph.nodes
  · obtain ⟨target, hj⟩ := mem_nodes_iff_path.mp hj
    exact (hreads i j path target hi ha hj).trans (hc.declares_iff hi hj).symm
  · refine iff_of_false (fun hr => hj (hc.mem_of_reads hr)) ?_
    rintro (⟨other, _, _, hid⟩ | ⟨_, hs⟩)
    · exact hj (mem_nodes_iff_path.mpr ⟨other, (hc.id?_iff _ _).mp hid⟩)
    · obtain ⟨_, child, _, hchild, _⟩ := isStructural_iff.mp hs
      exact hj (mem_nodes_iff_path.mpr ⟨child, hchild⟩)

-- A node that does not contain a path reads it if it declares it.
theorem Wired.reads_iff_declares (h : Wired linked declared graph) (hc : graph.Consistent)
    (hi : graph.path? i = some path) (ha : graph.Accepts i)
    (hchild : target.isChildOf path = false) :
    (∃ j, graph.path? j = some target ∧ graph.Reads i j) ↔
      target ∈ declared path ∧ target ≠ path ∧ ∃ j, graph.path? j = some target := by
  have hiff : ∀ j, graph.path? j = some target →
      (graph.Reads i j ↔ target ∈ declared path ∧ target ≠ path) := fun j hj => by
    rw [h.reads_of_paths hc hi ha hj, hchild]
    simp
  constructor
  · rintro ⟨j, hj, hr⟩
    obtain ⟨hd, hne⟩ := (hiff j hj).mp hr
    exact ⟨hd, hne, j, hj⟩
  · rintro ⟨hd, hne, j, hj⟩
    exact ⟨j, hj, (hiff j hj).mpr ⟨hd, hne⟩⟩

-- Nodes that are removed declare nothing any more, and those who declare them
-- wait for them.
theorem Wired.removeNodes (h : Wired true declared graph) (hc : graph.Consistent)
    (hapart : ∀ above, graph.contains above = true → above ∉ paths →
      ∀ path ∈ paths, path.isChildOf above = false) :
    Wired true (fun path => if path ∈ paths then [] else declared path)
      (graph.removeNodes paths).1 := by
  have hshrinks := hc.shrinks_removeNodes paths
  have hleft := hc.removeNodes paths
  have haccepts : ∀ {i path}, (graph.removeNodes paths).1.path? i = some path →
      (graph.removeNodes paths).1.Accepts i → graph.Accepts i := fun hi ha => by
    obtain ⟨kind, hl, hk⟩ := label_of_accepts hi ha
    exact ⟨_, kind, ((hshrinks.label _ _ _).mp hl).1, hk⟩
  have hmissing : ∀ target, (graph.removeNodes paths).1.id? target = none ↔
      graph.id? target = none ∨ target ∈ paths := fun target => by
    simp only [Option.eq_none_iff_forall_ne_some, ne_eq, hleft.id?_iff, hc.id?_iff, hshrinks.path?]
    by_cases ht : target ∈ paths <;> simp [ht]
  refine hleft.wired (fun i j path target hi ha hj => ?_) (fun i target path hi ha => ?_)
    fun path hp => ?_
  · obtain ⟨hi', hout⟩ := hshrinks.path?.mp hi
    rw [hshrinks.reads_iff hi hj, if_neg hout]
    exact h.reads_of_paths hc hi' (haccepts hi ha) (hshrinks.path?.mp hj).1
  · obtain ⟨hi', hout⟩ := hshrinks.path?.mp hi
    rw [hc.awaits_removeNodes hi' hout, h.awaits i target path hi' (haccepts hi ha), hmissing,
      if_neg hout]
    by_cases ht : target ∈ paths
    · have hchild := hapart path (hc.contains_iff.mpr ⟨i, hi'⟩) hout target ht
      have hthere : (∃ j, graph.path? j = some target) ↔ ¬graph.id? target = none := by
        rw [← ne_eq, Option.ne_none_iff_exists']
        simp only [hc.id?_iff]
      rw [h.reads_iff_declares hc hi' (haccepts hi ha) hchild, hthere, hchild]
      simp only [ht, true_and, or_true, and_true]
      tauto
    · simp [ht]
  · split
    · rfl
    · next hout => exact h.owned path (((hmissing path).mp hp).resolve_right hout)

end Wiring

section Outlook

def reader (graph : Graph) (path : Path) : Bool :=
  (graph.kind? path).any NodeKind.acceptsDependencies

theorem Consistent.contains_congr (hf : first.Consistent) (hs : second.Consistent)
    (hkinds : ∀ path, second.kind? path = first.kind? path) :
    second.contains path = first.contains path := by
  rw [Bool.eq_iff_iff, ← hs.isSome_kind?, ← hf.isSome_kind?, hkinds]

section Seen

variable (h : Wired true declared graph) (hc : graph.Consistent)

include h hc

theorem Wired.mem_dependencies : target ∈ graph.dependencies path ↔
    graph.contains target = true ∧ graph.reader path = true ∧
      (target ∈ declared path ∧ target ≠ path ∨ target.isChildOf path = true) := by
  rw [hc.mem_dependencies, hc.contains_iff]
  constructor
  · rintro ⟨i, j, hi, hr, hj⟩
    have ha := hc.reads_accepts i j hr
    refine ⟨⟨j, hj⟩, (hc.accepts_iff_kind? hi).mp ha, ?_⟩
    simpa using (h.reads_of_paths hc hi ha hj).mp hr
  · rintro ⟨⟨j, hj⟩, ha, hr⟩
    obtain ⟨kind, hkind, _⟩ := (Option.any_eq_true _ _).mp ha
    obtain ⟨i, hl⟩ := hc.kind?_eq_some_iff.mp hkind
    have hi := path?_of_label hl
    refine ⟨i, j, hi, (h.reads_of_paths hc hi ((hc.accepts_iff_kind? hi).mpr ha) hj).mpr ?_, hj⟩
    simpa using hr

theorem Wired.mem_pendingOf : target ∈ graph.pendingOf path ↔
    graph.contains target = false ∧ graph.reader path = true ∧
      target ∈ declared path ∧ target ≠ path := by
  have hnone : graph.contains target = false ↔ graph.id? target = none := by simp [contains]
  rw [hc.mem_pendingOf, hnone]
  constructor
  · rintro ⟨i, hi, hw⟩
    have ha := hc.awaits_accepts i target hw
    obtain ⟨hd, hne, hid⟩ := (h.awaits i target path hi ha).mp hw
    exact ⟨hid, (hc.accepts_iff_kind? hi).mp ha, hd, hne⟩
  · rintro ⟨hid, ha, hd, hne⟩
    obtain ⟨kind, hkind, _⟩ := (Option.any_eq_true _ _).mp ha
    obtain ⟨i, hl⟩ := hc.kind?_eq_some_iff.mp hkind
    have hi := path?_of_label hl
    exact ⟨i, hi, (h.awaits i target path hi ((hc.accepts_iff_kind? hi).mpr ha)).mpr ⟨hd, hne, hid⟩⟩

end Seen

variable (h : Wired true declared first) (k : Wired true declared second) (hf : first.Consistent)
  (hs : second.Consistent) (hkinds : ∀ path, second.kind? path = first.kind? path)

include h k hf hs hkinds

-- Wired graphs that declare the same and have nodes of the same kinds, whatever
-- the ids of these are.
theorem Wired.mem_dependencies_congr :
    target ∈ second.dependencies path ↔ target ∈ first.dependencies path := by
  rw [k.mem_dependencies hs, h.mem_dependencies hf, hf.contains_congr hs hkinds, reader, reader,
    hkinds]

theorem Wired.mem_pendingOf_congr :
    target ∈ second.pendingOf path ↔ target ∈ first.pendingOf path := by
  rw [k.mem_pendingOf hs, h.mem_pendingOf hf, hf.contains_congr hs hkinds, reader, reader, hkinds]

end Outlook

end Recalc.Graph
