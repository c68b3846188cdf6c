import Recalc.Proofs.Session.Editing

namespace Recalc.Session

variable {config : Config} {cache : Binding.Cache} {former tree last : Tree}
  {session first second now : Session} {diffs : List Diff} {actions : List Action}

-- A session in which every path has what is read at it.
structure Reflects (session : Session) : Prop where
  coherent : session.Coherent
  wired : Graph.Wired true (fun path =>
    (session.tree.reading session.config session.keys.contains path).references.toList)
    session.graph
  reported : ErrorStore.Reported (fun path =>
    (session.tree.reading session.config session.keys.contains path).errors) session.errors

-- Sessions that cannot be told apart, but for the order of the errors of a
-- path and what they have cached.
structure Agrees (first second : Session) : Prop where
  nodes : Graph.SameNodes first.graph second.graph
  reads : ∀ i j, second.graph.Reads i j ↔ first.graph.Reads i j
  awaits : ∀ i target, second.graph.Awaits i target ↔ first.graph.Awaits i target
  keys : ∀ path, path ∈ second.keys ↔ path ∈ first.keys
  errors : ∀ key, (second.errors.atKey key).Perm (first.errors.atKey key)
  sorted : second.sorted = first.sorted

-- What a session is, its tree tells.
theorem Reflects.agrees (h : first.Reflects) (k : second.Reflects)
    (hconfig : second.config = first.config) (htree : second.tree = first.tree)
    (hkeys : ∀ path, path ∈ second.keys ↔ path ∈ first.keys)
    (hnodes : Graph.SameNodes first.graph second.graph) : Agrees first second := by
  have hknown : second.keys.contains = first.keys.contains := Keys.contains_congr hkeys
  have hwired := k.wired
  have hreported := k.reported
  rw [hconfig, htree, hknown] at hwired hreported
  have hreads : ∀ i j, second.graph.Reads i j ↔ first.graph.Reads i j := fun _ _ =>
    h.wired.reads_iff hwired hnodes h.coherent.consistent k.coherent.consistent
  have hsorted : second.sorted = first.sorted := by
    rw [h.coherent.sorted, k.coherent.sorted]
    exact Graph.sortAll_congr hnodes.label hreads
  refine ⟨hnodes, hreads, fun _ _ => ?_, hkeys, ?_, hsorted⟩
  · exact h.wired.awaits_iff hwired hnodes h.coherent.consistent k.coherent.consistent
  · refine h.reported.perm hreported fun key => ?_
    rw [h.coherent.cycles, k.coherent.cycles, hsorted]

theorem Reflects.sort (h : Graph.Wired true (fun path =>
      (session.tree.reading session.config session.keys.contains path).references.toList)
      session.graph)
    (k : ErrorStore.Reported (fun path =>
      (session.tree.reading session.config session.keys.contains path).errors) session.errors)
    (hc : session.sort.Coherent) : session.sort.Reflects := by
  refine ⟨hc, ?_, ?_⟩
  · rw [tree_sort, config_sort, keys_sort, graph_sort]
    exact h
  · rw [tree_sort, config_sort, keys_sort, errors_sort]
    exact k.replaceCycles

-- A start leaves at every path what is read there.
theorem reflects_start (hl : config.linksAllChildren = true) (cache : Binding.Cache)
    (h : tree.Spelled) : (start config cache tree).Reflects := by
  have hs := Binding.Cache.sound_clear cache
  refine Reflects.sort ?_ ?_ (coherent_start config cache tree)
  · dsimp only
    rw [Built.keys_ofTree hs h]
    exact Built.wired_ofTree hl hs h
  · dsimp only
    rw [Built.keys_ofTree hs h]
    exact Built.reported_ofTree hs h

theorem keys_start (cache : Binding.Cache) (h : tree.Spelled) :
    (start config cache tree).keys = (Built.nodes config tree).2 := by
  unfold start reset
  rw [keys_sort]
  exact Built.keys_ofTree (Binding.Cache.sound_clear cache) h

theorem graph_start (config : Config) (cache : Binding.Cache) (tree : Tree) :
    (start config cache tree).graph = (Built.ofTree config cache.clear tree).graph := by
  unfold start reset
  rw [graph_sort]

theorem tree_start (config : Config) (cache : Binding.Cache) (tree : Tree) :
    (start config cache tree).tree = tree := by
  unfold start reset
  rw [tree_sort]

theorem config_start (config : Config) (cache : Binding.Cache) (tree : Tree) :
    (start config cache tree).config = config := by
  unfold start reset
  rw [config_sort]

theorem placed_start (hl : config.linksAllChildren = true) (cache : Binding.Cache)
    (h : tree.Spelled) :
    Batch.Placed (start config cache tree).graph (start config cache tree).keys tree := by
  rw [keys_start cache h, graph_start]
  refine ⟨fun path entity he hr hp => ?_, fun path hp => ?_⟩
  · exact Built.contains_ofTree hl (Binding.Cache.sound_clear cache) h
      (OrderedMap.get?_eq_some_iff.mp he) hr ((Tree.mem_allPaths he).mp hp)
  · obtain ⟨name, hname, hp⟩ := List.mem_flatMap.mp hp
    obtain ⟨entity, he⟩ := OrderedMap.mem_keys_iff.mp hname
    exact (Built.holds_nodes (OrderedMap.get?_eq_some_iff.mp he)).keys path hp

-- A batch of edits leaves at every path what is read there in the new tree.
theorem Reflects.follows (h : session.Reflects) (he : Edits session.tree tree diffs)
    (hs : session.tree.Spelled)
    (hplaced : Batch.Placed session.graph session.keys session.tree) :
    Batch.Follows session.graph session.keys
      (tree.reading session.config session.keys.contains) (session.batchOf tree diffs) := by
  have hstart : Batch.Follows session.graph session.keys
      (session.tree.reading session.config session.keys.contains)
      (Batch.start session.graph session.keys session.errors session.cache) :=
    ⟨h.coherent.consistent, h.coherent.cache, .refl _, fun _ => Iff.rfl, h.wired, h.reported⟩
  have hnew := hplaced.edited (.refl _) (fun _ => Iff.rfl) he.shape
  -- That readers which are gone are dropped in the end touches none of this.
  obtain ⟨hc, hcache, hnodes, hkeys, hwired, hreported⟩ := hstart.applied he hs hnew
  exact ⟨hc, hcache, hnodes, hkeys, hwired, hreported⟩

theorem Reflects.apply (h : session.Reflects) (he : Edits session.tree tree diffs)
    (hs : session.tree.Spelled)
    (hplaced : Batch.Placed session.graph session.keys session.tree) :
    (session.apply tree diffs).1.Reflects := by
  have hf := h.follows he hs hplaced
  have hcoherent := h.coherent.apply tree diffs
  have hwired := hf.wired
  have hreported := hf.reported
  rw [← hf.known] at hwired hreported
  rw [fst_apply] at hcoherent ⊢
  split
  · next hchanged =>
    rw [if_pos hchanged] at hcoherent
    exact .sort hwired hreported hcoherent
  · next hsame =>
    rw [if_neg hsame] at hcoherent
    exact ⟨hcoherent, hwired, hreported⟩

-- A session after edits of texts, next to the one before them.
structure Edited (first now : Session) : Prop where
  reflects : now.Reflects
  config : now.config = first.config
  shape : Tree.SameButTexts first.tree now.tree
  keys : ∀ path, path ∈ now.keys ↔ path ∈ first.keys
  nodes : Graph.SameNodes first.graph now.graph

theorem Edited.apply (h : Edited first now) (hs : first.tree.Spelled)
    (hplaced : Batch.Placed first.graph first.keys first.tree) (he : Edits now.tree tree diffs) :
    Edited first (now.apply tree diffs).1 := by
  have hspelled := h.shape.spelled hs
  have hnow := hplaced.edited h.nodes h.keys h.shape
  have hf := h.reflects.follows he hspelled hnow
  refine ⟨h.reflects.apply he hspelled hnow, ?_, ?_, fun path => ?_, ?_⟩
  · rw [config_apply, h.config]
  · rw [tree_apply]
    exact h.shape.trans he.shape
  · rw [keys_apply]
    exact (hf.keys path).trans (h.keys path)
  · rw [graph_apply]
    exact h.nodes.trans hf.nodes

-- Batches of edits that lead from one tree to another.
inductive Editing : Tree → List Action → Tree → Prop
  | done (tree : Tree) : Editing tree [] tree
  | edit {former tree last : Tree} {diffs : List Diff} {actions : List Action}
      (he : Edits former tree diffs) (hrest : Editing tree actions last) :
      Editing former (.apply tree diffs :: actions) last

-- By induction on the batches, each of which starts where the one before ends.
theorem Edited.after (h : Edited first now) (hs : first.tree.Spelled)
    (hplaced : Batch.Placed first.graph first.keys first.tree)
    (hediting : Editing now.tree actions last) :
    Edited first (now.after actions) ∧ (now.after actions).tree = last := by
  generalize htree : now.tree = former at hediting
  induction hediting generalizing now with
  | done tree => exact ⟨h, htree⟩
  | edit he hrest ih =>
      subst htree
      exact ih (h.apply hs hplaced he) (tree_apply _ _ _)

-- After any batches of edits, a session agrees with a fresh build of the last
-- tree.
theorem edits_match_rebuild (config : Config)
    (hkinds : ∀ kind, config.linksChildren kind = true) (h : tree.Assembled)
    (hediting : Editing tree actions last) :
    Agrees (ofTree last config) ((ofTree tree config).after actions) := by
  have hspelled := h.spelled
  have hl : config.linksAllChildren = true := List.all_eq_true.mpr fun kind _ => hkinds kind
  have htree : (ofTree tree config).tree = tree := tree_start config _ tree
  have hbegin : Edited (ofTree tree config) (ofTree tree config) :=
    ⟨reflects_start hl _ hspelled, rfl, .refl _, fun _ => Iff.rfl, .refl _⟩
  have hplaced := placed_start hl (.ofCapacity config.cacheCapacity) hspelled
  obtain ⟨hedited, hlast⟩ := hbegin.after (by rwa [htree]) (by rwa [htree]) (by rwa [htree])
  have hsame : Tree.SameButTexts tree last := by
    rw [← htree, ← hlast]
    exact hedited.shape
  have hrebuilt := hsame.spelled hspelled
  refine (reflects_start hl _ hrebuilt).agrees hedited.reflects ?_ ?_ (fun path => ?_) ?_
  · rw [hedited.config]
    exact (config_start config _ tree).trans (config_start config _ last).symm
  · rw [hlast]
    exact (tree_start config _ last).symm
  · rw [hedited.keys, ofTree, keys_start _ hspelled, keys_start _ hrebuilt, Built.nodes_congr hsame]
  · refine .trans ?_ hedited.nodes
    rw [ofTree, graph_start, graph_start]
    exact (Built.sameNodes_ofTree hl (Binding.Cache.sound_clear _) (Binding.Cache.sound_clear _)
      hsame hspelled).symm

-- An invoice with a label and a total, each of which may refer to the other.
def invoice (label total : String) : Tree :=
  (∅ : Tree).insert "Invoice" ((Entity.ofKind .widget (.obj
    [("label", .str label), ("total", .str total)])).withBindings ["label", "total"])

theorem assembled_invoice (label total : String) : (invoice label total).Assembled := by
  refine .insert .empty (by decide) (by simp [Path.startsAccessor]) fun relative hr => ?_
  have hr : relative ∈ ["label", "total"] := hr
  rcases List.mem_pair.mp hr with rfl | rfl
  · exact ⟨⟨"Invoice", [.key "label"]⟩, by decide +kernel⟩
  · exact ⟨⟨"Invoice", [.key "total"]⟩, by decide +kernel⟩

theorem allPaths_invoice (label total : String) : (invoice label total).allPaths =
    [⟨"Invoice", []⟩, ⟨"Invoice", [.key "label"]⟩, ⟨"Invoice", [.key "total"]⟩] := by
  rfl

theorem edits_invoice (label total other : String) :
    Edits (invoice label total) (invoice label other) [.edit "Invoice.total" (.str other)] := by
  have htarget : Path.parseLenient "Invoice.total" = ⟨"Invoice", [.key "total"]⟩ := by
    decide +kernel
  constructor
  · rfl
  · exact fun diff hd => List.mem_singleton.mp hd ▸ rfl
  · intro diff hd
    rw [List.mem_singleton.mp hd, Diff.target, Diff.edit, htarget, allPaths_invoice]
    exact ⟨by simp, other, rfl⟩
  · intro diff hd value hv
    rw [List.mem_singleton.mp hd] at hv
    exact ⟨other, (Option.some_inj.mp hv).symm⟩
  · intro path hp before after hb ha hne
    refine ⟨_, List.mem_singleton_self _, ?_⟩
    rw [allPaths_invoice] at hp
    rw [Diff.target, Diff.edit, htarget]
    simp only [List.mem_cons, List.not_mem_nil, or_false] at hp
    rcases hp with rfl | rfl | rfl
    · cases hb
    · exact absurd (Value.str.inj (Option.some_inj.mp (hb.symm.trans ha))) hne
    · rfl

-- An edit by which the total refers to the label closes a cycle.
theorem edits_match_rebuild_of_cycle :
    let session := (ofTree (invoice "{{ Invoice.total }}" "2") .standard).after
      [.apply (invoice "{{ Invoice.total }}" "{{ Invoice.label }}")
        [.edit "Invoice.total" (.str "{{ Invoice.label }}")]]
    session.sorted.cycles.length = 1 ∧
      Agrees (ofTree (invoice "{{ Invoice.total }}" "{{ Invoice.label }}") .standard) session :=
  ⟨by decide +kernel, edits_match_rebuild .standard (fun kind => by cases kind <;> decide)
    (assembled_invoice _ _) (.edit (edits_invoice _ _ _) (.done _))⟩

end Recalc.Session
