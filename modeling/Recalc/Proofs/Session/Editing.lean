import Recalc.Proofs.Session.Building
import Recalc.Proofs.Tree.Writing

namespace Recalc

open Binding (Dependencies)

theorem Keys.contains_eq {first second : Keys} {path : Path} (h : path ∈ second ↔ path ∈ first) :
    second.contains path = first.contains path := by
  rw [Bool.eq_iff_iff, Std.TreeSet.contains_iff_mem, Std.TreeSet.contains_iff_mem, h]

theorem Keys.contains_congr {first second : Keys} (h : ∀ path, path ∈ second ↔ path ∈ first) :
    second.contains = first.contains :=
  funext fun path => contains_eq (h path)

-- A batch that turns one tree into another by edits of texts. Any of its
-- events may be repeated or be about a text that has not changed. An event may
-- come without a value; a value that it has is a text.
structure Edits (former tree : Tree) (diffs : List Diff) : Prop where
  shape : Tree.SameButTexts former tree
  edit : ∀ diff ∈ diffs, diff.event = .edit
  target : ∀ diff ∈ diffs, diff.target ∈ tree.allPaths ∧
    ∃ text, tree.get? diff.target = some (.str text)
  value : ∀ diff ∈ diffs, ∀ value, diff.value = some value → ∃ text, value = .str text
  covers : ∀ path ∈ tree.allPaths, ∀ before after, former.get? path = some (.str before) →
    tree.get? path = some (.str after) → before ≠ after → ∃ diff ∈ diffs, diff.target = path

namespace Tree

variable {config : Config} {known : Path → Bool} {former tree : Tree} {path : Path}

theorem mem_allPaths {entity : Entity} (he : tree.entity? path.entity = some entity) :
    path ∈ tree.allPaths ↔ path ∈ tree.entityPaths path.entity := by
  unfold allPaths
  rw [List.mem_flatMap]
  constructor
  · rintro ⟨name, _, hp⟩
    have hname : path.entity = name := tree.allIn_entityPaths name path hp
    rwa [hname]
  · exact fun hp => ⟨path.entity, OrderedMap.mem_keys_iff.mpr ⟨entity, he⟩, hp⟩

theorem entity?_of_get? {value : Value} (h : tree.get? path = some value) :
    ∃ entity, tree.entity? path.entity = some entity ∧ path.lookup entity.value = some value := by
  unfold get? at h
  split at h
  · next entity he => exact ⟨entity, he, h⟩
  · cases h

-- A path that may hold a binding is canonical, so it is listed if it leads to
-- a value.
theorem Spelled.mem_allPaths (h : tree.Spelled) {entity : Entity} {value : Value}
    (he : tree.entity? path.entity = some entity)
    (hd : entity.config.isDynamic path.relative = true) (hv : tree.get? path = some value) :
    path ∈ tree.allPaths := by
  have hm := OrderedMap.get?_eq_some_iff.mp he
  have hcanonical : path.Canonical :=
    Path.Spelled.canonical ((h.config _ hm).relative _
      (List.mem_append_left _ (Binding.mem_scannedPaths.mpr hd))) (h.named _ hm) (h.plain _ hm)
  rw [get?_of_entity? he] at hv
  refine (Tree.mem_allPaths he).mpr ?_
  unfold entityPaths
  rw [he]
  exact Path.mem_allBelow_of_lookup hcanonical hv

-- What is read at a path depends on its text alone.
theorem reading_congr (h : SameButTexts former tree) (hs : former.Spelled)
    (hp : path ∈ tree.allPaths → ∀ before after, former.get? path = some (.str before) →
      tree.get? path = some (.str after) → before = after) :
    tree.reading config known path = former.reading config known path := by
  unfold reading
  cases he : tree.entity? path.entity with
  | none => rw [h.entity?_none he]
  | some entity =>
      obtain ⟨before, hb, hconfig, _⟩ := h.entity? he
      rw [hb]
      dsimp only
      rw [Entity.reactive_congr hconfig]
      split
      · refine Binding.reading_congr hconfig.symm fun hd text => ?_
        rw [hconfig] at hd
        have hlisted : ∀ {value}, tree.get? path = some value → path ∈ tree.allPaths :=
          (h.spelled hs).mem_allPaths he hd
        rw [← get?_of_entity? he, ← get?_of_entity? hb]
        constructor
        · intro hnew
          obtain ⟨old, hold⟩ := h.text hnew
          rw [hold, hp (hlisted hnew) old text hold hnew]
        · intro hold
          obtain ⟨new, hnew⟩ := h.symm.text hold
          rw [hnew, hp (hlisted hnew) text new hold hnew]
      · rfl

end Tree

namespace Batch

variable {config : Config} {former tree : Tree} {batch : Batch} {kind : Kind} {entity : Entity}
  {path : Path} {start : Graph} {keys : Keys} {found before now : Path → Dependencies}

-- A batch on the nodes and keys of its start, with what was found at each path
-- so far.
structure Follows (start : Graph) (keys : Keys) (found : Path → Dependencies) (batch : Batch) :
    Prop where
  consistent : batch.graph.Consistent
  cache : batch.cache.Sound
  nodes : Graph.SameNodes start batch.graph
  keys : ∀ path, path ∈ batch.keys ↔ path ∈ keys
  wired : Graph.Wired true (fun path => (found path).references.toList) batch.graph
  reported : ErrorStore.Reported (fun path => (found path).errors) batch.errors

theorem Follows.known (h : Follows start keys found batch) :
    batch.keys.contains = keys.contains :=
  Keys.contains_congr h.keys

-- A reading replaces what was found at its path.
theorem Follows.applyReading (h : Follows start keys found batch)
    (hs : start.contains path = true) (hp : path.Plain) {reading : Dependencies}
    (hr : Binding.Readable reading) :
    Follows start keys (Function.update found path reading)
      (applyReading config kind batch (path, reading)) := by
  obtain ⟨id, hid⟩ := Option.isSome_iff_exists.mp ((h.nodes.contains path).trans hs)
  have hc := h.consistent.addDependency path reading.references.toList
  have hl := linksChildren_applyReading h.consistent config kind path reading
  have hnodes : Graph.SameNodes batch.graph
      (batch.graph.addDependency path reading.references.toList).1 := by
    have hsame := Graph.sameNodes_addDependency batch.graph path reading.references.toList
    rwa [Graph.ensure_of_some hid] at hsame
  have hreferences : (fun other => (Function.update found path reading other).references.toList) =
      Function.update (fun other => (found other).references.toList) path
        reading.references.toList :=
    Function.comp_update (fun found : Dependencies => found.references.toList) found path reading
  have herrors : (fun other => (Function.update found path reading other).errors) =
      Function.update (fun other => (found other).errors) path reading.errors :=
    Function.comp_update Dependencies.errors found path reading
  refine ⟨hl.consistent hc, h.cache, (h.nodes.trans hnodes).trans hl.nodes, h.keys, ?_, ?_⟩
  · rw [hreferences]
    exact (h.wired.addDependency_of_id? h.consistent hid).linksChildren hl
  · rw [herrors]
    exact h.reported.replaceExtraction hp hr.extraction

theorem Follows.readPath (h : Follows start keys found batch) (hs : start.contains path = true)
    (hp : path.Plain) :
    Follows start keys
      (Function.update found path (Binding.reading config keys.contains entity path))
      (readPath config entity path batch) := by
  obtain ⟨he, hcache⟩ := Binding.ofPath_eq config keys.contains entity path h.cache
  unfold Batch.readPath
  dsimp only
  rw [h.known, he]
  have hbatch : Follows start keys found
      { batch with cache := (Binding.ofPath config keys.contains batch.cache entity path).2 } :=
    ⟨h.consistent, hcache, h.nodes, h.keys, h.wired, h.reported⟩
  exact hbatch.applyReading hs hp (Binding.readable_reading hp)

-- An edit of a text reads its path in the new tree.
theorem Follows.onEdit (h : Follows start keys found batch) (hs : start.contains path = true)
    (hp : path.Plain) (hk : path ∈ keys) {value : Option Value}
    (hv : (textOf? (value.or (tree.get? path))).isSome = true) :
    Follows start keys
      (Function.update found path (Binding.reading config keys.contains entity path))
      (onEdit config former tree entity path value batch) := by
  have hsound := sound_evictEdited former entity path (value.or (tree.get? path)) h.cache
  have hcache : Follows start keys found
      { batch with cache :=
          evictEdited former entity path (value.or (tree.get? path)) batch.cache } :=
    ⟨h.consistent, hsound, h.nodes, h.keys, h.wired, h.reported⟩
  have hkeys : Follows start keys found
      ({ batch with cache :=
          evictEdited former entity path (value.or (tree.get? path)) batch.cache }.addKeys
        [path]) := by
    refine ⟨h.consistent, hsound, h.nodes, fun other => ?_, h.wired, h.reported⟩
    refine (Built.mem_addAll.trans ?_).trans (h.keys other)
    rw [List.mem_singleton]
    exact ⟨fun ho => ho.elim id fun he => (h.keys other).mpr (he ▸ hk), Or.inl⟩
  have htouch : ∀ {batch : Batch} {found}, Follows start keys found batch →
      Follows start keys found (batch.touch path) :=
    fun h => ⟨h.consistent, h.cache, h.nodes, h.keys, h.wired, h.reported⟩
  unfold Batch.onEdit
  dsimp only
  rw [if_pos hv]
  split
  · exact htouch (hkeys.readPath hs hp)
  · exact htouch (hcache.readPath hs hp)

-- An edit leaves at its path what is read there in the new tree.
theorem Follows.applyDiff (config : Config) (h : Follows start keys found batch)
    {diffs : List Diff} {diff : Diff} (he : Edits former tree diffs) (hd : diff ∈ diffs)
    (hnodes : ∀ path entity, tree.entity? path.entity = some entity → entity.reactive = true →
      path ∈ tree.allPaths → start.contains path = true)
    (hkeys : ∀ path ∈ tree.allPaths, path ∈ keys)
    (hout : ∀ entity, tree.entity? diff.target.entity = some entity → entity.reactive = false →
      found diff.target = ∅) :
    Follows start keys
      (Function.update found diff.target (tree.reading config keys.contains diff.target))
      (applyDiff config former tree batch diff) := by
  obtain ⟨hlisted, text, htext⟩ := he.target diff hd
  obtain ⟨entity, hentity, _⟩ := Tree.entity?_of_get? htext
  have hv : (textOf? (diff.value.or (tree.get? diff.target))).isSome = true := by
    cases hvalue : diff.value with
    | none =>
        rw [htext]
        rfl
    | some value =>
        obtain ⟨other, rfl⟩ := he.value diff hd value hvalue
        rfl
  unfold Batch.applyDiff
  rw [he.edit diff hd]
  dsimp only
  rw [hentity]
  dsimp only
  cases hr : entity.reactive with
  | true =>
      rw [if_pos rfl, Tree.reading_of_reactive hentity hr]
      exact h.onEdit (hnodes _ entity hentity hr hlisted) (Path.plain_parseLenient _)
        (hkeys _ hlisted) hv
  | false =>
      have hnone : tree.reading config keys.contains diff.target = ∅ :=
        Tree.reading_of_not_reactive hentity hr
      have hsame : Function.update found diff.target ∅ = found := by
        rw [← hout entity hentity hr, Function.update_eq_self]
      rw [if_neg (by simp), hnone, hsame]
      exact h

-- The listed paths of a tree are nodes and keys, as far as they are to be.
structure Placed (start : Graph) (keys : Keys) (tree : Tree) : Prop where
  nodes : ∀ path entity, tree.entity? path.entity = some entity → entity.reactive = true →
    path ∈ tree.allPaths → start.contains path = true
  keys : ∀ path ∈ tree.allPaths, path ∈ keys

theorem Placed.edited {graph : Graph} {others : Keys} (h : Placed start keys former)
    (hnodes : Graph.SameNodes start graph) (hkeys : ∀ path, path ∈ others ↔ path ∈ keys)
    (ht : Tree.SameButTexts former tree) : Placed graph others tree := by
  refine ⟨fun path entity he hr hp => ?_, fun path hp => (hkeys path).mpr (h.keys path ?_)⟩
  · obtain ⟨before, hb, hconfig, _⟩ := ht.entity? he
    have hreactive : before.reactive = true := (Entity.reactive_congr hconfig).trans hr
    rw [hnodes.contains]
    exact h.nodes path before hb hreactive (ht.allPaths ▸ hp)
  · exact ht.allPaths ▸ hp

-- After some of the edits, the paths that they name have been read in the new
-- tree, and the others in the former one.
theorem Follows.foldl_applyDiff {diffs : List Diff} (he : Edits former tree diffs)
    (hplaced : Placed start keys tree) {rest : List Diff} (hrest : rest ⊆ diffs)
    {done : List Path} (h : Follows start keys (Graph.renewed
      (former.reading config keys.contains) (tree.reading config keys.contains) done) batch) :
    Follows start keys
      (Graph.renewed (former.reading config keys.contains) (tree.reading config keys.contains)
        (done ++ rest.map Diff.target))
      (rest.foldl (Batch.applyDiff config former tree) batch) := by
  induction rest generalizing batch done with
  | nil =>
      rw [List.map_nil, List.append_nil]
      exact h
  | cons diff rest ih =>
      obtain ⟨hd, hrest⟩ := List.cons_subset.mp hrest
      have hstep := h.applyDiff config he hd hplaced.nodes hplaced.keys fun entity hentity hr => by
        obtain ⟨before, hb, hconfig, _⟩ := he.shape.entity? hentity
        have hbefore : before.reactive = false := (Entity.reactive_congr hconfig).trans hr
        rw [Graph.renewed, Tree.reading_of_not_reactive hentity hr,
          Tree.reading_of_not_reactive hb hbefore, ite_self]
      rw [Graph.update_renewed] at hstep
      rw [List.map_cons, List.append_cons]
      exact ih hrest hstep

theorem keys_of_edits {diffs : List Diff} (h : ∀ diff ∈ diffs, diff.event = .edit) (keys : Keys) :
    diffs.foldl (registerKeys tree) keys = keys :=
  List.foldlRecOn diffs _ (motive := fun now : Keys => now = keys) rfl fun now hn diff hd => by
    rw [registerKeys, h diff hd]
    exact hn

-- After all edits each path has been read in the new tree, or would be read as
-- before.
theorem Follows.applied {diffs : List Diff} (he : Edits former tree diffs) (hs : former.Spelled)
    (hplaced : Placed start keys tree)
    (h : Follows start keys (former.reading config keys.contains) batch) :
    Follows start keys (tree.reading config keys.contains)
      (batch.applied config former tree diffs) := by
  have hall : Follows start keys (Graph.renewed (former.reading config keys.contains)
      (tree.reading config keys.contains) (diffs.map Diff.target))
      (batch.applied config former tree diffs) := by
    unfold Batch.applied
    rw [keys_of_edits he.edit]
    rw [← List.nil_append (diffs.map Diff.target)]
    exact Follows.foldl_applyDiff he hplaced (List.Subset.refl diffs) h
  have hsame : Graph.renewed (former.reading config keys.contains)
      (tree.reading config keys.contains) (diffs.map Diff.target) =
        tree.reading config keys.contains := by
    funext path
    unfold Graph.renewed
    split
    · rfl
    · next hout =>
      refine (Tree.reading_congr he.shape hs fun hp before after hb ha => ?_).symm
      by_contra hne
      obtain ⟨diff, hd, rfl⟩ := he.covers path hp before after hb ha hne
      exact hout (List.mem_map_of_mem hd)
  rwa [hsame] at hall

end Batch

end Recalc
