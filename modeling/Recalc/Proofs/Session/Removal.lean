import Recalc.Proofs.Session.Replay

namespace Recalc

namespace Tree

variable {config : Config} {cache : Binding.Cache} {known : Path → Bool} {tree : Tree}
  {path target : Path} {value : Value}

-- The path of an entity that takes part in the graph, or a setter of it.
def Owns (tree : Tree) (path : Path) : Prop :=
  tree.TakesPart path.entity ∧ path ∈ tree.keyPaths path.entity

-- A path that the bindings of an entity are read at, although no entity of the
-- tree brings it.
def Strays (config : Config) (tree : Tree) (path : Path) : Prop :=
  (∃ name entity, tree.entity? name = some entity ∧ path ∈
    (Binding.ofEntity config (fun _ => false) (.ofCapacity config.cacheCapacity) name
      entity).1.keys) ∧
    ¬tree.Owns path

-- A path that the tree leads to a value, if it has the entity.
def Holds (tree : Tree) (path : Path) : Prop :=
  ∀ entity, tree.entity? path.entity = some entity →
    (∀ segment ∈ path.segments, segment.Canonical) ∧ ∃ value, tree.get? path = some value

-- Where bindings are read does not depend on what is known.
theorem owns_or_strays (config : Config) (known : Path → Bool) {name : String} {entity : Entity}
    (he : tree.entity? name = some entity)
    (h : path ∈ (Binding.readings config known name entity).keys) :
    tree.Owns path ∨ tree.Strays config path := by
  have hs := Binding.Cache.sound_ofCapacity config.cacheCapacity
  refine or_iff_not_imp_left.mpr fun howns => ⟨⟨name, entity, he, ?_⟩, howns⟩
  rw [(Binding.ofEntity_eq config _ name entity hs).1, Binding.keys_readings_congr rfl]
  exact h

theorem Owns.of_mem {name : String} {entity : Entity} (he : tree.entity? name = some entity)
    (hr : entity.reactive = true) (hp : path ∈ tree.keyPaths name) : tree.Owns path := by
  rw [Owns, tree.allIn_keyPaths name path hp]
  exact ⟨⟨entity, he, hr⟩, hp⟩

theorem owns_iff :
    tree.Owns path ↔ path ∈ tree.reactivePaths ∨ path ∈ tree.setterPaths := by
  rw [Owns, TakesPart, mem_reactivePaths, mem_setterPaths]
  cases he : tree.entity? path.entity with
  | none => simp
  | some entity =>
      rw [keyPaths_of_entity? he, List.mem_append]
      simp only [Option.some_inj, exists_eq_left', ← and_or_left]

-- What a tree holds at or below a path is listed with the entity, and so are
-- the containers of the path.
theorem pathsUnder_subset (hsteps : ∀ segment ∈ target.segments, segment.Canonical)
    (hget : tree.get? target = some value) :
    target.ancestors ++ tree.pathsUnder target ⊆ tree.entityPaths target.entity := by
  obtain ⟨entity, he, hlookup⟩ := entity?_of_get? hget
  have hpaths : tree.entityPaths target.entity =
      (Path.ofEntity target.entity).allBelow entity.value := by
    rw [entityPaths, he]
  rw [hpaths, pathsUnder, hget]
  have hbelow := Path.allBelow_subset_of_lookup hsteps hlookup
  refine List.append_subset.mpr ⟨?_, hbelow⟩
  exact (Path.rooted_allBelow target.entity entity.value).ancestors
    (hbelow (Path.mem_allBelow_self target value))

theorem entityPaths_subset_keyPaths (tree : Tree) (name : String) :
    tree.entityPaths name ⊆ tree.keyPaths name := by
  cases he : tree.entity? name with
  | none =>
      rw [entityPaths, he]
      exact List.nil_subset _
  | some entity =>
      rw [keyPaths_of_entity? he]
      exact List.subset_append_left _ _

end Tree

-- A diff by which a path is deleted, by itself or with what holds it.
def Erases (former : Tree) (diffs : List Diff) (path : Path) : Prop :=
  ∃ diff ∈ diffs, diff.event = .delete ∧
    (path ∈ former.pathsUnder diff.target ∨ diff.target = .ofEntity path.entity)

-- Diffs that describe how two trees differ. What comes in or is edited is
-- there in the new tree, unless its entity has gone again. What is not there
-- any more has been deleted, and an entity is configured anew only after it
-- has been deleted.
structure Describes (former tree : Tree) (diffs : List Diff) : Prop where
  present : ∀ diff ∈ diffs, diff.event ≠ .delete → tree.Holds diff.target
  vanished : ∀ path ∈ former.keyPaths path.entity, path ∉ tree.keyPaths path.entity →
    Erases former diffs path
  replaced : ∀ name before after, former.entity? name = some before →
    tree.entity? name = some after → before.config ≠ after.config →
      ∃ diff ∈ diffs, diff.event = .delete ∧ diff.target = .ofEntity name

theorem Erases.of_cons {former : Tree} {diff : Diff} {rest : List Diff} {path : Path}
    (h : Erases former (diff :: rest) path)
    (hnot : diff.event = .delete →
      ¬(path ∈ former.pathsUnder diff.target ∨ diff.target = .ofEntity path.entity)) :
    Erases former rest path := by
  obtain ⟨other, ho, hevent, hpath⟩ := h
  rcases List.mem_cons.mp ho with rfl | hm
  · exact absurd hpath (hnot hevent)
  · exact ⟨other, hm, hevent, hpath⟩

theorem not_erases_nil {former : Tree} {path : Path} : ¬Erases former [] path :=
  fun ⟨_, h, _⟩ => absurd h List.not_mem_nil

namespace Replays

variable {former tree : Tree} {diffs : List Diff} {name : String} {entity : Entity}

-- An entity that was there and does not go stays, apart from its texts.
theorem takes_or_sameFrame (h : Replays tree former diffs)
    (hthere : former.entity? name = some entity) :
    Takes diffs name ∨ Tree.SameFrame former tree name := by
  refine or_iff_not_imp_left.mpr fun htakes => h.sameFrame (fun hbrings => ?_) htakes
  rw [h.missing hbrings htakes] at hthere
  cases hthere

-- Whole entities that come in and go describe how the trees differ.
theorem describes (h : Replays tree former diffs) (hedit : ∀ diff ∈ diffs, diff.event ≠ .edit) :
    Describes former tree diffs := by
  have hwhole := fun diff hd => h.whole diff hd (hedit diff hd)
  have herased : ∀ {name}, Takes diffs name →
      ∃ diff ∈ diffs, diff.event = .delete ∧ diff.target = .ofEntity name := by
    rintro name ⟨diff, hd, hevent, rfl⟩
    exact ⟨diff, hd, hevent, Path.eq_ofEntity (hwhole diff hd)⟩
  refine ⟨fun diff hd _ entity he => ?_, fun path hold hnew => ?_,
    fun name before after hbefore hafter hconfig => ?_⟩
  · rw [Path.eq_ofEntity (hwhole diff hd)]
    exact ⟨fun _ hs => absurd hs List.not_mem_nil, entity.value, Tree.get?_of_entity? he⟩
  · obtain ⟨before, hbefore⟩ := Tree.exists_of_mem_keyPaths hold
    rcases h.takes_or_sameFrame hbefore with htakes | hsame
    · obtain ⟨diff, hd, hevent, htarget⟩ := herased htakes
      exact ⟨diff, hd, hevent, Or.inr htarget⟩
    · exact absurd (hsame.keyPaths ▸ hold) hnew
  · rcases h.takes_or_sameFrame hbefore with htakes | hsame
    · exact herased htakes
    · have hsame := hsame.config
      rw [hbefore, hafter] at hsame
      exact absurd (Option.some_inj.mp hsame).symm hconfig

end Replays

namespace Batch

variable {config : Config} {born : Path → Prop} {former tree : Tree} {batch : Batch}
  {entity : Entity} {diff : Diff} {diffs rest : List Diff} {path target : Path} {keys : Keys}

-- What is there in the middle of a batch: what the new tree brings and what is
-- still to be deleted. A node may also have been born by being read.
structure Bounded (config : Config) (born : Path → Prop) (former tree : Tree) (rest : List Diff)
    (batch : Batch) : Prop where
  consistent : batch.graph.Consistent
  cache : batch.cache.Sound
  nodes : ∀ path, batch.graph.contains path = true → path ∈ config.functionPaths ∨ born path ∨
    tree.Owns path ∨ former.Owns path ∧ Erases former rest path
  keys : ∀ path ∈ batch.keys, path ∈ config.functionPaths ∨ path ∈ tree.keyPaths path.entity ∨
    path ∈ former.keyPaths path.entity ∧ Erases former rest path

-- A deletion removes what it erases.
theorem mem_gone_of_erased (he : former.entity? target.entity = some entity)
    (hkey : path ∈ former.keyPaths path.entity)
    (h : path ∈ former.pathsUnder target ∨ target = .ofEntity path.entity) :
    path ∈ gone former entity target := by
  rcases h with hunder | rfl
  · refine List.mem_append_left _ ?_
    rwa [removedPaths, if_neg (mt List.isEmpty_iff.mp (List.ne_nil_of_mem hunder))]
  · have he : former.entity? path.entity = some entity := he
    rwa [gone_ofEntity he]

theorem newPaths_subset (hsteps : ∀ segment ∈ target.segments, segment.Canonical) {value : Value}
    (hget : tree.get? target = some value) (graph : Graph) (given : Option Value) :
    newPaths tree graph target given ⊆ tree.entityPaths target.entity := by
  have hall := Tree.pathsUnder_subset hsteps hget
  have hbelow : (tree.pathsUnder target).isEmpty = false := by
    rw [Tree.pathsUnder, hget]
    exact Bool.eq_false_iff.mpr
      (mt List.isEmpty_iff.mp (List.ne_nil_of_mem (Path.mem_allBelow_self target value)))
  unfold newPaths
  dsimp only
  rw [hbelow]
  refine List.append_subset.mpr ⟨fun path hp => ?_, (List.append_subset.mp hall).2⟩
  exact (List.append_subset.mp hall).1 (List.mem_filter.mp (List.mem_reverse.mp hp)).1

-- What an event registers is brought by the new tree.
theorem mem_registerKeys_of_holds (hholds : diff.event ≠ .delete → tree.Holds diff.target)
    (h : path ∈ registerKeys tree keys diff) : path ∈ keys ∨ path ∈ tree.keyPaths path.entity := by
  unfold registerKeys at h
  split at h
  · next hevent =>
    dsimp only at h
    split at h
    · exact Or.inl h
    · next entity he =>
      refine (Built.mem_addAll.mp h).imp_right fun hp => ?_
      obtain ⟨hsteps, value, hget⟩ := hholds (by rw [hevent]; decide) entity he
      have hkey : path ∈ tree.keyPaths diff.target.entity := by
        rcases List.mem_append.mp hp with hp | hp
        · exact tree.entityPaths_subset_keyPaths _ (Tree.pathsUnder_subset hsteps hget hp)
        · split at hp
          · rw [Tree.keyPaths_of_entity? he]
            exact List.mem_append_right _ hp
          · exact absurd hp List.not_mem_nil
      rwa [tree.allIn_keyPaths _ path hkey]
  · exact Or.inl h
  · exact Or.inl h

theorem mem_foldl_registerKeys_of_holds
    (hholds : ∀ diff ∈ diffs, diff.event ≠ .delete → tree.Holds diff.target)
    (h : path ∈ diffs.foldl (registerKeys tree) keys) :
    path ∈ keys ∨ path ∈ tree.keyPaths path.entity := by
  induction diffs generalizing keys with
  | nil => exact Or.inl h
  | cons diff rest ih =>
      obtain ⟨hdiff, hrest⟩ := List.forall_mem_cons.mp hholds
      rcases ih hrest h with hk | hp
      · exact mem_registerKeys_of_holds hdiff hk
      · exact Or.inr hp

-- A step that keeps what it does not bring or delete, and brings what the new
-- tree has or what is born.
theorem Bounded.step {next : Batch} (h : Bounded config born former tree (diff :: rest) batch)
    (hproceeds : Proceeds config former batch next)
    (hgone : ∀ path, diff.event = .delete →
      path ∈ former.pathsUnder diff.target ∨ diff.target = .ofEntity path.entity →
        (former.Owns path → next.graph.contains path = false) ∧
          (path ∈ former.keyPaths path.entity → path ∉ next.keys))
    (hnodes : ∀ path, next.graph.contains path = true →
      batch.graph.contains path = true ∨ born path ∨ tree.Owns path)
    (hkeys : ∀ path ∈ next.keys, path ∈ batch.keys ∨ path ∈ tree.keyPaths path.entity) :
    Bounded config born former tree rest next := by
  refine ⟨consistent_moves h.consistent hproceeds.moves, hproceeds.cache h.cache,
    fun path hn => ?_, fun path hk => ?_⟩
  · rcases hnodes path hn with hold | hborn | howns
    · refine (h.nodes path hold).imp_right (Or.imp_right (Or.imp_right fun ⟨howns, he⟩ => ?_))
      refine ⟨howns, he.of_cons fun hevent herased => ?_⟩
      rw [(hgone path hevent herased).1 howns] at hn
      cases hn
    · exact Or.inr (Or.inl hborn)
    · exact Or.inr (Or.inr (Or.inl howns))
  · rcases hkeys path hk with hold | hnew
    · refine (h.keys path hold).imp_right (Or.imp_right fun ⟨hkey, he⟩ => ?_)
      exact ⟨hkey, he.of_cons fun hevent herased => (hgone path hevent herased).2 hkey hk⟩
    · exact Or.inr (Or.inl hnew)

section Events

variable (hborn : ∀ path, tree.Strays config path → born path)
  (he : tree.entity? target.entity = some entity)
  (hsteps : ∀ segment ∈ target.segments, segment.Canonical)
  {value : Value} (hget : tree.get? target = some value)

include hsteps hget

theorem mem_target_keyPaths : target ∈ tree.keyPaths target.entity :=
  tree.entityPaths_subset_keyPaths _ (Tree.pathsUnder_subset hsteps hget
    (List.mem_append_right _ (by
      rw [Tree.pathsUnder, hget]
      exact Path.mem_allBelow_self target value)))

include he

theorem mem_newKeys (given : Option Value) (missing : Bool)
    (h : path ∈ newPaths tree batch.graph target given ∨
      (target.isEntity || missing) = true ∧ path ∈ entity.config.setterPaths target.entity) :
    path ∈ tree.keyPaths target.entity := by
  rw [Tree.keyPaths_of_entity? he]
  rcases h with h | ⟨_, h⟩
  · exact List.mem_append_left _ (newPaths_subset hsteps hget _ given h)
  · exact List.mem_append_right _ h

include hborn

theorem node_onNew (hc : batch.graph.Consistent) (hs : batch.cache.Sound)
    (hr : entity.reactive = true) (given : Option Value)
    (h : (onNew config tree entity target given batch).graph.contains path = true) :
    batch.graph.contains path = true ∨ born path ∨ tree.Owns path := by
  rcases (contains_onNew hc hs fun _ => false).mp h with hgrown | hread
  · refine (contains_growNew hc |>.mp hgrown).imp_right fun hnew => Or.inr ?_
    exact .of_mem he hr (mem_newKeys he hsteps hget given _ hnew)
  · refine Or.inr ?_
    split at hread
    · subst hread
      exact Or.inr (.of_mem he hr (mem_target_keyPaths hsteps hget))
    · exact (Tree.owns_or_strays config _ he hread).symm.imp_left (hborn path)

end Events

-- An entity that is part of the graph takes its nodes.
theorem contains_applyDiff_goes (hwhole : diff.target.isEntity = true)
    (hc : batch.graph.Consistent) (hevent : diff.event = .delete) :
    (applyDiff config former tree batch diff).graph.contains path = true ↔
      batch.graph.contains path = true ∧
        ¬(former.TakesPart diff.target.entity ∧ path ∈ former.keyPaths diff.target.entity) := by
  unfold applyDiff Tree.TakesPart
  rw [hevent]
  dsimp only
  cases he : former.entity? diff.target.entity with
  | none => simp
  | some entity =>
      dsimp only
      split
      · next hr =>
        rw [contains_onDelete hc, Path.eq_ofEntity hwhole, gone_ofEntity he]
        simp [Path.ofEntity, hr]
      · next hr => simp [onOutside, hr]

-- What is erased is gone after the deletion that erases it.
theorem gone_applyDiff (h : batch.graph.Consistent) (hevent : diff.event = .delete)
    (herased : path ∈ former.pathsUnder diff.target ∨ diff.target = .ofEntity path.entity) :
    (former.Owns path → (applyDiff config former tree batch diff).graph.contains path = false) ∧
      (path ∈ former.keyPaths path.entity →
        path ∉ (applyDiff config former tree batch diff).keys) := by
  have hname : diff.target.entity = path.entity := by
    rcases herased with hunder | htarget
    · exact (former.allIn_pathsUnder diff.target path hunder).symm
    · rw [htarget]
      rfl
  unfold applyDiff
  rw [hevent]
  dsimp only
  cases he : former.entity? diff.target.entity with
  | none =>
      have hnot : path ∉ former.keyPaths path.entity := Tree.not_mem_keyPaths (hname ▸ he)
      exact ⟨fun howns => absurd howns.2 hnot, fun hkey => absurd hkey hnot⟩
  | some entity =>
      dsimp only
      split
      · refine ⟨fun howns => Bool.eq_false_iff.mpr fun hn => ?_, fun hkey hk => ?_⟩
        · exact ((contains_onDelete h).mp hn).2 (mem_gone_of_erased he howns.2 herased)
        · exact (mem_keys_onDelete_iff.mp hk).2 (mem_gone_of_erased he hkey herased)
      · next hr =>
        refine ⟨fun ⟨⟨found, hfound, hreactive⟩, _⟩ => ?_, fun hkey hk => ?_⟩
        · rw [← hname, he] at hfound
          cases hfound
          exact absurd hreactive hr
        · refine (Keys.mem_removeAll.mp hk).2 ?_
          rcases herased with hunder | htarget
          · exact hunder
          · rw [htarget, Tree.pathsUnder_ofEntity]
            rwa [← hname, Tree.keyPaths_of_entity? he,
              EntityConfig.setterPaths_of_not_reactive (by simpa using hr), List.append_nil,
              hname] at hkey

section Brought

variable (hholds : diff.event ≠ .delete → tree.Holds diff.target)

include hholds

-- An event adds nodes that the new tree has, or reads what it does not hold.
theorem node_applyDiff (hborn : ∀ path, tree.Strays config path → born path)
    (hc : batch.graph.Consistent) (hs : batch.cache.Sound)
    (h : (applyDiff config former tree batch diff).graph.contains path = true) :
    batch.graph.contains path = true ∨ born path ∨ tree.Owns path := by
  unfold applyDiff at h
  dsimp only at h
  split at h
  · exact Or.inl h
  · next entity he =>
    split at h
    · next hr =>
      split at h
      · next hevent =>
        rw [hevent] at he
        obtain ⟨hsteps, value, hget⟩ := hholds (by rw [hevent]; decide) entity he
        exact node_onNew hborn he hsteps hget hc hs hr _ h
      · exact Or.inl ((contains_onDelete hc).mp h).1
      · next hevent =>
        rw [hevent] at he
        obtain ⟨hsteps, value, hget⟩ := hholds (by rw [hevent]; decide) entity he
        refine ((contains_onEdit hc).mp h).imp_right ?_
        rintro ⟨_, rfl⟩
        exact Or.inr (.of_mem he hr (mem_target_keyPaths hsteps hget))
    · refine Or.inl ?_
      cases hevent : diff.event <;> rw [hevent] at h <;> exact h

-- An event adds keys that the new tree brings.
theorem key_applyDiff (h : path ∈ (applyDiff config former tree batch diff).keys) :
    path ∈ batch.keys ∨ path ∈ tree.keyPaths path.entity := by
  unfold applyDiff at h
  dsimp only at h
  split at h
  · exact Or.inl h
  · next entity he =>
    split at h
    · split at h
      · next hevent =>
        rw [hevent] at he
        obtain ⟨hsteps, value, hget⟩ := hholds (by rw [hevent]; decide) entity he
        rw [keys_onNew] at h
        refine (mem_keys_growNew_iff.mp h).imp_right fun hnew => ?_
        have hkey := mem_newKeys he hsteps hget _ _ hnew
        rwa [tree.allIn_keyPaths _ path hkey]
      · exact Or.inl (mem_keys_onDelete_iff.mp h).1
      · next hevent =>
        rw [hevent] at he
        obtain ⟨hsteps, value, hget⟩ := hholds (by rw [hevent]; decide) entity he
        refine (mem_keys_onEdit_iff.mp h).imp_right ?_
        rintro ⟨_, _, rfl⟩
        exact mem_target_keyPaths hsteps hget
    · refine Or.inl ?_
      cases hevent : diff.event <;> rw [hevent] at h
      · exact h
      · exact (Keys.mem_removeAll.mp h).1
      · exact h

end Brought

-- By induction on the diffs that are left.
theorem Bounded.foldl (hborn : ∀ path, tree.Strays config path → born path)
    (hholds : ∀ diff ∈ rest, diff.event ≠ .delete → tree.Holds diff.target)
    (h : Bounded config born former tree rest batch) :
    Bounded config born former tree [] (rest.foldl (applyDiff config former tree) batch) := by
  induction rest generalizing batch with
  | nil => exact h
  | cons diff rest ih =>
      obtain ⟨hdiff, hrest⟩ := List.forall_mem_cons.mp hholds
      refine ih hrest (h.step (Proceeds.applyDiff config former tree h.cache diff) ?_ ?_ ?_)
      · exact fun path hevent herased => gone_applyDiff h.consistent hevent herased
      · exact fun path hn => node_applyDiff hdiff hborn h.consistent h.cache hn
      · exact fun path hk => key_applyDiff hdiff hk

end Batch

namespace Session

variable {config : Config} {born : Path → Prop} {first former tree last : Tree}
  {session : Session} {diffs : List Diff} {diff : Diff} {actions : List Action} {path : Path}
  {name : String} {entity : Entity}

-- A session that has the nodes and keys of its tree at most, and nodes that
-- have been born by being read.
structure Bounded (config : Config) (born : Path → Prop) (session : Session) : Prop where
  coherent : session.Coherent
  settings : session.config = config
  nodes : ∀ path, session.graph.contains path = true → path ∈ config.functionPaths ∨ born path ∨
    session.tree.Owns path
  keys : ∀ path ∈ session.keys,
    path ∈ config.functionPaths ∨ path ∈ session.tree.keyPaths path.entity

theorem contains_start (config : Config) (cache : Binding.Cache) (tree : Tree) :
    (start config cache tree).graph.contains path = true ↔
      path ∈ config.functionPaths ∨ tree.Owns path ∨ path ∈ Built.foundPaths config tree := by
  have hgraph : (start config cache tree).graph = (Built.ofTree config cache.clear tree).graph := by
    unfold start reset
    rw [graph_sort]
  rw [hgraph, Built.contains_ofTree_found (Binding.Cache.sound_clear cache), ← or_assoc,
    ← Tree.owns_iff, or_left_comm]

theorem owns_or_strays_of_found (h : path ∈ Built.foundPaths config tree) :
    tree.Owns path ∨ tree.Strays config path := by
  obtain ⟨entry, he, hread⟩ := List.mem_flatMap.mp h
  exact Tree.owns_or_strays config _ (OrderedMap.get?_eq_some_iff.mpr he) hread

theorem bounded_start (cache : Binding.Cache)
    (hborn : ∀ path, tree.Strays config path → born path) :
    (start config cache tree).Bounded config born := by
  refine ⟨coherent_start config cache tree, config_start config cache tree, fun path hn => ?_,
    fun path hk => ?_⟩
  · rw [tree_start]
    refine ((contains_start config cache tree).mp hn).imp_right ?_
    rintro (howns | hfound)
    · exact Or.inr howns
    · exact (owns_or_strays_of_found hfound).symm.imp_left (hborn path)
  · rw [tree_start]
    exact (Tree.mem_knownPaths.mp ((mem_keys_start config cache tree).mp hk)).symm

-- What the former tree had and the new one has not, is erased.
theorem erases_of_owns (h : Describes former tree diffs) (howns : former.Owns path) :
    tree.Owns path ∨ former.Owns path ∧ Erases former diffs path := by
  obtain ⟨⟨before, hbefore, hr⟩, hkey⟩ := howns
  by_cases hstays : path ∈ tree.keyPaths path.entity
  · obtain ⟨after, hafter⟩ := Tree.exists_of_mem_keyPaths hstays
    by_cases hconfig : before.config = after.config
    · exact Or.inl ⟨⟨after, hafter, (Entity.reactive_congr hconfig).symm.trans hr⟩, hstays⟩
    · obtain ⟨diff, hd, hevent, htarget⟩ := h.replaced _ before after hbefore hafter hconfig
      exact Or.inr ⟨⟨⟨before, hbefore, hr⟩, hkey⟩, diff, hd, hevent, Or.inr htarget⟩
  · exact Or.inr ⟨⟨⟨before, hbefore, hr⟩, hkey⟩, h.vanished path hkey hstays⟩

theorem Bounded.apply (hborn : ∀ path, tree.Strays config path → born path)
    (hd : Describes session.tree tree diffs) (h : session.Bounded config born) :
    (session.apply tree diffs).1.Bounded config born := by
  have hconfig := h.settings
  have hstart : Batch.Bounded config born session.tree tree diffs
      { Batch.start session.graph session.keys session.errors session.cache with
        keys := diffs.foldl (Batch.registerKeys tree) session.keys } := by
    refine ⟨h.coherent.consistent, h.coherent.cache, fun path hn => ?_, fun path hk => ?_⟩
    · exact (h.nodes path hn).imp_right (Or.imp_right (erases_of_owns hd))
    · rcases Batch.mem_foldl_registerKeys_of_holds hd.present hk with hold | hnew
      · refine (h.keys path hold).imp_right fun hkey => ?_
        by_cases hstays : path ∈ tree.keyPaths path.entity
        · exact Or.inl hstays
        · exact Or.inr ⟨hkey, hd.vanished path hkey hstays⟩
      · exact Or.inr (Or.inl hnew)
  have hend := hstart.foldl hborn hd.present
  subst hconfig
  refine ⟨h.coherent.apply tree diffs, config_apply session tree diffs, fun path hn => ?_,
    fun path hk => ?_⟩
  · rw [graph_apply] at hn
    rw [tree_apply]
    refine (hend.nodes path hn).imp_right (Or.imp_right fun ho => ho.resolve_right ?_)
    exact fun he => not_erases_nil he.2
  · rw [keys_apply, keys_batchOf] at hk
    rw [tree_apply]
    refine (hend.keys path hk).imp_right fun ho => ho.resolve_right ?_
    exact fun he => not_erases_nil he.2

section Deleted

variable (hwhole : diff.target.isEntity = true) (hevent : diff.event = .delete) (tree : Tree)

include hwhole hevent

-- What is left when a whole entity goes.
theorem contains_apply_delete (hc : session.graph.Consistent) :
    (session.apply tree [diff]).1.graph.contains path = true ↔
      session.graph.contains path = true ∧ ¬(session.tree.TakesPart diff.target.entity ∧
        path ∈ session.tree.keyPaths diff.target.entity) := by
  rw [graph_apply, graph_batchOf, List.foldl_cons, List.foldl_nil,
    Batch.contains_applyDiff_goes hwhole (by exact hc) hevent]
  exact Iff.rfl

theorem isKnown_apply_delete :
    (session.apply tree [diff]).1.isKnown path = true ↔
      session.isKnown path = true ∧ path ∉ session.tree.keyPaths diff.target.entity := by
  have hregister : [diff].foldl (Batch.registerKeys tree) session.keys = session.keys := by
    rw [List.foldl_cons, List.foldl_nil, Batch.registerKeys, hevent]
  rw [isKnown, isKnown, Std.TreeSet.contains_iff_mem, Std.TreeSet.contains_iff_mem, keys_apply,
    keys_batchOf, hregister, List.foldl_cons, List.foldl_nil,
    Batch.mem_keys_applyDiff_delete hwhole hevent]

end Deleted

-- After the deletion of an entity, part of the graph or not, nothing of it is
-- known. Nodes of it are left only where bindings have been read at a path that
-- the tree of the time did not bring.
theorem forgotten_deleted (config : Config) (hcourse : Course Describes first actions last)
    (hfunction : name ∉ config.internalFunctions) (hevent : diff.event = .delete)
    (htarget : diff.target = .ofEntity name) (tree : Tree) :
    let session := (((ofTree first config).after actions).apply tree [diff]).1
    ∀ path, path.entity = name → session.isKnown path = false ∧
      (session.graph.contains path = true →
        ∃ seen ∈ visited first actions, seen.Strays config path) := by
  intro session path hname
  have hvisited : ∀ seen ∈ visited first actions, ∀ path, seen.Strays config path →
      ∃ seen ∈ visited first actions, seen.Strays config path :=
    fun seen hm path hstrays => ⟨seen, hm, hstrays⟩
  have hbounded : ((ofTree first config).after actions).Bounded config
      fun path => ∃ seen ∈ visited first actions, seen.Strays config path :=
    hcourse.of_start hvisited (bounded_start _ (hvisited first List.mem_cons_self))
      fun now tree diffs hnow hfits hseen => hnow.apply hseen hfits
  have hnot : path ∉ config.functionPaths := fun hp => by
    obtain ⟨function, hf, rfl⟩ := List.mem_map.mp hp
    exact hfunction (hname ▸ OrderedSet.mem_toList.mp hf)
  have hwhole : diff.target.isEntity = true := by
    rw [htarget]
    rfl
  have hentity : diff.target.entity = path.entity := by
    rw [htarget, hname]
    rfl
  refine ⟨Bool.eq_false_iff.mpr fun hk => ?_, fun hn => ?_⟩
  · obtain ⟨hk, hout⟩ := (isKnown_apply_delete hwhole hevent tree).mp hk
    rw [hentity] at hout
    exact (hbounded.keys path (Std.TreeSet.contains_iff_mem.mp hk)).elim hnot hout
  · obtain ⟨hn, hout⟩ :=
      (contains_apply_delete hwhole hevent tree hbounded.coherent.consistent).mp hn
    rw [hentity] at hout
    rcases hbounded.nodes path hn with hp | hborn | howns
    · exact absurd hp hnot
    · exact hborn
    · exact absurd howns hout

section Left

theorem replays_supplied (text : String) :
    Replays (supplied text) (labelled text) [.new "Api" api.value] := by
  refine .new api rfl ?_ ?_ (.done fun name => ?_)
  · rw [Diff.new, target_api]
    rfl
  · rw [Diff.new, target_api]
    rfl
  · rw [Diff.new, target_api]
    rfl

-- An action that has come in is forgotten when it is deleted.
theorem forgotten_api :
    let text := "{{ Api.data }}"
    let session := (((ofTree (labelled text) .standard).after
      [.apply (supplied text) [.new "Api" api.value]]).apply (labelled text) [.delete "Api"]).1
    ∀ path : Path, path.entity = "Api" → session.isKnown path = false ∧
      (session.graph.contains path = true →
        ∃ seen ∈ visited (labelled text) [.apply (supplied text) [.new "Api" api.value]],
          seen.Strays .standard path) := by
  intro text session
  have hedit : ∀ diff ∈ [Diff.new "Api" api.value], diff.event ≠ .edit := by simp [Diff.new]
  exact forgotten_deleted .standard
    (.batch ((replays_supplied text).describes hedit) (.done _)) (by decide +kernel) rfl
    (target_api .delete none) (labelled text)

-- A label whose text has not been written yet.
def unwritten : Entity := (Entity.ofKind .widget (.obj [])).withBindings ["text"]

-- The text is a node since it is read, and stays one when the label goes.
theorem left_label_text :
    let tree := (∅ : Tree).insert "Label" unwritten
    let text := Path.parseLenient "Label.text"
    let session := ((ofTree tree .standard).apply ∅ [.delete "Label"]).1
    tree.TakesPart "Label" ∧ "Label" ∉ Config.standard.internalFunctions ∧
      (∅ : Tree).entity? "Label" = none ∧ text.entity = "Label" ∧
      session.graph.contains text = true := by
  intro tree text session
  exact ⟨⟨unwritten.normalize, rfl, rfl⟩, by decide +kernel⟩

end Left

end Session

end Recalc
