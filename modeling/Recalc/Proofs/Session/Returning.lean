import Recalc.Proofs.Session.Entering
import Recalc.Proofs.Session.Invalidation

namespace Recalc

open Binding (Dependencies)

namespace Batch

variable {config : Config} {former tree : Tree} {batch : Batch} {entity : Entity}
  {name : String} {names : List String} {path reader : Path} {keys : Keys} {graph : Graph}
  {gone readers : List Path} {errors : ErrorStore} {key : String}

section Flags

variable {keep : DependencyError → Bool}
  (hkeep : ∀ reader target : Path, target ∈ gone →
    keep (.unresolvedReference reader.render target.render) = false)

include hkeep

-- A deletion adds nothing but errors that name what is gone.
theorem filter_flagReader :
    ((flagReader keys graph gone errors reader).atKey key).filter keep =
      (errors.atKey key).filter keep := by
  refine List.foldlRecOn (graph.pendingOf reader) _ (motive := fun now : ErrorStore =>
    (now.atKey key).filter keep = (errors.atKey key).filter keep) rfl fun now hnow target _ => ?_
  split
  · next hflag =>
    have htarget : target ∈ gone := of_decide_eq_true (Bool.and_eq_true_iff.mp hflag).1
    rw [ErrorStore.filter_flagUnresolved (hkeep reader target htarget), hnow]
  · exact hnow

end Flags

theorem filter_flagged {keep : DependencyError → Bool}
    (hkeep : ∀ reader target : Path, target ∈ Batch.gone former entity path →
      keep (.unresolvedReference reader.render target.render) = false) :
    ((flagged config former entity path batch).atKey key).filter keep =
      (batch.errors.atKey key).filter keep := by
  unfold flagged
  split
  · exact List.foldlRecOn _ (flagReader _ _ _) (motive := fun now : ErrorStore =>
      (now.atKey key).filter keep = (batch.errors.atKey key).filter keep) rfl
      fun now hnow reader _ => (filter_flagReader hkeep).trans hnow
  · rfl

-- What is found once an entity has gone. The errors of its setters stay with
-- the store.
def remains (config : Config) (tree : Tree) (names : List String) (name : String) (path : Path) :
    Dependencies where
  references := (Built.yields config tree (name :: names) path).references
  errors := if path ∈ tree.entityPaths name then []
    else (Built.yields config tree names path).errors

theorem remains_settled
    (hp : path.entity = name → Built.yielded config tree path = none) :
    remains config tree names name path = Built.yields config tree names path := by
  unfold remains
  by_cases hname : path.entity = name
  · rw [Built.yields_of_none (hp hname), Built.yields_of_none (hp hname)]
    exact congrArg (Dependencies.mk _) (ite_self _)
  · rw [Built.yields_cons hname, if_neg fun hm => hname (tree.allIn_entityPaths name path hm)]

-- The nodes of an entity that comes in are new.
theorem Misses.fresh {before : Path → Dependencies}
    (h : Misses config tree names name before batch) (hname : (Path.ofEntity name).Plain)
    (value : Option Value) {id : Nat} (hp : path.entity = name)
    (hid : (onNew config tree entity (.ofEntity name) value batch).graph.id? path = some id) :
    batch.graph.nextId ≤ id := by
  have hproceeds : Proceeds config tree batch
      (onNew config tree entity (.ofEntity name) value batch) := .onNew h.cache hname value
  have hseeded := Seeded.moves ⟨h.consistent, .refl _⟩ hproceeds.moves
  obtain ⟨kind, hl⟩ := Graph.path?_eq_some_iff.mp (hseeded.consistent.path?_of_id? path id hid)
  by_contra hold
  have hthere := h.consistent.contains_iff.mpr
    ⟨id, Graph.path?_of_label (hseeded.drift.old id _ (Nat.lt_of_not_le hold) hl)⟩
  rw [h.not_contains hp] at hthere
  cases hthere

-- What a batch registers is known to a build anyway.
theorem Lacks.register (h : Lacks config tree names batch) {diffs : List Diff}
    (hwhole : ∀ diff ∈ diffs, diff.event = .new → diff.target.isEntity = true) :
    Lacks config tree names { batch with keys := diffs.foldl (registerKeys tree) batch.keys } := by
  refine ⟨h.consistent, h.cache, h.kinds, h.wired, fun path => ?_, h.reported⟩
  dsimp only
  rw [mem_foldl_registerKeys hwhole, h.keys]
  refine or_iff_left_of_imp ?_
  rintro ⟨diff, _, _, hp⟩
  exact Tree.mem_knownPaths_of_mem_keyPaths hp

namespace Lacks

variable (h : Lacks config tree names batch) (hw : tree.Confined config name entity)
  (hplain : tree.Plain) (hout : name ∉ names)

include h hw hout

-- The nodes of an entity that is not lacking are those that it brings.
theorem contains_iff (hp : path.entity = name) :
    batch.graph.contains path = true ↔ path ∈ tree.keyPaths name := by
  rw [← h.consistent.isSome_kind?, h.kinds, if_neg (show path.entity ∉ names from hp ▸ hout)]
  exact hw.isSome_nodeKind (Binding.Cache.sound_ofCapacity _) hp

omit h hout in
theorem graph_onDelete : (onDelete config tree entity (.ofEntity name) batch).graph =
    (batch.graph.removeNodes (entity.config.setterPaths name ++ tree.entityPaths name)).1 := by
  rw [onDelete_eq, graph_foldl_forget, ← Graph.removeNodes_append, ← removedSetters_ofEntity,
    ← removedPaths_ofEntity hw.there]
  rfl

omit h hout in
theorem mem_paths_iff :
    path ∈ entity.config.setterPaths name ++ tree.entityPaths name ↔ path ∈ tree.keyPaths name := by
  rw [Tree.keyPaths_of_entity? hw.there, List.mem_append, List.mem_append, or_comm]

theorem kind?_onDelete : (onDelete config tree entity (.ofEntity name) batch).graph.kind? path =
    if path.entity ∈ name :: names then none
    else tree.nodeKind config (.ofCapacity config.cacheCapacity) path := by
  rw [graph_onDelete hw, h.consistent.kind?_removeNodes]
  simp only [mem_paths_iff hw]
  by_cases hp : path.entity = name
  · rw [if_pos (show path.entity ∈ name :: names by simp [hp])]
    split
    · rfl
    · next hm =>
      have hnone := mt (h.contains_iff hw hout hp).mp hm
      rwa [← h.consistent.isSome_kind?, Option.not_isSome_iff_eq_none] at hnone
  · rw [if_neg fun hm => hp (tree.allIn_keyPaths name path hm), h.kinds]
    simp [hp]

theorem wired_onDelete : Graph.Wired true
    (fun path => (remains config tree names name path).references.toList)
    (onDelete config tree entity (.ofEntity name) batch).graph := by
  have hown : ∀ path ∈ entity.config.setterPaths name ++ tree.entityPaths name,
      path.entity = name := fun path hp =>
    tree.allIn_keyPaths name path ((mem_paths_iff hw).mp hp)
  have hapart : ∀ above, batch.graph.contains above = true →
      above ∉ entity.config.setterPaths name ++ tree.entityPaths name →
        ∀ path ∈ entity.config.setterPaths name ++ tree.entityPaths name,
          path.isChildOf above = false := fun above ha hleft path hp => by
    refine Bool.eq_false_iff.mpr fun hchild => hleft ((mem_paths_iff hw).mpr ?_)
    exact (h.contains_iff hw hout ((Path.entity_of_isChildOf hchild).trans (hown path hp))).mp ha
  have hremoved := h.wired.removeNodes h.consistent hapart
  have hsame : (fun path => if path ∈ entity.config.setterPaths name ++ tree.entityPaths name
      then [] else (Built.yields config tree names path).references.toList) =
        fun path => (remains config tree names name path).references.toList := by
    funext path
    unfold remains
    dsimp only
    by_cases hp : path.entity = name
    · rw [Built.yields_of_mem (show path.entity ∈ name :: names by simp [hp])]
      split
      · rfl
      · next hm =>
        have hnone : Built.yielded config tree path = none := by
          refine Option.not_isSome_iff_eq_none.mp fun hsome => hm ?_
          exact (mem_paths_iff hw).mpr (hw.mem_keyPaths hp hsome)
        rw [Built.yields_of_none hnone]
    · rw [if_neg fun hm => hp (hown path hm), Built.yields_cons hp]
  rw [hsame] at hremoved
  rw [graph_onDelete hw]
  exact hremoved

omit hout in
include hplain in
-- What the deletion says of the entity is taken back once it is resolved.
theorem reported_onDelete : ErrorStore.Reported
    (fun path => (remains config tree names name path).errors)
    ((tree.keyPaths name).foldl ErrorStore.resolveReference
      (onDelete config tree entity (.ofEntity name) batch).errors) := by
  have hpaths : ∀ path ∈ tree.entityPaths name, path.Plain := fun path hp =>
    Path.plain_of_entity_eq (hplain.ofEntity hw.there) (tree.allIn_entityPaths name path hp)
  refine (h.reported.foldl_clearPath hpaths).congr fun key => ?_
  rw [onDelete_eq, errors_foldl_forget, ErrorStore.atKey_foldl_resolveReference,
    removedPaths_ofEntity hw.there, ErrorStore.atKey_foldl_clearPath,
    ErrorStore.atKey_foldl_clearPath]
  split
  · rfl
  · show ((flagged config tree entity (.ofEntity name) batch).atKey key).filter _ = _
    rw [filter_flagged, ← ErrorStore.atKey_foldl_resolveReference]
    · refine h.reported.atKey_foldl_resolveReference (fun path _ => ?_) key
      exact Built.unnamed_yields (fun _ => hplain.of_mem_keyPaths) fun _ =>
        Tree.mem_knownPaths_of_mem_keyPaths
    · intro reader target htarget
      rw [gone_ofEntity hw.there] at htarget
      refine Bool.eq_false_iff.mpr fun hall => ?_
      have := List.all_eq_true.mp hall target htarget
      simp [ErrorStore.namesReference] at this

include hplain in
-- A deletion leaves a batch that misses the entity.
theorem goes : Misses config tree names name (remains config tree names name)
    (onDelete config tree entity (.ofEntity name) batch) := by
  have hname : (Path.ofEntity name).Plain := hplain.ofEntity hw.there
  have hproceeds : Proceeds config tree batch
      (onDelete config tree entity (.ofEntity name) batch) := .onDelete hname
  refine ⟨consistent_moves h.consistent hproceeds.moves, hproceeds.cache h.cache,
    fun path => h.kind?_onDelete hw hout, h.wired_onDelete hw hout, fun path => ?_,
    h.reported_onDelete hw hplain, fun path => remains_settled⟩
  rw [mem_keys_onDelete_iff, gone_ofEntity hw.there, h.keys]
  constructor
  · rintro (hk | hp)
    · exact hk.1
    · exact Tree.mem_knownPaths_of_mem_keyPaths hp
  · exact fun hk => (em (path ∈ tree.keyPaths name)).symm.imp_left (⟨hk, ·⟩)

end Lacks

end Batch

namespace Session

variable {config : Config} {tree : Tree} {session : Session} {name : String} {names : List String}
  {entity : Entity} {diffs : List Diff} {path : Path}

-- An entity that goes and comes back, of a session that is a build of its tree.
theorem lacks_returning (h : session.toBatch.Lacks session.config session.tree [])
    (hplain : session.tree.Plain) (hw : session.tree.Confined session.config name entity)
    (hlinks : ∀ kind, session.config.linksChildren kind = true) (gone back : Diff)
    (hgone : gone.event = .delete ∧ gone.target = .ofEntity name)
    (hback : back.event = .new ∧ back.target = .ofEntity name) :
    (session.batchOf session.tree [gone, back]).Lacks session.config session.tree [] ∧
      ∀ path id, path.entity = name →
        (session.batchOf session.tree [gone, back]).graph.id? path = some id →
          session.graph.nextId ≤ id := by
  obtain ⟨hdelete, hwhole⟩ := hgone
  obtain ⟨hnew, hsame⟩ := hback
  have hname : (Path.ofEntity name).Plain := hplain.ofEntity hw.there
  have hregistered : Batch.Lacks session.config session.tree []
      { session.toBatch with
        keys := [gone, back].foldl (Batch.registerKeys session.tree) session.keys } :=
    h.register fun diff hd _ => by
      rcases List.mem_pair.mp hd with rfl | rfl
      · rw [hwhole]
        rfl
      · rw [hsame]
        rfl
  have hmisses := hregistered.goes hw hplain List.not_mem_nil
  have hcomes := hmisses.comes hw hlinks back.value hplain List.not_mem_nil
  have hbatch : session.batchOf session.tree [gone, back] = (Batch.onNew session.config session.tree
      entity (.ofEntity name) back.value (Batch.onDelete session.config session.tree entity
        (.ofEntity name) { session.toBatch with
          keys := [gone, back].foldl (Batch.registerKeys session.tree)
            session.keys })).dropGoneReaders := by
    rw [← Batch.applyDiff_delete hdelete hwhole hw.there hw.reactive,
      ← Batch.applyDiff_new hnew hsame hw.there hw.reactive]
    rfl
  rw [hbatch]
  refine ⟨hcomes.dropGoneReaders, fun path id hp hid => ?_⟩
  have hfresh := hmisses.fresh hname back.value hp hid
  rwa [Batch.Lacks.graph_onDelete hw, (hregistered.consistent.shrinks_removeNodes _).next] at hfresh

-- After an entity has gone and come back in one batch, all that can be seen of
-- a session is as before. The nodes of the entity are new ones.
theorem returned (config : Config) (hlinks : ∀ kind, config.linksChildren kind = true)
    (hplain : tree.Plain) (hname : name ≠ "") (hw : tree.Confined config name entity)
    (lost found : Option Value) :
    let session := ofTree tree config
    let after := (session.apply tree [⟨.delete, name, lost⟩, ⟨.new, name, found⟩]).1
    Matches session after ∧ ∀ path id, path.entity = name → after.graph.id? path = some id →
      ∀ other, session.graph.id? other ≠ some id := by
  intro session after
  have htarget : Path.parseLenient name = .ofEntity name :=
    Path.parseLenient_of_plain hname (hplain.ofEntity hw.there)
  have hcoherent : session.Coherent := coherent_start config _ tree
  have hconfig : session.config = config := config_start config _ tree
  have htree : session.tree = tree := tree_start config _ tree
  have hl : config.linksAllChildren = true := List.all_eq_true.mpr fun kind _ => hlinks kind
  have hstart : session.toBatch.Lacks config tree [] := lacks_start hl _ hplain
  clear_value session
  subst hconfig htree
  obtain ⟨hlacks, hfresh⟩ := lacks_returning hstart hplain hw hlinks
    ⟨.delete, name, lost⟩ ⟨.new, name, found⟩ ⟨rfl, htarget⟩ ⟨rfl, htarget⟩
  refine ⟨matches_of_lacks hcoherent (hcoherent.apply _ _) hstart (lacks_apply hlacks),
    fun path id hp hid other hother => ?_⟩
  rw [graph_apply] at hid
  have hbelow := hcoherent.consistent.below id
    (Graph.mem_nodes_iff_path.mpr ⟨other, hcoherent.consistent.path?_of_id? other id hother⟩)
  exact absurd hbelow (Nat.not_lt_of_le (hfresh path id hp hid))

-- A label goes and comes back, and the label that it mirrors and that mirrors
-- it is there all the time.
theorem returned_label :
    let session := ofTree mirrored .standard
    let after := (session.apply mirrored [.delete "Label", .new "Label" (.obj [])]).1
    session.HasCycle (· ∈ [⟨"Label", [.key "text"]⟩, ⟨"Mirror", [.key "text"]⟩]) ∧
      Matches session after ∧ ∀ path id, path.entity = "Label" → after.graph.id? path = some id →
        ∀ other, session.graph.id? other ≠ some id := by
  intro session after
  refine ⟨?_, returned .standard (fun kind => by cases kind <;> decide) plain_mirrored (by decide)
    ⟨rfl, rfl, by decide +kernel, fun path _ => not_strays_mirrored path⟩ none (some (.obj []))⟩
  exact ⟨_, by decide +kernel, fun path => Iff.rfl⟩

end Session

end Recalc
