import Recalc.Proofs.Session.Rebuild
import Recalc.Proofs.Session.Settled

namespace Recalc

-- A batch that turns one tree into another by whole entities that come in and
-- go, each of them once.
structure Reshapes (former tree : Tree) (diffs : List Diff) : Prop where
  whole : ∀ diff ∈ diffs, diff.target.isEntity = true ∧ diff.event ≠ .edit
  once : (diffs.map fun diff => diff.target.entity).Nodup
  new : ∀ diff ∈ diffs, diff.event = .new → former.entity? diff.target.entity = none
  delete : ∀ diff ∈ diffs, diff.event = .delete → tree.entity? diff.target.entity = none
  kept : ∀ name, (∀ diff ∈ diffs, diff.target.entity ≠ name) →
    tree.entity? name = former.entity? name

-- An entity that is there in the end has come in, if a diff is about it.
theorem Reshapes.event_eq_new {former tree : Tree} {diffs : List Diff} {diff : Diff}
    {entity : Entity} (hr : Reshapes former tree diffs) (hd : diff ∈ diffs)
    (he : tree.entity? diff.target.entity = some entity) : diff.event = .new := by
  cases hevent : diff.event with
  | new => rfl
  | delete =>
      rw [hr.delete diff hd hevent] at he
      cases he
  | edit => exact absurd hevent (hr.whole diff hd).2

-- No entity goes by the name of a function of the platform.
def Tree.Apart (config : Config) (tree : Tree) : Prop :=
  ∀ name ∈ config.internalFunctions, tree.entity? name = none

theorem Tree.Apart.not_mem_keyPaths {config : Config} {tree : Tree} {path : Path} {name : String}
    (h : tree.Apart config) (hp : path ∈ config.functionPaths) : path ∉ tree.keyPaths name := by
  intro hkey
  obtain ⟨function, hf, rfl⟩ := List.mem_map.mp hp
  obtain rfl : function = name := tree.allIn_keyPaths name _ hkey
  exact Tree.not_mem_keyPaths (h function hf) hkey

theorem Tree.Apart.of_isNone {config : Config} {tree : Tree}
    (h : ∀ name ∈ config.internalFunctions.toList, (tree.entity? name).isNone = true) :
    tree.Apart config := fun name hn =>
  Option.isNone_iff_eq_none.mp (h name (OrderedSet.mem_toList.mpr hn))

-- A path reads the wanted targets against a fresh build of a tree.
def Tree.Resolves (config : Config) (entity : Entity) (path : Path) (wanted : Path → Prop)
    (seen : Tree) : Prop :=
  ∀ target, target ∈ (Binding.reading config (Built.nodes config seen).2.contains entity
    path).references ↔ wanted target

namespace Batch

open Binding

variable {config : Config} {former tree : Tree} {diffs rest : List Diff} {diff : Diff}
  {keys : Keys} {batch : Batch} {entity : Entity} {path : Path} {wanted : Path → Prop}
  {known : Path → Bool} {name : String}

-- What is known in the middle of a batch: all that the new tree brings, and
-- what is still to be deleted.
def Knows (config : Config) (former tree : Tree) (rest : List Diff) (keys : Keys) : Prop :=
  ∀ path, path ∈ keys ↔ path ∈ (Built.nodes config tree).2 ∨
    path ∈ former.keyPaths path.entity ∧
      ∃ diff ∈ rest, diff.event = .delete ∧ diff.target.entity = path.entity

theorem Knows.register (hr : Reshapes former tree diffs)
    (h : ∀ path, path ∈ keys ↔ path ∈ (Built.nodes config former).2) :
    Knows config former tree diffs (diffs.foldl (registerKeys tree) keys) := by
  intro path
  have hnew : (∃ diff ∈ diffs, diff.event = .new ∧ path ∈ tree.keyPaths diff.target.entity) ↔
      path ∈ tree.keyPaths path.entity ∧
        ∃ diff ∈ diffs, diff.event = .new ∧ diff.target.entity = path.entity := by
    constructor
    · rintro ⟨diff, hd, hevent, hp⟩
      have hentity := tree.allIn_keyPaths _ path hp
      exact ⟨hentity ▸ hp, diff, hd, hevent, hentity.symm⟩
    · rintro ⟨hp, diff, hd, hevent, hentity⟩
      exact ⟨diff, hd, hevent, hentity ▸ hp⟩
  rw [mem_foldl_registerKeys fun diff hd _ => (hr.whole diff hd).1, h, hnew, Built.mem_keys_nodes,
    Built.mem_keys_nodes, or_right_comm, or_right_comm (a := path ∈ tree.keyPaths _)]
  refine or_congr ?_ Iff.rfl
  by_cases htouched : ∃ diff ∈ diffs, diff.target.entity = path.entity
  · obtain ⟨diff, hd, hentity⟩ := htouched
    cases hevent : diff.event with
    | new =>
        have hnone := hr.new diff hd hevent
        rw [hentity] at hnone
        simp only [Tree.keyPaths_of_none hnone, List.not_mem_nil, false_or, false_and, or_false]
        exact and_iff_left ⟨diff, hd, hevent, hentity⟩
    | delete =>
        have hnone := hr.delete diff hd hevent
        rw [hentity] at hnone
        simp only [Tree.keyPaths_of_none hnone, List.not_mem_nil, false_or, false_and, or_false]
        exact (and_iff_left ⟨diff, hd, hevent, hentity⟩).symm
    | edit => exact absurd hevent (hr.whole diff hd).2
  · have huntouched : ∀ diff ∈ diffs, diff.target.entity ≠ path.entity :=
      fun diff hd hentity => htouched ⟨diff, hd, hentity⟩
    rw [Tree.keyPaths_congr (hr.kept _ huntouched)]
    exact ⟨fun hp => hp.elim Or.inl fun hp => Or.inl hp.1,
      fun hp => hp.elim Or.inl fun hp => Or.inl hp.1⟩

theorem ne_of_suffix (hr : Reshapes former tree diffs) (hsuffix : diff :: rest <:+ diffs) :
    ∀ other ∈ rest, other.target.entity ≠ diff.target.entity := by
  have hnodup := (hsuffix.sublist.map fun diff => diff.target.entity).nodup hr.once
  rw [List.map_cons, List.nodup_cons] at hnodup
  exact fun other ho he => hnodup.1 (he ▸ List.mem_map_of_mem ho)

theorem Knows.of_new (h : Knows config former tree (diff :: rest) keys) (hevent : diff.event = .new) :
    Knows config former tree rest keys := by
  intro path
  rw [h path]
  simp [hevent]

theorem Knows.applyDiff (hr : Reshapes former tree diffs) (happart : former.Apart config)
    (hsuffix : diff :: rest <:+ diffs) (h : Knows config former tree (diff :: rest) batch.keys) :
    Knows config former tree rest (applyDiff config former tree batch diff).keys := by
  have hd : diff ∈ diffs := hsuffix.mem List.mem_cons_self
  obtain ⟨hwhole, hedit⟩ := hr.whole diff hd
  cases hevent : diff.event with
  | new =>
      intro path
      refine (mem_keys_applyDiff_new hwhole hevent fun key hk => ?_).trans (h.of_new hevent path)
      refine (h key).mpr (Or.inl (Built.mem_keys_nodes.mpr (Or.inl ?_)))
      rwa [tree.allIn_keyPaths _ key hk]
  | delete =>
      intro path
      rw [mem_keys_applyDiff_delete hwhole hevent, h path]
      by_cases hentity : path.entity = diff.target.entity
      · have hnone : tree.entity? path.entity = none := hentity ▸ hr.delete diff hd hevent
        have hrest : ¬∃ other ∈ rest, other.event = .delete ∧ other.target.entity = path.entity := by
          rintro ⟨other, ho, _, he⟩
          exact ne_of_suffix hr hsuffix other ho (he.trans hentity)
        rw [Built.mem_keys_nodes, Tree.keyPaths_of_none hnone, ← hentity]
        simp only [List.not_mem_nil, false_or, hrest, and_false, or_false]
        constructor
        · rintro ⟨hp | hp, hout⟩
          · exact hp
          · exact absurd hp.1 hout
        · exact fun hp => ⟨Or.inl hp, happart.not_mem_keyPaths hp⟩
      · have hout : path ∉ former.keyPaths diff.target.entity :=
          fun hp => hentity (former.allIn_keyPaths _ path hp)
        simp [hout, Ne.symm hentity]
  | edit => exact absurd hevent hedit

-- Of each entity a batch knows in its middle what one of its ends knows.
theorem Knows.locally (hr : Reshapes former tree diffs) (hsub : rest ⊆ diffs)
    (h : Knows config former tree rest keys) (name : String) :
    (∀ path, path.entity = name → (path ∈ keys ↔ path ∈ (Built.nodes config tree).2)) ∨
      ∀ path, path.entity = name → (path ∈ keys ↔ path ∈ (Built.nodes config former).2) := by
  by_cases hdelete : ∃ diff ∈ rest, diff.event = .delete ∧ diff.target.entity = name
  · refine Or.inr fun path hp => ?_
    subst hp
    obtain ⟨diff, hd, hevent, hentity⟩ := hdelete
    have hnone : tree.entity? path.entity = none := hentity ▸ hr.delete diff (hsub hd) hevent
    rw [h path, Built.mem_keys_nodes, Built.mem_keys_nodes, Tree.keyPaths_of_none hnone,
      and_iff_left ⟨diff, hd, hevent, hentity⟩]
    simp [or_comm]
  · refine Or.inl fun path hp => ?_
    subst hp
    rw [h path]
    exact or_iff_left fun hd => hdelete hd.2

-- A batch after some of its diffs. A path of an entity that the new tree has
-- is settled unless its entity is still to come in.
structure Reshaped (config : Config) (former tree : Tree) (entity : Entity) (path : Path)
    (wanted : Path → Prop) (rest : List Diff) (batch : Batch) : Prop where
  consistent : batch.graph.Consistent
  cache : batch.cache.Sound
  knows : Knows config former tree rest batch.keys
  settled : tree.entity? path.entity = some entity →
    (∀ diff ∈ rest, diff.target.entity ≠ path.entity) → batch.graph.Settled path wanted

section Steps

variable (hr : Reshapes former tree diffs) (happart : former.Apart config) (ht : tree.Spelled)
  (hread : path ∈ (readings config known path.entity entity).keys)
  (hformer : former.Resolves config entity path wanted)
  (htree : tree.Resolves config entity path wanted)

include hr hformer htree in
-- What is read in the middle of a batch, each reference resolved as at one of
-- its ends.
theorem mem_reading_of_knows (hsub : rest ⊆ diffs) (h : Knows config former tree rest keys)
    (target : Path) :
    target ∈ (reading config keys.contains entity path).references ↔ wanted target := by
  rcases h.locally hr hsub target.entity with hlocal | hlocal
  · rw [mem_references_reading_congr fun other ho => Keys.contains_eq (hlocal other ho)]
    exact htree target
  · rw [mem_references_reading_congr fun other ho => Keys.contains_eq (hlocal other ho)]
    exact hformer target

include hr happart ht hread hformer htree

theorem Reshaped.applyDiff (hsuffix : diff :: rest <:+ diffs)
    (h : Reshaped config former tree entity path wanted (diff :: rest) batch) :
    Reshaped config former tree entity path wanted rest
      (Batch.applyDiff config former tree batch diff) := by
  have hd : diff ∈ diffs := hsuffix.mem List.mem_cons_self
  have hproceeds := Proceeds.applyDiff config former tree h.cache diff
  refine ⟨consistent_moves h.consistent hproceeds.moves, hproceeds.cache h.cache,
    h.knows.applyDiff hr happart hsuffix, fun he hrest => ?_⟩
  by_cases hentity : diff.target.entity = path.entity
  · have hevent : diff.event = .new := hr.event_eq_new hd (hentity ▸ he)
    have htarget : diff.target = .ofEntity path.entity := by
      rw [Path.eq_ofEntity (hr.whole diff hd).1, hentity]
    have hreactive : entity.reactive = true := reactive_of_mem_readings hread
    rw [applyDiff_new hevent htarget he hreactive]
    refine (settled_onNew_own h.consistent h.cache ht he (fun key hk => ?_) ?_ diff.value).congr
      fun target => ?_
    · refine (h.knows key).mpr (Or.inl (Built.mem_keys_nodes.mpr (Or.inl ?_)))
      rwa [tree.allIn_keyPaths _ key hk]
    · rw [keys_readings_congr rfl]
      exact hread
    · rw [Tree.reading_of_reactive he hreactive]
      exact mem_reading_of_knows hr hformer htree hsuffix.subset h.knows target
  · exact settled_applyDiff (h.settled he (List.forall_mem_cons.mpr ⟨hentity, hrest⟩)) h.cache ht
      hentity

-- By induction on the diffs that are left.
theorem Reshaped.foldl (hsuffix : rest <:+ diffs)
    (h : Reshaped config former tree entity path wanted rest batch) :
    Reshaped config former tree entity path wanted []
      (rest.foldl (Batch.applyDiff config former tree) batch) := by
  induction rest generalizing batch with
  | nil => exact h
  | cons diff rest ih =>
      exact ih ((List.suffix_cons diff rest).trans hsuffix)
        (h.applyDiff hr happart ht hread hformer htree hsuffix)

end Steps

end Batch

namespace Session

open Binding (Dependencies)

variable {config : Config} {former tree last seen : Tree} {session now : Session}
  {actions : List Action} {diffs : List Diff} {entity : Entity} {path : Path} {name : String}
  {wanted : Path → Prop} {known : Path → Bool}

-- What the paths of an entity read, if references resolve against a fresh
-- build of a tree.
def extracted (config : Config) (seen : Tree) (name : String) (entity : Entity) :
    OrderedMap Path Dependencies :=
  (Binding.ofEntity config (ofTree seen config).keys.contains (.ofCapacity config.cacheCapacity)
    name entity).1

def references (config : Config) (seen : Tree) (name : String) (entity : Entity) (path : Path) :
    OrderedSet Path :=
  (((extracted config seen name entity).get? path).getD ∅).references

theorem extracted_eq (h : seen.Spelled) :
    extracted config seen name entity =
      Binding.readings config (Built.nodes config seen).2.contains name entity := by
  unfold extracted
  rw [(Binding.ofEntity_eq config _ name entity (Binding.Cache.sound_ofCapacity _)).1, ofTree,
    keys_start _ h]

-- Reading the entity finds at the path what reading the path finds.
theorem references_eq (h : seen.Spelled) (hlast : last.Spelled)
    (hm : (name, entity) ∈ last.entities.entries)
    (hp : path ∈ (Binding.readings config known name entity).keys) :
    references config seen name entity path =
      (Binding.reading config (Built.nodes config seen).2.contains entity path).references := by
  have hread : path ∈
      (Binding.readings config (Built.nodes config seen).2.contains name entity).keys := by
    rw [Binding.keys_readings_congr rfl]
    exact hp
  obtain ⟨found, hget⟩ := OrderedMap.mem_keys_iff.mp hread
  rw [references, extracted_eq h, hget]
  rw [Binding.get?_readings (Binding.reactive_of_mem_readings hp) (hlast.config _ hm)
    (hlast.named _ hm) (hlast.plain _ hm)] at hget
  split at hget
  · cases hget
    rfl
  · cases hget

-- A session after batches that reshape its tree. A path is settled if its
-- entity is there.
structure Kept (config : Config) (entity : Entity) (path : Path) (wanted : Path → Prop)
    (session : Session) : Prop where
  coherent : session.Coherent
  settings : session.config = config
  keys : ∀ key, key ∈ session.keys ↔ key ∈ (Built.nodes config session.tree).2
  settled : session.tree.entity? path.entity = some entity → session.graph.Settled path wanted

theorem Kept.start (hl : config.linksAllChildren = true) (cache : Binding.Cache)
    (h : tree.Spelled) (hread : path ∈ (Binding.readings config known path.entity entity).keys)
    (hwanted : tree.Resolves config entity path wanted) :
    Kept config entity path wanted (start config cache tree) := by
  refine ⟨coherent_start config cache tree, config_start config cache tree, fun key => ?_,
    fun he => ?_⟩
  · rw [keys_start cache h, tree_start]
  · rw [tree_start] at he
    have hs := Binding.Cache.sound_clear cache
    have hreactive : entity.reactive = true := Binding.reactive_of_mem_readings hread
    have hpaths : path ∈ Built.foundPaths config tree := by
      refine List.mem_flatMap.mpr ⟨_, OrderedMap.get?_eq_some_iff.mp he, ?_⟩
      rw [Binding.keys_readings_congr rfl]
      exact hread
    have hfound : (Built.found config tree path).references =
        (Binding.reading config (Built.nodes config tree).2.contains entity path).references := by
      rw [Built.found, Tree.reading_of_reactive he hreactive]
    rw [graph_start]
    have hc := (Built.well_ofTree config hs tree).1.consistent
    refine ((Built.wired_ofTree hl hs h).settled hc (Built.contains_ofTree_of_read hl hs h hpaths)
      fun target ht => Tree.ne_of_mem_reading ht).congr fun target => ?_
    rw [OrderedSet.mem_toList, hfound]
    exact hwanted target

theorem Kept.apply (h : session.Kept config entity path wanted)
    (hr : Reshapes session.tree tree diffs) (happart : session.tree.Apart config)
    (ht : tree.Spelled) (hread : path ∈ (Binding.readings config known path.entity entity).keys)
    (hformer : session.tree.Resolves config entity path wanted)
    (htree : tree.Resolves config entity path wanted) :
    (session.apply tree diffs).1.Kept config entity path wanted := by
  have hbegin : Batch.Reshaped config session.tree tree entity path wanted diffs
      { Batch.start session.graph session.keys session.errors session.cache with
        keys := diffs.foldl (Batch.registerKeys tree) session.keys } := by
    refine ⟨h.coherent.consistent, h.coherent.cache, .register hr h.keys, fun he hnone => ?_⟩
    exact h.settled ((hr.kept _ hnone).symm.trans he)
  have hend := hbegin.foldl hr happart ht hread hformer htree List.suffix_rfl
  refine ⟨h.coherent.apply tree diffs, (config_apply _ _ _).trans h.settings, fun key => ?_,
    fun he => ?_⟩
  · rw [keys_apply, tree_apply, batchOf, h.settings]
    refine (hend.knows key).trans (or_iff_left ?_)
    rintro ⟨_, _, hm, _⟩
    exact absurd hm List.not_mem_nil
  · rw [tree_apply] at he
    rw [graph_apply, batchOf, h.settings]
    exact hend.settled he fun _ hm => absurd hm List.not_mem_nil

-- Batches that lead from one tree to another by whole entities.
inductive Reshaping : Tree → List Action → Tree → Prop
  | done (tree : Tree) : Reshaping tree [] tree
  | reshape {former tree last : Tree} {diffs : List Diff} {actions : List Action}
      (hr : Reshapes former tree diffs) (hrest : Reshaping tree actions last) :
      Reshaping former (.apply tree diffs :: actions) last

def Action.tree? : Action → Option Tree
  | .apply tree _ => some tree
  | .reset tree => some tree
  | .recordEvaluation _ _ => none

-- The trees that a session holds on its way.
def visited (tree : Tree) (actions : List Action) : List Tree :=
  tree :: actions.filterMap Action.tree?

theorem Reshaping.last_mem (h : Reshaping tree actions last) : last ∈ visited tree actions := by
  induction h with
  | done tree => exact List.mem_cons_self
  | reshape hr hrest ih => exact List.mem_cons_of_mem _ ih

-- By induction on the batches, each of which starts where the one before ends.
theorem Kept.after (h : now.Kept config entity path wanted)
    (hreshaping : Reshaping now.tree actions last)
    (hread : path ∈ (Binding.readings config known path.entity entity).keys)
    (hseen : ∀ seen ∈ visited now.tree actions, seen.Spelled ∧ seen.Apart config ∧
      seen.Resolves config entity path wanted) :
    (now.after actions).Kept config entity path wanted ∧ (now.after actions).tree = last := by
  generalize htree : now.tree = former at hreshaping hseen
  induction hreshaping generalizing now with
  | done tree => exact ⟨h, htree⟩
  | @reshape former tree last diffs actions hr hrest ih =>
      subst htree
      obtain ⟨_, happart, hformer⟩ := hseen _ List.mem_cons_self
      have hlater := fun seen hm => hseen seen (List.mem_cons_of_mem _ hm)
      obtain ⟨hspelled, _, hnew⟩ := hlater tree List.mem_cons_self
      exact ih (h.apply hr happart hspelled hread hformer hnew) (tree_apply _ _ _) hlater

-- After batches in which whole entities come in and go, each path that reads
-- declares what it reads in a fresh build of the last tree, its direct
-- children aside, if it reads the same in a fresh build of any tree on the way.
theorem declares_reshaped (config : Config) (hkinds : ∀ kind, config.linksChildren kind = true)
    (hreshaping : Reshaping tree actions last)
    (hseen : ∀ seen ∈ visited tree actions, seen.Assembled ∧ seen.Apart config)
    (he : last.entity? name = some entity) (hp : path ∈ (extracted config last name entity).keys)
    (hstable : ∀ seen ∈ visited tree actions, ∀ target,
      target ∈ references config seen name entity path ↔
        target ∈ references config last name entity path)
    (haccepts : ((((ofTree tree config).after actions).graph.node? path).any
      fun node => node.kind.acceptsDependencies) = true) :
    ∀ target, target.isChildOf path = false →
      (target ∈ ((ofTree tree config).after actions).graph.declared path ↔
        target ∈ references config last name entity path) := by
  have hl : config.linksAllChildren = true := List.all_eq_true.mpr fun kind _ => hkinds kind
  have hspelled : ∀ seen ∈ visited tree actions, seen.Spelled := fun seen hm =>
    (hseen seen hm).1.spelled
  have hlast := hspelled last hreshaping.last_mem
  have hm : (name, entity) ∈ last.entities.entries := OrderedMap.get?_eq_some_iff.mp he
  rw [extracted_eq hlast] at hp
  obtain rfl : path.entity = name := hlast.allIn_readings hm path hp
  have hwanted : ∀ seen ∈ visited tree actions, seen.Resolves config entity path
      fun target => target ∈ references config last path.entity entity path := by
    intro seen hvisited target
    rw [← references_eq (hspelled seen hvisited) hlast hm hp]
    exact hstable seen hvisited target
  have htree : (ofTree tree config).tree = tree := tree_start config _ tree
  have hbegin : (ofTree tree config).Kept config entity path
      fun target => target ∈ references config last path.entity entity path :=
    .start hl _ (hspelled tree List.mem_cons_self) hp (hwanted tree List.mem_cons_self)
  obtain ⟨hend, hsame⟩ := hbegin.after (by rwa [htree]) hp fun seen hm => by
    rw [htree] at hm
    exact ⟨hspelled seen hm, (hseen seen hm).2, hwanted seen hm⟩
  obtain ⟨hc, id, kind, hd⟩ := hend.settled (by rw [hsame, he])
  intro target hchild
  rw [hd.mem_declared hc hchild, and_iff_right (hc.accepts_of_any hd.label haccepts)]

section Api

-- A label that reads what an action holds, beside the action or without it.
def label (text : String) : Entity :=
  (Entity.ofKind .widget (.obj [("text", .str text)])).withBindings ["text"]

def api : Entity := Entity.ofKind .action (.obj [("data", .arr [])])

def labelled (text : String) : Tree := (∅ : Tree).insert "Label" (label text)

def supplied (text : String) : Tree := (labelled text).insert "Api" api

theorem assembled_labelled (text : String) : (labelled text).Assembled := by
  refine .insert .empty (by decide) (by simp [Path.startsAccessor]) fun relative hr => ?_
  obtain rfl : relative = "text" := List.mem_singleton.mp hr
  exact ⟨⟨"Label", [.key "text"]⟩, by decide +kernel⟩

theorem assembled_supplied (text : String) : (supplied text).Assembled :=
  .insert (assembled_labelled text) (by decide) (by simp [Path.startsAccessor])
    fun _ hr => absurd hr List.not_mem_nil

theorem entity?_supplied {name : String} (text : String) (h : "Api" ≠ name) :
    (supplied text).entity? name = (labelled text).entity? name := by
  rw [supplied, Tree.entity?, Tree.insert, OrderedMap.get?_insert, if_neg h.symm]
  rfl

theorem target_api (event : Event) (value : Option Value) :
    (Diff.mk event "Api" value).target = .ofEntity "Api" := by
  show Path.parseLenient "Api" = _
  decide +kernel

theorem reshapes_supplied (text : String) :
    Reshapes (labelled text) (supplied text) [.new "Api" api.value] where
  whole diff hd := by
    rw [List.mem_singleton.mp hd, Diff.new, target_api]
    exact ⟨rfl, by decide⟩
  once := List.nodup_singleton _
  new diff hd _ := by
    rw [List.mem_singleton.mp hd, Diff.new, target_api]
    rfl
  delete diff hd hevent := by
    rw [List.mem_singleton.mp hd] at hevent
    cases hevent
  kept name hnone := by
    have hne := hnone _ (List.mem_singleton_self _)
    rw [Diff.new, target_api] at hne
    exact entity?_supplied text hne

theorem reshapes_labelled (text : String) :
    Reshapes (supplied text) (labelled text) [.delete "Api"] where
  whole diff hd := by
    rw [List.mem_singleton.mp hd, Diff.delete, target_api]
    exact ⟨rfl, by decide⟩
  once := List.nodup_singleton _
  new diff hd hevent := by
    rw [List.mem_singleton.mp hd] at hevent
    cases hevent
  delete diff hd _ := by
    rw [List.mem_singleton.mp hd, Diff.delete, target_api]
    rfl
  kept name hnone := by
    have hne := hnone _ (List.mem_singleton_self _)
    rw [Diff.delete, target_api] at hne
    exact (entity?_supplied text hne).symm

theorem apart_supplied :
    (supplied "{{ Api.data }}").Apart .standard ∧ (labelled "{{ Api.data }}").Apart .standard :=
  ⟨.of_isNone (by decide +kernel), .of_isNone (by decide +kernel)⟩

-- An action that goes and comes back is read as before.
theorem declares_returning_api :
    let text := "{{ Api.data }}"
    let session := (ofTree (supplied text) .standard).after
      [.apply (labelled text) [.delete "Api"], .apply (supplied text) [.new "Api" api.value]]
    let reader := Path.parseLenient "Label.text"
    let data := Path.parseLenient "Api.data"
    data ∈ session.graph.dependencies reader ∧ (data ∈ session.graph.declared reader ↔
      data ∈ references .standard (supplied text) "Label" (label text).normalize reader) := by
  intro text session reader data
  have hvisited : ∀ {wanted : Tree → Prop}, wanted (supplied text) → wanted (labelled text) →
      ∀ seen ∈ visited (supplied text)
        [.apply (labelled text) [.delete "Api"], .apply (supplied text) [.new "Api" api.value]],
        wanted seen := fun hs hl =>
    List.forall_mem_cons.mpr ⟨hs, List.forall_mem_cons.mpr ⟨hl, List.forall_mem_singleton.mpr hs⟩⟩
  have hstable : references .standard (labelled text) "Label" (label text).normalize reader =
      references .standard (supplied text) "Label" (label text).normalize reader := by
    decide +kernel
  exact ⟨by decide +kernel, declares_reshaped .standard (fun kind => by cases kind <;> decide)
    (.reshape (reshapes_labelled text) (.reshape (reshapes_supplied text) (.done _)))
    (hvisited ⟨assembled_supplied text, apart_supplied.1⟩
      ⟨assembled_labelled text, apart_supplied.2⟩) rfl (by decide +kernel)
    (hvisited (fun _ => Iff.rfl) fun target => by rw [hstable]) (by decide +kernel) data
    (by decide +kernel)⟩

-- A reference that leads further than its target is declared whole as long as
-- the target is missing, and stays so when the target comes in.
theorem undeclared_api_data :
    let text := "{{ Api.data.length }}"
    let session := (ofTree (labelled text) .standard).after
      [.apply (supplied text) [.new "Api" api.value]]
    let reader := Path.parseLenient "Label.text"
    let data := Path.parseLenient "Api.data"
    let length := Path.parseLenient "Api.data.length"
    Reshapes (labelled text) (supplied text) [.new "Api" api.value] ∧
      (supplied text).entity? "Label" = some (label text).normalize ∧
      reader ∈ (extracted .standard (supplied text) "Label" (label text).normalize).keys ∧
      (references .standard (supplied text) "Label" (label text).normalize reader).toList = [data] ∧
      session.graph.contains data = true ∧ session.graph.declared reader = [length] := by
  intro text session reader data length
  exact ⟨reshapes_supplied text, rfl, by decide +kernel⟩

end Api

end Session

end Recalc
