import Recalc.Proofs.Graph.Licensed
import Recalc.Proofs.Session.Containment
import Recalc.Proofs.Session.Replay

namespace Recalc

open Binding (Dependencies)

-- The entity of a name is of a kind whose containers are linked.
def Tree.LinksEntity (config : Config) (tree : Tree) (name : String) : Prop :=
  ∃ entity, tree.entity? name = some entity ∧ config.linksChildren entity.kind = true

-- What has been read at a path led to a target.
def DeclaredIn (history : List (Path × Dependencies)) (reader target : Path) : Prop :=
  ∃ reading ∈ history, reading.1 = reader ∧ target ∈ reading.2.references

-- A container of a linked entity may read its children, and so may one that
-- holds what a linked entity has declared.
def LinkedIn (config : Config) (trees : List Tree) (history : List (Path × Dependencies))
    (above below : Path) : Prop :=
  (∃ tree ∈ trees, tree.LinksEntity config above.entity) ∨
    ∃ reader target, (∃ tree ∈ trees, tree.LinksEntity config reader.entity) ∧
      DeclaredIn history reader target ∧ target.startsWith below = true

-- What the entity of a name may link.
structure Grants (declared linked : Path → Path → Prop) (name : String) : Prop where
  own : ∀ above below, above.entity = name → linked above below
  far : ∀ reader target above below, reader.entity = name → declared reader target →
    target.startsWith below = true → linked above below

theorem Tree.LinksEntity.grants {config : Config} {tree : Tree} {name : String}
    {trees : List Tree} {history : List (Path × Dependencies)} (h : tree.LinksEntity config name)
    (htree : tree ∈ trees) : Grants (DeclaredIn history) (LinkedIn config trees history) name where
  own _ _ ha := Or.inl ⟨tree, htree, ha ▸ h⟩
  far reader target _ _ hr hd hbelow := Or.inr ⟨reader, target, ⟨tree, htree, hr ▸ h⟩, hd, hbelow⟩

theorem Grants.within {declared linked : Path → Path → Prop} {name : String}
    (h : Grants declared linked name) {path above below : Path} (hp : path.entity = name)
    (hbelow : path.startsWith below = true) (hchild : below.isChildOf above = true) :
    linked above below :=
  h.own above below ((Path.entity_of_isChildOf hchild).trans
    ((Path.entity_of_startsWith hbelow).trans hp))

namespace Batch

variable {config : Config} {former tree : Tree} {batch : Batch} {kind : Kind} {entity : Entity}
  {name : String} {path : Path} {value : Option Value} {missing : Bool} {diff : Diff}
  {entries : List (Path × NodeKind)} {declared linked : Path → Path → Prop}

section Readings

-- What is read when an event is applied, as it is found.
def readingsOfNew (config : Config) (tree : Tree) (entity : Entity) (path : Path)
    (value : Option Value) (batch : Batch) : List (Path × Dependencies) :=
  let grown := growNew config tree entity path value batch
  if tree.isDynamicLeaf path then
    [(path, (Binding.ofPath config grown.keys.contains grown.cache entity path).1)]
  else (Binding.ofEntity config grown.keys.contains grown.cache path.entity entity).1.entries

-- What is known when an edited path is read.
def beforeEdit (former tree : Tree) (entity : Entity) (path : Path) (value : Option Value)
    (batch : Batch) : Batch :=
  let batch := { batch with
    cache := evictEdited former entity path (value.or (tree.get? path)) batch.cache }
  if (tree.get? path).isSome then batch.addKeys [path] else batch

def readingsOfEdit (config : Config) (former tree : Tree) (entity : Entity) (path : Path)
    (value : Option Value) (batch : Batch) : List (Path × Dependencies) :=
  if (textOf? (value.or (tree.get? path))).isSome then
    let before := beforeEdit former tree entity path value batch
    [(path, (Binding.ofPath config before.keys.contains before.cache entity path).1)]
  else []

def readingsOf (config : Config) (former tree : Tree) (batch : Batch) (diff : Diff) :
    List (Path × Dependencies) :=
  match tree.entity? diff.target.entity with
  | none => []
  | some entity =>
    if entity.reactive then
      match diff.event with
      | .new => readingsOfNew config tree entity diff.target diff.value batch
      | .delete => []
      | .edit => readingsOfEdit config former tree entity diff.target diff.value batch
    else []

-- What is read in the course of a batch.
def readingsOfAll (config : Config) (former tree : Tree) : List Diff → Batch →
    List (Path × Dependencies)
  | [], _ => []
  | diff :: rest, batch => readingsOf config former tree batch diff ++
      readingsOfAll config former tree rest (applyDiff config former tree batch diff)

end Readings

theorem allIn_newPaths (tree : Tree) (graph : Graph) (path : Path) (value : Option Value) :
    Path.AllIn path.entity (newPaths tree graph path value) := by
  refine List.forall_mem_append.mpr ⟨fun other ho => ?_, ?_⟩
  · have hm : other ∈ path.ancestors := (List.mem_filter.mp (List.mem_reverse.mp ho)).1
    exact Path.entity_of_startsWith (Path.mem_cons_ancestors.mp (List.mem_cons_of_mem path hm))
  · split
    · split
      · exact Path.allIn_allBelow path _
      · exact List.forall_mem_singleton.mpr rfl
    · exact tree.allIn_pathsUnder path

section Steps

theorem licensed_linkIf {graph : Graph} {paths : List Path} (h : graph.Licensed declared linked)
    (hc : graph.Consistent)
    (hlinked : config.linksChildren kind = true → ∀ path ∈ paths, ∀ above below,
      path.startsWith below = true → below.isChildOf above = true → linked above below) :
    (linkIf config kind graph paths).Licensed declared linked := by
  unfold linkIf
  split
  · next hk => exact h.linkAbove hc (hlinked hk)
  · exact h

variable (h : batch.graph.Licensed declared linked) (hc : batch.graph.Consistent)

include h hc

section Kind

variable (hgrants : config.linksChildren kind = true → Grants declared linked name)

include hgrants

theorem licensed_grow (hown : ∀ entry ∈ entries, entry.1.entity = name) :
    (grow config kind entries batch).graph.Licensed declared linked := by
  have hgrown := h.addEntries hc true entries
  unfold grow recordAdded
  split
  · exact hgrown
  · refine licensed_linkIf hgrown (hc.addEntries true entries) fun hk path hp above below => ?_
    obtain ⟨entry, he, rfl⟩ := List.mem_map.mp (Graph.mem_entries_of_mem_addEntries hp)
    exact (hgrants hk).within (hown entry he)

-- A reader links above itself, if it is new, and above what it declares.
theorem licensed_applyReading {reading : Path × Dependencies} (hown : reading.1.entity = name)
    (hdeclared : ∀ target ∈ reading.2.references, declared reading.1 target) :
    (applyReading config kind batch reading).graph.Licensed declared linked := by
  have htargets : ∀ target ∈ reading.2.references.toList, declared reading.1 target := hdeclared
  have hread := h.addDependency hc htargets
  unfold applyReading
  dsimp only
  split
  · exact hread
  · refine licensed_linkIf hread (hc.addDependency _ _) fun hk path hp above below hbelow hchild => ?_
    rcases h.declared_of_mem_addDependency hc htargets hp with rfl | hd
    · exact (hgrants hk).within hown hbelow hchild
    · exact (hgrants hk).far reading.1 path above below hown hd hbelow

theorem licensed_foldl_applyReading {readings : List (Path × Dependencies)}
    (hown : ∀ reading ∈ readings, reading.1.entity = name)
    (hdeclared : ∀ reading ∈ readings, ∀ target ∈ reading.2.references,
      declared reading.1 target) :
    (readings.foldl (applyReading config kind) batch).graph.Licensed declared linked := by
  induction readings generalizing batch with
  | nil => exact h
  | cons reading rest ih =>
      obtain ⟨hfirst, hrest⟩ := List.forall_mem_cons.mp hown
      obtain ⟨hd, hdrest⟩ := List.forall_mem_cons.mp hdeclared
      exact ih (licensed_applyReading h hc hgrants hfirst hd)
        (consistent_applyReading hc config kind reading.1 reading.2) hrest hdrest

end Kind

theorem licensed_growNew
    (hgrants : config.linksChildren entity.kind = true → Grants declared linked path.entity) :
    (growNew config tree entity path value batch).graph.Licensed declared linked := by
  have hpaths : ∀ entry ∈ (newPaths tree batch.graph path value).map
      (fun path => (path, NodeKind.ofPath path)), entry.1.entity = path.entity := by
    intro entry he
    obtain ⟨other, ho, rfl⟩ := List.mem_map.mp he
    exact allIn_newPaths tree batch.graph path value other ho
  have hgrown : (grow config entity.kind
      ((newPaths tree batch.graph path value).map fun path => (path, NodeKind.ofPath path))
      (batch.addKeys (newPaths tree batch.graph path value))).graph.Licensed declared linked :=
    licensed_grow (by exact h) (by exact hc) hgrants hpaths
  unfold growNew growSetters
  dsimp only
  split
  · refine licensed_grow (by exact hgrown) (by exact consistent_grow (by exact hc) config _ _)
      hgrants fun entry he => ?_
    obtain ⟨setter, hsetter, rfl⟩ := List.mem_map.mp he
    exact EntityConfig.allIn_setterPaths _ _ setter hsetter
  · exact hgrown

theorem licensed_onNew (hs : batch.cache.Sound) (hplain : path.Plain)
    (hgrants : config.linksChildren entity.kind = true → Grants declared linked path.entity)
    (hread : ∀ reading ∈ readingsOfNew config tree entity path value batch,
      ∀ target ∈ reading.2.references, declared reading.1 target) :
    (onNew config tree entity path value batch).graph.Licensed declared linked := by
  have hgrown : (growNew config tree entity path value batch).graph.Licensed declared linked :=
    licensed_growNew h hc hgrants
  have hconsistent : (growNew config tree entity path value batch).graph.Consistent :=
    consistent_growNew hc
  have hsound := (Proceeds.growNew config tree tree entity path value batch).cache hs
  rw [onNew_eq, touch]
  unfold readingsOfNew at hread
  dsimp only at hread ⊢
  split
  · next hleaf =>
    rw [if_pos hleaf] at hread
    exact licensed_applyReading (by exact hgrown) (by exact hconsistent) hgrants rfl
      (hread _ List.mem_cons_self)
  · next hleaf =>
    rw [if_neg hleaf] at hread
    have hfound := (Binding.ofEntity_eq config
      (growNew config tree entity path value batch).keys.contains path.entity entity hsound).1
    have hown : ∀ reading ∈ (Binding.ofEntity config
        (growNew config tree entity path value batch).keys.contains
        (growNew config tree entity path value batch).cache path.entity entity).1.entries,
        reading.1.entity = path.entity := fun reading hr => by
      rw [hfound] at hr
      exact Binding.entity_of_mem_readings hplain (List.mem_map_of_mem hr)
    exact licensed_foldl_applyReading (by exact hgrown) (by exact hconsistent) hgrants hown hread

theorem licensed_onDelete :
    (onDelete config former entity path batch).graph.Licensed declared linked := by
  rw [onDelete_eq, graph_foldl_forget]
  exact (h.removeNodes hc _).removeNodes (hc.removeNodes _) _

theorem licensed_onEdit
    (hgrants : config.linksChildren entity.kind = true → Grants declared linked path.entity)
    (hread : ∀ reading ∈ readingsOfEdit config former tree entity path value batch,
      ∀ target ∈ reading.2.references, declared reading.1 target) :
    (onEdit config former tree entity path value batch).graph.Licensed declared linked := by
  unfold readingsOfEdit at hread
  unfold onEdit
  dsimp only at hread ⊢
  split
  · next htext =>
    rw [if_pos htext] at hread
    have hbefore : (beforeEdit former tree entity path value batch).graph = batch.graph := by
      unfold beforeEdit
      dsimp only
      split <;> rfl
    have hlicensed := hbefore ▸ h
    have hconsistent := hbefore ▸ hc
    exact licensed_applyReading (by exact hlicensed) (by exact hconsistent) hgrants rfl
      (hread _ List.mem_cons_self)
  · exact h

theorem licensed_applyDiff (hs : batch.cache.Sound)
    (hgrants : ∀ name, tree.LinksEntity config name → Grants declared linked name)
    (hread : ∀ reading ∈ readingsOf config former tree batch diff,
      ∀ target ∈ reading.2.references, declared reading.1 target) :
    (applyDiff config former tree batch diff).graph.Licensed declared linked := by
  have hplain : diff.target.Plain := Path.plain_parseLenient diff.path
  unfold readingsOf at hread
  unfold applyDiff
  dsimp only
  split
  · exact h
  · next entity he =>
    split
    · next hr =>
      cases hevent : diff.event <;> rw [hevent] at he hread <;> dsimp only at he hread ⊢
      · rw [he] at hread
        dsimp only at hread
        rw [if_pos hr] at hread
        exact licensed_onNew h hc hs hplain (fun hk => hgrants _ ⟨entity, he, hk⟩) hread
      · exact licensed_onDelete h hc
      · rw [he] at hread
        dsimp only at hread
        rw [if_pos hr] at hread
        exact licensed_onEdit h hc (fun hk => hgrants _ ⟨entity, he, hk⟩) hread
    · rw [graph_onOutside]
      exact h

-- By induction on the events, each of which reads what it finds.
theorem licensed_foldl_applyDiff {diffs : List Diff} (hs : batch.cache.Sound)
    (hgrants : ∀ name, tree.LinksEntity config name → Grants declared linked name)
    (hread : ∀ reading ∈ readingsOfAll config former tree diffs batch,
      ∀ target ∈ reading.2.references, declared reading.1 target) :
    (diffs.foldl (applyDiff config former tree) batch).graph.Licensed declared linked := by
  induction diffs generalizing batch with
  | nil => exact h
  | cons diff rest ih =>
      obtain ⟨hfirst, hrest⟩ := List.forall_mem_append.mp hread
      have hstep := Proceeds.applyDiff config former tree hs diff
      exact ih (licensed_applyDiff h hc hs hgrants hfirst) (consistent_moves hc hstep.moves)
        (hstep.cache hs) hrest

end Steps

end Batch

namespace Built

variable {config : Config} {cache : Binding.Cache} {tree : Tree}
  {declared linked : Path → Path → Prop}

-- What a build reads, against all its keys.
def readings (config : Config) (tree : Tree) : List (Path × Dependencies) :=
  tree.entities.entries.flatMap fun entry =>
    (Binding.readings config (nodes config tree).2.contains entry.1 entry.2).entries

theorem licensed_nodes (config : Config) (tree : Tree) :
    (nodes config tree).1.Consistent ∧ (nodes config tree).1.Licensed declared linked := by
  have hadd : ∀ (graph : Graph) (entries : List (Path × NodeKind)),
      graph.Consistent ∧ graph.Licensed declared linked →
        (graph.addEntries entries true).1.Consistent ∧
          (graph.addEntries entries true).1.Licensed declared linked :=
    fun graph entries h => ⟨h.1.addEntries true entries, h.2.addEntries h.1 true entries⟩
  refine hadd _ _ (List.foldlRecOn tree.entities.entries (addEntity tree)
    (motive := fun state : Graph × Keys =>
      state.1.Consistent ∧ state.1.Licensed declared linked) ⟨.empty, .empty⟩
    fun state hs entry _ => ?_)
  unfold addEntity
  dsimp only
  split
  · exact hadd _ _ (hadd _ _ hs)
  · exact hs

theorem licensed_bound (config : Config) (hs : cache.Sound) (tree : Tree)
    (hread : ∀ reading ∈ readings config tree, ∀ target ∈ reading.2.references,
      declared reading.1 target) :
    (bound config cache tree).graph.Consistent ∧
      (bound config cache tree).graph.Licensed declared linked := by
  obtain ⟨cache', he⟩ := foldl_addBindings config tree.entities.entries
    ⟨(nodes config tree).1, (nodes config tree).2, ∅, cache⟩ hs
  rw [bound, he]
  refine List.foldlRecOn (readings config tree) addReading (motive := fun built : Built =>
    built.graph.Consistent ∧ built.graph.Licensed declared linked)
    (b := ⟨(nodes config tree).1, (nodes config tree).2, ∅, cache⟩) (licensed_nodes config tree)
    fun built hbuilt reading hr => ?_
  exact ⟨hbuilt.1.addDependency _ _, hbuilt.2.addDependency hbuilt.1 (hread reading hr)⟩

-- A build that does not link all containers links those of the entities that
-- are to be linked.
theorem licensed_ofTree (hall : config.linksAllChildren = false) (hs : cache.Sound)
    (hgrants : ∀ name, tree.LinksEntity config name → Grants declared linked name)
    (hread : ∀ reading ∈ readings config tree, ∀ target ∈ reading.2.references,
      declared reading.1 target) :
    (ofTree config cache tree).graph.Licensed declared linked := by
  rw [ofTree_eq]
  dsimp only
  rw [linkContainers, if_neg (by rw [hall]; exact Bool.false_ne_true)]
  refine (List.foldlRecOn tree.entities.entries (linkEntity config tree)
    (motive := fun graph : Graph => graph.Consistent ∧ graph.Licensed declared linked)
    (licensed_bound config hs tree hread) fun graph hg entry he => ?_).2
  unfold linkEntity
  dsimp only
  split
  · next hcond =>
    have hlinks : tree.LinksEntity config entry.1 := ⟨entry.2,
      OrderedMap.get?_eq_some_iff.mpr he, (Bool.and_eq_true_iff.mp hcond).2⟩
    refine ⟨(hg.1.linksChildren_linkAbove _).consistent hg.1, hg.2.linkAbove hg.1
      fun path hp above below => (hgrants _ hlinks).within ?_⟩
    exact List.forall_mem_append.mpr ⟨tree.allIn_entityPaths entry.1,
      EntityConfig.allIn_setterPaths _ _⟩ path hp
  · exact hg

end Built

namespace Session

variable {config : Config} {cache : Binding.Cache} {first tree : Tree} {session : Session}
  {actions : List Action} {declared linked : Path → Path → Prop}

-- What is read in an action, and in the course of a run from a fresh build.
def readingsOf (session : Session) : Action → List (Path × Dependencies)
  | .apply tree diffs =>
    Batch.readingsOfAll session.config session.tree tree diffs
      { Batch.start session.graph session.keys session.errors session.cache with
        keys := diffs.foldl (Batch.registerKeys tree) session.keys }
  | .reset tree => Built.readings session.config tree
  | .recordEvaluation _ _ => []

def readingsAfter (session : Session) : List Action → List (Path × Dependencies)
  | [] => []
  | action :: rest => session.readingsOf action ++ (session.perform action).readingsAfter rest

def history (config : Config) (cache : Binding.Cache) (first : Tree) (actions : List Action) :
    List (Path × Dependencies) :=
  Built.readings config first ++ (start config cache first).readingsAfter actions

theorem licensed_reset (hall : session.config.linksAllChildren = false)
    (hgrants : ∀ name, tree.LinksEntity session.config name → Grants declared linked name)
    (hread : ∀ reading ∈ Built.readings session.config tree, ∀ target ∈ reading.2.references,
      declared reading.1 target) :
    (session.reset tree).graph.Licensed declared linked := by
  unfold reset
  rw [graph_sort]
  exact Built.licensed_ofTree hall (Binding.Cache.sound_clear session.cache) hgrants hread

theorem licensed_perform {action : Action} (hc : session.Coherent)
    (h : session.graph.Licensed declared linked) (hall : session.config.linksAllChildren = false)
    (hgrants : ∀ tree, action.tree? = some tree → ∀ name,
      tree.LinksEntity session.config name → Grants declared linked name)
    (hread : ∀ reading ∈ session.readingsOf action, ∀ target ∈ reading.2.references,
      declared reading.1 target) :
    (session.perform action).graph.Licensed declared linked := by
  cases action with
  | apply tree diffs =>
      show (session.apply tree diffs).1.graph.Licensed declared linked
      rw [graph_apply]
      exact Batch.licensed_foldl_applyDiff (by exact h) (by exact hc.consistent)
        (by exact hc.cache) (hgrants tree rfl) hread
  | reset tree => exact licensed_reset hall (hgrants tree rfl) hread
  | recordEvaluation path messages => exact h

-- By induction on the actions.
theorem licensed_after (hc : session.Coherent) (h : session.graph.Licensed declared linked)
    (hall : session.config.linksAllChildren = false)
    (hgrants : ∀ tree ∈ actions.filterMap Action.tree?, ∀ name,
      tree.LinksEntity session.config name → Grants declared linked name)
    (hread : ∀ reading ∈ session.readingsAfter actions, ∀ target ∈ reading.2.references,
      declared reading.1 target) :
    (session.after actions).graph.Licensed declared linked := by
  induction actions generalizing session with
  | nil => exact h
  | cons action rest ih =>
      obtain ⟨hfirst, hrest⟩ := List.forall_mem_append.mp hread
      have hconfig := config_perform session action
      refine ih (hc.perform action) (licensed_perform hc h hall (fun tree ht => hgrants tree ?_)
        hfirst) (hconfig ▸ hall) (fun tree ht => ?_) hrest
      · exact List.mem_filterMap.mpr ⟨action, List.mem_cons_self, ht⟩
      · rw [hconfig]
        refine hgrants tree (List.mem_filterMap.mpr ?_)
        obtain ⟨other, ho, hsome⟩ := List.mem_filterMap.mp ht
        exact ⟨other, List.mem_cons_of_mem action ho, hsome⟩

-- After any history, a container that is never of a linked kind reads only what
-- it has declared, and those of its children that an entity of a linked kind has
-- declared or that hold what such an entity has declared.
theorem declared_or_linked (config : Config) (cache : Binding.Cache) (first : Tree)
    (actions : List Action) {tree : Tree} (htree : tree ∈ visited first actions)
    {container target : Path} {entity : Entity}
    (hentity : tree.entity? container.entity = some entity)
    (hkind : ∀ seen ∈ visited first actions, ¬seen.LinksEntity config container.entity)
    (hreads : target ∈ ((start config cache first).after actions).graph.dependencies container) :
    DeclaredIn (history config cache first actions) container target ∨
      target.isChildOf container = true ∧ ∃ reader inner,
        (∃ seen ∈ visited first actions, seen.LinksEntity config reader.entity) ∧
        DeclaredIn (history config cache first actions) reader inner ∧
        inner.startsWith target = true := by
  have hunlinked : config.linksAllChildren = false := by
    refine Bool.eq_false_iff.mpr fun hall => hkind tree htree ⟨entity, hentity, ?_⟩
    exact List.all_eq_true.mp hall entity.kind entity.kind.mem_all
  have hread : ∀ reading ∈ history config cache first actions, ∀ target ∈ reading.2.references,
      DeclaredIn (history config cache first actions) reading.1 target :=
    fun reading hr target ht => ⟨reading, hr, rfl, ht⟩
  obtain ⟨hbuild, hrun⟩ := List.forall_mem_append.mp hread
  have hgrants : ∀ seen ∈ visited first actions, ∀ name, seen.LinksEntity config name →
      Grants (DeclaredIn (history config cache first actions))
        (LinkedIn config (visited first actions) (history config cache first actions)) name :=
    fun seen hseen name hlinks => hlinks.grants hseen
  obtain ⟨hfirst, hlater⟩ := List.forall_mem_cons.mp hgrants
  have hconfig : (start config cache first).config = config := config_start config cache first
  have hstart : (start config cache first).graph.Licensed
      (DeclaredIn (history config cache first actions))
      (LinkedIn config (visited first actions) (history config cache first actions)) :=
    licensed_reset (by exact hunlinked) hfirst hbuild
  have hend := licensed_after (coherent_start config cache first) hstart
    (by rw [hconfig]; exact hunlinked) (by rw [hconfig]; exact hlater) hrun
  have hconsistent := ((coherent_start config cache first).after actions).consistent
  obtain ⟨i, j, hi, hedge, hj⟩ := hconsistent.mem_dependencies.mp hreads
  refine (hend.reads i j container target hi hj hedge).imp_right fun ⟨hchild, hlinked⟩ => ?_
  exact ⟨hchild, hlinked.resolve_left fun ⟨seen, hseen, hlinks⟩ => hkind seen hseen hlinks⟩

section Caller

-- An action that runs a text, beside a label.
def caller (text : String) : Entity :=
  (Entity.ofKind .action (.obj [("body", .str text)])).withBindings ["body"]

def called (text : String) : Tree := (labelled "hi").insert "Caller" (caller text)

-- Only the containers of actions are linked.
def ofActions : Config := { Config.standard with parentEdges := .ofList [.action] }

theorem replays_called (before after : String) :
    Replays (called after) (called before) [.edit "Caller.body" (.str after)] := by
  have htarget : (Diff.edit "Caller.body" (.str after)).target = ⟨"Caller", [.key "body"]⟩ := by
    show Path.parseLenient "Caller.body" = _
    decide +kernel
  refine .edit before after rfl ?_ ?_ rfl (.done fun name => ?_)
  all_goals rw [htarget]
  · exact List.mem_cons_of_mem _ List.mem_cons_self
  · rfl
  · rfl

-- The label is linked to its text, which it has not declared, as soon as the
-- action reads the text.
theorem linked_label_text :
    let read := "{{ Label.text }}"
    let actions := [Action.apply (called read) [.edit "Caller.body" (.str read)]]
    let container := Path.parseLenient "Label"
    let child := Path.parseLenient "Label.text"
    let cache := Binding.Cache.ofCapacity ofActions.cacheCapacity
    Replays (called read) (called "") [.edit "Caller.body" (.str read)] ∧
      (called read).entity? "Label" = some (label "hi").normalize ∧
      ofActions.linksChildren (label "hi").normalize.kind = false ∧
      child.isChildOf container = true ∧
      child ∉ (start ofActions cache (called read)).graph.dependencies container ∧
      child ∈ ((start ofActions cache (called "")).after actions).graph.dependencies container ∧
      ¬DeclaredIn (history ofActions cache (called "") actions) container child := by
  intro read actions container child cache
  refine ⟨replays_called "" read, rfl, by decide +kernel, by decide +kernel, by decide +kernel,
    by decide +kernel, ?_⟩
  unfold DeclaredIn
  decide +kernel

-- The action is what links it.
theorem declared_or_linked_label :
    let read := "{{ Label.text }}"
    let actions := [Action.apply (called read) [.edit "Caller.body" (.str read)]]
    let container : Path := ⟨"Label", []⟩
    let child : Path := ⟨"Label", [.key "text"]⟩
    let cache := Binding.Cache.ofCapacity ofActions.cacheCapacity
    let declared := DeclaredIn (history ofActions cache (called "") actions)
    child ∈ ((start ofActions cache (called "")).after actions).graph.dependencies container ∧
      (declared container child ∨ child.isChildOf container = true ∧ ∃ reader inner,
        (∃ seen ∈ visited (called "") actions, seen.LinksEntity ofActions reader.entity) ∧
        declared reader inner ∧ inner.startsWith child = true) := by
  intro read actions container child cache declared
  have hreads : child ∈
      ((start ofActions cache (called "")).after actions).graph.dependencies container := by
    decide +kernel
  have hkind : ∀ text, ¬(called text).LinksEntity ofActions "Label" := by
    rintro text ⟨entity, he, hlinks⟩
    cases he
    exact absurd hlinks (by decide +kernel)
  exact ⟨hreads, declared_or_linked ofActions cache (called "") actions
    (show called "" ∈ visited (called "") actions from List.mem_cons_self) rfl
    (List.forall_mem_cons.mpr ⟨hkind "", List.forall_mem_singleton.mpr (hkind read)⟩) hreads⟩

end Caller

end Session

end Recalc
