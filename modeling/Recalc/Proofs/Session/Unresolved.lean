import Recalc.Proofs.Session.Removal

namespace Recalc

-- An entity of the name, if there is one, is part of the graph.
def Tree.Admits (tree : Tree) (name : String) : Prop :=
  ∀ entity, tree.entity? name = some entity → entity.reactive = true

theorem Tree.SameFrame.takesPart {first second : Tree} {name : String}
    (h : SameFrame first second name) : second.TakesPart name ↔ first.TakesPart name := by
  have hkept : ∀ {before after : Tree}, (after.entity? name).map Entity.config =
      (before.entity? name).map Entity.config → before.TakesPart name → after.TakesPart name := by
    rintro before after hconfig ⟨entity, he, hr⟩
    rw [he] at hconfig
    obtain ⟨found, hfound, hsame⟩ := Option.map_eq_some_iff.mp hconfig
    exact ⟨found, hfound, (Entity.reactive_congr hsame).trans hr⟩
  exact ⟨hkept h.config.symm, hkept h.config⟩

theorem Tree.Admits.owns {tree : Tree} {path : Path} (h : tree.Admits path.entity)
    (hp : path ∈ tree.keyPaths path.entity) : tree.Owns path := by
  obtain ⟨entity, he⟩ := exists_of_mem_keyPaths hp
  exact ⟨⟨entity, he, h entity he⟩, hp⟩

-- A tree that answers for a path: where it is read it is brought, and where it
-- is a function of the platform no entity outside the graph has its name.
structure Tree.Answers (config : Config) (tree : Tree) (path : Path) : Prop where
  brought : ¬tree.Strays config path
  function : path ∈ config.functionPaths → tree.Admits path.entity

-- Diffs that can be replayed and that treat a path alike. Its entity comes in
-- only as part of the graph, and it is edited only if it is there to stay.
structure Tracks (path : Path) (former tree : Tree) (diffs : List Diff) : Prop where
  replays : Replays tree former diffs
  joins : Brings diffs path.entity → former.Admits path.entity ∧ tree.Admits path.entity
  stays : ∀ diff ∈ diffs, diff.event = .edit → diff.target = path →
    tree.entity? path.entity ≠ none → path ∈ tree.keyPaths path.entity

namespace Batch

open ErrorStore (Names)

variable {config : Config} {former tree : Tree} {first second third batch : Batch} {kind : Kind}
  {entity : Entity} {name : String} {path target : Path} {value : Option Value} {missing : Bool}
  {entries : List (Path × NodeKind)} {diff : Diff} {now : Tree}

-- Errors that name a path go when the path becomes a node, and none are added.
structure Resolves (path : Path) (first second : Batch) : Prop where
  consistent : second.graph.Consistent
  names : second.errors.Names path.render → first.errors.Names path.render
  nodes : second.errors.Names path.render → second.graph.contains path = true →
    first.graph.contains path = true

theorem Resolves.refl (h : batch.graph.Consistent) : Resolves path batch batch :=
  ⟨h, id, fun _ => id⟩

theorem Resolves.trans (h : Resolves path first second) (k : Resolves path second third) :
    Resolves path first third :=
  ⟨k.consistent, fun hn => h.names (k.names hn),
    fun hn hc => h.nodes (k.names hn) (k.nodes hn hc)⟩

section Raised

variable (hpath : path.Plain)

theorem resolves_grow (h : batch.graph.Consistent) (path : Path) :
    Resolves path batch (grow config kind entries batch) := by
  refine ⟨consistent_grow h config kind entries, fun hn => ?_, fun hn hc => ?_⟩
  · unfold grow recordAdded at hn
    split at hn
    · exact hn
    · exact (ErrorStore.names_foldl_resolveReference hn).1
  · rw [(linksChildren_grow h config kind entries).nodes.contains] at hc
    unfold grow recordAdded at hn
    split at hn
    · next hempty => rwa [Graph.addEntries_of_nil (List.isEmpty_iff.mp hempty)] at hc
    · have hout : path ∉ (batch.graph.addEntries entries true).2 := fun hm =>
        (ErrorStore.names_foldl_resolveReference hn).2 path hm rfl
      obtain ⟨id, hid⟩ := ((h.addEntries true entries).contains_iff).mp hc
      obtain ⟨label, hl⟩ := Graph.path?_eq_some_iff.mp hid
      exact h.contains_iff.mpr
        ⟨id, Graph.path?_of_label ((h.drift_addEntries entries).node id path label hl hout)⟩

theorem Resolves.addKeys (h : batch.graph.Consistent) (paths : List Path) :
    Resolves path batch (batch.addKeys paths) :=
  ⟨h, id, fun _ => id⟩

theorem resolves_growSetters (h : batch.graph.Consistent) (path : Path) :
    Resolves path batch (growSetters config entity target missing batch) := by
  unfold growSetters
  split
  · exact (Resolves.addKeys h _).trans (resolves_grow (by exact h) path)
  · exact .refl h

theorem resolves_growNew (h : batch.graph.Consistent) (path : Path) :
    Resolves path batch (growNew config tree entity target value batch) := by
  have hpaths : Resolves path batch (grow config entity.kind
      ((newPaths tree batch.graph target value).map fun path => (path, NodeKind.ofPath path))
      (batch.addKeys (newPaths tree batch.graph target value))) :=
    (Resolves.addKeys h _).trans (resolves_grow (by exact h) path)
  exact hpaths.trans (resolves_growSetters hpaths.consistent path)

include hpath

theorem names_applyReading {found : Binding.Dependencies} {known : Path → Bool}
    (hfound : Binding.NamesUnknown known found.errors)
    (h : (applyReading config kind batch (target, found)).errors.Names path.render) :
    batch.errors.Names path.render ∨ known path = false :=
  (ErrorStore.names_replaceExtraction h).imp_right fun ⟨error, he, hn⟩ =>
    hfound error he path hpath hn

theorem names_foldl_applyReading {readings : List (Path × Binding.Dependencies)}
    {known : Path → Bool} (hfound : ∀ entry ∈ readings, Binding.NamesUnknown known entry.2.errors)
    (h : (readings.foldl (applyReading config kind) batch).errors.Names path.render) :
    batch.errors.Names path.render ∨ known path = false := by
  induction readings generalizing batch with
  | nil => exact Or.inl h
  | cons reading rest ih =>
      obtain ⟨hreading, hrest⟩ := List.forall_mem_cons.mp hfound
      rcases ih hrest h with hn | hk
      · exact names_applyReading hpath hreading hn
      · exact Or.inr hk

theorem names_readEntity (hs : batch.cache.Sound)
    (h : (readEntity config name entity batch).errors.Names path.render) :
    batch.errors.Names path.render ∨ path ∉ batch.keys := by
  unfold readEntity at h
  dsimp only at h
  rw [(Binding.ofEntity_eq config batch.keys.contains name entity hs).1] at h
  refine (names_foldl_applyReading hpath Binding.namesUnknown_readings h).imp_right fun hk hm => ?_
  rw [Std.TreeSet.contains_iff_mem.mpr hm] at hk
  cases hk

theorem names_readPath (hs : batch.cache.Sound)
    (h : (readPath config entity target batch).errors.Names path.render) :
    batch.errors.Names path.render ∨ path ∉ batch.keys := by
  unfold readPath at h
  dsimp only at h
  rw [(Binding.ofPath_eq config batch.keys.contains entity target hs).1] at h
  refine (names_applyReading hpath Binding.namesUnknown_reading h).imp_right fun hk hm => ?_
  rw [Std.TreeSet.contains_iff_mem.mpr hm] at hk
  cases hk

-- What comes in is resolved before its bindings are read.
theorem names_onNew (hs : batch.cache.Sound)
    (h : (onNew config tree entity target value batch).errors.Names path.render) :
    (growNew config tree entity target value batch).errors.Names path.render ∨
      path ∉ (onNew config tree entity target value batch).keys := by
  have hsound := (Proceeds.growNew config tree tree entity target value batch).cache hs
  rw [keys_onNew]
  rw [onNew_eq, touch] at h
  dsimp only at h
  split at h
  · exact names_readPath hpath hsound h
  · exact names_readEntity hpath hsound h

theorem names_onEdit (hs : batch.cache.Sound)
    (h : (onEdit config former tree entity target value batch).errors.Names path.render) :
    batch.errors.Names path.render ∨
      path ∉ (onEdit config former tree entity target value batch).keys := by
  have hsound := sound_evictEdited former entity target (value.or (tree.get? target)) hs
  have hread : ∀ start : Batch, start.cache.Sound →
      ((readPath config entity target start).touch target).errors.Names path.render →
        start.errors.Names path.render ∨
          path ∉ ((readPath config entity target start).touch target).keys :=
    fun start hstart hn => names_readPath hpath hstart hn
  unfold onEdit at h ⊢
  dsimp only at h ⊢
  split
  · next htext =>
    rw [if_pos htext] at h
    split
    · next hthere =>
      rw [if_pos hthere] at h
      have hnamed := hread _ hsound h
      exact hnamed
    · next hmissing =>
      rw [if_neg hmissing] at h
      have hnamed := hread _ hsound h
      exact hnamed
  · next htext =>
    rw [if_neg htext] at h
    exact Or.inl h

theorem names_flagReader {keys : Keys} {graph : Graph} {gone : List Path} {errors : ErrorStore}
    {reader : Path} (hgone : ∀ other ∈ gone, other.Plain)
    (h : (flagReader keys graph gone errors reader).Names path.render) :
    errors.Names path.render ∨ path ∈ gone := by
  refine List.foldlRecOn (graph.pendingOf reader) _ (motive := fun now : ErrorStore =>
    now.Names path.render → errors.Names path.render ∨ path ∈ gone) Or.inl
    (fun now hnow other _ hn => ?_) h
  split at hn
  · next hflag =>
    rcases ErrorStore.names_flagUnresolved hn with hn | hrender
    · exact hnow hn
    · have hother : other ∈ gone := of_decide_eq_true (Bool.and_eq_true_iff.mp hflag).1
      rw [← Path.render_inj (hgone other hother) hpath hrender]
      exact Or.inr hother
  · exact hnow hn

-- A deletion names only what it takes.
theorem names_onDelete (htarget : target.Plain)
    (h : (onDelete config former entity target batch).errors.Names path.render) :
    batch.errors.Names path.render ∨
      path ∉ (onDelete config former entity target batch).keys := by
  have hgone : ∀ other ∈ gone former entity target, other.Plain := by
    refine List.forall_mem_append.mpr ⟨plain_of_mem_removedPaths htarget, fun other ho => ?_⟩
    unfold removedSetters at ho
    split at ho
    · exact Path.plain_of_entity_eq htarget (EntityConfig.allIn_setterPaths _ _ other ho)
    · exact absurd ho List.not_mem_nil
  rw [onDelete_eq, errors_foldl_forget] at h
  have hflagged : (flagged config former entity target batch).Names path.render :=
    ErrorStore.names_foldl_clearPath h
  unfold flagged at hflagged
  split at hflagged
  · have hnamed : batch.errors.Names path.render ∨ path ∈ gone former entity target :=
      List.foldlRecOn _ (flagReader _ _ _) (motive := fun now : ErrorStore =>
        now.Names path.render → batch.errors.Names path.render ∨
          path ∈ gone former entity target) Or.inl
        (fun now hnow reader _ hn => (names_flagReader hpath hgone hn).elim hnow Or.inr) hflagged
    exact hnamed.imp_right fun hm hk => (mem_keys_onDelete_iff.mp hk).2 hm
  · exact Or.inl hflagged

-- An error that comes up names what is not known.
theorem names_applyDiff (hc : batch.graph.Consistent) (hs : batch.cache.Sound)
    (h : (applyDiff config former tree batch diff).errors.Names path.render) :
    batch.errors.Names path.render ∨ path ∉ (applyDiff config former tree batch diff).keys := by
  unfold applyDiff at h ⊢
  dsimp only at h ⊢
  split
  · next hnone =>
    rw [hnone] at h
    exact Or.inl h
  · next entity he =>
    rw [he] at h
    dsimp only at h
    split
    · next hr =>
      rw [if_pos hr] at h
      cases hevent : diff.event <;> rw [hevent] at h <;> dsimp only at h ⊢
      · exact (names_onNew hpath hs h).imp_left (resolves_growNew hc path).names
      · exact names_onDelete hpath (Path.plain_parseLenient diff.path) h
      · exact names_onEdit hpath hs h
    · next hr =>
      rw [if_neg hr] at h
      refine Or.inl ?_
      cases hevent : diff.event <;> rw [hevent] at h <;> exact h

end Raised

section Whole

variable (hwhole : diff.target.isEntity = true) (hc : batch.graph.Consistent)

include hwhole hc

-- An entity that comes in as part of the graph brings its nodes.
theorem contains_applyDiff_comes (hs : batch.cache.Sound) (hheld : ¬tree.Strays config path)
    (hevent : diff.event = .new) :
    (applyDiff config former tree batch diff).graph.contains path = true ↔
      batch.graph.contains path = true ∨
        tree.TakesPart diff.target.entity ∧ path ∈ tree.keyPaths diff.target.entity := by
  have hplain : diff.target.Plain := Path.plain_parseLenient diff.path
  unfold applyDiff Tree.TakesPart
  rw [hevent]
  dsimp only
  cases he : tree.entity? diff.target.entity with
  | none => simp
  | some entity =>
      dsimp only
      split
      · next hr =>
        have hread : path ∈ (Binding.readings config (fun _ => false) diff.target.entity
            entity).keys → path ∈ tree.keyPaths diff.target.entity := fun hp => by
          have hname : path.entity = diff.target.entity := Binding.entity_of_mem_readings hplain hp
          exact hname ▸ ((Tree.owns_or_strays config _ he hp).resolve_right hheld).2
        rw [Path.eq_ofEntity hwhole, contains_onNew hc hs fun _ => false,
          contains_growNew_ofEntity hc he, Tree.isDynamicLeaf_ofEntity, if_neg Bool.false_ne_true]
        have hpart : ∃ found, some entity = some found ∧ found.reactive = true :=
          ⟨entity, rfl, hr⟩
        rw [and_iff_right hpart, or_assoc]
        exact or_congr Iff.rfl (or_iff_left_of_imp hread)
      · next hr => simp [onOutside, hr]

-- What is known and still named after an entity has come in was a node before,
-- if it is one.
theorem names_applyDiff_comes (hs : batch.cache.Sound) (hheld : ¬tree.Strays config path)
    (hpath : path.Plain) (hevent : diff.event = .new)
    (h : (applyDiff config former tree batch diff).errors.Names path.render)
    (hk : path ∈ (applyDiff config former tree batch diff).keys)
    (hn : (applyDiff config former tree batch diff).graph.contains path = true) :
    batch.graph.contains path = true := by
  rcases (contains_applyDiff_comes hwhole hc hs hheld hevent).mp hn with hold | ⟨hpart, hp⟩
  · exact hold
  · obtain ⟨entity, he, hr⟩ := hpart
    rw [applyDiff_new hevent (Path.eq_ofEntity hwhole) he hr] at h hk
    have hgrown := (names_onNew hpath hs h).resolve_right (not_not_intro hk)
    exact (resolves_growNew hc path).nodes hgrown
      ((contains_growNew_ofEntity hc he).mpr (Or.inr hp))

end Whole

-- An edit adds its path at most, and leaves what is there.
theorem contains_applyDiff_edit (hc : batch.graph.Consistent) (hevent : diff.event = .edit) :
    (batch.graph.contains path = true →
      (applyDiff config former tree batch diff).graph.contains path = true) ∧
    ((applyDiff config former tree batch diff).graph.contains path = true →
      batch.graph.contains path = true ∨
        path = diff.target ∧ tree.TakesPart diff.target.entity) := by
  unfold applyDiff
  rw [hevent]
  dsimp only
  split
  · exact ⟨id, Or.inl⟩
  · next entity he =>
    split
    · next hr =>
      rw [contains_onEdit hc]
      exact ⟨Or.inl, Or.imp_right fun h => ⟨h.2, entity, he, hr⟩⟩
    · exact ⟨id, Or.inl⟩

theorem mem_keys_applyDiff_edit (hevent : diff.event = .edit) :
    (path ∈ batch.keys → path ∈ (applyDiff config former tree batch diff).keys) ∧
    (path ∈ (applyDiff config former tree batch diff).keys →
      path ∈ batch.keys ∨ path = diff.target ∧ tree.TakesPart diff.target.entity) := by
  unfold applyDiff
  rw [hevent]
  dsimp only
  split
  · exact ⟨id, Or.inl⟩
  · next entity he =>
    split
    · next hr =>
      rw [mem_keys_onEdit_iff]
      exact ⟨Or.inl, Or.imp_right fun h => ⟨h.2.2, entity, he, hr⟩⟩
    · exact ⟨id, Or.inl⟩

-- A batch on its way from one tree to another. What is known and named is
-- still to come in as a node.
structure Answered (config : Config) (path : Path) (former tree now : Tree) (batch : Batch) :
    Prop where
  consistent : batch.graph.Consistent
  cache : batch.cache.Sound
  known : batch.graph.contains path = true → path ∈ batch.keys
  nodes : batch.graph.contains path = true → path ∈ config.functionPaths ∨ tree.Owns path ∨
    former.Owns path ∧ Tree.SameFrame former now path.entity
  held : path ∈ tree.keyPaths path.entity → path ∈ now.keyPaths path.entity →
    path ∈ batch.keys ∧ (tree.TakesPart path.entity → batch.graph.contains path = true)
  named : path ∈ batch.keys → batch.errors.Names path.render →
    path ∈ tree.keyPaths path.entity ∧ path ∉ now.keyPaths path.entity ∧
      batch.graph.contains path = false

section Steps

variable (hpath : path.Plain) (h : Answered config path former tree now batch)

include h

-- A step that leaves the path alone.
theorem Answered.still {next : Tree} (hproceeds : Proceeds config former batch second)
    (hkeys : path ∈ second.keys ↔ path ∈ batch.keys)
    (hnodes : second.graph.contains path = true ↔ batch.graph.contains path = true)
    (hnames : second.errors.Names path.render →
      batch.errors.Names path.render ∨ path ∉ second.keys)
    (hframe : Tree.SameFrame now next path.entity) :
    Answered config path former tree next second := by
  refine ⟨consistent_moves h.consistent hproceeds.moves, hproceeds.cache h.cache, fun hn => ?_,
    fun hn => ?_, fun hstays hnow => ?_, fun hk hn => ?_⟩
  · exact hkeys.mpr (h.known (hnodes.mp hn))
  · exact (h.nodes (hnodes.mp hn)).imp_right (Or.imp_right (And.imp_right (·.trans hframe)))
  · rw [hframe.keyPaths] at hnow
    exact (h.held hstays hnow).imp hkeys.mpr (hnodes.mpr ∘ ·)
  · obtain ⟨hstays, hnow, hnode⟩ :=
      h.named (hkeys.mp hk) ((hnames hn).resolve_right (not_not_intro hk))
    rw [hframe.keyPaths]
    exact ⟨hstays, hnow, Bool.eq_false_iff.mpr fun hc => Bool.eq_false_iff.mp hnode (hnodes.mp hc)⟩

include hpath

-- Other entities come in and go.
theorem Answered.other {next : Tree} (hheld : ¬tree.Strays config path)
    (hwhole : diff.target.isEntity = true) (hedit : diff.event ≠ .edit)
    (hname : diff.target.entity ≠ path.entity)
    (hnext : next.entity? path.entity = now.entity? path.entity) :
    Answered config path former tree next (applyDiff config former tree batch diff) := by
  have hbrought : path ∉ tree.keyPaths diff.target.entity :=
    fun hp => hname (tree.allIn_keyPaths _ path hp).symm
  have htaken : path ∉ former.keyPaths diff.target.entity :=
    fun hp => hname (former.allIn_keyPaths _ path hp).symm
  refine h.still (Proceeds.applyDiff config former tree h.cache diff) ?_ ?_
    (names_applyDiff hpath h.consistent h.cache) (.of_entity? hnext)
  · cases hevent : diff.event with
    | new => rw [mem_keys_applyDiff_comes hwhole hevent, or_iff_left fun hp => hbrought hp.2]
    | delete => rw [mem_keys_applyDiff_delete hwhole hevent, and_iff_left htaken]
    | edit => exact absurd hevent hedit
  · cases hevent : diff.event with
    | new =>
        rw [contains_applyDiff_comes hwhole h.consistent h.cache hheld hevent,
          or_iff_left fun hp => hbrought hp.2]
    | delete =>
        rw [contains_applyDiff_goes hwhole h.consistent hevent,
          and_iff_left fun hp => htaken hp.2]
    | edit => exact absurd hevent hedit

-- The entity of the path comes in.
theorem Answered.comes {next : Tree} (hheld : ¬tree.Strays config path)
    (hwhole : diff.target.isEntity = true) (hevent : diff.event = .new)
    (hname : diff.target.entity = path.entity) (hmissing : now.entity? path.entity = none)
    (hjoins : tree.Admits path.entity) :
    Answered config path former tree next (applyDiff config former tree batch diff) := by
  have hproceeds := Proceeds.applyDiff config former tree h.cache diff
  have hkeys : path ∈ (applyDiff config former tree batch diff).keys ↔
      path ∈ batch.keys ∨ tree.Owns path := by
    rw [mem_keys_applyDiff_comes hwhole hevent, hname]
    rfl
  have hnodes : (applyDiff config former tree batch diff).graph.contains path = true ↔
      batch.graph.contains path = true ∨ tree.Owns path := by
    rw [contains_applyDiff_comes hwhole h.consistent h.cache hheld hevent, hname]
    rfl
  refine ⟨consistent_moves h.consistent hproceeds.moves, hproceeds.cache h.cache, fun hn => ?_,
    fun hn => ?_, fun hstays _ => ?_, fun hk hn => ?_⟩
  · exact hkeys.mpr ((hnodes.mp hn).imp_left h.known)
  · rcases hnodes.mp hn with hold | howns
    · refine (h.nodes hold).imp_right (Or.imp_right ?_)
      rintro ⟨⟨⟨before, hbefore, _⟩, _⟩, hsame⟩
      rw [hsame.isNone_iff.mp hmissing] at hbefore
      cases hbefore
    · exact Or.inr (Or.inl howns)
  · have howns := hjoins.owns hstays
    exact ⟨hkeys.mpr (Or.inr howns), fun _ => hnodes.mpr (Or.inr howns)⟩
  · have hnamed := (names_applyDiff hpath h.consistent h.cache hn).resolve_right
      (not_not_intro hk)
    by_cases hstays : path ∈ tree.keyPaths path.entity
    · -- The path is a node now, so it was one, and then it was not named.
      have hnode := names_applyDiff_comes hwhole h.consistent h.cache hheld hpath hevent hn hk
        (hnodes.mpr (Or.inr (hjoins.owns hstays)))
      have hnone := (h.named (h.known hnode) hnamed).2.2
      rw [hnode] at hnone
      cases hnone
    · have hold := (hkeys.mp hk).resolve_right fun hp => hstays hp.2
      exact absurd (h.named hold hnamed).1 hstays

-- The entity of the path goes.
theorem Answered.goes {next : Tree} (hfunction : path ∈ config.functionPaths →
      former.Admits path.entity)
    (hback : tree.TakesPart path.entity → former.Admits path.entity)
    (hwhole : diff.target.isEntity = true) (hevent : diff.event = .delete)
    (hname : diff.target.entity = path.entity) (hnext : next.entity? path.entity = none) :
    Answered config path former tree next (applyDiff config former tree batch diff) := by
  have hproceeds := Proceeds.applyDiff config former tree h.cache diff
  have hkeys : path ∈ (applyDiff config former tree batch diff).keys ↔
      path ∈ batch.keys ∧ path ∉ former.keyPaths path.entity := by
    rw [mem_keys_applyDiff_delete hwhole hevent, hname]
  have hnodes : (applyDiff config former tree batch diff).graph.contains path = true ↔
      batch.graph.contains path = true ∧ ¬former.Owns path := by
    rw [contains_applyDiff_goes hwhole h.consistent hevent, hname]
    rfl
  have hout : path ∉ next.keyPaths path.entity := Tree.not_mem_keyPaths hnext
  refine ⟨consistent_moves h.consistent hproceeds.moves, hproceeds.cache h.cache, fun hn => ?_,
    fun hn => ?_, fun _ hnow => absurd hnow hout, fun hk hn => ?_⟩
  · obtain ⟨hold, hkept⟩ := hnodes.mp hn
    refine hkeys.mpr ⟨h.known hold, fun hp => ?_⟩
    have hadmits : former.Admits path.entity := by
      rcases h.nodes hold with hf | howns | howns
      · exact hfunction hf
      · exact hback howns.1
      · exact absurd howns.1 hkept
    exact hkept (hadmits.owns hp)
  · obtain ⟨hold, hkept⟩ := hnodes.mp hn
    exact (h.nodes hold).imp_right (Or.imp_right fun howns => absurd howns.1 hkept)
  · have hnamed := (names_applyDiff hpath h.consistent h.cache hn).resolve_right
      (not_not_intro hk)
    obtain ⟨hstays, _, hnone⟩ := h.named (hkeys.mp hk).1 hnamed
    refine ⟨hstays, hout, Bool.eq_false_iff.mpr fun hn => ?_⟩
    rw [(hnodes.mp hn).1] at hnone
    cases hnone

-- A text is written.
theorem Answered.edit {next : Tree} (hevent : diff.event = .edit)
    (hlisted : diff.target ∈ now.entityPaths diff.target.entity)
    (hstays : diff.target = path → tree.entity? path.entity ≠ none →
      path ∈ tree.keyPaths path.entity)
    (hframe : Tree.SameFrame now next path.entity) :
    Answered config path former tree next (applyDiff config former tree batch diff) := by
  -- What is edited is there already.
  have hthere : path = diff.target ∧ tree.TakesPart diff.target.entity →
      path ∈ batch.keys ∧ batch.graph.contains path = true := by
    rintro ⟨rfl, entity, he, hr⟩
    obtain ⟨hk, hn⟩ := h.held (hstays rfl (by rw [he]; exact Option.some_ne_none entity))
      (now.entityPaths_subset_keyPaths _ hlisted)
    exact ⟨hk, hn ⟨entity, he, hr⟩⟩
  refine h.still (Proceeds.applyDiff config former tree h.cache diff) ?_ ?_
    (names_applyDiff hpath h.consistent h.cache) hframe
  · obtain ⟨hkept, hnew⟩ := mem_keys_applyDiff_edit hevent
    exact ⟨fun hk => (hnew hk).elim id fun ht => (hthere ht).1, hkept⟩
  · obtain ⟨hkept, hnew⟩ := contains_applyDiff_edit h.consistent hevent
    exact ⟨fun hn => (hnew hn).elim id fun ht => (hthere ht).2, hkept⟩

end Steps

-- By induction on the diffs that are left.
theorem Answered.replayed {rest : List Diff} (hpath : path.Plain)
    (hformer : path ∈ config.functionPaths → former.Admits path.entity)
    (hheld : ¬tree.Strays config path) (hreplays : Replays tree now rest)
    (hjoins : Brings rest path.entity → former.Admits path.entity ∧ tree.Admits path.entity)
    (hstays : ∀ diff ∈ rest, diff.event = .edit → diff.target = path →
      tree.entity? path.entity ≠ none → path ∈ tree.keyPaths path.entity)
    (h : Answered config path former tree now batch) :
    Answered config path former tree tree (rest.foldl (applyDiff config former tree) batch) := by
  induction hreplays generalizing batch with
  | done hsame =>
      exact h.still (.refl batch) Iff.rfl Iff.rfl Or.inl (.of_entity? (hsame path.entity))
  | @new now diff rest entity hevent hwhole hmissing hrest ih =>
      refine ih (fun hb => hjoins (brings_cons.mpr (Or.inr hb)))
        (List.forall_mem_cons.mp hstays).2 ?_
      by_cases hname : diff.target.entity = path.entity
      · exact h.comes hpath hheld hwhole hevent hname (hname ▸ hmissing)
          (hjoins (brings_cons.mpr (Or.inl ⟨hevent, hname⟩))).2
      · exact h.other hpath hheld hwhole (by rw [hevent]; decide) hname
          (by rw [Tree.entity?_insert, if_neg (Ne.symm hname)])
  | @delete now diff rest entity hevent hwhole hthere hrest ih =>
      refine ih (fun hb => hjoins (brings_cons.mpr (Or.inr hb)))
        (List.forall_mem_cons.mp hstays).2 ?_
      by_cases hname : diff.target.entity = path.entity
      · refine h.goes hpath hformer (fun ⟨found, hfound, _⟩ => ?_) hwhole hevent hname
          (by rw [Tree.entity?_erase, if_pos hname.symm])
        -- An entity that goes and is there in the end has come back.
        have hback : Brings (diff :: rest) path.entity :=
          (Replays.delete entity hevent hwhole hthere hrest).brings hfound
            (Or.inr (takes_cons.mpr (Or.inl ⟨hevent, hname⟩)))
        exact (hjoins hback).1
      · exact h.other hpath hheld hwhole (by rw [hevent]; decide) hname
          (by rw [Tree.entity?_erase, if_neg (Ne.symm hname)])
  | @edit now diff rest before after hevent hlisted hbefore hafter hrest ih =>
      obtain ⟨hdiff, hstays⟩ := List.forall_mem_cons.mp hstays
      exact ih (fun hb => hjoins (brings_cons.mpr (Or.inr hb))) hstays
        (h.edit hpath hevent hlisted (hdiff hevent) (Tree.sameFrame_set hbefore after _))

end Batch

namespace Built

variable {config : Config} {cache : Binding.Cache} {tree : Tree}

-- The errors of a build, path by path, are right about what is known.
theorem namesUnknown_ofTree (config : Config) (hs : cache.Sound) (tree : Tree) :
    ∀ entry ∈ (ofTree config cache tree).errors.entries,
      Binding.NamesUnknown (nodes config tree).2.contains entry.2 := by
  obtain ⟨cache', he⟩ := foldl_addBindings config tree.entities.entries
    ⟨(nodes config tree).1, (nodes config tree).2, ∅, cache⟩ hs
  rw [ofTree_eq]
  dsimp only
  rw [bound, he]
  dsimp only
  refine List.foldlRecOn _ addReading (motive := fun built : Built =>
    ∀ entry ∈ built.errors.entries,
      Binding.NamesUnknown (nodes config tree).2.contains entry.2)
    (fun entry hm => absurd hm List.not_mem_nil) fun built hbuilt reading hm entry hentry => ?_
  obtain ⟨of, _, hreading⟩ := List.mem_flatMap.mp hm
  unfold addReading at hentry
  dsimp only at hentry
  split at hentry
  · exact hbuilt entry hentry
  · rcases OrderedMap.mem_entries_insert.mp hentry with ⟨_, hfound⟩ | ⟨_, hold⟩
    · rw [hfound]
      exact Binding.namesUnknown_readings reading hreading
    · exact hbuilt entry hold

end Built

namespace Session

variable {config : Config} {first former tree last : Tree} {session : Session}
  {diffs : List Diff} {actions : List Action} {path : Path}

-- A session in which the path is a node if its entity is part of the graph and
-- brings it, and is not named as unresolved if it is known.
structure Answered (config : Config) (path : Path) (session : Session) : Prop where
  coherent : session.Coherent
  settings : session.config = config
  known : session.graph.contains path = true → path ∈ session.keys
  nodes : session.graph.contains path = true →
    path ∈ config.functionPaths ∨ session.tree.Owns path
  held : path ∈ session.tree.keyPaths path.entity →
    path ∈ session.keys ∧ (session.tree.TakesPart path.entity → session.graph.contains path = true)
  named : path ∈ session.keys → ¬session.errors.Names path.render
  function : path ∈ config.functionPaths → session.tree.Admits path.entity

theorem names_foldl_replaceExtraction {entries : List (Path × List DependencyError)}
    {errors : ErrorStore} {name : String}
    (h : (entries.foldl (fun errors entry => errors.replaceExtraction entry.1 entry.2)
      errors).Names name) :
    errors.Names name ∨
      ∃ entry ∈ entries, ∃ error ∈ entry.2, ErrorStore.namesReference name error = true := by
  induction entries generalizing errors with
  | nil => exact Or.inl h
  | cons entry rest ih =>
      rw [List.exists_mem_cons_iff, ← or_assoc]
      exact (ih h).imp_left ErrorStore.names_replaceExtraction

-- A build raises no error on what it knows.
theorem not_names_start (hpath : path.Plain) (cache : Binding.Cache)
    (hk : path ∈ (start config cache tree).keys) :
    ¬(start config cache tree).errors.Names path.render := by
  intro h
  unfold start reset at h
  rw [errors_sort] at h
  obtain hempty | ⟨entry, he, error, herror, hnames⟩ :=
    names_foldl_replaceExtraction (ErrorStore.names_replaceCycles h)
  · exact ErrorStore.not_names_empty hempty
  · have hs := Binding.Cache.sound_clear cache
    have hunknown := Built.namesUnknown_ofTree config hs tree entry he error herror path hpath hnames
    rw [Built.known_nodes, decide_eq_false_iff_not] at hunknown
    exact hunknown ((mem_keys_start config cache tree).mp hk)

theorem answered_start (hpath : path.Plain) (cache : Binding.Cache)
    (htree : tree.Answers config path) : (start config cache tree).Answered config path := by
  have hkeys : path ∈ (start config cache tree).keys ↔
      path ∈ tree.keyPaths path.entity ∨ path ∈ config.functionPaths := by
    rw [mem_keys_start, Tree.mem_knownPaths]
  have hnodes : (start config cache tree).graph.contains path = true ↔
      path ∈ config.functionPaths ∨ tree.Owns path := by
    rw [contains_start]
    refine or_congr Iff.rfl (or_iff_left_of_imp fun hfound => ?_)
    exact (owns_or_strays_of_found hfound).resolve_right htree.brought
  refine ⟨coherent_start config cache tree, config_start config cache tree, fun hn => ?_,
    fun hn => ?_, fun hp => ?_, not_names_start hpath cache, ?_⟩
  · exact hkeys.mpr ((hnodes.mp hn).symm.imp_left fun howns => howns.2)
  · rw [tree_start]
    exact hnodes.mp hn
  · rw [tree_start] at hp ⊢
    exact ⟨hkeys.mpr (Or.inl hp), fun hpart => hnodes.mpr (Or.inr ⟨hpart, hp⟩)⟩
  · rw [tree_start]
    exact htree.function

theorem Answered.batch (htracks : Tracks path session.tree tree diffs)
    (h : session.Answered config path) :
    Batch.Answered config path session.tree tree session.tree
      { Batch.start session.graph session.keys session.errors session.cache with
        keys := diffs.foldl (Batch.registerKeys tree) session.keys } := by
  have hregistered : path ∈ diffs.foldl (Batch.registerKeys tree) session.keys ↔
      path ∈ session.keys ∨
        ∃ diff ∈ diffs, diff.event = .new ∧ path ∈ tree.keyPaths diff.target.entity :=
    Batch.mem_foldl_registerKeys fun diff hd hevent =>
      htracks.replays.whole diff hd (by rw [hevent]; decide)
  have hpart : tree.TakesPart path.entity → path ∈ session.tree.keyPaths path.entity →
      session.tree.TakesPart path.entity := by
    rintro ⟨entity, he, hr⟩ hp
    obtain ⟨before, hbefore⟩ := Tree.exists_of_mem_keyPaths hp
    rcases htracks.replays.takes_or_sameFrame hbefore with htakes | hsame
    · exact ((htracks.joins (htracks.replays.brings he (Or.inr htakes))).1.owns hp).1
    · exact hsame.takesPart.mp ⟨entity, he, hr⟩
  refine ⟨h.coherent.consistent, h.coherent.cache, fun hn => hregistered.mpr (Or.inl (h.known hn)),
    fun hn => ?_, fun _ hp => ?_, fun hk hn => ?_⟩
  · exact (h.nodes hn).imp_right fun howns => Or.inr ⟨howns, .of_entity? rfl⟩
  · obtain ⟨hk, hn⟩ := h.held hp
    exact ⟨hregistered.mpr (Or.inl hk), fun ht => hn (hpart ht hp)⟩
  · have hunknown : path ∉ session.keys := fun hold => h.named hold hn
    obtain ⟨diff, _, _, hp⟩ := (hregistered.mp hk).resolve_left hunknown
    refine ⟨?_, fun hold => hunknown (h.held hold).1, Bool.eq_false_iff.mpr fun hnode =>
      hunknown (h.known hnode)⟩
    rwa [tree.allIn_keyPaths _ path hp]

theorem names_apply {name : String} (h : (session.apply tree diffs).1.errors.Names name) :
    (session.batchOf tree diffs).errors.Names name := by
  rw [fst_apply] at h
  split at h
  · rw [errors_sort] at h
    exact ErrorStore.names_replaceCycles h
  · exact h

theorem Answered.apply (hpath : path.Plain) (htracks : Tracks path session.tree tree diffs)
    (htree : tree.Answers config path) (h : session.Answered config path) :
    (session.apply tree diffs).1.Answered config path := by
  have hconfig := h.settings
  subst hconfig
  have hend := (h.batch htracks).replayed hpath h.function htree.brought htracks.replays
    htracks.joins htracks.stays
  refine ⟨h.coherent.apply tree diffs, config_apply session tree diffs, ?_, ?_, ?_, ?_, ?_⟩
  all_goals simp only [tree_apply, graph_apply, keys_apply]
  · exact hend.known
  · intro hn
    refine (hend.nodes hn).imp_right fun howns => howns.elim id fun ⟨hformer, hsame⟩ => ?_
    exact ⟨hsame.takesPart.mpr hformer.1, hsame.keyPaths ▸ hformer.2⟩
  · exact fun hp => hend.held hp hp
  · intro hk hn
    obtain ⟨hp, hout, _⟩ := hend.named hk (names_apply hn)
    exact hout hp
  · exact htree.function

-- After batches that can be replayed and treat a path alike, no error says that
-- the path is unresolved if it is known.
theorem resolved_of_isKnown (config : Config) (hpath : path.Plain)
    (hcourse : Course (Tracks path) first actions last)
    (hseen : ∀ seen ∈ visited first actions, seen.Answers config path) :
    let session := (ofTree first config).after actions
    session.isKnown path = true →
      ∀ error ∈ session.errors.toList, ErrorStore.namesReference path.render error = false := by
  intro session hk error he
  have hanswered : session.Answered config path :=
    hcourse.of_start hseen (answered_start hpath _ (hseen first List.mem_cons_self))
      fun now tree diffs hnow htracks htree => hnow.apply hpath htracks htree
  obtain ⟨key, hkey⟩ := ErrorStore.mem_toList_iff.mp he
  refine Bool.eq_false_iff.mpr fun hnames => ?_
  exact hanswered.named (Std.TreeSet.contains_iff_mem.mp hk) ⟨key, error, hkey, hnames⟩

section Coming

theorem not_strays {tree : Tree} (h : ∀ entry ∈ tree.entities.entries, path ∉
    (Binding.ofEntity config (fun _ => false) (.ofCapacity config.cacheCapacity) entry.1
      entry.2).1.keys) : ¬tree.Strays config path :=
  fun ⟨⟨name, entity, he, hp⟩, _⟩ => h (name, entity) (OrderedMap.get?_eq_some_iff.mp he) hp

theorem answers_api_data :
    let text := "{{ Api.data }}"
    let data : Path := ⟨"Api", [.key "data"]⟩
    (labelled text).Answers .standard data ∧ (supplied text).Answers .standard data := by
  intro text data
  have hfunction : data ∉ Config.standard.functionPaths := by decide +kernel
  exact ⟨⟨not_strays (by decide +kernel), fun hf => absurd hf hfunction⟩,
    ⟨not_strays (by decide +kernel), fun hf => absurd hf hfunction⟩⟩

theorem tracks_supplied (text : String) (path : Path) (h : path.entity = "Api") :
    Tracks path (labelled text) (supplied text) [.new "Api" api.value] where
  replays := replays_supplied text
  joins _ := by
    rw [h]
    refine ⟨fun entity he => ?_, fun entity he => ?_⟩
    · cases he
    · cases he
      rfl
  stays diff hd hevent := by
    rw [List.mem_singleton.mp hd] at hevent
    cases hevent

-- A label that waits for an action is no longer said to when the action comes.
theorem resolved_api_data :
    let text := "{{ Api.data }}"
    let data : Path := ⟨"Api", [.key "data"]⟩
    let session := (ofTree (labelled text) .standard).after
      [.apply (supplied text) [.new "Api" api.value]]
    (ofTree (labelled text) .standard).errors.toList =
        [.unresolvedReference "Label.text" "Api.data"] ∧
      session.isKnown data = true ∧
      ∀ error ∈ session.errors.toList, ErrorStore.namesReference data.render error = false := by
  intro text data session
  have hknown : session.isKnown data = true := by decide +kernel
  refine ⟨by decide +kernel, hknown, resolved_of_isKnown .standard ?_
    (.batch (tracks_supplied text data rfl) (.done _)) ?_ hknown⟩
  · simp [data, Path.Plain, Path.startsAccessor]
  · exact List.forall_mem_cons.mpr
      ⟨answers_api_data.1, List.forall_mem_singleton.mpr answers_api_data.2⟩

theorem replays_globals (text : String) :
    Replays ((labelled text).insert "Globals" globals) (labelled text)
      [.new "Globals" globals.value] := by
  have htarget : (Diff.new "Globals" globals.value).target = .ofEntity "Globals" := by
    show Path.parseLenient "Globals" = _
    decide +kernel
  exact .new globals rfl (by rw [htarget]; rfl) (by rw [htarget]; rfl)
    (.done fun name => by rw [htarget]; rfl)

-- Variables that come in are known, but what waits for them is still said to.
theorem unresolved_globals_token :
    let text := "{{ Globals.token }}"
    let token := Path.parseLenient "Globals.token"
    let tree := (labelled text).insert "Globals" globals
    let session := (ofTree (labelled text) .standard).after
      [.apply tree [.new "Globals" globals.value]]
    Replays tree (labelled text) [.new "Globals" globals.value] ∧
      session.isKnown token = true ∧
      DependencyError.unresolvedReference "Label.text" token.render ∈ session.errors.toList := by
  intro text token tree session
  exact ⟨replays_globals text, by decide +kernel⟩

end Coming

end Session

end Recalc
