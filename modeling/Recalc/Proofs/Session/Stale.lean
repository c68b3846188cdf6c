import Recalc.Proofs.Session.Revising
import Recalc.Proofs.Session.Usage

namespace Recalc

open Binding (Form Cache Holds)
open Binding.Cache (Uses mem_keys_evict)

namespace Tree

-- A text that a path which is scanned for bindings holds, in the form that its
-- entity is read in.
def Binds (tree : Tree) (form : Form) (text : String) : Prop :=
  ∃ name entity relative, tree.entity? name = some entity ∧ entity.reactive = true ∧
    entity.kind.capabilities.form = some form ∧ relative ∈ entity.config.scannedPaths ∧
      tree.get? (Path.ofRelative name relative) = some (.str text)

-- Trees whose entities have names that are not empty and hold no dots and
-- brackets.
structure Named (tree : Tree) : Prop where
  named : ∀ name ∈ tree.names, name ≠ ""
  plain : tree.Plain

variable {tree former : Tree} {form : Form} {text : String}

-- What a batch may ask for the tree binds, however a diff spells the path.
theorem Named.binds (h : tree.Named) (hasks : tree.Asks form text) : tree.Binds form text := by
  obtain ⟨name, entity, path, he, hr, ⟨hform, hlookup⟩, hpath⟩ := hasks
  have hname : name ∈ tree.names := OrderedMap.mem_keys_iff.mpr ⟨entity, he⟩
  have hread : ∀ relative, (Path.ofRelative name relative).lookup entity.value = some (.str text) →
      tree.get? (Path.ofRelative name relative) = some (.str text) := fun relative hrelative => by
    rwa [get?_of_entity? ((Path.entity_ofRelative relative (h.plain name hname)).symm ▸ he)]
  rcases hpath with ⟨relative, hrelative, rfl⟩ | ⟨rfl, ⟨raw, rfl⟩, hdynamic⟩
  · exact ⟨name, entity, relative, he, hr, hform, hrelative, hread relative hlookup⟩
  · exact ⟨_, entity, _, he, hr, hform, Binding.mem_scannedPaths.mpr hdynamic,
      hread _ (Path.lookup_ofRelative raw (h.named _ hname) hlookup)⟩

end Tree

namespace Batch

variable {config : Config} {former tree : Tree} {batch : Batch} {diff : Diff} {diffs : List Diff}
  {entity : Entity} {path : Path} {form : Form} {text : String} {cache : Cache}

theorem mem_keys_evictTexts {key : Form × String} {paths : List Path} {form : Option Form}
    (hk : key ∈ (evictTexts former form cache paths).entries.keys) : key ∈ cache.entries.keys :=
  have hdrops : Uses (fun _ _ => False) cache (evictTexts former form cache paths) :=
    uses_evictTexts form cache paths
  (hdrops.mem_keys hk).resolve_right id

-- What is dropped on the way is not there in the end.
theorem not_mem_evictTexts {paths : List Path} (hp : path ∈ paths)
    (h : former.get? path = some (.str text)) :
    (form, text) ∉ (evictTexts former (some form) cache paths).entries.keys := by
  obtain ⟨front, back, rfl⟩ := List.append_of_mem hp
  intro hk
  have hsplit : evictTexts former (some form) cache (front ++ path :: back) =
      evictTexts former (some form)
        ((evictTexts former (some form) cache front).evict form text) back := by
    simp only [evictTexts, List.foldl_append, List.foldl_cons, h]
  rw [hsplit] at hk
  exact (mem_keys_evict.mp (mem_keys_evictTexts hk)).2 rfl

-- A deletion drops what the entity held, also by another spelling of the path.
theorem not_mem_cache_delete (hwhole : diff.target.isEntity = true) (hevent : diff.event = .delete)
    (he : former.entity? path.entity = some entity) (hr : entity.reactive = true)
    (hform : entity.kind.capabilities.form = some form) (hname : diff.target.entity = path.entity)
    (h : former.get? path = some (.str text)) :
    (form, text) ∉ (applyDiff config former tree batch diff).cache.entries.keys := by
  rw [Tree.get?_of_entity? he] at h
  obtain ⟨others, hlisted, hothers⟩ := Path.exists_mem_allBelow h (.ofEntity path.entity)
  have htarget : diff.target = .ofEntity path.entity := by
    rw [Path.eq_ofEntity hwhole, hname]
  rw [applyDiff_delete hevent htarget he hr, cache_onDelete, hform, removedPaths_ofEntity he,
    Tree.entityPaths, he]
  refine not_mem_evictTexts hlisted ?_
  rw [Tree.get?_of_entity? (by exact he)]
  exact hothers

theorem evictEdited_of_text {value : Option Value} (hbefore : former.get? path = some (.str text))
    (hform : entity.kind.capabilities.form = some form) (hafter : value ≠ some (.str text))
    (cache : Cache) : evictEdited former entity path value cache = cache.evict form text := by
  have hchanged : textOf? value ≠ some text := fun htext => by
    unfold textOf? at htext
    split at htext
    · cases htext
      exact hafter rfl
    · cases htext
  unfold evictEdited
  rw [hbefore, hform]
  exact if_neg hchanged

-- An edit drops the text that it replaces, before it reads.
theorem asks_of_mem_cache_edit (hevent : diff.event = .edit)
    (he : tree.entity? diff.target.entity = some entity) (hr : entity.reactive = true)
    (hform : entity.kind.capabilities.form = some form)
    (hbefore : former.get? diff.target = some (.str text))
    (hafter : diff.value.or (tree.get? diff.target) ≠ some (.str text))
    (hk : (form, text) ∈ (applyDiff config former tree batch diff).cache.entries.keys) :
    tree.Asks form text := by
  have huses : Uses tree.Asks (batch.cache.evict form text)
      (onEdit config former tree entity diff.target diff.value batch).cache := by
    rw [← evictEdited_of_text hbefore hform hafter]
    exact uses_onEdit_evicted he hr ⟨diff.path, rfl⟩
  rw [applyDiff_edit hevent he hr] at hk
  exact (huses.mem_keys hk).resolve_left fun hk => (mem_keys_evict.mp hk).2 rfl

-- A text that one of the diffs drops is in the cache only if it is asked for.
theorem asks_of_mem_cache (hd : diff ∈ diffs)
    (hdrops : ∀ batch : Batch,
      (form, text) ∈ (applyDiff config former tree batch diff).cache.entries.keys →
        tree.Asks form text)
    (hk : (form, text) ∈ (diffs.foldl (applyDiff config former tree) batch).cache.entries.keys) :
    tree.Asks form text := by
  obtain ⟨front, back, rfl⟩ := List.append_of_mem hd
  rw [List.foldl_append, List.foldl_cons] at hk
  exact ((uses_foldl_applyDiff _).mem_keys hk).elim (hdrops _) id

-- What the former tree binds and the cache has kept the new tree binds.
theorem binds_of_mem_cache (hnamed : tree.Named) (hformer : former.Plain)
    (h : Revises tree former diffs) (hbinds : former.Binds form text)
    (hk : (form, text) ∈ (diffs.foldl (applyDiff config former tree) batch).cache.entries.keys) :
    tree.Binds form text := by
  obtain ⟨name, entity, relative, he, hr, hform, hrelative, hget⟩ := hbinds
  have hname : (Path.ofRelative name relative).entity = name :=
    Path.entity_ofRelative relative (hformer name (OrderedMap.mem_keys_iff.mpr ⟨entity, he⟩))
  by_cases htakes : Takes diffs name
  · obtain ⟨diff, hd, hevent, htarget⟩ := htakes
    have hwhole := h.whole diff hd (by rw [hevent]; decide)
    refine hnamed.binds (asks_of_mem_cache hd (fun batch hk => ?_) hk)
    exact absurd hk (not_mem_cache_delete hwhole hevent (hname.symm ▸ he) hr hform
      (htarget.trans hname.symm) hget)
  · have hplaces := h.samePlaces htakes (by rw [he]; exact Option.some_ne_none _)
    have hconfig := hplaces.config
    rw [he] at hconfig
    obtain ⟨now, hnow, hsame⟩ := Option.map_eq_some_iff.mp hconfig
    have hkind : now.kind = entity.kind := congrArg EntityConfig.kind hsame
    have hreactive : now.reactive = entity.reactive := congrArg Kind.reactive hkind
    by_cases hkept : tree.get? (Path.ofRelative name relative) = some (.str text)
    · exact ⟨name, now, relative, hnow, hreactive.trans hr, hkind ▸ hform, hsame ▸ hrelative, hkept⟩
    · obtain ⟨diff, hd, hevent, htarget, hbefore, hafter⟩ :=
        h.exists_edit (hname.symm ▸ htakes) hget hkept
      rw [hname] at htarget
      refine hnamed.binds (asks_of_mem_cache hd (fun batch hk => ?_) hk)
      exact asks_of_mem_cache_edit hevent (htarget ▸ hnow) (hreactive ▸ hr) (hkind ▸ hform) hbefore
        hafter hk

end Batch

namespace Session

variable {config : Config} {session : Session} {first tree last : Tree} {diffs : List Diff}
  {actions : List Action}

-- A session whose cache holds texts of its tree alone.
structure Current (session : Session) : Prop where
  named : session.tree.Named
  binds : ∀ key ∈ session.cache.entries.keys, session.tree.Binds key.1 key.2

theorem current_start (config : Config) (cache : Cache) (h : tree.Named) :
    (start config cache tree).Current := by
  refine ⟨by rwa [tree_start], fun key hk => ?_⟩
  rw [tree_start]
  exact h.binds (((uses_reset _ tree).mem_keys hk).resolve_left List.not_mem_nil)

theorem Current.apply (h : session.Current) (hrevises : Revises tree session.tree diffs)
    (htree : tree.Named) : (session.apply tree diffs).1.Current := by
  refine ⟨by rwa [tree_apply], fun key hk => ?_⟩
  rw [tree_apply]
  rcases (uses_apply session tree diffs).mem_keys hk with hold | hasks
  · rw [cache_apply] at hk
    exact Batch.binds_of_mem_cache htree h.named.plain hrevises (h.binds key hold) hk
  · exact htree.binds hasks

-- After batches that can be replayed, all that the cache holds is text of the
-- tree, at a path that is scanned for bindings and in the form of its entity.
-- This is so whatever else the cache drops for want of room.
theorem binds_of_cached (config : Config) (cache : Cache)
    (hcourse : Course (fun former tree diffs => Revises tree former diffs) first actions last)
    (hnamed : ∀ tree ∈ visited first actions, tree.Named) :
    let session := (start config cache first).after actions
    ∀ form text, session.cache.contains form text = true → session.tree.Binds form text := by
  intro session form text hcached
  have hfirst : (start config cache first).tree = first := tree_start config cache first
  have hstart : (start config cache first).Current :=
    current_start config cache (hnamed first List.mem_cons_self)
  rw [← hfirst] at hcourse hnamed
  have hcurrent : session.Current := hcourse.after hnamed hstart
    fun now tree diffs hnow hrevises htree => hnow.apply hrevises htree
  exact hcurrent.binds (form, text)
    (OrderedMap.mem_keys_iff.mpr (Option.isSome_iff_exists.mp hcached))

section Relabelling

theorem named_labelled (text : String) : (labelled text).Named := by
  refine ⟨fun name hname => ?_, plain_labelled text⟩
  obtain rfl : name = "Label" := List.mem_singleton.mp hname
  decide

-- A label whose text is written twice in one batch.
theorem revises_labelled (before between after : String) :
    Revises (labelled after) (labelled before)
      [.edit "Label.text" (.str between), .edit "Label.text" (.str after)] := by
  have htarget (text : String) :
      (Diff.edit "Label.text" (.str text)).target = ⟨"Label", [.key "text"]⟩ := by
    show Path.parseLenient "Label.text" = _
    decide +kernel
  refine .edit (.str before) (.str between) rfl (by rw [htarget]; rfl) rfl rfl (Or.inr rfl)
    (.edit (.str between) (.str after) rfl (by rw [htarget, htarget]; rfl) rfl rfl (Or.inr rfl)
      (.done fun name => by rw [htarget, htarget]; rfl))

-- Of the three texts of a label the cache holds the last, which has been read
-- twice.
theorem cached_relabelled :
    let session := (start .standard (.ofCapacity 8) (labelled "{{ Api.data }}")).after
      [.apply (labelled "{{ Api.total }}")
        [.edit "Label.text" (.str "{{ Api.count }}"),
          .edit "Label.text" (.str "{{ Api.total }}")]]
    session.cache.entries.keys = [(.template, "{{ Api.total }}")] ∧
      ∀ form text, session.cache.contains form text = true → session.tree.Binds form text :=
  ⟨by decide +kernel, binds_of_cached .standard (.ofCapacity 8)
    (.batch (revises_labelled _ _ _) (.done _))
    (List.forall_mem_cons.mpr ⟨named_labelled _, List.forall_mem_singleton.mpr (named_labelled _)⟩)⟩

end Relabelling

end Session

end Recalc
