import Recalc.Proofs.Graph.Exchange
import Recalc.Proofs.Session.Clearing
import Recalc.Proofs.Session.Policy

namespace Recalc

open Binding (Dependencies)

-- What goes with a path: all at or below it and, with a whole entity, the
-- setters.
def Tree.lost (tree : Tree) (entity : Entity) (path : Path) : List Path :=
  tree.pathsUnder path ++ if path.isEntity then entity.config.setterPaths path.entity else []

namespace Batch

variable {config : Config} {former tree : Tree} {batch : Batch} {reader target other : Path}
  {entity : Entity} {diff : Diff}

section Flags

variable {keys : Keys} {graph : Graph} {gone : List Path} {errors : ErrorStore}
  {error : DependencyError} {key : String}

theorem mem_flagReader (h : error ∈ errors.atKey key) :
    error ∈ (flagReader keys graph gone errors reader).atKey key := by
  refine List.foldlRecOn (graph.pendingOf reader) _
    (motive := fun now : ErrorStore => error ∈ now.atKey key) h fun now hnow target _ => ?_
  split
  · exact ErrorStore.mem_atKey_flagUnresolved hnow
  · exact hnow

theorem unresolved_mem_flagReader (ht : target ∈ graph.pendingOf reader) (hgone : target ∈ gone)
    (hk : isKnownOrBelow keys target = false) (errors : ErrorStore) :
    .unresolvedReference reader.render target.render ∈
      (flagReader keys graph gone errors reader).atPath reader := by
  refine ErrorStore.mem_atKey_foldl (fun now other hnow => ?_) ht (fun now => ?_) errors
  · split
    · exact ErrorStore.mem_atKey_flagUnresolved hnow
    · exact hnow
  · rw [if_pos (by simp [hgone, hk])]
    exact ErrorStore.mem_atPath_flagUnresolved now reader target

theorem isKnownOrBelow_eq_false
    (h : ∀ other, target.startsWith other = true → keys.contains other = false) :
    isKnownOrBelow keys target = false := by
  refine Bool.or_eq_false_iff.mpr ⟨h target (Path.startsWith_refl target), ?_⟩
  refine List.any_eq_false.mpr fun other ho => ?_
  rw [h other (Path.mem_cons_ancestors.mp (List.mem_cons_of_mem target ho))]
  exact Bool.false_ne_true

end Flags

theorem gone_eq_lost {value : Value} (h : former.get? target = some value) :
    gone former entity target = former.lost entity target := by
  have hbelow : target ∈ former.pathsUnder target := by
    rw [Tree.pathsUnder, h]
    exact Path.mem_allBelow_self target value
  have hsome : (former.pathsUnder target).isEmpty = false :=
    List.isEmpty_eq_false_iff_exists_mem.mpr ⟨target, hbelow⟩
  rw [gone, removedPaths, hsome]
  rfl

theorem readersOfRemoved_onDelete :
    (onDelete config former entity target batch).readersOfRemoved =
      batch.readersOfRemoved.insertMany
        (readersOutside batch.graph (gone former entity target)).toList := by
  rw [onDelete_eq, readers_foldl_forget]
  rfl

theorem graph_onDelete_eq : (onDelete config former entity target batch).graph =
    (batch.graph.removeNodes (removedSetters entity target ++ removedPaths former target)).1 := by
  rw [onDelete_eq, graph_foldl_forget]
  exact Graph.removeNodes_append _ _ _

-- The errors of a reader are kept under its own text, which is not the text of
-- anything that is removed.
theorem unresolved_mem_onDelete (hreport : config.reportUnresolved = true) (hplain : target.Plain)
    (hreader : reader ∈ readersOutside batch.graph (gone former entity target))
    (hout : reader ∉ gone former entity target) (hown : reader.Plain)
    (hother : other ∈ gone former entity target)
    (hpending : other ∈ (onDelete config former entity target batch).graph.pendingOf reader)
    (hk : isKnownOrBelow (onDelete config former entity target batch).keys other = false) :
    .unresolvedReference reader.render other.render ∈
      (onDelete config former entity target batch).errors.atPath reader := by
  have hkept : ¬∃ removed ∈ removedPaths former target, reader.render = removed.render := by
    rintro ⟨removed, hr, he⟩
    have hsame := Path.render_inj hown (plain_of_mem_removedPaths hplain removed hr) he
    exact hout (List.mem_append_left _ (hsame ▸ hr))
  rw [onDelete_eq, graph_foldl_forget] at hpending
  rw [onDelete_eq, field_foldl_forget _ _ _ Batch.keys fun _ _ => rfl] at hk
  rw [ErrorStore.atPath, onDelete_eq, errors_foldl_forget, ErrorStore.atKey_foldl_clearPath,
    if_neg hkept]
  show _ ∈ (flagged config former entity target batch).atKey reader.render
  rw [flagged, if_pos hreport]
  refine ErrorStore.mem_atKey_foldl (fun _ _ hnow => ?_) (OrderedSet.mem_toList.mpr hreader)
    (fun now => ?_) batch.errors
  · exact mem_flagReader hnow
  · exact unresolved_mem_flagReader hpending hother hk now

-- What is read in a batch is read at plain paths, since events have plain
-- targets.
theorem plain_of_mem_readingsOf (hs : batch.cache.Sound) :
    ∀ reading ∈ readingsOf config former tree batch diff, reading.1.Plain := by
  intro reading hr
  have hplain : diff.target.Plain := Path.plain_parseLenient diff.path
  unfold readingsOf at hr
  split at hr
  · exact absurd hr List.not_mem_nil
  · next entity he =>
    split at hr
    · split at hr
      · unfold readingsOfNew at hr
        dsimp only at hr
        split at hr
        · rw [List.mem_singleton.mp hr]
          exact hplain
        · have hsound := (Proceeds.growNew config former tree entity diff.target diff.value
            batch).cache hs
          rw [(Binding.ofEntity_eq config _ diff.target.entity entity hsound).1] at hr
          exact Path.plain_of_entity_eq hplain
            (Binding.entity_of_mem_readings hplain (List.mem_map_of_mem hr))
      · exact absurd hr List.not_mem_nil
      · unfold readingsOfEdit at hr
        split at hr
        · rw [List.mem_singleton.mp hr]
          exact hplain
        · exact absurd hr List.not_mem_nil
    · exact absurd hr List.not_mem_nil

theorem plain_of_mem_readingsOfAll {diffs : List Diff} (hs : batch.cache.Sound) :
    ∀ reading ∈ readingsOfAll config former tree diffs batch, reading.1.Plain := by
  induction diffs generalizing batch with
  | nil => exact fun reading hr => absurd hr List.not_mem_nil
  | cons diff rest ih =>
      exact List.forall_mem_append.mpr ⟨plain_of_mem_readingsOf hs,
        ih ((Proceeds.applyDiff config former tree hs diff).cache hs)⟩

end Batch

-- In a graph of this kind a path that has declared anything is plain.
abbrev Graph.DeclaresPlainly (graph : Graph) : Prop :=
  graph.Licensed (fun above _ => above.Plain) fun _ _ => True

theorem Graph.DeclaresPlainly.plain {graph : Graph} {reader target : Path}
    (h : graph.DeclaresPlainly) (hc : graph.Consistent) (hd : graph.DependsOn reader target)
    (ht : target.Plain) : reader.Plain := by
  obtain ⟨i, j, hi, hr, hj⟩ := hc.mem_dependencies.mp hd
  rcases h.reads i j reader target hi hj hr with hp | ⟨hchild, _⟩
  · exact hp
  · exact Path.plain_of_entity_eq ht (Path.entity_of_isChildOf hchild)

namespace Built

variable {config : Config} {cache : Binding.Cache} {tree : Tree}

theorem declaresPlainly_ofTree (config : Config) (hs : cache.Sound) (h : tree.Plain) :
    (ofTree config cache tree).graph.DeclaresPlainly := by
  refine (licensed_bound config hs tree fun reading hr _ _ => ?_).2.linksChildren
    (linksChildren_bound hs h config) fun _ _ _ => trivial
  obtain ⟨entry, he, hr⟩ := List.mem_flatMap.mp hr
  have hplain := h.ofEntity (OrderedMap.get?_eq_some_iff.mpr he)
  exact Path.plain_of_entity_eq hplain
    (Binding.entity_of_mem_readings hplain (List.mem_map_of_mem hr))

end Built

namespace Session

variable {config : Config} {cache : Binding.Cache} {first tree : Tree} {session : Session}
  {actions : List Action} {diff : Diff} {entity : Entity}

theorem declaresPlainly_perform {action : Action} (hc : session.Coherent)
    (h : session.graph.DeclaresPlainly) (hplain : ∀ tree, action.tree? = some tree → tree.Plain) :
    (session.perform action).graph.DeclaresPlainly := by
  cases action with
  | apply tree diffs =>
      show (session.apply tree diffs).1.graph.DeclaresPlainly
      rw [graph_apply]
      exact Batch.licensed_foldl_applyDiff (by exact h) (by exact hc.consistent) (by exact hc.cache)
        (fun _ _ => ⟨fun _ _ _ => trivial, fun _ _ _ _ _ _ _ => trivial⟩)
        fun reading hr _ _ => Batch.plain_of_mem_readingsOfAll (by exact hc.cache) reading hr
  | reset tree =>
      show (session.reset tree).graph.DeclaresPlainly
      unfold reset
      rw [graph_sort]
      exact Built.declaresPlainly_ofTree session.config (Binding.Cache.sound_clear session.cache)
        (hplain tree rfl)
  | recordEvaluation path messages => exact h

-- By induction on the actions.
theorem declaresPlainly_after (config : Config) (cache : Binding.Cache)
    (hplain : ∀ seen ∈ visited first actions, seen.Plain) :
    ((start config cache first).after actions).graph.DeclaresPlainly := by
  obtain ⟨hfirst, hlater⟩ := List.forall_mem_cons.mp hplain
  have hstart : (start config cache first).graph.DeclaresPlainly := by
    unfold start reset
    rw [graph_sort]
    exact Built.declaresPlainly_ofTree config (Binding.Cache.sound_clear cache) hfirst
  refine (List.foldlRecOn actions perform (motive := fun now : Session =>
    now.Coherent ∧ now.graph.DeclaresPlainly) ⟨coherent_start config cache first, hstart⟩
    fun now hnow action ha => ?_).2
  refine ⟨hnow.1.perform action, declaresPlainly_perform hnow.1 hnow.2 fun tree ht => ?_⟩
  exact hlater tree (List.mem_filterMap.mpr ⟨action, ha, ht⟩)

-- What sorting raises are errors of cycles.
theorem mem_errors_apply {diffs : List Diff} {key : String} {error : DependencyError}
    (he : error ∈ (session.batchOf tree diffs).errors.atKey key)
    (hcycle : ErrorStore.isCycle error = false) :
    error ∈ (session.apply tree diffs).1.errors.atKey key := by
  rw [fst_apply]
  split
  · rw [errors_sort, ErrorStore.atKey_replaceCycles]
    refine List.mem_append_left _ (List.mem_filter.mpr ⟨he, ?_⟩)
    rw [hcycle]
    rfl
  · exact he

theorem batchOf_delete (hevent : diff.event = .delete)
    (he : session.tree.entity? diff.target.entity = some entity) (hr : entity.reactive = true) :
    session.batchOf tree [diff] = (Batch.onDelete session.config session.tree entity diff.target
      (Batch.start session.graph session.keys session.errors session.cache)).dropGoneReaders := by
  have hregister : [diff].foldl (Batch.registerKeys tree) session.keys = session.keys := by
    rw [List.foldl_cons, List.foldl_nil, Batch.registerKeys, hevent]
  have happly : ∀ batch : Batch,
      [diff].foldl (Batch.applyDiff session.config session.tree tree) batch =
        Batch.onDelete session.config session.tree entity diff.target batch := fun batch => by
    rw [List.foldl_cons, List.foldl_nil, Batch.applyDiff, hevent]
    dsimp only
    rw [he]
    exact if_pos hr
  rw [batchOf, Batch.apply, happly]
  show (Batch.onDelete session.config session.tree entity diff.target
    { Batch.start session.graph session.keys session.errors session.cache with
      keys := [diff].foldl (Batch.registerKeys tree) session.keys }).dropGoneReaders = _
  rw [hregister]
  rfl

-- What a deletion does to those who read what is lost.
structure KeepsReaders (session : Session) (lost : List Path) (result : Session × Update) :
    Prop where
  reported : ∀ reader, reader ∈ result.2.readersOfRemoved ↔
    reader ∉ lost ∧ ∃ target ∈ lost, session.graph.DependsOn reader target
  once : result.2.readersOfRemoved.Nodup
  gone : ∀ path ∈ lost, result.1.graph.contains path = false
  declared : ∀ reader ∈ result.2.readersOfRemoved, ∀ target, target.isChildOf reader = false →
    (target ∈ result.1.graph.declared reader ↔ target ∈ session.graph.declared reader)
  children : ∀ reader ∈ result.2.readersOfRemoved, ∀ target ∈ result.1.graph.declared reader,
    target ∈ session.graph.declared reader
  pending : ∀ reader ∈ result.2.readersOfRemoved, ∀ target ∈ lost,
    session.graph.DependsOn reader target → target.isChildOf reader = false →
      target ∈ result.1.graph.pendingOf reader
  unresolved : session.config.reportUnresolved = true →
    ∀ reader ∈ result.2.readersOfRemoved, ∀ target ∈ lost,
      session.graph.DependsOn reader target → target.isChildOf reader = false →
        (∀ other, target.startsWith other = true → result.1.isKnown other = false) →
          .unresolvedReference reader.render target.render ∈ result.1.errors.atPath reader

section Deleted

variable {value : Value} {reader target path : Path} (hc : session.Coherent)
  (hevent : diff.event = .delete)
  (he : session.tree.entity? diff.target.entity = some entity) (hr : entity.reactive = true)
  (hvalue : session.tree.get? diff.target = some value) (tree : Tree)

include hc hevent he hr hvalue

theorem mem_readersOfRemoved_delete (reader : Path) :
    reader ∈ (session.apply tree [diff]).2.readersOfRemoved ↔
      reader ∉ session.tree.lost entity diff.target ∧
        ∃ target ∈ session.tree.lost entity diff.target,
          session.graph.DependsOn reader target := by
  have hreaders : (session.apply tree [diff]).2.readersOfRemoved =
      (session.batchOf tree [diff]).readersOfRemoved.toList := rfl
  rw [hreaders, OrderedSet.mem_toList, batchOf_delete hevent he hr, Batch.dropGoneReaders,
    OrderedSet.mem_filter, Batch.contains_onDelete (by exact hc.consistent),
    Batch.readersOfRemoved_onDelete, OrderedSet.mem_insertMany, OrderedSet.mem_toList,
    Batch.mem_readersOutside (by exact hc.consistent), Batch.gone_eq_lost hvalue]
  constructor
  · rintro ⟨hn | ⟨hout, target, ht, hd⟩, _⟩
    · exact absurd hn (OrderedSet.not_mem_empty reader)
    · exact ⟨hout, target, ht, hc.consistent.mem_dependencies.mpr hd⟩
  · rintro ⟨hout, target, ht, hd⟩
    obtain ⟨i, j, hi, hread, hj⟩ := hc.consistent.mem_dependencies.mp hd
    exact ⟨Or.inr ⟨hout, target, ht, i, j, hi, hread, hj⟩,
      hc.consistent.contains_iff.mpr ⟨i, hi⟩, hout⟩

omit hc in
theorem graph_apply_delete : ∃ paths,
    (∀ path, path ∈ paths ↔ path ∈ session.tree.lost entity diff.target) ∧
      (session.apply tree [diff]).1.graph = (session.graph.removeNodes paths).1 := by
  refine ⟨Batch.removedSetters entity diff.target ++ Batch.removedPaths session.tree diff.target,
    fun path => ?_, ?_⟩
  · rw [← Batch.gone_eq_lost hvalue, Batch.gone, List.mem_append, List.mem_append, or_comm]
  · rw [graph_apply, batchOf_delete hevent he hr]
    exact Batch.graph_onDelete_eq

theorem contains_delete (hp : path ∈ session.tree.lost entity diff.target) :
    (session.apply tree [diff]).1.graph.contains path = false := by
  obtain ⟨paths, hlost, hgraph⟩ := graph_apply_delete hevent he hr hvalue tree
  rw [hgraph, Bool.eq_false_iff, ne_eq, hc.consistent.contains_removeNodes]
  exact fun hn => hn.2 ((hlost path).mpr hp)

theorem mem_dependencies_delete (hout : reader ∉ session.tree.lost entity diff.target)
    (target : Path) : target ∈ (session.apply tree [diff]).1.graph.dependencies reader ↔
      target ∈ session.graph.dependencies reader ∧
        target ∉ session.tree.lost entity diff.target := by
  obtain ⟨paths, hlost, hgraph⟩ := graph_apply_delete hevent he hr hvalue tree
  rw [hgraph, hc.consistent.mem_dependencies_removeNodes (mt (hlost reader).mp hout), hlost]

-- What is lost is waited for, except by the container of it.
theorem mem_pendingOf_delete (hout : reader ∉ session.tree.lost entity diff.target)
    (target : Path) : target ∈ (session.apply tree [diff]).1.graph.pendingOf reader ↔
      target ∈ session.graph.pendingOf reader ∨
        target ∈ session.tree.lost entity diff.target ∧ target.isChildOf reader = false ∧
          target ∈ session.graph.dependencies reader := by
  obtain ⟨paths, hlost, hgraph⟩ := graph_apply_delete hevent he hr hvalue tree
  rw [hgraph, hc.consistent.mem_pendingOf_removeNodes (mt (hlost reader).mp hout), hlost]

theorem unresolved_delete (hplain : session.graph.DeclaresPlainly)
    (hreport : session.config.reportUnresolved = true)
    (hreader : reader ∉ session.tree.lost entity diff.target)
    (htarget : target ∈ session.tree.lost entity diff.target)
    (hd : session.graph.DependsOn reader target)
    (hpending : target ∈ (session.apply tree [diff]).1.graph.pendingOf reader)
    (hknown : ∀ other, target.startsWith other = true →
      (session.apply tree [diff]).1.isKnown other = false) :
    .unresolvedReference reader.render target.render ∈
      (session.apply tree [diff]).1.errors.atPath reader := by
  have hdiff : diff.target.Plain := Path.plain_parseLenient diff.path
  simp only [graph_apply, batchOf_delete hevent he hr] at hpending
  simp only [isKnown, keys_apply, batchOf_delete hevent he hr] at hknown
  refine mem_errors_apply ?_ rfl
  rw [batchOf_delete hevent he hr]
  rw [← Batch.gone_eq_lost hvalue] at hreader htarget
  have hown := hplain.plain hc.consistent hd (Batch.plain_of_mem_gone hdiff target htarget)
  refine Batch.unresolved_mem_onDelete hreport hdiff ?_ hreader hown htarget hpending
    (Batch.isKnownOrBelow_eq_false hknown)
  exact (Batch.mem_readersOutside hc.consistent).mpr
    ⟨hreader, target, htarget, hc.consistent.mem_dependencies.mp hd⟩

end Deleted

-- After any history, a deletion of a path that is there reports and keeps those
-- who read what is lost.
theorem keepsReaders_deleted (config : Config) (cache : Binding.Cache) (first tree : Tree)
    (actions : List Action) (diff : Diff) (entity : Entity)
    (hplain : ∀ seen ∈ visited first actions, seen.Plain) (hevent : diff.event = .delete) :
    let session := (start config cache first).after actions
    session.tree.entity? diff.target.entity = some entity → entity.reactive = true →
      (session.tree.get? diff.target).isSome = true →
        session.KeepsReaders (session.tree.lost entity diff.target)
          (session.apply tree [diff]) := by
  intro session he hr hthere
  have hcoherent : session.Coherent := (coherent_start config cache first).after actions
  have hdeclares : session.graph.DeclaresPlainly := declaresPlainly_after config cache hplain
  obtain ⟨value, hvalue⟩ := Option.isSome_iff_exists.mp hthere
  clear_value session
  have hreaders := mem_readersOfRemoved_delete hcoherent hevent he hr hvalue tree
  have hdepends := fun reader (hreader : reader ∈ (session.apply tree [diff]).2.readersOfRemoved) =>
    mem_dependencies_delete hcoherent hevent he hr hvalue tree ((hreaders reader).mp hreader).1
  have hpending := fun reader (hreader : reader ∈ (session.apply tree [diff]).2.readersOfRemoved) =>
    mem_pendingOf_delete hcoherent hevent he hr hvalue tree ((hreaders reader).mp hreader).1
  constructor
  case reported => exact hreaders
  case once => exact (session.batchOf tree [diff]).readersOfRemoved.nodup
  case gone => exact fun path hp => contains_delete hcoherent hevent he hr hvalue tree hp
  case declared =>
    intro reader hreader target hchild
    simp only [Graph.declared, List.mem_append, hdepends reader hreader, hpending reader hreader,
      hchild, true_and]
    tauto
  case children =>
    intro reader hreader target
    simp only [Graph.declared, List.mem_append, hdepends reader hreader, hpending reader hreader]
    tauto
  case pending =>
    intro reader hreader target ht hd hchild
    exact (hpending reader hreader target).mpr (Or.inr ⟨ht, hchild, hd⟩)
  case unresolved =>
    intro hreport reader hreader target ht hd hchild hknown
    exact unresolved_delete hcoherent hevent he hr hvalue tree hdeclares hreport
      ((hreaders reader).mp hreader).1 ht hd
      ((hpending reader hreader target).mpr (Or.inr ⟨ht, hchild, hd⟩)) hknown

-- An action goes that a label reads.
theorem keepsReaders_api :
    let text := "{{ Api.data }}"
    let session := (start .standard (.ofCapacity 8) (labelled text)).after
      [.apply (supplied text) [.new "Api" api.value]]
    let result := session.apply (labelled text) [.delete "Api"]
    let reader : Path := ⟨"Label", [.key "text"]⟩
    let lost : List Path := [.ofEntity "Api", ⟨"Api", [.key "data"]⟩]
    result.2.readersOfRemoved = [reader] ∧
      result.1.graph.pendingOf reader = [⟨"Api", [.key "data"]⟩] ∧
      result.1.errors.atPath reader = [.unresolvedReference "Label.text" "Api.data"] ∧
      session.KeepsReaders lost result := by
  intro text session result reader lost
  have hplain : ∀ seen ∈ visited (labelled text) [.apply (supplied text) [.new "Api" api.value]],
      seen.Plain :=
    List.forall_mem_cons.mpr ⟨plain_labelled text,
      List.forall_mem_singleton.mpr (plain_supplied text)⟩
  have htarget : (Diff.delete "Api").target = .ofEntity "Api" := target_api .delete none
  have hentity : session.tree.entity? (Diff.delete "Api").target.entity = some api.normalize := by
    rw [htarget, show session.tree = supplied text from tree_apply _ _ _]
    rfl
  have hlost : session.tree.lost api.normalize (Diff.delete "Api").target = lost := by
    decide +kernel
  refine ⟨by decide +kernel, by decide +kernel, by decide +kernel, ?_⟩
  rw [← hlost]
  exact keepsReaders_deleted .standard (.ofCapacity 8) (labelled text) (labelled text)
    [.apply (supplied text) [.new "Api" api.value]] (.delete "Api") api.normalize hplain rfl
    hentity rfl (by decide +kernel)

end Session

end Recalc
