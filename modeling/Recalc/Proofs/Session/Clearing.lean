import Recalc.Proofs.Session.Invalidation
import Recalc.Proofs.Session.Removal
import Recalc.Proofs.Session.Upheld

namespace Recalc

-- Whether a batch deletes a path as a setter of its entity only, and not as a
-- path of the tree.
def Tree.LosesSetter (former : Tree) (diffs : List Diff) (path : Path) : Prop :=
  ∃ entity, former.entity? path.entity = some entity ∧
    path ∈ entity.config.setterPaths path.entity ∧ path ∉ former.entityPaths path.entity ∧
      ∃ diff ∈ diffs, diff.event = .delete ∧ diff.target = .ofEntity path.entity

namespace Batch

variable {config : Config} {former tree : Tree} {batch : Batch} {kind : Kind} {entity : Entity}
  {path target : Path} {diffs : List Diff} {key : String} {entries : List (Path × NodeKind)}

theorem plain_of_mem_gone (h : target.Plain) : ∀ other ∈ gone former entity target, other.Plain := by
  intro other ho
  refine Path.plain_of_entity_eq h ?_
  rcases List.mem_append.mp ho with hr | hs
  · exact allIn_removedPaths former target other hr
  · exact allIn_removedSetters entity target other hs

section Kept

-- A node that no deletion takes stays.
theorem upheld_contains (config : Config) (path : Path) :
    Upheld config fun batch => batch.graph.Consistent ∧ batch.graph.contains path = true where
  quiet hk h := h.graph ▸ hk
  grow kind entries hk :=
    ⟨consistent_grow hk.1 config kind entries, (contains_grow hk.1).mpr (Or.inl hk.2)⟩
  read kind entry hk :=
    ⟨consistent_applyReading hk.1 config kind entry.1 entry.2,
      (contains_applyReading hk.1).mpr (Or.inl hk.2)⟩

-- Deletions take plain paths alone.
theorem contains_applied_of_not_plain (hp : ¬path.Plain) (h : batch.graph.Consistent)
    (hn : batch.graph.contains path = true) :
    (batch.applied config former tree diffs).graph.contains path = true := by
  refine ((upheld_contains config path).applied (fun diff _ _ now entity _ hnow => ?_) ⟨h, hn⟩).2
  have htarget : diff.target.Plain := Path.plain_parseLenient diff.path
  refine ⟨consistent_move hnow.1 (.delete entity diff.target now htarget), ?_⟩
  exact (contains_onDelete hnow.1).mpr ⟨hnow.2, fun hg => hp (plain_of_mem_gone htarget path hg)⟩

end Kept

section Attended

-- Errors under a text are errors of a node with this text.
structure Attended (key : String) (batch : Batch) : Prop where
  consistent : batch.graph.Consistent
  node : batch.errors.atKey key ≠ [] →
    ∃ path, batch.graph.contains path = true ∧ path.render = key

theorem atKey_grow_ne_nil (h : (grow config kind entries batch).errors.atKey key ≠ []) :
    batch.errors.atKey key ≠ [] := by
  intro hnil
  refine h ?_
  unfold grow recordAdded
  split
  · exact hnil
  · dsimp only
    rw [ErrorStore.atKey_foldl_resolveReference, hnil, List.filter_nil]

theorem upheld_attended (config : Config) (key : String) : Upheld config (Attended key) where
  quiet {first second} hk h := by
    refine ⟨h.graph ▸ hk.consistent, fun hne => ?_⟩
    rw [h.errors] at hne
    rw [h.graph]
    exact hk.node hne
  grow {batch} kind entries hk := by
    refine ⟨consistent_grow hk.consistent config kind entries, fun hne => ?_⟩
    obtain ⟨path, hn, hr⟩ := hk.node (atKey_grow_ne_nil hne)
    exact ⟨path, (contains_grow hk.consistent).mpr (Or.inl hn), hr⟩
  read {batch} kind entry hk := by
    obtain ⟨path, found⟩ := entry
    refine ⟨consistent_applyReading hk.consistent config kind path found, fun hne => ?_⟩
    have hcontains : ∀ other, (applyReading config kind batch (path, found)).graph.contains other =
        true ↔ batch.graph.contains other = true ∨ other = path :=
      fun other => contains_applyReading hk.consistent
    by_cases hkey : path.render = key
    · exact ⟨path, (hcontains path).mpr (Or.inr rfl), hkey⟩
    · have hold : (batch.errors.replaceExtraction path found.errors).atKey key ≠ [] := hne
      rw [ErrorStore.atKey_replaceExtraction, if_neg (Ne.symm hkey)] at hold
      obtain ⟨other, hn, hr⟩ := hk.node hold
      exact ⟨other, (hcontains other).mpr (Or.inl hn), hr⟩

theorem atKey_foldl_flagReader_ne_nil {keys : Keys} {graph : Graph} {gone readers : List Path}
    {errors : ErrorStore} (h : (readers.foldl (flagReader keys graph gone) errors).atKey key ≠ []) :
    errors.atKey key ≠ [] ∨ ∃ reader ∈ readers, reader.render = key := by
  refine List.foldlRecOn readers _ (motive := fun now : ErrorStore => now.atKey key ≠ [] →
    errors.atKey key ≠ [] ∨ ∃ reader ∈ readers, reader.render = key) Or.inl
    (fun now hnow reader hreader hn => ?_) h
  refine List.foldlRecOn (graph.pendingOf reader) _ (motive := fun now : ErrorStore =>
    now.atKey key ≠ [] → errors.atKey key ≠ [] ∨ ∃ reader ∈ readers, reader.render = key) hnow
    (fun now hnow other _ hn => ?_) hn
  by_cases hkey : reader.render = key
  · exact Or.inr ⟨reader, hreader, hkey⟩
  · refine hnow ?_
    split at hn
    · unfold ErrorStore.flagUnresolved at hn
      dsimp only at hn
      split at hn
      · exact hn
      · rwa [ErrorStore.atKey_append, if_neg (Ne.symm hkey)] at hn
    · exact hn

-- A deletion gives errors to readers that stay, and takes them from all that it
-- removes as part of the tree.
theorem Attended.onDelete (h : Attended key batch)
    (hsetter : ∀ setter ∈ removedSetters entity target, setter.render = key →
      setter ∈ removedPaths former target) :
    Attended key (onDelete config former entity target batch) := by
  have hcontains : ∀ path, (Batch.onDelete config former entity target batch).graph.contains path =
      true ↔ batch.graph.contains path = true ∧ path ∉ gone former entity target :=
    fun path => contains_onDelete h.consistent
  refine ⟨?_, fun hne => ?_⟩
  · rw [onDelete_eq, graph_foldl_forget]
    exact consistent_deleted former entity target h.consistent
  · rw [onDelete_eq, errors_foldl_forget, ErrorStore.atKey_foldl_clearPath] at hne
    split at hne
    · exact absurd rfl hne
    · next hcleared =>
      have hflagged : batch.errors.atKey key ≠ [] ∨
          ∃ reader ∈ readersOutside batch.graph (gone former entity target),
            reader.render = key := by
        have hnow : (flagged config former entity target batch).atKey key ≠ [] := hne
        unfold flagged at hnow
        split at hnow
        · exact (atKey_foldl_flagReader_ne_nil hnow).imp_right fun ⟨reader, hr, hkey⟩ =>
            ⟨reader, OrderedSet.mem_toList.mp hr, hkey⟩
        · exact Or.inl hnow
      rcases hflagged with hold | ⟨reader, hr, hkey⟩
      · obtain ⟨path, hn, hkey⟩ := h.node hold
        refine ⟨path, (hcontains path).mpr ⟨hn, fun hg => hcleared ⟨path, ?_, hkey.symm⟩⟩, hkey⟩
        exact (List.mem_append.mp hg).elim id fun hs => hsetter path hs hkey
      · obtain ⟨hout, _, _, id, _, hid, _⟩ := (mem_readersOutside h.consistent).mp hr
        exact ⟨reader, (hcontains reader).mpr ⟨h.consistent.contains_iff.mpr ⟨id, hid⟩, hout⟩, hkey⟩

-- A setter that a batch deletes is cleared if it is a path of the tree too.
theorem mem_removedPaths_of_setter (hloses : ¬former.LosesSetter diffs path) {diff : Diff}
    (hd : diff ∈ diffs) (hevent : diff.event = .delete)
    (he : former.entity? diff.target.entity = some entity)
    (hs : path ∈ removedSetters entity diff.target) : path ∈ removedPaths former diff.target := by
  have hname : path.entity = diff.target.entity := allIn_removedSetters entity diff.target path hs
  unfold removedSetters at hs
  split at hs
  · next hwhole =>
    have htarget : diff.target = .ofEntity path.entity := by
      rw [hname]
      exact Path.eq_ofEntity hwhole
    rw [← hname] at he hs
    rw [htarget, removedPaths_ofEntity he]
    by_contra hout
    exact hloses ⟨entity, he, hs, hout, diff, hd, hevent, htarget⟩
  · exact absurd hs List.not_mem_nil

theorem Attended.applied (h : Attended path.render batch) (hp : path.Plain)
    (hloses : ¬former.LosesSetter diffs path) :
    Attended path.render (batch.applied config former tree diffs) := by
  refine (upheld_attended config path.render).applied (fun diff hd hevent now entity he hnow => ?_) h
  refine hnow.onDelete fun setter hs hkey => ?_
  have htarget : diff.target.Plain := Path.plain_parseLenient diff.path
  have hplain : setter.Plain :=
    Path.plain_of_entity_eq htarget (allIn_removedSetters entity diff.target setter hs)
  obtain rfl := Path.render_inj hplain hp hkey
  exact mem_removedPaths_of_setter hloses hd hevent he hs

end Attended

end Batch

namespace Session

variable {session : Session} {tree : Tree} {diffs : List Diff} {path : Path} {key : String}

-- Sorting gives errors to nodes only, so what has an error after an update has
-- had it before the nodes were sorted, or is a node.
theorem Coherent.atKey_apply_ne_nil (h : session.Coherent)
    (hne : (session.apply tree diffs).1.errors.atKey key ≠ []) :
    (session.batchOf tree diffs).errors.atKey key ≠ [] ∨
      ∃ path, (session.apply tree diffs).1.graph.contains path = true ∧ path.render = key := by
  obtain ⟨error, he⟩ := List.exists_mem_of_ne_nil _ hne
  by_cases hcycle : ErrorStore.isCycle error = true
  · have hin : error ∈ (session.apply tree diffs).1.errors.cyclesAt key :=
      List.mem_filter.mpr ⟨he, hcycle⟩
    rw [(h.apply tree diffs).cycles] at hin
    obtain ⟨cycle, hc, hin⟩ := List.mem_flatMap.mp hin
    obtain ⟨member, hm, _⟩ := List.mem_map.mp hin
    obtain ⟨hm, hkey⟩ := List.mem_filter.mp hm
    obtain ⟨_, id, hid⟩ := (h.apply tree diffs).member hc hm
    exact Or.inr ⟨member, Option.isSome_iff_exists.mpr ⟨id, hid⟩, of_decide_eq_true hkey⟩
  · refine Or.inl (List.ne_nil_of_mem (a := error) ?_)
    rw [fst_apply] at he
    split at he
    · rw [errors_sort, ErrorStore.atKey_replaceCycles] at he
      rcases List.mem_append.mp he with hold | hnew
      · exact (List.mem_filter.mp hold).1
      · exact absurd (ErrorStore.isCycle_of_mem_cycleErrors error hnew) hcycle
    · exact he

-- After any history, a node that is none after an update has no errors left,
-- unless the update has deleted it as a setter only. Errors are kept by text, so
-- no other node may go by the same text.
theorem cleared_deleted (config : Config) (cache : Binding.Cache) (first tree : Tree)
    (actions : List Action) (diffs : List Diff) (path : Path) :
    let session := (start config cache first).after actions
    let result := (session.apply tree diffs).1
    session.graph.contains path = true →
      (∀ other, result.graph.contains other = true → other.render ≠ path.render) →
        ¬session.tree.LosesSetter diffs path → result.errors.atPath path = [] := by
  intro session result hbefore hafter hloses
  have hcoherent : session.Coherent := (coherent_start config cache first).after actions
  have hgraph : result.graph = (session.batchOf tree diffs).graph := graph_apply session tree diffs
  have hplain : path.Plain := by
    by_contra hp
    refine hafter path ?_ rfl
    rw [hgraph]
    exact Batch.contains_applied_of_not_plain hp hcoherent.consistent hbefore
  have hstart : Batch.Attended path.render
      (Batch.start session.graph session.keys session.errors session.cache) :=
    ⟨hcoherent.consistent, fun _ => ⟨path, hbefore, rfl⟩⟩
  have hattended : Batch.Attended path.render ((Batch.start session.graph session.keys
      session.errors session.cache).applied session.config session.tree tree diffs) :=
    hstart.applied hplain hloses
  by_contra hne
  rcases hcoherent.atKey_apply_ne_nil hne with hbatch | ⟨other, hn, hr⟩
  · obtain ⟨other, hn, hr⟩ := hattended.node hbatch
    exact hafter other (hgraph ▸ hn) hr
  · exact hafter other hn hr

section Setter

-- A field whose value can be set, and a label that shows the value.
def field : Entity :=
  ((Entity.ofKind .widget (.obj [("value", .str "5")])).withBindings ["value"]).withSetter
    "setValue" "value"

def filled : Tree := (labelled "{{ Field.value }}").insert "Field" field

-- The value of the field has failed before the field is deleted.
theorem cleared_field_value :
    let value := Path.parseLenient "Field.value"
    let session := (start .standard (.ofCapacity 1) filled).after
      [.recordEvaluation value ["out of range"]]
    let result := (session.apply (labelled "{{ Field.value }}") [.delete "Field"]).1
    session.errors.atPath value = [.evaluation "Field.value" "out of range"] ∧
      session.graph.contains value = true ∧
      (∀ other, result.graph.contains other = true → other.render ≠ value.render) ∧
      ¬session.tree.LosesSetter [.delete "Field"] value ∧ result.errors.atPath value = [] := by
  intro value session result
  have hbefore : session.errors.atPath value = [.evaluation "Field.value" "out of range"] ∧
      session.graph.contains value = true := by decide +kernel
  have hloses : ¬session.tree.LosesSetter [.delete "Field"] value := by
    rintro ⟨_, _, _, hout, _⟩
    exact hout (by decide +kernel)
  have hpaths : ∀ other ∈ result.graph.paths, other.render ≠ value.render := by decide +kernel
  have hresult : result.Coherent :=
    ((coherent_start .standard (.ofCapacity 1) filled).after _).apply _ _
  have hafter : ∀ other, result.graph.contains other = true → other.render ≠ value.render := by
    intro other hn
    obtain ⟨_, hid⟩ := hresult.consistent.contains_iff.mp hn
    exact hpaths other (Graph.Consistent.mem_paths_of_path? hid)
  exact ⟨hbefore.1, hbefore.2, hafter, hloses,
    cleared_deleted .standard (.ofCapacity 1) filled (labelled "{{ Field.value }}")
      [.recordEvaluation value ["out of range"]] [.delete "Field"] value hbefore.2 hafter hloses⟩

-- The setter goes with the field, and its error stays.
theorem left_setter_error :
    let setter := Path.parseLenient "Field.setValue"
    let session := (start .standard (.ofCapacity 1) filled).after
      [.recordEvaluation setter ["read only"]]
    let result := (session.apply (labelled "{{ Field.value }}") [.delete "Field"]).1
    session.graph.contains setter = true ∧ result.graph.contains setter = false ∧
      result.errors.atPath setter = [.evaluation "Field.setValue" "read only"] := by
  decide +kernel

end Setter

end Session

end Recalc
