import Recalc.Proofs.Session.Parallel
import Recalc.Proofs.Session.Returning

namespace Recalc

open Binding (Dependencies)

namespace DependencyError

def isUnresolved (error : DependencyError) : Bool := decide (error.kind = .unresolvedReference)

-- Errors other than those of unresolved references.
def besides (errors : List DependencyError) : List DependencyError :=
  errors.filter (!·.isUnresolved)

theorem besides_append (errors others : List DependencyError) :
    besides (errors ++ others) = besides errors ++ besides others :=
  List.filter_append errors others

theorem besides_eq_self {errors : List DependencyError}
    (h : ∀ error ∈ errors, error.isUnresolved = false) : besides errors = errors :=
  List.filter_eq_self.mpr fun error he => by rw [h error he]; rfl

theorem besides_filter (keep : DependencyError → Bool) (errors : List DependencyError) :
    besides (errors.filter keep) = (besides errors).filter keep := by
  rw [besides, besides, List.filter_filter, List.filter_filter]
  refine List.filter_congr fun error _ => Bool.and_comm _ _

theorem not_isUnresolved_of_mem {errors : List DependencyError} :
    ∀ error ∈ besides errors, error.isUnresolved = false := fun _ he =>
  by simpa using (List.mem_filter.mp he).2

end DependencyError

open DependencyError (besides besides_append besides_eq_self besides_filter)

-- The paths that are read in a tree have texts of their own, whatever is known.
def Tree.ReadsApart (tree : Tree) : Prop :=
  ((tree.readPaths .standard fun _ => false).map Path.render).Nodup

namespace ErrorStore

variable {key : String}

-- The errors of one store are those of another one, besides unresolved
-- references.
def Besides (first second : ErrorStore) : Prop :=
  ∀ key, second.atKey key = besides (first.atKey key)

section Collecting

theorem entries_insert_of_not_mem {map : OrderedMap Path (List DependencyError)} {path : Path}
    {errors : List DependencyError} (h : path ∉ map.keys) :
    (map.insert path errors).entries = map.entries ++ [(path, errors)] := by
  have hput : ∀ entries : List (Path × List DependencyError), path ∉ entries.map Prod.fst →
      OrderedMap.put entries path errors = entries ++ [(path, errors)] := by
    intro entries h
    induction entries with
    | nil => rfl
    | cons entry rest ih =>
        rw [List.map_cons, List.mem_cons, not_or] at h
        rw [OrderedMap.put, if_neg (Ne.symm h.1), ih h.2]
        rfl
  exact hput map.entries h

-- Paths that are read once are listed in the order in which they are read.
theorem entries_collectErrors (readings : List (Path × Dependencies))
    (errors : OrderedMap Path (List DependencyError))
    (h : (errors.keys ++ readings.map Prod.fst).Nodup) :
    (collectErrors errors readings).entries = errors.entries ++
      (readings.filter fun reading => !reading.2.errors.isEmpty).map fun reading =>
        (reading.1, reading.2.errors) := by
  unfold collectErrors
  induction readings generalizing errors with
  | nil => exact (List.append_nil _).symm
  | cons reading rest ih =>
      rw [List.map_cons] at h
      obtain ⟨path, found⟩ := reading
      have hnew : path ∉ errors.keys := fun hin =>
        (List.disjoint_of_nodup_append h) hin List.mem_cons_self
      have hrest : (errors.keys ++ rest.map Prod.fst).Nodup :=
        h.sublist (List.Sublist.append_left (List.sublist_cons_self _ _) _)
      rw [List.foldl_cons]
      dsimp only
      split
      · next hempty =>
        rw [ih errors hrest, List.filter_cons_of_neg (by simp [hempty])]
      · next hne =>
        have hkeys : (errors.insert path found.errors).keys = errors.keys ++ [path] := by
          rw [OrderedMap.keys_insert, if_neg hnew]
        rw [ih (errors.insert path found.errors) (by rw [hkeys]; simpa using h),
          entries_insert_of_not_mem hnew, List.filter_cons_of_pos (by simp [hne])]
        simp

-- Entries whose paths have texts of their own do not replace one another.
theorem atKey_foldl_replaceExtraction (entries : List (Path × List DependencyError))
    (store : ErrorStore) (h : (entries.map fun entry => entry.1.render).Nodup)
    (hstore : key ∈ entries.map (fun entry => entry.1.render) → store.atKey key = []) :
    (entries.foldl (fun store entry => store.replaceExtraction entry.1 entry.2) store).atKey key =
      store.atKey key ++
        (entries.filter fun entry => decide (entry.1.render = key)).flatMap Prod.snd := by
  induction entries generalizing store with
  | nil => exact (List.append_nil _).symm
  | cons entry rest ih =>
      obtain ⟨path, errors⟩ := entry
      obtain ⟨hnew, hrest⟩ := List.nodup_cons.mp h
      rw [List.foldl_cons]
      by_cases hkey : path.render = key
      · subst hkey
        rw [ih _ hrest fun hin => absurd hin hnew, atKey_replaceExtraction, if_pos rfl,
          hstore List.mem_cons_self, List.filter_cons_of_pos (by simp)]
        rfl
      · have hsame : (store.replaceExtraction path errors).atKey key = store.atKey key := by
          rw [atKey_replaceExtraction, if_neg (Ne.symm hkey)]
        rw [ih _ hrest fun hin => hsame.trans (hstore (List.mem_cons_of_mem _ hin)), hsame,
          List.filter_cons_of_neg (by simpa using hkey)]

-- Readings without errors add nothing.
theorem flatMap_listed (readings : List (Path × Dependencies)) (key : String) :
    (((readings.filter fun reading => !reading.2.errors.isEmpty).map fun reading =>
        (reading.1, reading.2.errors)).filter fun entry =>
          decide (entry.1.render = key)).flatMap Prod.snd =
      (readings.filter fun reading => decide (reading.1.render = key)).flatMap (·.2.errors) := by
  induction readings with
  | nil => rfl
  | cons reading rest ih =>
      by_cases hempty : reading.2.errors = []
      · rw [List.filter_cons_of_neg (by simp [hempty]), ih, List.filter_cons]
        split
        · rw [List.flatMap_cons, hempty, List.nil_append]
        · rfl
      · rw [List.filter_cons_of_pos (by simp [hempty]), List.map_cons, List.filter_cons,
          List.filter_cons]
        split
        · rw [List.flatMap_cons, List.flatMap_cons, ih]
        · exact ih

theorem atKey_ofReadings {readings : List (Path × Dependencies)}
    (h : ((readings.map Prod.fst).map Path.render).Nodup) :
    (ofReadings readings).atKey key =
      (readings.filter fun reading => decide (reading.1.render = key)).flatMap (·.2.errors) := by
  have hentries : (collectErrors ∅ readings).entries =
      (readings.filter fun reading => !reading.2.errors.isEmpty).map fun reading =>
        (reading.1, reading.2.errors) :=
    entries_collectErrors readings ∅ (List.Nodup.of_map _ h)
  have hlisted : ((collectErrors ∅ readings).entries.map fun entry => entry.1.render).Nodup := by
    rw [List.map_map] at h
    rw [hentries, List.map_map]
    exact h.sublist (List.filter_sublist.map _)
  unfold ofReadings
  rw [atKey_foldl_replaceExtraction _ _ hlisted fun _ => rfl, hentries, flatMap_listed]
  rfl

end Collecting

section Besides

variable {first second : ErrorStore} {path : Path}

theorem Besides.replaceExtraction (h : Besides first second) (path : Path)
    (errors : List DependencyError) :
    Besides (first.replaceExtraction path errors)
      (second.replaceExtraction path (besides errors)) := by
  intro key
  rw [atKey_replaceExtraction, atKey_replaceExtraction, h key]
  split
  · rw [besides_append, besides_filter]
  · rfl

theorem Besides.retain (h : Besides first second) (keep : DependencyError → Bool) :
    Besides (first.retain keep) (second.retain keep) := by
  intro key
  rw [atKey_retain, atKey_retain, h key, besides_filter]

theorem Besides.clearPath (h : Besides first second) (path : Path) :
    Besides (first.clearPath path) (second.clearPath path) := by
  intro key
  rw [atKey_clearPath, atKey_clearPath, h key]
  split <;> rfl

theorem Besides.replaceCycles (h : Besides first second) (cycles : List (List Path)) :
    Besides (first.replaceCycles cycles) (second.replaceCycles cycles) := by
  intro key
  have hcycles : besides (cycleErrors cycles key) = cycleErrors cycles key :=
    besides_eq_self fun error he => by
      have hcycle := of_decide_eq_true (isCycle_of_mem_cycleErrors error he)
      rw [DependencyError.isUnresolved, hcycle]
      rfl
  rw [atKey_replaceCycles, atKey_replaceCycles, h key, besides_append, besides_filter, hcycles]

theorem Besides.recordEvaluation (h : Besides first second) (path : Path)
    (messages : List String) :
    Besides (first.recordEvaluation path messages) (second.recordEvaluation path messages) := by
  intro key
  have hnew : besides (messages.map (DependencyError.evaluation path.render ·)) =
      messages.map (DependencyError.evaluation path.render ·) :=
    besides_eq_self fun error he => by
      obtain ⟨_, _, rfl⟩ := List.mem_map.mp he
      rfl
  unfold ErrorStore.recordEvaluation
  rw [atKey_append, atKey_append, atKey_retainAt, atKey_retainAt, h key]
  split
  · rw [besides_append, besides_filter, hnew]
  · rfl

-- Flags are errors of unresolved references.
theorem Besides.flagReaders (h : Besides first second) (keys : Keys) (graph : Graph)
    (gone readers : List Path) :
    Besides (readers.foldl (Batch.flagReader keys graph gone) first) second := by
  refine List.foldlRecOn readers _ (motive := fun now : ErrorStore => Besides now second) h
    fun now hnow reader _ key => ?_
  rw [hnow key]
  exact (Batch.filter_flagReader fun _ _ _ => rfl).symm

end Besides

end ErrorStore

section Switch

variable (config : Config)

def reporting : Config := { config with reportUnresolved := true }

def unreporting : Config := { config with reportUnresolved := false }

-- What two builds collect.
theorem ErrorStore.besides_ofReadings {readings others : List (Path × Dependencies)}
    (h : List.Forall₂ (fun reading other => other.1 = reading.1 ∧
      Binding.Alike (fun errors others => others = besides errors) reading.2 other.2)
        readings others)
    (ha : ((readings.map Prod.fst).map Path.render).Nodup) :
    Besides (ofReadings readings) (ofReadings others) := by
  have hpaths : others.map Prod.fst = readings.map Prod.fst := by
    clear ha
    induction h with
    | nil => rfl
    | cons hreading _ ih => rw [List.map_cons, List.map_cons, hreading.1, ih]
  intro key
  rw [atKey_ofReadings ha, atKey_ofReadings (hpaths ▸ ha)]
  clear ha hpaths
  induction h with
  | nil => rfl
  | cons hreading _ ih =>
      rw [List.filter_cons, List.filter_cons, hreading.1]
      split
      · rw [List.flatMap_cons, List.flatMap_cons, besides_append, ih, hreading.2.errors]
      · exact ih

theorem any_isSelfReference_besides (errors : List DependencyError) :
    (besides errors).any Binding.isSelfReference = errors.any Binding.isSelfReference := by
  rw [besides, List.any_filter]
  congr 1
  funext error
  cases error <;> rfl

-- A reference is chosen alike, whether or not it is reported.
theorem alike_addReference (known : Path → Bool) (path : Path) (reference : Binding.Reference)
    {found other : Dependencies}
    (h : Binding.Alike (fun errors others => others = besides errors) found other) :
    Binding.Alike (fun errors others => others = besides errors)
      (Binding.addReference (reporting config) known path found reference)
      (Binding.addReference (unreporting config) known path other reference) := by
  obtain ⟨references, errors⟩ := other
  obtain ⟨rfl, rfl⟩ := h
  have hchosen : Binding.chosen (unreporting config) known reference =
      Binding.chosen (reporting config) known reference := rfl
  constructor
  · rw [Binding.references_addReference, Binding.references_addReference, hchosen]
  · have hsilent : Binding.unresolvedErrors (unreporting config) known path reference = [] := by
      refine List.eq_nil_iff_forall_not_mem.mpr fun error he => ?_
      obtain ⟨_, _, hreport, _⟩ := Binding.mem_unresolvedErrors.mp he
      cases hreport
    have hloud : besides (Binding.unresolvedErrors (reporting config) known path reference) =
        [] := by
      refine List.filter_eq_nil_iff.mpr fun error he => ?_
      obtain ⟨_, _, _, rfl⟩ := Binding.mem_unresolvedErrors.mp he
      exact Bool.false_ne_true
    have hself (holds : Bool) : besides (if holds then [.selfReference path.render] else []) =
        if holds then [.selfReference path.render] else [] := by cases holds <;> rfl
    rw [Binding.errors_addReference, Binding.errors_addReference, besides_append, besides_append,
      hsilent, hloud, hself, any_isSelfReference_besides]
    rfl

theorem alike_resolve (known : Path → Bool) (path : Path) (parsed : Binding.Parsed) :
    Binding.Alike (fun errors others => others = besides errors)
      (Binding.resolve (reporting config) known path parsed)
      (Binding.resolve (unreporting config) known path parsed) := by
  unfold Binding.resolve
  refine List.foldl_rel (r := Binding.Alike fun errors others => others = besides errors)
    ⟨rfl, ?_⟩ fun reference _ _ _ h => alike_addReference config known path reference h
  refine (besides_eq_self fun error he => ?_).symm
  obtain ⟨_, _, rfl⟩ := List.mem_map.mp he
  rfl

-- Nothing but errors of unresolved references depends on whether these are
-- reported.
theorem parallel_reporting :
    Parallel (reporting config) (unreporting config) ErrorStore.Besides
      (fun errors others => others = besides errors)
      (fun paths => (paths.map Path.render).Nodup) where
  functions := rfl
  parentEdges := rfl
  resolve := alike_resolve config
  nil := rfl
  append h k := by rw [h, k, besides_append]
  ofReadings h ha := ErrorStore.besides_ofReadings h ha
  replaceExtraction h k path := k ▸ h.replaceExtraction path _
  resolveReference h path := h.retain _
  flagReaders h keys graph gone readers := h.flagReaders keys graph gone readers
  clearPath h path := h.clearPath path
  replaceCycles h cycles := h.replaceCycles cycles
  recordEvaluation h path messages := h.recordEvaluation path messages

end Switch

section Apart

variable {tree : Tree}

theorem Tree.ReadsApart.readings (h : tree.ReadsApart) (config : Config) :
    (((Built.readings config tree).map Prod.fst).map Path.render).Nodup := by
  have hpaths : (Built.readings config tree).map Prod.fst =
      tree.readPaths .standard fun _ => false := by
    rw [Built.readings, Tree.readPaths, List.map_flatMap]
    exact List.flatMap_congr fun entry _ => Binding.keys_readings_congr rfl
  rw [hpaths]
  exact h

-- Entities of plain names are read at paths of their own.
theorem Tree.Plain.readsApart (h : tree.Plain) : tree.ReadsApart := by
  have hentity : ∀ entry ∈ tree.entities.entries, ∀ path ∈
      (Binding.readings .standard (fun _ => false) entry.1 entry.2).keys, path.entity = entry.1 :=
    fun entry he path hp => Binding.entity_of_mem_readings (h _ (List.mem_map_of_mem he)) hp
  have hplain : ∀ path ∈ tree.readPaths .standard (fun _ => false), path.Plain := by
    intro path hp
    obtain ⟨entry, he, hkey⟩ := List.mem_flatMap.mp hp
    rw [Path.Plain, hentity entry he path hkey]
    exact h _ (List.mem_map_of_mem he)
  refine List.Nodup.map_on (fun path hp other ho he =>
    Path.render_inj (hplain path hp) (hplain other ho) he) ?_
  refine List.nodup_flatMap.mpr ⟨fun entry _ => OrderedMap.nodup _, ?_⟩
  have hnames : tree.entities.entries.Pairwise fun first second => first.1 ≠ second.1 :=
    List.pairwise_map.mp tree.entities.nodup
  refine hnames.imp_of_mem fun hfirst hsecond hne path hp ho => hne ?_
  exact (hentity _ hfirst path hp).symm.trans (hentity _ hsecond path ho)

end Apart

namespace Session

open ErrorStore (Besides)

-- After any history, a session that does not report unresolved references is
-- the session that does, but for these errors, and so is the next update.
theorem unreported_same (config : Config) (cache other : Binding.Cache) (first : Tree)
    (actions : List Action) (hfirst : first.ReadsApart)
    (hresets : ∀ tree, .reset tree ∈ actions → tree.ReadsApart) :
    let loud := (start (reporting config) cache first).after actions
    let silent := (start (unreporting config) other first).after actions
    silent.tree = loud.tree ∧ silent.graph = loud.graph ∧ silent.keys = loud.keys ∧
      silent.sorted = loud.sorted ∧
      (∀ path, silent.errors.atPath path = besides (loud.errors.atPath path)) ∧
      (∀ error ∈ silent.errors.toList, error.isUnresolved = false) ∧
      ∀ tree diffs, (silent.apply tree diffs).2 = { (loud.apply tree diffs).2 with
          errors := besides (loud.apply tree diffs).2.errors } ∧
        ∀ error ∈ (silent.apply tree diffs).2.errors, error.isUnresolved = false := by
  intro loud silent
  have p := parallel_reporting config
  have hafter : Alike (reporting config) (unreporting config) Besides loud silent :=
    p.after (p.start cache other (hfirst.readings _)) actions fun tree ht =>
      (hresets tree ht).readings _
  obtain ⟨htree, hgraph, hkeys, hsorted, herrors⟩ := hafter.same
  have hsilent : ∀ error ∈ silent.errors.toList, error.isUnresolved = false := by
    intro error he
    obtain ⟨key, he⟩ := ErrorStore.mem_toList_iff.mp he
    rw [herrors key] at he
    exact DependencyError.not_isUnresolved_of_mem error he
  refine ⟨htree, hgraph, hkeys, hsorted, fun path => herrors path.render, hsilent, ?_⟩
  intro tree diffs
  obtain ⟨hsame, hraised⟩ := (p.apply hafter tree diffs).2.same
  refine ⟨hraised ▸ hsame, fun error he => ?_⟩
  rw [hraised] at he
  exact DependencyError.not_isUnresolved_of_mem error he

section Shadowed

theorem readsApart_labelled (text : String) : (labelled text).ReadsApart :=
  (plain_labelled text).readsApart

-- A label reads what does not exist.
theorem unreported_label :
    let tree := labelled "{{ Api.data }}"
    let path := Path.parseLenient "Label.text"
    let loud := (start (reporting .standard) (.ofCapacity 1) tree).after [.reset tree]
    let silent := (start (unreporting .standard) (.ofCapacity 1) tree).after [.reset tree]
    tree.ReadsApart ∧ loud.errors.atPath path = [.unresolvedReference "Label.text" "Api.data"] ∧
      silent.errors.atPath path = [] ∧ silent.graph = loud.graph := by
  intro tree path loud silent
  have hloud : loud.errors.atPath path = [.unresolvedReference "Label.text" "Api.data"] := by
    decide +kernel
  have hapart : tree.ReadsApart := readsApart_labelled "{{ Api.data }}"
  obtain ⟨_, hgraph, _, _, herrors, _, _⟩ := unreported_same .standard (.ofCapacity 1)
    (.ofCapacity 1) tree [.reset tree] hapart fun other ho => by
      obtain rfl := Action.reset.inj (List.mem_singleton.mp ho)
      exact hapart
  refine ⟨hapart, hloud, ?_, hgraph⟩
  rw [herrors path, hloud]
  rfl

-- Two entities that are read at one path. The first one reads itself there,
-- the second one what does not exist.
def shadowed : Tree :=
  let holding (text : String) : Value := .obj [("b", .obj [("c", .str text)])]
  ((∅ : Tree).insert "A" ((Entity.ofKind .widget (holding "{{ A.b.c }}")).withBindings
    ["b.c"])).insert "A.b" ((Entity.ofKind .widget (holding "{{ Missing.x }}")).withBindings ["c"])

-- A build that reports nothing for the second entity keeps the error of the
-- first one.
theorem kept_self_reference :
    let path := Path.parseLenient "A.b.c"
    (start (reporting .standard) (.ofCapacity 1) shadowed).errors.atPath path =
        [.unresolvedReference "A.b.c" "Missing.x"] ∧
      (start (unreporting .standard) (.ofCapacity 1) shadowed).errors.atPath path =
        [.selfReference "A.b.c"] := by
  decide +kernel

end Shadowed

end Session

end Recalc
