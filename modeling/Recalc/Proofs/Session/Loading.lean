import Recalc.Proofs.Session.Entering
import Recalc.Proofs.Session.Forward

namespace Recalc

namespace Batch

variable {config : Config} {former tree : Tree} {batch : Batch} {entity : Entity}
  {name : String} {names : List String} {keys : Keys} {diff : Diff} {diffs : List Diff}

namespace Lacks

-- A batch that lacks an entity misses it. What is lacking is not reported, so
-- there is nothing to resolve once it comes.
theorem misses (h : Lacks config tree (name :: names) batch) (hplain : tree.Plain) :
    Misses config tree names name (Built.yields config tree (name :: names)) batch := by
  refine ⟨h.consistent, h.cache, h.kinds, h.wired, fun path => ?_,
    h.reported.congr (h.reported.atKey_foldl_resolveReference fun path _ => ?_), fun path hp => ?_⟩
  · rw [h.keys]
    exact or_iff_left_of_imp Tree.mem_knownPaths_of_mem_keyPaths
  · exact Built.unnamed_yields (fun _ => hplain.of_mem_keyPaths) fun _ =>
      Tree.mem_knownPaths_of_mem_keyPaths
  · by_cases hown : path.entity = name
    · rw [Built.yields_of_none (hp hown), Built.yields_of_none (hp hown)]
    · exact Built.yields_cons hown

-- An entity outside the graph brings nothing.
theorem outside (h : Lacks config tree (name :: names) batch)
    (he : tree.entity? name = some entity) (hr : entity.reactive = false)
    (ha : name ∉ config.internalFunctions) : Lacks config tree names batch := by
  have hyields : Built.yields config tree (name :: names) = Built.yields config tree names := by
    funext path
    by_cases hown : path.entity = name
    · subst hown
      have hnone : Built.yielded config tree path = none := Tree.yielded_of_not_reactive he hr
      rw [Built.yields_of_none hnone, Built.yields_of_none hnone]
    · exact Built.yields_cons hown
  refine ⟨h.consistent, h.cache, fun path => ?_, hyields ▸ h.wired, h.keys, hyields ▸ h.reported⟩
  rw [h.kinds]
  by_cases hown : path.entity = name
  · subst hown
    rw [if_pos List.mem_cons_self,
      Tree.nodeKind_of_not_reactive (Binding.Cache.sound_ofCapacity _) he hr ha, ite_self]
  · simp [hown]

-- A batch on the empty tree lacks all entities, once what is to come is known.
theorem outset (h : Lacks config ∅ [] batch) (happart : tree.Apart config)
    (hnames : ∀ name, name ∈ names ↔ name ∈ tree.names)
    (hkeys : ∀ path, path ∈ keys ↔ path ∈ tree.knownPaths config) :
    Lacks config tree names { batch with keys } := by
  have hout : ∀ {path : Path}, path.entity ∉ names → tree.entity? path.entity = none :=
    fun hn => Option.not_isSome_iff_eq_none.mp fun hsome =>
      hn ((hnames _).mpr (OrderedMap.mem_keys_iff.mpr (Option.isSome_iff_exists.mp hsome)))
  have hyields : Built.yields config ∅ [] = Built.yields config tree names := by
    funext path
    rw [Built.yields_of_none (show Built.yielded config ∅ path = none from rfl)]
    by_cases hn : path.entity ∈ names
    · rw [Built.yields_of_mem hn]
    · refine (Built.yields_of_none ?_).symm
      rw [Built.yielded, Tree.yielded, hout hn, Option.bind_none]
  refine ⟨h.consistent, h.cache, fun path => ?_, hyields ▸ h.wired, hkeys, hyields ▸ h.reported⟩
  have hs := Binding.Cache.sound_ofCapacity config.cacheCapacity
  rw [h.kinds, if_neg List.not_mem_nil, Tree.nodeKind_of_none hs rfl]
  by_cases hn : path.entity ∈ names
  · -- No entity of the tree goes by the name of a function.
    have hfunction : path.entity ∉ config.internalFunctions := fun hf => by
      obtain ⟨entity, he⟩ := OrderedMap.mem_keys_iff.mp ((hnames _).mp hn)
      exact Option.some_ne_none entity (he.symm.trans (happart _ hf))
    rw [if_pos hn, if_neg (Tree.not_mem_functionPaths hfunction rfl)]
  · rw [if_neg hn, Tree.nodeKind_of_none hs (hout hn)]

end Lacks

section Load

variable (hlinks : ∀ kind, config.linksChildren kind = true) (hplain : tree.Plain)
  (hnamed : ∀ name ∈ tree.names, name ≠ "") (happart : tree.Apart config)
  (hbrought : ∀ path, ¬tree.Strays config path)

include hplain hnamed in
-- An event for a name of the tree is for the whole entity.
theorem target_of_mem_names (hm : diff.path ∈ tree.names) : diff.target = .ofEntity diff.path :=
  Path.parseLenient_of_plain (hnamed _ hm) (hplain _ hm)

include hlinks hplain hnamed happart hbrought

-- Each event brings the entity that it names.
theorem Lacks.applyDiff (h : Lacks config tree (diff.path :: names) batch)
    (hevent : diff.event = .new) (hm : diff.path ∈ tree.names) (hout : diff.path ∉ names) :
    Lacks config tree names (Batch.applyDiff config former tree batch diff) := by
  have htarget := target_of_mem_names hplain hnamed hm
  obtain ⟨entity, he⟩ : ∃ entity, tree.entity? diff.path = some entity :=
    OrderedMap.mem_keys_iff.mp hm
  have hapart : diff.path ∉ config.internalFunctions := fun hf =>
    Option.some_ne_none entity (he.symm.trans (happart _ hf))
  cases hr : entity.reactive with
  | true =>
      rw [applyDiff_new hevent htarget he hr]
      exact (h.misses hplain).comes ⟨he, hr, hapart, fun path _ => hbrought path⟩ hlinks
        diff.value hplain hout
  | false =>
      rw [applyDiff_new_outside hevent htarget he hr]
      exact h.outside he hr hapart

-- By induction on the events, with the names that are still to come.
theorem Lacks.foldl_applyDiff (h : Lacks config tree (diffs.map Diff.path) batch)
    (hevent : ∀ diff ∈ diffs, diff.event = .new)
    (hm : ∀ diff ∈ diffs, diff.path ∈ tree.names) (hnodup : (diffs.map Diff.path).Nodup) :
    Lacks config tree [] (diffs.foldl (Batch.applyDiff config former tree) batch) := by
  induction diffs generalizing batch with
  | nil => exact h
  | cons diff rest ih =>
      obtain ⟨hnew, hevent⟩ := List.forall_mem_cons.mp hevent
      obtain ⟨hthere, hm⟩ := List.forall_mem_cons.mp hm
      obtain ⟨hout, hnodup⟩ := List.nodup_cons.mp hnodup
      exact ih (h.applyDiff hlinks hplain hnamed happart hbrought hnew hthere hout) hevent hm hnodup

end Load

-- Without a deletion nothing is taken away before a reader.
theorem not_interrupts {path : Path} (h : ∀ diff ∈ diffs, diff.event = .new) :
    ¬Interrupts tree path diffs := by
  rintro ⟨front, gone, rest, rfl, hdelete, _⟩
  have hnew := h gone (List.mem_append_right _ List.mem_cons_self)
  rw [hdelete] at hnew
  cases hnew

end Batch

namespace Session

variable {config : Config} {tree : Tree} {session : Session} {diffs : List Diff} {name : String}
  {path : Path} {error : DependencyError}

section Loaded

variable (hplain : tree.Plain) (hnamed : ∀ name ∈ tree.names, name ≠ "")
  (hevent : ∀ diff ∈ diffs, diff.event = .new) (hperm : (diffs.map Diff.path).Perm tree.names)

include hplain hnamed hperm

theorem target_of_loads {diff : Diff} (hd : diff ∈ diffs) :
    diff.target = .ofEntity diff.path ∧ diff.path ∈ tree.names :=
  have hm := hperm.mem_iff.mp (List.mem_map_of_mem hd)
  ⟨Batch.target_of_mem_names hplain hnamed hm, hm⟩

include hevent

-- The events announce all that the tree brings.
theorem mem_registered : path ∈ diffs.foldl (Batch.registerKeys tree) session.keys ↔
    path ∈ session.keys ∨ path ∈ tree.keyPaths path.entity := by
  have htarget : ∀ diff ∈ diffs, diff.target = .ofEntity diff.path :=
    fun diff hd => (target_of_loads hplain hnamed hperm hd).1
  rw [Batch.mem_foldl_registerKeys fun diff hd _ => by rw [htarget diff hd]; rfl]
  refine or_congr Iff.rfl ⟨?_, fun hp => ?_⟩
  · rintro ⟨diff, _, _, hp⟩
    rwa [tree.allIn_keyPaths _ path hp]
  · obtain ⟨entity, he⟩ := Tree.exists_of_mem_keyPaths hp
    obtain ⟨diff, hd, hpath⟩ := List.mem_map.mp
      (hperm.mem_iff.mpr (OrderedMap.mem_keys_iff.mpr ⟨entity, he⟩))
    refine ⟨diff, hd, hevent diff hd, ?_⟩
    rw [htarget diff hd, hpath]
    exact hp

-- Nothing that comes is reported, whoever reads it first.
theorem not_namesReference_of_loads (h : session.Coherent) (hp : path ∈ tree.keyPaths name)
    (herror : error ∈ (session.apply tree diffs).2.errors) :
    ErrorStore.namesReference path.render error = false := by
  have hown : path ∈ tree.keyPaths path.entity := by rwa [tree.allIn_keyPaths name path hp]
  have hpath : path.Plain := hplain.of_mem_keyPaths hp
  refine Bool.eq_false_iff.mpr fun hnames => ?_
  rw [errors_apply] at herror
  rcases Batch.raised_foldl_applyDiff hpath hnames (by exact h.cache) herror with
    hr | hi | ⟨hk, _⟩
  · exact absurd hr List.not_mem_nil
  · exact Batch.not_interrupts hevent hi
  · exact hk ((mem_registered hplain hnamed hevent hperm).mpr (Or.inr hown))

-- The entities of a tree come into a session that has none.
theorem lacks_loading (h : session.toBatch.Lacks session.config ∅ [])
    (hlinks : ∀ kind, session.config.linksChildren kind = true)
    (happart : tree.Apart session.config) (hbrought : ∀ path, ¬tree.Strays session.config path) :
    (session.batchOf tree diffs).Lacks session.config tree [] := by
  have hstart : Batch.Lacks session.config tree (diffs.map Diff.path)
      { session.toBatch with
        keys := diffs.foldl (Batch.registerKeys tree) session.keys } := by
    refine h.outset happart (fun name => hperm.mem_iff) fun path => ?_
    rw [mem_registered hplain hnamed hevent hperm, Tree.mem_knownPaths, ← keys_toBatch, h.keys,
      Tree.mem_knownPaths]
    simp [Tree.not_mem_keyPaths (show (∅ : Tree).entity? path.entity = none from rfl), or_comm]
  exact (hstart.foldl_applyDiff hlinks hplain hnamed happart hbrought hevent
    (fun diff hd => (target_of_loads hplain hnamed hperm hd).2)
    (hperm.nodup_iff.mpr tree.entities.nodup)).dropGoneReaders

end Loaded

-- Loading a tree entity by entity, in any order, is building it. No reference
-- to what the tree holds is reported on the way.
theorem loaded (config : Config) (hlinks : ∀ kind, config.linksChildren kind = true)
    (hplain : tree.Plain) (hnamed : ∀ name ∈ tree.names, name ≠ "") (happart : tree.Apart config)
    (hbrought : ∀ path, ¬tree.Strays config path) (hevent : ∀ diff ∈ diffs, diff.event = .new)
    (hperm : (diffs.map Diff.path).Perm tree.names) :
    let update := (ofTree ∅ config).apply tree diffs
    Matches (ofTree tree config) update.1 ∧
      ∀ error ∈ update.2.errors, ∀ name, ∀ path ∈ tree.keyPaths name,
        ErrorStore.namesReference path.render error = false := by
  intro update
  have hl : config.linksAllChildren = true := List.all_eq_true.mpr fun kind _ => hlinks kind
  have hbuilt : (ofTree tree config).toBatch.Lacks config tree [] := lacks_start hl _ hplain
  have hwhole : (ofTree tree config).Coherent := coherent_start config _ tree
  have hempty : (ofTree ∅ config).Coherent := coherent_start config _ ∅
  have hconfig : (ofTree ∅ config).config = config := config_start config _ ∅
  have hstart : (ofTree ∅ config).toBatch.Lacks config ∅ [] :=
    lacks_start hl _ fun name hm => absurd hm List.not_mem_nil
  refine ⟨matches_of_lacks hwhole (hempty.apply tree diffs) hbuilt (lacks_apply ?_),
    fun error herror name path hp => ?_⟩
  · generalize ofTree ∅ config = session at hconfig hstart ⊢
    subst hconfig
    exact lacks_loading hplain hnamed hevent hperm hstart hlinks happart hbrought
  · exact not_namesReference_of_loads hplain hnamed hevent hperm hempty hp herror

-- Two labels that read each other, the later one first.
theorem loaded_backwards :
    let update := (ofTree ∅ .standard).apply mirrored
      [.new "Mirror" (.obj []), .new "Label" (.obj [])]
    Matches (ofTree mirrored .standard) update.1 ∧
      ∀ error ∈ update.2.errors, ∀ name, ∀ path ∈ mirrored.keyPaths name,
        ErrorStore.namesReference path.render error = false :=
  loaded .standard (fun kind => by cases kind <;> decide) plain_mirrored (by decide)
    (.of_isNone (by decide +kernel)) not_strays_mirrored (by simp [Diff.new])
    (.swap "Label" "Mirror" [])

end Session

end Recalc
