import Recalc.Binding.Extraction
import Recalc.Error.Store
import Recalc.Proofs.Binding.Cache
import Recalc.Proofs.Binding.Reference
import Recalc.Proofs.Binding.Resolution

namespace Recalc.Binding

variable {config : Config} {known : Path → Bool} {cache : Cache} {entity : Entity} {name : String}
  {path : Path}

-- What the binding at a path reads, without a cache.
def binding (config : Config) (known : Path → Bool) (entity : Entity) (path : Path) :
    Dependencies :=
  match entity.kind.capabilities.form, path.lookup entity.value with
  | some form, some (.str text) => resolve config known path (parse form text)
  | _, _ => ∅

theorem ofBinding_eq (config : Config) (known : Path → Bool) (entity : Entity) (path : Path)
    (h : cache.Sound) :
    (ofBinding config known cache entity path).1 = binding config known entity path ∧
      (ofBinding config known cache entity path).2.Sound := by
  unfold ofBinding binding
  generalize entity.kind.capabilities.form = form
  generalize path.lookup entity.value = found
  cases form with
  | none => exact ⟨rfl, h⟩
  | some form =>
      cases found with
      | none => exact ⟨rfl, h⟩
      | some value =>
          cases value with
          | str text => exact ⟨congrArg (resolve config known path) h.parse.1, h.parse.2⟩
          | null => exact ⟨rfl, h⟩
          | bool truth => exact ⟨rfl, h⟩
          | num number => exact ⟨rfl, h⟩
          | decimal negative digits exponent => exact ⟨rfl, h⟩
          | arr items => exact ⟨rfl, h⟩
          | obj members => exact ⟨rfl, h⟩

-- What a path reads, without a cache.
def reading (config : Config) (known : Path → Bool) (entity : Entity) (path : Path) :
    Dependencies :=
  addInternal entity path
    (if entity.config.isDynamic path.relative then binding config known entity path else ∅)

theorem ofPath_eq (config : Config) (known : Path → Bool) (entity : Entity) (path : Path)
    (h : cache.Sound) :
    (ofPath config known cache entity path).1 = reading config known entity path ∧
      (ofPath config known cache entity path).2.Sound := by
  unfold ofPath reading
  by_cases hd : entity.config.isDynamic path.relative = true
  · rw [if_pos hd, if_pos hd]
    exact ⟨congrArg (addInternal entity path) (ofBinding_eq config known entity path h).1,
      (ofBinding_eq config known entity path h).2⟩
  · rw [if_neg hd, if_neg hd]
    exact ⟨rfl, h⟩

def scan (config : Config) (known : Path → Bool) (name : String) (entity : Entity)
    (found : OrderedMap Path Dependencies) (relative : String) : OrderedMap Path Dependencies :=
  found.insert (Path.ofRelative name relative)
    (binding config known entity (Path.ofRelative name relative))

-- What the paths of an entity read, without a cache.
def readings (config : Config) (known : Path → Bool) (name : String) (entity : Entity) :
    OrderedMap Path Dependencies :=
  if entity.reactive then
    entity.config.internalDependencies.keys.foldl (deriveProperty name entity)
      (entity.config.scannedPaths.foldl (scan config known name entity) ∅)
  else ∅

theorem foldl_scanPath_eq (config : Config) (known : Path → Bool) (name : String)
    (entity : Entity) (relatives : List String) (found : OrderedMap Path Dependencies)
    (h : cache.Sound) :
    (relatives.foldl (scanPath config known name entity) (found, cache)).1 =
        relatives.foldl (scan config known name entity) found ∧
      (relatives.foldl (scanPath config known name entity) (found, cache)).2.Sound := by
  induction relatives generalizing found cache with
  | nil => exact ⟨rfl, h⟩
  | cons relative rest ih =>
      obtain ⟨he, hs⟩ := ofBinding_eq config known entity (Path.ofRelative name relative) h
      rw [List.foldl_cons, List.foldl_cons, scanPath, scan, ← he]
      exact ih _ hs

theorem ofEntity_eq (config : Config) (known : Path → Bool) (name : String) (entity : Entity)
    (h : cache.Sound) :
    (ofEntity config known cache name entity).1 = readings config known name entity ∧
      (ofEntity config known cache name entity).2.Sound := by
  unfold ofEntity readings
  split
  · obtain ⟨he, hs⟩ := foldl_scanPath_eq config known name entity entity.config.scannedPaths ∅ h
    exact ⟨by rw [← he], hs⟩
  · exact ⟨rfl, h⟩

-- What holds of a binding at a relative path and, where it holds, with the
-- properties that are derived, holds of all that an entity reads.
theorem forall_readings {motive : Path → Dependencies → Prop}
    (hbinding : ∀ relative, motive (Path.ofRelative name relative)
      (binding config known entity (Path.ofRelative name relative)))
    (hderived : ∀ relative found, found = ∅ ∨ motive (Path.ofRelative name relative) found →
      motive (Path.ofRelative name relative)
        (addInternal entity (Path.ofRelative name relative) found)) :
    ∀ entry ∈ (readings config known name entity).entries, motive entry.1 entry.2 := by
  unfold readings
  split
  · refine List.foldlRecOn _ (deriveProperty name entity)
      (motive := fun found : OrderedMap Path Dependencies =>
        ∀ entry ∈ found.entries, motive entry.1 entry.2)
      (List.foldlRecOn _ (scan config known name entity)
        (motive := fun found : OrderedMap Path Dependencies =>
          ∀ entry ∈ found.entries, motive entry.1 entry.2)
        (fun entry he => absurd he List.not_mem_nil) fun found hf relative _ => ?_)
      fun found hf relative _ => ?_
    · rintro ⟨path, at_⟩ he
      rcases OrderedMap.mem_entries_insert.mp he with ⟨rfl, rfl⟩ | ⟨_, hold⟩
      · exact hbinding relative
      · exact hf _ hold
    · rintro ⟨path, at_⟩ he
      rcases OrderedMap.mem_entries_insert.mp he with ⟨rfl, rfl⟩ | ⟨_, hold⟩
      · refine hderived relative _ ?_
        cases hget : found.get? (Path.ofRelative name relative) with
        | none => exact Or.inl rfl
        | some before => exact Or.inr (hf _ (OrderedMap.get?_eq_some_iff.mp hget))
      · exact hf _ hold
  · exact fun entry he => absurd he List.not_mem_nil

section Readable

-- What reading a path may find: other plain paths, and errors of its own.
structure Readable (found : Dependencies) : Prop where
  plain : ∀ target ∈ found.references, target.Plain
  extraction : ∀ error ∈ found.errors, error.isExtraction = true

theorem readable_empty : Readable ∅ :=
  ⟨fun target ht => absurd ht (OrderedSet.not_mem_empty target),
    fun _ he => absurd he List.not_mem_nil⟩

theorem plain_verbatim {reference : Reference} (h : reference.chain.Plain) :
    reference.verbatim.Plain := by
  unfold Reference.verbatim
  split
  · exact Path.plain_truncate h _
  · exact h

theorem plain_chosen {reference : Reference} {target : Path} {unresolved : Bool}
    (h : reference.chain.Plain) (hc : chosen config known reference = some (target, unresolved)) :
    target.Plain := by
  unfold chosen at hc
  split at hc
  · next found hfound =>
    cases hc
    obtain ⟨_, depth, _, rfl, _⟩ := longest_knownPrefix hfound
    exact Path.plain_truncate h depth
  · split at hc <;> cases hc
    exact plain_verbatim h

theorem Readable.addReference {found : Dependencies} {reference : Reference}
    (h : Readable found) (hr : reference.chain.Plain) :
    Readable (addReference config known path found reference) := by
  constructor
  · intro target ht
    rcases mem_references_addReference.mp ht with ht | ⟨_, _, hchosen⟩
    · exact h.plain target ht
    · exact plain_chosen hr hchosen
  · intro error he
    rcases mem_errors_addReference he with he | he | rfl
    · exact h.extraction error he
    · obtain ⟨_, _, _, rfl⟩ := mem_unresolvedErrors.mp he
      rfl
    · rfl

theorem readable_resolve {parsed : Parsed}
    (h : ∀ reference ∈ parsed.references, reference.chain.Plain) :
    Readable (resolve config known path parsed) := by
  refine List.foldlRecOn _ _ (motive := Readable) ⟨?_, ?_⟩
    fun found hf reference hr => hf.addReference (h reference hr)
  · exact fun target ht => absurd ht (OrderedSet.not_mem_empty target)
  · intro error he
    obtain ⟨_, _, rfl⟩ := List.mem_map.mp he
    rfl

theorem readable_binding : Readable (binding config known entity path) := by
  unfold binding
  split
  · exact readable_resolve (plain_parse _ _)
  · exact readable_empty

-- A path that is not plain reads no path of its entity's own name.
theorem plain_internalTargets {target : Path}
    (hp : path.Plain ∨ path.segments = []) (h : target ∈ internalTargets entity path) :
    target.Plain := by
  unfold internalTargets at h
  split at h
  · next targets _ =>
    obtain ⟨hm, hne⟩ := List.mem_filter.mp h
    obtain ⟨relative, _, rfl⟩ := List.mem_map.mp hm
    refine Path.plain_ofRelative relative fun hnil => ?_
    rcases hp with hp | hp
    · exact hp
    · have he : Path.ofRelative path.entity relative = path := by
        unfold Path.ofRelative
        rw [hnil]
        cases path
        cases hp
        rfl
      simp [he] at hne
  · exact absurd h List.not_mem_nil

theorem Readable.addInternal {found : Dependencies} (h : Readable found)
    (hp : path.Plain ∨ path.segments = []) : Readable (addInternal entity path found) := by
  refine ⟨fun target ht => ?_, h.extraction⟩
  rcases OrderedSet.mem_insertMany.mp ht with ht | ht
  · exact h.plain target ht
  · exact plain_internalTargets hp ht

theorem readable_reading (hp : path.Plain) : Readable (reading config known entity path) := by
  refine Readable.addInternal ?_ (Or.inl hp)
  split
  · exact readable_binding
  · exact readable_empty

theorem plain_or_entity_ofRelative (name relative : String) :
    (Path.ofRelative name relative).Plain ∨ (Path.ofRelative name relative).segments = [] := by
  unfold Path.ofRelative
  split
  · exact Or.inr rfl
  · exact Or.inl (Path.plain_parseLenient _)
  · exact Or.inl (Path.plain_parseLenient _)

theorem readable_readings :
    ∀ entry ∈ (readings config known name entity).entries, Readable entry.2 := by
  refine forall_readings (motive := fun _ found => Readable found) (fun _ => readable_binding)
    fun relative found hf => Readable.addInternal ?_ (plain_or_entity_ofRelative name relative)
  rcases hf with rfl | hf
  · exact readable_empty
  · exact hf

end Readable

section Unresolved

variable {target : Path} {found : Dependencies}

-- Errors that name as unresolved only what is not known.
def NamesUnknown (known : Path → Bool) (errors : List DependencyError) : Prop :=
  ∀ error ∈ errors, ∀ target : Path, target.Plain →
    ErrorStore.namesReference target.render error = true → known target = false

theorem namesUnknown_nil : NamesUnknown known [] := fun _ he => absurd he List.not_mem_nil

-- Other errors name nothing.
theorem NamesUnknown.append {errors others : List DependencyError} (h : NamesUnknown known errors)
    (ho : ∀ error ∈ others, ∀ name, ErrorStore.namesReference name error = false) :
    NamesUnknown known (errors ++ others) := by
  refine List.forall_mem_append.mpr ⟨h, fun error he target _ hn => ?_⟩
  rw [ho error he] at hn
  cases hn

theorem unknown_chosen {reference : Reference}
    (h : chosen config known reference = some (target, true)) : known target = false := by
  unfold chosen at h
  split at h
  · cases h
  · next hnone =>
    split at h <;> cases h
    obtain ⟨depth, hdepth, he⟩ := verbatim_eq_truncate reference
    rw [he]
    exact unknown_of_knownPrefix hnone depth hdepth

theorem NamesUnknown.addReference {reference : Reference} (h : NamesUnknown known found.errors)
    (hr : reference.chain.Plain) :
    NamesUnknown known (addReference config known path found reference).errors := by
  intro error he other ho hn
  rcases mem_errors_addReference he with he | he | rfl
  · exact h error he other ho hn
  · obtain ⟨target, hchosen, _, rfl⟩ := mem_unresolvedErrors.mp he
    have hrender : target.render = other.render := of_decide_eq_true hn
    rw [← Path.render_inj (plain_chosen hr hchosen) ho hrender]
    exact unknown_chosen hchosen
  · cases hn

theorem namesUnknown_binding : NamesUnknown known (binding config known entity path).errors := by
  unfold binding
  split
  · refine List.foldlRecOn _ _
      (motive := fun found : Dependencies => NamesUnknown known found.errors) ?_
      fun found hf reference hr => hf.addReference (plain_parse _ _ reference hr)
    refine namesUnknown_nil.append fun error he _ => ?_
    obtain ⟨_, _, rfl⟩ := List.mem_map.mp he
    rfl
  · exact namesUnknown_nil

theorem namesUnknown_reading : NamesUnknown known (reading config known entity path).errors := by
  unfold reading addInternal
  dsimp only
  split
  · exact namesUnknown_binding
  · exact namesUnknown_nil

theorem namesUnknown_readings :
    ∀ entry ∈ (readings config known name entity).entries, NamesUnknown known entry.2.errors := by
  refine forall_readings (motive := fun _ found => NamesUnknown known found.errors)
    (fun _ => namesUnknown_binding) fun relative found hf => ?_
  rcases hf with rfl | hf
  · exact namesUnknown_nil
  · exact hf

end Unresolved

end Recalc.Binding
