import Recalc.Proofs.Binding.Extraction
import Recalc.Proofs.Path.RoundTrip

namespace Recalc.Binding

variable {config : Config} {known others : Path → Bool} {entity : Entity} {path target : Path}
  {reference : Reference}

theorem entity_verbatim (reference : Reference) :
    reference.verbatim.entity = reference.chain.entity := by
  unfold Reference.verbatim
  split <;> rfl

theorem entity_chosen {unresolved : Bool}
    (h : chosen config known reference = some (target, unresolved)) :
    target.entity = reference.chain.entity := by
  unfold chosen at h
  split at h
  · next found hfound =>
    cases h
    obtain ⟨_, depth, _, rfl, _⟩ := longest_knownPrefix hfound
    rfl
  · split at h <;> cases h
    exact entity_verbatim reference

-- Only the prefixes of a chain have a say in what it reads.
theorem knownPrefix_congr {chain : Path}
    (h : ∀ depth, others (chain.truncate depth) = known (chain.truncate depth)) (depth : Nat) :
    knownPrefix others chain depth = knownPrefix known chain depth := by
  induction depth with
  | zero => rw [knownPrefix, knownPrefix, h 0]
  | succ depth ih => rw [knownPrefix, knownPrefix, h (depth + 1), ih]

theorem chosen_congr
    (h : ∀ depth,
      others (reference.chain.truncate depth) = known (reference.chain.truncate depth)) :
    chosen config others reference = chosen config known reference := by
  unfold chosen
  rw [knownPrefix_congr h]

theorem mem_references_resolve {parsed : Parsed} :
    target ∈ (resolve config known path parsed).references ↔ target ≠ path ∧
      ∃ reference ∈ parsed.references, ∃ unresolved,
        chosen config known reference = some (target, unresolved) := by
  have hfold : ∀ (references : List Reference) (found : Dependencies),
      target ∈ (references.foldl (addReference config known path) found).references ↔
        target ∈ found.references ∨ target ≠ path ∧ ∃ reference ∈ references, ∃ unresolved,
          chosen config known reference = some (target, unresolved) := by
    intro references
    induction references with
    | nil => simp
    | cons reference rest ih =>
        intro found
        rw [List.foldl_cons, ih, mem_references_addReference, or_assoc, ← and_or_left]
        simp only [List.mem_cons, exists_eq_or_imp]
  rw [resolve, hfold]
  simp [OrderedSet.not_mem_empty]

-- A path is read or not whatever is known of other entities.
theorem mem_references_binding_congr
    (h : ∀ other, other.entity = target.entity → others other = known other) :
    target ∈ (binding config others entity path).references ↔
      target ∈ (binding config known entity path).references := by
  unfold binding
  split
  · rw [mem_references_resolve, mem_references_resolve]
    refine and_congr_right fun _ => exists_congr fun reference => and_congr_right fun _ =>
      exists_congr fun unresolved => ⟨fun hc => ?_, fun hc => ?_⟩
    · rw [← hc, chosen_congr fun depth =>
        (h (reference.chain.truncate depth) (entity_chosen hc).symm).symm]
    · rw [← hc, chosen_congr fun depth =>
        h (reference.chain.truncate depth) (entity_chosen hc).symm]
  · exact Iff.rfl

theorem mem_references_reading_congr
    (h : ∀ other, other.entity = target.entity → others other = known other) :
    target ∈ (reading config others entity path).references ↔
      target ∈ (reading config known entity path).references := by
  unfold reading addInternal
  dsimp only
  rw [OrderedSet.mem_insertMany, OrderedSet.mem_insertMany]
  split
  · rw [mem_references_binding_congr h]
  · exact Iff.rfl

section Own

variable {name : String} {found : Dependencies}

theorem ne_of_mem_references_binding
    (h : target ∈ (binding config known entity path).references) : target ≠ path := by
  unfold binding at h
  split at h
  · exact (mem_references_resolve.mp h).1
  · exact absurd h (OrderedSet.not_mem_empty target)

theorem ne_of_mem_references_addInternal
    (hfound : ∀ other ∈ found.references, other ≠ path)
    (h : target ∈ (addInternal entity path found).references) : target ≠ path := by
  rcases OrderedSet.mem_insertMany.mp h with hb | hi
  · exact hfound target hb
  · unfold internalTargets at hi
    split at hi
    · simpa using (List.mem_filter.mp hi).2
    · exact absurd hi List.not_mem_nil

-- No path reads itself.
theorem ne_of_mem_references_reading
    (h : target ∈ (reading config known entity path).references) : target ≠ path := by
  refine ne_of_mem_references_addInternal (fun other ho => ?_) h
  split at ho
  · exact ne_of_mem_references_binding ho
  · exact absurd ho (OrderedSet.not_mem_empty other)

theorem ne_of_mem_references_readings
    (hfound : (readings config known name entity).get? path = some found)
    (h : target ∈ found.references) : target ≠ path := by
  refine forall_readings (motive := fun path found => ∀ other ∈ found.references, other ≠ path)
    (fun relative other ho => ne_of_mem_references_binding ho)
    (fun relative found hf other ho => ne_of_mem_references_addInternal ?_ ho)
    (path, found) (OrderedMap.get?_eq_some_iff.mp hfound) target h
  rcases hf with rfl | hf
  · exact fun other ho => absurd ho (OrderedSet.not_mem_empty other)
  · exact hf

-- The paths that are read for an entity of a plain name are its own.
theorem entity_of_mem_readings (hplain : ∀ c ∈ name.toList, Path.startsAccessor c = false)
    (h : path ∈ (readings config known name entity).keys) : path.entity = name := by
  obtain ⟨entry, he, rfl⟩ := List.mem_map.mp h
  exact forall_readings (motive := fun path _ => path.entity = name)
    (fun relative => Path.entity_ofRelative relative hplain)
    (fun relative _ _ => Path.entity_ofRelative relative hplain) entry he

end Own

end Recalc.Binding
