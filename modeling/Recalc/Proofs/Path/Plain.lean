import Recalc.Proofs.Path.Container
import Recalc.Proofs.Path.Spelling

namespace Recalc.Path

variable {path other : Path}

theorem plain_of_entity_eq (h : path.Plain) (he : other.entity = path.entity) : other.Plain := by
  unfold Plain
  rw [he]
  exact h

theorem plain_splitEntity (text : List Char) :
    ∀ c ∈ (String.ofList (splitEntity text).1).toList, startsAccessor c = false := by
  intro c hc
  rw [String.toList_ofList] at hc
  simpa using List.all_eq_true.mp (List.all_takeWhile) c hc

theorem entity_parse {text : String} (h : parse text = .ok path) :
    path.entity = String.ofList (splitEntity text.toList).1 := by
  unfold parse at h
  dsimp only at h
  split at h
  · cases h
  · split at h
    · cases h
    · split at h <;> cases h
      rfl

theorem entity_parseLenient (text : String) :
    (parseLenient text).entity = String.ofList (splitEntity text.toList).1 := by
  unfold parseLenient
  split
  · next path hp => exact entity_parse hp
  · rfl

theorem plain_parseLenient (text : String) : (parseLenient text).Plain := by
  unfold Plain
  rw [entity_parseLenient]
  exact plain_splitEntity text.toList

-- Only the empty relative path takes the name of the entity as it stands.
theorem plain_ofRelative {entity : String} (relative : String)
    (h : relative.toList = [] → (ofEntity entity).Plain) : (ofRelative entity relative).Plain := by
  unfold ofRelative
  split
  · next hnil => exact h hnil
  · exact plain_parseLenient _
  · exact plain_parseLenient _

theorem plain_truncate (h : path.Plain) (depth : Nat) : (path.truncate depth).Plain := h

theorem plain_parent (h : path.parent? = some other) : other.Plain ↔ path.Plain := by
  unfold Plain
  rw [entity_of_parent h]

end Recalc.Path
