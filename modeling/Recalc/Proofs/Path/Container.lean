import Recalc.Path.Basic
import Mathlib.Tactic.Common

namespace Recalc.Path

variable {path other : Path}

theorem parent?_child (path : Path) (segment : Segment) :
    (path.child segment).parent? = some path := by
  simp [parent?, child]

theorem parent?_eq_some_iff :
    path.parent? = some other ↔ ∃ segment, path = other.child segment := by
  constructor
  · intro h
    unfold parent? at h
    split at h
    · cases h
    · next hne =>
      have hn : path.segments ≠ [] := fun he => hne (List.isEmpty_iff.mpr he)
      cases h
      refine ⟨path.segments.getLast hn, ?_⟩
      have hlast := List.dropLast_concat_getLast hn
      cases path
      simp only [child]
      rw [hlast]
  · rintro ⟨segment, rfl⟩
    exact parent?_child other segment

theorem isChildOf_iff : path.isChildOf other = true ↔ path.parent? = some other := by
  rw [parent?_eq_some_iff]
  simp only [isChildOf, startsWith, depth, Bool.and_eq_true, beq_iff_eq, List.isPrefixOf_iff_prefix]
  constructor
  · rintro ⟨hlen, hent, rest, hrest⟩
    have hone : rest.length = 1 := by
      rw [← hrest, List.length_append] at hlen
      omega
    obtain ⟨segment, rfl⟩ := List.length_eq_one_iff.mp hone
    refine ⟨segment, ?_⟩
    cases path
    cases other
    simp only at hent hrest
    simp [child, hent, hrest]
  · rintro ⟨segment, rfl⟩
    simp [child]

theorem ancestors_of_parent (h : path.parent? = some other) :
    path.ancestors = other :: other.ancestors := by
  obtain ⟨segment, rfl⟩ := parent?_eq_some_iff.mp h
  have hd : (other.child segment).depth = other.depth + 1 := by simp [depth, child]
  rw [ancestors, hd, List.range_succ, List.reverse_append, List.reverse_singleton,
    List.singleton_append, List.map_cons, ancestors]
  congr 1
  · cases other
    simp [truncate, child, depth]
  · refine List.map_congr_left fun count hc => ?_
    have hlt : count < other.depth := List.mem_range.mp (List.mem_reverse.mp hc)
    have hle : count ≤ other.segments.length := Nat.le_of_lt hlt
    simp [truncate, child, List.take_append_of_le_length hle]

theorem ancestors_of_entity (h : path.parent? = none) : path.ancestors = [] := by
  unfold parent? at h
  split at h
  · next hnil =>
    simp [ancestors, depth, List.isEmpty_iff.mp hnil]
  · cases h

theorem depth_of_parent (h : path.parent? = some other) : path.depth = other.depth + 1 := by
  obtain ⟨segment, rfl⟩ := parent?_eq_some_iff.mp h
  simp [depth, child]

theorem entity_of_parent (h : path.parent? = some other) : other.entity = path.entity := by
  obtain ⟨segment, rfl⟩ := parent?_eq_some_iff.mp h
  rfl

theorem entity_of_isChildOf (h : path.isChildOf other = true) : other.entity = path.entity :=
  entity_of_parent (isChildOf_iff.mp h)

end Recalc.Path
