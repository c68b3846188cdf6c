import Recalc.Path.Basic
import Std.Data.TreeMap

namespace Recalc

namespace Segment

theorem compare_key (first second : String) :
    compare (key first) (key second) = compare first second :=
  Ordering.then_eq

theorem compare_index (first second : Nat) :
    compare (index first) (index second) = compare first second :=
  Ordering.then_eq

theorem compare_key_index (name : String) (position : Nat) :
    compare (key name) (index position) = .lt := rfl

theorem compare_index_key (position : Nat) (name : String) :
    compare (index position) (key name) = .gt := rfl

instance : Std.LawfulEqOrd Segment where
  compare_self {segment} := by
    cases segment with
    | key name => rw [compare_key]; exact Std.ReflCmp.compare_self
    | index position => rw [compare_index]; exact Std.ReflCmp.compare_self
  eq_of_compare {first second} h := by
    cases first <;> cases second
    · rw [compare_key] at h
      rw [Std.LawfulEqCmp.eq_of_compare h]
    · cases h
    · cases h
    · rw [compare_index] at h
      rw [Std.LawfulEqCmp.eq_of_compare h]

instance : Std.TransOrd Segment where
  eq_swap {first second} := by
    cases first <;> cases second
    · rw [compare_key, compare_key]; exact Std.OrientedCmp.eq_swap
    · rfl
    · rfl
    · rw [compare_index, compare_index]; exact Std.OrientedCmp.eq_swap
  isLE_trans {first second third} h k := by
    cases first <;> cases second <;> cases third <;>
      simp only [compare_key, compare_index, compare_key_index, compare_index_key] at h k ⊢
    · exact Std.TransCmp.isLE_trans h k
    · rfl
    · cases k
    · rfl
    · cases h
    · cases h
    · cases k
    · exact Std.TransCmp.isLE_trans h k

end Segment

namespace Path

theorem compare_eq (first second : Path) :
    compare first second =
      (compare first.entity second.entity).then (compare first.segments second.segments) := by
  obtain ⟨entity, segments⟩ := first
  obtain ⟨other, steps⟩ := second
  show (compare entity other).then ((compare segments steps).then .eq) = _
  rw [Ordering.then_eq]

theorem compare_eq_lex :
    (compare : Path → Path → Ordering) =
      compareLex (compareOn Path.entity) (compareOn Path.segments) := by
  funext first second
  rw [compare_eq]
  rfl

instance : Std.TransOrd Path := by
  unfold Std.TransOrd
  rw [compare_eq_lex]
  infer_instance

instance : Std.LawfulEqOrd Path where
  compare_self := Std.ReflCmp.compare_self
  eq_of_compare {first second} h := by
    rw [compare_eq, Ordering.then_eq_eq] at h
    cases first
    cases second
    rw [mk.injEq]
    exact ⟨Std.LawfulEqCmp.eq_of_compare h.1, Std.LawfulEqCmp.eq_of_compare h.2⟩

end Path

end Recalc
