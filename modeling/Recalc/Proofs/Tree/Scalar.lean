import Recalc.Proofs.Path.Location

namespace Recalc

namespace Value

-- A value that holds no other values.
def isScalar : Value → Bool
  | .arr _ => false
  | .obj _ => false
  | .null => true
  | .bool _ => true
  | .num _ => true
  | .decimal _ _ _ => true
  | .str _ => true

variable {value before after found inner : Value} {segment second : Segment}
  {steps others rest : List Segment}

theorem child?_of_isScalar (h : value.isScalar = true) (segment : Segment) :
    value.child? segment = none := by
  cases value <;> first | rfl | cases h

theorem get?_of_isScalar (h : value.isScalar = true) (segment : Segment) (rest : List Segment) :
    value.get? (segment :: rest) = none := by
  rw [get?, child?_of_isScalar h]

theorem isScalar_eq_false_of_child? (h : value.child? segment = some inner) :
    value.isScalar = false := by
  by_contra hscalar
  rw [child?_of_isScalar (Bool.not_eq_false _ ▸ hscalar)] at h
  cases h

-- Writing below one part of a value changes this part alone.
theorem child?_set (h : value.child? segment = some inner) (second : Segment) :
    (value.set (segment :: rest) after).1.child? second =
      (value.child? second).map fun found =>
        if second.name = segment.name then (inner.set rest after).1 else found := by
  cases value with
  | obj members =>
      have hmember : member? members segment.name = some inner := h
      rw [set, hmember, Option.getD_some]
      dsimp only [child?]
      rw [member?_putMember]
      by_cases hname : second.name = segment.name
      · simp [hname, hmember]
      · simp [hname]
  | arr items =>
      cases segment with
      | key name => cases h
      | index position =>
          have hitem : items[position]? = some inner := h
          rw [set, hitem]
          dsimp only
          cases second with
          | key name => rfl
          | index place =>
              dsimp only [child?]
              by_cases hplace : place = position
              · subst hplace
                have hlt : place < items.length := (List.getElem?_eq_some_iff.mp hitem).1
                simp [hlt]
              · have hname : (Segment.index place).name ≠ (Segment.index position).name :=
                  fun hn => hplace (Segment.toString_injective (congrArg String.toList hn))
                rw [List.getElem?_set_ne (Ne.symm hplace)]
                simp [hname]
  | null => cases h
  | bool truth => cases h
  | num number => cases h
  | decimal negative digits exponent => cases h
  | str text => cases h

-- By induction on the steps: other steps leave the way to the scalar, or go on
-- along it.
theorem isSome_get?_set (h : value.get? steps = some before) (hb : before.isScalar = true)
    (ha : after.isScalar = true) (others : List Segment) :
    ((value.set steps after).1.get? others).isSome = (value.get? others).isSome := by
  induction steps generalizing value others with
  | nil =>
      cases h
      cases others with
      | nil => rfl
      | cons second others =>
          rw [set, get?_of_isScalar ha, get?_of_isScalar hb]
  | cons segment rest ih =>
      obtain ⟨inner, hchild, hrest⟩ := get?_cons.mp h
      cases others with
      | nil => rfl
      | cons second others =>
          rw [get?, get?, child?_set hchild]
          cases hfound : value.child? second with
          | none => rfl
          | some found =>
              dsimp only [Option.map_some]
              split
              · next hname =>
                obtain rfl := child?_congr hchild hfound hname
                exact ih hrest others
              · rfl

theorem get?_set (h : value.get? steps = some before) (hb : before.isScalar = true)
    (k : value.get? others = some found) (hf : found.isScalar = true) :
    (value.set steps after).1.get? others =
      if others.map Segment.name = steps.map Segment.name then some after else some found := by
  induction steps generalizing value others with
  | nil =>
      cases h
      cases others with
      | nil => rfl
      | cons second others =>
          rw [get?_of_isScalar hb] at k
          cases k
  | cons segment rest ih =>
      obtain ⟨inner, hchild, hrest⟩ := get?_cons.mp h
      cases others with
      | nil =>
          cases k
          rw [isScalar_eq_false_of_child? hchild] at hf
          cases hf
      | cons second others =>
          obtain ⟨next, hnext, hothers⟩ := get?_cons.mp k
          rw [get?, child?_set hchild, hnext]
          dsimp only [Option.map_some]
          by_cases hname : second.name = segment.name
          · obtain rfl := child?_congr hchild hnext hname
            rw [if_pos hname, ih hrest hothers]
            simp [hname]
          · rw [if_neg hname]
            simp [hname, hothers]

end Value

end Recalc
