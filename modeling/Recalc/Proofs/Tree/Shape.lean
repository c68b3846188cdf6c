import Recalc.Proofs.Ordered.Map
import Recalc.Tree.Basic
import Mathlib.Data.List.Basic

namespace Recalc

namespace Value

mutual

-- A value whose texts are left out.
def blank : Value → Value
  | .null => .null
  | .bool truth => .bool truth
  | .num number => .num number
  | .decimal negative digits exponent => .decimal negative digits exponent
  | .str _ => .str ""
  | .arr items => .arr (blankItems items)
  | .obj members => .obj (blankMembers members)

def blankItems : List Value → List Value
  | [] => []
  | value :: rest => blank value :: blankItems rest

def blankMembers : List (String × Value) → List (String × Value)
  | [] => []
  | (name, value) :: rest => (name, blank value) :: blankMembers rest

end

theorem member?_blankMembers (members : List (String × Value)) (name : String) :
    member? (blankMembers members) name = (member? members name).map blank := by
  unfold member?
  induction members with
  | nil => rfl
  | cons member rest ih =>
      obtain ⟨other, value⟩ := member
      rw [blankMembers, OrderedMap.find?, OrderedMap.find?, ih]
      split <;> rfl

theorem getElem?_blankItems (items : List Value) (position : Nat) :
    (blankItems items)[position]? = (items[position]?).map blank := by
  induction items generalizing position with
  | nil => rfl
  | cons value rest ih =>
      rw [blankItems]
      cases position with
      | zero => rfl
      | succ position => exact ih position

theorem child?_blank (value : Value) (segment : Segment) :
    value.blank.child? segment = (value.child? segment).map blank := by
  cases value with
  | obj members => exact member?_blankMembers members segment.name
  | arr items =>
      cases segment with
      | key name => rfl
      | index position => exact getElem?_blankItems items position
  | null => rfl
  | bool truth => rfl
  | num number => rfl
  | decimal negative digits exponent => rfl
  | str text => rfl

theorem get?_blank (value : Value) (steps : List Segment) :
    value.blank.get? steps = (value.get? steps).map blank := by
  induction steps generalizing value with
  | nil => rfl
  | cons segment rest ih =>
      rw [get?, get?, child?_blank]
      cases value.child? segment with
      | none => rfl
      | some inner => exact ih inner

theorem blankMembers_putMember {members : List (String × Value)} {name : String}
    {inner value : Value} (h : member? members name = some inner)
    (hblank : value.blank = inner.blank) :
    blankMembers (putMember members name value) = blankMembers members := by
  unfold member? at h
  unfold putMember
  induction members with
  | nil => cases h
  | cons member rest ih =>
      obtain ⟨other, found⟩ := member
      rw [OrderedMap.find?] at h
      rw [OrderedMap.put]
      split at h
      · next he =>
        cases h
        rw [if_pos he, blankMembers, blankMembers, hblank]
      · next hne => rw [if_neg hne, blankMembers, blankMembers, ih h]

theorem blankItems_set {items : List Value} {position : Nat} {inner value : Value}
    (h : items[position]? = some inner) (hblank : value.blank = inner.blank) :
    blankItems (items.set position value) = blankItems items := by
  induction items generalizing position with
  | nil => cases h
  | cons found rest ih =>
      cases position with
      | zero =>
          cases h
          rw [List.set_cons_zero, blankItems, blankItems, hblank]
      | succ position => rw [List.set_cons_succ, blankItems, blankItems, ih h]

-- Writing a text in place of a text.
theorem blank_set {value : Value} {steps : List Segment} {before : String}
    (h : value.get? steps = some (.str before)) (after : String) :
    (value.set steps (.str after)).1.blank = value.blank := by
  induction steps generalizing value with
  | nil =>
      cases h
      rfl
  | cons segment rest ih =>
      rw [get?] at h
      split at h
      · next inner hchild =>
        cases value with
        | obj members =>
            have hmember : member? members segment.name = some inner := hchild
            rw [set, hmember, Option.getD_some]
            dsimp only
            rw [blank, blank, blankMembers_putMember hmember (ih h)]
        | arr items =>
            cases segment with
            | key name => cases hchild
            | index position =>
                have hitem : items[position]? = some inner := hchild
                rw [set, hitem]
                dsimp only
                rw [blank, blank, blankItems_set hitem (ih h)]
        | null => cases hchild
        | bool truth => cases hchild
        | num number => cases hchild
        | decimal negative digits exponent => cases hchild
        | str text => cases hchild
      · cases h

theorem blank_eq_str_iff {value : Value} {text : String} :
    value.blank = .str text ↔ text = "" ∧ ∃ found, value = .str found := by
  cases value <;> simp [blank, eq_comm]

end Value

namespace Path

def ListsSame (path : Path) (value : Value) : Prop :=
  path.allBelow value.blank = path.allBelow value

theorem allBelow_blank (path : Path) (value : Value) :
    path.allBelow value.blank = path.allBelow value := by
  show ListsSame path value
  induction path, value using allBelow.induct
    (motive_2 := fun path position items =>
      path.allItems position (Value.blankItems items) = path.allItems position items)
    (motive_3 := fun path members =>
      path.allMembers (Value.blankMembers members) = path.allMembers members) with
  | case1 path members ih =>
      rw [ListsSame, Value.blank, allBelow, allBelow, ih]
  | case2 path items ih =>
      rw [ListsSame, Value.blank, allBelow, allBelow, ih]
  | case3 value path hobj harr =>
      cases value with
      | obj members => exact absurd rfl (hobj members)
      | arr items => exact absurd rfl (harr items)
      | null => rfl
      | bool truth => rfl
      | num number => rfl
      | decimal negative digits exponent => rfl
      | str text => simp [ListsSame, Value.blank, allBelow]
  | case4 path position => rfl
  | case5 path position value rest ihvalue ihrest =>
      rw [Value.blankItems, allItems, allItems, ihrest, show allBelow _ _ = _ from ihvalue]
  | case6 path => rfl
  | case7 path name value rest ihvalue ihrest =>
      rw [Value.blankMembers, allMembers, allMembers, ihrest, show allBelow _ _ = _ from ihvalue]

end Path

namespace Tree

def blankEntry (entry : String × Entity) : String × Entity :=
  (entry.1, { entry.2 with value := entry.2.value.blank })

-- Trees with the same entities and values, apart from what texts say.
def SameButTexts (first second : Tree) : Prop :=
  second.entities.entries.map blankEntry = first.entities.entries.map blankEntry

namespace SameButTexts

variable {first second third : Tree} {name : String} {path : Path}

theorem refl (tree : Tree) : SameButTexts tree tree := rfl

theorem trans (h : SameButTexts first second) (k : SameButTexts second third) :
    SameButTexts first third :=
  Eq.trans k h

theorem symm (h : SameButTexts first second) : SameButTexts second first := Eq.symm h

-- Entities of one name have one configuration, and values of one shape.
theorem entity? (h : SameButTexts first second) {entity : Entity}
    (he : second.entity? name = some entity) : ∃ before, first.entity? name = some before ∧
      before.config = entity.config ∧ before.value.blank = entity.value.blank := by
  have hm : blankEntry (name, entity) ∈ first.entities.entries.map blankEntry := by
    rw [← show _ = _ from h]
    exact List.mem_map_of_mem (OrderedMap.get?_eq_some_iff.mp he)
  obtain ⟨⟨other, before⟩, hb, heq⟩ := List.mem_map.mp hm
  obtain ⟨rfl, hentity⟩ := Prod.mk.inj heq
  obtain ⟨hconfig, hvalue⟩ := Entity.mk.inj hentity
  exact ⟨before, OrderedMap.get?_eq_some_iff.mpr hb, hconfig, hvalue⟩

theorem entity?_none (h : SameButTexts first second) (hn : second.entity? name = none) :
    first.entity? name = none := by
  cases hf : first.entity? name with
  | none => rfl
  | some entity =>
      obtain ⟨after, ha, _⟩ := h.symm.entity? hf
      rw [hn] at ha
      cases ha

theorem entityPaths (h : SameButTexts first second) (name : String) :
    second.entityPaths name = first.entityPaths name := by
  unfold Tree.entityPaths
  cases hs : second.entity? name with
  | some entity =>
      obtain ⟨before, hb, _, hvalue⟩ := h.entity? hs
      rw [hb]
      dsimp only
      rw [← Path.allBelow_blank, ← hvalue, Path.allBelow_blank]
  | none => rw [h.entity?_none hs]

theorem allPaths (h : SameButTexts first second) : second.allPaths = first.allPaths := by
  have hnames : second.names = first.names := by
    have hmap := congrArg (List.map Prod.fst) (show _ = _ from h)
    rwa [List.map_map, List.map_map] at hmap
  unfold Tree.allPaths
  rw [hnames]
  exact List.flatMap_congr fun name _ => h.entityPaths name

theorem get? (h : SameButTexts first second) (path : Path) :
    (second.get? path).map Value.blank = (first.get? path).map Value.blank := by
  unfold Tree.get?
  cases hs : second.entity? path.entity with
  | some entity =>
      obtain ⟨before, hb, _, hvalue⟩ := h.entity? hs
      rw [hb]
      dsimp only [Path.lookup]
      rw [← Value.get?_blank, ← hvalue, Value.get?_blank]
  | none => rw [h.entity?_none hs]

-- Where one tree has a text, the other has one.
theorem text (h : SameButTexts first second) {text : String}
    (ht : second.get? path = some (.str text)) : ∃ before, first.get? path = some (.str before) := by
  have hmap := h.get? path
  rw [ht, Option.map_some, Value.blank] at hmap
  obtain ⟨value, hvalue, hblank⟩ := Option.map_eq_some_iff.mp hmap.symm
  obtain ⟨_, found, rfl⟩ := Value.blank_eq_str_iff.mp hblank
  exact ⟨found, hvalue⟩

end SameButTexts

end Tree

end Recalc
