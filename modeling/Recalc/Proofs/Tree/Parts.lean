import Mathlib.Data.List.Nodup
import Recalc.Json.Content
import Recalc.Proofs.Ordered.Map
import Recalc.Proofs.Path.Location

namespace Recalc

namespace Value

variable {value inner : Value} {segment : Segment} {members : List (String × Value)}
  {items : List Value} {part : Segment × Value}

def parts : Value → List (Segment × Value)
  | .obj members => members.map fun member => (.ofName member.1, member.2)
  | .arr items => items.mapIdx fun position item => (.index position, item)
  | _ => []

theorem mem_parts_cases (h : part ∈ value.parts) :
    (∃ members, ∃ member ∈ members, value = .obj members ∧ part = (.ofName member.1, member.2)) ∨
      ∃ items, ∃ (position : Nat) (hposition : position < items.length),
        value = .arr items ∧ part = (.index position, items[position]) := by
  cases value with
  | obj members =>
      obtain ⟨member, hm, rfl⟩ := List.mem_map.mp h
      exact Or.inl ⟨members, member, hm, rfl, rfl⟩
  | arr items =>
      obtain ⟨position, hposition, rfl⟩ := List.mem_mapIdx.mp h
      exact Or.inr ⟨items, position, hposition, rfl, rfl⟩
  | null => exact absurd h List.not_mem_nil
  | bool truth => exact absurd h List.not_mem_nil
  | num number => exact absurd h List.not_mem_nil
  | decimal negative digits exponent => exact absurd h List.not_mem_nil
  | str text => exact absurd h List.not_mem_nil

theorem sizeOf_of_mem_parts (h : part ∈ value.parts) : sizeOf part.2 < sizeOf value := by
  obtain ⟨members, member, hm, rfl, rfl⟩ | ⟨items, position, hposition, rfl, rfl⟩ :=
    mem_parts_cases h
  · have hlt := List.sizeOf_lt_of_mem hm
    obtain ⟨name, inner⟩ := member
    simp only [Prod.mk.sizeOf_spec, obj.sizeOf_spec] at hlt ⊢
    omega
  · have hlt := List.sizeOf_lt_of_mem (List.getElem_mem hposition)
    simp only [arr.sizeOf_spec]
    omega

-- What holds of a value if it holds of its parts holds of all values.
theorem induction {motive : Value → Prop}
    (step : ∀ value, (∀ part ∈ parts value, motive part.2) → motive value) (value : Value) :
    motive value := by
  induction hsize : sizeOf value using Nat.strongRecOn generalizing value with
  | _ size ih =>
      refine step value fun part hpart => ih (sizeOf part.2) ?_ part.2 rfl
      exact hsize ▸ sizeOf_of_mem_parts hpart

mutual

-- No object names a member twice.
def Distinct : Value → Prop
  | .obj members => (members.map Prod.fst).Nodup ∧ DistinctMembers members
  | .arr items => DistinctItems items
  | _ => True

def DistinctMembers : List (String × Value) → Prop
  | [] => True
  | (_, value) :: rest => Distinct value ∧ DistinctMembers rest

def DistinctItems : List Value → Prop
  | [] => True
  | value :: rest => Distinct value ∧ DistinctItems rest

end

theorem distinctMembers_iff : DistinctMembers members ↔ ∀ member ∈ members, member.2.Distinct := by
  induction members with
  | nil => simp [DistinctMembers]
  | cons member rest ih =>
      obtain ⟨name, value⟩ := member
      rw [DistinctMembers, ih, List.forall_mem_cons]

theorem distinctItems_iff : DistinctItems items ↔ ∀ item ∈ items, item.Distinct := by
  induction items with
  | nil => simp [DistinctItems]
  | cons item rest ih => rw [DistinctItems, ih, List.forall_mem_cons]

namespace Distinct

variable (h : value.Distinct)

include h

theorem parts (hpart : part ∈ value.parts) : part.2.Distinct := by
  obtain ⟨members, member, hm, rfl, rfl⟩ | ⟨items, position, hposition, rfl, rfl⟩ :=
    mem_parts_cases hpart
  · exact distinctMembers_iff.mp h.2 member hm
  · exact distinctItems_iff.mp h _ (List.getElem_mem hposition)

-- Two names make two steps, since a step goes by its name.
theorem nodup_steps : (value.parts.map Prod.fst).Nodup := by
  cases value with
  | obj members =>
      have hinj : Function.Injective Segment.ofName := fun first second he => by
        rw [← Segment.name_ofName first, he, Segment.name_ofName]
      have hsteps : (Value.obj members).parts.map Prod.fst =
          (members.map Prod.fst).map Segment.ofName := by
        simp [Value.parts]
      rw [hsteps]
      exact h.1.map hinj
  | arr items =>
      have hsteps : (Value.arr items).parts.map Prod.fst =
          (List.range items.length).map Segment.index := by
        refine List.ext_getElem ?_ fun position _ _ => ?_ <;> simp [Value.parts]
      rw [hsteps]
      exact List.nodup_range.map fun first second he => Segment.index.inj he
  | null => exact List.nodup_nil
  | bool truth => exact List.nodup_nil
  | num number => exact List.nodup_nil
  | decimal negative digits exponent => exact List.nodup_nil
  | str text => exact List.nodup_nil

theorem child?_of_mem_parts (hpart : part ∈ value.parts) :
    value.child? part.1 = some part.2 := by
  obtain ⟨members, ⟨name, inner⟩, hm, rfl, rfl⟩ | ⟨items, position, hposition, rfl, rfl⟩ :=
    mem_parts_cases hpart
  · rw [child?, Segment.name_ofName]
    exact (OrderedMap.find?_eq_some_iff h.1).mpr hm
  · exact List.getElem?_eq_getElem hposition

theorem child? (hchild : value.child? segment = some inner) : inner.Distinct := by
  cases value with
  | obj members => exact distinctMembers_iff.mp h.2 _ (OrderedMap.mem_of_find? hchild)
  | arr items =>
      cases segment with
      | key name => cases hchild
      | index position => exact distinctItems_iff.mp h _ (List.mem_of_getElem? hchild)
  | null => cases hchild
  | bool truth => cases hchild
  | num number => cases hchild
  | decimal negative digits exponent => cases hchild
  | str text => cases hchild

theorem get? {steps : List Segment} (hget : value.get? steps = some inner) : inner.Distinct := by
  induction steps generalizing value with
  | nil =>
      cases hget
      exact h
  | cons segment rest ih =>
      obtain ⟨next, hnext, hrest⟩ := get?_cons.mp hget
      exact ih (h.child? hnext) hrest

end Distinct

-- Steps that are taken one after the other.
theorem get?_append {steps : List Segment} (h : value.get? steps = some inner)
    (others : List Segment) : value.get? (steps ++ others) = inner.get? others := by
  induction steps generalizing value with
  | nil =>
      cases h
      rfl
  | cons segment rest ih =>
      obtain ⟨next, hnext, hrest⟩ := get?_cons.mp h
      rw [List.cons_append, get?, hnext]
      exact ih hrest

-- A member that is put in takes the place of the member of its name.
theorem Distinct.putMember {name : String} (h : (obj members).Distinct) (hinner : inner.Distinct) :
    (obj (putMember members name inner)).Distinct := by
  let map : OrderedMap String Value := ⟨members, h.1⟩
  refine ⟨(map.insert name inner).nodup, distinctMembers_iff.mpr fun member hm => ?_⟩
  have hentry : member ∈ (map.insert name inner).entries := hm
  rcases OrderedMap.mem_entries_insert.mp hentry with ⟨_, rfl⟩ | ⟨_, hm⟩
  · exact hinner
  · exact distinctMembers_iff.mp h.2 member hm

theorem Distinct.getD_member? {name : String} (h : (obj members).Distinct) :
    ((member? members name).getD (obj [])).Distinct := by
  cases hmember : member? members name with
  | none => exact ⟨List.nodup_nil, trivial⟩
  | some inner => exact distinctMembers_iff.mp h.2 _ (OrderedMap.mem_of_find? hmember)

-- A value that is written into still names each member once.
theorem Distinct.set {new : Value} (h : value.Distinct) (hnew : new.Distinct)
    (steps : List Segment) : (value.set steps new).1.Distinct := by
  induction value, steps using set.induct new with
  | case1 value => exact hnew
  | case2 rest members segment inner next done hset ih =>
      rw [Value.set]
      exact h.putMember (ih h.getD_member?)
  | case3 rest items position hitem =>
      rw [Value.set, hitem]
      exact h
  | case4 rest items position inner hitem next done hset ih =>
      rw [Value.set, hitem]
      have hitems := distinctItems_iff.mp h
      refine distinctItems_iff.mpr fun item hm => ?_
      rcases List.mem_or_eq_of_mem_set hm with hm | rfl
      · exact hitems item hm
      · exact ih (hitems inner (List.mem_of_getElem? hitem))
  | case5 value segment rest hobj harr =>
      rw [Value.set.eq_4 value new segment rest hobj harr]
      exact h

end Value

-- So are all values that are read: a member that is written twice is kept once.
theorem Json.distinct_value? {room : Nat} {json : Json} {value : Value}
    (h : json.value? room = some value) : value.Distinct := by
  induction room, json using Json.value?.induct
    (motive_2 := fun room done members => (Value.obj done).Distinct →
      ∀ kept, memberValues? room done members = some kept → (Value.obj kept).Distinct)
    (motive_3 := fun room items =>
      ∀ kept, values? room items = some kept → Value.DistinctItems kept) generalizing value with
  | case1 room => cases h; trivial
  | case2 room truth => cases h; trivial
  | case3 room numeral =>
      rw [value?, Numeral.value?] at h
      split at h
      · cases h
        trivial
      · obtain ⟨double, _, rfl⟩ := Option.map_eq_some_iff.mp h
        trivial
  | case4 room content =>
      obtain ⟨text, _, rfl⟩ := Option.map_eq_some_iff.mp h
      trivial
  | case5 items => cases h
  | case6 room items hroom ih =>
      rw [value?, if_neg hroom] at h
      obtain ⟨kept, hkept, rfl⟩ := Option.map_eq_some_iff.mp h
      exact ih kept hkept
  | case7 members => cases h
  | case8 room members hroom ih =>
      rw [value?, if_neg hroom] at h
      obtain ⟨kept, hkept, rfl⟩ := Option.map_eq_some_iff.mp h
      exact ih ⟨List.nodup_nil, trivial⟩ kept hkept
  | case9 room kept hkept => cases hkept; trivial
  | case10 room item rest ihitem ihrest kept hkept =>
      rw [values?] at hkept
      obtain ⟨value, hvalue, hkept⟩ := Option.bind_eq_some_iff.mp hkept
      obtain ⟨values, hvalues, hkept⟩ := Option.bind_eq_some_iff.mp hkept
      cases hkept
      exact ⟨ihitem hvalue, ihrest values hvalues⟩
  | case11 room done hdone kept hkept =>
      cases hkept
      exact hdone
  | case12 room done item rest hdone kept hkept => cases hkept
  | case13 room done name item rest ihitem ihrest hdone kept hkept =>
      rw [memberValues?] at hkept
      obtain ⟨value, hvalue, hkept⟩ := Option.bind_eq_some_iff.mp hkept
      exact ihrest value (hdone.putMember (ihitem hvalue)) kept hkept

end Recalc
