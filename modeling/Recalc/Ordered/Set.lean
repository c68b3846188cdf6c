namespace Recalc

structure OrderedSet (α : Type) where
  toList : List α
  nodup : toList.Nodup
deriving DecidableEq

namespace OrderedSet

variable {α : Type}

def empty : OrderedSet α := ⟨[], List.nodup_nil⟩

instance : EmptyCollection (OrderedSet α) := ⟨empty⟩

instance : Inhabited (OrderedSet α) := ⟨empty⟩

instance : Membership α (OrderedSet α) := ⟨fun set x => x ∈ set.toList⟩

theorem mem_toList {x : α} {set : OrderedSet α} : x ∈ set.toList ↔ x ∈ set := Iff.rfl

@[simp] theorem not_mem_empty (x : α) : x ∉ (∅ : OrderedSet α) := List.not_mem_nil

def size (set : OrderedSet α) : Nat := set.toList.length

def isEmpty (set : OrderedSet α) : Bool := set.toList.isEmpty

def filter (set : OrderedSet α) (keep : α → Bool) : OrderedSet α :=
  ⟨set.toList.filter keep, set.nodup.filter keep⟩

theorem not_mem_of_isEmpty {x : α} {set : OrderedSet α} (h : set.isEmpty = true) : x ∉ set :=
  fun hx => List.ne_nil_of_mem hx (List.isEmpty_iff.mp h)

@[simp] theorem mem_filter {x : α} {set : OrderedSet α} {keep : α → Bool} :
    x ∈ set.filter keep ↔ x ∈ set ∧ keep x = true := List.mem_filter

theorem nodup_concat {xs : List α} {x : α} (hxs : xs.Nodup) (hx : x ∉ xs) :
    (xs ++ [x]).Nodup := by
  rw [List.nodup_append]
  refine ⟨hxs, List.nodup_cons.mpr ⟨List.not_mem_nil, List.nodup_nil⟩, ?_⟩
  intro y hy z hz
  rw [List.mem_singleton.mp hz]
  rintro rfl
  exact hx hy

variable [DecidableEq α]

instance (x : α) (set : OrderedSet α) : Decidable (x ∈ set) :=
  inferInstanceAs (Decidable (x ∈ set.toList))

def contains (set : OrderedSet α) (x : α) : Bool := decide (x ∈ set)

def insert (set : OrderedSet α) (x : α) : OrderedSet α :=
  if h : x ∈ set.toList then set
  else ⟨set.toList ++ [x], nodup_concat set.nodup h⟩

def erase (set : OrderedSet α) (x : α) : OrderedSet α :=
  set.filter fun y => !decide (y = x)

def insertMany (set : OrderedSet α) (xs : List α) : OrderedSet α :=
  xs.foldl insert set

def ofList (xs : List α) : OrderedSet α := empty.insertMany xs

def sameMembers (set other : OrderedSet α) : Bool :=
  set.toList.all other.contains && other.toList.all set.contains

-- The members of one set that another one lacks.
def difference (set other : OrderedSet α) : List α :=
  set.toList.filter fun x => !other.contains x

@[simp] theorem contains_iff {x : α} {set : OrderedSet α} : set.contains x = true ↔ x ∈ set := by
  simp [contains]

theorem insert_of_mem {x : α} {set : OrderedSet α} (h : x ∈ set) : set.insert x = set := by
  have h : x ∈ set.toList := h
  simp [insert, h]

theorem toList_insert_of_not_mem {x : α} {set : OrderedSet α} (h : x ∉ set) :
    (set.insert x).toList = set.toList ++ [x] := by
  have h : x ∉ set.toList := h
  simp [insert, h]

@[simp] theorem mem_insert {x y : α} {set : OrderedSet α} : x ∈ set.insert y ↔ x ∈ set ∨ x = y := by
  by_cases h : y ∈ set
  · rw [insert_of_mem h]
    constructor
    · exact Or.inl
    · rintro (hx | rfl)
      · exact hx
      · exact h
  · rw [← mem_toList, toList_insert_of_not_mem h, List.mem_append, List.mem_singleton, mem_toList]

@[simp] theorem mem_erase {x y : α} {set : OrderedSet α} : x ∈ set.erase y ↔ x ∈ set ∧ x ≠ y := by
  simp [erase]

@[simp] theorem mem_insertMany {x : α} {xs : List α} {set : OrderedSet α} :
    x ∈ set.insertMany xs ↔ x ∈ set ∨ x ∈ xs := by
  induction xs generalizing set with
  | nil => simp [insertMany]
  | cons y ys ih =>
      have h : set.insertMany (y :: ys) = (set.insert y).insertMany ys := rfl
      rw [h, ih, mem_insert, List.mem_cons, or_assoc]

@[simp] theorem mem_ofList {x : α} {xs : List α} : x ∈ ofList xs ↔ x ∈ xs := by
  have h : x ∉ (empty : OrderedSet α) := List.not_mem_nil
  simp [ofList, h]

@[simp] theorem mem_difference {x : α} {set other : OrderedSet α} :
    x ∈ set.difference other ↔ x ∈ set ∧ x ∉ other := by
  simp [difference, contains, mem_toList]

end OrderedSet

end Recalc
