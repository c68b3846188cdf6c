namespace Recalc

structure OrderedMap (α β : Type) where
  entries : List (α × β)
  nodup : (entries.map Prod.fst).Nodup

namespace OrderedMap

variable {α β γ : Type} [DecidableEq α]

-- Entries of an association list, each key at its first place.
def put (entries : List (α × β)) (key : α) (value : β) : List (α × β) :=
  match entries with
  | [] => [(key, value)]
  | (k, v) :: rest => if k = key then (k, value) :: rest else (k, v) :: put rest key value

def find? (entries : List (α × β)) (key : α) : Option β :=
  match entries with
  | [] => none
  | (k, v) :: rest => if k = key then some v else find? rest key

theorem mem_keys_put {entries : List (α × β)} {key k : α} {value : β} :
    k ∈ (put entries key value).map Prod.fst ↔ k ∈ entries.map Prod.fst ∨ k = key := by
  induction entries with
  | nil => simp [put]
  | cons entry rest ih =>
      by_cases h : entry.1 = key
      · subst h
        simp [put, or_comm]
      · simp only [put, if_neg h, List.map_cons, List.mem_cons, ih, or_assoc]

theorem nodup_put {entries : List (α × β)} {key : α} {value : β}
    (h : (entries.map Prod.fst).Nodup) : ((put entries key value).map Prod.fst).Nodup := by
  induction entries with
  | nil => simp [put]
  | cons entry rest ih =>
      obtain ⟨k, v⟩ := entry
      simp only [List.map_cons, List.nodup_cons] at h
      by_cases hk : k = key
      · rw [put, if_pos hk]
        exact List.nodup_cons.mpr h
      · rw [put, if_neg hk]
        refine List.nodup_cons.mpr ⟨?_, ih h.2⟩
        rw [mem_keys_put]
        exact not_or.mpr ⟨h.1, hk⟩

theorem find?_put {entries : List (α × β)} {key k : α} {value : β} :
    find? (put entries key value) k = if k = key then some value else find? entries k := by
  induction entries with
  | nil => simp only [put, find?, eq_comm]
  | cons entry rest ih =>
      by_cases h : entry.1 = key
      · subst h
        by_cases hk : k = entry.1
        · simp [put, find?, hk]
        · simp [put, find?, hk, Ne.symm hk]
      · simp only [put, if_neg h, find?, ih]
        by_cases hk : k = key
        · subst hk
          simp [h]
        · simp [hk]

theorem find?_isSome {entries : List (α × β)} {key : α} :
    (find? entries key).isSome = true ↔ key ∈ entries.map Prod.fst := by
  induction entries with
  | nil => simp [find?]
  | cons entry rest ih =>
      by_cases h : entry.1 = key
      · simp [find?, h]
      · simp only [find?, if_neg h, ih, List.map_cons, List.mem_cons, Ne.symm h, false_or]

theorem find?_filter_ne {entries : List (α × β)} {key k : α} :
    find? (entries.filter fun entry => !decide (entry.1 = key)) k =
      if k = key then none else find? entries k := by
  induction entries with
  | nil => simp [find?]
  | cons entry rest ih =>
      by_cases h : entry.1 = key
      · subst h
        by_cases hk : k = entry.1
        · simpa [hk] using ih
        · simp [find?, ih, hk, Ne.symm hk]
      · by_cases hk : k = key
        · subst hk
          simp [find?, ih, h]
        · simp [find?, ih, h, hk]

def empty : OrderedMap α β := ⟨[], List.nodup_nil⟩

instance : EmptyCollection (OrderedMap α β) := ⟨empty⟩

instance : Inhabited (OrderedMap α β) := ⟨empty⟩

def keys (map : OrderedMap α β) : List α := map.entries.map Prod.fst

def values (map : OrderedMap α β) : List β := map.entries.map Prod.snd

def size (map : OrderedMap α β) : Nat := map.entries.length

def isEmpty (map : OrderedMap α β) : Bool := map.entries.isEmpty

def get? (map : OrderedMap α β) (key : α) : Option β := find? map.entries key

def contains (map : OrderedMap α β) (key : α) : Bool := (map.get? key).isSome

def insert (map : OrderedMap α β) (key : α) (value : β) : OrderedMap α β :=
  ⟨put map.entries key value, nodup_put map.nodup⟩

def erase (map : OrderedMap α β) (key : α) : OrderedMap α β :=
  ⟨map.entries.filter fun entry => !decide (entry.1 = key),
    map.nodup.sublist (List.filter_sublist.map _)⟩

def eraseAt (map : OrderedMap α β) (place : Nat) : OrderedMap α β :=
  ⟨map.entries.eraseIdx place, map.nodup.sublist ((List.eraseIdx_sublist _ _).map _)⟩

def filter (map : OrderedMap α β) (keep : α → β → Bool) : OrderedMap α β :=
  ⟨map.entries.filter fun entry => keep entry.1 entry.2,
    map.nodup.sublist (List.filter_sublist.map _)⟩

def mapValues (map : OrderedMap α β) (change : β → γ) : OrderedMap α γ :=
  ⟨map.entries.map fun entry => (entry.1, change entry.2), by
    simpa [List.map_map, Function.comp_def] using map.nodup⟩

def ofList (entries : List (α × β)) : OrderedMap α β :=
  entries.foldl (fun map entry => map.insert entry.1 entry.2) empty

@[simp] theorem get?_empty (key : α) : (∅ : OrderedMap α β).get? key = none := rfl

theorem get?_insert (map : OrderedMap α β) (key k : α) (value : β) :
    (map.insert key value).get? k = if k = key then some value else map.get? k :=
  find?_put

theorem mem_keys_insert {map : OrderedMap α β} {key k : α} {value : β} :
    k ∈ (map.insert key value).keys ↔ k ∈ map.keys ∨ k = key :=
  mem_keys_put

theorem contains_iff {map : OrderedMap α β} {key : α} :
    map.contains key = true ↔ key ∈ map.keys :=
  find?_isSome

theorem get?_erase (map : OrderedMap α β) (key k : α) :
    (map.erase key).get? k = if k = key then none else map.get? k :=
  find?_filter_ne

end OrderedMap

end Recalc
