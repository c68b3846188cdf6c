import Recalc.Ordered.Map
import Mathlib.Tactic.Common

namespace Recalc.OrderedMap

variable {α β : Type} [DecidableEq α] {map : OrderedMap α β} {key k : α} {value v : β}

theorem find?_eq_some_iff {entries : List (α × β)} (h : (entries.map Prod.fst).Nodup) :
    find? entries k = some v ↔ (k, v) ∈ entries := by
  induction entries with
  | nil => simp [find?]
  | cons entry rest ih =>
      obtain ⟨hnew, hrest⟩ := List.nodup_cons.mp h
      by_cases hk : entry.1 = k
      · subst hk
        rw [find?, if_pos rfl, Option.some_inj, List.mem_cons]
        constructor
        · rintro rfl
          exact Or.inl rfl
        · rintro (he | hm)
          · exact congrArg Prod.snd he.symm
          · exact absurd (List.mem_map_of_mem hm) hnew
      · rw [find?, if_neg hk, ih hrest, List.mem_cons]
        constructor
        · exact Or.inr
        · rintro (rfl | hm)
          · exact absurd rfl hk
          · exact hm

theorem mem_of_find? {entries : List (α × β)} (h : find? entries k = some v) :
    (k, v) ∈ entries := by
  induction entries with
  | nil => cases h
  | cons entry rest ih =>
      rw [find?] at h
      split at h
      · next hk =>
        cases h
        subst hk
        exact List.mem_cons_self
      · exact List.mem_cons_of_mem entry (ih h)

-- A value that is put where it is found changes nothing.
theorem put_of_find? {entries : List (α × β)} (h : find? entries k = some v) :
    put entries k v = entries := by
  induction entries with
  | nil => cases h
  | cons entry rest ih =>
      obtain ⟨key, value⟩ := entry
      rw [find?] at h
      rw [put]
      split at h
      · next hk =>
        cases h
        rw [if_pos hk]
      · next hk => rw [if_neg hk, ih h]

-- Of two lists the first one decides.
theorem find?_append (entries others : List (α × β)) :
    find? (entries ++ others) k = (find? entries k).or (find? others k) := by
  induction entries with
  | nil => rfl
  | cons entry rest ih =>
      obtain ⟨key, value⟩ := entry
      rw [List.cons_append, find?, find?, ih]
      split <;> rfl

theorem find?_map (f : α → β) (keys : List α) :
    find? (keys.map fun key => (key, f key)) k = if k ∈ keys then some (f k) else none := by
  induction keys with
  | nil => rfl
  | cons key rest ih =>
      rw [List.map_cons, find?, ih]
      by_cases hk : key = k
      · subst hk
        simp
      · simp [hk, Ne.symm hk]

theorem get?_eq_some_iff : map.get? k = some v ↔ (k, v) ∈ map.entries :=
  find?_eq_some_iff map.nodup

theorem mem_keys_iff : k ∈ map.keys ↔ ∃ v, map.get? k = some v := by
  simp [keys, get?_eq_some_iff]

theorem mem_entries_insert :
    (k, v) ∈ (map.insert key value).entries ↔
      k = key ∧ v = value ∨ k ≠ key ∧ (k, v) ∈ map.entries := by
  rw [← get?_eq_some_iff, get?_insert, ← get?_eq_some_iff]
  by_cases hk : k = key
  · simp [hk, eq_comm]
  · simp [hk]

theorem insert_of_get? (h : map.get? k = some v) : map.insert k v = map := by
  have hput := put_of_find? h
  cases map
  simp only [insert]
  congr 1

theorem get?_ofList_mem {entries : List (α × β)} (h : (ofList entries).get? k = some v) :
    (k, v) ∈ entries := by
  have hfold : ∀ (entries : List (α × β)) (map : OrderedMap α β),
      (entries.foldl (fun map entry => map.insert entry.1 entry.2) map).get? k = some v →
        (k, v) ∈ entries ∨ map.get? k = some v := by
    intro entries
    induction entries with
    | nil => exact fun map h => Or.inr h
    | cons entry rest ih =>
        intro map h
        rcases ih _ h with hm | hm
        · exact Or.inl (List.mem_cons_of_mem entry hm)
        · rw [get?_insert] at hm
          split at hm
          · next hk =>
            cases hm
            subst hk
            exact Or.inl List.mem_cons_self
          · exact Or.inr hm
  rcases hfold entries ∅ h with hm | hm
  · exact hm
  · cases hm

theorem get?_mapValues {γ : Type} (change : β → γ) :
    (map.mapValues change).get? k = (map.get? k).map change := by
  ext v
  rw [get?_eq_some_iff, Option.map_eq_some_iff]
  simp only [get?_eq_some_iff, mapValues, List.mem_map, Prod.mk.injEq, Prod.exists]
  constructor
  · rintro ⟨_, value, hm, rfl, rfl⟩
    exact ⟨value, hm, rfl⟩
  · rintro ⟨value, hm, rfl⟩
    exact ⟨k, value, hm, rfl, rfl⟩

theorem get?_filter (keep : α → β → Bool) :
    (map.filter keep).get? k = (map.get? k).filter (keep k) := by
  ext v
  rw [get?_eq_some_iff, Option.filter_eq_some_iff, get?_eq_some_iff]
  simp [filter]

-- Keys that are written one after the other, each with its own value.
theorem get?_foldl_insert (f : α → β) (keys : List α) (map : OrderedMap α β) :
    (keys.foldl (fun map key => map.insert key (f key)) map).get? k =
      if k ∈ keys then some (f k) else map.get? k := by
  induction keys generalizing map with
  | nil => rfl
  | cons key rest ih =>
      rw [List.foldl_cons, ih, get?_insert]
      by_cases hk : k = key
      · subst hk
        simp
      · simp [hk]

-- Where a new key goes depends on the keys alone.
theorem keys_put (entries : List (α × β)) : (put entries key value).map Prod.fst =
    if key ∈ entries.map Prod.fst then entries.map Prod.fst
    else entries.map Prod.fst ++ [key] := by
  induction entries with
  | nil => rfl
  | cons entry rest ih =>
      by_cases hk : entry.1 = key
      · simp [put, hk]
      · simp only [put, if_neg hk, List.map_cons, ih, List.mem_cons, Ne.symm hk, false_or]
        split <;> rfl

theorem keys_insert : (map.insert key value).keys =
    if key ∈ map.keys then map.keys else map.keys ++ [key] :=
  keys_put map.entries

theorem keys_insert_congr {other : OrderedMap α β} (h : map.keys = other.keys) :
    (map.insert key value).keys = (other.insert key v).keys := by
  rw [keys_insert, keys_insert, h]

section Related

-- Maps with the same keys in the same order, whose values correspond.
def Related {γ : Type} (r : β → γ → Prop) (first : OrderedMap α β) (second : OrderedMap α γ) :
    Prop :=
  List.Forall₂ (fun entry other => other.1 = entry.1 ∧ r entry.2 other.2) first.entries
    second.entries

variable {γ : Type} {r : β → γ → Prop} {first : OrderedMap α β} {second : OrderedMap α γ}

omit [DecidableEq α] in
theorem Related.empty : Related r (∅ : OrderedMap α β) (∅ : OrderedMap α γ) := .nil

theorem Related.insert {value : β} {other : γ} (h : Related r first second) (key : α)
    (hr : r value other) : Related r (first.insert key value) (second.insert key other) := by
  have hput : ∀ {entries : List (α × β)} {others : List (α × γ)},
      List.Forall₂ (fun entry other => other.1 = entry.1 ∧ r entry.2 other.2) entries others →
        List.Forall₂ (fun entry other => other.1 = entry.1 ∧ r entry.2 other.2)
          (put entries key value) (put others key other) := by
    intro entries others h
    induction h with
    | nil => exact .cons ⟨rfl, hr⟩ .nil
    | @cons entry other rest others hhead hrest ih =>
        obtain ⟨k, value⟩ := entry
        obtain ⟨_, other⟩ := other
        obtain ⟨rfl, hv⟩ := hhead
        unfold put
        split
        · exact .cons ⟨rfl, hr⟩ hrest
        · exact .cons ⟨rfl, hv⟩ ih
  exact hput h

theorem Related.getD {default : β} {fallback : γ} (h : Related r first second) (key : α)
    (hd : r default fallback) :
    r ((first.get? key).getD default) ((second.get? key).getD fallback) := by
  have hfind : ∀ {entries : List (α × β)} {others : List (α × γ)},
      List.Forall₂ (fun entry other => other.1 = entry.1 ∧ r entry.2 other.2) entries others →
        r ((find? entries key).getD default) ((find? others key).getD fallback) := by
    intro entries others h
    induction h with
    | nil => exact hd
    | @cons entry other rest others hhead _ ih =>
        obtain ⟨k, value⟩ := entry
        obtain ⟨_, other⟩ := other
        obtain ⟨rfl, hv⟩ := hhead
        unfold find?
        split
        · exact hv
        · exact ih
  exact hfind h

end Related

end Recalc.OrderedMap
