import Mathlib.Logic.Relation
import Recalc.Binding.Extraction
import Recalc.Proofs.Binding.Cache

namespace Recalc.Binding

namespace Cache

inductive Use (asked : Form → String → Prop) : Cache → Cache → Prop
  | ask (cache : Cache) {form : Form} {text : String} (h : asked form text) :
      Use asked cache (cache.parse form text).2
  | drop (cache : Cache) (form : Form) (text : String) : Use asked cache (cache.evict form text)

abbrev Uses (asked : Form → String → Prop) : Cache → Cache → Prop :=
  Relation.ReflTransGen (Use asked)

variable {asked : Form → String → Prop} {cache first second : Cache} {form : Form} {text : String}
  {key : Form × String}

section Size

theorem size_dropVictim (h : 0 < cache.size) : cache.dropVictim.size = cache.size - 1 :=
  List.length_eraseIdx_of_lt (Nat.mod_lt _ h)

theorem capacity_makeRoom (fuel : Nat) (cache : Cache) :
    (makeRoom fuel cache).capacity = cache.capacity := by
  induction fuel generalizing cache with
  | zero => rfl
  | succ fuel ih =>
      rw [makeRoom]
      split
      · exact ih cache.dropVictim
      · rfl

-- One entry is dropped for each unit of fuel, so it suffices to have as much
-- fuel as there are entries.
theorem size_makeRoom {fuel : Nat} (hpositive : 0 < cache.capacity) (hfuel : cache.size ≤ fuel) :
    (makeRoom fuel cache).size < cache.capacity := by
  induction fuel generalizing cache with
  | zero =>
      rw [makeRoom]
      omega
  | succ fuel ih =>
      rw [makeRoom]
      split
      · next hfull =>
        have hsize := size_dropVictim (Nat.lt_of_lt_of_le hpositive hfull)
        exact ih hpositive (by omega)
      · next hroom => exact Nat.lt_of_not_le hroom

theorem size_insert_le (entries : OrderedMap (Form × String) Parsed) (key : Form × String)
    (parsed : Parsed) : (entries.insert key parsed).size ≤ entries.size + 1 := by
  have hkeys : (entries.insert key parsed).keys.length ≤ entries.keys.length + 1 := by
    rw [OrderedMap.keys_insert]
    split
    · exact Nat.le_succ _
    · exact Nat.le_of_eq List.length_append
  simpa [OrderedMap.keys, OrderedMap.size] using hkeys

structure Bounded (bound : Nat) (cache : Cache) : Prop where
  capacity : cache.capacity = bound
  size : cache.size ≤ bound

variable {bound : Nat}

theorem Bounded.parse (h : cache.Bounded bound) :
    (cache.parse form text).2.Bounded bound := by
  unfold Cache.parse
  split
  · exact h
  · dsimp only
    split
    · exact h
    · next hzero =>
      have hroom : (makeRoom cache.size cache).size < cache.capacity :=
        size_makeRoom (Nat.pos_of_ne_zero hzero) (Nat.le_refl _)
      have hsize := size_insert_le (makeRoom cache.size cache).entries (form, text)
        (Binding.parse form text)
      exact ⟨(capacity_makeRoom _ cache).trans h.capacity,
        Nat.le_trans hsize (h.capacity ▸ hroom)⟩

theorem Bounded.evict (h : cache.Bounded bound) : (cache.evict form text).Bounded bound :=
  ⟨h.capacity, Nat.le_trans (List.length_filter_le _ _) h.size⟩

theorem Bounded.uses (h : first.Bounded bound) (huses : Uses asked first second) :
    second.Bounded bound := by
  induction huses with
  | refl => exact h
  | tail _ hstep ih =>
      cases hstep with
      | ask => exact ih.parse
      | drop => exact ih.evict

end Size

section Keys

theorem mem_keys_dropVictim (h : key ∈ cache.dropVictim.entries.keys) : key ∈ cache.entries.keys :=
  ((List.eraseIdx_sublist _ _).map Prod.fst).subset h

theorem mem_keys_makeRoom {fuel : Nat} (h : key ∈ (makeRoom fuel cache).entries.keys) :
    key ∈ cache.entries.keys := by
  induction fuel generalizing cache with
  | zero => exact h
  | succ fuel ih =>
      rw [makeRoom] at h
      split at h
      · exact mem_keys_dropVictim (ih h)
      · exact h

theorem mem_keys_parse (h : key ∈ (cache.parse form text).2.entries.keys) :
    key ∈ cache.entries.keys ∨ key = (form, text) := by
  unfold Cache.parse at h
  split at h
  · exact Or.inl h
  · dsimp only at h
    split at h
    · exact Or.inl h
    · exact (OrderedMap.mem_keys_insert.mp h).imp_left mem_keys_makeRoom

theorem mem_keys_evict : key ∈ (cache.evict form text).entries.keys ↔
    key ∈ cache.entries.keys ∧ key ≠ (form, text) := by
  rw [OrderedMap.mem_keys_iff, OrderedMap.mem_keys_iff]
  simp only [evict, OrderedMap.get?_erase]
  by_cases hk : key = (form, text) <;> simp [hk]

-- What a cache holds it held before, or it has been asked for.
theorem Uses.mem_keys (h : Uses asked first second) (hk : key ∈ second.entries.keys) :
    key ∈ first.entries.keys ∨ asked key.1 key.2 := by
  induction h with
  | refl => exact Or.inl hk
  | tail _ hstep ih =>
      cases hstep with
      | ask hasked =>
          rcases mem_keys_parse hk with hold | rfl
          · exact ih hold
          · exact Or.inr hasked
      | drop => exact ih (mem_keys_evict.mp hk).1

end Keys

end Cache

section Reading

open Cache

variable {asked : Form → String → Prop} {config : Config} {known : Path → Bool} {cache : Cache}
  {entity : Entity} {name : String} {path : Path}

-- The text that is read at a path, and the form in which it is read.
def Holds (entity : Entity) (path : Path) (form : Form) (text : String) : Prop :=
  entity.kind.capabilities.form = some form ∧ path.lookup entity.value = some (.str text)

theorem uses_ofBinding (h : ∀ form text, Holds entity path form text → asked form text) :
    Uses asked cache (ofBinding config known cache entity path).2 := by
  unfold ofBinding
  split
  · next form text hform ht => exact .single (.ask cache (h form text ⟨hform, ht⟩))
  · exact .refl

theorem uses_ofPath (h : entity.config.isDynamic path.relative = true →
      ∀ form text, Holds entity path form text → asked form text) :
    Uses asked cache (ofPath config known cache entity path).2 := by
  unfold ofPath
  by_cases hd : entity.config.isDynamic path.relative = true
  · rw [if_pos hd]
    exact uses_ofBinding (h hd)
  · rw [if_neg hd]

-- By induction on the paths that are scanned.
theorem uses_ofEntity (h : entity.reactive = true → ∀ relative ∈ entity.config.scannedPaths,
      ∀ form text, Holds entity (Path.ofRelative name relative) form text → asked form text) :
    Uses asked cache (ofEntity config known cache name entity).2 := by
  unfold ofEntity
  split
  · next hr =>
    exact List.foldlRecOn entity.config.scannedPaths (scanPath config known name entity)
      (motive := fun state : Extraction => Uses asked cache state.2) .refl
      fun state hstate relative hrelative => hstate.trans (uses_ofBinding (h hr relative hrelative))
  · exact .refl

end Reading

end Recalc.Binding
