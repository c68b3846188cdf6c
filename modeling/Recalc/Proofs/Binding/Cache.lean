import Recalc.Binding.Cache
import Recalc.Proofs.Ordered.Map

namespace Recalc.Binding.Cache

def Sound (cache : Cache) : Prop :=
  ∀ entry ∈ cache.entries.entries, entry.2 = Binding.parse entry.1.1 entry.1.2

variable {cache : Cache} {form : Form} {text : String}

theorem sound_ofCapacity (capacity : Nat) : (ofCapacity capacity).Sound :=
  fun _ hentry => absurd hentry List.not_mem_nil

theorem sound_clear (cache : Cache) : cache.clear.Sound :=
  fun _ hentry => absurd hentry List.not_mem_nil

theorem Sound.evict (h : cache.Sound) : (cache.evict form text).Sound :=
  fun entry hentry => h entry (List.mem_filter.mp hentry).1

theorem Sound.dropVictim (h : cache.Sound) : cache.dropVictim.Sound :=
  fun entry hentry => h entry (List.mem_of_mem_eraseIdx hentry)

theorem Sound.makeRoom (h : cache.Sound) (fuel : Nat) : (makeRoom fuel cache).Sound := by
  induction fuel generalizing cache with
  | zero => exact h
  | succ fuel ih =>
      rw [Cache.makeRoom]
      split
      · exact ih h.dropVictim
      · exact h

theorem Sound.store (h : cache.Sound) :
    (cache.store (form, text) (Binding.parse form text)).Sound := by
  rintro ⟨key, parsed⟩ hentry
  rcases OrderedMap.mem_entries_insert.mp hentry with ⟨rfl, rfl⟩ | ⟨_, hold⟩
  · rfl
  · exact h.makeRoom cache.size (key, parsed) hold

theorem Sound.parse (h : cache.Sound) :
    (cache.parse form text).1 = Binding.parse form text ∧ (cache.parse form text).2.Sound := by
  unfold Cache.parse
  split
  · next parsed hget =>
    exact ⟨h _ (OrderedMap.get?_eq_some_iff.mp hget), h⟩
  · dsimp only
    split
    · exact ⟨rfl, h⟩
    · exact ⟨rfl, h.store⟩

end Recalc.Binding.Cache
