import Recalc.Proofs.Session.Parallel
import Recalc.Proofs.Session.Usage

namespace Recalc

open Binding (Dependencies)

-- An empty cache that, when full, drops the entries at the given places.
def Binding.Cache.dropping (capacity : Nat) (victims : Nat → Nat) : Binding.Cache :=
  ⟨capacity, ∅, victims, 0⟩

theorem Binding.Alike.eq {first second : Dependencies} (h : Binding.Alike (· = ·) first second) :
    second = first := by
  obtain ⟨references, errors⟩ := second
  obtain ⟨hreferences, herrors⟩ := h
  cases hreferences
  cases herrors
  rfl

-- The capacity of the cache decides on nothing.
theorem parallel_capacity (config : Config) (capacity other : Nat) :
    Parallel { config with cacheCapacity := capacity } { config with cacheCapacity := other }
      (· = ·) (· = ·) (fun _ => True) where
  functions := rfl
  parentEdges := rfl
  resolve _ _ _ := ⟨rfl, rfl⟩
  nil := rfl
  append h k := by rw [h, k]
  ofReadings h _ := by
    have hsame := h.imp fun reading other hr => (Prod.ext hr.1.symm hr.2.eq.symm : reading = other)
    rw [List.forall₂_eq_eq_eq] at hsame
    rw [hsame]
  replaceExtraction h k path := by rw [h, k]
  resolveReference h path := by rw [h]
  flagReaders h keys graph gone readers := by rw [h]
  clearPath h path := by rw [h]
  replaceCycles h cycles := by rw [h]
  recordEvaluation h path messages := by rw [h]

namespace Session

-- A session whose cache has the given capacity and drops the given entries.
def caching (config : Config) (capacity : Nat) (victims : Nat → Nat) (tree : Tree) : Session :=
  start { config with cacheCapacity := capacity } (.dropping capacity victims) tree

-- After any history, two sessions that differ in their caches are the same but
-- for the caches, and the next update tells the same of both. A cache holds the
-- readings of texts, and no more of them than its capacity.
theorem cache_invisible (config : Config) (capacity other : Nat) (victims others : Nat → Nat)
    (first : Tree) (actions : List Action) :
    let here := (caching config capacity victims first).after actions
    let there := (caching config other others first).after actions
    there.tree = here.tree ∧ there.graph = here.graph ∧ there.keys = here.keys ∧
      there.sorted = here.sorted ∧ there.errors = here.errors ∧
      (∀ tree diffs, (there.apply tree diffs).2 = (here.apply tree diffs).2) ∧
      (∀ form text parsed, here.cache.entries.get? (form, text) = some parsed →
        parsed = Binding.parse form text) ∧
      here.cache.size ≤ capacity := by
  intro here there
  have p := parallel_capacity config capacity other
  have hafter : Alike _ _ (· = ·) here there :=
    p.after (p.start _ _ trivial) actions fun _ _ => trivial
  have hcoherent : here.Coherent := (coherent_start _ _ first).after actions
  have hstart : (caching config capacity victims first).cache.Bounded capacity := by
    unfold caching start
    refine bounded_reset _ ?_ first
    rfl
  have hbounded : here.cache.Bounded capacity := bounded_after hstart actions
  have hupdate : ∀ tree diffs, (there.apply tree diffs).2 = (here.apply tree diffs).2 := by
    intro tree diffs
    obtain ⟨hsame, herrors⟩ := (p.apply hafter tree diffs).2.same
    rw [hsame, ← herrors]
  have hcached : ∀ form text parsed, here.cache.entries.get? (form, text) = some parsed →
      parsed = Binding.parse form text :=
    fun form text parsed hget => hcoherent.cache _ (OrderedMap.get?_eq_some_iff.mp hget)
  obtain ⟨htree, hgraph, hkeys, hsorted, herrors⟩ := hafter.same
  exact ⟨htree, hgraph, hkeys, hsorted, herrors.symm, hupdate, hcached, hbounded.size⟩

end Session

end Recalc
