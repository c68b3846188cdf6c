import Recalc.Binding.Parsed
import Recalc.Ordered.Map

namespace Recalc.Binding

-- Parsed bindings by their form and text. Which entry a full cache drops is
-- left open: the victims say, for each eviction, at which place it stands.
structure Cache where
  capacity : Nat
  entries : OrderedMap (Form × String) Parsed
  victims : Nat → Nat
  evictions : Nat

namespace Cache

-- Drops the oldest entry first.
def ofCapacity (capacity : Nat) : Cache := ⟨capacity, ∅, fun _ => 0, 0⟩

def size (cache : Cache) : Nat := cache.entries.size

def isEmpty (cache : Cache) : Bool := cache.entries.isEmpty

def clear (cache : Cache) : Cache := { cache with entries := ∅ }

def dropVictim (cache : Cache) : Cache :=
  { cache with
    entries := cache.entries.eraseAt (cache.victims cache.evictions % cache.size)
    evictions := cache.evictions + 1 }

-- Drops entries until another one fits. The fuel is the number of entries.
def makeRoom : Nat → Cache → Cache
  | 0, cache => cache
  | fuel + 1, cache =>
    if cache.capacity ≤ cache.size then makeRoom fuel cache.dropVictim else cache

def store (cache : Cache) (key : Form × String) (parsed : Parsed) : Cache :=
  let cache := makeRoom cache.size cache
  { cache with entries := cache.entries.insert key parsed }

-- The reading of a text, from the cache if it is there, and the cache with it.
def parse (cache : Cache) (form : Form) (text : String) : Parsed × Cache :=
  match cache.entries.get? (form, text) with
  | some parsed => (parsed, cache)
  | none =>
    let parsed := Binding.parse form text
    if cache.capacity = 0 then (parsed, cache) else (parsed, cache.store (form, text) parsed)

-- Drops the reading of a text that is no longer in use.
def evict (cache : Cache) (form : Form) (text : String) : Cache :=
  { cache with entries := cache.entries.erase (form, text) }

def contains (cache : Cache) (form : Form) (text : String) : Bool :=
  cache.entries.contains (form, text)

end Cache

end Recalc.Binding
