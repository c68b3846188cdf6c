import Recalc.Schedule.Component
import Std.Data.TreeMap

namespace Recalc.Schedule

-- A unit is a component. It is known by its first member.
structure Cluster where
  members : List Nat
  cyclic : Bool
deriving DecidableEq

section Units

-- The components by their units.
def byUnit (found : List (List Nat)) : Std.TreeMap Nat (List Nat) :=
  found.foldr (fun members table => table.insert (members.headD 0) members) ∅

-- The units of the nodes.
def unitsOf (found : List (List Nat)) : Std.TreeMap Nat Nat :=
  found.foldr (fun members table =>
    members.foldl (fun table node => table.insert node (members.headD 0)) table) ∅

-- The edges between units, one for each edge between their nodes.
def crossings (adjacency : Array (List Nat)) (unit : Nat → Nat) : List (Nat × Nat) :=
  (List.range adjacency.size).flatMap fun node =>
    ((successors adjacency node).map fun target => (unit node, unit target)).filter fun edge =>
      edge.1 != edge.2

-- How many edges lead out of each unit.
def counts (edges : List (Nat × Nat)) : Std.TreeMap Nat Nat :=
  edges.foldr (fun edge table => table.insert edge.1 (table.getD edge.1 0 + 1)) ∅

-- The units that edges to a unit come from.
def sources (edges : List (Nat × Nat)) : Std.TreeMap Nat (List Nat) :=
  edges.foldr (fun edge table => table.insert edge.2 (edge.1 :: table.getD edge.2 [])) ∅

end Units

structure Drain where
  -- The edges left of each unit that has any.
  remaining : Std.TreeMap Nat Nat
  ready : Std.TreeSet Nat

namespace Drain

def left (drain : Drain) (unit : Nat) : Nat := drain.remaining.getD unit 0

-- Settles one edge that leads out of a unit.
def settle (drain : Drain) (unit : Nat) : Drain :=
  match drain.left unit with
  | 0 => drain
  | 1 => ⟨drain.remaining.erase unit, drain.ready.insert unit⟩
  | count + 2 => { drain with remaining := drain.remaining.insert unit (count + 1) }

-- Takes the units that are ready.
def advance (sources : Std.TreeMap Nat (List Nat)) (drain : Drain) : Drain :=
  (drain.ready.toList.flatMap fun unit => sources.getD unit []).foldl settle
    { drain with ready := ∅ }

section Weight

def weight (drain : Drain) : Nat := drain.remaining.size + drain.ready.size

theorem contains_of_left {drain : Drain} {unit : Nat} (h : drain.left unit ≠ 0) :
    drain.remaining.contains unit = true :=
  eq_true_of_ne_false fun hn =>
    h (Std.TreeMap.getD_eq_fallback_of_contains_eq_false hn)

theorem weight_settle (drain : Drain) (unit : Nat) : (drain.settle unit).weight ≤ drain.weight := by
  unfold settle
  split
  next => exact Nat.le_refl _
  next h =>
    have hin := contains_of_left (by omega : drain.left unit ≠ 0)
    have hsize : drain.remaining.size ≠ 0 := fun hzero => by
      have hempty : drain.remaining.isEmpty = true := by
        rw [Std.TreeMap.isEmpty_eq_size_eq_zero, hzero]
        rfl
      rw [Std.TreeMap.isEmpty_iff_forall_contains.mp hempty unit] at hin
      exact Bool.false_ne_true hin
    have hready : (drain.ready.insert unit).size ≤ drain.ready.size + 1 :=
      Std.TreeSet.size_insert_le
    simp only [weight, Std.TreeMap.size_erase, hin, if_true]
    omega
  next count h =>
    have hin := contains_of_left (by omega : drain.left unit ≠ 0)
    simp only [weight, Std.TreeMap.size_insert, hin, if_true]
    exact Nat.le_refl _

theorem weight_foldl_settle (units : List Nat) (drain : Drain) :
    (units.foldl settle drain).weight ≤ drain.weight := by
  induction units generalizing drain with
  | nil => exact Nat.le_refl _
  | cons unit rest ih => exact Nat.le_trans (ih (drain.settle unit)) (drain.weight_settle unit)

-- The units that have been taken count no more.
theorem weight_advance {sources : Std.TreeMap Nat (List Nat)} {drain : Drain}
    (h : ¬drain.ready.isEmpty) : (drain.advance sources).weight < drain.weight := by
  have hready : drain.ready.size ≠ 0 := fun hzero => h (by
    rw [Std.TreeSet.isEmpty_eq_size_eq_zero, hzero]
    rfl)
  refine Nat.lt_of_le_of_lt (weight_foldl_settle _ _) ?_
  simp only [weight, Std.TreeSet.size_emptyc]
  omega

end Weight

-- Takes waves until no unit is ready.
def waves (sources : Std.TreeMap Nat (List Nat)) (drain : Drain) : List (List Nat) :=
  if drain.ready.isEmpty then [] else drain.ready.toList :: (drain.advance sources).waves sources
termination_by drain.weight
decreasing_by exact weight_advance ‹_›

def start (units : List Nat) (edges : List (Nat × Nat)) : Drain :=
  let remaining := counts edges
  ⟨remaining, Std.TreeSet.ofList (units.filter fun unit => remaining.getD unit 0 == 0)⟩

end Drain

def isCyclic (adjacency : Array (List Nat)) (members : List Nat) : Bool :=
  1 < members.length || (successors adjacency (members.headD 0)).contains (members.headD 0)

def clusterOf (adjacency : Array (List Nat)) (table : Std.TreeMap Nat (List Nat)) (unit : Nat) :
    Cluster :=
  let members := table.getD unit []
  ⟨members, isCyclic adjacency members⟩

def waves (adjacency : Array (List Nat)) : List (List Cluster) :=
  let found := components adjacency
  let units := unitsOf found
  let clusters := byUnit found
  let edges := crossings adjacency fun node => units.getD node 0
  ((Drain.start (found.map (·.headD 0)) edges).waves (sources edges)).map fun wave =>
    wave.map (clusterOf adjacency clusters)

end Recalc.Schedule
