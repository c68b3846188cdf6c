import Recalc.Schedule.Search
import Std.Data.TreeMap

namespace Recalc.Schedule

def successors (adjacency : Array (List Nat)) (node : Nat) : List Nat := adjacency.getD node []

def ascending (nodes : List Nat) : List Nat := (Std.TreeSet.ofList nodes).toList

-- A node with the edges that are still to be followed.
structure Frame where
  node : Nat
  rest : List Nat

-- Nodes whose edges are being followed have frames, so a path of any length is
-- searched without recursion.
structure Descent where
  numbers : Std.TreeMap Nat Nat
  -- The least number on the stack that a node is known to lead to.
  lows : Std.TreeMap Nat Nat
  count : Nat
  -- The nodes met that are in no component yet, the last first.
  stack : List Nat
  onStack : Std.TreeSet Nat
  frames : List Frame
  -- The components, the last first.
  found : List (List Nat)

namespace Descent

def empty : Descent := ⟨∅, ∅, 0, [], ∅, [], []⟩

def number (descent : Descent) (node : Nat) : Nat := descent.numbers.getD node 0

def low (descent : Descent) (node : Nat) : Nat := descent.lows.getD node 0

def enter (next : Nat → List Nat) (descent : Descent) (node : Nat) : Descent :=
  { descent with
    numbers := descent.numbers.insert node descent.count
    lows := descent.lows.insert node descent.count
    count := descent.count + 1
    stack := node :: descent.stack
    onStack := descent.onStack.insert node
    frames := ⟨node, next node⟩ :: descent.frames }

def lower (descent : Descent) (node value : Nat) : Descent :=
  { descent with lows := descent.lows.insert node (min (descent.low node) value) }

-- A node that is met for the first time gets a frame. One that is on the
-- stack lowers what the edge leads from.
def follow (next : Nat → List Nat) (descent : Descent) (node target : Nat) : Descent :=
  match descent.numbers[target]? with
  | none => descent.enter next target
  | some number => if target ∈ descent.onStack then descent.lower node number else descent

-- Takes nodes off a stack, down to a node.
def collect (node : Nat) (members : List Nat) : List Nat → List Nat × List Nat
  | [] => (members, [])
  | top :: rest =>
    if top = node then (top :: members, rest) else collect node (top :: members) rest

def close (descent : Descent) (node : Nat) : Descent :=
  let (members, rest) := collect node [] descent.stack
  { descent with
    stack := rest
    onStack := members.foldl Std.TreeSet.erase descent.onStack
    found := ascending members :: descent.found }

-- What a node has led to counts for the node that it was met from as well.
def pass (descent : Descent) (node : Nat) : List Frame → Descent
  | [] => descent
  | parent :: _ => descent.lower parent.node (descent.low node)

def leave (descent : Descent) (node : Nat) (frames : List Frame) : Descent :=
  let descent := { descent.pass node frames with frames }
  if descent.low node = descent.number node then descent.close node else descent

def step (next : Nat → List Nat) (descent : Descent) : Descent :=
  match descent.frames with
  | [] => descent
  | ⟨node, target :: rest⟩ :: frames =>
    follow next { descent with frames := ⟨node, rest⟩ :: frames } node target
  | ⟨node, []⟩ :: frames => descent.leave node frames

section Weight

variable {adjacency : Array (List Nat)}

def restSize : List Frame → Nat
  | [] => 0
  | frame :: frames => frame.rest.length + restSize frames

-- The edges that have not been followed count twice, since following one may
-- add a frame.
def weight (adjacency : Array (List Nat)) (descent : Descent) : Nat :=
  2 * (restSize descent.frames +
    ahead (successors adjacency) (List.range adjacency.size) descent.numbers.contains) +
      descent.frames.length

theorem successors_of_not_mem_range {node : Nat} (h : node ∉ List.range adjacency.size) :
    successors adjacency node = [] := by
  have hsize : adjacency.size ≤ node := Nat.le_of_not_lt fun hlt => h (List.mem_range.mpr hlt)
  simp [successors, hsize]

theorem weight_follow (descent : Descent) {node target : Nat} {rest : List Nat}
    {frames : List Frame} :
    (follow (successors adjacency) { descent with frames := ⟨node, rest⟩ :: frames } node
        target).weight adjacency <
      { descent with frames := ⟨node, target :: rest⟩ :: frames }.weight adjacency := by
  unfold follow
  dsimp only
  cases hn : descent.numbers[target]? with
  | none =>
      have hnew : descent.numbers.contains target = false := by
        rw [Std.TreeMap.contains_eq_isSome_getElem?, hn]
        rfl
      have hnow : ∀ v, (descent.numbers.insert target descent.count).contains v = true ↔
          v = target ∨ descent.numbers.contains v = true := fun v => by
        rw [Std.TreeMap.contains_insert, Bool.or_eq_true, beq_iff_eq, Std.compare_eq_iff_eq,
          eq_comm]
      have hrange : target ∉ List.range adjacency.size → successors adjacency target = [] :=
        successors_of_not_mem_range
      have := ahead_add_le hrange hnew hnow
      simp only [weight, enter, restSize, List.length_cons]
      omega
  | some number =>
      dsimp only
      split <;> simp only [weight, lower, restSize, List.length_cons] <;> omega

theorem weight_leave (descent : Descent) {node : Nat} {frames : List Frame} :
    (descent.leave node frames).weight adjacency <
      { descent with frames := ⟨node, []⟩ :: frames }.weight adjacency := by
  have hclose : ∀ now : Descent, (now.close node).weight adjacency = now.weight adjacency :=
    fun _ => rfl
  have hpass : (descent.pass node frames).numbers = descent.numbers := by cases frames <;> rfl
  have hless : { descent.pass node frames with frames }.weight adjacency <
      { descent with frames := ⟨node, []⟩ :: frames }.weight adjacency := by
    simp only [weight, restSize, List.length_cons, List.length_nil, hpass]
    omega
  unfold leave
  dsimp only
  split
  · rwa [hclose]
  · exact hless

theorem weight_step {descent : Descent} (h : descent.frames ≠ []) :
    (descent.step (successors adjacency)).weight adjacency < descent.weight adjacency := by
  obtain ⟨numbers, lows, count, stack, onStack, frames, found⟩ := descent
  match frames, h with
  | ⟨_, _ :: _⟩ :: _, _ => exact weight_follow ⟨_, _, _, _, _, [], _⟩
  | ⟨_, []⟩ :: _, _ => exact weight_leave ⟨_, _, _, _, _, _, _⟩

end Weight

-- Takes steps until no frame is left.
def explore (adjacency : Array (List Nat)) (descent : Descent) : Descent :=
  if _ : descent.frames = [] then descent
  else explore adjacency (descent.step (successors adjacency))
termination_by descent.weight adjacency
decreasing_by exact weight_step ‹_›

end Descent

def addRoot (adjacency : Array (List Nat)) (descent : Descent) (root : Nat) : Descent :=
  if root ∈ descent.numbers then descent
  else (descent.enter (successors adjacency) root).explore adjacency

-- The components, each in ascending order, after all those that they reach.
def components (adjacency : Array (List Nat)) : List (List Nat) :=
  ((List.range adjacency.size).foldl (addRoot adjacency) .empty).found.reverse

end Recalc.Schedule
