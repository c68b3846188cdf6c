import Std.Data.TreeSet

namespace Recalc.Schedule

section Ahead

variable {next : Nat → List Nat} {nodes : List Nat} {met now : Nat → Bool} {node : Nat}

-- The edges of a node, as long as it has not been met.
def edgesAhead (next : Nat → List Nat) (met : Nat → Bool) (node : Nat) : Nat :=
  if met node then 0 else (next node).length

def ahead (next : Nat → List Nat) : List Nat → (Nat → Bool) → Nat
  | [], _ => 0
  | node :: rest, met => edgesAhead next met node + ahead next rest met

-- A node that is met takes its edges along.
theorem edgesAhead_le (hnow : ∀ v, now v = true ↔ v = node ∨ met v = true) (v : Nat) :
    edgesAhead next now v ≤ edgesAhead next met v := by
  by_cases hv : met v = true
  · rw [edgesAhead, if_pos ((hnow v).mpr (Or.inr hv))]
    exact Nat.zero_le _
  · simp only [edgesAhead, if_neg hv]
    split <;> omega

theorem ahead_le (hnow : ∀ v, now v = true ↔ v = node ∨ met v = true) (nodes : List Nat) :
    ahead next nodes now ≤ ahead next nodes met := by
  induction nodes with
  | nil => exact Nat.le_refl 0
  | cons v rest ih => exact Nat.add_le_add (edgesAhead_le hnow v) ih

theorem ahead_add_le (hnone : node ∉ nodes → next node = []) (hnew : met node = false)
    (hnow : ∀ v, now v = true ↔ v = node ∨ met v = true) :
    ahead next nodes now + (next node).length ≤ ahead next nodes met := by
  induction nodes with
  | nil => simp [ahead, hnone List.not_mem_nil]
  | cons v rest ih =>
      have hrest : ahead next rest now ≤ ahead next rest met := ahead_le hnow rest
      simp only [ahead]
      by_cases hv : node = v
      · subst hv
        have hzero : edgesAhead next now node = 0 := if_pos ((hnow node).mpr (Or.inl rfl))
        have hold : edgesAhead next met node = (next node).length := by simp [edgesAhead, hnew]
        omega
      · have := ih fun hnode => hnone fun h => (List.mem_cons.mp h).elim hv hnode
        have : edgesAhead next now v ≤ edgesAhead next met v := edgesAhead_le hnow v
        omega

end Ahead

-- A node waits in the queue once for each edge that was followed to it before
-- its turn came, so it can come up again after it has been met.
structure Search where
  met : Std.TreeSet Nat
  queue : List Nat

namespace Search

variable {next : Nat → List Nat} {nodes : List Nat}

def step (next : Nat → List Nat) (search : Search) : Search :=
  match search.queue with
  | [] => search
  | node :: queue =>
    if node ∈ search.met then { search with queue }
    else
      let met := search.met.insert node
      ⟨met, queue ++ (next node).filter fun target => !met.contains target⟩

def weight (next : Nat → List Nat) (nodes : List Nat) (search : Search) : Nat :=
  search.queue.length + ahead next nodes search.met.contains

theorem weight_step (hnone : ∀ v, v ∉ nodes → next v = []) {search : Search}
    (h : search.queue ≠ []) : (search.step next).weight next nodes < search.weight next nodes := by
  obtain ⟨met, queue⟩ := search
  match queue, h with
  | node :: queue, _ =>
    unfold step
    dsimp only
    split
    · simp only [weight, List.length_cons]
      omega
    next hnew =>
      have hfalse : met.contains node = false := by
        rw [← Bool.not_eq_true, Std.TreeSet.contains_iff_mem]
        exact hnew
      have hnow : ∀ v, (met.insert node).contains v = true ↔
          v = node ∨ met.contains v = true := fun v => by
        rw [Std.TreeSet.contains_iff_mem, Std.TreeSet.mem_insert, Std.compare_eq_iff_eq,
          Std.TreeSet.contains_iff_mem, eq_comm]
      have hahead := ahead_add_le (hnone node) hfalse hnow
      have hfilter := List.length_filter_le (fun target => !(met.insert node).contains target)
        (next node)
      simp only [weight, List.length_append, List.length_cons]
      omega

-- Takes steps until no node waits. Nothing leads out of a node that is not
-- listed.
def run (hnone : ∀ v, v ∉ nodes → next v = []) (search : Search) : Search :=
  if _ : search.queue = [] then search else run hnone (search.step next)
termination_by search.weight next nodes
decreasing_by exact weight_step hnone ‹_›

end Search

end Recalc.Schedule
