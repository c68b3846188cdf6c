import Recalc.Schedule.Search
import Mathlib.Logic.Relation
import Mathlib.Tactic.Common

namespace Recalc.Schedule

variable {next : Nat → List Nat}

def Leads (next : Nat → List Nat) (v w : Nat) : Prop := w ∈ next v

abbrev Reaches (next : Nat → List Nat) : Nat → Nat → Prop := Relation.ReflTransGen (Leads next)

-- What nothing leads out of holds all that its members reach.
theorem reaches_closed {inside : Nat → Prop} (h : ∀ v, inside v → ∀ w ∈ next v, inside w)
    {v w : Nat} (hv : inside v) (hr : Reaches next v w) : inside w := by
  induction hr with
  | refl => exact hv
  | tail _ hstep ih => exact h _ ih _ hstep

namespace Search

variable {nodes roots : List Nat} {search : Search}

def Known (search : Search) (v : Nat) : Prop := v ∈ search.met ∨ v ∈ search.queue

-- A search from some nodes on its way. What a node that has been met leads to
-- waits at least.
structure Underway (next : Nat → List Nat) (roots : List Nat) (search : Search) : Prop where
  reached : ∀ v, search.Known v → ∃ root ∈ roots, Reaches next root v
  roots : ∀ v ∈ roots, search.Known v
  closed : ∀ v ∈ search.met, ∀ w ∈ next v, search.Known w

theorem underway_start (roots : List Nat) : Underway next roots ⟨∅, roots⟩ where
  reached v hv := ⟨v, hv.resolve_left Std.TreeSet.not_mem_emptyc, .refl⟩
  roots _ hv := Or.inr hv
  closed _ hv := absurd hv Std.TreeSet.not_mem_emptyc

theorem Underway.step (h : Underway next roots search) :
    Underway next roots (search.step next) := by
  obtain ⟨met, queue⟩ := search
  unfold Search.step
  dsimp only
  match queue with
  | [] => exact h
  | node :: queue =>
    dsimp only
    split
    next hmet =>
      -- The node came up before.
      have hknown : ∀ v, Known ⟨met, node :: queue⟩ v ↔ Known ⟨met, queue⟩ v := fun v => by
        simp only [Known, List.mem_cons]
        refine ⟨?_, Or.imp_right Or.inr⟩
        rintro (hv | rfl | hv)
        · exact Or.inl hv
        · exact Or.inl hmet
        · exact Or.inr hv
      exact ⟨fun v hv => h.reached v ((hknown v).mpr hv), fun v hv => (hknown v).mp (h.roots v hv),
        fun v hv w hw => (hknown w).mp (h.closed v hv w hw)⟩
    next hnew =>
      have hknown : ∀ v, Known ⟨met.insert node,
            queue ++ (next node).filter fun target => !(met.insert node).contains target⟩ v ↔
          Known ⟨met, node :: queue⟩ v ∨ v ∈ next node := fun v => by
        simp only [Known, Std.TreeSet.mem_insert, Std.compare_eq_iff_eq, List.mem_append,
          List.mem_filter, Bool.not_eq_true', ← Bool.not_eq_true, Std.TreeSet.contains_iff_mem,
          List.mem_cons, eq_comm (a := node)]
        tauto
      refine ⟨fun v hv => ?_, fun v hv => (hknown v).mpr (Or.inl (h.roots v hv)),
        fun v hv w hw => (hknown w).mpr ?_⟩
      · rcases (hknown v).mp hv with hv | hv
        · exact h.reached v hv
        · obtain ⟨root, hroot, hr⟩ := h.reached node (Or.inr List.mem_cons_self)
          exact ⟨root, hroot, hr.tail hv⟩
      · rcases Std.TreeSet.mem_insert.mp hv with he | hv
        · cases Std.compare_eq_iff_eq.mp he
          exact Or.inr hw
        · exact Or.inl (h.closed v hv w hw)

variable (hnone : ∀ v, v ∉ nodes → next v = [])

-- What a step keeps, the search keeps.
theorem Underway.run (h : Underway next roots search) :
    Underway next roots (search.run hnone) := by
  induction search using Search.run.induct hnone with
  | case1 search hdone =>
      rw [Search.run, dif_pos hdone]
      exact h
  | case2 search hopen ih =>
      rw [Search.run, dif_neg hopen]
      exact ih h.step

theorem queue_run (search : Search) : (search.run hnone).queue = [] := by
  induction search using Search.run.induct hnone with
  | case1 search hdone => rwa [Search.run, dif_pos hdone]
  | case2 search hopen ih => rwa [Search.run, dif_neg hopen]

-- No node waits in the end, so nothing leads out of the nodes met.
theorem mem_met_run (roots : List Nat) (v : Nat) :
    v ∈ (run hnone ⟨∅, roots⟩).met ↔ ∃ root ∈ roots, Reaches next root v := by
  have h : Underway next roots (run hnone ⟨∅, roots⟩) := (underway_start roots).run hnone
  have hknown : ∀ w, (run hnone ⟨∅, roots⟩).Known w → w ∈ (run hnone ⟨∅, roots⟩).met := by
    rintro w (hw | hw)
    · exact hw
    · rw [queue_run hnone] at hw
      exact absurd hw List.not_mem_nil
  constructor
  · exact fun hv => h.reached v (Or.inl hv)
  · rintro ⟨root, hroot, hr⟩
    exact reaches_closed (fun v hv w hw => hknown w (h.closed v hv w hw))
      (hknown root (h.roots root hroot)) hr

end Search

end Recalc.Schedule
