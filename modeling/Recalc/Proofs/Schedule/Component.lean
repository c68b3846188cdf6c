import Mathlib.Data.List.Sort
import Recalc.Proofs.Schedule.Search
import Recalc.Schedule.Component

namespace Recalc.Schedule

section Edges

variable {adjacency : Array (List Nat)}

-- Edges lead to nodes.
def Bounded (adjacency : Array (List Nat)) : Prop :=
  ∀ v, ∀ w ∈ successors adjacency v, w < adjacency.size

theorem bounded_of_mem (h : ∀ reads ∈ adjacency, ∀ w ∈ reads, w < adjacency.size) :
    Bounded adjacency := by
  intro v w hw
  by_cases hv : v < adjacency.size
  · simp only [successors, Array.getD_eq_getD_getElem?, Array.getElem?_eq_getElem hv,
      Option.getD_some] at hw
    exact h _ (Array.getElem_mem hv) w hw
  · simp [successors, hv] at hw

end Edges

variable {next : Nat → List Nat}

-- Components with all that they reach, the last one first.
inductive Layered (next : Nat → List Nat) : List (List Nat) → Prop
  | nil : Layered next []
  | cons {members : List Nat} {found : List (List Nat)}
      (nonempty : members ≠ [])
      (ascends : members.Pairwise (· < ·))
      (strong : ∀ v ∈ members, ∀ w, w ∈ members ↔ Reaches next v w ∧ Reaches next w v)
      (fresh : ∀ v ∈ members, v ∉ found.flatten)
      (below : ∀ v ∈ members, ∀ w ∈ next v, w ∈ members ∨ w ∈ found.flatten)
      (rest : Layered next found) : Layered next (members :: found)

namespace Layered

variable {found other : List (List Nat)} {members : List Nat}

theorem closed (h : Layered next found) :
    ∀ v ∈ found.flatten, ∀ w ∈ next v, w ∈ found.flatten := by
  induction h with
  | nil => exact fun v hv => absurd hv List.not_mem_nil
  | cons _ _ _ _ below _ ih =>
      intro v hv w hw
      rw [List.flatten_cons, List.mem_append] at hv ⊢
      rcases hv with hv | hv
      · exact below v hv w hw
      · exact Or.inr (ih v hv w hw)

theorem nonempty_of_mem (h : Layered next found) (hm : members ∈ found) : members ≠ [] := by
  induction h with
  | nil => exact absurd hm List.not_mem_nil
  | cons nonempty _ _ _ _ _ ih =>
      rcases List.mem_cons.mp hm with rfl | hm
      · exact nonempty
      · exact ih hm

theorem ascends_of_mem (h : Layered next found) (hm : members ∈ found) :
    members.Pairwise (· < ·) := by
  induction h with
  | nil => exact absurd hm List.not_mem_nil
  | cons _ ascends _ _ _ _ ih =>
      rcases List.mem_cons.mp hm with rfl | hm
      · exact ascends
      · exact ih hm

theorem strong_of_mem (h : Layered next found) (hm : members ∈ found) {v : Nat}
    (hv : v ∈ members) (w : Nat) : w ∈ members ↔ Reaches next v w ∧ Reaches next w v := by
  induction h with
  | nil => exact absurd hm List.not_mem_nil
  | cons _ _ strong _ _ _ ih =>
      rcases List.mem_cons.mp hm with rfl | hm
      · exact strong v hv w
      · exact ih hm

theorem nodup (h : Layered next found) : found.flatten.Nodup := by
  induction h with
  | nil => exact List.nodup_nil
  | cons _ ascends _ fresh _ _ ih =>
      rw [List.flatten_cons, List.nodup_append]
      refine ⟨ascends.imp Nat.ne_of_lt, ih, fun v hv w hw => ?_⟩
      rintro rfl
      exact fresh v hv hw

-- Nothing that a component reaches reaches it in turn.
theorem pairwise_not_reaches (h : Layered next found) :
    found.Pairwise fun later earlier => ∀ v ∈ earlier, ∀ w ∈ later, ¬Reaches next v w := by
  induction h with
  | nil => exact .nil
  | cons _ _ _ fresh _ rest ih =>
      refine List.pairwise_cons.mpr ⟨fun earlier he v hv w hw hr => fresh w hw ?_, ih⟩
      exact reaches_closed rest.closed (List.mem_flatten.mpr ⟨earlier, he, hv⟩) hr

-- A component is known by any of its members and by the edges alone.
theorem eq_of_mem {same : Nat → List Nat} (h : Layered next found) (k : Layered same other)
    (he : ∀ v w, w ∈ next v ↔ w ∈ same v) {second : List Nat} (hm : members ∈ found)
    (hs : second ∈ other) {v : Nat} (hv : v ∈ members) (hw : v ∈ second) : members = second := by
  have hleads : Leads next = Leads same := by
    funext v w
    exact propext (he v w)
  refine (h.ascends_of_mem hm).eq_of_mem_iff (k.ascends_of_mem hs) fun w => ?_
  rw [h.strong_of_mem hm hv, k.strong_of_mem hs hw, Reaches, Reaches, hleads]

theorem mem_of_subset {same : Nat → List Nat} (h : Layered next found) (k : Layered same other)
    (he : ∀ v w, w ∈ next v ↔ w ∈ same v) (hall : found.flatten ⊆ other.flatten)
    (hm : members ∈ found) : members ∈ other := by
  obtain ⟨v, hv⟩ := List.exists_mem_of_ne_nil _ (h.nonempty_of_mem hm)
  obtain ⟨second, hs, hw⟩ := List.mem_flatten.mp (hall (List.mem_flatten.mpr ⟨members, hm, hv⟩))
  rw [h.eq_of_mem k he hm hs hv hw]
  exact hs

theorem mem_congr {same : Nat → List Nat} (h : Layered next found) (k : Layered same other)
    (he : ∀ v w, w ∈ next v ↔ w ∈ same v) (hall : ∀ v, v ∈ found.flatten ↔ v ∈ other.flatten) :
    members ∈ found ↔ members ∈ other :=
  ⟨h.mem_of_subset k he fun v => (hall v).mp,
    k.mem_of_subset h (fun v w => (he v w).symm) fun v => (hall v).mpr⟩

end Layered

section Growing

variable {root : Nat}

theorem mem_ascending {nodes : List Nat} {v : Nat} : v ∈ ascending nodes ↔ v ∈ nodes := by
  simp [ascending, Std.TreeSet.mem_toList, Std.TreeSet.mem_ofList]

theorem pairwise_ascending (nodes : List Nat) : (ascending nodes).Pairwise (· < ·) :=
  (Std.TreeSet.ordered_toList (t := Std.TreeSet.ofList nodes)).imp Nat.compare_eq_lt.mp

-- A tree whose nodes all lead back to its root is a component.
theorem Layered.addTree {found : List (List Nat)} (h : Layered next found) {tree : List Nat}
    (hroot : root ∉ found.flatten)
    (hmem : ∀ v, v ∈ tree ↔ Reaches next root v ∧ v ∉ found.flatten)
    (hreturn : ∀ v ∈ tree, Reaches next v root) : Layered next (ascending tree :: found) := by
  refine .cons ?_ (pairwise_ascending tree) ?_ ?_ ?_ h
  · exact List.ne_nil_of_mem (mem_ascending.mpr ((hmem root).mpr ⟨.refl, hroot⟩))
  · intro v hv w
    rw [mem_ascending] at hv ⊢
    obtain ⟨hr, hout⟩ := (hmem v).mp hv
    constructor
    · intro hw
      exact ⟨(hreturn v hv).trans ((hmem w).mp hw).1, (hreturn w hw).trans hr⟩
    · rintro ⟨hvw, hwv⟩
      exact (hmem w).mpr ⟨hr.trans hvw, fun hw => hout (reaches_closed h.closed hw hwv)⟩
  · intro v hv
    exact ((hmem v).mp (mem_ascending.mp hv)).2
  · intro v hv w hw
    rw [mem_ascending] at hv ⊢
    by_cases hin : w ∈ found.flatten
    · exact Or.inr hin
    · exact Or.inl ((hmem w).mpr ⟨.tail ((hmem v).mp hv).1 hw, hin⟩)

end Growing

end Recalc.Schedule
