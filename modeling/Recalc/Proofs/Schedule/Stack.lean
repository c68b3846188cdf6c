import Recalc.Proofs.Schedule.Component

namespace Recalc.Schedule.Descent

variable {next : Nat → List Nat} {descent : Descent} {node value u v : Nat} {frames : List Frame}

-- The nodes with frames, each of which was met from the one after it.
def path (descent : Descent) : List Nat := descent.frames.map Frame.node

section Tables

theorem number_enter : (descent.enter next node).number v =
    if v = node then descent.count else descent.number v := by
  rw [number, enter, Std.TreeMap.getD_insert]
  simp only [Std.compare_eq_iff_eq, eq_comm (a := node), number]

theorem low_enter : (descent.enter next node).low v =
    if v = node then descent.count else descent.low v := by
  rw [low, enter, Std.TreeMap.getD_insert]
  simp only [Std.compare_eq_iff_eq, eq_comm (a := node), low]

theorem mem_numbers_enter : v ∈ (descent.enter next node).numbers ↔
    v = node ∨ v ∈ descent.numbers := by
  rw [enter, Std.TreeMap.mem_insert, Std.compare_eq_iff_eq, eq_comm]

theorem mem_stack_enter : v ∈ (descent.enter next node).stack ↔ v = node ∨ v ∈ descent.stack :=
  List.mem_cons

theorem mem_path_enter : v ∈ (descent.enter next node).path ↔ v = node ∨ v ∈ descent.path :=
  List.mem_cons

theorem path_of_frames {frame : Frame} (h : descent.frames = frame :: frames) :
    descent.path = frame.node :: frames.map Frame.node := by
  rw [path, h, List.map_cons]

theorem mem_path_of_frames {frame : Frame} (h : descent.frames = frame :: frames) :
    frame.node ∈ descent.path :=
  path_of_frames h ▸ List.mem_cons_self

theorem low_lower : (descent.lower node value).low v =
    if v = node then min (descent.low node) value else descent.low v := by
  simp only [low, lower, Std.TreeMap.getD_insert, Std.compare_eq_iff_eq]
  split <;> split <;> simp_all

theorem low_lower_le (v : Nat) : (descent.lower node value).low v ≤ descent.low v := by
  rw [low_lower]
  split
  · next he =>
    rw [he]
    exact Nat.min_le_left _ _
  · exact Nat.le_refl _

theorem pass_eq (descent : Descent) (node : Nat) (frames : List Frame) :
    ∃ lows, descent.pass node frames = { descent with lows } := by
  cases frames
  · exact ⟨descent.lows, rfl⟩
  · exact ⟨_, rfl⟩

theorem collect_append {members above rest : List Nat} (h : node ∉ above) :
    collect node members (above ++ node :: rest) = (node :: (above.reverse ++ members), rest) := by
  induction above generalizing members with
  | nil => simp [collect]
  | cons top above ih =>
      rw [List.mem_cons, not_or] at h
      obtain ⟨hne, hrest⟩ := h
      rw [List.cons_append, collect, if_neg (Ne.symm hne), ih hrest]
      simp

theorem mem_foldl_erase {nodes : Std.TreeSet Nat} (members : List Nat) :
    v ∈ members.foldl Std.TreeSet.erase nodes ↔ v ∈ nodes ∧ v ∉ members := by
  induction members generalizing nodes with
  | nil => simp
  | cons node rest ih =>
      rw [List.foldl_cons, ih, Std.TreeSet.mem_erase, List.mem_cons, not_or]
      simp only [Std.compare_eq_iff_eq, ne_eq, eq_comm (a := node)]
      tauto

end Tables

-- The tables agree. Nodes are numbered as they come onto the stack and stay
-- there until they belong to a component.
structure Numbered (descent : Descent) : Prop where
  numbered : ∀ v, v ∈ descent.numbers ↔ v ∈ descent.stack ∨ v ∈ descent.found.flatten
  small : ∀ v ∈ descent.numbers, descent.number v < descent.count
  sorted : descent.stack.Pairwise fun v w => descent.number w < descent.number v
  marked : ∀ v, v ∈ descent.onStack ↔ v ∈ descent.stack
  apart : ∀ v ∈ descent.stack, v ∉ descent.found.flatten
  framed : descent.path.Sublist descent.stack

namespace Numbered

section

variable (h : descent.Numbered)

include h

theorem path_subset : descent.path ⊆ descent.stack := h.framed.subset

theorem number_lt_of_mem_stack (hv : v ∈ descent.stack) : descent.number v < descent.count :=
  h.small v ((h.numbered v).mpr (Or.inl hv))

theorem ne_of_new (hnew : node ∉ descent.numbers) (hv : v ∈ descent.stack) : v ≠ node := by
  rintro rfl
  exact hnew ((h.numbered v).mpr (Or.inl hv))

-- The first frame belongs to the youngest node with a frame.
theorem number_lt_of_mem_tail {frame : Frame} (hframes : descent.frames = frame :: frames)
    (hu : u ∈ frames.map Frame.node) : descent.number u < descent.number frame.node := by
  have hpath := h.sorted.sublist h.framed
  rw [path_of_frames hframes, List.pairwise_cons] at hpath
  exact hpath.1 u hu

theorem number_le_of_mem_path {frame : Frame} (hframes : descent.frames = frame :: frames)
    (hu : u ∈ descent.path) : descent.number u ≤ descent.number frame.node := by
  rw [path_of_frames hframes] at hu
  rcases List.mem_cons.mp hu with rfl | hu
  · exact Nat.le_refl _
  · exact (h.number_lt_of_mem_tail hframes hu).le

theorem eq_of_number_le {frame : Frame} (hframes : descent.frames = frame :: frames)
    (hu : u ∈ descent.path) (hle : descent.number frame.node ≤ descent.number u) :
    u = frame.node := by
  rw [path_of_frames hframes] at hu
  rcases List.mem_cons.mp hu with rfl | hu
  · rfl
  · have := h.number_lt_of_mem_tail hframes hu
    omega

-- A node takes itself and all younger nodes off the stack.
theorem exists_close (frames : List Frame) (hnode : node ∈ descent.stack) :
    ∃ members rest, Descent.close { descent with frames } node =
        { descent with
          frames
          stack := rest
          onStack := members.foldl Std.TreeSet.erase descent.onStack
          found := ascending members :: descent.found } ∧
      descent.stack = members.reverse ++ rest ∧
      (∀ v, v ∈ members ↔ v ∈ descent.stack ∧ descent.number node ≤ descent.number v) ∧
        ∀ v, v ∈ rest ↔ v ∈ descent.stack ∧ descent.number v < descent.number node := by
  obtain ⟨above, rest, hstack⟩ := List.append_of_mem hnode
  have hsorted := h.sorted
  rw [hstack, List.pairwise_append, List.pairwise_cons] at hsorted
  obtain ⟨-, ⟨hrest, -⟩, habove⟩ := hsorted
  have hover : ∀ v ∈ above, descent.number node < descent.number v := fun v hv =>
    habove v hv node List.mem_cons_self
  have hout : node ∉ above := fun hin => Nat.lt_irrefl _ (hover node hin)
  refine ⟨node :: (above.reverse ++ []), rest, ?_, ?_, fun v => ?_, fun v => ?_⟩
  · simp only [close, hstack, collect_append hout]
  · simp [hstack]
  · have hv : v ∈ descent.stack ↔ v ∈ above ∨ v = node ∨ v ∈ rest := by simp [hstack]
    rw [hv, List.append_nil, List.mem_cons, List.mem_reverse]
    constructor
    · rintro (rfl | hin)
      · exact ⟨Or.inr (Or.inl rfl), Nat.le_refl _⟩
      · exact ⟨Or.inl hin, (hover v hin).le⟩
    · rintro ⟨hin | rfl | hin, hle⟩
      · exact Or.inr hin
      · exact Or.inl rfl
      · have := hrest v hin
        omega
  · have hv : v ∈ descent.stack ↔ v ∈ above ∨ v = node ∨ v ∈ rest := by simp [hstack]
    rw [hv]
    constructor
    · exact fun hin => ⟨Or.inr (Or.inr hin), hrest v hin⟩
    · rintro ⟨hin | rfl | hin, hlt⟩
      · have := hover v hin
        omega
      · exact absurd hlt (Nat.lt_irrefl _)
      · exact hin

theorem enter (next : Nat → List Nat) (hnew : node ∉ descent.numbers) :
    (descent.enter next node).Numbered := by
  have hnumber : ∀ v ∈ descent.stack, (descent.enter next node).number v = descent.number v :=
    fun v hv => by rw [number_enter, if_neg (h.ne_of_new hnew hv)]
  constructor
  case numbered =>
    intro v
    rw [mem_numbers_enter, h.numbered, mem_stack_enter, or_assoc]
    exact Iff.rfl
  case small =>
    intro v hv
    show _ < descent.count + 1
    rw [number_enter]
    split
    · exact Nat.lt_succ_self _
    · next hne => exact Nat.lt_succ_of_lt (h.small v ((mem_numbers_enter.mp hv).resolve_left hne))
  case sorted =>
    refine List.pairwise_cons.mpr ⟨fun v hv => ?_, h.sorted.imp_of_mem fun hv hw hlt => ?_⟩
    · rw [hnumber v hv, number_enter, if_pos rfl]
      exact h.number_lt_of_mem_stack hv
    · rwa [hnumber _ hv, hnumber _ hw]
  case marked =>
    intro v
    show v ∈ descent.onStack.insert node ↔ _
    rw [Std.TreeSet.mem_insert, Std.compare_eq_iff_eq, h.marked, mem_stack_enter]
    exact or_congr_left eq_comm
  case apart =>
    intro v hv
    rcases mem_stack_enter.mp hv with rfl | hold
    · exact fun hin => hnew ((h.numbered v).mpr (Or.inr hin))
    · exact h.apart v hold
  case framed => exact h.framed.cons_cons node

-- A frame goes when nothing is left of it.
theorem pop {frame : Frame} (hframes : descent.frames = frame :: frames) :
    ({ descent with frames } : Descent).Numbered :=
  { h with framed := (List.sublist_cons_self _ _).trans (path_of_frames hframes ▸ h.framed) }

end

-- The nodes of the other frames are older than what closes, so they stay.
theorem close {frame : Frame} (h : descent.Numbered)
    (hframes : descent.frames = frame :: frames) :
    (Descent.close { descent with frames } frame.node).Numbered := by
  have hnode : frame.node ∈ descent.stack := h.path_subset (mem_path_of_frames hframes)
  obtain ⟨members, rest, hclose, happend, hmembers, hrest⟩ := h.exists_close frames hnode
  rw [hclose]
  have hflatten : ∀ v, v ∈ (ascending members :: descent.found).flatten ↔
      v ∈ members ∨ v ∈ descent.found.flatten := fun v => by
    rw [List.flatten_cons, List.mem_append, mem_ascending]
  have hsplit : ∀ v, v ∈ descent.stack ↔ v ∈ members ∨ v ∈ rest := fun v => by
    rw [happend, List.mem_append, List.mem_reverse]
  have hapart : ∀ v ∈ rest, v ∉ members := fun v hr hm => by
    have := ((hmembers v).mp hm).2
    have := ((hrest v).mp hr).2
    omega
  constructor
  case numbered =>
    intro v
    rw [hflatten, h.numbered, hsplit, or_comm (a := v ∈ members), or_assoc]
  case small => exact h.small
  case sorted => exact h.sorted.sublist (happend ▸ List.sublist_append_right _ _)
  case marked =>
    intro v
    show v ∈ members.foldl Std.TreeSet.erase descent.onStack ↔ v ∈ rest
    rw [mem_foldl_erase, h.marked, hsplit]
    exact ⟨fun hv => hv.1.resolve_left hv.2, fun hv => ⟨Or.inr hv, hapart v hv⟩⟩
  case apart =>
    intro v hv
    rw [hflatten, not_or]
    exact ⟨hapart v hv, h.apart v ((hsplit v).mpr (Or.inr hv))⟩
  case framed =>
    -- A filter that keeps what stays on the stack keeps the frames.
    have hfilter := (h.pop hframes).framed.filter fun v => decide (v ∈ rest)
    have hframed : ∀ u ∈ frames.map Frame.node, u ∈ rest := fun u hu =>
      (hrest u).mpr ⟨(h.pop hframes).path_subset hu, h.number_lt_of_mem_tail hframes hu⟩
    have hnone : members.reverse.filter (fun v => decide (v ∈ rest)) = [] :=
      List.filter_eq_nil_iff.mpr fun v hv hin =>
        hapart v (of_decide_eq_true hin) (List.mem_reverse.mp hv)
    show (frames.map Frame.node).Sublist rest
    rw [← List.filter_eq_self.mpr fun u hu => decide_eq_true (hframed u hu)]
    dsimp only at hfilter
    rwa [happend, List.filter_append, hnone, List.nil_append,
      List.filter_eq_self.mpr fun v hv => decide_eq_true hv] at hfilter

end Numbered

end Recalc.Schedule.Descent
