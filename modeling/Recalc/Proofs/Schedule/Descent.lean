import Recalc.Proofs.Schedule.Stack

namespace Recalc.Schedule

namespace Descent

variable {next : Nat → List Nat} {followed : Nat → Nat → Prop} {descent : Descent}
  {node target u v w : Nat} {frames : List Frame}

-- What is known of a search when some of the edges have been followed.
structure Explored (next : Nat → List Nat) (followed : Nat → Nat → Prop) (descent : Descent) : Prop
    extends Numbered descent where
  layered : Layered next descent.found
  rests : ∀ frame ∈ descent.frames, frame.rest ⊆ next frame.node
  descends : ∀ u ∈ descent.path, ∀ v ∈ descent.stack, descent.number u ≤ descent.number v →
    Reaches next u v
  returns : ∀ v ∈ descent.stack, v ∉ descent.path →
    ∃ w ∈ descent.stack, descent.number w < descent.number v ∧ Reaches next v w
  low_le : ∀ u ∈ descent.path, descent.low u ≤ descent.number u
  attained : ∀ u ∈ descent.path,
    ∃ w ∈ descent.stack, descent.number w = descent.low u ∧ Reaches next u w
  seen : ∀ v ∈ descent.stack, ∀ w, followed v w → w ∈ descent.numbers
  -- An edge from a node of the stack to another one counts for a node with a
  -- frame that is no older than any given one below its start.
  kept : ∀ u ∈ descent.path, ∀ v ∈ descent.stack, descent.number u ≤ descent.number v →
    ∀ w ∈ descent.stack, followed v w →
      ∃ x ∈ descent.path, descent.number u ≤ descent.number x ∧ descent.low x ≤ descent.number w

-- The edges of the nodes on the stack that are not left in a frame.
def Followed (next : Nat → List Nat) (descent : Descent) (v w : Nat) : Prop :=
  v ∈ descent.stack ∧ w ∈ next v ∧ ∀ frame ∈ descent.frames, frame.node = v → w ∉ frame.rest

namespace Explored

theorem mono {other : Nat → Nat → Prop} (h : Explored next followed descent)
    (hless : ∀ v w, other v w → followed v w) : Explored next other descent :=
  { h with
    seen := fun v hv w hf => h.seen v hv w (hless v w hf)
    kept := fun u hu v hv hle w hw hf => h.kept u hu v hv hle w hw (hless v w hf) }

-- An edge that is followed leads to a node that has been met. If that is on the
-- stack, a frame below the start of the edge accounts for it.
theorem addEdge (h : Explored next followed descent) (hmet : target ∈ descent.numbers)
    (hlow : target ∈ descent.stack → ∃ x ∈ descent.path,
      descent.low x ≤ descent.number target ∧
        ∀ u ∈ descent.path, descent.number u ≤ descent.number node →
          descent.number u ≤ descent.number x) :
    Explored next (fun v w => followed v w ∨ v = node ∧ w = target) descent :=
  { h with
    seen := fun v hv w hf => by
      rcases hf with hf | ⟨rfl, rfl⟩
      · exact h.seen v hv w hf
      · exact hmet
    kept := fun u hu v hv hle w hw hf => by
      rcases hf with hf | ⟨rfl, rfl⟩
      · exact h.kept u hu v hv hle w hw hf
      · obtain ⟨x, hx, hless, hall⟩ := hlow hw
        exact ⟨x, hx, hall u hu hle, hless⟩ }

-- Frames of the same nodes with fewer edges.
theorem reframe (h : Explored next followed descent)
    (hpath : frames.map Frame.node = descent.path)
    (hrests : ∀ frame ∈ frames, frame.rest ⊆ next frame.node) :
    Explored next followed { descent with frames } := by
  have hsame : ({ descent with frames } : Descent).path = descent.path := hpath
  constructor
  case toNumbered => exact { h with framed := hsame ▸ h.framed }
  case layered => exact h.layered
  case rests => exact hrests
  case descends => exact hsame ▸ h.descends
  case returns => exact hsame ▸ h.returns
  case low_le => exact hsame ▸ h.low_le
  case attained => exact hsame ▸ h.attained
  case seen => exact h.seen
  case kept => exact hsame ▸ h.kept

-- A node is met from the node of the first frame, or as a root.
theorem enter (h : Explored next followed descent) (hnew : node ∉ descent.numbers)
    (hleads : ∀ u ∈ descent.path, Reaches next u node)
    (hstart : ∀ v w, followed v w → v ∈ descent.stack) :
    Explored next followed (descent.enter next node) := by
  have hnumber : ∀ v ∈ descent.stack, (descent.enter next node).number v = descent.number v :=
    fun v hv => by rw [number_enter, if_neg (h.ne_of_new hnew hv)]
  have hframed : ∀ u ∈ descent.path, (descent.enter next node).number u = descent.number u :=
    fun u hu => hnumber u (h.path_subset hu)
  have hlow : ∀ u ∈ descent.path, (descent.enter next node).low u = descent.low u :=
    fun u hu => by rw [low_enter, if_neg (h.ne_of_new hnew (h.path_subset hu))]
  -- No other node of the stack is as young as the new one.
  have hnewest : ∀ v ∈ descent.stack,
      ¬(descent.enter next node).number node ≤ (descent.enter next node).number v := by
    intro v hv hle
    rw [hnumber v hv, number_enter, if_pos rfl] at hle
    have := h.number_lt_of_mem_stack hv
    omega
  constructor
  case toNumbered => exact h.toNumbered.enter next hnew
  case layered => exact h.layered
  case rests => exact List.forall_mem_cons.mpr ⟨List.Subset.refl _, h.rests⟩
  case descends =>
    intro u hu v hv hle
    rcases mem_path_enter.mp hu with rfl | hup <;> rcases mem_stack_enter.mp hv with rfl | hvs
    · exact .refl
    · exact absurd hle (hnewest v hvs)
    · exact hleads u hup
    · rw [hframed u hup, hnumber v hvs] at hle
      exact h.descends u hup v hvs hle
  case returns =>
    intro v hv hout
    rw [mem_path_enter, not_or] at hout
    have hvs := (mem_stack_enter.mp hv).resolve_left hout.1
    obtain ⟨w, hw, hlt, hr⟩ := h.returns v hvs hout.2
    exact ⟨w, mem_stack_enter.mpr (Or.inr hw), by rwa [hnumber w hw, hnumber v hvs], hr⟩
  case low_le =>
    intro u hu
    rcases mem_path_enter.mp hu with rfl | hup
    · rw [low_enter, number_enter, if_pos rfl, if_pos rfl]
    · rw [hlow u hup, hframed u hup]
      exact h.low_le u hup
  case attained =>
    intro u hu
    rcases mem_path_enter.mp hu with rfl | hup
    · refine ⟨u, mem_stack_enter.mpr (Or.inl rfl), ?_, .refl⟩
      rw [low_enter, number_enter, if_pos rfl, if_pos rfl]
    · obtain ⟨w, hw, he, hr⟩ := h.attained u hup
      exact ⟨w, mem_stack_enter.mpr (Or.inr hw), by rw [hnumber w hw, hlow u hup, he], hr⟩
  case seen =>
    intro v _ w hf
    exact mem_numbers_enter.mpr (Or.inr (h.seen v (hstart v w hf) w hf))
  case kept =>
    intro u hu v _ hle w hw hf
    have hvs := hstart v w hf
    have hws := (mem_stack_enter.mp hw).resolve_left fun he => hnew (he ▸ h.seen v hvs w hf)
    rcases mem_path_enter.mp hu with rfl | hup
    · exact absurd hle (hnewest v hvs)
    · rw [hframed u hup, hnumber v hvs] at hle
      obtain ⟨x, hx, hux, hlx⟩ := h.kept u hup v hvs hle w hws hf
      refine ⟨x, mem_path_enter.mpr (Or.inr hx), ?_, ?_⟩
      · rwa [hframed u hup, hframed x hx]
      · rwa [hlow x hx, hnumber w hws]

-- A node with a frame may be lowered to the number of any node of the stack
-- that it reaches.
theorem lower (h : Explored next followed descent) (hw : w ∈ descent.stack)
    (hr : Reaches next node w) :
    Explored next followed (descent.lower node (descent.number w)) := by
  constructor
  case toNumbered => exact { h with }
  case layered => exact h.layered
  case rests => exact h.rests
  case descends => exact h.descends
  case returns => exact h.returns
  case low_le => exact fun u hu => (low_lower_le u).trans (h.low_le u hu)
  case attained =>
    intro u hu
    rw [low_lower]
    split
    · next he =>
      subst he
      rcases Nat.le_total (descent.low u) (descent.number w) with hle | hle
      · rw [Nat.min_eq_left hle]
        exact h.attained u hu
      · rw [Nat.min_eq_right hle]
        exact ⟨w, hw, rfl, hr⟩
    · exact h.attained u hu
  case seen => exact h.seen
  case kept =>
    intro u hu v hv hle w hw hf
    obtain ⟨x, hx, hle, hlow⟩ := h.kept u hu v hv hle w hw hf
    exact ⟨x, hx, hle, (low_lower_le x).trans hlow⟩

-- A node of the stack leads to a node with a frame that is no younger, since
-- numbers cannot fall without end.
theorem exists_frame (h : Explored next followed descent) (hv : v ∈ descent.stack) :
    ∃ u ∈ descent.path, descent.number u ≤ descent.number v ∧ Reaches next v u := by
  induction hn : descent.number v using Nat.strong_induction_on generalizing v with
  | _ n ih =>
      by_cases hpath : v ∈ descent.path
      · exact ⟨v, hpath, hn.le, .refl⟩
      · obtain ⟨w, hw, hlt, hr⟩ := h.returns v hv hpath
        obtain ⟨u, hu, hle, hru⟩ := ih (descent.number w) (hn ▸ hlt) hw rfl
        exact ⟨u, hu, by omega, hr.trans hru⟩

theorem subset_path {frame : Frame} (hframes : descent.frames = frame :: frames) :
    frames.map Frame.node ⊆ descent.path := by
  rw [path_of_frames hframes]
  exact List.subset_cons_self _ _

section Leaving

variable {frame : Frame} (h : Explored next followed descent)
  (hframes : descent.frames = frame :: frames)

include h hframes

-- A node that has led to an older one stays on the stack without a frame, when
-- the node that it was met from has taken over what it has led to.
theorem retire (hlow : descent.low frame.node < descent.number frame.node)
    (hparent : ∀ u ∈ frames.map Frame.node, ∃ x ∈ frames.map Frame.node,
      descent.number u ≤ descent.number x ∧ descent.low x ≤ descent.low frame.node) :
    Explored next followed { descent with frames } := by
  have hpath := path_of_frames hframes
  have hsub := subset_path hframes
  constructor
  case toNumbered => exact h.pop hframes
  case layered => exact h.layered
  case rests => exact fun other ho => h.rests other (hframes ▸ List.mem_cons_of_mem frame ho)
  case descends => exact fun u hu => h.descends u (hsub hu)
  case returns =>
    intro v hv hout
    by_cases he : v = frame.node
    · obtain ⟨w, hw, hnumber, hr⟩ := h.attained frame.node (mem_path_of_frames hframes)
      rw [he]
      exact ⟨w, hw, hnumber ▸ hlow, hr⟩
    · refine h.returns v hv fun hin => ?_
      rw [hpath] at hin
      exact (List.mem_cons.mp hin).elim he hout
  case low_le => exact fun u hu => h.low_le u (hsub hu)
  case attained => exact fun u hu => h.attained u (hsub hu)
  case seen => exact h.seen
  case kept =>
    intro u hu v hv hle w hw hf
    obtain ⟨x, hx, hux, hlx⟩ := h.kept u (hsub hu) v hv hle w hw hf
    rw [hpath] at hx
    rcases List.mem_cons.mp hx with rfl | hx
    · obtain ⟨y, hy, huy, hly⟩ := hparent u hu
      exact ⟨y, hy, huy, hly.trans hlx⟩
    · exact ⟨x, hx, hux, hlx⟩

section Root

variable (hroot : descent.low frame.node = descent.number frame.node)
  (hdone : ∀ v ∈ descent.stack, descent.number frame.node ≤ descent.number v →
    ∀ w ∈ next v, followed v w)

include hroot hdone

-- No edge leads from the node and what is above it to an older node of the
-- stack.
theorem mem_or_found (hr : Reaches next frame.node w) :
    w ∈ descent.stack ∧ descent.number frame.node ≤ descent.number w ∨
      w ∈ descent.found.flatten := by
  have hnode := mem_path_of_frames hframes
  have hclosed : ∀ x, x ∈ descent.stack ∧ descent.number frame.node ≤ descent.number x ∨
      x ∈ descent.found.flatten → ∀ y ∈ next x,
        y ∈ descent.stack ∧ descent.number frame.node ≤ descent.number y ∨
          y ∈ descent.found.flatten := by
    rintro x (⟨hx, hle⟩ | hx) y hy
    · have hf := hdone x hx hle y hy
      rcases (h.numbered y).mp (h.seen x hx y hf) with hstack | hfound
      · obtain ⟨z, hz, hlez, hlow⟩ := h.kept frame.node hnode x hx hle y hstack hf
        obtain rfl := h.eq_of_number_le hframes hz hlez
        exact Or.inl ⟨hstack, hroot ▸ hlow⟩
      · exact Or.inr hfound
    · exact Or.inr (h.layered.closed x hx y hy)
  exact reaches_closed hclosed (Or.inl ⟨h.path_subset hnode, Nat.le_refl _⟩) hr

-- The nodes that it takes off the stack are those that it reaches for the
-- first time, and they lead back to it by way of a frame.
theorem layered_close {members : List Nat} (hmembers : ∀ v, v ∈ members ↔
    v ∈ descent.stack ∧ descent.number frame.node ≤ descent.number v) :
    Layered next (ascending members :: descent.found) := by
  have hnode := mem_path_of_frames hframes
  have hstack := h.path_subset hnode
  refine h.layered.addTree (h.apart frame.node hstack) (fun v => ?_) fun v hv => ?_
  · rw [hmembers]
    constructor
    · rintro ⟨hv, hle⟩
      exact ⟨h.descends frame.node hnode v hv hle, h.apart v hv⟩
    · rintro ⟨hr, hout⟩
      exact (h.mem_or_found hframes hroot hdone hr).resolve_right hout
  · obtain ⟨u, hu, -, hr⟩ := h.exists_frame ((hmembers v).mp hv).1
    exact hr.trans (h.descends u hu frame.node hstack (h.number_le_of_mem_path hframes hu))

-- Then it is the first node of its component.
theorem close : Explored next followed (Descent.close { descent with frames } frame.node) := by
  have hpath := path_of_frames hframes
  have hsub := subset_path hframes
  have hnumbered := h.toNumbered.close hframes
  obtain ⟨members, rest, hclose, -, hmembers, hrest⟩ :=
    h.exists_close frames (h.path_subset (mem_path_of_frames hframes))
  rw [hclose] at hnumbered ⊢
  constructor
  case toNumbered => exact hnumbered
  case layered => exact h.layered_close hframes hroot hdone hmembers
  case rests => exact fun other ho => h.rests other (hframes ▸ List.mem_cons_of_mem frame ho)
  case descends => exact fun u hu v hv => h.descends u (hsub hu) v ((hrest v).mp hv).1
  case returns =>
    intro v hv hout
    obtain ⟨hv, hlt⟩ := (hrest v).mp hv
    have hout : v ∉ descent.path := by
      rw [hpath, List.mem_cons, not_or]
      exact ⟨fun he => absurd (he ▸ hlt) (Nat.lt_irrefl _), hout⟩
    obtain ⟨w, hw, hless, hr⟩ := h.returns v hv hout
    exact ⟨w, (hrest w).mpr ⟨hw, hless.trans hlt⟩, hless, hr⟩
  case low_le => exact fun u hu => h.low_le u (hsub hu)
  case attained =>
    intro u hu
    obtain ⟨w, hw, he, hr⟩ := h.attained u (hsub hu)
    have hle := h.low_le u (hsub hu)
    have hless := h.number_lt_of_mem_tail hframes hu
    exact ⟨w, (hrest w).mpr ⟨hw, by omega⟩, he, hr⟩
  case seen => exact fun v hv => h.seen v ((hrest v).mp hv).1
  case kept =>
    intro u hu v hv hle w hw hf
    obtain ⟨hw, hlt⟩ := (hrest w).mp hw
    obtain ⟨x, hx, hux, hlx⟩ := h.kept u (hsub hu) v ((hrest v).mp hv).1 hle w hw hf
    rw [hpath] at hx
    rcases List.mem_cons.mp hx with rfl | hx
    · omega
    · exact ⟨x, hx, hux, hlx⟩

end Root

-- The node that a node was met from takes over what the node has led to.
theorem pass : Explored next followed (descent.pass frame.node frames) ∧
    ∀ u ∈ frames.map Frame.node, ∃ x ∈ frames.map Frame.node,
      descent.number u ≤ descent.number x ∧
        (descent.pass frame.node frames).low x ≤
          (descent.pass frame.node frames).low frame.node := by
  have hnode := mem_path_of_frames hframes
  cases frames with
  | nil => exact ⟨h, fun u hu => absurd hu List.not_mem_nil⟩
  | cons parent others =>
      have hparent : parent.node ∈ (parent :: others).map Frame.node := List.mem_cons_self
      have hless := h.number_lt_of_mem_tail hframes hparent
      have hreach : Reaches next parent.node frame.node :=
        h.descends parent.node (subset_path hframes hparent) frame.node (h.path_subset hnode)
          hless.le
      obtain ⟨w, hw, hnumber, hr⟩ := h.attained frame.node hnode
      refine ⟨?_, fun u hu => ⟨parent.node, hparent, ?_, ?_⟩⟩
      · rw [Descent.pass, ← hnumber]
        exact h.lower hw (hreach.trans hr)
      · exact (h.pop hframes).number_le_of_mem_path rfl hu
      · have hne : frame.node ≠ parent.node := fun he => absurd (he ▸ hless) (Nat.lt_irrefl _)
        rw [Descent.pass, low_lower, low_lower, if_pos rfl, if_neg hne]
        exact Nat.min_le_right _ _

theorem leave (hdone : ∀ v ∈ descent.stack, descent.number frame.node ≤ descent.number v →
    ∀ w ∈ next v, followed v w) : Explored next followed (descent.leave frame.node frames) := by
  obtain ⟨hpassed, hparent⟩ := h.pass hframes
  obtain ⟨lows, hpass⟩ := descent.pass_eq frame.node frames
  unfold Descent.leave
  rw [hpass] at hpassed hparent ⊢
  have hnow : ({ descent with lows } : Descent).frames = frame :: frames := hframes
  have hle := hpassed.low_le frame.node (mem_path_of_frames hnow)
  dsimp only
  split
  · next hroot => exact hpassed.close hnow hroot hdone
  · next hne => exact hpassed.retire hnow (Nat.lt_of_le_of_ne hle hne) hparent

end Leaving

section Edge

variable (hnode : node ∈ descent.path)
  (hyoungest : ∀ u ∈ descent.path, descent.number u ≤ descent.number node)
  (hedge : target ∈ next node)

include hnode hyoungest hedge

-- An edge is followed from the youngest node with a frame.
theorem follow (h : Explored next followed descent)
    (hstart : ∀ v w, followed v w → v ∈ descent.stack) :
    Explored next (fun v w => followed v w ∨ v = node ∧ w = target)
      (descent.follow next node target) := by
  unfold Descent.follow
  split
  · next hnone =>
    have hnew : target ∉ descent.numbers := by
      rw [Std.TreeMap.mem_iff_isSome_getElem?, hnone]
      exact Bool.false_ne_true
    have hleads : ∀ u ∈ descent.path, Reaches next u target := fun u hu =>
      (h.descends u hu node (h.path_subset hnode) (hyoungest u hu)).tail hedge
    have hne : node ≠ target := h.ne_of_new hnew (h.path_subset hnode)
    refine (h.enter hnew hleads hstart).addEdge Std.TreeMap.mem_insert_self fun _ => ?_
    refine ⟨node, List.mem_cons_of_mem target hnode, ?_, fun _ _ hle => hle⟩
    rw [low_enter, if_neg hne, number_enter, if_pos rfl]
    have := h.low_le node hnode
    have := h.number_lt_of_mem_stack (h.path_subset hnode)
    omega
  · next number hsome =>
    have hmet : target ∈ descent.numbers := by
      rw [Std.TreeMap.mem_iff_isSome_getElem?, hsome]
      rfl
    have hnumber : descent.number target = number := by
      rw [Descent.number, Std.TreeMap.getD_eq_getD_getElem?, hsome]
      rfl
    split
    · next hon =>
      have hstack : target ∈ descent.stack := (h.marked target).mp hon
      rw [← hnumber]
      refine (h.lower hstack (.single hedge)).addEdge hmet fun _ => ?_
      refine ⟨node, hnode, ?_, fun _ _ hle => hle⟩
      rw [low_lower, if_pos rfl]
      exact Nat.min_le_right _ _
    · next hoff => exact h.addEdge hmet fun hstack => absurd ((h.marked target).mpr hstack) hoff

end Edge

end Explored

section Step

-- A node that has just been met has followed none of its edges.
theorem followed_enter (hf : Followed next (descent.enter next node) v w) :
    Followed next descent v w := by
  obtain ⟨hv, hw, hnot⟩ := hf
  obtain ⟨hnew, hothers⟩ := List.forall_mem_cons.mp hnot
  refine ⟨(List.mem_cons.mp hv).resolve_left ?_, hw, hothers⟩
  rintro rfl
  exact hnew rfl hw

-- The edge at the front of the first frame is the only one that is followed
-- in addition.
theorem followed_follow {rest : List Nat}
    (hframes : descent.frames = ⟨node, target :: rest⟩ :: frames)
    (hf : Followed next
      (follow next { descent with frames := ⟨node, rest⟩ :: frames } node target) v w) :
    Followed next descent v w ∨ v = node ∧ w = target := by
  have hone : Followed next { descent with frames := ⟨node, rest⟩ :: frames } v w →
      Followed next descent v w ∨ v = node ∧ w = target := by
    rintro ⟨hv, hw, hnot⟩
    obtain ⟨hfirst, hothers⟩ := List.forall_mem_cons.mp hnot
    by_cases he : v = node ∧ w = target
    · exact Or.inr he
    · refine Or.inl ⟨hv, hw, ?_⟩
      rw [hframes]
      refine List.forall_mem_cons.mpr ⟨fun hn => ?_, hothers⟩
      rw [List.mem_cons, not_or]
      exact ⟨fun ht => he ⟨hn.symm, ht⟩, hfirst hn⟩
  unfold follow at hf
  dsimp only at hf
  split at hf
  · exact hone (followed_enter hf)
  · split at hf <;> exact hone hf

-- Nothing is followed when the first frame has no edges left and goes.
theorem followed_leave (h : descent.Numbered) (hframes : descent.frames = ⟨node, []⟩ :: frames)
    (hf : Followed next (descent.leave node frames) v w) : Followed next descent v w := by
  have hnode : node ∈ descent.stack := h.path_subset (mem_path_of_frames hframes)
  obtain ⟨lows, hpass⟩ := descent.pass_eq node frames
  have hleave : (descent.leave node frames).frames = frames ∧
      (descent.leave node frames).stack ⊆ descent.stack := by
    unfold leave
    rw [hpass]
    dsimp only
    split
    · have hlows : ({ descent with lows } : Descent).Numbered := { h with }
      obtain ⟨members, rest, hclose, -, -, hrest⟩ := hlows.exists_close frames hnode
      rw [hclose]
      exact ⟨rfl, fun v hv => ((hrest v).mp hv).1⟩
    · exact ⟨rfl, List.Subset.refl _⟩
  obtain ⟨hv, hw, hnot⟩ := hf
  refine ⟨hleave.2 hv, hw, ?_⟩
  rw [hleave.1] at hnot
  rw [hframes]
  exact List.forall_mem_cons.mpr ⟨fun _ => List.not_mem_nil, hnot⟩

theorem explored_step (h : Explored next (Followed next descent) descent) :
    Explored next (Followed next (descent.step next)) (descent.step next) := by
  unfold step
  split
  · exact h
  · next node target rest frames hframes =>
    have hpath := path_of_frames hframes
    have hrests := h.rests
    rw [hframes, List.forall_mem_cons] at hrests
    obtain ⟨hfirst, hothers⟩ := hrests
    obtain ⟨hedge, hrest⟩ := List.cons_subset.mp hfirst
    have hframed : Explored next (Followed next descent)
        { descent with frames := ⟨node, rest⟩ :: frames } :=
      h.reframe hpath.symm (List.forall_mem_cons.mpr ⟨hrest, hothers⟩)
    refine (hframed.follow List.mem_cons_self ?_ hedge fun v w hf => hf.1).mono
      fun v w => followed_follow hframes
    exact fun u hu => h.number_le_of_mem_path hframes (hpath ▸ hu)
  · next node frames hframes =>
    refine (h.leave hframes fun v hv hle w hw => ⟨hv, hw, ?_⟩).mono fun v w =>
      followed_leave h.toNumbered hframes
    -- No younger node has a frame, and the node itself has followed its edges.
    rw [hframes]
    refine List.forall_mem_cons.mpr ⟨fun _ => List.not_mem_nil, fun frame hframe he => ?_⟩
    have := h.number_lt_of_mem_tail hframes (List.mem_map_of_mem hframe)
    rw [he] at this
    dsimp only at this hle
    omega

-- A step meets at most the node that the first edge leads to.
theorem numbers_step (next : Nat → List Nat) (descent : Descent) :
    (descent.step next).numbers = descent.numbers ∨
      ∃ frame ∈ descent.frames, ∃ v ∈ frame.rest,
        (descent.step next).numbers = descent.numbers.insert v descent.count := by
  unfold step
  split
  · exact Or.inl rfl
  · next node target rest frames hframes =>
    unfold follow
    dsimp only
    split
    · refine Or.inr ⟨⟨node, target :: rest⟩, ?_, target, List.mem_cons_self, rfl⟩
      rw [hframes]
      exact List.mem_cons_self
    · left
      split <;> rfl
  · next node frames hframes =>
    left
    obtain ⟨lows, hpass⟩ := descent.pass_eq node frames
    unfold leave
    rw [hpass]
    dsimp only
    split <;> rfl

end Step

end Descent

end Recalc.Schedule
