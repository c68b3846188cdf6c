import Recalc.Proofs.Graph.Counting
import Recalc.Proofs.Graph.History

namespace Recalc.Graph

variable {graph first second : Graph}

-- The given edges come in as far as they are missing, and nothing else
-- changes.
structure AddsEdges (edge : Nat → Nat → Prop) (first second : Graph) : Prop where
  reads : ∀ i j, second.Reads i j ↔ first.Reads i j ∨ edge i j
  isRead : ∀ i j, second.IsRead j i ↔ first.IsRead j i ∨ edge i j
  nodes : SameNodes first second
  waiting : SameWaiting first second

theorem LinksChildren.addsEdges {edge : Nat → Nat → Prop} (h : LinksChildren first second)
    (hc : first.Consistent) (hreads : ∀ i j, second.Reads i j ↔ first.Reads i j ∨ edge i j) :
    AddsEdges edge first second where
  reads := hreads
  isRead i j := by rw [← (h.consistent hc).mirror, ← hc.mirror, hreads]
  nodes := h.nodes
  waiting := h.waiting

-- Where every container reads its children there is nothing to link.
theorem Consistent.linkAll_eq_zero (h : graph.Consistent)
    (hreads : ∀ i j, graph.Contains i j → graph.Reads i j) : graph.linkAll.2 = 0 := by
  have hcount : graph.linkAll.1.edgeCount = graph.edgeCount + graph.linkAll.2 :=
    edgeCount_linkAbove graph.paths
  have hsame : graph.linkAll.1.edgeCount = graph.edgeCount := by
    refine edgeCount_congr fun i j => ?_
    rw [h.reads_linkAll, or_iff_left_of_imp (hreads i j)]
  omega

theorem Consistent.addsEdges_linkAll (h : graph.Consistent) :
    AddsEdges graph.Contains graph graph.linkAll.1 :=
  h.linksChildren_linkAll.addsEdges h fun _ _ => h.reads_linkAll

-- What linking adds: all edges to children, none of them twice, or those on
-- the chains above the given paths.
structure LinksContainers (graph : Graph) : Prop where
  all : AddsEdges graph.Contains graph graph.linkAll.1
  again : AddsEdges (fun _ _ => False) graph.linkAll.1 graph.linkAll.1.linkAll.1
  again_count : graph.linkAll.1.linkAll.2 = 0
  above : ∀ paths, AddsEdges (fun i j => graph.Contains i j ∧ graph.Passed paths j) graph
    (graph.linkAbove paths).1

-- After any operations, linking gives each container its children, once.
theorem linksContainers_run (operations : List Operation) :
    (Graph.run operations).LinksContainers := by
  have h : (Graph.run operations).Consistent := .run operations
  have hall := h.linksChildren_linkAll
  have hlinked : (Graph.run operations).linkAll.1.Consistent := hall.consistent h
  have hreads : ∀ i j, (Graph.run operations).linkAll.1.Contains i j →
      (Graph.run operations).linkAll.1.Reads i j := fun i j hc =>
    h.reads_linkAll.mpr (Or.inr ((contains_congr hall.nodes).mp hc))
  refine ⟨h.addsEdges_linkAll, hlinked.linksChildren_linkAll.addsEdges hlinked fun i j => ?_,
    hlinked.linkAll_eq_zero hreads, fun paths => ?_⟩
  · rw [hlinked.reads_linkAll, or_false, or_iff_left_of_imp (hreads i j)]
  · have habove := h.linksChildren_linkAbove paths
    exact habove.addsEdges h fun _ _ => h.reads_linkAbove_iff_passed paths

end Recalc.Graph
