import Recalc.Proofs.Session.Containment
import Recalc.Proofs.Session.Removal

namespace Recalc.Built

variable {config : Config} {cache : Binding.Cache} {tree : Tree} {path target : Path}
  {policy whole apart : OrderedSet Kind}

-- The policy has a say only once bindings have been read.
theorem bound_withPolicy (config : Config) (cache : Binding.Cache) (tree : Tree)
    (policy : OrderedSet Kind) :
    bound { config with parentEdges := policy } cache tree = bound config cache tree := rfl

section Policy

variable (hs : cache.Sound) (h : tree.Plain)

include hs h

theorem linksChildren_withPolicy (config : Config) (policy : OrderedSet Kind) :
    Graph.LinksChildren (bound config cache tree).graph
      (ofTree { config with parentEdges := policy } cache tree).graph :=
  bound_withPolicy config cache tree policy ▸ linksChildren_bound hs h _

theorem pendingOf_withPolicy (path : Path) :
    (ofTree { config with parentEdges := policy } cache tree).graph.pendingOf path =
      (bound config cache tree).graph.pendingOf path := by
  have hl := linksChildren_withPolicy hs h config policy
  unfold Graph.pendingOf
  rw [hl.nodes.id?, hl.waiting.pending]

theorem mem_dependencies_withPolicy :
    target ∈ (ofTree { config with parentEdges := policy } cache tree).graph.dependencies path ↔
      (bound config cache tree).graph.contains target = true ∧
        tree.accepts config cache path = true ∧ (tree.Refers config cache path target ∨
          tree.Links { config with parentEdges := policy } path target) := by
  rw [mem_dependencies_ofTree hs h, (linksChildren_withPolicy hs h config policy).nodes.contains]
  exact Iff.rfl

-- A node below an entity is a path that the entity brings, or a stray.
theorem owns_or_strays_of_contains (hn : (bound config cache tree).graph.contains target = true)
    (hchild : target.isChildOf path = true) : tree.Owns target ∨ tree.Strays config target := by
  rw [← (linksChildren_bound hs h config).nodes.contains, contains_ofTree_found hs, ← or_assoc,
    ← Tree.owns_iff] at hn
  rcases hn with howns | hfunction | hfound
  · exact Or.inl howns
  · obtain ⟨name, _, rfl⟩ := List.mem_map.mp hfunction
    exact absurd (isEntity_of_isChildOf hchild) (by simp [Path.isEntity, Path.ofEntity])
  · exact Session.owns_or_strays_of_found hfound

omit h in
theorem contains_of_strays (hstrays : tree.Strays config target) :
    (ofTree config cache tree).graph.contains target = true := by
  obtain ⟨⟨name, entity, he, hread⟩, _⟩ := hstrays
  refine (contains_ofTree_found hs).mpr (Or.inr (Or.inr (Or.inr ?_)))
  refine List.mem_flatMap.mpr ⟨(name, entity), OrderedMap.get?_eq_some_iff.mp he, ?_⟩
  rw [(Binding.ofEntity_eq config _ name entity
    (Binding.Cache.sound_ofCapacity config.cacheCapacity)).1] at hread
  rwa [Binding.keys_readings_congr rfl] at hread

end Policy

-- A policy of all kinds links whatever lies directly below a container.
theorem links_of_all (hwhole : ∀ kind, kind ∈ whole) :
    tree.Links { config with parentEdges := whole } path target ↔
      target.isChildOf path = true := by
  refine and_iff_left (Or.inl (List.all_eq_true.mpr fun kind _ => ?_))
  exact OrderedSet.contains_iff.mpr (hwhole kind)

-- A policy of all kinds in the graph links what the entities in the graph
-- bring.
theorem links_of_reactive (hapart : ∀ kind, kind ∈ apart ↔ kind ≠ .other)
    (hchild : target.isChildOf path = true) :
    tree.Links { config with parentEdges := apart } path target ↔ tree.Owns target := by
  have hlinks : ∀ kind : Kind,
      Config.linksChildren { config with parentEdges := apart } kind = true ↔
        kind.reactive = true := fun kind =>
    OrderedSet.contains_iff.trans ((hapart kind).trans (by cases kind <;> decide))
  have hall : Config.linksAllChildren { config with parentEdges := apart } = false := by
    refine List.all_eq_false.mpr ⟨.other, Kind.mem_all .other, fun hother => ?_⟩
    exact absurd ((hlinks .other).mp hother) (by decide)
  unfold Tree.Links Tree.Owns Tree.TakesPart
  rw [Path.entity_of_isChildOf hchild, hchild, hall]
  simp only [Bool.false_eq_true, false_or, true_and, hlinks]
  constructor
  · rintro ⟨entity, he, hr, hkey⟩
    exact ⟨⟨entity, he, hr⟩, hkey⟩
  · rintro ⟨⟨entity, he, hr⟩, hkey⟩
    exact ⟨entity, he, hr, hkey⟩

-- One pass over all nodes does what the passes by entity do, and links the
-- strays besides.
theorem linked_with_strays (config : Config) (hs : cache.Sound) (h : tree.Plain)
    (hwhole : ∀ kind, kind ∈ whole) (hapart : ∀ kind, kind ∈ apart ↔ kind ≠ .other) :
    let all := (ofTree { config with parentEdges := whole } cache tree).graph
    let each := (ofTree { config with parentEdges := apart } cache tree).graph
    Graph.SameNodes all each ∧ (∀ path, each.pendingOf path = all.pendingOf path) ∧
      ∀ path target, target ∈ all.dependencies path ↔ target ∈ each.dependencies path ∨
        target.isChildOf path = true ∧ tree.Strays config target ∧
          (each.kind? path).any NodeKind.acceptsDependencies = true := by
  intro all each
  have hall := linksChildren_withPolicy hs h config whole
  have heach := linksChildren_withPolicy hs h config apart
  refine ⟨hall.nodes.symm.trans heach.nodes, fun path => ?_, fun path target => ?_⟩
  · rw [pendingOf_withPolicy hs h, pendingOf_withPolicy hs h]
  · have haccepts : (each.kind? path).any NodeKind.acceptsDependencies =
        tree.accepts config cache path := by
      rw [kind?_ofTree hs h]
      rfl
    rw [mem_dependencies_withPolicy hs h, mem_dependencies_withPolicy hs h, links_of_all hwhole,
      haccepts]
    by_cases hchild : target.isChildOf path = true
    · rw [links_of_reactive hapart hchild]
      constructor
      · rintro ⟨hn, ha, hrefers | _⟩
        · exact Or.inl ⟨hn, ha, Or.inl hrefers⟩
        · refine (owns_or_strays_of_contains hs h hn hchild).imp (fun howns => ?_) fun hstrays => ?_
          · exact ⟨hn, ha, Or.inr howns⟩
          · exact ⟨hchild, hstrays, ha⟩
      · rintro (⟨hn, ha, hor⟩ | ⟨_, hstrays, ha⟩)
        · exact ⟨hn, ha, hor.imp_right fun _ => hchild⟩
        · refine ⟨?_, ha, Or.inr hchild⟩
          rw [← (linksChildren_bound hs h config).nodes.contains]
          exact contains_of_strays hs hstrays
    · simp only [hchild, Tree.Links, Bool.false_eq_true, false_and, or_false]

section Card

-- A card with a title, and with a style to read that has no value yet.
def card : Tree :=
  (∅ : Tree).insert "Card"
    ((Entity.ofKind .widget (.obj [("title", .str "Hi")])).withBindings ["title", "style"])

-- The kinds that take part in the graph.
def graphKinds : OrderedSet Kind := .ofList [.widget, .action, .jsObject]

def linkedCard (policy : OrderedSet Kind) : Graph :=
  (ofTree { Config.standard with parentEdges := policy } (.ofCapacity 8) card).graph

theorem plain_card : card.Plain := by
  intro name hname
  obtain rfl : name = "Card" := List.mem_singleton.mp hname
  simp [Path.startsAccessor]

-- The passes by entity link the card to its title and not to its style.
theorem unlinked_card_style :
    card.Plain ∧ (∀ kind, kind ∈ graphKinds ↔ kind ≠ .other) ∧
      (linkedCard (.ofList Kind.all)).dependencies (.ofEntity "Card") =
        [⟨"Card", [.key "title"]⟩, ⟨"Card", [.key "style"]⟩] ∧
      (linkedCard graphKinds).dependencies (.ofEntity "Card") = [⟨"Card", [.key "title"]⟩] :=
  ⟨plain_card, fun kind => by cases kind <;> decide, by decide +kernel, by decide +kernel⟩

-- The style is the only stray below the card.
theorem linked_with_style :
    (∀ kind, kind ∈ OrderedSet.ofList Kind.all) ∧ (∀ kind, kind ∈ graphKinds ↔ kind ≠ .other) ∧
      Graph.SameNodes (linkedCard (.ofList Kind.all)) (linkedCard graphKinds) ∧
      (⟨"Card", [.key "style"]⟩ : Path) ∉ (linkedCard graphKinds).dependencies (.ofEntity "Card") ∧
      card.Strays .standard ⟨"Card", [.key "style"]⟩ := by
  have hwhole : ∀ kind, kind ∈ OrderedSet.ofList Kind.all := fun kind => by cases kind <;> decide
  have hapart : ∀ kind, kind ∈ graphKinds ↔ kind ≠ .other := fun kind => by cases kind <;> decide
  have hall := linked_with_strays .standard (Binding.Cache.sound_ofCapacity 8) plain_card hwhole
    hapart
  have hmissed : (⟨"Card", [.key "style"]⟩ : Path) ∉
      (linkedCard graphKinds).dependencies (.ofEntity "Card") := by decide +kernel
  have hlinked : (⟨"Card", [.key "style"]⟩ : Path) ∈
      (linkedCard (.ofList Kind.all)).dependencies (.ofEntity "Card") := by decide +kernel
  have hstray := ((hall.2.2 _ _).mp hlinked).resolve_left hmissed
  exact ⟨hwhole, hapart, hall.1, hmissed, hstray.2.1⟩

end Card

end Recalc.Built
