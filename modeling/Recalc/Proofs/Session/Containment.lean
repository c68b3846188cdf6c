import Recalc.Proofs.Graph.Containment
import Recalc.Proofs.Session.Rebuild

namespace Recalc

namespace Batch

variable {config : Config} {former : Tree} {batch first second : Batch} {kind : Kind}
  {entity : Entity} {path : Path}

theorem graph_grow (hlinks : config.linksChildren kind = true) (entries : List (Path × NodeKind)) :
    (grow config kind entries batch).graph =
      ((batch.graph.addEntries entries true).1.linkAbove
        (batch.graph.addEntries entries true).2).1 := by
  unfold grow recordAdded
  split
  · next hempty =>
    rw [List.isEmpty_iff.mp hempty]
    rfl
  · simp only [linkIf, hlinks, if_true]

theorem graph_applyReading (hlinks : config.linksChildren kind = true)
    (found : Binding.Dependencies) :
    (applyReading config kind batch (path, found)).graph =
      ((batch.graph.addDependency path found.references.toList).1.linkAbove
        (batch.graph.addDependency path found.references.toList).2.toList).1 := by
  unfold applyReading
  dsimp only
  split
  · next hempty =>
    rw [List.isEmpty_iff.mp hempty]
    rfl
  · simp only [linkIf, hlinks, if_true]

-- What containers keep while a batch moves.
structure Contained (batch : Batch) : Prop where
  consistent : batch.graph.Consistent
  younger : batch.graph.ReadsYounger

theorem Contained.move (hlinks : ∀ kind, config.linksChildren kind = true)
    (h : first.Contained) (hm : Move config former first second) : second.Contained := by
  refine ⟨consistent_move h.consistent hm, ?_⟩
  cases hm with
  | quiet hq => exact hq.graph ▸ h.younger
  | grow kind entries batch =>
      rw [graph_grow (hlinks kind)]
      exact h.younger.addEntries h.consistent entries
  | read kind path found batch _ =>
      rw [graph_applyReading (hlinks kind)]
      exact h.younger.addDependency h.consistent path _
  | delete entity path batch _ =>
      rw [onDelete_eq, graph_foldl_forget]
      exact (h.younger.removeNodes h.consistent _).removeNodes (h.consistent.removeNodes _) _

theorem Contained.moves (hlinks : ∀ kind, config.linksChildren kind = true)
    (h : first.Contained) (hm : Moves config former first second) : second.Contained := by
  induction hm with
  | refl => exact h
  | tail _ hstep ih => exact ih.move hlinks hstep

end Batch

-- A build links every container to all that it holds.
theorem Built.readsYounger_ofTree {config : Config} (hlinks : config.linksAllChildren = true)
    {cache : Binding.Cache} (hs : cache.Sound) (tree : Tree) :
    (ofTree config cache tree).graph.ReadsYounger := by
  unfold ofTree
  dsimp only
  rw [linkContainers, if_pos hlinks]
  exact (well_foldl_addBindings config hs tree).1.consistent.readsYounger_linkAll

namespace Session

variable {config : Config} {cache : Binding.Cache} {tree : Tree} {session : Session}

theorem config_reset (session : Session) (tree : Tree) :
    (session.reset tree).config = session.config := by
  rw [reset, config_sort]

theorem config_perform (session : Session) (action : Action) :
    (session.perform action).config = session.config := by
  cases action with
  | apply tree diffs => exact config_apply session tree diffs
  | reset tree => exact config_reset session tree
  | recordEvaluation path messages => rfl

theorem readsYounger_reset (hlinks : ∀ kind, session.config.linksChildren kind = true)
    (tree : Tree) : (session.reset tree).graph.ReadsYounger := by
  unfold reset
  rw [graph_sort]
  exact Built.readsYounger_ofTree (List.all_eq_true.mpr fun kind _ => hlinks kind)
    (Binding.Cache.sound_clear _) tree

theorem Coherent.readsYounger_apply (h : session.Coherent)
    (hlinks : ∀ kind, session.config.linksChildren kind = true)
    (hy : session.graph.ReadsYounger) (tree : Tree) (diffs : List Diff) :
    (session.apply tree diffs).1.graph.ReadsYounger := by
  have hproceeds := Batch.proceeds_applied session.config session.tree tree
    (Batch.start session.graph session.keys session.errors session.cache) h.cache diffs
  have hstart : (Batch.start session.graph session.keys session.errors session.cache).Contained :=
    ⟨h.consistent, hy⟩
  rw [graph_apply]
  exact (hstart.moves hlinks hproceeds.moves).younger

theorem Coherent.readsYounger_perform (h : session.Coherent)
    (hlinks : ∀ kind, session.config.linksChildren kind = true)
    (hy : session.graph.ReadsYounger) (action : Action) :
    (session.perform action).graph.ReadsYounger := by
  cases action with
  | apply tree diffs => exact h.readsYounger_apply hlinks hy tree diffs
  | reset tree => exact readsYounger_reset hlinks tree
  | recordEvaluation path messages => exact hy

theorem Coherent.readsYounger_after (h : session.Coherent)
    (hlinks : ∀ kind, session.config.linksChildren kind = true)
    (hy : session.graph.ReadsYounger) (actions : List Action) :
    (session.after actions).graph.ReadsYounger :=
  (List.foldlRecOn actions Session.perform (motive := fun now : Session => now.Coherent ∧
      (∀ kind, now.config.linksChildren kind = true) ∧ now.graph.ReadsYounger) ⟨h, hlinks, hy⟩
    fun now hnow action _ => ⟨hnow.1.perform action, by
      rw [config_perform]
      exact hnow.2.1, hnow.1.readsYounger_perform hnow.2.1 hnow.2.2 action⟩).2.2

-- In any session a container reads each child whose node is younger than its
-- own.
theorem reads_younger_history (config : Config)
    (hlinks : ∀ kind, config.linksChildren kind = true) (cache : Binding.Cache) (tree : Tree)
    (actions : List Action) :
    let graph := ((start config cache tree).after actions).graph
    ∀ path parent child container, path.parent? = some parent → graph.id? path = some child →
      graph.id? parent = some container →
      (graph.node? parent).any (fun node => node.kind.acceptsDependencies) = true →
      container < child → path ∈ graph.dependencies parent := by
  intro graph path parent child container hparent hchild hcontainer haccepts hlt
  have hcoherent : ((start config cache tree).after actions).Coherent :=
    (coherent_start config cache tree).after actions
  have hc : graph.Consistent := hcoherent.consistent
  have hy : graph.ReadsYounger := (coherent_start config cache tree).readsYounger_after
    (fun kind => by rw [config_start]; exact hlinks kind) (readsYounger_reset hlinks tree) actions
  have ha : graph.path? container = some parent := hc.path?_of_id? parent container hcontainer
  have hb : graph.path? child = some path := hc.path?_of_id? path child hchild
  have hcontains : graph.Contains container child := by
    refine ⟨Graph.isStructural_iff.mpr ⟨parent, path, ha, hb, Path.isChildOf_iff.mpr hparent⟩, ?_⟩
    rw [Graph.node?, hcontainer] at haccepts
    exact Graph.accepts_of_any haccepts
  exact hc.mem_dependencies.mpr ⟨container, child, ha, hy container child hcontains hlt, hb⟩

-- A panel with two properties to read that have no values yet.
def panel (bindings : List String) : Tree :=
  (∅ : Tree).insert "Panel" ((Entity.ofKind .widget (.obj [])).withBindings bindings)

theorem reads_younger_style :
    let session := (ofTree ∅ .standard).after
      [.apply (panel ["style", "style.color"]) [.new "Panel" (.obj [])]]
    let style := Path.parseLenient "Panel.style"
    let color := Path.parseLenient "Panel.style.color"
    color.parent? = some style ∧ color ∈ session.graph.dependencies style := by
  intro session style color
  exact ⟨by decide +kernel, reads_younger_history .standard (fun kind => by cases kind <;> decide)
    (.ofCapacity Config.standard.cacheCapacity) ∅
    [.apply (panel ["style", "style.color"]) [.new "Panel" (.obj [])]] color style 15 14
    (by decide +kernel) (by decide +kernel) (by decide +kernel) (by decide +kernel) (by decide)⟩

-- A container that comes in after its child does not read it, although it
-- would in a fresh build of the same tree.
theorem unread_older_color :
    let tree := panel ["style.color", "style"]
    let graph := ((ofTree ∅ .standard).after [.apply tree [.new "Panel" (.obj [])]]).graph
    let style := Path.parseLenient "Panel.style"
    let color := Path.parseLenient "Panel.style.color"
    color.isEntity = false ∧ color.parent? = some style ∧ graph.contains color = true ∧
      (graph.node? style).any (fun node => node.kind.acceptsDependencies) = true ∧
      color ∉ graph.dependencies style ∧
      color ∈ (ofTree tree .standard).graph.dependencies style := by
  decide +kernel

end Session

end Recalc
