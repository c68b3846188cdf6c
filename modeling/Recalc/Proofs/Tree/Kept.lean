import Recalc.Proofs.Path.Listing
import Recalc.Proofs.Tree.Writing
import Recalc.Tree.Json

namespace Recalc

theorem exists_of_mem_mapM {α β : Type} {read : α → Option β} {items : List α} {results : List β}
    {result : β} (h : items.mapM read = some results) (hr : result ∈ results) :
    ∃ item, read item = some result := by
  induction items generalizing results with
  | nil =>
      cases h
      exact absurd hr List.not_mem_nil
  | cons item rest ih =>
      rw [List.mapM_cons] at h
      obtain ⟨first, hfirst, h⟩ := Option.bind_eq_some_iff.mp h
      obtain ⟨others, hothers, h⟩ := Option.bind_eq_some_iff.mp h
      cases h
      rcases List.mem_cons.mp hr with rfl | hr
      · exact ⟨item, hfirst⟩
      · exact ih hothers hr

theorem Entity.distinct_ofJson? {room : Nat} {json : Json} {entity : Entity}
    (h : ofJson? room json = some entity) : entity.value.Distinct := by
  obtain ⟨fields, _, h⟩ := Option.bind_eq_some_iff.mp h
  split at h
  · obtain ⟨config, _, h⟩ := Option.bind_eq_some_iff.mp h
    obtain ⟨value, hvalue, h⟩ := Option.bind_eq_some_iff.mp h
    cases h
    unfold Json.orDefault at hvalue
    split at hvalue
    · exact Json.distinct_value? hvalue
    · cases hvalue
      exact ⟨List.nodup_nil, trivial⟩
  · cases h

namespace Tree

-- Trees of entities that have been read. What is written into them has been
-- read as well.
inductive Kept : Tree → Prop
  | empty : Kept ∅
  | insert {tree : Tree} {room : Nat} {json : Json} {entity : Entity} (name : String)
      (h : Kept tree) (hread : Entity.ofJson? room json = some entity) :
      Kept (tree.insert name entity)
  | erase {tree : Tree} (name : String) (h : Kept tree) : Kept (tree.erase name)
  | set {tree : Tree} {room : Nat} {json : Json} {value : Value} (path : Path)
      (h : Kept tree) (hread : json.value? room = some value) : Kept (tree.set path value).1

variable {tree : Tree} {name : String} {entity : Entity} {path : Path} {value : Value}

theorem Kept.foldl_insert {entries : List (String × Entity)} (h : Kept tree)
    (hread : ∀ entry ∈ entries, ∃ room json, Entity.ofJson? room json = some entry.2) :
    Kept (entries.foldl (fun tree entry => tree.insert entry.1 entry.2) tree) := by
  induction entries generalizing tree with
  | nil => exact h
  | cons entry rest ih =>
      obtain ⟨⟨room, json, hjson⟩, hrest⟩ := List.forall_mem_cons.mp hread
      exact ih (h.insert entry.1 hjson) hrest

theorem kept_ofJson? {json : Json} (h : ofJson? json = some tree) : Kept tree := by
  obtain ⟨members, _, h⟩ := Option.bind_eq_some_iff.mp h
  obtain ⟨entries, hentries, h⟩ := Option.bind_eq_some_iff.mp h
  cases h
  refine Kept.empty.foldl_insert fun entry hentry => ?_
  obtain ⟨member, hmember⟩ := exists_of_mem_mapM hentries hentry
  obtain ⟨entity, hentity, rfl⟩ := Option.map_eq_some_iff.mp hmember
  exact ⟨_, member.2, hentity⟩

-- No operation brings in an object that names a member twice.
theorem Kept.distinct (h : Kept tree) (he : tree.entity? name = some entity) :
    entity.value.Distinct := by
  induction h generalizing name entity with
  | empty => cases he
  | insert changed h hread ih =>
      rw [entity?_insert] at he
      split at he
      · cases he
        have hdistinct := Entity.distinct_ofJson? hread
        exact hdistinct
      · exact ih he
  | erase gone h ih =>
      rw [entity?_erase] at he
      split at he
      · cases he
      · exact ih he
  | @set tree json room value path h hread ih =>
      cases hwritten : tree.entity? path.entity with
      | none =>
          rw [Tree.set, hwritten] at he
          exact ih he
      | some written =>
          rw [entity?_set hwritten] at he
          split at he
          · cases he
            exact (ih hwritten).set (Json.distinct_value? hread) path.segments
          · exact ih he

theorem Kept.lists_entityPaths (h : Kept tree) (he : tree.entity? name = some entity) :
    Path.Lists entity.value (.ofEntity name) (tree.entityPaths name) := by
  rw [entityPaths, he]
  exact Path.lists_of_lookup (h.distinct he) rfl

theorem Kept.lists_pathsUnder (h : Kept tree) (he : tree.entity? path.entity = some entity)
    (hv : tree.get? path = some value) :
    Path.Lists entity.value path (tree.pathsUnder path) := by
  rw [pathsUnder, hv]
  rw [get?_of_entity? he] at hv
  exact Path.lists_of_lookup ((h.distinct he).get? hv) hv

end Tree

end Recalc
