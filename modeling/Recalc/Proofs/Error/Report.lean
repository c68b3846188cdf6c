import Mathlib.Data.List.Basic
import Mathlib.Logic.Function.Basic
import Recalc.Proofs.Error.Store
import Recalc.Proofs.Path.Spelling

namespace Recalc.ErrorStore

structure Reported (found : Path → List DependencyError) (store : ErrorStore) : Prop where
  plain : ∀ path : Path, path.Plain → store.extractionsAt path.render = found path
  other : ∀ key, (∀ path : Path, path.Plain → path.render ≠ key) → store.extractionsAt key = []
  rest : ∀ key, ∀ error ∈ store.atKey key, error.isExtraction = true ∨ isCycle error = true

variable {found : Path → List DependencyError} {store first second : ErrorStore} {path : Path}
  {errors : List DependencyError} {cycles : List (List Path)}

theorem Reported.empty : Reported (fun _ => []) ∅ :=
  ⟨fun _ _ => rfl, fun _ _ => rfl, fun _ _ he => absurd he List.not_mem_nil⟩

theorem Reported.replaceExtraction (h : Reported found store) (hp : path.Plain)
    (he : ∀ error ∈ errors, error.isExtraction = true) :
    Reported (Function.update found path errors) (store.replaceExtraction path errors) where
  plain other ho := by
    rw [extractionsAt_replaceExtraction he]
    by_cases hother : other = path
    · rw [hother, if_pos rfl, Function.update_self]
    · rw [if_neg (fun hr => hother (Path.render_inj ho hp hr)), Function.update_of_ne hother]
      exact h.plain other ho
  other key hk := by
    rw [extractionsAt_replaceExtraction he, if_neg (Ne.symm (hk path hp))]
    exact h.other key hk
  rest key error hm := by
    rw [atKey_replaceExtraction] at hm
    split at hm
    · rcases List.mem_append.mp hm with hm | hm
      · exact h.rest key error (List.mem_filter.mp hm).1
      · exact Or.inl (he error hm)
    · exact h.rest key error hm

-- Errors that are put in, path by path, each path once.
theorem Reported.foldl_replaceExtraction {entries : List (Path × List DependencyError)}
    (h : Reported found store) (hnodup : (entries.map Prod.fst).Nodup)
    (hp : ∀ entry ∈ entries, entry.1.Plain)
    (he : ∀ entry ∈ entries, ∀ error ∈ entry.2, error.isExtraction = true) :
    Reported (fun path => (OrderedMap.find? entries path).getD (found path))
      (entries.foldl (fun store entry => store.replaceExtraction entry.1 entry.2) store) := by
  induction entries generalizing found store with
  | nil => exact h
  | cons entry rest ih =>
      obtain ⟨other, errors⟩ := entry
      obtain ⟨hplain, hrest⟩ := List.forall_mem_cons.mp hp
      obtain ⟨herrors, hothers⟩ := List.forall_mem_cons.mp he
      obtain ⟨hnew, hnodup⟩ := List.nodup_cons.mp hnodup
      have hfound : (fun path => (OrderedMap.find? ((other, errors) :: rest) path).getD
          (found path)) = fun path => (OrderedMap.find? rest path).getD
            (Function.update found other errors path) := by
        funext path
        rw [OrderedMap.find?]
        by_cases hpath : other = path
        · subst hpath
          have hnone : OrderedMap.find? rest other = none :=
            Option.not_isSome_iff_eq_none.mp (mt OrderedMap.find?_isSome.mp hnew)
          rw [if_pos rfl, hnone, Function.update_self]
          rfl
        · rw [if_neg hpath, Function.update_of_ne (Ne.symm hpath)]
      rw [hfound]
      exact ih (h.replaceExtraction hplain herrors) hnodup hrest hothers

-- Errors that are listed by path, as a store takes them over.
theorem reported_entries (listed : OrderedMap Path (List DependencyError))
    (h : ∀ path errors, listed.get? path = some errors →
      path.Plain ∧ ∀ error ∈ errors, error.isExtraction = true) :
    Reported (fun path => (listed.get? path).getD [])
      (listed.entries.foldl (fun store entry => store.replaceExtraction entry.1 entry.2) ∅) := by
  have hentry : ∀ entry ∈ listed.entries,
      entry.1.Plain ∧ ∀ error ∈ entry.2, error.isExtraction = true :=
    fun entry he => h entry.1 entry.2 (OrderedMap.get?_eq_some_iff.mpr he)
  exact Reported.empty.foldl_replaceExtraction listed.nodup (fun entry he => (hentry entry he).1)
    fun entry he => (hentry entry he).2

theorem Reported.congr (h : Reported found first)
    (hsame : ∀ key, second.atKey key = first.atKey key) : Reported found second := by
  have hextractions : ∀ key, second.extractionsAt key = first.extractionsAt key := fun key => by
    rw [extractionsAt, extractionsAt, hsame]
  refine ⟨fun path hp => ?_, fun key hk => ?_, fun key => ?_⟩
  · rw [hextractions, h.plain path hp]
  · rw [hextractions, h.other key hk]
  · rw [hsame]
    exact h.rest key

theorem Reported.foldl_clearPath {paths : List Path} (h : Reported found store)
    (hp : ∀ path ∈ paths, path.Plain) :
    Reported (fun path => if path ∈ paths then [] else found path)
      (paths.foldl clearPath store) := by
  have hat : ∀ key, (paths.foldl clearPath store).extractionsAt key =
      if ∃ path ∈ paths, key = path.render then [] else store.extractionsAt key := fun key => by
    rw [extractionsAt, atKey_foldl_clearPath]
    split <;> rfl
  refine ⟨fun path hplain => ?_, fun key hk => ?_, fun key error he => ?_⟩
  · have hiff : (∃ other ∈ paths, path.render = other.render) ↔ path ∈ paths := by
      refine ⟨?_, fun hm => ⟨path, hm, rfl⟩⟩
      rintro ⟨other, ho, hr⟩
      rwa [Path.render_inj hplain (hp other ho) hr]
    rw [hat, h.plain path hplain]
    simp only [hiff]
  · rw [hat, h.other key hk, ite_self]
  · rw [atKey_foldl_clearPath] at he
    split at he
    · exact absurd he List.not_mem_nil
    · exact h.rest key error he

-- Resolving takes nothing away that has not been reported.
theorem Reported.atKey_foldl_resolveReference {paths : List Path} (h : Reported found store)
    (hout : ∀ path, path.Plain → ∀ error ∈ found path, unnamed paths error = true) (key : String) :
    (paths.foldl resolveReference store).atKey key = store.atKey key := by
  rw [ErrorStore.atKey_foldl_resolveReference, List.filter_eq_self]
  intro error he
  rcases h.rest key error he with hx | hc
  · have hin : error ∈ store.extractionsAt key := List.mem_filter.mpr ⟨he, hx⟩
    by_cases hk : ∀ path : Path, path.Plain → path.render ≠ key
    · rw [h.other key hk] at hin
      exact absurd hin List.not_mem_nil
    · push Not at hk
      obtain ⟨path, hp, rfl⟩ := hk
      rw [h.plain path hp] at hin
      exact hout path hp error hin
  · cases error with
    | cyclicDependency _ _ => simp [unnamed, namesReference]
    | _ => cases hc

theorem Reported.replaceCycles (h : Reported found store) :
    Reported found (store.replaceCycles cycles) where
  plain path hp := extractionsAt_replaceCycles.trans (h.plain path hp)
  other key hk := extractionsAt_replaceCycles.trans (h.other key hk)
  rest key error hm := by
    rw [atKey_replaceCycles] at hm
    rcases List.mem_append.mp hm with hm | hm
    · exact h.rest key error (List.mem_filter.mp hm).1
    · exact Or.inr (isCycle_of_mem_cycleErrors error hm)

theorem Reported.extractionsAt_eq (h : Reported found first) (k : Reported found second)
    (key : String) : second.extractionsAt key = first.extractionsAt key := by
  by_cases hk : ∀ path : Path, path.Plain → path.render ≠ key
  · rw [h.other key hk, k.other key hk]
  · push Not at hk
    obtain ⟨path, hp, rfl⟩ := hk
    rw [h.plain path hp, k.plain path hp]

theorem Reported.atKey_perm (h : Reported found store) (key : String) :
    (store.atKey key).Perm (store.extractionsAt key ++ store.cyclesAt key) := by
  have hrest : (store.atKey key).filter (fun error => !error.isExtraction) = store.cyclesAt key := by
    refine List.filter_congr fun error he => ?_
    rcases h.rest key error he with hx | hc
    · rw [hx, not_isCycle_of_isExtraction hx]
      rfl
    · cases hx : error.isExtraction with
      | false => rw [hc]; rfl
      | true =>
          rw [not_isCycle_of_isExtraction hx] at hc
          cases hc
  rw [← hrest]
  exact (List.filter_append_perm _ _).symm

-- Stores that report the same, and the same cycles, agree at each key.
theorem Reported.perm (h : Reported found first) (k : Reported found second)
    (hc : ∀ key, second.cyclesAt key = first.cyclesAt key) (key : String) :
    (second.atKey key).Perm (first.atKey key) := by
  refine (k.atKey_perm key).trans (.trans ?_ (h.atKey_perm key).symm)
  rw [h.extractionsAt_eq k key, hc key]

end Recalc.ErrorStore
