import Recalc.Binding.Dependencies
import Mathlib.Tactic.Common

namespace Recalc.Binding

variable {config : Config} {known : Path → Bool} {path target : Path} {reference : Reference}
  {found : Dependencies}

section Prefix

-- A known prefix with no longer one up to the given depth.
theorem longest_knownPrefix {chain found : Path} {depth : Nat}
    (h : knownPrefix known chain depth = some found) :
    known found = true ∧ ∃ top ≤ depth, found = chain.truncate top ∧
      ∀ further ≤ depth, top < further → known (chain.truncate further) = false := by
  induction depth with
  | zero =>
      rw [knownPrefix] at h
      split at h <;> cases h
      next hk => exact ⟨hk, 0, Nat.le_refl 0, rfl, fun further hle hlt => by omega⟩
  | succ depth ih =>
      rw [knownPrefix] at h
      split at h
      · next hk =>
        cases h
        exact ⟨hk, depth + 1, Nat.le_refl _, rfl, fun further hle hlt => by omega⟩
      · next hk =>
        obtain ⟨hfound, top, htop, he, hlongest⟩ := ih h
        refine ⟨hfound, top, Nat.le_succ_of_le htop, he, fun further hle hlt => ?_⟩
        rcases Nat.le_succ_iff.mp hle with hle | rfl
        · exact hlongest further hle hlt
        · exact Bool.eq_false_iff.mpr hk

theorem unknown_of_knownPrefix {chain : Path} {depth : Nat}
    (h : knownPrefix known chain depth = none) :
    ∀ above ≤ depth, known (chain.truncate above) = false := by
  induction depth with
  | zero =>
      rw [knownPrefix] at h
      split at h
      · cases h
      · next hk =>
        intro above ha
        rw [Nat.le_zero.mp ha]
        exact Bool.eq_false_iff.mpr hk
  | succ depth ih =>
      rw [knownPrefix] at h
      split at h
      · cases h
      · next hk =>
        intro above ha
        rcases Nat.le_succ_iff.mp ha with ha | rfl
        · exact ih h above ha
        · exact Bool.eq_false_iff.mpr hk

theorem verbatim_eq_truncate (reference : Reference) :
    ∃ depth ≤ reference.chain.depth, reference.verbatim = reference.chain.truncate depth := by
  unfold Reference.verbatim
  split
  · exact ⟨_, Nat.sub_le _ _, rfl⟩
  · exact ⟨_, Nat.le_refl _, by rw [Path.truncate, Path.depth, List.take_length]⟩

end Prefix

section Targets

theorem references_addReference (found : Dependencies) :
    (addReference config known path found reference).references =
      match chosen config known reference with
      | none => found.references
      | some (target, _) =>
        if target = path then found.references else found.references.insert target := by
  unfold addReference
  cases chosen config known reference with
  | none => rfl
  | some choice =>
      dsimp only
      rw [apply_ite Dependencies.references, apply_ite Dependencies.references, ite_self]

theorem mem_references_addReference :
    target ∈ (addReference config known path found reference).references ↔
      target ∈ found.references ∨ target ≠ path ∧
        ∃ unresolved, chosen config known reference = some (target, unresolved) := by
  rw [references_addReference]
  cases chosen config known reference with
  | none => simp
  | some choice =>
      obtain ⟨other, unresolved⟩ := choice
      dsimp only
      by_cases hself : other = path
      · rw [if_pos hself]
        refine (or_iff_left ?_).symm
        rintro ⟨hne, _, he⟩
        cases he
        exact hne hself
      · rw [if_neg hself, OrderedSet.mem_insert]
        refine or_congr Iff.rfl ⟨?_, ?_⟩
        · rintro rfl
          exact ⟨hself, unresolved, rfl⟩
        · rintro ⟨_, _, he⟩
          cases he
          rfl

end Targets

section Errors

-- The error for what is chosen, if it is unresolved.
def choiceErrors (config : Config) (path : Path) (choice : Path × Bool) : List DependencyError :=
  if choice.2 && config.reportUnresolved then
    [.unresolvedReference path.render choice.1.render]
  else []

def unresolvedErrors (config : Config) (known : Path → Bool) (path : Path)
    (reference : Reference) : List DependencyError :=
  (chosen config known reference).toList.flatMap (choiceErrors config path)

-- Whether a reference leads to the path that holds it.
def readsSelf (config : Config) (known : Path → Bool) (path : Path) (reference : Reference) :
    Bool :=
  (chosen config known reference).any fun choice => decide (choice.1 = path)

theorem readsSelf_iff : readsSelf config known path reference = true ↔
    ∃ unresolved, chosen config known reference = some (path, unresolved) := by
  unfold readsSelf
  cases chosen config known reference with
  | none => simp
  | some choice => simp [Prod.ext_iff]

theorem mem_unresolvedErrors {error : DependencyError} :
    error ∈ unresolvedErrors config known path reference ↔
      ∃ target, chosen config known reference = some (target, true) ∧
        config.reportUnresolved = true ∧
          error = .unresolvedReference path.render target.render := by
  simp [unresolvedErrors, choiceErrors, Bool.exists_bool]

theorem any_isSelfReference_choiceErrors (choice : Path × Bool) :
    (choiceErrors config path choice).any isSelfReference = false := by
  unfold choiceErrors
  split <;> rfl

theorem append_choiceErrors (errors : List DependencyError) (choice : Path × Bool) :
    (if (choice.2 && config.reportUnresolved) = true then
        errors ++ [.unresolvedReference path.render choice.1.render] else errors) =
      errors ++ choiceErrors config path choice := by
  unfold choiceErrors
  split
  · rfl
  · exact (List.append_nil errors).symm

-- A reference adds its own error first, and then that of the path that reads
-- itself, once.
theorem errors_addReference (found : Dependencies) :
    (addReference config known path found reference).errors =
      found.errors ++ unresolvedErrors config known path reference ++
        if readsSelf config known path reference && !found.errors.any isSelfReference then
          [.selfReference path.render] else [] := by
  unfold addReference unresolvedErrors readsSelf
  cases chosen config known reference with
  | none => simp
  | some choice =>
      dsimp only
      rw [append_choiceErrors, List.any_append, any_isSelfReference_choiceErrors, Bool.or_false]
      by_cases hsame : choice.1 = path
      · cases found.errors.any isSelfReference <;> simp [hsame]
      · simp [hsame]

-- What is added is an unresolved reference or the path that reads itself.
theorem mem_errors_addReference {error : DependencyError}
    (h : error ∈ (addReference config known path found reference).errors) :
    error ∈ found.errors ∨ error ∈ unresolvedErrors config known path reference ∨
      error = .selfReference path.render := by
  rw [errors_addReference, List.mem_append, List.mem_append, or_assoc] at h
  refine h.imp_right (Or.imp_right fun hself => ?_)
  split at hself
  · exact List.mem_singleton.mp hself
  · cases hself

end Errors

end Recalc.Binding
