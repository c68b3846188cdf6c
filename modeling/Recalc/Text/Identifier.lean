namespace Recalc.Text

def startsIdentifier (c : Char) : Bool :=
  c.isAlpha || c == '_' || c == '$'

def continuesIdentifier (c : Char) : Bool :=
  c.isAlphanum || c == '_' || c == '$'

def isIdentifier : List Char → Bool
  | [] => false
  | c :: rest => startsIdentifier c && rest.all continuesIdentifier

theorem continuesIdentifier_of_starts {c : Char} (h : startsIdentifier c = true) :
    continuesIdentifier c = true := by
  simp only [startsIdentifier, continuesIdentifier, Char.isAlphanum, Bool.or_eq_true] at h ⊢
  rcases h with (h | h) | h
  · exact Or.inl (Or.inl (Or.inl h))
  · exact Or.inl (Or.inr h)
  · exact Or.inr h

theorem ne_of_continues {c d : Char} (h : continuesIdentifier c = true)
    (hd : continuesIdentifier d = false) : c ≠ d := by
  rintro rfl
  cases h.symm.trans hd

theorem starts_of_isIdentifier {name : List Char} (h : isIdentifier name = true) :
    ∃ c rest, name = c :: rest ∧ startsIdentifier c = true := by
  cases name with
  | nil => cases h
  | cons c rest => exact ⟨c, rest, rfl, (Bool.and_eq_true_iff.mp h).1⟩

theorem continues_of_isIdentifier {name : List Char} (h : isIdentifier name = true) :
    ∀ c ∈ name, continuesIdentifier c = true := by
  cases name with
  | nil => exact fun c hc => absurd hc List.not_mem_nil
  | cons first rest =>
      obtain ⟨hfirst, hrest⟩ := Bool.and_eq_true_iff.mp h
      exact List.forall_mem_cons.mpr
        ⟨continuesIdentifier_of_starts hfirst, List.all_eq_true.mp hrest⟩

end Recalc.Text
