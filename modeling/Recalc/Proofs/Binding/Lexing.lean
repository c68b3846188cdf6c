import Recalc.Proofs.Binding.Reference
import Recalc.Proofs.Path.RoundTrip

namespace Recalc.Binding

variable {c : Char} {rest after : List Char} {token : Token}

-- Begins no blank, no comment, no quoted text and no template.
def Ordinary (c : Char) : Prop :=
  isCodeSpace c = false ∧ c ≠ '/' ∧ c ≠ '"' ∧ c ≠ '\'' ∧ c ≠ '\x60'

instance : DecidablePred Ordinary := fun c =>
  inferInstanceAs (Decidable (isCodeSpace c = false ∧ c ≠ '/' ∧ c ≠ '"' ∧ c ≠ '\'' ∧ c ≠ '\x60'))

theorem ordinary_of_continues (h : Text.continuesIdentifier c = true) : Ordinary c := by
  simp (disch := decide) [Ordinary, isCodeSpace, Text.ne_of_continues h]

theorem step_of_ordinary (h : Ordinary c) (rest : List Char) : step c rest =
    if Text.startsIdentifier c then
      .token (.ident (String.ofList (c :: rest.takeWhile Text.continuesIdentifier)))
        (rest.dropWhile Text.continuesIdentifier)
    else if startsNumber (c :: rest) then
      .token (.number (String.ofList (c :: rest.takeWhile continuesNumber)))
        (rest.dropWhile continuesNumber)
    else markStep c rest := by
  obtain ⟨hspace, hslash, hdouble, hsingle, htemplate⟩ := h
  unfold step
  simp only [hspace, hslash, hdouble, hsingle, htemplate, Bool.false_eq_true, false_and, false_or,
    if_false]

theorem not_startsIdentifier_of_isDigit (h : c.isDigit = true) :
    Text.startsIdentifier c = false := by
  have hall : Text.digits.all (fun d => Text.startsIdentifier d == false) = true := by decide
  exact beq_iff_eq.mp (Text.of_isDigit hall h)

theorem step_ident {name : List Char} (hname : Text.isIdentifier (c :: name) = true)
    (hrest : ∀ d ∈ rest.head?, Text.continuesIdentifier d = false) :
    step c (name ++ rest) = .token (.ident (String.ofList (c :: name))) rest := by
  obtain ⟨hc, hname⟩ := Bool.and_eq_true_iff.mp hname
  obtain ⟨htake, hdrop⟩ := Text.span_append (List.all_eq_true.mp hname) hrest
  rw [step_of_ordinary (ordinary_of_continues (Text.continuesIdentifier_of_starts hc)), if_pos hc,
    htake, hdrop]

theorem step_number {digits : List Char} (hdigits : ∀ d ∈ c :: digits, d.isDigit = true)
    (hrest : ∀ d ∈ rest.head?, continuesNumber d = false) :
    step c (digits ++ rest) = .token (.number (String.ofList (c :: digits))) rest := by
  obtain ⟨hc, hdigits⟩ := List.forall_mem_cons.mp hdigits
  have hclass : ∀ d ∈ digits, continuesNumber d = true := fun d hd => by
    simp [continuesNumber, Char.isAlphanum, hdigits d hd]
  have hcontinues : Text.continuesIdentifier c = true := by
    simp [Text.continuesIdentifier, Char.isAlphanum, hc]
  obtain ⟨htake, hdrop⟩ := Text.span_append hclass hrest
  rw [step_of_ordinary (ordinary_of_continues hcontinues),
    if_neg (by simp [not_startsIdentifier_of_isDigit hc]), if_pos (by simp [startsNumber, hc]),
    htake, hdrop]

theorem quotedText_escaped {name : List Char} (hline : '\n' ∉ name) (rest : List Char) :
    quotedText '"' (Segment.escaped name ++ '"' :: rest) = some (name, rest) := by
  induction name with
  | nil => simp [Segment.escaped, quotedText]
  | cons c name ih =>
      obtain ⟨hc, hline⟩ := not_or.mp fun h => hline (List.mem_cons.mpr h)
      by_cases hescape : c = '"' ∨ c = '\\'
      · simp [Segment.escaped, hescape, quotedText, ih hline, keep]
      · obtain ⟨hquote, hslash⟩ := not_or.mp hescape
        rw [Segment.escaped, if_neg hescape, List.cons_append]
        rw [quotedText.eq_4 _ _ _ (fun he _ => hslash he) (fun _ _ he _ => hslash he),
          if_neg (Ne.symm hc), if_neg hquote, ih hline]
        rfl

theorem step_quoted {name : List Char} (hline : '\n' ∉ name) (rest : List Char) :
    step '"' (Segment.escaped name ++ '"' :: rest) = .token (.str (String.ofList name)) rest := by
  have hquoted := quotedText_escaped hline rest
  unfold step
  rw [hquoted]
  simp [isCodeSpace]

-- A dot before a name begins neither a number nor a spread.
theorem step_dot {name : List Char} (hname : Text.startsIdentifier c = true) :
    step '.' (c :: name) = .token (.mark '.') (c :: name) := by
  have hdigit : c.isDigit = false := by
    by_contra hdigit
    rw [Bool.not_eq_false] at hdigit
    rw [not_startsIdentifier_of_isDigit hdigit] at hname
    cases hname
  have hdot : c ≠ '.' := by
    rintro rfl
    revert hname
    decide
  rw [step_of_ordinary (by decide), if_neg (by decide), if_neg (by simp [startsNumber, hdigit])]
  simp [markStep, hdot]

theorem step_bracket (h : c = '[' ∨ c = ']') (rest : List Char) :
    step c rest = .token (.mark c) rest := by
  rcases h with rfl | rfl <;>
    rw [step_of_ordinary (by decide), if_neg (by decide), if_neg (by simp [startsNumber])] <;>
    simp [markStep]

theorem lexemes_nil : lexemes [] = [] := by
  rw [lexemes]

theorem lexemes_of_token (h : step c rest = .token token after) :
    lexemes (c :: rest) = .token token (c :: rest) :: lexemes after := by
  rw [lexemes_cons, h]

end Recalc.Binding
