import Recalc.Path.Parser
import Mathlib.Tactic.Common

namespace Recalc

namespace Text

-- A run of characters of a class ends where a character of another one begins.
theorem span_append {p : Char → Bool} {run rest : List Char} (hrun : ∀ c ∈ run, p c = true)
    (hrest : ∀ c ∈ rest.head?, p c = false) :
    (run ++ rest).takeWhile p = run ∧ (run ++ rest).dropWhile p = rest := by
  have hstop : rest.takeWhile p = [] ∧ rest.dropWhile p = rest := by
    cases rest with
    | nil => exact ⟨rfl, rfl⟩
    | cons c after => simp [hrest c rfl]
  rw [List.takeWhile_append_of_pos hrun, List.dropWhile_append_of_pos hrun, hstop.1, hstop.2,
    List.append_nil]
  exact ⟨rfl, rfl⟩

end Text

namespace Path

-- The name of the entity ends where the steps begin.
def Plain (path : Path) : Prop := ∀ c ∈ path.entity.toList, startsAccessor c = false

-- A text at which a name ends.
def EndsName (text : List Char) : Prop := ∀ c ∈ text.head?, startsAccessor c = true

theorem splitEntity_append {name rest : List Char}
    (hname : ∀ c ∈ name, startsAccessor c = false) (hrest : EndsName rest) :
    splitEntity (name ++ rest) = (name, rest) := by
  obtain ⟨htake, hdrop⟩ := Text.span_append (p := fun c => !startsAccessor c)
    (fun c hc => by rw [hname c hc]; rfl) fun c hc => by rw [hrest c hc]; rfl
  rw [splitEntity, htake, hdrop]

theorem quotedName_escaped (name rest : List Char) :
    quotedName '"' (Segment.escaped name ++ '"' :: rest) = some (name, rest) := by
  induction name with
  | nil => simp [Segment.escaped, quotedName]
  | cons c name ih =>
      by_cases hc : c = '"' ∨ c = '\\'
      · simp [Segment.escaped, hc, quotedName, ih]
      · have hquote : c ≠ '"' := fun he => hc (Or.inl he)
        have hslash : c ≠ '\\' := fun he => hc (Or.inr he)
        rw [Segment.escaped, if_neg hc, List.cons_append]
        rw [quotedName.eq_4 _ _ _ (fun he _ => hslash he) (fun _ _ he _ => hslash he),
          if_neg hquote, ih]
        rfl

theorem bareName_append {name rest : List Char} (h : ∀ c ∈ name, c ≠ ']') :
    bareName (name ++ ']' :: rest) = some (name, rest) := by
  induction name with
  | nil => simp [bareName]
  | cons c name ih =>
      rw [List.cons_append, bareName, if_neg (h c List.mem_cons_self),
        ih fun d hd => h d (List.mem_cons_of_mem c hd)]
      rfl

end Path

namespace Segment

open Recalc.Path

theorem startsAccessor_of_continues {c : Char} (h : Text.continuesIdentifier c = true) :
    startsAccessor c = false := by
  simp (disch := decide) [startsAccessor, Text.ne_of_continues h]

theorem startsAccessor_of_isIdentifier {name : List Char} (h : Text.isIdentifier name = true) :
    ∀ c ∈ name, startsAccessor c = false := fun c hc =>
  startsAccessor_of_continues (Text.continues_of_isIdentifier h c hc)

theorem toList_toString (position : Nat) : (toString position).toList = Nat.toDigits 10 position := by
  rw [Nat.toString_eq_repr, Nat.toList_repr]

theorem isDigit_of_mem_toString {position : Nat} {c : Char} (h : c ∈ (toString position).toList) :
    c.isDigit = true := by
  rw [toList_toString] at h
  exact Nat.isDigit_of_mem_toDigits (by decide) (by decide) h

theorem toString_injective {first second : Nat}
    (h : (toString first).toList = (toString second).toList) : first = second := by
  rw [toList_toString, toList_toString] at h
  have hof := congrArg (Nat.ofDigitChars 10 · 0) h
  simpa only [Nat.ofDigitChars_ten_toDigits] using hof

-- The three ways to write a step.
inductive Spells : Segment → List Char → Prop
  | named {name : String} (plain : ∀ c ∈ name.toList, startsAccessor c = false)
      (identifier : Text.isIdentifier name.toList = true) : Spells (.key name) ('.' :: name.toList)
  | quoted (name : String) :
      Spells (.key name) ('[' :: '"' :: (escaped name.toList ++ ['"', ']']))
  | counted (position : Nat) :
      Spells (.index position) ('[' :: ((toString position).toList ++ [']']))

theorem spells_spelling (segment : Segment) : Spells segment segment.spelling := by
  cases segment with
  | key name =>
      by_cases hi : Text.isIdentifier name.toList = true
      · rw [spelling, if_pos hi]
        exact .named (startsAccessor_of_isIdentifier hi) hi
      · rw [spelling, if_neg hi]
        exact .quoted name
  | index position => exact .counted position

theorem endsName_spelling (segment : Segment) (rest : List Char) :
    EndsName (segment.spelling ++ rest) := by
  have h := spells_spelling segment
  generalize segment.spelling = text at h
  intro c hc
  cases h <;> (cases hc; rfl)

theorem spelling_ne_nil (segment : Segment) : segment.spelling ≠ [] := by
  have h := spells_spelling segment
  generalize segment.spelling = text at h
  cases h <;> exact List.cons_ne_nil _ _

theorem endsName_stepsSpelling (segments : List Segment) : EndsName (stepsSpelling segments) := by
  cases segments with
  | nil => exact fun c hc => by cases hc
  | cons segment rest =>
      rw [stepsSpelling, List.flatMap_cons]
      exact endsName_spelling segment _

theorem ne_close_of_isDigit {c : Char} (h : c.isDigit = true) : c ≠ ']' := by
  rintro rfl
  revert h
  decide

-- The steps that a text begins with can be told from what follows.
theorem spelling_append_inj {first second : Segment} {rest others : List Char}
    (hrest : EndsName rest) (hothers : EndsName others)
    (h : first.spelling ++ rest = second.spelling ++ others) : first = second ∧ rest = others := by
  have hdigit : ∀ (position : Nat) (after name : List Char),
      (toString position).toList ++ after ≠ '"' :: name := by
    intro position after name he
    cases hd : (toString position).toList with
    | nil =>
        rw [toList_toString] at hd
        exact Nat.toDigits_ne_nil hd
    | cons c digits =>
        have hmem : c ∈ (toString position).toList := hd ▸ List.mem_cons_self
        have hc := isDigit_of_mem_toString hmem
        rw [hd, List.cons_append] at he
        rw [(List.cons.inj he).1] at hc
        revert hc
        decide
  have one := spells_spelling first
  have two := spells_spelling second
  generalize first.spelling = text at one h
  generalize second.spelling = other at two h
  cases one with
  | @named name plain identifier =>
      cases two with
      | @named other plain' identifier' =>
          have htail : name.toList ++ rest = other.toList ++ others := (List.cons.inj h).2
          have hs := splitEntity_append plain hrest
          rw [htail, splitEntity_append plain' hothers] at hs
          obtain ⟨hname, hafter⟩ := Prod.mk.inj hs
          exact ⟨by rw [String.toList_inj.mp hname], hafter.symm⟩
      | quoted other => cases h
      | counted position => cases h
  | quoted name =>
      cases two with
      | named plain identifier => cases h
      | quoted other =>
          simp only [List.cons_append, List.append_assoc, List.cons.injEq, true_and] at h
          have hq := quotedName_escaped name.toList (']' :: rest)
          rw [show escaped name.toList ++ '"' :: ']' :: rest = _ from h,
            List.nil_append, quotedName_escaped] at hq
          obtain ⟨hname, hafter⟩ := Prod.mk.inj (Option.some_inj.mp hq)
          exact ⟨by rw [String.toList_inj.mp hname], (List.cons.inj hafter).2.symm⟩
      | counted position =>
          simp only [List.cons_append, List.append_assoc, List.cons.injEq, true_and] at h
          exact absurd h.symm (hdigit position _ _)
  | counted position =>
      cases two with
      | named plain identifier => cases h
      | quoted other =>
          simp only [List.cons_append, List.append_assoc, List.cons.injEq, true_and] at h
          exact absurd h (hdigit position _ _)
      | counted other =>
          simp only [List.cons_append, List.append_assoc, List.cons.injEq, true_and,
            List.nil_append] at h
          have hb : bareName ((toString position).toList ++ ']' :: rest) =
              some ((toString position).toList, rest) :=
            bareName_append fun c hc => ne_close_of_isDigit (isDigit_of_mem_toString hc)
          rw [h, bareName_append fun c hc => ne_close_of_isDigit (isDigit_of_mem_toString hc)] at hb
          obtain ⟨hdigits, hafter⟩ := Prod.mk.inj (Option.some_inj.mp hb)
          exact ⟨by rw [toString_injective hdigits], hafter.symm⟩

end Segment

namespace Path

theorem stepsSpelling_inj {first second : List Segment}
    (h : stepsSpelling first = stepsSpelling second) : first = second := by
  have hcons : ∀ segment rest, stepsSpelling (segment :: rest) ≠ [] := fun segment rest he =>
    Segment.spelling_ne_nil segment (List.append_eq_nil_iff.mp he).1
  induction first generalizing second with
  | nil =>
      cases second with
      | nil => rfl
      | cons segment rest => exact absurd h.symm (hcons segment rest)
  | cons segment rest ih =>
      cases second with
      | nil => exact absurd h (hcons segment rest)
      | cons other others =>
          obtain ⟨rfl, hrest⟩ := Segment.spelling_append_inj (Segment.endsName_stepsSpelling rest)
            (Segment.endsName_stepsSpelling others) h
          rw [ih hrest]

theorem render_inj {first second : Path} (hf : first.Plain) (hs : second.Plain)
    (h : first.render = second.render) : first = second := by
  have he := congrArg splitEntity (String.ofList_inj.mp h)
  rw [spelling, spelling, splitEntity_append hf (Segment.endsName_stepsSpelling first.segments),
    splitEntity_append hs (Segment.endsName_stepsSpelling second.segments)] at he
  obtain ⟨hentity, hsteps⟩ := Prod.mk.inj he
  cases first
  cases second
  rw [mk.injEq]
  exact ⟨String.toList_inj.mp hentity, stepsSpelling_inj hsteps⟩

end Path

end Recalc
