import Recalc.Proofs.Path.Canonical

namespace Recalc

namespace Path

variable {path : Path} {text name : String}

-- What the lenient reader keeps of a text that the strict one refuses, besides
-- the name of the entity.
def leftover (text : String) : String :=
  String.ofList ((splitEntity text.toList).2.dropWhile (· == '.'))

-- The texts that are read as their canonical forms are.
inductive Stable (text : String) : Prop
  | accepted (path : Path) (h : parse text = .ok path)
  | bare (h : leftover text = "")
  | named (hentity : entityName text ≠ "")
      (h : ∀ position < Number.wordLimit, toString position ≠ leftover text)
  | nameless (hentity : entityName text = "") (h : Text.isIdentifier (leftover text).toList = true)

theorem length_le_escaped (name : List Char) : name.length ≤ (Segment.escaped name).length := by
  fun_induction Segment.escaped name with
  | case1 => exact Nat.le_refl _
  | case2 c rest _ ih =>
      simp only [List.length_cons]
      omega
  | case3 c rest _ ih => exact Nat.succ_le_succ ih

theorem parse_of_nameless (h : (splitEntity text.toList).1 = []) :
    ∃ error, parse text = .error error := by
  unfold parse
  dsimp only
  rw [h]
  split
  · exact ⟨_, rfl⟩
  · exact ⟨_, rfl⟩

theorem parseLenient_of_error {error : PathError} (h : parse text = .error error) :
    parseLenient text = asOneName text := by
  rw [parseLenient, h]

theorem asOneName_eq (text : String) : asOneName text =
    ⟨entityName text, if leftover text = "" then [] else [.key (leftover text)]⟩ := by
  unfold asOneName leftover entityName
  dsimp only
  simp only [List.isEmpty_iff, String.ofList_eq_empty_iff]

theorem parseLenient_render (h : path.Canonical) : parseLenient path.render = path := by
  rw [parseLenient, parse_render h]

-- Below a name, whatever is printed as one step is read as one.
theorem parseLenient_named {entity : String} (hne : entity ≠ "")
    (hplain : ∀ c ∈ entity.toList, startsAccessor c = false) (segment : Segment) :
    parseLenient (render ⟨entity, [segment]⟩) = ⟨entity, [.ofName segment.name]⟩ := by
  have hread : accessors (stepsSpelling [segment]) = .ok [.ofName segment.name] := by
    rw [stepsSpelling, List.flatMap_singleton, accessors_spelling]
  rw [parseLenient, render, spelling,
    parse_append hne hplain (Segment.endsName_stepsSpelling [segment]) hread]

-- Without a name, a text that begins with a step is kept but for its dots.
theorem parseLenient_nameless {chars : List Char} (h : EndsName chars) :
    parseLenient (String.ofList chars) = ⟨"", if chars.dropWhile (· == '.') = [] then []
      else [.key (String.ofList (chars.dropWhile (· == '.')))]⟩ := by
  have hsplit : splitEntity (String.ofList chars).toList = ([], chars) := by
    have happend : splitEntity ([] ++ chars) = ([], chars) :=
      splitEntity_append (fun c hc => absurd hc List.not_mem_nil) h
    rwa [String.toList_ofList]
  have hnameless : (splitEntity (String.ofList chars).toList).1 = [] := by rw [hsplit]
  obtain ⟨error, herror⟩ := parse_of_nameless hnameless
  rw [parseLenient_of_error herror, asOneName_eq, leftover, entityName, hsplit]
  simp only [String.ofList_eq_empty_iff]

theorem render_nameless (segments : List Segment) :
    render ⟨"", segments⟩ = String.ofList (stepsSpelling segments) := rfl

-- Without a name, what is printed in brackets grows.
theorem parseLenient_nameless_key (name : String) :
    parseLenient (render ⟨"", [.key name]⟩) = ⟨"", [.key name]⟩ ↔
      Text.isIdentifier name.toList = true := by
  have hspelling : stepsSpelling [.key name] = (Segment.key name).spelling :=
    List.flatMap_singleton _ _
  rw [render_nameless, parseLenient_nameless (Segment.endsName_stepsSpelling _), hspelling]
  by_cases hi : Text.isIdentifier name.toList = true
  · have hne : name.toList ≠ [] := by
      obtain ⟨c, rest, hname, -⟩ := Text.starts_of_isIdentifier hi
      exact hname ▸ List.cons_ne_nil c rest
    have hdots : ('.' :: name.toList).dropWhile (· == '.') = name.toList := by
      rw [List.dropWhile_cons_of_pos (by rfl)]
      refine Text.dropWhile_eq_self fun c hc => beq_eq_false_iff_ne.mpr ?_
      rintro rfl
      exact absurd (Segment.startsAccessor_of_isIdentifier hi '.' hc) (by decide)
    rw [Segment.spelling, if_pos hi, hdots, if_neg hne, String.ofList_toList]
    exact iff_of_true rfl hi
  · rw [Segment.spelling, if_neg hi, List.dropWhile_cons_of_neg (by decide), if_neg (by simp)]
    refine iff_of_false (fun he => ?_) hi
    have hname : '[' :: '"' :: (Segment.escaped name.toList ++ ['"', ']']) = name.toList := by
      simpa [← String.toList_inj] using he
    have hlength := congrArg List.length hname
    have hgrows := length_le_escaped name.toList
    simp only [List.length_cons, List.length_append] at hlength
    omega

theorem ofName_eq_key_iff (name : String) :
    Segment.ofName name = .key name ↔ (Segment.key name).Canonical := by
  constructor
  · intro h
    exact h ▸ Segment.canonical_ofName name
  · intro h
    have hback : Segment.ofName (Segment.key name).name = .key name := Segment.ofName_name h
    exact hback

-- What has been refused is read again as one step or none.
theorem parseLenient_asOneName (text : String) :
    parseLenient (asOneName text).render = asOneName text ↔ leftover text = "" ∨
      (entityName text ≠ "" ∧ (Segment.key (leftover text)).Canonical) ∨
        (entityName text = "" ∧ Text.isIdentifier (leftover text).toList = true) := by
  have hplain : ∀ c ∈ (entityName text).toList, startsAccessor c = false :=
    plain_splitEntity text.toList
  rw [asOneName_eq]
  by_cases hbare : leftover text = ""
  · rw [if_pos hbare]
    refine iff_of_true ?_ (Or.inl hbare)
    by_cases hne : entityName text = ""
    · rw [hne]
      have hread : parseLenient (String.ofList []) = ⟨"", []⟩ :=
        parseLenient_nameless fun c hc => by cases hc
      exact hread
    · exact parseLenient_render ⟨hne, hplain, fun _ hs => absurd hs List.not_mem_nil⟩
  · rw [if_neg hbare, or_iff_right hbare]
    by_cases hne : entityName text = ""
    · rw [hne, parseLenient_nameless_key]
      simp
    · rw [parseLenient_named hne hplain, ← ofName_eq_key_iff]
      simp [hne, Segment.name]

theorem stable_of_error {error : PathError} (h : parse text = .error error) :
    Stable text ↔ leftover text = "" ∨
      (entityName text ≠ "" ∧ (Segment.key (leftover text)).Canonical) ∨
        (entityName text = "" ∧ Text.isIdentifier (leftover text).toList = true) := by
  rw [Segment.canonical_key_iff]
  constructor
  · rintro (⟨path, hparse⟩ | hbare | ⟨hne, hname⟩ | ⟨hne, hi⟩)
    · cases h.symm.trans hparse
    · exact Or.inl hbare
    · exact Or.inr (Or.inl ⟨hne, hname⟩)
    · exact Or.inr (Or.inr ⟨hne, hi⟩)
  · rintro (hbare | ⟨hne, hname⟩ | ⟨hne, hi⟩)
    · exact .bare hbare
    · exact .named hne hname
    · exact .nameless hne hi

theorem parseLenient_canonicalize_iff (text : String) :
    parseLenient (canonicalize text) = parseLenient text ↔ Stable text := by
  unfold canonicalize
  cases hparse : parse text with
  | ok path =>
      have hread : parseLenient text = path := by rw [parseLenient, hparse]
      rw [hread]
      exact iff_of_true (parseLenient_render (.of_parse hparse)) (.accepted path hparse)
  | error error =>
      rw [parseLenient_of_error hparse, parseLenient_asOneName, stable_of_error hparse]

-- The canonical form of a text is its own canonical form, and is read as the
-- text is, for just these texts.
theorem canonicalize_stable_iff (text : String) :
    (canonicalize (canonicalize text) = canonicalize text ↔ Stable text) ∧
      (parseLenient (canonicalize text) = parseLenient text ↔ Stable text) := by
  refine ⟨?_, parseLenient_canonicalize_iff text⟩
  rw [← parseLenient_canonicalize_iff]
  exact ⟨render_inj (plain_parseLenient _) (plain_parseLenient _), congrArg render⟩

-- A malformed text is kept as the name of a member, and its canonical form is
-- read as a position.
theorem reread_as_position :
    parseLenient "A..0" = ⟨"A", [.key "0"]⟩ ∧ canonicalize "A..0" = "A[\"0\"]" ∧
      parseLenient (canonicalize "A..0") = ⟨"A", [.index 0]⟩ ∧
      canonicalize (canonicalize "A..0") = "A[0]" := by
  decide +kernel

-- Without an entity, brackets and quotes are taken for a part of the name.
example : canonicalize "[0]" = "[\"[0]\"]" ∧
    canonicalize (canonicalize "[0]") = "[\"[\\\"[0]\\\"]\"]" := by
  decide +kernel

end Path

end Recalc
