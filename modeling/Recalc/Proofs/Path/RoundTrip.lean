import Recalc.Proofs.Path.Plain
import Recalc.Tree.Entity

namespace Recalc

namespace Text

theorem dropWhile_eq_self {α : Type} {keep : α → Bool} {text : List α}
    (h : ∀ c ∈ text, keep c = false) : text.dropWhile keep = text := by
  cases text with
  | nil => rfl
  | cons c rest => rw [List.dropWhile_cons_of_neg (by simp [h c List.mem_cons_self])]

theorem trim_eq_self {text : List Char} (h : ∀ c ∈ text, isBlank c = false) : trim text = text := by
  have hrev : ∀ c ∈ text.reverse, isBlank c = false := fun c hc => h c (List.mem_reverse.mp hc)
  rw [trim, trimStart, trimStart, dropWhile_eq_self h, dropWhile_eq_self hrev, List.reverse_reverse]

theorem toNat_of_isDigit {c : Char} (h : c.isDigit = true) : 48 ≤ c.toNat ∧ c.toNat ≤ 57 := by
  simpa [Char.isDigit, Char.le_def, UInt32.le_iff_toNat_le] using h

def digits : List Char := ['0', '1', '2', '3', '4', '5', '6', '7', '8', '9']

theorem mem_digits {c : Char} (h : c.isDigit = true) : c ∈ digits := by
  obtain ⟨hlow, hhigh⟩ := toNat_of_isDigit h
  rw [← Char.ofNat_toNat c]
  generalize c.toNat = code at hlow hhigh
  have hcode : code = 48 ∨ code = 49 ∨ code = 50 ∨ code = 51 ∨ code = 52 ∨ code = 53 ∨
      code = 54 ∨ code = 55 ∨ code = 56 ∨ code = 57 := by omega
  rcases hcode with rfl | rfl | rfl | rfl | rfl | rfl | rfl | rfl | rfl | rfl <;> decide

-- What holds of each of the ten digits.
theorem of_isDigit {p : Char → Bool} (hall : digits.all p = true) {c : Char}
    (h : c.isDigit = true) : p c = true :=
  List.all_eq_true.mp hall c (mem_digits h)

theorem not_isBlank_of_isDigit {c : Char} (h : c.isDigit = true) : isBlank c = false := by
  have hall : digits.all (fun d => isBlank d == false) = true := by decide
  exact beq_iff_eq.mp (of_isDigit hall h)

end Text

namespace Segment

theorem canonical_ofName (name : String) : (ofName name).Canonical := by
  unfold ofName
  split
  · next position h =>
    unfold position? at h
    split at h
    · cases h
    · split at h
      · cases h
      · split at h
        · next hlt =>
          cases h
          exact hlt
        · cases h
  · next h => exact h

-- Only the number zero is spelled with a zero in front.
theorem head?_toDigits {position : Nat} (h : 0 < position) :
    (Nat.toDigits 10 position).head? ≠ some '0' := by
  induction position using Nat.strongRecOn with
  | _ position ih =>
      by_cases hlt : position < 10
      · rw [Nat.toDigits_of_lt_base hlt]
        intro he
        have hdigit := Nat.toNat_digitChar_sub_48_of_lt_ten hlt
        rw [Option.some_inj.mp he] at hdigit
        exact Nat.ne_of_lt h hdigit
      · have hfirst := ih (position / 10) (by omega) (by omega)
        obtain ⟨c, rest, hc⟩ := List.exists_cons_of_ne_nil
          (Nat.toDigits_ne_nil (n := position / 10) (b := 10))
        rw [Nat.toDigits_of_base_le (by decide) (Nat.le_of_not_lt hlt)]
        rw [hc] at hfirst ⊢
        exact hfirst

theorem ofDigits_toDigits (position : Nat) :
    Number.ofDigits (Nat.toDigits 10 position) = position := by
  have h := Nat.ofDigitChars_ten_toDigits (n := position)
  simp only [Nat.ofDigitChars, Nat.mul_comm 10] at h
  exact h

-- The decimal spelling of a machine word is read as this word.
theorem position?_toString {position : Nat} (h : position < Number.wordLimit) :
    position? (toString position).toList = some position := by
  have hdigits : (Nat.toDigits 10 position).all Char.isDigit = true :=
    List.all_eq_true.mpr fun c hc => Nat.isDigit_of_mem_toDigits (by decide) (by decide) hc
  have hzero : ¬((Nat.toDigits 10 position).head? = some '0' ∧
      1 < (Nat.toDigits 10 position).length) := by
    rintro ⟨hhead, hlong⟩
    rcases Nat.eq_zero_or_pos position with rfl | hpos
    · simp at hlong
    · exact head?_toDigits hpos hhead
  rw [toList_toString, position?, if_neg (by simp [hdigits]), if_neg hzero, ofDigits_toDigits,
    if_pos h]

-- The name of a canonical step leads back to the step.
theorem ofName_name {segment : Segment} (h : segment.Canonical) : ofName segment.name = segment := by
  cases segment with
  | key name =>
      unfold ofName Segment.name
      dsimp only
      rw [show position? name.toList = none from h]
  | index position =>
      unfold ofName Segment.name
      dsimp only
      rw [position?_toString h]

end Segment

namespace Path

variable {path other : Path} {name relative : String}

-- A step is read back from its text by its name.
theorem accessor_spelling_append (segment : Segment) {rest : List Char} (hrest : EndsName rest) :
    accessor (segment.spelling ++ rest) = .ok (.ofName segment.name, rest) := by
  have hspells := Segment.spells_spelling segment
  generalize segment.spelling = text at hspells
  cases hspells with
  | @named name plain identifier =>
      have hne : name.toList ≠ [] := by
        intro hnil
        rw [hnil] at identifier
        cases identifier
      rw [List.cons_append, accessor, splitEntity_append plain hrest]
      dsimp only
      rw [if_neg (by simpa using hne), String.ofList_toList]
      rfl
  | quoted name =>
      simp only [List.cons_append, List.append_assoc, accessor, true_or, if_true,
        List.nil_append, quotedName_escaped]
      rw [String.ofList_toList]
      rfl
  | counted position =>
      have hdigit : ∀ c ∈ (toString position).toList, c.isDigit = true := fun c hc =>
        Segment.isDigit_of_mem_toString hc
      have hbare : bareName ((toString position).toList ++ ']' :: rest) =
          some ((toString position).toList, rest) :=
        bareName_append fun c hc => Segment.ne_close_of_isDigit (hdigit c hc)
      have htrim := Text.trim_eq_self fun c hc => Text.not_isBlank_of_isDigit (hdigit c hc)
      obtain ⟨c, digits, hd⟩ := List.exists_cons_of_ne_nil
        (show (toString position).toList ≠ [] from
          Segment.toList_toString position ▸ Nat.toDigits_ne_nil)
      have hc : ¬(c = '"' ∨ c = '\'') := by
        have hdigit' := hdigit c (hd ▸ List.mem_cons_self)
        rintro (rfl | rfl) <;> revert hdigit' <;> decide
      rw [hd, List.cons_append] at hbare
      simp only [List.cons_append, List.append_assoc, hd, accessor, if_neg hc, List.nil_append,
        hbare]
      rw [← hd, htrim, String.ofList_toList]
      rfl

-- A canonical step is read back from its text.
theorem accessor_spelling {segment : Segment} {rest : List Char} (h : segment.Canonical)
    (hrest : EndsName rest) : accessor (segment.spelling ++ rest) = .ok (segment, rest) := by
  rw [accessor_spelling_append segment hrest, Segment.ofName_name h]

theorem accessors_nil : accessors [] = .ok [] := by
  rw [accessors]
  rfl

theorem accessors_of_ok {text after : List Char} {segment : Segment}
    (h : accessor text = .ok (segment, after)) :
    accessors text = (accessors after).map (segment :: ·) := by
  have hne : text.isEmpty = false := by
    cases text with
    | nil => cases h
    | cons c text => rfl
  rw [accessors, hne, if_neg Bool.false_ne_true]
  split
  · next fault he =>
    rw [h] at he
    cases he
  · next found tail he =>
    rw [h] at he
    cases he
    rfl

theorem accessors_stepsSpelling {segments : List Segment} (h : ∀ s ∈ segments, s.Canonical) :
    accessors (stepsSpelling segments) = .ok segments := by
  induction segments with
  | nil => exact accessors_nil
  | cons segment rest ih =>
      obtain ⟨hsegment, hrest⟩ := List.forall_mem_cons.mp h
      have hstep : accessor (stepsSpelling (segment :: rest)) = .ok (segment, stepsSpelling rest) :=
        accessor_spelling hsegment (Segment.endsName_stepsSpelling rest)
      rw [accessors_of_ok hstep, ih hrest]
      rfl

-- Whatever a step is read from, it is canonical.
theorem canonical_accessor {text after : List Char} {segment : Segment}
    (h : accessor text = .ok (segment, after)) : segment.Canonical := by
  unfold accessor at h
  split at h
  · dsimp only at h
    split at h
    · cases h
    · cases h
      exact Segment.canonical_ofName _
  · split at h
    · cases h
    · split at h
      · split at h <;> cases h
        exact Segment.canonical_ofName _
      · split at h <;> cases h
        exact Segment.canonical_ofName _
  · cases h

theorem canonical_accessors {text : List Char} {segments : List Segment}
    (h : accessors text = .ok segments) : ∀ s ∈ segments, s.Canonical := by
  induction hlen : text.length using Nat.strongRecOn generalizing text segments with
  | _ length ih =>
      rw [accessors] at h
      split at h
      · cases h
        exact fun s hs => absurd hs List.not_mem_nil
      · split at h
        · cases h
        · next segment after hstep =>
          cases hrest : accessors after with
          | error fault =>
              rw [hrest] at h
              cases h
          | ok rest =>
              rw [hrest] at h
              cases h
              refine List.forall_mem_cons.mpr ⟨canonical_accessor hstep, ?_⟩
              exact ih after.length (hlen ▸ accessor_length hstep) hrest rfl

-- The strict reader on the name of an entity and what follows it.
theorem parse_append {entity : String} {text : List Char} (hne : entity ≠ "")
    (hplain : ∀ c ∈ entity.toList, startsAccessor c = false) (htext : EndsName text)
    {segments : List Segment} (h : accessors text = .ok segments) :
    parse (String.ofList (entity.toList ++ text)) = .ok ⟨entity, segments⟩ := by
  have hnil : entity.toList ≠ [] := fun he => hne (String.toList_eq_nil_iff.mp he)
  unfold parse
  dsimp only
  rw [String.toList_ofList, splitEntity_append hplain htext, h, if_neg (by simp [hnil]),
    if_neg (by simp [hnil]), String.ofList_toList]

theorem parse_render (h : path.Canonical) : parse path.render = .ok path := by
  unfold render spelling
  rw [parse_append h.named h.plain (Segment.endsName_stepsSpelling path.segments)
    (accessors_stepsSpelling h.steps)]

-- A plain name is read as the entity.
theorem parseLenient_of_plain {name : String} (hne : name ≠ "") (hplain : (ofEntity name).Plain) :
    parseLenient name = ofEntity name := by
  have hrender : (ofEntity name).render = name := by
    simp [render, spelling, stepsSpelling, ofEntity]
  have hcanonical : (ofEntity name).Canonical :=
    ⟨hne, hplain, fun _ hs => absurd hs List.not_mem_nil⟩
  have hparse := parse_render hcanonical
  rw [hrender] at hparse
  rw [parseLenient, hparse]

section Relative

-- A relative path with the dot or bracket that it begins with.
def dotted (relative : String) : List Char :=
  match relative.toList with
  | [] => []
  | '[' :: rest => '[' :: rest
  | chars => '.' :: chars

-- The text of a relative path under the name of an entity.
def joined (entity relative : String) : String :=
  String.ofList (entity.toList ++ dotted relative)

theorem dotted_of_nil (h : relative.toList = []) : dotted relative = [] := by
  unfold dotted
  rw [h]

theorem dotted_of_bracket {rest : List Char} (h : relative.toList = '[' :: rest) :
    dotted relative = '[' :: rest := by
  unfold dotted
  rw [h]
  rfl

theorem dotted_of_name {c : Char} {rest : List Char} (h : relative.toList = c :: rest)
    (hc : c ≠ '[') : dotted relative = '.' :: c :: rest := by
  unfold dotted
  rw [h]
  split
  · next he => cases he
  · next he =>
    cases he
    exact absurd rfl hc
  · rfl

theorem toList_of_dotted (h : dotted relative = []) : relative.toList = [] := by
  cases hl : relative.toList with
  | nil => rfl
  | cons c rest =>
      by_cases hc : c = '['
      · rw [dotted_of_bracket (hc ▸ hl)] at h
        cases h
      · rw [dotted_of_name hl hc] at h
        cases h

theorem endsName_dotted (relative : String) : EndsName (dotted relative) := by
  unfold dotted
  intro c hc
  split at hc <;> cases hc <;> rfl

theorem ofRelative_eq (entity : String) (h : dotted relative ≠ []) :
    ofRelative entity relative = parseLenient (joined entity relative) := by
  unfold ofRelative joined
  split
  · next hnil => exact absurd (dotted_of_nil hnil) h
  · next rest hrest =>
    congr 1
    rw [← String.toList_inj, String.toList_append, String.toList_ofList, dotted_of_bracket hrest,
      hrest]
  · next hnil hbracket =>
    obtain ⟨c, rest, hc⟩ := List.exists_cons_of_ne_nil hnil
    have hne : c ≠ '[' := by
      rintro rfl
      exact hbracket rest hc
    congr 1
    rw [← String.toList_inj, String.toList_ofList, dotted_of_name hc hne, ← hc]
    simp

-- A relative path stays below a plain name, whether it can be read or not.
theorem entity_ofRelative {entity : String} (relative : String)
    (hplain : ∀ c ∈ entity.toList, startsAccessor c = false) :
    (ofRelative entity relative).entity = entity := by
  by_cases hnil : dotted relative = []
  · unfold ofRelative
    rw [toList_of_dotted hnil]
    rfl
  · rw [ofRelative_eq entity hnil, entity_parseLenient, joined, String.toList_ofList,
      splitEntity_append hplain (endsName_dotted relative), String.ofList_toList]

-- A relative path that can be read leads to the same steps below any name.
theorem ofRelative_of_accessors {segments : List Segment}
    (h : accessors (dotted relative) = .ok segments) {entity : String} (hne : entity ≠ "")
    (hplain : ∀ c ∈ entity.toList, startsAccessor c = false) :
    ofRelative entity relative = ⟨entity, segments⟩ := by
  by_cases hnil : dotted relative = []
  · rw [hnil, accessors] at h
    cases h
    unfold ofRelative
    rw [toList_of_dotted hnil]
    rfl
  · rw [ofRelative_eq entity hnil, parseLenient, joined,
      parse_append hne hplain (endsName_dotted relative) h]

theorem stepsSpelling_cases (segments : List Segment) :
    stepsSpelling segments = [] ∨ (∃ rest, stepsSpelling segments = '[' :: rest) ∨
      ∃ c rest, stepsSpelling segments = '.' :: c :: rest ∧ startsAccessor c = false := by
  cases segments with
  | nil => exact Or.inl rfl
  | cons segment rest =>
      have hspells := Segment.spells_spelling segment
      rw [stepsSpelling, List.flatMap_cons]
      generalize segment.spelling = text at hspells
      cases hspells with
      | @named name plain identifier =>
          cases hname : name.toList with
          | nil =>
              rw [hname] at identifier
              cases identifier
          | cons c chars =>
              exact Or.inr (Or.inr ⟨c, _, rfl, plain c (hname ▸ List.mem_cons_self)⟩)
      | quoted name => exact Or.inr (Or.inl ⟨_, rfl⟩)
      | counted position => exact Or.inr (Or.inl ⟨_, rfl⟩)

theorem dotted_relative (path : Path) : dotted path.relative = stepsSpelling path.segments := by
  unfold Path.relative
  rcases stepsSpelling_cases path.segments with hs | ⟨rest, hs⟩ | ⟨c, rest, hs, hc⟩
  · rw [hs]
    exact dotted_of_nil String.toList_ofList
  · rw [hs]
    exact dotted_of_bracket String.toList_ofList
  · rw [hs]
    refine dotted_of_name String.toList_ofList ?_
    rintro rfl
    cases hc

-- Below one entity, a path is told by its relative spelling.
theorem relative_inj (he : path.entity = other.entity) (h : path.relative = other.relative) :
    path = other := by
  have hs : stepsSpelling path.segments = stepsSpelling other.segments := by
    rw [← dotted_relative, ← dotted_relative, h]
  cases path
  cases other
  rw [mk.injEq]
  exact ⟨he, stepsSpelling_inj hs⟩

-- The relative spellings of canonical paths.
def Spelled (relative : String) : Prop := ∃ path : Path, path.Canonical ∧ path.relative = relative

theorem Spelled.ofRelative (h : Spelled relative) {entity : String} (hne : entity ≠ "")
    (hplain : ∀ c ∈ entity.toList, startsAccessor c = false) :
    (Path.ofRelative entity relative).Canonical ∧
      (Path.ofRelative entity relative).entity = entity ∧
      (Path.ofRelative entity relative).relative = relative := by
  obtain ⟨path, hpath, rfl⟩ := h
  have hread : accessors (dotted path.relative) = .ok path.segments := by
    rw [dotted_relative]
    exact accessors_stepsSpelling hpath.steps
  rw [ofRelative_of_accessors hread hne hplain]
  exact ⟨⟨hne, hplain, hpath.steps⟩, rfl, rfl⟩

theorem Spelled.canonical (h : Spelled path.relative) (hne : path.entity ≠ "")
    (hplain : path.Plain) : path.Canonical := by
  obtain ⟨hcanonical, hentity, hrelative⟩ := h.ofRelative hne hplain
  rwa [relative_inj hentity hrelative] at hcanonical

-- What the strict reader makes of a path below a plain name.
theorem accessors_of_parse {entity : String} {text : List Char}
    (hplain : ∀ c ∈ entity.toList, startsAccessor c = false) (htext : EndsName text)
    (h : parse (String.ofList (entity.toList ++ text)) = .ok path) :
    accessors text = .ok path.segments := by
  unfold parse at h
  dsimp only at h
  rw [String.toList_ofList, splitEntity_append hplain htext] at h
  split at h
  · cases h
  · split at h
    · cases h
    · split at h
      · next segments hs =>
        cases h
        exact hs
      · cases h

-- What the strict reader accepts below some name is spelled in one way.
theorem spelled_canonical {entity : String}
    (hplain : ∀ c ∈ entity.toList, startsAccessor c = false)
    (h : parse (joined entity relative) = .ok path) : Spelled (EntityConfig.canonical relative) := by
  have hread := accessors_of_parse hplain (endsName_dotted relative) h
  have hne : "_" ≠ "" := by decide
  have hname : ∀ c ∈ "_".toList, startsAccessor c = false := by simp [startsAccessor]
  refine ⟨⟨"_", path.segments⟩, ⟨hne, hname, canonical_accessors hread⟩, ?_⟩
  rw [EntityConfig.canonical, ofRelative_of_accessors hread hne hname]

end Relative

end Path

end Recalc
