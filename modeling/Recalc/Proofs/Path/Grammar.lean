import Recalc.Proofs.Path.RoundTrip
import Recalc.Proofs.Text.Slice

namespace Recalc

namespace Path

-- What stands for a character inside quotes.
inductive Letter
  | plain (c : Char)
  | escaped (c : Char)

namespace Letter

def text : Letter → List Char
  | .plain c => [c]
  | .escaped c => ['\\', c]

def char : Letter → Char
  | .plain c => c
  | .escaped c => c

-- A letter that neither closes the quotes nor escapes another one.
def Fits (quote : Char) : Letter → Prop
  | .plain c => c ≠ quote ∧ c ≠ '\\'
  | .escaped _ => True

end Letter

def IsQuote (c : Char) : Prop := c = '"' ∨ c = '\''

theorem IsQuote.ne_backslash {quote : Char} (h : IsQuote quote) : quote ≠ '\\' := by
  rcases h with rfl | rfl <;> decide

-- One step as it may be written: a dot and a name, or brackets around a name in
-- quotes, or around a name without quotes.
inductive Accessor
  | named (name : List Char) (nonempty : name ≠ [])
    (plain : ∀ c ∈ name, startsAccessor c = false)
  | quoted (quote : Char) (isQuote : IsQuote quote) (letters : List Letter)
    (fits : ∀ letter ∈ letters, letter.Fits quote)
  | bare (name : List Char) (nonempty : name ≠ []) (inside : ∀ c ∈ name, c ≠ ']')
    (unquoted : ∀ c ∈ name.head?, ¬IsQuote c)

namespace Accessor

def text : Accessor → List Char
  | .named name _ _ => '.' :: name
  | .quoted quote _ letters _ => '[' :: quote :: (letters.flatMap Letter.text ++ [quote, ']'])
  | .bare name _ _ _ => '[' :: (name ++ [']'])

-- The name that is meant, as it stands, without escapes, or without the blanks
-- around it.
def name : Accessor → List Char
  | .named name _ _ => name
  | .quoted _ _ letters _ => letters.map Letter.char
  | .bare name _ _ _ => Text.trim name

def segment (accessor : Accessor) : Segment := .ofName (String.ofList accessor.name)

end Accessor

structure Phrase where
  entity : List Char
  accessors : List Accessor
  nonempty : entity ≠ []
  plain : ∀ c ∈ entity, startsAccessor c = false

namespace Phrase

def text (phrase : Phrase) : List Char :=
  phrase.entity ++ phrase.accessors.flatMap Accessor.text

def path (phrase : Phrase) : Path :=
  ⟨String.ofList phrase.entity, phrase.accessors.map Accessor.segment⟩

end Phrase

section Quoted

variable {quote : Char} {letters others : List Letter} {text rest after name : List Char}

theorem quotedName_letters (hquote : IsQuote quote) (h : ∀ letter ∈ letters, letter.Fits quote)
    (rest : List Char) : quotedName quote (letters.flatMap Letter.text ++ quote :: rest) =
      some (letters.map Letter.char, rest) := by
  have hslash := hquote.ne_backslash
  induction letters with
  | nil =>
      rw [List.flatMap_nil, List.nil_append,
        quotedName.eq_4 _ _ _ (fun he _ => hslash he) fun _ _ he _ => hslash he, if_pos rfl]
      rfl
  | cons letter letters ih =>
      obtain ⟨hletter, hletters⟩ := List.forall_mem_cons.mp h
      rw [List.flatMap_cons, List.append_assoc, List.map_cons]
      cases letter with
      | plain c =>
          obtain ⟨hclose, hescape⟩ := hletter
          rw [Letter.text, List.singleton_append,
            quotedName.eq_4 _ _ _ (fun he _ => hescape he) (fun _ _ he _ => hescape he),
            if_neg hclose, ih hletters]
          rfl
      | escaped c =>
          rw [Letter.text, List.cons_append, List.singleton_append, quotedName, ih hletters]
          rfl

-- By the recursion of the reader: each character that it takes is a letter.
theorem exists_letters (h : quotedName quote text = some (name, after)) :
    ∃ letters : List Letter, (∀ letter ∈ letters, letter.Fits quote) ∧
      text = letters.flatMap Letter.text ++ quote :: after ∧ letters.map Letter.char = name := by
  fun_induction quotedName quote text generalizing name after with
  | case1 => cases h
  | case2 => cases h
  | case3 c rest ih =>
      obtain ⟨⟨inner, tail⟩, hinner, he⟩ := Option.map_eq_some_iff.mp h
      cases he
      obtain ⟨letters, hfits, htext, hname⟩ := ih hinner
      refine ⟨.escaped c :: letters, List.forall_mem_cons.mpr ⟨trivial, hfits⟩, ?_, ?_⟩
      · rw [List.flatMap_cons, htext]
        rfl
      · rw [List.map_cons, hname]
        rfl
  | case4 rest hend hescape =>
      cases h
      exact ⟨[], fun _ hm => absurd hm List.not_mem_nil, rfl, rfl⟩
  | case5 c rest hend hescape hclose ih =>
      obtain ⟨⟨inner, tail⟩, hinner, he⟩ := Option.map_eq_some_iff.mp h
      cases he
      obtain ⟨letters, hfits, htext, hname⟩ := ih hinner
      have hslash : c ≠ '\\' := by
        rintro rfl
        cases rest with
        | nil => exact hend rfl rfl
        | cons d rest => exact hescape d rest rfl rfl
      refine ⟨.plain c :: letters, List.forall_mem_cons.mpr ⟨⟨hclose, hslash⟩, hfits⟩, ?_, ?_⟩
      · rw [List.flatMap_cons, htext]
        rfl
      · rw [List.map_cons, hname]
        rfl

theorem Letter.text_append_inj {first second : Letter} (hfirst : first.Fits quote)
    (hsecond : second.Fits quote) (h : first.text ++ rest = second.text ++ after) :
    first = second ∧ rest = after := by
  cases first with
  | plain c =>
      cases second with
      | plain d =>
          obtain ⟨rfl, hrest⟩ := List.cons.inj h
          exact ⟨rfl, hrest⟩
      | escaped d => exact absurd (List.cons.inj h).1 hfirst.2
  | escaped c =>
      cases second with
      | plain d => exact absurd (List.cons.inj h).1.symm hsecond.2
      | escaped d =>
          obtain ⟨rfl, hrest⟩ := List.cons.inj (List.cons.inj h).2
          exact ⟨rfl, hrest⟩

theorem Letter.text_append_ne (hquote : IsQuote quote) {letter : Letter}
    (h : letter.Fits quote) : letter.text ++ rest ≠ quote :: after := by
  intro he
  cases letter with
  | plain c => exact h.1 (List.cons.inj he).1
  | escaped c => exact hquote.ne_backslash (List.cons.inj he).1.symm

theorem letters_append_inj (hquote : IsQuote quote)
    (hletters : ∀ letter ∈ letters, letter.Fits quote)
    (hothers : ∀ letter ∈ others, letter.Fits quote)
    (h : letters.flatMap Letter.text ++ quote :: rest =
      others.flatMap Letter.text ++ quote :: after) : letters = others ∧ rest = after := by
  induction letters generalizing others with
  | nil =>
      cases others with
      | nil => exact ⟨rfl, (List.cons.inj h).2⟩
      | cons other others =>
          rw [List.flatMap_cons, List.append_assoc] at h
          exact absurd h.symm (Letter.text_append_ne hquote (List.forall_mem_cons.mp hothers).1)
  | cons letter letters ih =>
      obtain ⟨hletter, hletters⟩ := List.forall_mem_cons.mp hletters
      rw [List.flatMap_cons, List.append_assoc] at h
      cases others with
      | nil => exact absurd h (Letter.text_append_ne hquote hletter)
      | cons other others =>
          obtain ⟨hother, hfits⟩ := List.forall_mem_cons.mp hothers
          rw [List.flatMap_cons, List.append_assoc] at h
          obtain ⟨hsame, htail⟩ := Letter.text_append_inj hletter hother h
          obtain ⟨hrest, hafter⟩ := ih hletters hfits htail
          exact ⟨by rw [hsame, hrest], hafter⟩

end Quoted

theorem eq_of_bareName {text name after : List Char} (h : bareName text = some (name, after)) :
    text = name ++ ']' :: after ∧ ∀ c ∈ name, c ≠ ']' := by
  fun_induction bareName text generalizing name after with
  | case1 => cases h
  | case2 rest =>
      cases h
      exact ⟨rfl, fun _ hc => absurd hc List.not_mem_nil⟩
  | case3 c rest hne ih =>
      obtain ⟨⟨inner, tail⟩, hinner, he⟩ := Option.map_eq_some_iff.mp h
      cases he
      obtain ⟨rfl, hinside⟩ := ih hinner
      exact ⟨rfl, List.forall_mem_cons.mpr ⟨hne, hinside⟩⟩

theorem splitEntity_eq {text name after : List Char} (h : splitEntity text = (name, after)) :
    text = name ++ after ∧ ∀ c ∈ name, startsAccessor c = false := by
  have hplain := plain_splitEntity text
  rw [h, String.toList_ofList] at hplain
  obtain ⟨rfl, rfl⟩ := Prod.mk.inj h
  exact ⟨List.takeWhile_append_dropWhile.symm, hplain⟩

section Accessors

variable {text rest others after : List Char} {segment : Segment} {segments : List Segment}
  {first second : Accessor}

theorem endsName_accessor (first : Accessor) (rest : List Char) :
    EndsName (first.text ++ rest) := by
  intro c hc
  cases first <;> (cases hc; rfl)

theorem endsName_accessors (accessors : List Accessor) :
    EndsName (accessors.flatMap Accessor.text) := by
  cases accessors with
  | nil => exact fun c hc => by cases hc
  | cons first rest =>
      rw [List.flatMap_cons]
      exact endsName_accessor first _

-- The reader takes an accessor off its text, whatever comes behind it.
theorem accessor_append (first : Accessor) (hrest : EndsName rest) :
    accessor (first.text ++ rest) = .ok (first.segment, rest) := by
  cases first with
  | named name nonempty plain =>
      rw [Accessor.text, List.cons_append, accessor, splitEntity_append plain hrest]
      dsimp only
      rw [if_neg (by simpa using nonempty)]
      rfl
  | quoted quote isQuote letters fits =>
      have hquote : quote = '"' ∨ quote = '\'' := isQuote
      have hname := quotedName_letters isQuote fits (']' :: rest)
      simp only [Accessor.text, List.cons_append, List.append_assoc, List.nil_append, accessor]
      rw [if_pos hquote, hname]
      rfl
  | bare name nonempty inside unquoted =>
      have hname : bareName (name ++ ']' :: rest) = some (name, rest) := bareName_append inside
      obtain ⟨c, name, rfl⟩ := List.exists_cons_of_ne_nil nonempty
      have hquote : ¬(c = '"' ∨ c = '\'') := unquoted c rfl
      simp only [Accessor.text, List.cons_append, List.append_assoc, List.nil_append, accessor]
      rw [if_neg hquote, ← List.cons_append, hname]
      rfl

-- What the reader takes off a text is an accessor.
theorem exists_accessor (h : accessor text = .ok (segment, after)) :
    ∃ first : Accessor, text = first.text ++ after ∧ first.segment = segment := by
  unfold accessor at h
  split at h
  · next rest =>
    dsimp only at h
    split at h
    · cases h
    · next hne =>
      cases h
      have hsplit : splitEntity rest = ((splitEntity rest).1, (splitEntity rest).2) := rfl
      obtain ⟨hrest, hplain⟩ := splitEntity_eq hsplit
      exact ⟨.named _ (by simpa using hne) hplain, congrArg ('.' :: ·) hrest, rfl⟩
  · split at h
    · cases h
    · next quote quoted =>
      split at h
      · next hquote =>
        split at h
        · cases h
        · next name tail hname =>
          cases h
          obtain ⟨letters, hfits, rfl, rfl⟩ := exists_letters hname
          exact ⟨.quoted quote hquote letters hfits, by simp [Accessor.text], rfl⟩
        · cases h
      · next hquote =>
        split at h
        · cases h
        · cases h
        · next name tail hne hname =>
          cases h
          obtain ⟨htext, hinside⟩ := eq_of_bareName hname
          have hunquoted : ∀ c ∈ name.head?, ¬IsQuote c := by
            intro c hc
            obtain ⟨d, name, rfl⟩ := List.exists_cons_of_ne_nil hne
            obtain rfl : d = c := Option.some_inj.mp hc
            obtain rfl : quote = d := (List.cons.inj htext).1
            exact hquote
          refine ⟨.bare name hne hinside hunquoted, ?_, rfl⟩
          rw [htext, Accessor.text, List.cons_append, List.append_assoc, List.singleton_append]
  · cases h

theorem accessors_of_error {fault : PathFault × List Char} (hne : ¬text.isEmpty = true)
    (h : accessor text = .error fault) : accessors text = .error fault := by
  rw [accessors, if_neg hne]
  split
  · next found he =>
    rw [h] at he
    cases he
    rfl
  · next found tail he =>
    rw [h] at he
    cases he

theorem accessors_flatMap (list : List Accessor) :
    accessors (list.flatMap Accessor.text) = .ok (list.map Accessor.segment) := by
  induction list with
  | nil => exact accessors_nil
  | cons first rest ih =>
      rw [List.flatMap_cons, accessors_of_ok (accessor_append first (endsName_accessors rest)), ih]
      rfl

-- By the recursion of the reader, which takes accessor after accessor.
theorem exists_accessors (h : accessors text = .ok segments) : ∃ list : List Accessor,
    text = list.flatMap Accessor.text ∧ list.map Accessor.segment = segments := by
  induction text using accessors.induct generalizing segments with
  | case1 text hempty =>
      obtain rfl := List.isEmpty_iff.mp hempty
      rw [accessors_nil] at h
      cases h
      exact ⟨[], rfl, rfl⟩
  | case2 text hne fault hstep =>
      rw [accessors_of_error hne hstep] at h
      cases h
  | case3 text hne segment after hstep ih =>
      rw [accessors_of_ok hstep] at h
      cases hrest : accessors after with
      | error fault =>
          rw [hrest] at h
          cases h
      | ok rest =>
          rw [hrest] at h
          cases h
          obtain ⟨first, rfl, rfl⟩ := exists_accessor hstep
          obtain ⟨list, rfl, rfl⟩ := ih hrest
          exact ⟨first :: list, rfl, rfl⟩

theorem quoted_text_ne {quote : Char} {isQuote : IsQuote quote} {letters : List Letter}
    {fits : ∀ letter ∈ letters, letter.Fits quote} {name : List Char} {nonempty : name ≠ []}
    {inside : ∀ c ∈ name, c ≠ ']'} {unquoted : ∀ c ∈ name.head?, ¬IsQuote c} :
    (Accessor.quoted quote isQuote letters fits).text ++ rest ≠
      (Accessor.bare name nonempty inside unquoted).text ++ after := by
  intro h
  obtain ⟨c, name, rfl⟩ := List.exists_cons_of_ne_nil nonempty
  obtain rfl : quote = c := (List.cons.inj (List.cons.inj h).2).1
  exact unquoted quote rfl isQuote

-- The accessor that a text begins with can be told from the text.
theorem accessor_text_append_inj (hrest : EndsName rest) (hafter : EndsName after)
    (h : first.text ++ rest = second.text ++ after) : first = second ∧ rest = after := by
  cases first with
  | named name nonempty plain =>
      cases second with
      | named other nonempty' plain' =>
          have hsplit := splitEntity_append plain hrest
          rw [show name ++ rest = other ++ after from (List.cons.inj h).2,
            splitEntity_append plain' hafter] at hsplit
          obtain ⟨rfl, rfl⟩ := Prod.mk.inj hsplit
          exact ⟨rfl, rfl⟩
      | quoted quote isQuote letters fits => cases h
      | bare other nonempty' inside unquoted => cases h
  | quoted quote isQuote letters fits =>
      cases second with
      | named other nonempty' plain' => cases h
      | quoted quote' isQuote' others fits' =>
          simp only [Accessor.text, List.cons_append, List.append_assoc, List.nil_append,
            List.cons.injEq, true_and] at h
          obtain ⟨rfl, htail⟩ := h
          obtain ⟨rfl, hclose⟩ := letters_append_inj isQuote fits fits' htail
          exact ⟨rfl, (List.cons.inj hclose).2⟩
      | bare other nonempty' inside unquoted => exact absurd h quoted_text_ne
  | bare name nonempty inside unquoted =>
      cases second with
      | named other nonempty' plain' => cases h
      | quoted quote isQuote letters fits => exact absurd h.symm quoted_text_ne
      | bare other nonempty' inside' unquoted' =>
          simp only [Accessor.text, List.cons_append, List.append_assoc, List.nil_append,
            List.cons.injEq, true_and] at h
          have hname : bareName (name ++ ']' :: rest) = some (name, rest) := bareName_append inside
          rw [h, bareName_append inside'] at hname
          obtain ⟨rfl, rfl⟩ := Prod.mk.inj (Option.some_inj.mp hname)
          exact ⟨rfl, rfl⟩

-- Where the reader gives up is a place in the text.
theorem suffix_of_accessor {fault : PathFault} {suffix : List Char}
    (h : accessor text = .error (fault, suffix)) : suffix <:+ text := by
  unfold accessor at h
  split at h
  · next rest =>
    dsimp only at h
    split at h
    · cases h
      exact List.suffix_cons _ _
    · cases h
  · split at h
    · cases h
      exact List.suffix_rfl
    · next quote quoted =>
      split at h
      · split at h
        · cases h
          exact List.suffix_cons _ _
        · cases h
        · next name after hclose hname =>
          cases h
          obtain ⟨letters, _, rfl, _⟩ := exists_letters hname
          exact ⟨'[' :: quote :: (letters.flatMap Letter.text ++ [quote]), by simp⟩
      · split at h <;> cases h <;> exact List.suffix_rfl
  · cases h
    exact List.suffix_rfl

theorem suffix_of_accessors {fault : PathFault} {suffix : List Char}
    (h : accessors text = .error (fault, suffix)) : suffix <:+ text := by
  induction text using accessors.induct with
  | case1 text hempty =>
      obtain rfl := List.isEmpty_iff.mp hempty
      rw [accessors_nil] at h
      cases h
  | case2 text hne fault hstep =>
      rw [accessors_of_error hne hstep] at h
      cases h
      exact suffix_of_accessor hstep
  | case3 text hne segment after hstep ih =>
      rw [accessors_of_ok hstep] at h
      cases hrest : accessors after with
      | error fault =>
          rw [hrest] at h
          cases h
          obtain ⟨first, rfl, _⟩ := exists_accessor hstep
          exact (ih hrest).trans (List.suffix_append _ _)
      | ok rest =>
          rw [hrest] at h
          cases h

end Accessors

namespace Phrase

theorem parse_text (phrase : Phrase) :
    parse (String.ofList phrase.text) = .ok phrase.path := by
  have hnamed : String.ofList phrase.entity ≠ "" := by
    intro he
    exact phrase.nonempty (String.ofList_inj.mp he)
  have hplain : ∀ c ∈ (String.ofList phrase.entity).toList, startsAccessor c = false := by
    rw [String.toList_ofList]
    exact phrase.plain
  have hparse := parse_append hnamed hplain (endsName_accessors phrase.accessors)
    (accessors_flatMap phrase.accessors)
  rwa [String.toList_ofList] at hparse

theorem accessors_inj {first second : List Accessor}
    (h : first.flatMap Accessor.text = second.flatMap Accessor.text) : first = second := by
  have hcons : ∀ (accessor : Accessor) (rest : List Char), accessor.text ++ rest ≠ [] := by
    intro accessor rest he
    cases accessor <;> cases he
  induction first generalizing second with
  | nil =>
      cases second with
      | nil => rfl
      | cons other others => exact absurd h.symm (hcons other _)
  | cons accessor rest ih =>
      cases second with
      | nil => exact absurd h (hcons accessor _)
      | cons other others =>
          obtain ⟨rfl, hrest⟩ := accessor_text_append_inj (endsName_accessors rest)
            (endsName_accessors others) h
          rw [ih hrest]

theorem text_inj {first second : Phrase} (h : first.text = second.text) : first = second := by
  have hsplit := congrArg splitEntity h
  rw [text, text, splitEntity_append first.plain (endsName_accessors first.accessors),
    splitEntity_append second.plain (endsName_accessors second.accessors)] at hsplit
  obtain ⟨hentity, haccessors⟩ := Prod.mk.inj hsplit
  cases first
  cases second
  rw [mk.injEq]
  exact ⟨hentity, accessors_inj haccessors⟩

end Phrase

theorem exists_phrase {text : String} {path : Path} (h : parse text = .ok path) :
    ∃ phrase : Phrase, phrase.text = text.toList ∧ phrase.path = path := by
  unfold parse at h
  dsimp only at h
  split at h
  · cases h
  · split at h
    · cases h
    · next hentity =>
      split at h
      · next segments hsegments =>
        cases h
        obtain ⟨list, hlist, rfl⟩ := exists_accessors hsegments
        have hsplit : splitEntity text.toList =
          ((splitEntity text.toList).1, (splitEntity text.toList).2) := rfl
        obtain ⟨htext, hplain⟩ := splitEntity_eq hsplit
        refine ⟨⟨_, list, by simpa using hentity, hplain⟩, ?_, rfl⟩
        rw [Phrase.text, ← hlist, ← htext]
      · cases h

-- An offset that stands between two characters, or at an end of the text.
theorem isValid_offsetOf {text : String} {suffix : List Char} (h : suffix <:+ text.toList) :
    (String.Pos.Raw.mk (Text.offsetOf text.toList suffix)).IsValid text := by
  rw [← String.ofList_toList (s := text), Text.isValid_iff, String.toList_ofList]
  exact ⟨suffix, (Text.at_zero text.toList).suffix h⟩

theorem malformed_of_error {text : String} {error : PathError} (hne : text ≠ "")
    (h : parse text = .error error) : ∃ fault offset, error = .malformed text fault offset ∧
      (String.Pos.Raw.mk offset).IsValid text := by
  unfold parse at h
  dsimp only at h
  split at h
  · next hempty => exact absurd (String.toList_eq_nil_iff.mp (List.isEmpty_iff.mp hempty)) hne
  · split at h
    · cases h
      exact ⟨.missingEntity, 0, rfl, String.Pos.Raw.isValid_zero⟩
    · split at h
      · cases h
      · next fault suffix hsuffix =>
        cases h
        refine ⟨fault, _, rfl, isValid_offsetOf ?_⟩
        exact (suffix_of_accessors hsuffix).trans (List.dropWhile_suffix _)

theorem parse_iff {text : String} {path : Path} : parse text = .ok path ↔
    ∃ phrase : Phrase, phrase.text = text.toList ∧ phrase.path = path := by
  refine ⟨exists_phrase, ?_⟩
  rintro ⟨phrase, htext, rfl⟩
  have hparse := phrase.parse_text
  rwa [htext, String.ofList_toList] at hparse

-- The strict reader reads a phrase as the path that it stands for, and there is
-- one phrase at most. What is no phrase is refused, with a place in the text.
theorem parse_grammar :
    (∀ text path, parse text = .ok path ↔
      ∃ phrase : Phrase, phrase.text = text.toList ∧ phrase.path = path) ∧
      (∀ first second : Phrase, first.text = second.text → first = second) ∧
        ∀ text : String, (∀ phrase : Phrase, phrase.text ≠ text.toList) →
          text = "" ∧ parse text = .error .empty ∨
            text ≠ "" ∧ ∃ fault offset, parse text = .error (.malformed text fault offset) ∧
              offset ≤ text.utf8ByteSize ∧ (String.Pos.Raw.mk offset).IsValid text := by
  refine ⟨fun _ _ => parse_iff, fun _ _ => Phrase.text_inj, fun text hnone => ?_⟩
  by_cases hempty : text = ""
  · subst hempty
    exact Or.inl ⟨rfl, rfl⟩
  · refine Or.inr ⟨hempty, ?_⟩
    cases hparse : parse text with
    | ok path =>
        obtain ⟨phrase, htext, _⟩ := exists_phrase hparse
        exact absurd htext (hnone phrase)
    | error error =>
        obtain ⟨fault, offset, rfl, hvalid⟩ := malformed_of_error hempty hparse
        exact ⟨fault, offset, rfl, String.Pos.Raw.le_iff.mp hvalid.le_rawEndPos, hvalid⟩

example : parse "é[\"a\\\"\"][ x ]['0']" =
    .ok ⟨"é", [.key "a\"", .key "x", .index 0]⟩ := by
  decide +kernel

end Path

end Recalc
