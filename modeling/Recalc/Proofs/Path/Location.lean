import Mathlib.Data.List.Induction
import Recalc.Proofs.Path.Below
import Recalc.Proofs.Path.RoundTrip

namespace Recalc

namespace Segment

section Digits

variable {c : Char}

theorem digit_eq (c : Char) : Number.digit c = c.toNat - 48 := rfl

theorem digitChar_digit (h : c.isDigit = true) : Nat.digitChar (Number.digit c) = c := by
  have hall : Text.digits.all (fun d => Nat.digitChar (Number.digit d) == d) = true := by decide
  exact beq_iff_eq.mp (Text.of_isDigit hall h)

theorem ofDigits_concat (digits : List Char) (c : Char) :
    Number.ofDigits (digits ++ [c]) = Number.ofDigits digits * 10 + Number.digit c := by
  rw [Number.ofDigits, List.foldl_append]
  rfl

-- Digits that do not begin with a zero spell a number that is written with
-- these digits. By induction from the last digit, which is the remainder.
theorem toDigits_ofDigits {digits : List Char} (hne : digits ≠ [])
    (hdigits : ∀ c ∈ digits, c.isDigit = true) (hzero : digits.head? ≠ some '0') :
    0 < Number.ofDigits digits ∧ Nat.toDigits 10 (Number.ofDigits digits) = digits := by
  induction digits using List.reverseRecOn with
  | nil => exact absurd rfl hne
  | append_singleton digits c ih =>
      have hc := hdigits c (List.mem_append_right _ (List.mem_singleton_self c))
      obtain ⟨hlow, hhigh⟩ := Text.toNat_of_isDigit hc
      have hdigit := digit_eq c
      rw [ofDigits_concat]
      cases digits with
      | nil =>
          have hpositive : c.toNat ≠ 48 := by
            intro hcode
            refine hzero (congrArg some ?_)
            rw [← Char.ofNat_toNat c, hcode]
          have hsum : Number.ofDigits [] * 10 + Number.digit c = Number.digit c := by
            rw [Number.ofDigits, List.foldl_nil, Nat.zero_mul, Nat.zero_add]
          rw [hsum, Nat.toDigits_of_lt_base (by omega), digitChar_digit hc]
          exact ⟨by omega, rfl⟩
      | cons first rest =>
          obtain ⟨hpositive, hwritten⟩ := ih (List.cons_ne_nil _ _)
            (fun d hd => hdigits d (List.mem_append_left _ hd)) hzero
          have hquotient : (Number.ofDigits (first :: rest) * 10 + Number.digit c) / 10 =
              Number.ofDigits (first :: rest) := by omega
          have hremainder : (Number.ofDigits (first :: rest) * 10 + Number.digit c) % 10 =
              Number.digit c := by omega
          rw [Nat.toDigits_of_base_le (by decide) (by omega), hquotient, hremainder, hwritten,
            digitChar_digit hc]
          exact ⟨by omega, rfl⟩

theorem toDigits_of_position? {name : List Char} {position : Nat}
    (h : position? name = some position) : Nat.toDigits 10 position = name := by
  unfold position? at h
  split at h
  · cases h
  · next hdigits =>
    rw [Bool.or_eq_true, not_or, List.isEmpty_iff, Bool.not_eq_true, Bool.not_eq_false',
      List.all_eq_true] at hdigits
    split at h
    · cases h
    · next hzero =>
      split at h
      · cases h
        by_cases hhead : name.head? = some '0'
        · cases name with
          | nil => cases hhead
          | cons c rest =>
              obtain rfl : c = '0' := Option.some_inj.mp hhead
              cases rest with
              | nil => rfl
              | cons d rest => exact absurd ⟨rfl, by simp⟩ hzero
        · exact (toDigits_ofDigits hdigits.1 hdigits.2 hhead).2
      · cases h

end Digits

-- The step for a name goes by this name.
@[simp] theorem name_ofName (name : String) : (ofName name).name = name := by
  unfold ofName
  split
  · next position h =>
    show toString position = name
    rw [← String.toList_inj, toList_toString, toDigits_of_position? h]
  · rfl

end Segment

namespace Value

variable {value leaf other inner : Value} {steps others : List Segment}

-- Of two steps of one name that lead somewhere, both lead to one value.
theorem child?_congr {first second : Segment} (h : value.child? first = some leaf)
    (k : value.child? second = some other) (hname : second.name = first.name) : other = leaf := by
  cases value with
  | obj members =>
      have h : member? members first.name = some leaf := h
      have k : member? members second.name = some other := k
      rw [hname, h] at k
      exact (Option.some_inj.mp k).symm
  | arr items =>
      cases first with
      | key name => cases h
      | index position =>
          cases second with
          | key name => cases k
          | index place =>
              obtain rfl : place = position :=
                Segment.toString_injective (congrArg String.toList hname)
              rw [h] at k
              exact (Option.some_inj.mp k).symm
  | null => cases h
  | bool truth => cases h
  | num number => cases h
  | decimal negative digits exponent => cases h
  | str text => cases h

theorem get?_cons {segment : Segment} : value.get? (segment :: steps) = some leaf ↔
    ∃ inner, value.child? segment = some inner ∧ inner.get? steps = some leaf := by
  rw [get?]
  cases value.child? segment <;> simp

-- Steps of the same names lead to the same value.
theorem get?_congr (h : value.get? steps = some leaf) (k : value.get? others = some other)
    (hnames : others.map Segment.name = steps.map Segment.name) : other = leaf := by
  induction steps generalizing value others with
  | nil =>
      obtain rfl := List.map_eq_nil_iff.mp hnames
      rw [h] at k
      exact (Option.some_inj.mp k).symm
  | cons segment rest ih =>
      cases others with
      | nil => cases hnames
      | cons second others =>
          obtain ⟨hname, hnames⟩ := List.cons.inj hnames
          obtain ⟨inner, hchild, hrest⟩ := get?_cons.mp h
          obtain ⟨found, hfound, hothers⟩ := get?_cons.mp k
          obtain rfl := child?_congr hchild hfound hname
          exact ih hrest hothers hnames

end Value

namespace Path

variable {path : Path} {value leaf : Value} {steps : List Segment}

-- What a value holds is listed, by steps in their one spelling. By induction on
-- the steps, each of which leads to one part of the list.
theorem exists_mem_allBelow (h : value.get? steps = some leaf) (path : Path) :
    ∃ others, ⟨path.entity, path.segments ++ others⟩ ∈ path.allBelow value ∧
      value.get? others = some leaf := by
  induction steps generalizing value path with
  | nil =>
      refine ⟨[], ?_, h⟩
      rw [List.append_nil]
      exact mem_allBelow_self path value
  | cons segment rest ih =>
      obtain ⟨inner, hchild, hrest⟩ := Value.get?_cons.mp h
      cases value with
      | obj members =>
          obtain ⟨others, hm, hget⟩ := ih hrest (path.childKey segment.name)
          refine ⟨.ofName segment.name :: others, ?_, ?_⟩
          · rw [allBelow]
            refine List.mem_cons_of_mem _ (allBelow_subset_allMembers hchild ?_)
            simpa [childKey, child] using hm
          · refine Value.get?_cons.mpr ⟨inner, ?_, hget⟩
            rw [Value.child?, Segment.name_ofName]
            exact hchild
      | arr items =>
          cases segment with
          | key name => cases hchild
          | index position =>
              obtain ⟨others, hm, hget⟩ := ih hrest (path.childIndex (0 + position))
              refine ⟨.index position :: others, ?_, Value.get?_cons.mpr ⟨inner, hchild, hget⟩⟩
              rw [allBelow]
              refine List.mem_cons_of_mem _ (allBelow_subset_allItems hchild ?_)
              simpa [childIndex, child] using hm
      | null => cases hchild
      | bool truth => cases hchild
      | num number => cases hchild
      | decimal negative digits exponent => cases hchild
      | str text => cases hchild

theorem canonical_parse {text : String} (h : parse text = .ok path) :
    ∀ segment ∈ path.segments, segment.Canonical := by
  unfold parse at h
  dsimp only at h
  split at h
  · cases h
  · split at h
    · cases h
    · split at h
      · next segments hs =>
        cases h
        exact canonical_accessors hs
      · cases h

theorem accessors_spelling (segment : Segment) :
    accessors segment.spelling = .ok [.ofName segment.name] := by
  have hstep : accessor segment.spelling = .ok (.ofName segment.name, []) := by
    have happend : accessor (segment.spelling ++ []) = .ok (.ofName segment.name, []) :=
      accessor_spelling_append segment fun _ hc => by cases hc
    rwa [List.append_nil] at happend
  rw [accessors_of_ok hstep, accessors_nil]
  rfl

-- The relative spelling of a path that a diff names leads, below the same name,
-- to what the path leads to. A malformed path is one name, which may come back
-- as a position.
theorem lookup_ofRelative (raw : String) (hne : (parseLenient raw).entity ≠ "")
    (h : (parseLenient raw).lookup value = some leaf) :
    (ofRelative (parseLenient raw).entity (parseLenient raw).relative).lookup value =
      some leaf := by
  have hplain : (parseLenient raw).Plain := plain_parseLenient raw
  generalize hpath : parseLenient raw = path at hne hplain h ⊢
  have hread : ∀ segments, accessors (stepsSpelling path.segments) = .ok segments →
      ofRelative path.entity path.relative = ⟨path.entity, segments⟩ := fun segments hs =>
    ofRelative_of_accessors (by rwa [dotted_relative]) hne hplain
  by_cases hcanonical : ∀ segment ∈ path.segments, segment.Canonical
  · rw [hread path.segments (accessors_stepsSpelling hcanonical)]
    exact h
  · obtain ⟨name, hname⟩ : ∃ name, path.segments = [.key name] := by
      unfold parseLenient at hpath
      split at hpath
      · next parsed hparse =>
        subst hpath
        exact absurd (canonical_parse hparse) hcanonical
      · subst hpath
        unfold asOneName at hcanonical ⊢
        dsimp only at hcanonical ⊢
        split at hcanonical
        · exact absurd (fun _ hs => absurd hs List.not_mem_nil) hcanonical
        · next hempty => exact ⟨_, by rw [if_neg hempty]⟩
    have hspelled : accessors (stepsSpelling path.segments) = .ok [.ofName name] := by
      rw [hname, stepsSpelling, List.flatMap_singleton, accessors_spelling]
      rfl
    rw [hread [.ofName name] hspelled]
    rw [lookup, hname] at h
    obtain ⟨inner, hchild, hinner⟩ := Value.get?_cons.mp h
    refine Value.get?_cons.mpr ⟨inner, ?_, hinner⟩
    cases value with
    | obj members =>
        rw [Value.child?, Segment.name_ofName]
        exact hchild
    | arr items => cases hchild
    | null => cases hchild
    | bool truth => cases hchild
    | num number => cases hchild
    | decimal negative digits exponent => cases hchild
    | str text => cases hchild

end Path

end Recalc
