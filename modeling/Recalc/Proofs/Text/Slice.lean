import Recalc.Text.Bytes

namespace Recalc

-- What a reading by places can fail at: a slice off the text or through a
-- character, a count that goes below zero, an element behind the last one.
inductive Trap
  | slice (start stop : Nat)
  | underflow
  | index (place : Nat)
deriving DecidableEq

def countDown : Nat → Except Trap Nat
  | 0 => .error .underflow
  | count + 1 => .ok count

@[simp] theorem ok_bind {α β : Type} (result : α) (next : α → Except Trap β) :
    (Except.ok result >>= next) = next result := rfl

@[simp] theorem pure_eq_ok {α : Type} (result : α) :
    (pure result : Except Trap α) = .ok result := rfl

@[simp] theorem countDown_succ (count : Nat) : countDown (count + 1) = .ok count := rfl

-- What an index reads is the head of the list behind it.
theorem exists_of_drop_eq_cons {α : Type} {xs more : List α} {x : α} {place : Nat}
    (h : xs.drop place = x :: more) :
    ∃ _ : place < xs.length, xs[place] = x ∧ xs.drop (place + 1) = more := by
  have hlt : place < xs.length := by
    have := congrArg List.length h
    simp only [List.length_drop, List.length_cons] at this
    omega
  rw [List.drop_eq_getElem_cons hlt] at h
  obtain ⟨hx, hmore⟩ := List.cons.inj h
  exact ⟨hlt, hx, hmore⟩

namespace Text

variable {text before rest part after : List Char} {start stop place : Nat} {c : Char}

section Units

-- The bytes of a text in UTF-8, each as the character of its number.
def code (c : Char) : List Char := (String.utf8EncodeChar c).map Char.ofUInt8

def units (text : List Char) : List Char := text.flatMap code

theorem length_code (c : Char) : (code c).length = c.utf8Size := by
  rw [code, List.length_map, String.length_utf8EncodeChar]

theorem units_cons (c : Char) (rest : List Char) : units (c :: rest) = code c ++ units rest :=
  List.flatMap_cons

theorem units_append (first second : List Char) :
    units (first ++ second) = units first ++ units second :=
  List.flatMap_append

@[simp] theorem length_units (text : List Char) : (units text).length = bytes text := by
  induction text with
  | nil => rfl
  | cons c rest ih => rw [units_cons, List.length_append, length_code, ih, bytes_cons]

-- A unit of a character that takes several of them.
def IsWide (unit : Char) : Prop := 0x80 ≤ unit.toNat

theorem ne_of_isWide {unit : Char} (h : IsWide unit) (hc : c.toNat < 0x80) : unit ≠ c := by
  rintro rfl
  exact absurd hc (Nat.not_lt.mpr h)

theorem utf8Size_of_lt (h : c.toNat < 0x80) : c.utf8Size = 1 := by
  rw [Char.utf8Size_eq_one_iff, UInt32.le_iff_toNat_le]
  exact Nat.le_of_lt_succ h

theorem toNat_ofUInt8 (byte : UInt8) : (Char.ofUInt8 byte).toNat = byte.toNat := by
  exact UInt8.toNat_toUInt32 byte

theorem code_of_lt (h : c.toNat < 0x80) : code c = [c] := by
  rw [code, String.utf8EncodeChar_eq_singleton (utf8Size_of_lt h), List.map_singleton]
  have hlt : c.val.toNat < 256 := Nat.lt_trans h (by decide)
  have hbyte : (Char.ofUInt8 c.val.toUInt8).toNat = c.toNat := by
    rw [toNat_ofUInt8, UInt32.toNat_toUInt8]
    exact Nat.mod_eq_of_lt hlt
  rw [Char.toNat_inj.mp hbyte]

theorem code_ne_nil (c : Char) : code c ≠ [] := by
  have := c.utf8Size_pos
  rw [← length_code] at this
  exact List.ne_nil_of_length_pos this

theorem isWide_of_or (byte : UInt8) {mask : UInt8} (h : 0x80 ≤ mask.toNat) :
    IsWide (Char.ofUInt8 (byte ||| mask)) := by
  rw [IsWide, toNat_ofUInt8, UInt8.toNat_or]
  exact Nat.le_trans h Nat.right_le_or

theorem isWide_of_mem_code (h : IsWide c) : ∀ unit ∈ code c, IsWide unit := by
  rcases Char.utf8Size_eq c with hsize | hsize | hsize | hsize
  · have := UInt32.le_iff_toNat_le.mp (Char.utf8Size_eq_one_iff.mp hsize)
    exact absurd this (Nat.not_le.mpr h)
  · rw [code, String.utf8EncodeChar_eq_cons_cons hsize]
    simp [isWide_of_or]
  · rw [code, String.utf8EncodeChar_eq_cons_cons_cons hsize]
    simp [isWide_of_or]
  · rw [code, String.utf8EncodeChar_eq_cons_cons_cons_cons hsize]
    simp [isWide_of_or]

-- The first unit of a character is the character, or both are wide.
def Begins (unit c : Char) : Prop := unit = c ∨ IsWide unit ∧ IsWide c

theorem exists_code (c : Char) : ∃ unit wide, code c = unit :: wide ∧ Begins unit c ∧
    ∀ other ∈ wide, IsWide other := by
  rcases Nat.lt_or_ge c.toNat 0x80 with hc | hc
  · exact ⟨c, [], code_of_lt hc, Or.inl rfl, fun _ h => absurd h List.not_mem_nil⟩
  · obtain ⟨unit, wide, hcode⟩ := List.exists_cons_of_ne_nil (code_ne_nil c)
    have hwide := isWide_of_mem_code hc
    rw [hcode] at hwide
    obtain ⟨hunit, hwide⟩ := List.forall_mem_cons.mp hwide
    exact ⟨unit, wide, hcode, Or.inr ⟨hunit, hc⟩, hwide⟩

-- A class that holds no wide character.
def Narrow (p : Char → Bool) : Prop := ∀ c, IsWide c → p c = false

theorem narrow_beq (h : c.toNat < 0x80) : Narrow (· == c) :=
  fun _ hwide => beq_eq_false_iff_ne.mpr (ne_of_isWide hwide h)

theorem Narrow.lt {p : Char → Bool} (hp : Narrow p) (h : p c = true) : c.toNat < 0x80 := by
  refine Nat.lt_of_not_le fun hwide => ?_
  cases h.symm.trans (hp c hwide)

theorem Narrow.mono {p q : Char → Bool} (hp : Narrow p) (h : ∀ {c}, q c = true → p c = true) :
    Narrow q :=
  fun c hwide => eq_false_of_ne_true fun hq => Bool.false_ne_true ((hp c hwide).symm.trans (h hq))

theorem Begins.class_eq {p : Char → Bool} {unit : Char} (h : Begins unit c) (hp : Narrow p) :
    p unit = p c := by
  rcases h with rfl | ⟨hunit, hc⟩
  · rfl
  · rw [hp unit hunit, hp c hc]

theorem Begins.eq_iff {unit d : Char} (h : Begins unit c) (hd : d.toNat < 0x80) :
    unit = d ↔ c = d := by
  have hclass := h.class_eq (narrow_beq hd)
  rw [← beq_iff_eq, hclass, beq_iff_eq]

end Units

section Places

variable {α : Type} {units wide more : List Char} {read : Nat → α} {p : Char → Bool}

theorem exists_unit (h : units.drop place = Text.units (c :: rest)) :
    ∃ _ : place < units.length, Begins units[place] c := by
  obtain ⟨unit, wide, hcode, hbegins, -⟩ := exists_code c
  rw [units_cons, hcode] at h
  obtain ⟨hlt, hget, -⟩ := exists_of_drop_eq_cons h
  exact ⟨hlt, hget ▸ hbegins⟩

theorem drop_next (h : units.drop place = Text.units (c :: rest)) :
    units.drop (place + c.utf8Size) = Text.units rest := by
  rw [← List.drop_drop, h, units_cons, ← length_code, List.drop_left]

-- What stands at a place, as far as a class tells.
theorem any_getElem? (hp : Narrow p) (h : units.drop place = Text.units rest) :
    units[place]?.any p = rest.head?.any p := by
  rw [← List.head?_drop, h]
  cases rest with
  | nil => rfl
  | cons c rest =>
      obtain ⟨unit, wide, hcode, hbegins, -⟩ := exists_code c
      rw [units_cons, hcode]
      exact hbegins.class_eq hp

theorem getElem?_eq_some_iff {d : Char} (hd : d.toNat < 0x80)
    (h : units.drop place = Text.units rest) : units[place]? = some d ↔ rest.head? = some d := by
  have hany (found : Option Char) : found = some d ↔ found.any (· == d) = true := by
    cases found <;> simp
  rw [hany, hany, any_getElem? (narrow_beq hd) h]

-- A reading by places for which it is the same to begin at a wide unit or
-- behind it.
def SkipsWide (units : List Char) (read : Nat → α) : Prop :=
  ∀ place (_ : place < units.length), IsWide units[place] → read place = read (place + 1)

theorem SkipsWide.skip (h : SkipsWide units read) (hwide : ∀ unit ∈ wide, IsWide unit)
    (hdrop : units.drop place = wide ++ more) : read place = read (place + wide.length) := by
  induction wide generalizing place with
  | nil => rfl
  | cons unit wide ih =>
      obtain ⟨hunit, hwide⟩ := List.forall_mem_cons.mp hwide
      obtain ⟨hlt, hget, hnext⟩ := exists_of_drop_eq_cons hdrop
      rw [h place hlt (hget ▸ hunit), ih hwide hnext, List.length_cons, Nat.add_assoc,
        Nat.add_comm 1]

-- From the inside of a character, the reading goes on behind it.
theorem SkipsWide.next (h : SkipsWide units read)
    (hdrop : units.drop place = Text.units (c :: rest)) :
    read (place + 1) = read (place + c.utf8Size) := by
  obtain ⟨unit, wide, hcode, -, hwide⟩ := exists_code c
  rw [units_cons, hcode] at hdrop
  obtain ⟨-, -, hnext⟩ := exists_of_drop_eq_cons hdrop
  rw [h.skip hwide hnext, ← length_code, hcode, List.length_cons, Nat.add_assoc, Nat.add_comm 1]

end Places

section Slice

-- A text divided behind so many bytes, if these are whole characters.
def divide : Nat → List Char → Option (List Char × List Char)
  | 0, text => some ([], text)
  | _ + 1, [] => none
  | count + 1, c :: rest =>
    if c.utf8Size ≤ count + 1 then
      (divide (count + 1 - c.utf8Size) rest).map fun pair => (c :: pair.1, pair.2)
    else none

theorem divide_eq_some_iff {count : Nat} : divide count text = some (before, after) ↔
    text = before ++ after ∧ bytes before = count := by
  fun_induction divide count text generalizing before with
  | case1 text =>
      constructor
      · intro h
        cases h
        exact ⟨rfl, rfl⟩
      · rintro ⟨rfl, hbytes⟩
        cases before with
        | nil => rfl
        | cons c before =>
            have := c.utf8Size_pos
            simp only [bytes_cons] at hbytes
            omega
  | case2 count =>
      simp only [reduceCtorEq, false_iff]
      rintro ⟨htext, hbytes⟩
      obtain ⟨rfl, rfl⟩ := List.append_eq_nil_iff.mp htext.symm
      cases hbytes
  | case3 count c rest hle ih =>
      rw [Option.map_eq_some_iff]
      constructor
      · rintro ⟨⟨front, back⟩, hdivide, he⟩
        cases he
        obtain ⟨rfl, hbytes⟩ := ih.mp hdivide
        refine ⟨rfl, ?_⟩
        simp only [bytes_cons]
        omega
      · rintro ⟨htext, hbytes⟩
        cases before with
        | nil => cases hbytes
        | cons d front =>
            cases htext
            simp only [bytes_cons] at hbytes
            exact ⟨(front, after), ih.mpr ⟨rfl, by omega⟩, rfl⟩
  | case4 count c rest hlt =>
      simp only [reduceCtorEq, false_iff]
      rintro ⟨htext, hbytes⟩
      cases before with
      | nil => cases hbytes
      | cons d front =>
          cases htext
          simp only [bytes_cons] at hbytes
          omega

theorem append_inj_of_bytes (h : before ++ rest = part ++ after)
    (hbytes : bytes before = bytes part) : before = part ∧ rest = after := by
  have hfirst : divide (bytes part) (before ++ rest) = some (before, rest) :=
    divide_eq_some_iff.mpr ⟨rfl, hbytes⟩
  cases hfirst.symm.trans (divide_eq_some_iff.mpr ⟨h, rfl⟩)
  exact ⟨rfl, rfl⟩

-- The characters between two places of a text.
structure Slice (text : List Char) (start stop : Nat) where
  part : List Char
  start_add : start + bytes part = stop
  stop_le : stop ≤ bytes text

theorem divide_divide (hle : start ≤ stop) (hstart : divide start text = some (before, rest))
    (hstop : divide (stop - start) rest = some (part, after)) :
    start + bytes part = stop ∧ stop ≤ bytes text := by
  obtain ⟨rfl, hbefore⟩ := divide_eq_some_iff.mp hstart
  obtain ⟨rfl, hpart⟩ := divide_eq_some_iff.mp hstop
  simp only [bytes_append]
  omega

def slice (text : List Char) (start stop : Nat) : Except Trap (Slice text start stop) :=
  match hstart : divide start text with
  | none => .error (.slice start stop)
  | some (_, rest) =>
    if hle : start ≤ stop then
      match hstop : divide (stop - start) rest with
      | none => .error (.slice start stop)
      | some (part, _) =>
        have h := divide_divide hle hstart hstop
        .ok ⟨part, h.1, h.2⟩
    else .error (.slice start stop)

theorem offsetOf_cons (h : after <:+ rest) :
    offsetOf (c :: rest) after = c.utf8Size + offsetOf rest after := by
  obtain ⟨inner, rfl⟩ := h
  rw [← List.cons_append, offsetOf_append, offsetOf_append, bytes_cons]

-- The text stands behind so many bytes of another one.
def At (text : List Char) (place : Nat) (rest : List Char) : Prop :=
  ∃ before, text = before ++ rest ∧ bytes before = place

theorem at_zero (text : List Char) : At text 0 text := ⟨[], rfl, rfl⟩

namespace At

theorem skip (h : At text place (part ++ rest)) : At text (place + bytes part) rest := by
  obtain ⟨before, rfl, rfl⟩ := h
  exact ⟨before ++ part, (List.append_assoc _ _ _).symm, bytes_append before part⟩

theorem next (h : At text place (c :: rest)) : At text (place + c.utf8Size) rest :=
  skip (show At text place ([c] ++ rest) from h)

theorem place_add (h : At text place rest) : place + bytes rest = bytes text := by
  obtain ⟨before, rfl, rfl⟩ := h
  exact (bytes_append before rest).symm

theorem offsetOf (h : At text place rest) : offsetOf text rest = place := by
  obtain ⟨before, rfl, rfl⟩ := h
  exact offsetOf_append before rest

theorem offset (h : At text place rest) (hafter : after <:+ rest) :
    At text (place + Text.offsetOf rest after) after := by
  obtain ⟨inner, rfl⟩ := hafter
  rw [offsetOf_append]
  exact h.skip

theorem drop_units (h : At text place rest) : (units text).drop place = units rest := by
  obtain ⟨before, rfl, rfl⟩ := h
  rw [units_append, ← length_units before, List.drop_left]

theorem suffix (h : At text place rest) (hafter : after <:+ rest) :
    At text (Text.offsetOf text after) after := by
  obtain ⟨before, rfl, -⟩ := h
  obtain ⟨inner, rfl⟩ := hafter
  refine ⟨before ++ inner, (List.append_assoc _ _ _).symm, ?_⟩
  rw [← List.append_assoc, offsetOf_append]

-- Of two places, the text at the earlier one goes on to the later one.
theorem suffix_of_le (h : At text stop after) (k : At text start rest) (hle : start ≤ stop) :
    after <:+ rest := by
  have hstop := h.place_add
  have hstart := k.place_add
  obtain ⟨front, hfront, -⟩ := h
  obtain ⟨before, hbefore, -⟩ := k
  rcases List.suffix_or_suffix_of_suffix ⟨front, hfront.symm⟩ ⟨before, hbefore.symm⟩ with
    hsuffix | ⟨inner, rfl⟩
  · exact hsuffix
  · cases inner with
    | nil => exact List.suffix_rfl
    | cons c inner =>
        have := c.utf8Size_pos
        simp only [List.cons_append, bytes_cons, bytes_append] at hstop
        omega

end At

theorem slice_eq_ok_iff {found : Slice text start stop} :
    slice text start stop = .ok found ↔ ∃ rest, At text start (found.part ++ rest) := by
  unfold slice
  split
  · next hstart =>
    simp only [reduceCtorEq, false_iff]
    rintro ⟨rest, before, htext, hbefore⟩
    cases hstart.symm.trans (divide_eq_some_iff.mpr ⟨htext, hbefore⟩)
  · next before rest hstart =>
    obtain ⟨htext, hbefore⟩ := divide_eq_some_iff.mp hstart
    have hadd := found.start_add
    rw [dif_pos (by omega)]
    split
    · next hstop =>
      simp only [reduceCtorEq, false_iff]
      rintro ⟨after, other, hother, hbytes⟩
      cases hstart.symm.trans (divide_eq_some_iff.mpr ⟨hother, hbytes⟩)
      have hpart : bytes found.part = stop - start := by omega
      cases hstop.symm.trans (divide_eq_some_iff.mpr ⟨rfl, hpart⟩)
    · next part after hstop =>
      obtain ⟨hrest, hpart⟩ := divide_eq_some_iff.mp hstop
      constructor
      · intro h
        have he : part = found.part := congrArg Slice.part (Except.ok.inj h)
        exact ⟨after, before, he ▸ hrest ▸ htext, hbefore⟩
      · rintro ⟨after, other, hother, hbytes⟩
        cases hstart.symm.trans (divide_eq_some_iff.mpr ⟨hother, hbytes⟩)
        have hpart : bytes found.part = stop - start := by omega
        cases hstop.symm.trans (divide_eq_some_iff.mpr ⟨rfl, hpart⟩)
        rfl

theorem utf8ByteSize_ofList (text : List Char) :
    (String.ofList text).utf8ByteSize = bytes text := by
  induction text with
  | nil => rfl
  | cons c rest ih =>
      rw [String.ofList_cons, String.utf8ByteSize_append, String.utf8ByteSize_singleton, ih,
        bytes_cons]

theorem isValid_iff : (⟨place⟩ : String.Pos.Raw).IsValid (String.ofList text) ↔
    ∃ rest, At text place rest := by
  rw [String.Pos.Raw.isValid_ofList]
  simp only [utf8ByteSize_ofList]
  constructor
  · rintro ⟨count, hcount⟩
    exact ⟨text.drop count, text.take count, (List.take_append_drop count text).symm, hcount.symm⟩
  · rintro ⟨rest, before, rfl, hbefore⟩
    exact ⟨before.length, by rw [List.take_left, hbefore]⟩

-- A slice exists exactly between valid positions of the text.
theorem exists_slice_iff : (∃ found, slice text start stop = .ok found) ↔ start ≤ stop ∧
    (⟨start⟩ : String.Pos.Raw).IsValid (String.ofList text) ∧
    (⟨stop⟩ : String.Pos.Raw).IsValid (String.ofList text) := by
  simp only [isValid_iff]
  constructor
  · rintro ⟨found, h⟩
    obtain ⟨rest, hat⟩ := slice_eq_ok_iff.mp h
    have hadd := found.start_add
    exact ⟨by omega, ⟨_, hat⟩, rest, hadd ▸ hat.skip⟩
  · rintro ⟨hle, ⟨rest, hstart⟩, after, hstop⟩
    obtain ⟨part, rfl⟩ := hstop.suffix_of_le hstart hle
    have h := hstart.place_add
    have k := hstop.place_add
    rw [bytes_append] at h
    exact ⟨⟨part, by omega, by omega⟩, slice_eq_ok_iff.mpr ⟨after, hstart⟩⟩

namespace At

theorem unique (h : At text place rest) (k : At text place after) : rest = after := by
  obtain ⟨before, hbefore, hplace⟩ := h
  obtain ⟨front, hfront, hsame⟩ := k
  exact (append_inj_of_bytes (hbefore.symm.trans hfront) (hplace.trans hsame.symm)).2

-- The characters at a place can be sliced off, since a character begins where
-- they begin and where they end.
theorem exists_slice (h : At text start (part ++ rest)) (hstop : start + bytes part = stop) :
    ∃ found, slice text start stop = .ok found ∧ found.part = part := by
  obtain ⟨found, hfound⟩ := exists_slice_iff.mpr
    ⟨by omega, isValid_iff.mpr ⟨_, h⟩, isValid_iff.mpr ⟨rest, hstop ▸ h.skip⟩⟩
  refine ⟨found, hfound, ?_⟩
  obtain ⟨others, hothers⟩ := slice_eq_ok_iff.mp hfound
  have hadd := found.start_add
  exact (append_inj_of_bytes (hothers.unique h) (by omega)).1

theorem exists_slice_end (h : At text start rest) :
    ∃ found, slice text start (bytes text) = .ok found ∧ found.part = rest :=
  exists_slice (by rwa [List.append_nil]) h.place_add

end At

-- The second byte of a character is no place to begin at.
example : (slice ['\u00e9'] 0 2).toBool = true ∧ (slice ['\u00e9'] 1 2).toBool = false := by
  decide

end Slice

section Find

-- How many bytes lie before the first place where the pattern stands.
def find (pattern : List Char) : List Char → Option Nat
  | [] => none
  | c :: rest =>
    if pattern.isPrefixOf (c :: rest) then some 0
    else (find pattern rest).map (c.utf8Size + ·)

theorem not_isPrefixOf {pattern : List Char} (h : ∀ tail, pattern ++ tail ≠ text) :
    pattern.isPrefixOf text = false := by
  rw [← Bool.not_eq_true, List.isPrefixOf_iff_prefix]
  rintro ⟨tail, htail⟩
  exact h tail htail

theorem find_cons {pattern : List Char} (h : ∀ tail, pattern ++ tail ≠ c :: rest) :
    find pattern (c :: rest) = (find pattern rest).map (c.utf8Size + ·) := by
  rw [find, not_isPrefixOf h, if_neg Bool.false_ne_true]

end Find

end Text

end Recalc
