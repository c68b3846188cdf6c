import Recalc.Proofs.Binding.Segmentation
import Recalc.Proofs.Text.Slice

namespace Recalc.Binding.Indexed

open Text

variable {units text rest code after : List Char} {quote c : Char} {depth place start stop : Nat}

section Definitions

-- The place of the quote that ends a quoted text, or one behind the text.
def closingQuote (units : List Char) (quote : Char) (place : Nat) : Nat :=
  if _h : place < units.length then
    if units[place] = quote then place
    else if units[place] = '\\' then closingQuote units quote (place + 2)
    else closingQuote units quote (place + 1)
  else place
termination_by units.length - place

theorem le_closingQuote (units : List Char) (quote : Char) (place : Nat) :
    place ≤ closingQuote units quote place := by
  fun_induction closingQuote units quote place <;> omega

-- The place of the brace that closes a block, with so many blocks open in it.
def closingBrace (units : List Char) (depth place : Nat) : Except Trap (Option Nat) :=
  if _h : place < units.length then
    if isQuote units[place] then
      closingBrace units depth (closingQuote units units[place] (place + 1) + 1)
    else if units[place] = '\x7b' then closingBrace units (depth + 1) (place + 1)
    else if units[place] = '\x7d' then
      if depth = 0 then return some place
      else do
        let depth ← countDown depth
        closingBrace units depth (place + 1)
    else closingBrace units depth (place + 1)
  else return none
termination_by units.length - place
decreasing_by
  · have := le_closingQuote units units[place] (place + 1)
    omega
  all_goals omega

theorem closingBrace_bounds (h : closingBrace units depth place = .ok (some stop)) :
    place ≤ stop ∧ stop < units.length := by
  fun_induction closingBrace units depth place with
  | case1 depth place hlt hquote ih =>
      have := le_closingQuote units units[place] (place + 1)
      have := ih h
      omega
  | case2 depth place hlt _ _ ih =>
      have := ih h
      omega
  | case3 place hlt =>
      cases h
      omega
  | case4 depth place hlt _ _ _ hdepth ih =>
      obtain ⟨depth, rfl⟩ := Nat.exists_eq_succ_of_ne_zero hdepth
      have := ih depth h
      omega
  | case5 depth place hlt _ _ _ ih =>
      have := ih h
      omega
  | case6 => cases h

-- The place of the doubled braces that close a segment.
def segmentEnd (text : List Char) (search : Nat) : Except Trap (Option Nat) :=
  match _h : closingBrace (Text.units text) 0 search with
  | .error trap => .error trap
  | .ok none => return none
  | .ok (some stop) => do
    let after ← slice text (stop + 1) (bytes text)
    if after.part.head? = some '\x7d' then return some stop
    else segmentEnd text (stop + 1)
termination_by bytes text - search
decreasing_by
  have := closingBrace_bounds _h
  rw [length_units] at this
  omega

-- The codes of the segments from a place on, and the errors found there.
def segments (text : List Char) (start : Nat) :
    Except Trap (List (List Char) × List SyntaxError) := do
  let rest ← slice text start (bytes text)
  match find ['\x7b', '\x7b'] rest.part with
  | none => return ([], [])
  | some count =>
    match ← segmentEnd text (start + count + 2) with
    | none => return ([], [.found .unterminatedSegment (start + count)])
    | some stop => do
      let ⟨code, _hstart, _hstop⟩ ← slice text (start + count + 2) stop
      let (codes, errors) ← segments text (stop + 2)
      return (code :: codes, errors)
termination_by bytes text - start

end Definitions

section Search

theorem narrow_isQuote : Narrow isQuote := fun c h => by
  simp (disch := decide) [isQuote, ne_of_isWide h]

theorem ne_backslash_of_isQuote (h : isQuote quote = true) : '\\' ≠ quote := by
  rintro rfl
  cases h

theorem closingQuote_of_le (h : units.length ≤ place) :
    closingQuote units quote place = place := by
  rw [closingQuote, dif_neg (Nat.not_lt.mpr h)]

theorem closingBrace_of_le (h : units.length ≤ place) :
    closingBrace units depth place = .ok none := by
  rw [closingBrace, dif_neg (Nat.not_lt.mpr h)]
  rfl

-- No unit of a character from 0x80 on ends a quoted text or a block.
theorem skipsWide_closingQuote (hquote : isQuote quote = true) :
    SkipsWide units (closingQuote units quote) := by
  intro place hlt hwide
  rw [closingQuote, dif_pos hlt, if_neg (ne_of_isWide hwide (narrow_isQuote.lt hquote)),
    if_neg (ne_of_isWide hwide (by decide))]

theorem skipsWide_closingBrace (depth : Nat) : SkipsWide units (closingBrace units depth) := by
  intro place hlt hwide
  rw [closingBrace, dif_pos hlt, if_neg (by simp [narrow_isQuote _ hwide]),
    if_neg (ne_of_isWide hwide (by decide)), if_neg (ne_of_isWide hwide (by decide))]

theorem closingQuote_cons (hquote : isQuote quote = true)
    (h : units.drop place = Text.units (c :: rest)) :
    closingQuote units quote place =
      if c = quote then place
      else if c = '\\' then closingQuote units quote (place + 2)
      else closingQuote units quote (place + c.utf8Size) := by
  obtain ⟨hlt, hbegins⟩ := exists_unit h
  have hescape : '\\'.toNat < 0x80 := by decide
  rw [closingQuote, dif_pos hlt, ← (skipsWide_closingQuote hquote).next h]
  simp only [hbegins.eq_iff (narrow_isQuote.lt hquote), hbegins.eq_iff hescape]

-- A backslash takes the search into the character behind it, if that is a
-- longer one.
theorem closingQuote_escape (hquote : isQuote quote = true)
    (h : units.drop place = Text.units ('\\' :: c :: rest)) :
    closingQuote units quote place = closingQuote units quote (place + 1 + c.utf8Size) := by
  rw [closingQuote_cons hquote h, if_neg (ne_backslash_of_isQuote hquote), if_pos rfl]
  exact (skipsWide_closingQuote hquote).next (drop_next h)

-- A depth is counted down only where it is not zero.
theorem closingBrace_cons (h : units.drop place = Text.units (c :: rest)) :
    closingBrace units depth place =
      if isQuote c then closingBrace units depth (closingQuote units c (place + 1) + 1)
      else if c = '\x7b' then closingBrace units (depth + 1) (place + 1)
      else if c = '\x7d' then
        match depth with
        | 0 => .ok (some place)
        | depth + 1 => closingBrace units depth (place + 1)
      else closingBrace units depth (place + c.utf8Size) := by
  obtain ⟨hlt, hbegins⟩ := exists_unit h
  have hopen : '\x7b'.toNat < 0x80 := by decide
  have hclose : '\x7d'.toNat < 0x80 := by decide
  rw [closingBrace, dif_pos hlt, ← (skipsWide_closingBrace depth).next h]
  simp only [hbegins.class_eq narrow_isQuote, hbegins.eq_iff hopen, hbegins.eq_iff hclose]
  by_cases hquote : isQuote c = true
  · have hunit : c = units[place] := ((hbegins.eq_iff (narrow_isQuote.lt hquote)).mpr rfl).symm
    rw [if_pos hquote, if_pos hquote, ← hunit]
  · cases depth <;> simp only [hquote] <;> rfl

-- The search through the bytes, in quotes or outside of them.
def search (units : List Char) (depth : Nat) (quote : Option Char) (place : Nat) :
    Except Trap (Option Nat) :=
  match quote with
  | some quote => closingBrace units depth (closingQuote units quote place + 1)
  | none => closingBrace units depth place

-- Where the search through the characters ends, told by a place.
def endPlace (place : Nat) (split : Option (List Char × List Char)) : Option Nat :=
  split.map fun pair => place + bytes pair.1

theorem endPlace_keep (place : Nat) (c : Char) (split : Option (List Char × List Char)) :
    endPlace place (keep c split) = endPlace (place + c.utf8Size) split := by
  cases split with
  | none => rfl
  | some pair => simp [endPlace, keep, Nat.add_assoc]

-- By induction on the search through the characters.
theorem search_eq (inside : Option Char) (hinside : ∀ quote ∈ inside, isQuote quote = true)
    (h : units.drop place = Text.units text) : search units depth inside place =
      .ok (endPlace place (splitClose false inside depth text)) := by
  fun_induction splitClose false inside depth text generalizing place with
  | case1 inside depth =>
      have hle : units.length ≤ place := List.drop_eq_nil_iff.mp h
      cases inside with
      | none => exact closingBrace_of_le hle
      | some quote =>
          rw [search, closingQuote_of_le hle]
          exact closingBrace_of_le (Nat.le_succ_of_le hle)
  | case2 depth quote =>
      have hquote := hinside quote rfl
      have hle : units.length ≤ place + 1 := List.drop_eq_nil_iff.mp (drop_next h)
      rw [search, closingQuote_cons hquote h, if_neg (ne_backslash_of_isQuote hquote), if_pos rfl,
        closingQuote_of_le (Nat.le_succ_of_le hle)]
      exact closingBrace_of_le (by omega)
  | case3 depth quote d rest ih =>
      rw [endPlace_keep, endPlace_keep, search, closingQuote_escape (hinside quote rfl) h]
      exact ih hinside (drop_next (drop_next h))
  | case4 depth c rest quote hne ih =>
      have hquote := hinside quote rfl
      rw [endPlace_keep, search, closingQuote_cons hquote h]
      by_cases hc : c = quote
      · subst hc
        rw [if_pos rfl] at ih
        rw [if_pos rfl, if_pos rfl, ← ih (fun _ hq => by cases hq) (drop_next h),
          utf8Size_of_lt (narrow_isQuote.lt hquote)]
        rfl
      · rw [if_neg hc] at ih
        rw [if_neg hc, if_neg hc, ← ih hinside (drop_next h), if_neg hne]
        rfl
  | case5 depth c rest hquote ih =>
      rw [endPlace_keep, ← ih (fun _ hq => by cases hq; exact hquote) (drop_next h), search, search,
        closingBrace_cons h, if_pos hquote, utf8Size_of_lt (narrow_isQuote.lt hquote)]
  | case6 _ _ _ ih | case7 _ _ _ _ ih =>
      rw [endPlace_keep, ← ih hinside (drop_next h), search, closingBrace_cons h]
      rfl
  | case8 rest =>
      rw [search, closingBrace_cons h]
      rfl
  | case9 _ hdoubled => exact absurd rfl hdoubled
  | case10 _ hdoubled => exact absurd rfl hdoubled
  | case11 depth c rest hquote hopen hclose ih =>
      rw [endPlace_keep, ← ih hinside (drop_next h), search, closingBrace_cons h, if_neg hquote,
        if_neg hopen, if_neg hclose]
      rfl

end Search

section Segments

-- The search for doubled braces goes on behind a brace that stands alone.
def doubledEnd (pair : List Char × List Char) : Option (List Char × List Char) :=
  if pair.2.head? = some '\x7d' then some (pair.1, pair.2.tail)
  else (pair.1 ++ ['\x7d']).foldr keep (splitClose true none 0 pair.2)

theorem bind_keep (c : Char) (split : Option (List Char × List Char)) :
    (keep c split).bind doubledEnd = keep c (split.bind doubledEnd) := by
  cases split with
  | none => rfl
  | some pair =>
      rw [keep, Option.bind_some, Option.bind_some, doubledEnd, doubledEnd]
      split <;> rfl

theorem splitClose_doubled (inside : Option Char) (depth : Nat) (text : List Char) :
    splitClose true inside depth text = (splitClose false inside depth text).bind doubledEnd := by
  fun_induction splitClose false inside depth text with
  | case1 inside depth => simp [splitClose]
  | case2 depth quote => simp [splitClose]
  | case3 depth quote d rest ih =>
      rw [bind_keep, bind_keep, ← ih]
      simp [splitClose]
  | case4 depth c rest quote hne ih =>
      rw [bind_keep, ← ih, splitClose.eq_def]
      dsimp only
      rw [if_neg hne]
  | case5 depth c rest hquote ih =>
      rw [bind_keep, ← ih]
      simp [splitClose, hquote]
  | case6 _ _ hquote ih | case7 _ _ hquote _ ih =>
      rw [bind_keep, ← ih]
      simp [splitClose, hquote]
  | case8 rest hdoubled hquote =>
      simp [splitClose, hquote, doubledEnd]
  | case9 _ hdoubled => exact absurd rfl hdoubled
  | case10 _ hdoubled => exact absurd rfl hdoubled
  | case11 depth c rest hquote hopen hclose ih =>
      rw [bind_keep, ← ih]
      simp [splitClose, hquote, hopen, hclose]

theorem closes_splitClose {inside : Option Char}
    (h : splitClose false inside depth text = some (code, after)) :
    text = code ++ '\x7d' :: after := by
  fun_induction splitClose false inside depth text generalizing code with
  | case1 => cases h
  | case2 => cases h
  | case3 depth quote d rest ih =>
      obtain ⟨_, rfl, hslash⟩ := keep_eq_some h
      obtain ⟨_, rfl, hrest⟩ := keep_eq_some hslash
      rw [ih hrest]
      rfl
  | case8 rest =>
      cases h
      rfl
  | case9 _ hdoubled => exact absurd rfl hdoubled
  | case10 _ hdoubled => exact absurd rfl hdoubled
  | case4 _ _ _ _ _ ih | case5 _ _ _ _ ih | case6 _ _ _ ih | case7 _ _ _ _ ih
  | case11 _ _ _ _ _ _ ih =>
      obtain ⟨_, rfl, hrest⟩ := keep_eq_some h
      rw [ih hrest]
      rfl

theorem endPlace_foldr_keep (place : Nat) (text : List Char)
    (split : Option (List Char × List Char)) :
    endPlace place (text.foldr keep split) = endPlace (place + bytes text) split := by
  induction text generalizing place with
  | nil => rfl
  | cons c rest ih => rw [List.foldr_cons, endPlace_keep, ih, bytes_cons, Nat.add_assoc]

theorem closingBrace_eq (h : At text place rest) : closingBrace (Text.units text) 0 place =
    .ok (endPlace place (splitClose false none 0 rest)) :=
  search_eq none (fun _ hq => by cases hq) h.drop_units

theorem segmentEnd_eq {body : List Char} (h : At text start body) :
    segmentEnd text start = .ok (endPlace start (splitClose true none 0 body)) := by
  rw [splitClose_doubled]
  fun_induction segmentEnd text start generalizing body with
  | case1 search trap htrap =>
      rw [closingBrace_eq h] at htrap
      cases htrap
  | case2 search hnone =>
      rw [closingBrace_eq h] at hnone
      cases hsplit : splitClose false none 0 body with
      | none => rfl
      | some pair =>
          rw [hsplit] at hnone
          cases hnone
  | case3 search stop hstop ih =>
      rw [closingBrace_eq h] at hstop
      cases hsplit : splitClose false none 0 body with
      | none =>
          rw [hsplit] at hstop
          cases hstop
      | some pair =>
          rw [hsplit] at hstop
          cases hstop
          have hbody := closes_splitClose hsplit
          have hafter : At text (search + bytes pair.1 + 1) pair.2 := (hbody ▸ h).skip.next
          obtain ⟨found, hfound, hpart⟩ := hafter.exists_slice_end
          dsimp only
          rw [hfound, ok_bind, hpart, Option.bind_some, doubledEnd]
          split
          · rfl
          · rw [ih hafter, ← splitClose_doubled, endPlace_foldr_keep, bytes_append]
            rfl

theorem find_open (text : List Char) :
    find ['\x7b', '\x7b'] text = (splitOpen text).map fun pair => bytes pair.1 := by
  fun_induction splitOpen text with
  | case1 rest => rfl
  | case2 c rest hopen ih =>
      rw [find_cons fun tail htail => by cases htail; exact hopen tail rfl rfl, ih]
      cases splitOpen rest <;> rfl
  | case3 => rfl

-- The text at the place behind doubled braces.
theorem at_behind {before body : List Char} {mark : Char} (hmark : mark.toNat < 0x80)
    (h : At text start (before ++ mark :: mark :: body)) :
    At text (start + bytes before + 2) body := by
  have hbody := h.skip.next.next
  rwa [utf8Size_of_lt hmark] at hbody

theorem segments_eq (h : At text start rest) : segments text start =
    .ok ((Binding.segments rest).codes, segmentErrors text (Binding.segments rest)) := by
  fun_induction Binding.segments rest generalizing start with
  | case1 rest hopen =>
      obtain ⟨found, hfound, hpart⟩ := h.exists_slice_end
      rw [segments, hfound, ok_bind, hpart, find_open, hopen]
      rfl
  | case2 rest before body hopen hclose =>
      obtain ⟨found, hfound, hpart⟩ := h.exists_slice_end
      have hrest := (opens_of_splitOpen hopen).holds
      have hstart : At text (start + bytes before) ('\x7b' :: '\x7b' :: body) := (hrest ▸ h).skip
      have hbody : At text (start + bytes before + 2) body := at_behind (by decide) (hrest ▸ h)
      have hend := segmentEnd_eq hbody
      rw [hclose] at hend
      rw [segments, hfound, ok_bind, hpart, find_open, hopen]
      dsimp only [Option.map_some, segmentErrors]
      rw [hend, hstart.offsetOf]
      rfl
  | case3 rest before body hopen code after hclose later =>
      rename_i ih
      obtain ⟨found, hfound, hpart⟩ := h.exists_slice_end
      have hrest := (opens_of_splitOpen hopen).holds
      have hcode := (closes_of_splitClose hclose).holds.1
      have hbody : At text (start + bytes before + 2) body := at_behind (by decide) (hrest ▸ h)
      have hafter : At text (start + bytes before + 2 + bytes code + 2) after :=
        at_behind (by decide) (hcode ▸ hbody)
      obtain ⟨part, hslice, hpart'⟩ := At.exists_slice (hcode ▸ hbody) rfl
      have hend := segmentEnd_eq hbody
      rw [hclose] at hend
      rw [segments, hfound, ok_bind, hpart, find_open, hopen]
      dsimp only [Option.map_some]
      rw [hend, ok_bind]
      dsimp only [endPlace, Option.map_some]
      rw [hslice, ok_bind, ih hafter, ok_bind, hpart']
      rfl

end Segments

end Recalc.Binding.Indexed
