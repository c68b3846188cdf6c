import Recalc.Proofs.Binding.Indexed.Segment
import Recalc.Proofs.Binding.Nesting

namespace Recalc.Binding.Indexed

open Text

variable {text rest after : List Char} {place start stop : Nat} {c : Char} {p : Char → Bool}
  {brackets : List (Char × List Char)}

section Definitions

-- Where a run of units of a class ends.
def endOfRun (units : List Char) (p : Char → Bool) (place : Nat) : Nat :=
  if _h : place < units.length then
    if p units[place] then endOfRun units p (place + 1) else place
  else place
termination_by units.length - place

theorem le_endOfRun (units : List Char) (p : Char → Bool) (place : Nat) :
    place ≤ endOfRun units p place := by
  fun_induction endOfRun units p place <;> omega

theorem lt_endOfRun {units : List Char} (h : place < units.length) (hp : p units[place] = true) :
    place < endOfRun units p place := by
  rw [endOfRun, dif_pos h, if_pos hp]
  exact le_endOfRun units p (place + 1)

-- The text inside quotes, and how many bytes it takes up with the quote at its
-- end.
def quotedText (quote : Char) : List Char → Option (List Char × Nat)
  | [] => none
  | '\\' :: [] => none
  | '\\' :: c :: rest =>
    (quotedText quote rest).map fun pair => (c :: pair.1, 1 + (c.utf8Size + pair.2))
  | c :: rest =>
    if c = '\n' then none
    else if c = quote then some ([], 1)
    else (quotedText quote rest).map fun pair => (c :: pair.1, c.utf8Size + pair.2)

-- What one step finds at a place: something that ends behind it, a fault that
-- ends the reading, or the start of a template literal.
inductive Move (place : Nat)
  | skip (after : Nat) (forward : place < after)
  | token (token : Token) (after : Nat) (forward : place < after)
  | fail (fault : Fault)
  | template

def lineMove (text : List Char) (place : Nat) (h : place < (units text).length) :
    Except Trap (Move place) := do
  let rest ← slice text place (bytes text)
  match find ['\n'] rest.part with
  | some count => return .skip (place + (count + 1)) (Nat.lt_add_of_pos_right count.succ_pos)
  | none => return .skip (bytes text) (length_units text ▸ h)

def blockMove (text : List Char) (place : Nat) : Except Trap (Move place) := do
  let rest ← slice text (place + 2) (bytes text)
  match find ['*', '/'] rest.part with
  | some count =>
    return .skip (place + 2 + (count + 2))
      (Nat.lt_add_right _ (Nat.lt_add_of_pos_right Nat.two_pos))
  | none => return .fail .unterminatedComment

def quotedMove (text : List Char) (quote : Char) (place : Nat) : Except Trap (Move place) := do
  let rest ← slice text (place + 1) (bytes text)
  match quotedText quote rest.part with
  | some (value, count) =>
    return .token (.str (String.ofList value)) (place + 1 + count)
      (Nat.lt_add_right _ place.lt_succ_self)
  | none => return .fail .unterminatedText

def runMove (text : List Char) (p : Char → Bool) (token : String → Token) (place : Nat)
    (h : place < (units text).length) (hp : p (units text)[place] = true) :
    Except Trap (Move place) := do
  let stop := endOfRun (units text) p place
  let word ← slice text place stop
  return .token (token (String.ofList word.part)) stop (lt_endOfRun h hp)

-- A token of so many bytes.
def cut (text : List Char) (place size : Nat) (hsize : 0 < size) (token : Token) :
    Except Trap (Move place) := do
  let _word ← slice text place (place + size)
  return .token token (place + size) (Nat.lt_add_of_pos_right hsize)

def markMove (text : List Char) (place : Nat) : Except Trap (Move place) := do
  let rest ← slice text place (bytes text)
  if ['.', '.', '.'].isPrefixOf rest.part then cut text place 3 (Nat.succ_pos 2) .spread
  else if ['=', '>'].isPrefixOf rest.part then cut text place 2 Nat.two_pos .arrow
  else if ['?', '.'].isPrefixOf rest.part && !(units rest.part)[2]?.any Char.isDigit then
    cut text place 2 Nat.two_pos .optionalDot
  else
    match rest.part with
    | c :: _ => cut text place c.utf8Size c.utf8Size_pos (.mark c)
    | [] => .error (.index place)

def move (text : List Char) (place : Nat) (h : place < (units text).length) :
    Except Trap (Move place) :=
  let unit := (units text)[place]
  let next := (units text)[place + 1]?
  if isCodeSpace unit then return .skip (place + 1) place.lt_succ_self
  else if unit = '/' ∧ next = some '/' then lineMove text place h
  else if unit = '/' ∧ next = some '*' then blockMove text place
  else if unit = '"' ∨ unit = '\'' then quotedMove text unit place
  else if unit = '\x60' then return .template
  else if hname : startsIdentifier unit then
    runMove text continuesIdentifier .ident place h (continuesIdentifier_of_starts hname)
  else if hnumber : startsNumber (unit :: next.toList) then
    runMove text continuesNumber .number place h (continuesNumber_of_starts hnumber)
  else markMove text place

-- The brackets open after a token, and what is wrong with it, if anything.
def nest (brackets : List (Char × Nat)) (token : Token) (place : Nat) :
    List (Char × Nat) × List SyntaxError :=
  match token with
  | .mark c =>
    if isOpening c then ((c, place) :: brackets, [])
    else if isClosing c then
      let refused := (brackets, [.found (.unexpected c) place])
      match brackets with
      | (bracket, _) :: others => if bracket = opening c then (others, []) else refused
      | [] => refused
    else (brackets, [])
  | _ => (brackets, [])

-- The end of a reading, with these brackets open.
def finish (brackets : List (Char × Nat)) : List SyntaxError :=
  brackets.reverse.map fun bracket => .found (.unclosed bracket.1) bracket.2

mutual

-- The tokens from a place on, with the brackets open there.
def lex (text : List Char) (brackets : List (Char × Nat)) (place : Nat) : Except Trap Lexed :=
  if h : place < (units text).length then
    match move text place h with
    | .error trap => .error trap
    | .ok (.skip after _forward) => lex text brackets after
    | .ok (.token token after _forward) => do
      let (brackets, errors) := nest brackets token place
      let later ← lex text brackets after
      return ⟨token :: later.tokens, errors ++ later.errors⟩
    | .ok (.fail fault) => return ⟨[], .found fault place :: finish brackets⟩
    | .ok .template => literal text brackets place (place + 1)
  else return ⟨[], finish brackets⟩
termination_by (bytes text, bytes text - place)
decreasing_by
  all_goals
    rw [length_units] at h
    exact Prod.Lex.right _ (by omega)

-- The rest of a template literal and the tokens behind it.
def literal (text : List Char) (brackets : List (Char × Nat)) (start place : Nat) :
    Except Trap Lexed :=
  if h : place < (units text).length then
    let unit := (units text)[place]
    if unit = '\\' then literal text brackets start (place + 2)
    else if unit = '\x60' then lex text brackets (place + 1)
    else if unit = '$' ∧ (units text)[place + 1]? = some '\x7b' then
      match _hclose : closingBrace (units text) 0 (place + 2) with
      | .error trap => .error trap
      | .ok none => return ⟨[], .found .unterminatedInterpolation place :: finish brackets⟩
      | .ok (some stop) => do
        let ⟨code, _hstart, _hstop⟩ ← slice text (place + 2) stop
        let inner ← lex code [] 0
        let later ← literal text brackets start (stop + 1)
        return ⟨.mark ';' :: (inner.tokens ++ .mark ';' :: later.tokens),
          inner.errors.map (.inTemplate · start) ++ later.errors⟩
    else literal text brackets start (place + 1)
  else return ⟨[], .found .unterminatedTemplate start :: finish brackets⟩
termination_by (bytes text, bytes text - place)
decreasing_by
  all_goals rw [length_units] at h
  · exact Prod.Lex.right _ (by omega)
  · exact Prod.Lex.right _ (by omega)
  · exact Prod.Lex.left _ _ (by omega)
  · have := closingBrace_bounds _hclose
    exact Prod.Lex.right _ (by omega)
  · exact Prod.Lex.right _ (by omega)

end

def tokenize (text : List Char) : Except Trap Lexed := lex text [] 0

end Definitions

section Classes

theorem narrow_isAlphanum : Narrow Char.isAlphanum := by
  intro c h
  have hlast (last : Char) (hlast : last.val.toNat < 0x80) : ¬c.val ≤ last.val := fun hle =>
    Nat.not_le.mpr (Nat.lt_of_lt_of_le hlast h) (UInt32.le_iff_toNat_le.mp hle)
  have hupper : c.isUpper = false := decide_eq_false fun hc => hlast 'Z' (by decide) hc.2
  have hlower : c.isLower = false :=
    Bool.and_eq_false_iff.mpr (Or.inr (decide_eq_false (hlast 'z' (by decide))))
  have hdigit : c.isDigit = false :=
    Bool.and_eq_false_iff.mpr (Or.inr (decide_eq_false (hlast '9' (by decide))))
  show ((c.isUpper || c.isLower) || c.isDigit) = false
  rw [hupper, hlower, hdigit]
  rfl

theorem narrow_isDigit : Narrow Char.isDigit :=
  narrow_isAlphanum.mono fun h => Bool.or_eq_true_iff.mpr (Or.inr h)

theorem narrow_isCodeSpace : Narrow isCodeSpace := fun c h => by
  simp (disch := decide) [isCodeSpace, ne_of_isWide h]

theorem narrow_continuesIdentifier : Narrow continuesIdentifier := fun c h => by
  simp (disch := decide) [continuesIdentifier, narrow_isAlphanum c h, ne_of_isWide h]

theorem narrow_continuesNumber : Narrow continuesNumber := fun c h => by
  simp (disch := decide) [continuesNumber, narrow_isAlphanum c h, ne_of_isWide h]

theorem narrow_startsIdentifier : Narrow startsIdentifier :=
  narrow_continuesIdentifier.mono continuesIdentifier_of_starts

end Classes

section Step

theorem find_line (text : List Char) : ((find ['\n'] text).map (· + 1)).getD (bytes text) =
    offsetOf text (afterLine text) := by
  fun_induction afterLine text with
  | case1 => rfl
  | case2 rest =>
      rw [offsetOf_cons List.suffix_rfl, offsetOf, Nat.sub_self]
      rfl
  | case3 c rest hne ih =>
      rw [offsetOf_cons (afterLine_suffix rest), ← ih,
        find_cons fun tail htail => hne (List.cons.inj htail).1.symm]
      cases find ['\n'] rest with
      | none => rfl
      | some count => exact Nat.add_assoc _ _ _

theorem find_block (text : List Char) : (find ['*', '/'] text).map (· + 2) =
    (afterBlock text).map (offsetOf text) := by
  fun_induction afterBlock text with
  | case1 rest =>
      rw [Option.map_some, offsetOf_cons (List.suffix_cons _ _), offsetOf_cons List.suffix_rfl,
        offsetOf, Nat.sub_self]
      rfl
  | case2 c rest hend ih =>
      rw [find_cons fun tail htail => by cases htail; exact hend tail rfl rfl]
      have hcons : ∀ after ∈ afterBlock rest,
          offsetOf (c :: rest) after = c.utf8Size + offsetOf rest after :=
        fun after hafter => offsetOf_cons (afterBlock_suffix hafter)
      calc ((find ['*', '/'] rest).map (c.utf8Size + ·)).map (· + 2)
          = ((find ['*', '/'] rest).map (· + 2)).map (c.utf8Size + ·) := by
            simp only [Option.map_map, Function.comp_def, Nat.add_assoc]
        _ = (afterBlock rest).map fun after => c.utf8Size + offsetOf rest after := by
            rw [ih, Option.map_map]
            rfl
        _ = (afterBlock rest).map (offsetOf (c :: rest)) := (Option.map_congr hcons).symm
  | case3 => rfl

theorem quotedText_suffix {quote : Char} {value : List Char}
    (h : Binding.quotedText quote text = some (value, after)) : after <:+ text := by
  fun_induction Binding.quotedText quote text generalizing value with
  | case1 => cases h
  | case2 => cases h
  | case3 c rest ih =>
      obtain ⟨inner, -, hrest⟩ := keep_eq_some h
      exact (ih hrest).trans (List.suffix_append ['\\', c] rest)
  | case4 => cases h
  | case5 rest =>
      cases h
      exact List.suffix_cons _ _
  | case6 c rest _ _ _ _ ih =>
      obtain ⟨inner, -, hrest⟩ := keep_eq_some h
      exact (ih hrest).trans (List.suffix_cons c rest)

theorem quotedText_eq {quote : Char} (hquote : quote.toNat < 0x80) (text : List Char) :
    quotedText quote text =
      (Binding.quotedText quote text).map fun pair => (pair.1, offsetOf text pair.2) := by
  fun_induction Binding.quotedText quote text with
  | case1 => rfl
  | case2 => rfl
  | case3 c rest ih =>
      rw [quotedText, ih]
      cases hrest : Binding.quotedText quote rest with
      | none => rfl
      | some pair =>
          have hsuffix := quotedText_suffix hrest
          rw [keep, Option.map_some, Option.map_some, Option.map_some,
            offsetOf_cons (hsuffix.trans (List.suffix_cons c rest)), offsetOf_cons hsuffix]
          rfl
  | case4 rest hslash hescape => rw [quotedText.eq_4 _ _ _ hslash hescape]; rfl
  | case5 rest hslash hescape hline =>
      rw [quotedText.eq_4 _ _ _ hslash hescape, if_neg hline, if_pos rfl, Option.map_some,
        offsetOf_cons List.suffix_rfl, offsetOf, Nat.sub_self, utf8Size_of_lt hquote]
  | case6 c rest hslash hescape hline hne ih =>
      rw [quotedText.eq_4 _ _ _ hslash hescape, if_neg hline, if_neg hne, ih]
      cases hrest : Binding.quotedText quote rest with
      | none => rfl
      | some pair =>
          rw [keep, Option.map_some, Option.map_some, Option.map_some,
            offsetOf_cons (quotedText_suffix hrest)]

variable {token : Token}

-- A move and a step of the lexer that find the same, and the text that the step
-- leaves at the place where the move ends.
inductive Follows (text : List Char) (place : Nat) : Move place → Step → Prop
  | skip {after : Nat} {rest : List Char} {forward : place < after} (h : At text after rest) :
      Follows text place (.skip after forward) (.skip rest)
  | token {token : Token} {after : Nat} {rest : List Char} {forward : place < after}
      (h : At text after rest) : Follows text place (.token token after forward) (.token token rest)
  | fail (fault : Fault) : Follows text place (.fail fault) (.fail fault)
  | template {rest : List Char} (h : At text (place + 1) rest) :
      Follows text place .template (.template rest)

-- A reading of a move that does not trap, and what it finds.
def Takes (text : List Char) (place : Nat) (reading : Except Trap (Move place)) (step : Step) :
    Prop :=
  ∃ found, reading = .ok found ∧ Follows text place found step

theorem takes_lineMove (h : At text place rest) (hlt : place < (units text).length) :
    Takes text place (lineMove text place hlt) (.skip (afterLine rest)) := by
  obtain ⟨found, hfound, hpart⟩ := h.exists_slice_end
  have hafter := h.offset (afterLine_suffix rest)
  rw [← find_line] at hafter
  rw [lineMove, hfound, ok_bind, hpart]
  cases hfind : find ['\n'] rest with
  | none =>
      rw [hfind] at hafter
      exact ⟨_, rfl, .skip (h.place_add ▸ hafter)⟩
  | some count =>
      rw [hfind] at hafter
      exact ⟨_, rfl, .skip hafter⟩

theorem takes_blockMove (h : At text (place + 2) rest) : Takes text place (blockMove text place)
    (match afterBlock rest with
    | some after => .skip after
    | none => .fail .unterminatedComment) := by
  obtain ⟨found, hfound, hpart⟩ := h.exists_slice_end
  have hfind := find_block rest
  rw [blockMove, hfound, ok_bind, hpart]
  cases hafter : afterBlock rest with
  | none =>
      rw [hafter, Option.map_none, Option.map_eq_none_iff] at hfind
      rw [hfind]
      exact ⟨_, rfl, .fail _⟩
  | some after =>
      rw [hafter] at hfind
      obtain ⟨count, hfind, hcount⟩ := Option.map_eq_some_iff.mp hfind
      rw [hfind]
      refine ⟨_, rfl, .skip ?_⟩
      rw [hcount]
      exact h.offset (afterBlock_suffix hafter)

theorem takes_quotedMove {quote : Char} (hquote : quote.toNat < 0x80)
    (h : At text (place + 1) rest) : Takes text place (quotedMove text quote place)
    (match Binding.quotedText quote rest with
    | some (value, after) => .token (.str (String.ofList value)) after
    | none => .fail .unterminatedText) := by
  obtain ⟨found, hfound, hpart⟩ := h.exists_slice_end
  rw [quotedMove, hfound, ok_bind, hpart, quotedText_eq hquote]
  cases hvalue : Binding.quotedText quote rest with
  | none => exact ⟨_, rfl, .fail _⟩
  | some pair => exact ⟨_, rfl, .token (h.offset (quotedText_suffix hvalue))⟩

theorem endOfRun_eq {units : List Char} (hp : Narrow p) (h : units.drop place = Text.units text) :
    endOfRun units p place = place + bytes (text.takeWhile p) := by
  induction text generalizing place with
  | nil =>
      have hle : units.length ≤ place := List.drop_eq_nil_iff.mp h
      rw [endOfRun, dif_neg (Nat.not_lt.mpr hle)]
      rfl
  | cons c rest ih =>
      obtain ⟨hlt, hbegins⟩ := exists_unit h
      rw [endOfRun, dif_pos hlt, hbegins.class_eq hp]
      cases hc : p c with
      | false =>
          rw [List.takeWhile_cons_of_neg (by simp [hc])]
          rfl
      | true =>
          have hnext := drop_next h
          rw [utf8Size_of_lt (hp.lt hc)] at hnext
          rw [if_pos rfl, ih hnext, List.takeWhile_cons_of_pos hc, bytes_cons,
            utf8Size_of_lt (hp.lt hc), Nat.add_assoc]

theorem takes_runMove {token : String → Token} (hp : Narrow p) (h : At text place (c :: rest))
    (hc : p c = true) (hlt : place < (units text).length) (hunit : p (units text)[place] = true) :
    Takes text place (runMove text p token place hlt hunit)
      (.token (token (String.ofList (c :: rest.takeWhile p))) (rest.dropWhile p)) := by
  have hword : At text place (c :: rest.takeWhile p ++ rest.dropWhile p) := by
    rwa [List.cons_append, List.takeWhile_append_dropWhile]
  have hstop := endOfRun_eq hp h.drop_units
  rw [List.takeWhile_cons_of_pos hc] at hstop
  obtain ⟨found, hfound, hpart⟩ := hword.exists_slice hstop.symm
  have hafter := hword.skip
  rw [← hstop] at hafter
  rw [runMove, hfound, ok_bind, hpart]
  exact ⟨_, rfl, .token hafter⟩

theorem takes_cut (word : List Char) (h : At text place (word ++ rest)) (hword : 0 < bytes word) :
    Takes text place (cut text place (bytes word) hword token) (.token token rest) := by
  obtain ⟨found, hfound, -⟩ := h.exists_slice rfl
  rw [cut, hfound, ok_bind]
  exact ⟨_, rfl, .token h.skip⟩

theorem takes_markMove (h : At text place (c :: rest)) :
    Takes text place (markMove text place) (markStep c rest) := by
  obtain ⟨found, hfound, hpart⟩ := h.exists_slice_end
  rw [markMove, hfound, ok_bind, hpart]
  have htwo (after : List Char) :
      (units ('?' :: '.' :: after))[2]?.any Char.isDigit = after.head?.any Char.isDigit :=
    any_getElem? narrow_isDigit (at_zero ('?' :: '.' :: after)).next.next.drop_units
  fun_cases markStep c rest with
  | case1 after => exact takes_cut ['.', '.', '.'] h (Nat.succ_pos 2)
  | case2 after => exact takes_cut ['=', '>'] h Nat.two_pos
  | case3 after hdigit =>
      rw [htwo, hdigit]
      exact takes_cut ['?'] h Nat.one_pos
  | case4 after hdigit =>
      rw [htwo, eq_false_of_ne_true hdigit]
      exact takes_cut ['?', '.'] h Nat.two_pos
  | case5 _ _ hspread harrow hdot =>
      have hspread : ['.', '.', '.'].isPrefixOf (c :: rest) = false :=
        not_isPrefixOf fun tail htail => by cases htail; exact hspread _ rfl rfl
      have harrow : ['=', '>'].isPrefixOf (c :: rest) = false :=
        not_isPrefixOf fun tail htail => by cases htail; exact harrow _ rfl rfl
      have hdot : ['?', '.'].isPrefixOf (c :: rest) = false :=
        not_isPrefixOf fun tail htail => by cases htail; exact hdot _ rfl rfl
      rw [hspread, harrow, hdot]
      exact takes_cut [c] h c.utf8Size_pos

-- By the cases of a step: a class or a mark tells the unit at a place as it does
-- the character.
theorem takes_move (h : At text place (c :: rest)) :
    ∃ hlt, Takes text place (move text place hlt) (step c rest) := by
  obtain ⟨hlt, hbegins⟩ := exists_unit h.drop_units
  refine ⟨hlt, ?_⟩
  have hnext (hc : c.toNat < 0x80) : At text (place + 1) rest := utf8Size_of_lt hc ▸ h.next
  have hunit {d : Char} (hd : d.toNat < 0x80) : (units text)[place] = d ↔ c = d :=
    hbegins.eq_iff hd
  have hpair {d e : Char} (hd : d.toNat < 0x80) (he : e.toNat < 0x80) :
      c = d ∧ (units text)[place + 1]? = some e ↔ c = d ∧ rest.head? = some e := by
    refine and_congr_right fun hc => ?_
    exact getElem?_eq_some_iff he (hnext (hc ▸ hd)).drop_units
  have hnumber : startsNumber ((units text)[place] :: (units text)[place + 1]?.toList) =
      startsNumber (c :: rest) := by
    have hdot : ((units text)[place] == '.') = (c == '.') :=
      hbegins.class_eq (narrow_beq (by decide))
    rw [startsNumber, startsNumber, hbegins.class_eq narrow_isDigit, hdot, Option.head?_toList]
    cases hc : c == '.' with
    | false => rfl
    | true =>
        have hlow : c.toNat < 0x80 := by rw [beq_iff_eq.mp hc]; decide
        rw [any_getElem? narrow_isDigit (hnext hlow).drop_units]
  unfold step move
  simp (disch := decide) only [hbegins.class_eq narrow_isCodeSpace,
    hbegins.class_eq narrow_startsIdentifier, hnumber, hunit, hpair]
  split_ifs with hspace hline hblock hquote htick hname hdigit
  · exact ⟨_, rfl, .skip (hnext (narrow_isCodeSpace.lt hspace))⟩
  · obtain ⟨rfl, -⟩ := hline
    exact takes_lineMove h hlt
  · obtain ⟨rfl, hhead⟩ := hblock
    obtain ⟨tail, rfl⟩ := List.head?_eq_some_iff.mp hhead
    exact takes_blockMove h.next.next
  · have hlow : c.toNat < 0x80 := by rcases hquote with rfl | rfl <;> decide
    rw [(hunit hlow).mpr rfl]
    exact takes_quotedMove hlow (hnext hlow)
  · subst htick
    exact ⟨_, rfl, .template (hnext (by decide))⟩
  · exact takes_runMove narrow_continuesIdentifier h (continuesIdentifier_of_starts hname) hlt _
  · exact takes_runMove narrow_continuesNumber h (continuesNumber_of_starts hdigit) hlt _
  · exact takes_markMove h

end Step

section Run

-- Open brackets by the places where they stand.
def placed (text : List Char) (brackets : List (Char × List Char)) : List (Char × Nat) :=
  brackets.map fun bracket => (bracket.1, offsetOf text bracket.2)

theorem nest_placed (text : List Char) (brackets : List (Char × List Char)) (token : Token)
    (start : List Char) : nest (placed text brackets) token (offsetOf text start) =
      (placed text (Binding.nest text brackets token start).1,
        (Binding.nest text brackets token start).2) := by
  cases token with
  | mark c =>
      cases brackets with
      | nil =>
          unfold nest Binding.nest
          dsimp only
          split_ifs <;> rfl
      | cons bracket others =>
          rw [placed, List.map_cons]
          unfold nest Binding.nest
          dsimp only
          split_ifs <;> rfl
  | _ => rfl

theorem settle_end (text : List Char) (brackets : List (Char × List Char)) :
    settle text brackets [] = ⟨[], finish (placed text brackets)⟩ := by
  rw [settle, finish, placed, ← List.map_reverse, List.map_map]
  rfl

theorem settle_fault (text start : List Char) (brackets : List (Char × List Char))
    (fault : Fault) : settle text brackets [.fault fault start] =
      ⟨[], .found fault (offsetOf text start) :: finish (placed text brackets)⟩ := by
  rw [settle, settle_end]

theorem lex_end (h : At text place []) (brackets : List (Char × Nat)) :
    lex text brackets place = .ok ⟨[], finish brackets⟩ := by
  have hend : bytes text = place := h.place_add.symm
  rw [lex, dif_neg (by rw [length_units]; omega)]
  rfl

theorem skipsWide_literal (text : List Char) (brackets : List (Char × Nat)) (start : Nat) :
    SkipsWide (units text) (literal text brackets start) := by
  intro place hlt hwide
  rw [literal, dif_pos hlt]
  dsimp only
  rw [if_neg (ne_of_isWide hwide (by decide)), if_neg (ne_of_isWide hwide (by decide)),
    if_neg fun h => ne_of_isWide hwide (by decide) h.1]

theorem literal_of_le (h : bytes text ≤ place) (brackets : List (Char × Nat)) (start : Nat) :
    literal text brackets start place =
      .ok ⟨[], .found .unterminatedTemplate start :: finish brackets⟩ := by
  rw [literal, dif_neg (by rw [length_units]; omega)]
  rfl

theorem literal_backslash (h : At text place ('\\' :: rest)) (brackets : List (Char × Nat))
    (start : Nat) :
    literal text brackets start place = literal text brackets start (place + 2) := by
  obtain ⟨hlt, hbegins⟩ := exists_unit h.drop_units
  rw [literal, dif_pos hlt]
  exact if_pos ((hbegins.eq_iff (by decide)).mpr rfl)

-- The reading goes on behind the character that the backslash hides.
theorem literal_escape (h : At text place ('\\' :: c :: rest)) (brackets : List (Char × Nat))
    (start : Nat) :
    literal text brackets start place = literal text brackets start (place + 1 + c.utf8Size) := by
  rw [literal_backslash h]
  exact (skipsWide_literal text brackets start).next h.next.drop_units

theorem literal_tick (h : At text place ('\x60' :: rest)) (brackets : List (Char × Nat))
    (start : Nat) : literal text brackets start place = lex text brackets (place + 1) := by
  obtain ⟨hlt, hbegins⟩ := exists_unit h.drop_units
  rw [literal, dif_pos hlt]
  simp (disch := decide) only [hbegins.eq_iff]
  rfl

theorem literal_open (h : At text place ('$' :: '\x7b' :: rest)) (brackets : List (Char × Nat))
    (start : Nat) : literal text brackets start place =
      match splitClose false none 0 rest with
      | none => .ok ⟨[], .found .unterminatedInterpolation place :: finish brackets⟩
      | some (code, _) => do
        let inner ← lex code [] 0
        let later ← literal text brackets start (place + 2 + bytes code + 1)
        return ⟨.mark ';' :: (inner.tokens ++ .mark ';' :: later.tokens),
          inner.errors.map (.inTemplate · start) ++ later.errors⟩ := by
  obtain ⟨hlt, hbegins⟩ := exists_unit h.drop_units
  have hopen : (units text)[place + 1]? = some '\x7b' :=
    (getElem?_eq_some_iff (by decide) h.next.drop_units).mpr rfl
  have hbody : At text (place + 2) rest := h.next.next
  have hclose := closingBrace_eq hbody
  rw [literal, dif_pos hlt]
  simp (disch := decide) only [hbegins.eq_iff, hopen]
  rw [if_neg (by decide), if_neg (by decide), if_pos ⟨trivial, trivial⟩]
  cases hsplit : splitClose false none 0 rest with
  | none =>
      rw [hsplit] at hclose
      split
      · next htrap => cases htrap.symm.trans hclose
      · rfl
      · next hstop => cases hstop.symm.trans hclose
  | some pair =>
      rw [hsplit] at hclose
      obtain ⟨found, hfound, hpart⟩ := At.exists_slice (closes_splitClose hsplit ▸ hbody) rfl
      split
      · next htrap => cases htrap.symm.trans hclose
      · next hnone => cases hnone.symm.trans hclose
      · next hstop =>
        cases hstop.symm.trans hclose
        rw [hfound, ok_bind, hpart]

theorem literal_next (h : At text place (c :: rest)) (hescape : c ≠ '\\') (htick : c ≠ '\x60')
    (hopen : c = '$' → rest.head? ≠ some '\x7b') (brackets : List (Char × Nat)) (start : Nat) :
    literal text brackets start place = literal text brackets start (place + c.utf8Size) := by
  obtain ⟨hlt, hbegins⟩ := exists_unit h.drop_units
  have hhead : ¬(c = '$' ∧ (units text)[place + 1]? = some '\x7b') := by
    rintro ⟨rfl, hnext⟩
    exact hopen rfl ((getElem?_eq_some_iff (by decide) h.next.drop_units).mp hnext)
  rw [literal, dif_pos hlt, ← (skipsWide_literal text brackets start).next h.drop_units]
  simp (disch := decide) only [hbegins.eq_iff]
  rw [if_neg hescape, if_neg htick, if_neg hhead]

-- From the place of the text on, the reading finds the tokens of the lexer.
def ReadsCode (rest : List Char) : Prop :=
  ∀ text place brackets, At text place rest →
    lex text (placed text brackets) place = .ok (settle text brackets (lexemes rest))

-- The same of the rest of a template literal that began with the first text.
def ReadsLiteral (start rest : List Char) : Prop :=
  ∀ text place brackets, At text place rest →
    literal text (placed text brackets) (offsetOf text start) place =
      .ok (settle text brackets (templateLexemes start rest))

-- By induction on the steps of the lexer and the characters of its literals.
theorem readsCode (rest : List Char) : ReadsCode rest := by
  induction rest using @lexemes.induct _ ReadsLiteral with
  | case1 =>
      intro text place brackets h
      rw [lex_end h, lexemes_nil, settle_end]
  | case2 c rest after hstep ih =>
      intro text place brackets h
      obtain ⟨hlt, found, hmove, hfollows⟩ := takes_move h
      rw [hstep] at hfollows
      cases hfollows with
      | skip hafter =>
          rw [lex, dif_pos hlt, hmove, lexemes_cons, hstep]
          exact ih text _ brackets hafter
  | case3 c rest token after hstep ih =>
      intro text place brackets h
      obtain ⟨hlt, found, hmove, hfollows⟩ := takes_move h
      have hnest := nest_placed text brackets token (c :: rest)
      rw [h.offsetOf] at hnest
      rw [hstep] at hfollows
      cases hfollows with
      | token hafter =>
          rw [lex, dif_pos hlt, hmove, lexemes_cons, hstep, settle]
          dsimp only
          rw [hnest, ih text _ _ hafter, ok_bind]
          rfl
  | case4 c rest fault hstep =>
      intro text place brackets h
      obtain ⟨hlt, found, hmove, hfollows⟩ := takes_move h
      rw [hstep] at hfollows
      cases hfollows with
      | fail =>
          rw [lex, dif_pos hlt, hmove, lexemes_cons, hstep, settle_fault, h.offsetOf]
          rfl
  | case5 c rest literal hstep ih =>
      intro text place brackets h
      obtain ⟨hlt, found, hmove, hfollows⟩ := takes_move h
      rw [hstep] at hfollows
      cases hfollows with
      | template hliteral =>
          have hrest := ih text (place + 1) brackets hliteral
          rw [h.offsetOf] at hrest
          rw [lex, dif_pos hlt, hmove, lexemes_cons, hstep]
          exact hrest
  | case6 start =>
      intro text place brackets h
      have hend : bytes text = place := h.place_add.symm
      rw [literal_of_le (Nat.le_of_eq hend), templateLexemes, settle_fault]
  | case7 start =>
      intro text place brackets h
      have hend : bytes text = place + 1 := h.place_add.symm
      rw [literal_backslash h, literal_of_le (by omega), templateLexemes, settle_fault]
  | case8 start c rest ih =>
      intro text place brackets h
      rw [literal_escape h, templateLexemes]
      exact ih text _ brackets h.next.next
  | case9 start rest ih =>
      intro text place brackets h
      rw [literal_tick h, templateLexemes]
      exact ih text _ brackets h.next
  | case10 start rest code after hclose ihcode ih =>
      intro text place brackets h
      have hbody : At text (place + 2) rest := h.next.next
      have hafter : At text (place + 2 + bytes code + 1) after :=
        (closes_splitClose hclose ▸ hbody).skip.next
      have hcode : lex code [] 0 = .ok (settle code [] (lexemes code)) :=
        ihcode code 0 [] (at_zero code)
      rw [literal_open h, templateLexemes_open, hclose, settle, settleInner]
      dsimp only
      rw [hcode, ok_bind, ih text _ brackets hafter, ok_bind]
      rfl
  | case11 start rest hclose =>
      intro text place brackets h
      rw [literal_open h, templateLexemes_open, hclose, settle_fault, h.offsetOf]
  | case12 start c rest hslash hescape htick hopen ih =>
      intro text place brackets h
      have hc : c ≠ '\\' := by
        rintro rfl
        cases rest with
        | nil => exact hslash rfl rfl
        | cons d rest => exact hescape d rest rfl rfl
      have hhead : c = '$' → rest.head? ≠ some '\x7b' := by
        intro hc hhead
        obtain ⟨tail, rfl⟩ := List.head?_eq_some_iff.mp hhead
        exact hopen tail hc rfl
      rw [literal_next h hc htick hhead, templateLexemes.eq_6 _ _ _ hslash hescape htick hopen]
      exact ih text _ brackets h.next

theorem tokenize_eq (text : List Char) : tokenize text = .ok (Binding.tokenize text) :=
  readsCode text text 0 [] (at_zero text)

end Run

end Recalc.Binding.Indexed
