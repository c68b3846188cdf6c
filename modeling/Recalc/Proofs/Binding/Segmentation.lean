import Recalc.Proofs.Binding.Template

namespace Recalc.Binding

variable {text first second before body code after : List Char}

section Finding

-- The first of the ways to divide a text.
structure First (divides : List Char → List Char → Prop) (before after : List Char) : Prop where
  holds : divides before after
  least : ∀ other rest, divides other rest → before.length ≤ other.length

-- An answer is the first way to divide a text, or there is none.
def Finds (divides : List Char → List Char → Prop) : Option (List Char × List Char) → Prop
  | some (before, after) => First divides before after
  | none => ∀ before after, ¬ divides before after

variable {divides inner : List Char → List Char → Prop} {found : Option (List Char × List Char)}
  {c : Char}

theorem Finds.here (h : divides [] after) : Finds divides (some ([], after)) :=
  ⟨h, fun _ _ _ => Nat.zero_le _⟩

-- A text that does not divide at its head divides as the rest of it does.
theorem Finds.keep (hhere : ∀ after, ¬ divides [] after)
    (hlater : ∀ d before after, divides (d :: before) after ↔ d = c ∧ inner before after)
    (h : Finds inner found) : Finds divides (keep c found) := by
  cases found with
  | none =>
      intro before after hdivides
      cases before with
      | nil => exact hhere after hdivides
      | cons d before => exact h before after ((hlater d before after).mp hdivides).2
  | some pair =>
      refine ⟨(hlater c pair.1 pair.2).mpr ⟨rfl, h.holds⟩, fun other rest hdivides => ?_⟩
      cases other with
      | nil => exact absurd hdivides (hhere rest)
      | cons d other =>
          exact Nat.succ_le_succ (h.least other rest ((hlater d other rest).mp hdivides).2)

end Finding

section Opening

-- The text divides at doubled opening braces.
def Opens (text before after : List Char) : Prop := text = before ++ '\x7b' :: '\x7b' :: after

theorem opens_cons {c d : Char} {rest : List Char} :
    Opens (c :: rest) (d :: before) after ↔ d = c ∧ Opens rest before after := by
  rw [Opens, Opens, List.cons_append, List.cons.injEq, eq_comm (a := c)]

theorem finds_splitOpen (text : List Char) : Finds (Opens text) (splitOpen text) := by
  fun_induction splitOpen text with
  | case1 rest => exact .here rfl
  | case2 c rest hhead ih =>
      refine ih.keep (fun after hopens => ?_) fun _ _ _ => opens_cons
      obtain ⟨hc, hrest⟩ := List.cons.inj hopens
      exact hhead after hc hrest
  | case3 =>
      intro before after hopens
      exact absurd hopens.symm (List.append_ne_nil_of_right_ne_nil _ (List.cons_ne_nil _ _))

theorem opens_of_splitOpen (h : splitOpen text = some (before, after)) :
    First (Opens text) before after := by
  have hfinds := finds_splitOpen text
  rwa [h] at hfinds

theorem not_opens (h : splitOpen text = none) (before after : List Char) :
    ¬ Opens text before after := by
  have hfinds := finds_splitOpen text
  rw [h] at hfinds
  exact hfinds before after

end Opening

section Closing

-- Where the search for the end of a segment stands: in code, with so many
-- braces open, in quotes there, or in quotes behind a backslash.
inductive Mode
  | code (depth : Nat)
  | quoted (quote : Char) (depth : Nat)
  | escaped (quote : Char) (depth : Nat)
deriving DecidableEq

namespace Mode

-- A closing brace at depth zero starts the search over.
def next : Mode → Char → Mode
  | .code depth, c =>
    if isQuote c then .quoted c depth
    else if c = '\x7b' then .code (depth + 1)
    else if c = '\x7d' then .code (depth - 1)
    else .code depth
  | .quoted quote depth, c =>
    if c = '\\' then .escaped quote depth
    else if c = quote then .code depth
    else .quoted quote depth
  | .escaped quote depth, _ => .quoted quote depth

def run (mode : Mode) (text : List Char) : Mode := text.foldl next mode

def ofQuote (quote : Option Char) (depth : Nat) : Mode :=
  match quote with
  | some quote => .quoted quote depth
  | none => .code depth

end Mode

-- The text divides at doubled closing braces that the search meets at depth
-- zero.
def Closes (mode : Mode) (text code after : List Char) : Prop :=
  text = code ++ '\x7d' :: '\x7d' :: after ∧ mode.run code = .code 0

theorem closes_cons {mode : Mode} {c d : Char} {rest : List Char} :
    Closes mode (c :: rest) (d :: code) after ↔ d = c ∧ Closes (mode.next c) rest code after := by
  unfold Closes Mode.run
  rw [List.cons_append, List.cons.injEq, List.foldl_cons]
  constructor
  · rintro ⟨⟨rfl, hrest⟩, hrun⟩
    exact ⟨rfl, hrest, hrun⟩
  · rintro ⟨rfl, hrest, hrun⟩
    exact ⟨⟨rfl, hrest⟩, hrun⟩

-- The search goes on behind a character that does not begin the end.
theorem Finds.next {mode : Mode} {c : Char} {rest : List Char}
    {found : Option (List Char × List Char)}
    (hhere : mode = .code 0 → c = '\x7d' → rest.head? ≠ some '\x7d')
    (h : Finds (Closes (mode.next c) rest) found) :
    Finds (Closes mode (c :: rest)) (Binding.keep c found) := by
  refine h.keep (fun after hcloses => ?_) fun _ _ _ => closes_cons
  obtain ⟨hc, hrest⟩ := List.cons.inj hcloses.1
  exact hhere hcloses.2 hc (by rw [hrest, List.head?_cons])

theorem not_closes_short {mode : Mode} (h : text.length < 2) : ¬ Closes mode text code after := by
  rintro ⟨rfl, -⟩
  simp only [List.length_append, List.length_cons] at h
  omega

theorem finds_splitClose (quote : Option Char) (depth : Nat) (text : List Char) :
    Finds (Closes (.ofQuote quote depth) text) (splitClose true quote depth text) := by
  fun_induction splitClose true quote depth text with
  | case1 => exact fun _ _ => not_closes_short (by decide)
  | case2 => exact fun _ _ => not_closes_short (by decide)
  | case3 depth quote d rest ih =>
      have hinner : Finds (Closes ((Mode.quoted quote depth).next '\\') (d :: rest))
          (keep d (splitClose true (some quote) depth rest)) :=
        .next (fun hmode => by cases hmode) ih
      exact .next (fun hmode => by cases hmode) hinner
  | case4 depth c rest quote hslash ih =>
      refine .next (fun hmode => by cases hmode) ?_
      have hnext : (Mode.quoted quote depth).next c =
          .ofQuote (if c = quote then none else some quote) depth := by
        rw [Mode.next, if_neg hslash]
        split <;> rfl
      rwa [Mode.ofQuote, hnext]
  | case5 depth c rest hquote ih =>
      refine .next (fun _ hc => ?_) ?_
      · subst hc
        cases hquote
      · rwa [Mode.ofQuote, Mode.next, if_pos hquote]
  | case6 depth rest hquote ih =>
      refine .next (fun _ hc => absurd hc (by decide)) ?_
      rwa [Mode.ofQuote, Mode.next, if_neg hquote, if_pos rfl]
  | case7 rest depth hquote _ ih =>
      refine .next (fun hmode => by cases hmode) ?_
      rwa [Mode.ofQuote, Mode.next, if_neg hquote, if_neg (by decide), if_pos rfl]
  | case8 rest hdoubled => cases hdoubled
  | case9 rest _ hrest =>
      obtain ⟨tail, rfl⟩ := List.head?_eq_some_iff.mp hrest
      exact .here ⟨rfl, rfl⟩
  | case10 rest _ hrest hquote _ ih =>
      refine .next (fun _ _ => hrest) ?_
      rwa [Mode.ofQuote, Mode.next, if_neg hquote, if_neg (by decide), if_pos rfl]
  | case11 depth c rest hquote hopen hclose ih =>
      refine .next (fun _ hc => absurd hc hclose) ?_
      rwa [Mode.ofQuote, Mode.next, if_neg hquote, if_neg hopen, if_neg hclose]

theorem closes_of_splitClose {quote : Option Char} {depth : Nat}
    (h : splitClose true quote depth text = some (code, after)) :
    First (Closes (.ofQuote quote depth) text) code after := by
  have hfinds := finds_splitClose quote depth text
  rwa [h] at hfinds

theorem not_closes {quote : Option Char} {depth : Nat}
    (h : splitClose true quote depth text = none) (code after : List Char) :
    ¬ Closes (.ofQuote quote depth) text code after := by
  have hfinds := finds_splitClose quote depth text
  rw [h] at hfinds
  exact hfinds code after

end Closing

section Pieces

-- A plain text and the code of the segment behind it.
structure Piece where
  plain : List Char
  code : List Char

-- The text of pieces, the code of each in its braces, and of what follows them.
def assemble : List Piece → List Char → List Char
  | [], last => last
  | piece :: later, last =>
    piece.plain ++ '\x7b' :: '\x7b' :: (piece.code ++ '\x7d' :: '\x7d' :: assemble later last)

-- Each segment begins at the first opening braces behind the segment before it
-- and ends at the first closing braces that the search from there meets.
def Tight : List Piece → List Char → Prop
  | [], _ => True
  | piece :: later, last =>
    let rest := assemble later last
    let body := piece.code ++ '\x7d' :: '\x7d' :: rest
    First (Opens (assemble (piece :: later) last)) piece.plain body ∧
      First (Closes (.code 0) body) piece.code rest ∧ Tight later last

-- Behind the last segment nothing begins, or what begins does not end.
def Leaves (last : List Char) : Option (List Char) → Prop
  | none => ∀ before body, ¬ Opens last before body
  | some start => ∃ before body, start = '\x7b' :: '\x7b' :: body ∧ First (Opens last) before body ∧
      ∀ code after, ¬ Closes (.code 0) body code after

theorem assemble_append (pieces : List Piece) (first second : List Char) :
    assemble pieces (first ++ second) = assemble pieces first ++ second := by
  induction pieces with
  | nil => rfl
  | cons piece later ih => simp only [assemble, ih, List.append_assoc, List.cons_append]

theorem exists_tight (text : List Char) : ∃ pieces last, text = assemble pieces last ∧
    (segments text).codes = pieces.map Piece.code ∧ Tight pieces last ∧
    Leaves last (segments text).unterminated := by
  fun_induction segments text with
  | case1 text hopen => exact ⟨[], text, rfl, rfl, trivial, not_opens hopen⟩
  | case2 text before body hopen hclose =>
      exact ⟨[], text, rfl, rfl, trivial, before, body, rfl, opens_of_splitOpen hopen,
        not_closes hclose⟩
  | case3 text before body hopen code rest hclose later ih =>
      have hopens := opens_of_splitOpen hopen
      have hcloses := closes_of_splitClose hclose
      obtain ⟨pieces, last, hrest, hcodes, htight, hleaves⟩ := ih
      have hbody : body = code ++ '\x7d' :: '\x7d' :: assemble pieces last := hrest ▸ hcloses.holds.1
      have htext : text = assemble (⟨before, code⟩ :: pieces) last := by
        rw [assemble, ← hbody]
        exact hopens.holds
      refine ⟨⟨before, code⟩ :: pieces, last, htext, ?_, ⟨?_, ?_, htight⟩, hleaves⟩
      · exact congrArg (code :: ·) hcodes
      · rw [← htext, ← hbody]
        exact hopens
      · rw [← hbody, ← hrest]
        exact hcloses

-- A template is its pieces and what follows them. At most one error is found:
-- it stands at the first opening braces behind the last segment, and there it
-- stands if these have no end.
theorem segments_lossless (text : List Char) : ∃ pieces last, text = assemble pieces last ∧
    (segments text).codes = pieces.map Piece.code ∧ Tight pieces last ∧
    (segmentErrors text (segments text) = [] ∧ (∀ before body, ¬ Opens last before body) ∨
      ∃ before body, segmentErrors text (segments text) =
          [.found .unterminatedSegment (Text.bytes (assemble pieces before))] ∧
        First (Opens last) before body ∧ ∀ code after, ¬ Closes (.code 0) body code after) := by
  obtain ⟨pieces, last, htext, hcodes, htight, hleaves⟩ := exists_tight text
  refine ⟨pieces, last, htext, hcodes, htight, ?_⟩
  unfold segmentErrors
  cases hunterminated : (segments text).unterminated with
  | none =>
      rw [hunterminated] at hleaves
      exact Or.inl ⟨rfl, hleaves⟩
  | some start =>
      rw [hunterminated] at hleaves
      obtain ⟨before, body, rfl, hopens, hcloses⟩ := hleaves
      refine Or.inr ⟨before, body, ?_, hopens, hcloses⟩
      dsimp only
      rw [htext, hopens.holds, assemble_append, Text.offsetOf_append]

end Pieces

section Following

variable {divides : List Char → List Char → Prop} {found : Option (List Char × List Char)}
  {mark : Char}

-- Marks that stand before other marks of a text stand in the text, whatever
-- follows it.
theorem exists_within {other rest : List Char}
    (h : (before ++ mark :: mark :: after) ++ second = other ++ mark :: mark :: rest)
    (hlt : other.length < before.length) :
    ∃ inner, before ++ mark :: mark :: after = other ++ mark :: mark :: inner := by
  have hother : other ++ [mark, mark] <+: (before ++ mark :: mark :: after) ++ second :=
    ⟨rest, by rw [h]; simp⟩
  have hlength : (other ++ [mark, mark]).length ≤ (before ++ mark :: mark :: after).length := by
    simp only [List.length_append, List.length_cons, List.length_nil]
    omega
  obtain ⟨inner, hinner⟩ :=
    List.prefix_of_prefix_length_le hother (List.prefix_append _ second) hlength
  exact ⟨inner, by rw [← hinner]; simp⟩

theorem First.opens_append (h : First (Opens first) before after) :
    First (Opens (first ++ second)) before (after ++ second) := by
  refine ⟨by rw [Opens, h.holds]; simp, fun other rest hother => ?_⟩
  by_contra hlt
  rw [Opens, h.holds] at hother
  obtain ⟨inner, hinner⟩ := exists_within hother (Nat.lt_of_not_le hlt)
  exact hlt (h.least other inner (h.holds.trans hinner))

theorem First.closes_append {mode : Mode} (h : First (Closes mode first) code after) :
    First (Closes mode (first ++ second)) code (after ++ second) := by
  obtain ⟨hfirst, hrun⟩ := h.holds
  refine ⟨⟨by rw [hfirst]; simp, hrun⟩, fun other rest hother => ?_⟩
  by_contra hlt
  obtain ⟨hother, hreached⟩ := hother
  rw [hfirst] at hother
  obtain ⟨inner, hinner⟩ := exists_within hother (Nat.lt_of_not_le hlt)
  exact hlt (h.least other inner ⟨hfirst.trans hinner, hreached⟩)

-- There is but one first division at marks.
theorem Finds.eq_some
    (hmarks : ∀ before after, divides before after → text = before ++ mark :: mark :: after)
    (hfound : Finds divides found) (h : First divides before after) :
    found = some (before, after) := by
  cases found with
  | none => exact absurd h.holds (hfound before after)
  | some pair =>
      have hlength : pair.1.length = before.length :=
        Nat.le_antisymm (hfound.least _ _ h.holds) (h.least _ _ hfound.holds)
      obtain ⟨hbefore, hafter⟩ := List.append_inj
        ((hmarks _ _ hfound.holds).symm.trans (hmarks _ _ h.holds)) hlength
      simp only [List.cons.injEq, true_and] at hafter
      rw [← hbefore, ← hafter]

theorem splitOpen_append (h : splitOpen first = some (before, after)) :
    splitOpen (first ++ second) = some (before, after ++ second) :=
  (finds_splitOpen _).eq_some (fun _ _ hopens => hopens) (opens_of_splitOpen h).opens_append

theorem splitClose_append {quote : Option Char} {depth : Nat}
    (h : splitClose true quote depth first = some (code, after)) :
    splitClose true quote depth (first ++ second) = some (code, after ++ second) :=
  (finds_splitClose _ _ _).eq_some (fun _ _ hcloses => hcloses.1)
    (closes_of_splitClose h).closes_append

-- Opening braces are doubled where two texts meet.
def Straddles (first second : List Char) : Prop :=
  first.getLast? = some '\x7b' ∧ second.head? = some '\x7b'

theorem Straddles.append (h : Straddles first second) (before : List Char) :
    Straddles (before ++ first) second :=
  ⟨by rw [List.getLast?_append, h.1]; rfl, h.2⟩

theorem splitOpen_cons {c : Char} {rest : List Char}
    (h : ¬ (c = '\x7b' ∧ rest.head? = some '\x7b')) :
    splitOpen (c :: rest) = keep c (splitOpen rest) := by
  rw [splitOpen]
  rintro after rfl rfl
  exact h ⟨rfl, rfl⟩

-- Where nothing begins, the next opening braces are those of what follows.
theorem splitOpen_append_of_none (h : splitOpen first = none) (hjoin : ¬ Straddles first second) :
    splitOpen (first ++ second) = first.foldr keep (splitOpen second) := by
  induction first with
  | nil => rfl
  | cons c rest ih =>
      have hhead : ¬ (c = '\x7b' ∧ rest.head? = some '\x7b') := by
        rintro ⟨rfl, hrest⟩
        obtain ⟨tail, rfl⟩ := List.head?_eq_some_iff.mp hrest
        cases h
      have hmeet : ¬ (c = '\x7b' ∧ (rest ++ second).head? = some '\x7b') := by
        rintro ⟨rfl, hmeet⟩
        cases rest with
        | nil => exact hjoin ⟨rfl, hmeet⟩
        | cons d tail => exact hhead ⟨rfl, hmeet⟩
      have hrest : splitOpen rest = none := by
        rw [splitOpen_cons hhead] at h
        cases hs : splitOpen rest with
        | none => rfl
        | some pair =>
            rw [hs] at h
            cases h
      rw [List.cons_append, splitOpen_cons hmeet, ih hrest fun hs => hjoin (hs.append [c])]
      rfl

-- What stands before the first segment has no part in the segments.
theorem segments_of_plain (h : splitOpen text = first.foldr keep (splitOpen second)) :
    segments text = segments second := by
  cases hopen : splitOpen second with
  | none =>
      rw [hopen, foldr_keep_none] at h
      rw [segments_of_text h, segments_of_text hopen]
  | some pair =>
      obtain ⟨before, body⟩ := pair
      rw [hopen, foldr_keep] at h
      cases hclose : splitClose true none 0 body with
      | none => rw [segments_of_open h hclose, segments_of_open hopen hclose]
      | some pair => rw [segments_of_segment h hclose, segments_of_segment hopen hclose]

-- A template behind a complete one has its own segments.
theorem segments_append (h : (segments first).unterminated = none)
    (hjoin : ¬ Straddles first second) :
    segments (first ++ second) =
      ⟨(segments first).codes ++ (segments second).codes, (segments second).unterminated⟩ := by
  fun_induction segments first with
  | case1 text hopen =>
      rw [segments_of_plain (splitOpen_append_of_none hopen hjoin)]
      rfl
  | case2 => cases h
  | case3 text before body hopen code rest hclose later ih =>
      have htext : text = (before ++ ['\x7b', '\x7b'] ++ code ++ ['\x7d', '\x7d']) ++ rest := by
        rw [(opens_of_splitOpen hopen).holds, (closes_of_splitClose hclose).holds.1]
        simp
      have hrest : ¬ Straddles rest second := fun hs => hjoin (htext ▸ hs.append _)
      rw [segments_of_segment (splitOpen_append hopen) (splitClose_append hclose), ih h hrest]
      rfl

-- What has no end stands at the end of the text.
theorem exists_of_unterminated {start : List Char} (h : (segments text).unterminated = some start) :
    ∃ before, text = before ++ start := by
  obtain ⟨pieces, last, htext, -, -, hleaves⟩ := exists_tight text
  rw [h] at hleaves
  obtain ⟨before, body, rfl, hopens, -⟩ := hleaves
  exact ⟨assemble pieces before, by rw [htext, hopens.holds, assemble_append]⟩

-- An error of a text, as it is told of a text with so many bytes before it.
def SyntaxError.moved (bytes : Nat) : SyntaxError → SyntaxError
  | .found fault offset => .found fault (bytes + offset)
  | .inTemplate inner offset => .inTemplate inner (bytes + offset)

theorem segmentErrors_append (h : (segments first).unterminated = none)
    (hjoin : ¬ Straddles first second) :
    segmentErrors (first ++ second) (segments (first ++ second)) =
      (segmentErrors second (segments second)).map (.moved (Text.bytes first)) := by
  rw [segments_append h hjoin]
  unfold segmentErrors
  dsimp only
  cases hunterminated : (segments second).unterminated with
  | none => rfl
  | some start =>
      obtain ⟨before, rfl⟩ := exists_of_unterminated hunterminated
      dsimp only
      rw [Text.offsetOf_append, ← List.append_assoc, Text.offsetOf_append, Text.bytes_append]
      rfl

theorem references_foldl_append (parsed : List Parsed) (start : Parsed) :
    (parsed.foldl Parsed.append start).references =
      start.references ++ parsed.flatMap Parsed.references := by
  induction parsed generalizing start with
  | nil => simp
  | cons next later ih =>
      rw [List.foldl_cons, ih, List.flatMap_cons, ← List.append_assoc]
      rfl

theorem references_parseTemplate (text : List Char) : (parseTemplate text).references =
    (segments text).codes.flatMap fun code => (parseCode code).references := by
  rw [parseTemplate, references_foldl_append, List.flatMap_map]
  rfl

theorem unterminated_eq_none (h : segmentErrors text (segments text) = []) :
    (segments text).unterminated = none := by
  unfold segmentErrors at h
  cases hunterminated : (segments text).unterminated with
  | none => rfl
  | some start =>
      rw [hunterminated] at h
      cases h

-- Behind a template without an error, another one is divided and read as on
-- its own, with its error further on.
theorem template_append {first second : String}
    (h : segmentErrors first.toList (segments first.toList) = [])
    (hjoin : ¬ Straddles first.toList second.toList) :
    let joined := first ++ second
    (segments joined.toList).codes =
        (segments first.toList).codes ++ (segments second.toList).codes ∧
      segmentErrors joined.toList (segments joined.toList) =
        (segmentErrors second.toList (segments second.toList)).map
          (.moved (Text.bytes first.toList)) ∧
      (parse .template joined).references =
        (parse .template first).references ++ (parse .template second).references := by
  intro joined
  have hcomplete := unterminated_eq_none h
  have hcodes := congrArg Segments.codes (segments_append hcomplete hjoin)
  have hjoined : joined.toList = first.toList ++ second.toList := String.toList_append
  rw [hjoined]
  refine ⟨hcodes, segmentErrors_append hcomplete hjoin, ?_⟩
  simp only [parse, hjoined, references_parseTemplate, hcodes, List.flatMap_append]

-- Braces that do not double, and quoted ones, do no harm where texts meet.
theorem template_append_awkward :
    let first := "é\x7b\x7b A.x[\"\x7d\x7d\"] \x7d\x7d\x7b"
    let second := "\x7d \x7b\x7b B \x7d\x7d \x7b\x7b C"
    let joined := first ++ second
    segmentErrors first.toList (segments first.toList) = [] ∧
      ¬ Straddles first.toList second.toList ∧
      (segments joined.toList).codes = [" A.x[\"\x7d\x7d\"] ".toList, " B ".toList] ∧
      segmentErrors joined.toList (segments joined.toList) = [.found .unterminatedSegment 28] ∧
      (parse .template joined).references =
        [⟨⟨"A", [.key "x", .key "\x7d\x7d"]⟩, false⟩, ⟨⟨"B", []⟩, false⟩] := by
  intro first second joined
  have h : segmentErrors first.toList (segments first.toList) = [] := by decide +kernel
  have hjoin : ¬ Straddles first.toList second.toList := fun hs => absurd hs.2 (by decide)
  obtain ⟨hcodes, herrors, hreferences⟩ := template_append h hjoin
  refine ⟨h, hjoin, hcodes.trans (by decide +kernel), herrors.trans (by decide +kernel),
    hreferences.trans (by decide +kernel)⟩

end Following

end Recalc.Binding
