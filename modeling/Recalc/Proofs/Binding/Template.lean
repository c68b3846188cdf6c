import Recalc.Binding.Parsed
import Recalc.Proofs.Path.Spelling

namespace Recalc.Binding

variable {text first second code after : List Char}

-- The search for a closing brace goes on behind the text as it was before it.
def Passes (text : List Char) : Prop :=
  ∀ doubled depth rest, splitClose doubled none depth (text ++ rest) =
    text.foldr keep (splitClose doubled none depth rest)

def isBrace (c : Char) : Bool := c == '\x7b' || c == '\x7d'

theorem foldr_keep (text code after : List Char) :
    text.foldr keep (some (code, after)) = some (text ++ code, after) := by
  induction text with
  | nil => rfl
  | cons c rest ih =>
      rw [List.foldr_cons, ih]
      rfl

theorem foldr_keep_none (text : List Char) : text.foldr keep none = none := by
  induction text with
  | nil => rfl
  | cons c rest ih =>
      rw [List.foldr_cons, ih]
      rfl

theorem plain_of_continues {c : Char} (h : Text.continuesIdentifier c = true) :
    isQuote c = false ∧ isBrace c = false := by
  simp (disch := decide) [isQuote, isBrace, Text.ne_of_continues h]

namespace Passes

theorem append (h : Passes first) (k : Passes second) : Passes (first ++ second) := by
  intro doubled depth rest
  rw [List.append_assoc, h, k, List.foldr_append]

theorem of_plain (h : ∀ c ∈ text, isQuote c = false ∧ isBrace c = false) : Passes text := by
  intro doubled depth rest
  induction text with
  | nil => rfl
  | cons c text ih =>
      obtain ⟨⟨hquote, hbrace⟩, htext⟩ := List.forall_mem_cons.mp h
      obtain ⟨hopen, hclose⟩ : c ≠ '\x7b' ∧ c ≠ '\x7d' := by
        constructor <;> (rintro rfl; revert hbrace; decide)
      rw [List.cons_append, splitClose.eq_def, List.foldr_cons]
      dsimp only
      rw [if_neg (by simp [hquote]), if_neg hopen, if_neg hclose, ih htext]

end Passes

-- A backslash is the last character of a text or hides another one.
theorem ne_backslash {c : Char} {rest : List Char} (hlast : c = '\\' → rest = [] → False)
    (hinner : ∀ d tail, c = '\\' → rest = d :: tail → False) : c ≠ '\\' := by
  intro hc
  cases rest with
  | nil => exact hlast hc rfl
  | cons d tail => exact hinner d tail hc rfl

-- A quoted text ends at its own quote, whatever is in it.
theorem splitClose_quoted {quote : Char} {name : List Char}
    (h : Path.quotedName quote text = some (name, after)) :
    ∃ inside, text = inside ++ after ∧ ∀ doubled depth rest,
      splitClose doubled (some quote) depth (inside ++ rest) =
        inside.foldr keep (splitClose doubled none depth rest) := by
  fun_induction Path.quotedName quote text generalizing name after with
  | case1 => cases h
  | case2 => cases h
  | case3 c rest ih =>
      obtain ⟨⟨name, after'⟩, hrest, he⟩ := Option.map_eq_some_iff.mp h
      cases he
      obtain ⟨inside, rfl, hinside⟩ := ih hrest
      refine ⟨'\\' :: c :: inside, rfl, fun doubled depth rest => ?_⟩
      rw [List.cons_append, List.cons_append, splitClose.eq_def]
      dsimp only
      rw [if_pos rfl, hinside]
      rfl
  | case4 rest hslash hescape =>
      cases h
      have hne : quote ≠ '\\' := ne_backslash hslash hescape
      refine ⟨[quote], rfl, fun doubled depth rest => ?_⟩
      rw [List.cons_append, splitClose.eq_def]
      dsimp only
      rw [if_neg hne, if_pos rfl]
      rfl
  | case5 c rest hslash hescape hquote ih =>
      obtain ⟨⟨name, after'⟩, hrest, he⟩ := Option.map_eq_some_iff.mp h
      cases he
      have hne : c ≠ '\\' := ne_backslash hslash hescape
      obtain ⟨inside, rfl, hinside⟩ := ih hrest
      refine ⟨c :: inside, rfl, fun doubled depth rest => ?_⟩
      rw [List.cons_append, splitClose.eq_def]
      dsimp only
      rw [if_neg hne, if_neg hquote, hinside]
      rfl

theorem Passes.of_quoted {quote : Char} {name : List Char} (hquote : isQuote quote = true)
    (h : Path.quotedName quote text = some (name, after)) :
    ∃ inside, text = inside ++ after ∧ Passes (quote :: inside) := by
  obtain ⟨inside, htext, hinside⟩ := splitClose_quoted h
  refine ⟨inside, htext, fun doubled depth rest => ?_⟩
  rw [List.cons_append, splitClose.eq_def]
  dsimp only
  rw [if_pos hquote, hinside]
  rfl

theorem Passes.quoted (name : List Char) : Passes ('"' :: (Segment.escaped name ++ ['"'])) := by
  obtain ⟨inside, htext, hpasses⟩ :=
    Passes.of_quoted (by decide) (Path.quotedName_escaped name [])
  rwa [htext, List.append_nil]

-- A template of one segment.
def inBraces (code : List Char) : List Char :=
  '\x7b' :: '\x7b' :: (code ++ ['\x7d', '\x7d'])

theorem Passes.splitClose (h : Passes code) :
    splitClose true none 0 (code ++ ['\x7d', '\x7d']) = some (code, []) := by
  have hclose : Binding.splitClose true none 0 ['\x7d', '\x7d'] = some ([], []) := by decide
  rw [h, hclose, foldr_keep, List.append_nil]

theorem segments_of_text (h : splitOpen text = none) : segments text = ⟨[], none⟩ := by
  rw [segments]
  split
  · rfl
  · next he => cases h.symm.trans he

-- A template goes on behind its first segment.
theorem segments_of_segment {before body rest : List Char}
    (hopen : splitOpen text = some (before, body))
    (hclose : splitClose true none 0 body = some (code, rest)) :
    segments text = ⟨code :: (segments rest).codes, (segments rest).unterminated⟩ := by
  rw [segments]
  split
  · next he => cases hopen.symm.trans he
  · next he =>
    cases hopen.symm.trans he
    split
    · next he => cases hclose.symm.trans he
    · next he =>
      cases hclose.symm.trans he
      rfl

-- A segment without an end is the last thing found.
theorem segments_of_open {before body : List Char} (hopen : splitOpen text = some (before, body))
    (hclose : splitClose true none 0 body = none) :
    segments text = ⟨[], some ('\x7b' :: '\x7b' :: body)⟩ := by
  rw [segments]
  split
  · next he => cases hopen.symm.trans he
  · next he =>
    cases hopen.symm.trans he
    split
    · rfl
    · next he => cases hclose.symm.trans he

theorem Passes.segments (h : Passes code) : segments (inBraces code) = ⟨[code], none⟩ := by
  have hopen : splitOpen (inBraces code) = some ([], code ++ ['\x7d', '\x7d']) := by
    rw [inBraces, splitOpen]
  rw [segments_of_segment hopen h.splitClose, segments_of_text (by rfl)]

-- Code that a segment does not end in reads there as on its own.
theorem Passes.parseTemplate (h : Passes code) :
    parseTemplate (inBraces code) = parseCode code := by
  rw [Binding.parseTemplate, h.segments]
  simp [segmentErrors, Parsed.append]

end Recalc.Binding
