import Recalc.Text.Bytes

namespace Recalc.Binding

def isQuote (c : Char) : Bool := c == '"' || c == '\'' || c == '`'

def keep (c : Char) : Option (List Char × List Char) → Option (List Char × List Char)
  | some (code, after) => some (c :: code, after)
  | none => none

-- The code before the brace that closes it and the text after that brace,
-- which has to be doubled if so asked. Quoted text hides braces, and in it a
-- backslash hides the next character.
def splitClose (doubled : Bool) (quote : Option Char) (depth : Nat) :
    List Char → Option (List Char × List Char)
  | [] => none
  | c :: rest =>
    match quote with
    | some q =>
      if c = '\\' then
        match rest with
        | [] => none
        | d :: rest => keep c (keep d (splitClose doubled quote depth rest))
      else keep c (splitClose doubled (if c = q then none else quote) depth rest)
    | none =>
      if isQuote c then keep c (splitClose doubled (some c) depth rest)
      else if c = '\x7b' then keep c (splitClose doubled none (depth + 1) rest)
      else if c = '\x7d' then
        match depth with
        | depth + 1 => keep c (splitClose doubled none depth rest)
        | 0 =>
          if !doubled then some ([], rest)
          else if rest.head? = some '\x7d' then some ([], rest.tail)
          else keep c (splitClose doubled none 0 rest)
      else keep c (splitClose doubled none depth rest)

theorem keep_eq_some {c : Char} {split : Option (List Char × List Char)} {code after : List Char}
    (h : keep c split = some (code, after)) :
    ∃ inner, code = c :: inner ∧ split = some (inner, after) := by
  cases split with
  | none => cases h
  | some pair =>
      cases h
      exact ⟨pair.1, rfl, rfl⟩

theorem keep_length {c : Char} {split : Option (List Char × List Char)} {code after : List Char}
    {bound : Nat} (h : keep c split = some (code, after))
    (hsplit : ∀ {inner}, split = some (inner, after) → inner.length + after.length < bound) :
    code.length + after.length < bound + 1 := by
  obtain ⟨inner, rfl, he⟩ := keep_eq_some h
  have := hsplit he
  simp only [List.length_cons]
  omega

theorem splitClose_length {doubled : Bool} {quote : Option Char} {depth : Nat}
    {text code after : List Char} (h : splitClose doubled quote depth text = some (code, after)) :
    code.length + after.length < text.length := by
  fun_induction splitClose doubled quote depth text generalizing code after with
  | case1 => cases h
  | case2 => cases h
  | case3 depth q d rest ih => exact keep_length h fun hrest => keep_length hrest ih
  | case4 depth c rest q _ ih => exact keep_length h ih
  | case5 depth c rest _ ih => exact keep_length h ih
  | case6 depth rest _ ih => exact keep_length h ih
  | case7 rest depth _ _ ih => exact keep_length h ih
  | case8 =>
      cases h
      simp only [List.length_cons, List.length_nil]
      omega
  | case9 =>
      cases h
      simp only [List.length_tail, List.length_cons, List.length_nil]
      omega
  | case10 _ _ _ _ _ ih => exact keep_length h ih
  | case11 depth c rest _ _ _ ih => exact keep_length h ih

-- The text up to the first doubled opening brace and the text after it.
def splitOpen : List Char → Option (List Char × List Char)
  | '\x7b' :: '\x7b' :: rest => some ([], rest)
  | c :: rest => keep c (splitOpen rest)
  | [] => none

theorem splitOpen_length {text before after : List Char}
    (h : splitOpen text = some (before, after)) : before.length + after.length < text.length := by
  fun_induction splitOpen text generalizing before after with
  | case1 rest =>
      cases h
      simp only [List.length_cons, List.length_nil]
      omega
  | case2 c rest _ ih => exact keep_length h ih
  | case3 => cases h

-- The codes of a template in order, and the text from the opening braces of
-- a segment that never ends.
structure Segments where
  codes : List (List Char)
  unterminated : Option (List Char)
deriving DecidableEq

def segments (text : List Char) : Segments :=
  match _hopen : splitOpen text with
  | none => ⟨[], none⟩
  | some (_, body) =>
    match _hclose : splitClose true none 0 body with
    | none => ⟨[], some ('\x7b' :: '\x7b' :: body)⟩
    | some (code, rest) =>
      let later := segments rest
      ⟨code :: later.codes, later.unterminated⟩
termination_by text.length
decreasing_by
  have := splitOpen_length _hopen
  have := splitClose_length _hclose
  omega

end Recalc.Binding
