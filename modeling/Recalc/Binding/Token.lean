import Recalc.Binding.Fault
import Recalc.Binding.Segment
import Recalc.Text.Identifier

namespace Recalc.Binding

-- Just enough of the language to follow member accesses. Regular expressions
-- are not recognised.
inductive Token
  | ident (name : String)
  | number (digits : String)
  | str (value : String)
  | mark (c : Char)
  | arrow
  | spread
  | optionalDot
deriving DecidableEq

-- A piece of code together with the text that begins with it.
inductive Lexeme
  | token (token : Token) (start : List Char)
  | fault (fault : Fault) (start : List Char)
  | interpolation (code : List Char) (inner : List Lexeme) (start : List Char)

def isCodeSpace (c : Char) : Bool :=
  c == ' ' || c == '\t' || c == '\n' || c == '\x0C' || c == '\r'

def continuesNumber (c : Char) : Bool := c.isAlphanum || c == '.' || c == '_'

-- The text after a line comment's end.
def afterLine : List Char → List Char
  | [] => []
  | c :: rest => if c = '\n' then rest else afterLine rest

-- The text after a block comment's end.
def afterBlock : List Char → Option (List Char)
  | '*' :: '/' :: rest => some rest
  | _ :: rest => afterBlock rest
  | [] => none

-- The text inside quotes and the text after the closing quote. A line must
-- not end inside; a backslash takes the next character as it is.
def quotedText (quote : Char) : List Char → Option (List Char × List Char)
  | [] => none
  | '\\' :: [] => none
  | '\\' :: c :: rest => keep c (quotedText quote rest)
  | c :: rest =>
    if c = '\n' then none
    else if c = quote then some ([], rest)
    else keep c (quotedText quote rest)

theorem afterLine_length (text : List Char) : (afterLine text).length ≤ text.length := by
  fun_induction afterLine text with
  | case1 => exact Nat.le_refl _
  | case2 rest => exact Nat.le_succ _
  | case3 c rest _ ih => exact Nat.le_succ_of_le ih

theorem afterBlock_length {text after : List Char} (h : afterBlock text = some after) :
    after.length < text.length := by
  fun_induction afterBlock text with
  | case1 rest =>
      cases h
      simp only [List.length_cons]
      omega
  | case2 c rest _ ih => exact Nat.lt_succ_of_lt (ih h)
  | case3 => cases h

theorem quotedText_length {quote : Char} {text value after : List Char}
    (h : quotedText quote text = some (value, after)) :
    value.length + after.length < text.length := by
  fun_induction quotedText quote text generalizing value after with
  | case1 => cases h
  | case2 => cases h
  | case3 c rest ih => exact Nat.lt_succ_of_lt (keep_length h ih)
  | case4 => cases h
  | case5 rest =>
      cases h
      simp only [List.length_cons, List.length_nil]
      omega
  | case6 c rest _ _ _ _ ih => exact keep_length h ih

-- What one step of the lexer finds at the head of a text.
inductive Step
  | skip (after : List Char)
  | token (token : Token) (after : List Char)
  | fail (fault : Fault)
  | template (literal : List Char)

def startsNumber : List Char → Bool
  | c :: rest => c.isDigit || (c == '.' && (rest.head?.any Char.isDigit))
  | [] => false

-- `?.` before a digit is a condition and a fraction, not an access.
def markStep (c : Char) (rest : List Char) : Step :=
  match c, rest with
  | '.', '.' :: '.' :: after => .token .spread after
  | '=', '>' :: after => .token .arrow after
  | '?', '.' :: after => if after.head?.any Char.isDigit then .token (.mark '?') rest
    else .token .optionalDot after
  | _, _ => .token (.mark c) rest

def step (c : Char) (rest : List Char) : Step :=
  if isCodeSpace c then .skip rest
  else if c = '/' ∧ rest.head? = some '/' then .skip (afterLine rest)
  else if c = '/' ∧ rest.head? = some '*' then
    match afterBlock rest.tail with
    | some after => .skip after
    | none => .fail .unterminatedComment
  else if c = '"' ∨ c = '\'' then
    match quotedText c rest with
    | some (value, after) => .token (.str (String.ofList value)) after
    | none => .fail .unterminatedText
  else if c = '\x60' then .template rest
  else if Text.startsIdentifier c then
    .token (.ident (String.ofList (c :: rest.takeWhile Text.continuesIdentifier)))
      (rest.dropWhile Text.continuesIdentifier)
  else if startsNumber (c :: rest) then
    .token (.number (String.ofList (c :: rest.takeWhile continuesNumber)))
      (rest.dropWhile continuesNumber)
  else markStep c rest

def Step.rest : Step → List Char
  | .skip after => after
  | .token _ after => after
  | .fail _ => []
  | .template literal => literal

theorem dropWhile_length {α : Type} (p : α → Bool) (xs : List α) :
    (xs.dropWhile p).length ≤ xs.length := (List.dropWhile_suffix p).length_le

theorem markStep_rest_length (c : Char) (rest : List Char) :
    (markStep c rest).rest.length ≤ rest.length := by
  unfold markStep
  split <;> try split
  all_goals simp [Step.rest] <;> omega

theorem step_rest_length (c : Char) (rest : List Char) :
    (step c rest).rest.length ≤ rest.length := by
  unfold step
  split
  · simp [Step.rest]
  · split
    · exact afterLine_length rest
    · split
      · split
        · next after h =>
          have := afterBlock_length h
          simp only [List.length_tail] at this
          simp only [Step.rest]
          omega
        · simp [Step.rest]
      · split
        · split
          · next h =>
            have := quotedText_length h
            simp only [Step.rest]
            omega
          · simp [Step.rest]
        · split
          · simp [Step.rest]
          · split
            · exact dropWhile_length _ _
            · split
              · exact dropWhile_length _ _
              · exact markStep_rest_length c rest

mutual

def lexemes : List Char → List Lexeme
  | [] => []
  | c :: rest =>
    match _hstep : step c rest with
    | .skip after => lexemes after
    | .token token after => .token token (c :: rest) :: lexemes after
    | .fail fault => [.fault fault (c :: rest)]
    | .template literal => templateLexemes (c :: rest) literal
termination_by text => text.length
decreasing_by
  all_goals
    have := step_rest_length c rest
    rw [_hstep] at this
    simp only [Step.rest, List.length_cons] at this ⊢
    omega

-- The rest of a template literal that began with the first text, and the
-- code after it.
def templateLexemes (start : List Char) : List Char → List Lexeme
  | [] => [.fault .unterminatedTemplate start]
  | '\\' :: [] => [.fault .unterminatedTemplate start]
  | '\\' :: _ :: rest => templateLexemes start rest
  | '\x60' :: rest => lexemes rest
  | '$' :: '\x7b' :: rest =>
    match _hclose : splitClose false none 0 rest with
    | some (code, after) =>
      .interpolation code (lexemes code) start :: templateLexemes start after
    | none => [.fault .unterminatedInterpolation ('$' :: '\x7b' :: rest)]
  | _ :: rest => templateLexemes start rest
termination_by text => text.length
decreasing_by
  all_goals
    simp only [List.length_cons]
    try have := splitClose_length _hclose
    omega

end

structure Lexed where
  tokens : List Token
  errors : List SyntaxError
deriving DecidableEq

def isOpening (c : Char) : Bool := c == '(' || c == '[' || c == '\x7b'

def isClosing (c : Char) : Bool := c == ')' || c == ']' || c == '\x7d'

def opening : Char → Char
  | ')' => '('
  | ']' => '['
  | _ => '\x7b'

-- The brackets open after a token: an opening one is put on top, a closing
-- one takes its partner off, and one without a partner on top is an error.
def nest (text : List Char) (brackets : List (Char × List Char)) (token : Token)
    (start : List Char) : List (Char × List Char) × List SyntaxError :=
  match token with
  | .mark c =>
    if isOpening c then ((c, start) :: brackets, [])
    else if isClosing c then
      let refused := (brackets, [.found (.unexpected c) (Text.offsetOf text start)])
      match brackets with
      | (bracket, _) :: others => if bracket = opening c then (others, []) else refused
      | [] => refused
    else (brackets, [])
  | _ => (brackets, [])

mutual

-- The tokens of lexemes, with the errors in the order in which they show.
-- Brackets that stay open are reported last, the outermost first.
def settle (text : List Char) (brackets : List (Char × List Char)) : List Lexeme → Lexed
  | [] => ⟨[], brackets.reverse.map fun bracket =>
      .found (.unclosed bracket.1) (Text.offsetOf text bracket.2)⟩
  | .token token start :: rest =>
    let (brackets, errors) := nest text brackets token start
    let later := settle text brackets rest
    ⟨token :: later.tokens, errors ++ later.errors⟩
  | .fault fault start :: rest =>
    let later := settle text brackets rest
    ⟨later.tokens, .found fault (Text.offsetOf text start) :: later.errors⟩
  | .interpolation code inner start :: rest =>
    let inner := settleInner (.interpolation code inner start)
    let later := settle text brackets rest
    ⟨.mark ';' :: (inner.tokens ++ .mark ';' :: later.tokens),
      inner.errors.map (.inTemplate · (Text.offsetOf text start)) ++ later.errors⟩

-- An interpolation has brackets of its own.
def settleInner : Lexeme → Lexed
  | .interpolation code inner _ => settle code [] inner
  | .token _ _ => ⟨[], []⟩
  | .fault _ _ => ⟨[], []⟩

end

def tokenize (text : List Char) : Lexed := settle text [] (lexemes text)

end Recalc.Binding
