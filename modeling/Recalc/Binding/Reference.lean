import Recalc.Binding.Token
import Recalc.Path.Basic

namespace Recalc.Binding

structure Reference where
  chain : Path
  called : Bool
deriving DecidableEq

def keywords : List String :=
  ["arguments", "async", "await", "break", "case", "catch", "class", "const", "continue",
    "debugger", "default", "delete", "do", "else", "export", "extends", "false", "finally", "for",
    "function", "if", "import", "in", "instanceof", "let", "new", "null", "of", "return", "super",
    "switch", "this", "throw", "true", "try", "typeof", "undefined", "var", "void", "while", "with",
    "yield"]

def isKeyword (name : String) : Bool := keywords.contains name

def declares (name : String) : Bool :=
  ["let", "const", "var", "function", "class"].contains name

def isMarkOf (marks : List Char) : Token → Bool
  | .mark c => marks.contains c
  | _ => false

-- A name binds between these neighbours in a list of parameters or a pattern.
def bindsAfter (previous : Token) : Bool :=
  isMarkOf ['(', '\x7b', '[', ',', ':'] previous || previous == .spread

def bindsBefore (next : Option Token) : Bool :=
  next.any (isMarkOf [')', '\x7d', ']', ',', '=', ':'])

-- The names bound inside an open bracket. The depth counts the brackets
-- opened since.
def namesInside (previous : Token) (depth : Nat) : List Token → List String
  | [] => []
  | .mark c :: rest =>
    if isOpening c then namesInside (.mark c) (depth + 1) rest
    else if isClosing c then
      match depth with
      | 0 => []
      | depth + 1 => namesInside (.mark c) depth rest
    else namesInside (.mark c) depth rest
  | .ident name :: rest =>
    let later := namesInside (.ident name) depth rest
    if bindsAfter previous && bindsBefore rest.head? && !isKeyword name then name :: later
    else later
  | token :: rest => namesInside token depth rest

def groupNames : List Token → List String
  | .mark c :: rest => if isOpening c then namesInside (.mark c) 0 rest else []
  | _ => []

-- Backs up from a closing parenthesis to the one that opens it. Gives the
-- tokens before it, the nearest first, and the tokens that begin with it.
def backToOpen (depth : Nat) (later : List Token) :
    List Token → Option (List Token × List Token)
  | [] => none
  | .mark ')' :: earlier => backToOpen (depth + 1) (.mark ')' :: later) earlier
  | .mark '(' :: earlier =>
    match depth with
    | 0 => some (earlier, .mark '(' :: later)
    | depth + 1 => backToOpen depth (.mark '(' :: later) earlier
  | token :: earlier => backToOpen depth (token :: later) earlier

-- The tokens after the parenthesis that closes an open one.
def afterClose (depth : Nat) : List Token → Option (List Token)
  | [] => none
  | .mark '(' :: rest => afterClose (depth + 1) rest
  | .mark ')' :: rest =>
    match depth with
    | 0 => some rest
    | depth + 1 => afterClose depth rest
  | _ :: rest => afterClose depth rest

def isName : Option Token → Bool
  | some (.ident name) => !isKeyword name
  | _ => false

-- The names that a token introduces, given the tokens before it, the nearest
-- first, and the tokens after it.
def introduced (before : List Token) (token : Token) (rest : List Token) : List String :=
  match token with
  | .ident word =>
    if declares word then
      match rest with
      | .ident name :: after => name :: if word = "function" then groupNames after else []
      | _ => groupNames rest
    else if word = "catch" then groupNames rest
    else []
  | .arrow =>
    match before with
    | .ident name :: _ => [name]
    | .mark ')' :: earlier =>
      match backToOpen 0 (.mark ')' :: token :: rest) earlier with
      | some (_, group) => groupNames group
      | none => []
    | _ => []
  | .mark ')' =>
    if rest.head? = some (.mark '\x7b') then
      match backToOpen 0 (token :: rest) before with
      | some (earlier, group) => if isName earlier.head? then groupNames group else []
      | none => []
    else []
  | _ => []

-- The names bound anywhere in the code. They count as bound everywhere in it,
-- since scopes are not followed.
def localNames (before : List Token) : List Token → List String
  | [] => []
  | token :: rest => introduced before token rest ++ localNames (token :: before) rest

-- Follows accessors from the root of a chain. Gives the chain and the tokens
-- after it.
def follow (chain : Path) : List Token → Path × List Token
  | .mark '.' :: .ident key :: rest => follow (chain.childKey key) rest
  | .optionalDot :: .ident key :: rest => follow (chain.childKey key) rest
  | .mark '[' :: .str key :: .mark ']' :: rest => follow (chain.childKey key) rest
  | .mark '[' :: .number digits :: .mark ']' :: rest =>
    if digits.toList.all Char.isDigit then follow (chain.childKey digits) rest
    else (chain, .mark '[' :: .number digits :: .mark ']' :: rest)
  | rest => (chain, rest)

-- A name before parentheses that a block follows is a method's, if it stands
-- where a member of an object may.
def namesMethod (previous : Option Token) : List Token → Bool
  | .mark '(' :: rest =>
    (previous.any fun token => isMarkOf ['\x7b', ','] token || token == .ident "async") &&
      ((afterClose 0 rest).any fun after => after.head? = some (.mark '\x7b'))
  | _ => false

def namesMember (previous : Option Token) (rest : List Token) : Bool :=
  rest.head? = some (.mark ':') && previous.any (isMarkOf ['\x7b', ','])

def isAccess (previous : Option Token) : Bool :=
  previous.any fun token => token == .mark '.' || token == .optionalDot

def isReference (names : List String) (previous : Option Token) (name : String)
    (rest : List Token) : Bool :=
  !(isKeyword name || names.contains name || isAccess previous || namesMember previous rest ||
    namesMethod previous rest)

def readReference (name : String) (rest : List Token) : Reference :=
  let (chain, after) := follow (Path.ofEntity name) rest
  ⟨chain, decide (after.head? = some (.mark '('))⟩

def references (names : List String) (previous : Option Token) : List Token → List Reference
  | [] => []
  | .ident name :: rest =>
    let later := references names (some (.ident name)) rest
    if isReference names previous name rest then readReference name rest :: later else later
  | token :: rest => references names (some token) rest

def referencesOf (tokens : List Token) : List Reference :=
  references (localNames [] tokens) none tokens

end Recalc.Binding
