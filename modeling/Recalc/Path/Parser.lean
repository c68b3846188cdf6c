import Recalc.Path.Printer
import Recalc.Text.Blank
import Recalc.Text.Bytes

namespace Recalc

inductive PathFault
  | missingEntity
  | emptySegment
  | unterminatedName
  | expectedClose
  | unterminatedBracket
  | emptyBrackets
  | expectedAccessor
deriving DecidableEq

inductive PathError
  | empty
  | malformed (text : String) (fault : PathFault) (offset : Nat)
deriving DecidableEq

def PathFault.message : PathFault → String
  | .missingEntity => "missing entity name"
  | .emptySegment => "empty segment"
  | .unterminatedName => "unterminated string key"
  | .expectedClose => "expected `]`"
  | .unterminatedBracket => "unterminated `[`"
  | .emptyBrackets => "empty brackets"
  | .expectedAccessor => "expected `.` or `[`"

def PathError.message : PathError → String
  | .empty => "property path is empty"
  | .malformed text fault offset =>
    "invalid property path `" ++ text ++ "`: " ++ fault.message ++ " at byte " ++ toString offset

namespace Path

-- The name inside quotes and the text after the closing quote. A backslash
-- takes the next character as it is.
def quotedName (quote : Char) : List Char → Option (List Char × List Char)
  | [] => none
  | '\\' :: [] => none
  | '\\' :: c :: rest => (quotedName quote rest).map fun (name, rest) => (c :: name, rest)
  | c :: rest =>
    if c = quote then some ([], rest)
    else (quotedName quote rest).map fun (name, rest) => (c :: name, rest)

-- The text before a closing bracket and the text after it.
def bareName : List Char → Option (List Char × List Char)
  | [] => none
  | c :: rest =>
    if c = ']' then some ([], rest)
    else (bareName rest).map fun (name, rest) => (c :: name, rest)

-- One accessor and the text after it, or the fault and the text it stands at.
def accessor (text : List Char) : Except (PathFault × List Char) (Segment × List Char) :=
  match text with
  | '.' :: rest =>
    let (name, after) := splitEntity rest
    if name.isEmpty then .error (.emptySegment, rest)
    else .ok (.ofName (String.ofList name), after)
  | '[' :: rest =>
    match rest with
    | [] => .error (.unterminatedBracket, text)
    | quote :: quoted =>
      if quote = '"' ∨ quote = '\'' then
        match quotedName quote quoted with
        | none => .error (.unterminatedName, rest)
        | some (name, ']' :: after) => .ok (.ofName (String.ofList name), after)
        | some (_, after) => .error (.expectedClose, after)
      else
        match bareName rest with
        | none => .error (.unterminatedBracket, text)
        | some ([], _) => .error (.emptyBrackets, text)
        | some (name, after) => .ok (.ofName (String.ofList (Text.trim name)), after)
  | _ => .error (.expectedAccessor, text)

theorem quotedName_length {quote : Char} {text name after : List Char}
    (h : quotedName quote text = some (name, after)) : after.length < text.length := by
  fun_induction quotedName quote text generalizing name after with
  | case1 => cases h
  | case2 => cases h
  | case3 c rest ih =>
      obtain ⟨⟨name', after'⟩, hq, he⟩ := Option.map_eq_some_iff.mp h
      cases he
      have := ih hq
      simp only [List.length_cons]
      omega
  | case4 rest =>
      cases h
      simp
  | case5 c rest _ _ hne ih =>
      obtain ⟨⟨name', after'⟩, hq, he⟩ := Option.map_eq_some_iff.mp h
      cases he
      have := ih hq
      simp only [List.length_cons]
      omega

theorem bareName_length {text name after : List Char}
    (h : bareName text = some (name, after)) : after.length < text.length := by
  fun_induction bareName text generalizing name after with
  | case1 => cases h
  | case2 rest =>
      cases h
      simp
  | case3 c rest hne ih =>
      obtain ⟨⟨name', after'⟩, hq, he⟩ := Option.map_eq_some_iff.mp h
      cases he
      have := ih hq
      simp only [List.length_cons]
      omega

theorem splitEntity_length (text : List Char) : (splitEntity text).2.length ≤ text.length :=
  (List.dropWhile_suffix _).length_le

theorem accessor_length {text after : List Char} {segment : Segment}
    (h : accessor text = .ok (segment, after)) : after.length < text.length := by
  unfold accessor at h
  split at h
  · next rest =>
    simp only at h
    split at h
    · cases h
    · cases h
      have := splitEntity_length rest
      simp only [List.length_cons]
      omega
  · split at h
    · cases h
    · next quote quoted =>
      split at h
      · split at h
        · cases h
        · next name after' hq =>
          cases h
          have := quotedName_length hq
          simp only [List.length_cons] at this ⊢
          omega
        · cases h
      · split at h
        · cases h
        · cases h
        · next name after' hne hb =>
          cases h
          have := bareName_length hb
          simp only [List.length_cons] at this ⊢
          omega
  · cases h

-- Accessors up to the end of the text.
def accessors (text : List Char) : Except (PathFault × List Char) (List Segment) :=
  if text.isEmpty then .ok []
  else
    match _hstep : accessor text with
    | .error fault => .error fault
    | .ok (segment, after) => (accessors after).map (segment :: ·)
termination_by text.length
decreasing_by exact accessor_length _hstep

def parse (text : String) : Except PathError Path :=
  let chars := text.toList
  let (entity, rest) := splitEntity chars
  if chars.isEmpty then .error .empty
  else if entity.isEmpty then .error (.malformed text .missingEntity 0)
  else
    match accessors rest with
    | .ok segments => .ok ⟨String.ofList entity, segments⟩
    | .error (fault, suffix) => .error (.malformed text fault (Text.offsetOf chars suffix))

-- What stays of a malformed path: its entity and, below it, the rest without
-- the dots it begins with, as one name.
def asOneName (text : String) : Path :=
  let (entity, rest) := splitEntity text.toList
  let name := rest.dropWhile (· == '.')
  ⟨String.ofList entity, if name.isEmpty then [] else [.key (String.ofList name)]⟩

def parseLenient (text : String) : Path :=
  match parse text with
  | .ok path => path
  | .error _ => asOneName text

def ofRelative (entity relative : String) : Path :=
  match relative.toList with
  | [] => ofEntity entity
  | '[' :: _ => parseLenient (entity ++ relative)
  | _ => parseLenient (entity ++ "." ++ relative)

def canonicalize (text : String) : String := (parseLenient text).render

end Path

end Recalc
