import Recalc.Binding.Reference

namespace Recalc.Binding

inductive Form
  | template
  | code
deriving DecidableEq

structure Parsed where
  references : List Reference
  errors : List SyntaxError
deriving DecidableEq, Inhabited

def Parsed.append (first second : Parsed) : Parsed :=
  ⟨first.references ++ second.references, first.errors ++ second.errors⟩

def parseCode (text : List Char) : Parsed :=
  let lexed := tokenize text
  ⟨referencesOf lexed.tokens, lexed.errors⟩

def segmentErrors (text : List Char) (segments : Segments) : List SyntaxError :=
  match segments.unterminated with
  | some start => [.found .unterminatedSegment (Text.offsetOf text start)]
  | none => []

def parseTemplate (text : List Char) : Parsed :=
  let segments := segments text
  (segments.codes.map parseCode).foldl Parsed.append ⟨[], segmentErrors text segments⟩

def parse (form : Form) (text : String) : Parsed :=
  match form with
  | .template => parseTemplate text.toList
  | .code => parseCode text.toList

end Recalc.Binding
