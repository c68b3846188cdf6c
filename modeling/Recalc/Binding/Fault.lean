namespace Recalc.Binding

inductive Fault
  | unterminatedSegment
  | unterminatedComment
  | unterminatedText
  | unterminatedTemplate
  | unterminatedInterpolation
  | unexpected (bracket : Char)
  | unclosed (bracket : Char)
deriving DecidableEq

-- Offsets count bytes from the start of the code at hand. In a template
-- literal, that is the code of one interpolation.
inductive SyntaxError
  | found (fault : Fault) (offset : Nat)
  | inTemplate (inner : SyntaxError) (offset : Nat)
deriving DecidableEq

def Fault.message : Fault → String
  | .unterminatedSegment => "unterminated `\x7b\x7b`"
  | .unterminatedComment => "unterminated comment"
  | .unterminatedText => "unterminated string literal"
  | .unterminatedTemplate => "unterminated template literal"
  | .unterminatedInterpolation => "unterminated `$\x7b`"
  | .unexpected bracket => "unexpected `" ++ String.singleton bracket ++ "`"
  | .unclosed bracket => "unclosed `" ++ String.singleton bracket ++ "`"

def SyntaxError.message : SyntaxError → String
  | .found fault offset => fault.message ++ " at " ++ toString offset
  | .inTemplate inner offset =>
    inner.message ++ " (in template literal at " ++ toString offset ++ ")"

end Recalc.Binding
