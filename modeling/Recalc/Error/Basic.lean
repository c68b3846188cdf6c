namespace Recalc

inductive ErrorKind
  | bindingSyntax
  | unresolvedReference
  | selfReference
  | cyclicDependency
  | evaluation
deriving DecidableEq

inductive DependencyError
  | bindingSyntax (path message : String)
  | unresolvedReference (path reference : String)
  | selfReference (path : String)
  | cyclicDependency (path : String) (cycle : List String)
  | evaluation (path message : String)
deriving DecidableEq

namespace DependencyError

def path : DependencyError → String
  | .bindingSyntax path _ => path
  | .unresolvedReference path _ => path
  | .selfReference path => path
  | .cyclicDependency path _ => path
  | .evaluation path _ => path

def kind : DependencyError → ErrorKind
  | .bindingSyntax .. => .bindingSyntax
  | .unresolvedReference .. => .unresolvedReference
  | .selfReference .. => .selfReference
  | .cyclicDependency .. => .cyclicDependency
  | .evaluation .. => .evaluation

-- Raised by reading bindings, and not by sorting or evaluation.
def isExtraction (error : DependencyError) : Bool :=
  match error.kind with
  | .bindingSyntax => true
  | .unresolvedReference => true
  | .selfReference => true
  | .cyclicDependency => false
  | .evaluation => false

def quoted (text : String) : String := "`" ++ text ++ "`"

def message : DependencyError → String
  | .bindingSyntax path message => "syntax error in binding at " ++ quoted path ++ ": " ++ message
  | .unresolvedReference path reference =>
    quoted path ++ " references " ++ quoted reference ++ ", which does not resolve to any entity"
  | .selfReference path => quoted path ++ " cannot depend on itself"
  | .cyclicDependency path cycle =>
    "cyclic dependency at " ++ quoted path ++ ": " ++ String.intercalate " -> " cycle
  | .evaluation path message => "evaluation error at " ++ quoted path ++ ": " ++ message

end DependencyError

end Recalc
