import Recalc.Binding.Parsed
import Recalc.Config
import Recalc.Error.Basic
import Recalc.Path.Printer

namespace Recalc.Binding

structure Dependencies where
  references : OrderedSet Path
  errors : List DependencyError
deriving DecidableEq

def Dependencies.empty : Dependencies := ⟨∅, []⟩

instance : EmptyCollection Dependencies := ⟨.empty⟩

instance : Inhabited Dependencies := ⟨.empty⟩

-- The longest known prefix among those with at most the given depth.
def knownPrefix (known : Path → Bool) (chain : Path) : Nat → Option Path
  | 0 => if known (chain.truncate 0) then some (chain.truncate 0) else none
  | depth + 1 =>
    if known (chain.truncate (depth + 1)) then some (chain.truncate (depth + 1))
    else knownPrefix known chain depth

-- What stands for a chain without a known prefix.
def Reference.verbatim (reference : Reference) : Path :=
  if reference.called && 0 < reference.chain.depth then
    reference.chain.truncate (reference.chain.depth - 1)
  else reference.chain

-- The path that a chain reads, if any, and whether it is an unresolved one.
def chosen (config : Config) (known : Path → Bool) (reference : Reference) : Option (Path × Bool) :=
  match knownPrefix known reference.chain reference.chain.depth with
  | some path => some (path, false)
  | none =>
    if config.isIgnoredGlobal reference.chain.entity then none
    else some (reference.verbatim, true)

def isSelfReference : DependencyError → Bool
  | .selfReference _ => true
  | _ => false

def addReference (config : Config) (known : Path → Bool) (path : Path) (found : Dependencies)
    (reference : Reference) : Dependencies :=
  match chosen config known reference with
  | none => found
  | some (target, unresolved) =>
    let errors :=
      if unresolved && config.reportUnresolved then
        found.errors ++ [.unresolvedReference path.render target.render]
      else found.errors
    if target = path then
      if errors.any isSelfReference then ⟨found.references, errors⟩
      else ⟨found.references, errors ++ [.selfReference path.render]⟩
    else ⟨found.references.insert target, errors⟩

def resolve (config : Config) (known : Path → Bool) (path : Path) (parsed : Parsed) :
    Dependencies :=
  let errors := parsed.errors.map fun error =>
    DependencyError.bindingSyntax path.render error.message
  parsed.references.foldl (addReference config known path) ⟨∅, errors⟩

end Recalc.Binding
