import Recalc.Binding.Parsed

namespace Recalc

inductive Kind
  | widget
  | action
  | jsObject
  | other
deriving DecidableEq

structure Capabilities where
  -- Takes part in the graph. Entities of other kinds can only be read.
  reactive : Bool
  exposesSetters : Bool
  scansTriggers : Bool
  -- How binding texts are written, if any are scanned.
  form : Option Binding.Form
deriving DecidableEq

namespace Kind

def all : List Kind := [.widget, .action, .jsObject, .other]

theorem mem_all (kind : Kind) : kind ∈ all := by cases kind <;> decide

def capabilities : Kind → Capabilities
  | .widget => ⟨true, true, true, some .template⟩
  | .action => ⟨true, false, true, some .template⟩
  | .jsObject => ⟨true, false, false, some .code⟩
  | .other => ⟨false, false, false, none⟩

def reactive (kind : Kind) : Bool := kind.capabilities.reactive

end Kind

end Recalc
