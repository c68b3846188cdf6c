import Recalc.Proofs.Binding.Indexed.Reference

namespace Recalc.Binding.Indexed

def parseCode (text : List Char) : Except Trap Parsed := do
  let lexed ← tokenize text
  let references ← referencesOf lexed.tokens
  return ⟨references, lexed.errors⟩

def parseTemplate (text : List Char) : Except Trap Parsed := do
  let (codes, errors) ← segments text 0
  codes.foldlM (fun parsed code => return parsed.append (← parseCode code)) ⟨[], errors⟩

def parse (form : Form) (text : String) : Except Trap Parsed :=
  match form with
  | .template => parseTemplate text.toList
  | .code => parseCode text.toList

theorem parseCode_eq (text : List Char) : parseCode text = .ok (Binding.parseCode text) := by
  rw [parseCode, tokenize_eq, ok_bind, referencesOf_eq]
  rfl

theorem parseTemplate_eq (text : List Char) :
    parseTemplate text = .ok (Binding.parseTemplate text) := by
  rw [parseTemplate, segments_eq (Text.at_zero text), ok_bind]
  simp only [parseCode_eq, ok_bind]
  rw [List.foldlM_pure, Binding.parseTemplate, List.foldl_map]
  rfl

-- A reading of a binding's text by places ends without a trap, with what the
-- text holds.
theorem parse_eq_ok (form : Form) (text : String) :
    parse form text = .ok (Binding.parse form text) := by
  cases form with
  | template => exact parseTemplate_eq text.toList
  | code => exact parseCode_eq text.toList

end Recalc.Binding.Indexed
