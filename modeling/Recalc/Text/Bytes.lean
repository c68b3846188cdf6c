namespace Recalc.Text

def bytes : List Char → Nat
  | [] => 0
  | c :: rest => c.utf8Size + bytes rest

@[simp] theorem bytes_nil : bytes [] = 0 := rfl

@[simp] theorem bytes_cons (c : Char) (rest : List Char) :
    bytes (c :: rest) = c.utf8Size + bytes rest := rfl

@[simp] theorem bytes_append (first second : List Char) :
    bytes (first ++ second) = bytes first + bytes second := by
  induction first with
  | nil => simp
  | cons c rest ih => simp [ih, Nat.add_assoc]

-- Where a suffix of a text begins, in bytes of UTF-8.
def offsetOf (text suffix : List Char) : Nat :=
  bytes text - bytes suffix

theorem offsetOf_append (before suffix : List Char) :
    offsetOf (before ++ suffix) suffix = bytes before := by
  simp [offsetOf]

end Recalc.Text
