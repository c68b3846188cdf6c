import Std.Data.TreeMap

namespace Recalc

variable {α β : Type} [Ord α]

theorem values_eq_map_toList (table : Std.TreeMap α β) :
    table.values = table.toList.map Prod.snd := by
  have h : table.values = table.foldr (fun _ value values => value :: values) [] := rfl
  rw [h, Std.TreeMap.foldr_eq_foldr_toList]
  induction table.toList with
  | nil => rfl
  | cons entry rest ih => rw [List.foldr_cons, ih, List.map_cons]

theorem mem_values_iff [Std.TransOrd α] [Std.LawfulEqOrd α] {table : Std.TreeMap α β} {value : β} :
    value ∈ table.values ↔ ∃ key : α, table[key]? = some value := by
  simp [values_eq_map_toList, Std.TreeMap.mem_toList_iff_getElem?_eq_some]

end Recalc
