import Mathlib.Data.List.AList

/-! How many entries a table has, and which of them an erasure leaves. -/

namespace Tortor.Lib

universe u v

namespace Table

variable {α : Type u} {β : α → Type v}

theorem length_keys (table : AList β) : table.keys.length = table.entries.length :=
  List.length_map _

variable [DecidableEq α] {table : AList β} {a : α}

theorem length_insert_of_mem (h : a ∈ table) (b : β a) :
    (table.insert a b).entries.length = table.entries.length := by
  rw [← length_keys, ← length_keys, AList.keys_insert, List.length_cons,
    List.length_erase_of_mem h]
  exact Nat.succ_pred_eq_of_pos (List.length_pos_of_mem h)

theorem length_insert_le (table : AList β) (a : α) (b : β a) :
    (table.insert a b).entries.length ≤ table.entries.length + 1 := by
  rw [AList.entries_insert, List.length_cons]
  exact Nat.succ_le_succ (List.kerase_sublist a table.entries).length_le

theorem lookup_erase_iff {γ : Type v} {table : AList fun _ : α => γ} {other : α} {b : γ} :
    (table.erase a).lookup other = some b ↔ other ≠ a ∧ table.lookup other = some b := by
  by_cases h : other = a
  · rw [h, AList.lookup_erase]
    simp
  · rw [AList.lookup_erase_ne h]
    simp [h]

end Table

end Tortor.Lib
