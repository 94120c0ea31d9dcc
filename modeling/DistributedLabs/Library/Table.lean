import Mathlib.Data.List.AList

/-!
# Lists as tables

A table of records grows at its end, and its rows are changed in place.
-/

namespace DistributedLabs.Library.Table

variable {α β : Type} {rows : List α} {row found : α} {j k : Nat}

/-- What is read from a table with one more row. -/
theorem read_concat (h : (rows ++ [row])[k]? = some found) :
    rows[k]? = some found ∨ k = rows.length ∧ found = row := by
  rw [List.getElem?_append] at h
  split at h
  · exact .inl h
  · obtain ⟨hlt, heq⟩ := List.getElem?_eq_some_iff.mp h
    rw [List.length_singleton] at hlt
    simp only [List.getElem_singleton] at heq
    exact .inr ⟨by omega, heq.symm⟩

/-- What is read from a table with a row changed. -/
theorem read_set (h : (rows.set k row)[j]? = some found) :
    j = k ∧ found = row ∨ j ≠ k ∧ rows[j]? = some found := by
  rw [List.getElem?_set] at h
  split at h
  · next heq =>
      split at h
      · exact .inl ⟨heq.symm, (Option.some.inj h).symm⟩
      · cases h
  · next hne => exact .inr ⟨Ne.symm hne, h⟩

theorem set_of_read (h : rows[k]? = some row) : rows.set k row = rows := by
  obtain ⟨hlt, heq⟩ := List.getElem?_eq_some_iff.mp h
  rw [← heq]
  exact List.set_getElem_self hlt

theorem modify_of_read (h : rows[k]? = some row) (change : α → α) :
    rows.modify k change = rows.set k (change row) := by
  rw [List.modify_eq_set_getElem?, h]
  rfl

/-- A column without repeats determines the row. -/
theorem eq_of_column {column : α → β} (hnodup : (rows.map column).Nodup)
    (hrow : rows[j]? = some row) (hfound : rows[k]? = some found)
    (hsame : column row = column found) : j = k := by
  have hlt : j < (rows.map column).length := by
    rw [List.length_map]
    exact (List.getElem?_eq_some_iff.mp hrow).1
  refine (List.getElem?_inj hlt hnodup).mp ?_
  rw [List.getElem?_map, List.getElem?_map, hrow, hfound, Option.map_some, Option.map_some, hsame]

/-- The items under a key, found by going through all entries. -/
theorem flatMap_entries {κ : Type} [DecidableEq κ] (table : AList fun _ : κ => List α) (k : κ) :
    ((table.entries.filter fun entry => entry.1 = k).flatMap fun entry => entry.2) =
      (table.lookup k).getD [] := by
  obtain ⟨entries, hkeys⟩ := table
  change _ = (entries.dlookup k).getD []
  induction entries with
  | nil => rfl
  | cons entry rest ih =>
      obtain ⟨hnew, hrest⟩ := List.nodupKeys_cons.mp hkeys
      by_cases hk : entry.1 = k
      · subst hk
        have hnone : (rest.filter fun other => other.1 = entry.1) = [] := by
          refine List.filter_eq_nil_iff.mpr fun other hother heq => hnew ?_
          rw [← of_decide_eq_true heq]
          exact List.mem_keys_of_mem hother
        rw [List.filter_cons_of_pos (by simp), hnone, List.dlookup_cons_eq]
        simp
      · rw [List.filter_cons_of_neg (by simp [hk]), ih hrest, List.dlookup_cons_ne _ _ (Ne.symm hk)]

end DistributedLabs.Library.Table
