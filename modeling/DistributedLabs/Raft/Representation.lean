import DistributedLabs.Library.Replication.Completeness
import DistributedLabs.Raft.Types

/-!
# Compacted logs

A peer stores a log that starts at its compaction point.  The first entry stands
for everything up to that point: it has the index and the term of the last entry
it replaces and no data.
-/

namespace DistributedLabs

open DistributedLabs.Library
open DistributedLabs.Library.Replication (Entry lastTerm)

variable {C : Type}

/-- Consecutive entries as the source stores them, the first one at `index`. -/
def number (index : Int) : List (Entry (Option C)) → List (LogEntry C)
  | [] => []
  | entry :: rest => ⟨entry.term, index, entry.data⟩ :: number (index + 1) rest

/-- The stored form of `full` after compaction at `f`. -/
def compact (f : Nat) (full : List (Entry (Option C))) : List (LogEntry C) :=
  ⟨lastTerm (full.take f), f, none⟩ :: number (f + 1) (full.drop f)

/-- The stored form of the entry at `i`; the entry at `f` stands for a compacted log. -/
def entryAt (f : Nat) (full : List (Entry (Option C))) (i : Nat) : LogEntry C :=
  ⟨lastTerm (full.take i), i, if i ≤ f then none else full[i - 1]?.bind Entry.data⟩

/-! ## Numbered entries -/

@[simp]
theorem number_length (index : Int) (entries : List (Entry (Option C))) :
    (number index entries).length = entries.length := by
  induction entries generalizing index with
  | nil => rfl
  | cons entry rest ih => simp [number, ih]

theorem number_append (index : Int) (front back : List (Entry (Option C))) :
    number index (front ++ back) = number index front ++ number (index + front.length) back := by
  induction front generalizing index with
  | nil => simp [number]
  | cons entry rest ih =>
      simp only [List.cons_append, number, ih, List.length_cons]
      rw [show index + 1 + (rest.length : Int) = index + ((rest.length + 1 : Nat) : Int) by omega]

theorem number_getElem? (index : Int) (entries : List (Entry (Option C))) (k : Nat) :
    (number index entries)[k]? =
      entries[k]?.map fun entry => ⟨entry.term, index + k, entry.data⟩ := by
  induction entries generalizing index k with
  | nil => rfl
  | cons entry rest ih =>
      cases k with
      | zero => simp [number]
      | succ k =>
          simp only [number, List.getElem?_cons_succ, ih]
          rw [show index + 1 + (k : Int) = index + ((k + 1 : Nat) : Int) by omega]

theorem number_take (index : Int) (entries : List (Entry (Option C))) (k : Nat) :
    (number index entries).take k = number index (entries.take k) := by
  induction entries generalizing index k with
  | nil => simp [number]
  | cons entry rest ih =>
      cases k with
      | zero => rfl
      | succ k => simp [number, ih]

theorem number_drop (index : Int) (entries : List (Entry (Option C))) (k : Nat) :
    (number index entries).drop k = number (index + k) (entries.drop k) := by
  induction entries generalizing index k with
  | nil => simp [number]
  | cons entry rest ih =>
      cases k with
      | zero => simp
      | succ k =>
          simp only [number, List.drop_succ_cons, ih]
          rw [show index + 1 + (k : Int) = index + ((k + 1 : Nat) : Int) by omega]

theorem number_eq_nil_iff {index : Int} {entries : List (Entry (Option C))} :
    number index entries = [] ↔ entries = [] := by
  cases entries <;> simp [number]

theorem number_getLast? (index : Int) (entries : List (Entry (Option C))) :
    (number index entries).getLast? = entries.getLast?.map fun entry =>
      ⟨entry.term, index + entries.length - 1, entry.data⟩ := by
  rw [List.getLast?_eq_getElem?, number_length, number_getElem?, List.getLast?_eq_getElem?]
  cases entries with
  | nil => rfl
  | cons entry rest =>
      simp only [List.length_cons, Nat.add_sub_cancel]
      rw [show index + (rest.length : Int) = index + ((rest.length + 1 : Nat) : Int) - 1 by omega]

/-! ## Reading a compacted log -/

theorem lastTerm_take_succ {full : List (Entry (Option C))} {i : Nat} (hi : i < full.length) :
    lastTerm (full.take (i + 1)) = full[i].term := by
  rw [← List.take_append_getElem hi, Replication.lastTerm_concat]

section

variable {f i : Nat} {full : List (Entry (Option C))}

@[simp]
theorem compact_length : (compact f full).length = full.length - f + 1 := by
  simp [compact]

theorem compact_getElem? (hf : f ≤ i) (hi : i ≤ full.length) :
    (compact f full)[i - f]? = some (entryAt f full i) := by
  obtain ⟨k, rfl⟩ := Nat.exists_eq_add_of_le hf
  rw [Nat.add_sub_cancel_left]
  cases k with
  | zero => simp [compact, entryAt]
  | succ k =>
      have hlt : f + k < full.length := by omega
      have hterm : lastTerm (full.take (f + (k + 1))) = full[f + k].term := lastTerm_take_succ hlt
      have hdata : full[f + (k + 1) - 1]? = some full[f + k] := List.getElem?_eq_getElem hlt
      have hnot : ¬ f + (k + 1) ≤ f := by omega
      simp only [compact, List.getElem?_cons_succ, number_getElem?, List.getElem?_drop,
        List.getElem?_eq_getElem hlt, Option.map_some, entryAt, hterm, hdata, if_neg hnot,
        Option.bind_some]
      rw [show (f : Int) + 1 + (k : Int) = ((f + (k + 1) : Nat) : Int) by omega]

theorem compact_get (hf : f ≤ i) (hi : i ≤ full.length) :
    Slice.get (compact f full) ((i : Int) - f) = some (entryAt f full i) := by
  rw [show (i : Int) - f = ((i - f : Nat) : Int) by omega, Slice.get_natCast]
  exact compact_getElem? hf hi

/-- Whatever is read from a compacted log is the entry at some position. -/
theorem compact_get_inv {offset : Int} {entry : LogEntry C} (hf : f ≤ full.length)
    (h : Slice.get (compact f full) offset = some entry) :
    ∃ i : Nat, f ≤ i ∧ i ≤ full.length ∧ offset = (i : Int) - f ∧ entry = entryAt f full i := by
  have hnonneg := Slice.get_nonneg h
  obtain ⟨k, rfl⟩ := Int.eq_ofNat_of_zero_le hnonneg
  rw [Slice.get_natCast] at h
  have hk : k < (compact f full).length := (List.getElem?_eq_some_iff.mp h).1
  rw [compact_length] at hk
  refine ⟨f + k, Nat.le_add_right f k, by omega, by omega, ?_⟩
  have hget := compact_getElem? (Nat.le_add_right f k) (show f + k ≤ full.length by omega)
  rw [Nat.add_sub_cancel_left] at hget
  exact Option.some.inj (h.symm.trans hget)

@[simp]
theorem compact_head? : (compact f full).head? = some (entryAt f full f) := by
  simp [compact, entryAt]

theorem compact_getLast? (hf : f ≤ full.length) :
    (compact f full).getLast? = some (entryAt f full full.length) := by
  rw [List.getLast?_eq_getElem?, compact_length, Nat.add_sub_cancel]
  exact compact_getElem? hf (Nat.le_refl _)

/-! ## Cutting and extending a compacted log -/

theorem compact_low (hf : f < i) (hi : i ≤ full.length + 1) :
    Slice.low (compact f full) ((i : Int) - f) = some (number i (full.drop (i - 1))) := by
  obtain ⟨k, rfl⟩ := Nat.exists_eq_add_of_lt hf
  rw [show ((f + k + 1 : Nat) : Int) - f = ((k + 1 : Nat) : Int) by omega,
    Slice.low_natCast (by rw [compact_length]; omega)]
  simp only [compact, List.drop_succ_cons, number_drop, List.drop_drop]
  rw [show (f : Int) + 1 + (k : Int) = ((f + k + 1 : Nat) : Int) by omega, Nat.add_sub_cancel]

theorem compact_high (hf : f ≤ i) (hi : i ≤ full.length) :
    Slice.high (compact f full) ((i : Int) - f + 1) = some (compact f (full.take i)) := by
  rw [show (i : Int) - f + 1 = ((i - f + 1 : Nat) : Int) by omega,
    Slice.high_natCast (by rw [compact_length]; omega)]
  simp only [compact, List.take_succ_cons, number_take, List.take_take, Nat.min_eq_left hf]
  rw [List.drop_take]

theorem compact_append (hf : f ≤ full.length) (entries : List (Entry (Option C))) :
    compact f full ++ number (full.length + 1) entries = compact f (full ++ entries) := by
  have hlength : (f : Int) + 1 + ((full.length - f : Nat) : Int) = full.length + 1 := by omega
  simp only [compact, List.cons_append, List.take_append_of_le_length hf,
    List.drop_append_of_le_length hf, number_append, List.length_drop, hlength]

/-- Moving the compaction point forward to `i`. -/
theorem compact_move (hf : f ≤ i) (hi : i ≤ full.length) :
    (Slice.low (compact f full) ((i : Int) - f + 1)).map
      (⟨(entryAt f full i).term, i, none⟩ :: ·) = some (compact i full) := by
  rw [show (i : Int) - f + 1 = ((i + 1 : Nat) : Int) - f by omega,
    compact_low (Nat.lt_succ_of_le hf) (by omega)]
  simp [compact, entryAt]

end

end DistributedLabs
