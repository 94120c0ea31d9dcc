import Mathlib.Data.List.Basic
import Mathlib.Data.List.Infix

/-!
# Slices with checked offsets

Reading a slice outside its bounds stops the program.  Offsets are integers,
because the programs compute them by subtraction; `none` is the run-time panic.
-/

namespace DistributedLabs.Library.Slice

variable {α : Type}

/-- `items[offset]` -/
def get (items : List α) (offset : Int) : Option α :=
  if 0 ≤ offset then items[offset.toNat]? else none

/-- `items[offset:]` -/
def low (items : List α) (offset : Int) : Option (List α) :=
  if 0 ≤ offset ∧ offset ≤ items.length then some (items.drop offset.toNat) else none

/-- `items[:offset]` -/
def high (items : List α) (offset : Int) : Option (List α) :=
  if 0 ≤ offset ∧ offset ≤ items.length then some (items.take offset.toNat) else none

@[simp]
theorem get_natCast (items : List α) (k : Nat) : get items (k : Int) = items[k]? := by
  simp [get]

@[simp]
theorem get_zero (items : List α) : get items 0 = items[0]? := by
  simp [get]

theorem get_of_neg (items : List α) {offset : Int} (h : offset < 0) : get items offset = none :=
  if_neg (Int.not_le.mpr h)

theorem get_nonneg {items : List α} {offset : Int} {item : α}
    (h : get items offset = some item) : 0 ≤ offset := by
  unfold get at h
  split at h
  · assumption
  · cases h

theorem get_last (items : List α) : get items ((items.length : Int) - 1) = items.getLast? := by
  cases items with
  | nil => rfl
  | cons first rest =>
      have hoffset : (((first :: rest).length : Int) - 1) = (rest.length : Nat) := by simp
      rw [hoffset, get_natCast, List.getLast?_eq_getElem?]
      simp

theorem exists_get {items : List α} {offset : Int} (hlow : 0 ≤ offset)
    (hhigh : offset < items.length) : ∃ item, get items offset = some item := by
  obtain ⟨k, rfl⟩ := Int.eq_ofNat_of_zero_le hlow
  rw [get_natCast]
  exact ⟨_, List.getElem?_eq_getElem (Int.ofNat_lt.mp hhigh)⟩

theorem low_eq {items : List α} {offset : Int} (hlow : 0 ≤ offset)
    (hhigh : offset ≤ items.length) : low items offset = some (items.drop offset.toNat) :=
  if_pos ⟨hlow, hhigh⟩

theorem high_eq {items : List α} {offset : Int} (hlow : 0 ≤ offset)
    (hhigh : offset ≤ items.length) : high items offset = some (items.take offset.toNat) :=
  if_pos ⟨hlow, hhigh⟩

theorem high_eq_some {items kept : List α} {offset : Int} (h : high items offset = some kept) :
    kept = items.take offset.toNat := by
  unfold high at h
  split at h
  · exact (Option.some.inj h).symm
  · cases h

theorem low_eq_some {items kept : List α} {offset : Int} (h : low items offset = some kept) :
    kept = items.drop offset.toNat := by
  unfold low at h
  split at h
  · exact (Option.some.inj h).symm
  · cases h

theorem read_of_get {items : List α} {offset : Int} {item : α} (h : get items offset = some item) :
    items[offset.toNat]? = some item := by
  unfold get at h
  split at h
  · exact h
  · cases h

theorem get_lt_length {items : List α} {offset : Int} {item : α}
    (h : get items offset = some item) : offset < items.length := by
  obtain ⟨hread, _⟩ := List.getElem?_eq_some_iff.mp (read_of_get h)
  exact (Int.toNat_lt (get_nonneg h)).mp hread

theorem mem_of_get {items : List α} {offset : Int} {item : α} (h : get items offset = some item) :
    item ∈ items :=
  List.mem_of_getElem? (read_of_get h)

theorem low_natCast {items : List α} {k : Nat} (hk : k ≤ items.length) :
    low items (k : Int) = some (items.drop k) := by
  simp [low, hk]

theorem high_natCast {items : List α} {k : Nat} (hk : k ≤ items.length) :
    high items (k : Int) = some (items.take k) := by
  simp [high, hk]

theorem get_cons_of_pos (item : α) (items : List α) {offset : Int} (hpos : 0 < offset) :
    get (item :: items) offset = get items (offset - 1) := by
  obtain ⟨k, rfl⟩ := Int.eq_succ_of_zero_lt hpos
  rw [Int.add_sub_cancel, get_natCast, show (k : Int) + 1 = ((k + 1 : Nat) : Int) from rfl,
    get_natCast, List.getElem?_cons_succ]

theorem get_drop (items : List α) (k : Nat) {offset : Int} (hlow : 0 ≤ offset) :
    get (items.drop k) offset = get items (offset + k) := by
  obtain ⟨j, rfl⟩ := Int.eq_ofNat_of_zero_le hlow
  rw [get_natCast, show (j : Int) + (k : Int) = ((k + j : Nat) : Int) by omega, get_natCast,
    List.getElem?_drop]

/-- What stands before the cut is read as before. -/
theorem get_take_append_of_lt {items : List α} (more : List α) {k : Nat}
    (hk : k ≤ items.length) {offset : Int} (hlt : offset < k) :
    get (items.take k ++ more) offset = get items offset := by
  unfold get
  split
  · next hlow =>
      obtain ⟨j, rfl⟩ := Int.eq_ofNat_of_zero_le hlow
      have hjk : j < k := Int.ofNat_lt.mp hlt
      rw [Int.toNat_natCast, List.getElem?_append_left (by rw [List.length_take]; omega),
        List.getElem?_take_of_lt hjk]
  · rfl

/-- What stands behind the cut is what was appended there. -/
theorem get_take_append_of_ge {items : List α} (more : List α) {k : Nat}
    (hk : k ≤ items.length) {offset : Int} (hge : k ≤ offset) :
    get (items.take k ++ more) offset = get more (offset - k) := by
  obtain ⟨j, rfl⟩ := Int.eq_ofNat_of_zero_le (show 0 ≤ offset by omega)
  have hkj : k ≤ j := Int.ofNat_le.mp hge
  rw [get_natCast, show (j : Int) - k = ((j - k : Nat) : Int) by omega, get_natCast,
    List.getElem?_append_right (by rw [List.length_take]; omega), List.length_take,
    Nat.min_eq_left hk]

/-- A loop whose reads all succeed collects what they return. -/
theorem mapM_eq_some_map {β : Type} {read : α → Option β} {result : α → β} {items : List α}
    (h : ∀ item ∈ items, read item = some (result item)) :
    items.mapM read = some (items.map result) := by
  induction items with
  | nil => rfl
  | cons item rest ih =>
      rw [List.mapM_cons, h item (by simp), ih fun other hmem => h other (by simp [hmem])]
      rfl

/-- What a loop collects was returned by one of its reads. -/
theorem mem_of_mapM {β : Type} {read : α → Option β} {items : List α} {results : List β}
    (h : items.mapM read = some results) {result : β} (hmem : result ∈ results) :
    ∃ item ∈ items, read item = some result := by
  induction items generalizing results with
  | nil =>
      cases h
      cases hmem
  | cons item rest ih =>
      rw [List.mapM_cons] at h
      obtain ⟨head, hhead, h⟩ := Option.bind_eq_some_iff.mp h
      obtain ⟨tail, htail, h⟩ := Option.bind_eq_some_iff.mp h
      cases h
      rcases List.mem_cons.mp hmem with rfl | hin
      · exact ⟨item, List.mem_cons_self, hhead⟩
      · obtain ⟨found, hfound, hread⟩ := ih htail hin
        exact ⟨found, List.mem_cons_of_mem _ hfound, hread⟩

end DistributedLabs.Library.Slice
