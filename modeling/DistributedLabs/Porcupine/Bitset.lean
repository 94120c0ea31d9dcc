import Mathlib.Data.BitVec
import Mathlib.Data.List.Basic

/-!
# Sets of operations as bits

The checker keeps the operations it has placed as bits, 64 in a word.  Positions outside of
the words make the program panic.
-/

namespace DistributedLabs.Porcupine

abbrev Bitset := List (BitVec 64)

namespace Bitset

def newBitset (bits : Nat) : Bitset :=
  let extra := if bits % 64 ≠ 0 then 1 else 0
  let chunks := bits / 64 + extra
  List.replicate chunks 0#64

def bitsetIndex (pos : Nat) : Nat × Nat :=
  (pos / 64, pos % 64)

def set (b : Bitset) (pos : Nat) : Option Bitset :=
  let (major, minor) := bitsetIndex pos
  (b[major]?).map fun word => List.set b major (word ||| 1#64 <<< minor)

def clear (b : Bitset) (pos : Nat) : Option Bitset :=
  let (major, minor) := bitsetIndex pos
  (b[major]?).map fun word => List.set b major (word &&& ~~~(1#64 <<< minor))

def popcnt (b : Bitset) : Nat :=
  (b.map fun v => v.cpop.toNat).sum

def hash (b : Bitset) : BitVec 64 :=
  b.foldl (· ^^^ ·) (BitVec.ofNat 64 b.popcnt)

def equals (b b2 : Bitset) : Bool :=
  b.length = b2.length ∧ ∀ i < b.length, b[i]? = b2[i]?

variable {b b' : Bitset} {n pos : Nat} {ids ids' : List Nat}

theorem equals_iff : b.equals b' = true ↔ b = b' := by
  simp only [equals, decide_eq_true_eq]
  constructor
  · rintro ⟨hlength, hwords⟩
    refine List.ext_getElem? fun i => ?_
    by_cases hi : i < b.length
    · exact hwords i hi
    · rw [List.getElem?_eq_none (Nat.le_of_not_lt hi),
        List.getElem?_eq_none (hlength ▸ Nat.le_of_not_lt hi)]
  · rintro rfl
    exact ⟨rfl, fun _ _ => rfl⟩

/-- The bit at the position; outside of the words there is none. -/
def bit (b : Bitset) (pos : Nat) : Bool :=
  ((b[pos / 64]?).getD 0#64).getLsbD (pos % 64)

/-- Bitsets of one length with the same bits are the same. -/
theorem eq_of_bit_eq (hlength : b.length = b'.length) (hbits : ∀ pos, b.bit pos = b'.bit pos) :
    b = b' := by
  refine List.ext_getElem hlength fun i hi hi' => BitVec.eq_of_getLsbD_eq fun j hj => ?_
  have hbit := hbits (64 * i + j)
  have hmajor : (64 * i + j) / 64 = i := by omega
  have hminor : (64 * i + j) % 64 = j := by omega
  simpa only [bit, hmajor, hminor, List.getElem?_eq_getElem hi, List.getElem?_eq_getElem hi',
    Option.getD_some] using hbit

/-- The set has room for `n` operations and holds these. -/
structure Holds (b : Bitset) (n : Nat) (ids : List Nat) : Prop where
  length : b.length = (n + 63) / 64
  bits : ∀ pos, b.bit pos = decide (pos ∈ ids)

theorem newBitset_holds (n : Nat) : (newBitset n).Holds n [] where
  length := by
    simp only [newBitset, List.length_replicate]
    split <;> omega
  bits pos := by
    have hword (chunks : Nat) : ((List.replicate chunks 0#64)[pos / 64]?).getD 0#64 = 0#64 := by
      rw [List.getElem?_replicate]
      split <;> rfl
    simp only [bit, newBitset, hword]
    simp

theorem Holds.stored (h : b.Holds n ids) (hpos : pos < n) : pos / 64 < b.length := by
  rw [h.length]
  omega

/-- One word is replaced: which bits change is decided inside of it. -/
theorem bit_set {word : BitVec 64} (hstored : pos / 64 < b.length) (tested : Nat) :
    bit (List.set b (pos / 64) word) tested =
      if tested / 64 = pos / 64 then word.getLsbD (tested % 64) else b.bit tested := by
  by_cases hsame : tested / 64 = pos / 64
  · simp [bit, hsame, List.getElem?_set_self hstored]
  · simp [bit, hsame, List.getElem?_set_ne (Ne.symm hsame)]

theorem getLsbD_one (pos tested : Nat) :
    (1#64 <<< (pos % 64)).getLsbD (tested % 64) = decide (tested % 64 = pos % 64) := by
  have hlt : pos % 64 < 64 := Nat.mod_lt _ (by decide)
  rw [← BitVec.twoPow_eq, BitVec.getLsbD_twoPow, decide_eq_true hlt, Bool.true_and,
    decide_eq_decide]
  exact eq_comm

theorem Holds.set (h : b.Holds n ids) (hpos : pos < n) :
    ∃ b', b.set pos = some b' ∧ b'.Holds n (ids ++ [pos]) := by
  have hstored := h.stored hpos
  have hset : b.set pos =
      some (List.set b (pos / 64) (b[pos / 64] ||| 1#64 <<< (pos % 64))) := by
    simp [Bitset.set, bitsetIndex, List.getElem?_eq_getElem hstored]
  refine ⟨_, hset, by rw [List.length_set, h.length], fun tested => ?_⟩
  rw [bit_set hstored, BitVec.getLsbD_or, getLsbD_one]
  have hbit := h.bits tested
  by_cases hsame : tested / 64 = pos / 64
  · have hpos : tested % 64 = pos % 64 ↔ tested = pos := by omega
    simp only [bit, hsame, List.getElem?_eq_getElem hstored, Option.getD_some] at hbit
    simp [hsame, hbit, hpos]
  · have hne : tested ≠ pos := fun heq => hsame (by rw [heq])
    simp [hsame, hbit, hne]

theorem Holds.clear (h : b.Holds n (ids ++ [pos])) (hpos : pos < n) (hnew : pos ∉ ids) :
    ∃ b', b.clear pos = some b' ∧ b'.Holds n ids := by
  have hstored := h.stored hpos
  have hclear : b.clear pos =
      some (List.set b (pos / 64) (b[pos / 64] &&& ~~~(1#64 <<< (pos % 64)))) := by
    simp [Bitset.clear, bitsetIndex, List.getElem?_eq_getElem hstored]
  refine ⟨_, hclear, by rw [List.length_set, h.length], fun tested => ?_⟩
  have hlt : tested % 64 < 64 := Nat.mod_lt _ (by decide)
  rw [bit_set hstored, BitVec.getLsbD_and, BitVec.getLsbD_not, getLsbD_one]
  have hbit := h.bits tested
  by_cases hsame : tested / 64 = pos / 64
  · simp only [bit, hsame, List.getElem?_eq_getElem hstored, Option.getD_some] at hbit
    by_cases heq : tested = pos
    · subst heq
      simp [hnew]
    · have hother : tested % 64 ≠ pos % 64 := by omega
      rw [if_pos hsame, hbit]
      simp [heq, hother, hlt]
  · have hne : tested ≠ pos := fun heq => hsame (by rw [heq])
    simp [hsame, hbit, hne]

/-- Sets of the same size are equal if and only if they hold the same operations. -/
theorem Holds.eq_iff (h : b.Holds n ids) (h' : b'.Holds n ids') :
    b = b' ↔ ∀ id, id ∈ ids ↔ id ∈ ids' := by
  constructor
  · rintro rfl id
    have hbits := (h.bits id).symm.trans (h'.bits id)
    simpa using hbits
  · intro hsame
    refine eq_of_bit_eq (h.length.trans h'.length.symm) fun pos => ?_
    rw [h.bits, h'.bits, decide_eq_decide]
    exact hsame pos

end Bitset

end DistributedLabs.Porcupine
