import Mathlib.Data.Fintype.Card

/-!
# Majorities

Two sets that each hold more than half of a finite population share a member.
-/

namespace DistributedLabs.Library

variable {ι : Type} [Fintype ι]

/-- More than half of the population. -/
def Majority (quorum : Finset ι) : Prop :=
  Fintype.card ι < 2 * quorum.card

theorem Majority.exists_common [DecidableEq ι] {left right : Finset ι}
    (hleft : Majority left) (hright : Majority right) :
    ∃ i, i ∈ left ∧ i ∈ right := by
  have hcount := Finset.card_union_add_card_inter left right
  have hunion : (left ∪ right).card ≤ Fintype.card ι := Finset.card_le_univ _
  have hpos : 0 < (left ∩ right).card := by
    unfold Majority at hleft hright
    omega
  obtain ⟨i, hi⟩ := Finset.card_pos.mp hpos
  exact ⟨i, (Finset.mem_inter.mp hi).1, (Finset.mem_inter.mp hi).2⟩

end DistributedLabs.Library
