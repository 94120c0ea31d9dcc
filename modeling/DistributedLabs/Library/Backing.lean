import Mathlib.Data.List.Basic
import Mathlib.Data.List.Infix

/-!
# Slices that share an array

Appending to a slice writes into its array as long as the array has room, so that every
other slice of the array sees the new items; the slots behind the end of the result keep
what they held.  Without room the result gets an array of its own, and the old one is not
written any more.
-/

namespace DistributedLabs.Library

/-- A slice of one of the arrays; its holder keeps the length. -/
structure View where
  array : Nat
  start : Nat
  deriving DecidableEq

/-- The arrays that a slice variable has had.  The variable begins at the first slot of the
present one; of an array only the slots that were ever written are kept. -/
structure Backing (α : Type) where
  past : List (List α)
  present : List α

namespace Backing

variable {α : Type}

def array (b : Backing α) (number : Nat) : List α :=
  (b.past ++ [b.present])[number]?.getD []

def read (b : Backing α) (view : View) (length : Nat) : List α :=
  ((b.array view.array).drop view.start).take length

/-- Slice the variable from `start` on. -/
def view (b : Backing α) (start : Nat) : View :=
  ⟨b.past.length, start⟩

def allocate (b : Backing α) (items : List α) : Backing α :=
  ⟨b.past ++ [b.present], items⟩

/-- The variable becomes `items` by appending to a part of itself.  Whether there is room
behind the slots that were ever written is not known: `full` says that there is none. -/
def append (b : Backing α) (items : List α) (full : Bool) : Backing α :=
  if full = true ∧ b.present.length < items.length then b.allocate items
  else { b with present := items ++ b.present.drop items.length }

/-- The variable always lies at the beginning of the present array. -/
theorem prefix_append (b : Backing α) (items : List α) (full : Bool) :
    items <+: (b.append items full).present := by
  unfold append
  split
  · exact List.prefix_refl items
  · exact List.prefix_append items _

/-- A new slice holds what the variable holds. -/
theorem read_view {b : Backing α} {items : List α} (h : items <+: b.present) (start : Nat) :
    b.read (b.view start) (items.drop start).length = items.drop start := by
  obtain ⟨rest, hrest⟩ := h
  have harray : b.array b.past.length = items ++ rest := by
    simp [array, hrest]
  rw [read, view, harray, List.drop_append]
  exact List.take_left

end Backing

end DistributedLabs.Library
