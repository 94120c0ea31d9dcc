import Mathlib.Data.List.Basic
import Mathlib.Logic.Encodable.Basic

/-!
# Values written to and read from a stream

Several values are written one after the other and read back in the same order.  Either
side may fail at any value: a writer then leaves whatever it leaves behind, and a reader
leaves its variable with whatever it has.
-/

namespace DistributedLabs.Library

/-- Where a reader stands. -/
structure Stream (β : Type) where
  read : List β
  rest : List β

/-- What may depend on everything written or read before.  `encode` gives what has been
written afterwards, and `false` for an error.  `decode` gives what its variable holds
afterwards, and no place to go on from for an error. -/
structure Coder (β α : Type) where
  encode : List β → α → List β × Bool
  decode : Stream β → α × Option (Stream β)

variable {β α : Type}

/-- A value that was written without an error is read back, whatever comes behind it. -/
def Coder.Reads (coder : Coder β α) (value : α) : Prop :=
  ∀ before after, coder.encode before value = (after, true) →
    ∃ frame, after = before ++ frame ∧
      ∀ rest, coder.decode ⟨before, frame ++ rest⟩ = (value, some ⟨after, rest⟩)

/-! ## Values by number -/

/-- Write a value as its number in a list, in one byte.  Other values cannot be written. -/
def Coder.listed [DecidableEq α] (zero : α) (values : List α) : Coder UInt8 α where
  encode before value :=
    if value ∈ values ∧ values.idxOf value < 256 then
      (before ++ [UInt8.ofNat (values.idxOf value)], true)
    else (before, false)
  decode stream :=
    match stream.rest with
    | [] => (zero, none)
    | number :: rest =>
        match values[number.toNat]? with
        | some value => (value, some ⟨stream.read ++ [number], rest⟩)
        | none => (zero, none)

/-- Write a value as that many zeros and a one. -/
def Coder.unary [Encodable α] [Inhabited α] : Coder UInt8 α where
  encode before value := (before ++ (List.replicate (Encodable.encode value) 0 ++ [1]), true)
  decode stream :=
    let zeros := stream.rest.takeWhile (· = 0)
    match stream.rest.drop zeros.length, Encodable.decode zeros.length with
    | one :: rest, some value => (value, some ⟨stream.read ++ (zeros ++ [one]), rest⟩)
    | _, _ => (default, none)

theorem Coder.unary_reads [Encodable α] [Inhabited α] (value : α) :
    (Coder.unary : Coder UInt8 α).Reads value := by
  intro before after hencode
  cases hencode
  refine ⟨_, rfl, fun rest => ?_⟩
  simp [unary]

end DistributedLabs.Library
