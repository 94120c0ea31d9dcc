import DistributedLabs.Raft.Types
import Mathlib.Data.List.AList
import Mathlib.Logic.Equiv.List
import Mathlib.Tactic.DeriveEncodable

/-!
# The data of the key/value service

A server keeps the store, the last request of each client and its result, and the
channels on which `ApplyTicket` tells waiting handlers that their index has been
applied.  Channels are objects: the map from indexes only names them, and a handler
that waits keeps its channel when the map forgets it.
-/

namespace DistributedLabs.KvRaft

inductive OperationOp where
  | opPut
  | opAppend
  | opGet
  deriving DecidableEq, Repr

inductive Err where
  | ok
  | noKey
  | wrongLeader
  | timeOut
  | duplicate
  deriving DecidableEq, Repr

structure Op where
  op : OperationOp
  key : String
  value : String
  clientId : Int
  reqSeq : Int
  deriving DecidableEq, Repr

structure ClientRequestArgs where
  op : OperationOp
  key : String
  value : String
  clientId : Int
  reqSeq : Int
  deriving DecidableEq, Repr

structure ClientRequestReply where
  err : Err
  value : String := ""
  deriving DecidableEq, Repr

/-- The log entry a handler builds. -/
def ClientRequestArgs.opLog (args : ClientRequestArgs) : Op :=
  ⟨args.op, args.key, args.value, args.clientId, args.reqSeq⟩

/-- The three maps that go into a snapshot. -/
structure Tables where
  store : AList (fun _ : String => String) := ∅
  clientMaxReq : AList (fun _ : Int => Int) := ∅
  clientLastReqRest : AList (fun _ : Int => ClientRequestReply) := ∅

/-- A channel of capacity one, made for one index.  It carries pointers. -/
structure NotifyChannel where
  index : Int
  content : Option (Option ClientRequestReply) := none
  deriving DecidableEq

structure KVServer where
  lastApplied : Int := -1
  tables : Tables := {}
  notifyChannel : AList (fun _ : Int => Nat) := ∅
  /-- The channels that have been made. -/
  channels : List NotifyChannel := []
  /-- Goroutines that will remove an index from the map. -/
  removals : List Int := []
  /-- How many messages `ApplyTicket` has taken from `applyCh`. -/
  consumed : Nat := 0
  /-- The command just applied, while a snapshot may still be taken at it. -/
  justApplied : Option Int := none

/-- The encoding of snapshots.  `decode` is what the three variables hold after the
three calls, and `encode` has no value if the encoder reports an error.  What is encoded
is never empty, since the types of the maps are part of it. -/
structure Codec where
  encode : Tables → Option Bytes
  decode : Bytes → Tables
  decode_encode : ∀ {tables bytes}, encode tables = some bytes → decode bytes = tables
  encode_ne_nil : ∀ {tables bytes}, encode tables = some bytes → bytes ≠ []

/-! ## An encoding -/

instance encodableChar : Encodable Char :=
  Encodable.ofLeftInjection Char.toNat (fun code => some (Char.ofNat code))
    fun c => congrArg some (Char.ofNat_toNat c)

instance encodableString : Encodable String :=
  Encodable.ofLeftInjection String.toList (fun chars => some (String.ofList chars))
    fun _ => congrArg some String.ofList_toList

instance encodableTable {K V : Type} [DecidableEq K] [Encodable K] [Encodable V] :
    Encodable (AList fun _ : K => V) :=
  Encodable.ofLeftInjection AList.entries
    (fun entries => if h : entries.keys.Nodup then some ⟨entries, h⟩ else none)
    fun table => dif_pos table.nodupKeys

deriving instance Encodable for Err
deriving instance Encodable for ClientRequestReply
deriving instance Encodable for Tables

/-- Byte strings that stand for the tables by their length. -/
def Codec.unary : Codec where
  encode tables := some (List.replicate (Encodable.encode tables + 1) 0)
  decode bytes := (Encodable.decode (bytes.length - 1)).getD {}
  decode_encode := by
    intro tables bytes h
    cases h
    simp [Encodable.encodek]
  encode_ne_nil := by
    intro tables bytes h
    cases h
    simp

end DistributedLabs.KvRaft
