import DistributedLabs.Library.Slice
import Mathlib.Logic.Function.Basic

/-!
# The data of one Raft peer

`Raft` holds the fields of the source structure, the content of its persister,
and one field for each kind of goroutine a peer can have started: elections that
are still being counted, snapshots still to be sent, snapshots installed and not
yet put on the channel, and the applier.  Deadlines of the election timer are not
kept, because a timer may fire at any time.
-/

namespace DistributedLabs

abbrev Bytes := List UInt8

inductive ServerState where
  | unknownState
  | leader
  | follower
  | candidate
  deriving DecidableEq, Repr

/-- `data` is an interface value; `none` is its nil. -/
structure LogEntry (C : Type) where
  term : Int
  index : Int
  data : Option C
  deriving DecidableEq, Repr

structure ApplyMsg (C : Type) where
  commandValid : Bool := false
  command : Option C := none
  commandIndex : Int := 0
  snapshotValid : Bool := false
  snapshot : Bytes := []
  snapshotTerm : Int := 0
  snapshotIndex : Int := 0
  deriving DecidableEq, Repr

/-- The log position a message brings the service to. -/
def ApplyMsg.index {C : Type} (msg : ApplyMsg C) : Int :=
  if msg.commandValid then msg.commandIndex else msg.snapshotIndex

structure RequestVoteArgs (n : Nat) where
  term : Int
  candidateId : Fin n
  lastLogIndex : Int
  lastLogTerm : Int
  deriving DecidableEq, Repr

structure RequestVoteReply where
  term : Int
  voteGranted : Bool
  deriving DecidableEq, Repr

structure HeartBeatArgs (n : Nat) where
  term : Int
  candidateId : Fin n
  deriving DecidableEq, Repr

structure HeartBeatReply where
  term : Int
  deriving DecidableEq, Repr

structure SendLogArgs (n : Nat) (C : Type) where
  term : Int
  leaderId : Fin n
  prevLogIndex : Int
  prevLogTerm : Int
  entries : List (LogEntry C)
  leaderCommit : Int
  deriving DecidableEq, Repr

structure SendLogReply where
  term : Int
  success : Bool
  deriving DecidableEq, Repr

structure RequestSnapShotArgs (n : Nat) where
  term : Int
  leaderId : Fin n
  lastIncludedIndex : Int
  lastIncludedTerm : Int
  data : Bytes
  deriving DecidableEq, Repr

structure RequestSnapShotReply where
  term : Int
  deriving DecidableEq, Repr

/-- What `Save` was last given.  Decoding undoes encoding, so the encoded triple
is kept as it is; `none` is an empty byte string. -/
structure Persister (n : Nat) (C : Type) where
  raftstate : Option (Int × Option (Fin n) × List (LogEntry C))
  snapshot : Bytes
  deriving DecidableEq

/-- The counters that the goroutines of one election share. -/
structure Election where
  term : Int
  voteCount : Nat := 1
  finishRequest : Nat := 1
  deriving DecidableEq, Repr

/-- The arguments of a goroutine started by `RequestInstallSnapShot`. -/
structure Install where
  snapShotIndex : Int
  snapShotTerm : Int
  deriving DecidableEq, Repr

/-- Where the applier goroutine is in its loop. -/
inductive Applier (C : Type) where
  | top
  | parked
  | collected (toApply : List (LogEntry C))
  | waiting (toApply : List (LogEntry C))
  | sending (toApply rest : List (LogEntry C))
  deriving DecidableEq, Repr

/-- A signal on `applyCond` sends a parked applier back to the head of its loop. -/
def Applier.wake {C : Type} : Applier C → Applier C
  | parked => top
  | other => other

/-- A signal on `applySeqCond` lets a waiting applier ask for the mutex again. -/
def Applier.wakeSeq {C : Type} : Applier C → Applier C
  | waiting toApply => collected toApply
  | other => other

/-- Who holds `applySeqMu`, with the message an installing goroutine has built. -/
inductive SeqMu (C : Type) where
  | free
  | applier
  | install (index : Int) (msg : ApplyMsg C)
  | installed (index : Int)
  deriving DecidableEq, Repr

/-- What one incarnation put on its channel, and the index it started from. -/
structure ApplyChan (C : Type) where
  start : Int
  msgs : List (ApplyMsg C)
  deriving DecidableEq, Repr

structure Raft (n : Nat) (C : Type) where
  state : ServerState
  currentTerm : Int
  voteFor : Option (Fin n)
  log : List (LogEntry C)
  snapshot : Bytes
  commitIndex : Int
  lastApplied : Int
  nextIndex : Fin n → Int
  matchIndex : Fin n → Int
  persister : Persister n C
  elections : List Election
  snapShotSends : List (Fin n)
  installs : List Install
  applier : Applier C
  applySeqMu : SeqMu C
  applyCh : ApplyChan C
  incarnation : Nat

end DistributedLabs
