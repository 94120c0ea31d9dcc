import DistributedLabs.Raft.Handlers
import Mathlib.Data.List.FinRange

/-!
# What a leader sends and what it does with the answers

`sendLogTicketCore` and `sendSnapShot` are cut where they release the lock: first
the requests are built, later each answer is handled on its own.  The commit loop
stands in both reply paths of the source with the same text, and here once.
-/

namespace DistributedLabs

/-- What `sendLogTicketCore` decides for one follower. -/
inductive SendJob (n : Nat) (C : Type) where
  | log (peer : Fin n) (args : SendLogArgs n C) (recodeNextIndex : Int)
  | snapShot (peer : Fin n)
  deriving DecidableEq

namespace Raft

open DistributedLabs.Library

variable {n : Nat} {C : Type}

def setNextIndex (rf : Raft n C) (peer : Fin n) (index : Int) : Raft n C :=
  { rf with nextIndex := Function.update rf.nextIndex peer index }

def setMatchIndex (rf : Raft n C) (peer : Fin n) (index : Int) : Raft n C :=
  { rf with matchIndex := Function.update rf.matchIndex peer index }

/-! ## Building the requests -/

/-- The two corrections of `nextIndex` that precede building a log request. -/
def repairNextIndex (rf : Raft n C) (first : LogEntry C) (peer : Fin n) : Raft n C :=
  let raised := if first.term = -1 ∧ rf.nextIndex peer = first.index then
      first.index + 1 else rf.nextIndex peer
  rf.setNextIndex peer (if raised < 0 then 0 else raised)

/-- The request for a follower whose next entry is still in the log.  `entries` are what the
slots of `rf.log` hold now; the slots themselves, which the source sends, are in `Shared`. -/
def buildSendLog (rf : Raft n C) (me : Fin n) (first : LogEntry C) (peer : Fin n) :
    Option (SendLogArgs n C) := do
  let preLog ← Slice.get rf.log (rf.nextIndex peer - first.index - 1)
  let entries ← Slice.low rf.log (rf.nextIndex peer - first.index)
  some {
    term := rf.currentTerm
    leaderId := me
    prevLogIndex := preLog.index
    prevLogTerm := preLog.term
    entries := entries
    leaderCommit := rf.commitIndex }

/-- The body of the loop over the peers. -/
def prepareSend (rf : Raft n C) (me peer : Fin n) : Option (Raft n C × SendJob n C) := do
  let first ← rf.getFirstLog
  if first.term ≠ -1 ∧ rf.nextIndex peer ≤ first.index then some (rf, .snapShot peer)
  else do
    let repaired := rf.repairNextIndex first peer
    let args ← repaired.buildSendLog me first peer
    some (repaired, .log peer args (repaired.nextIndex peer))

def prepareSends (me : Fin n) : List (Fin n) → Raft n C → Option (Raft n C × List (SendJob n C))
  | [], rf => some (rf, [])
  | peer :: rest, rf =>
      if peer = me then prepareSends me rest rf
      else do
        let (prepared, job) ← rf.prepareSend me peer
        let (final, jobs) ← prepareSends me rest prepared
        some (final, job :: jobs)

def sendLogTicketCore (rf : Raft n C) (me : Fin n) : Option (Raft n C × List (SendJob n C)) :=
  if rf.state ≠ .leader then some (rf, [])
  else prepareSends me (List.finRange n) rf

/-- The request with `sendNextIndex` and `sendMatchIndex`, if still the leader. -/
def sendSnapShot (rf : Raft n C) (me peer : Fin n) :
    Option (Option (RequestSnapShotArgs n × Int × Int)) :=
  if rf.state ≠ .leader then some none
  else do
    let first ← rf.getFirstLog
    some (some (⟨rf.currentTerm, me, first.index, first.term, rf.snapshot⟩,
      rf.nextIndex peer, rf.matchIndex peer))

/-! ## The commit loop -/

/-- How many peers are known to hold the log up to `beginIndex`. -/
def matchCount (matchIndex : Fin n → Int) (beginIndex : Int) : Nat :=
  (List.finRange n).countP fun peer => decide (matchIndex peer ≥ beginIndex)

/-- Only an entry of the current term is committed by counting. -/
def commitAt (rf : Raft n C) (first beginIndex : Int) : Option (Raft n C) :=
  if beginIndex > rf.commitIndex then do
    let entry ← Slice.get rf.log (beginIndex - first)
    some (if rf.currentTerm = entry.term then
      ({ rf with commitIndex := beginIndex }).signalApply else rf)
  else some rf

/-- The first argument bounds the rounds; the loop ends by itself before. -/
def commitLoop (first last : Int) : Nat → Int → Raft n C → Option (Raft n C)
  | 0, _, rf => some rf
  | fuel + 1, beginIndex, rf =>
      if beginIndex > last then some rf
      else if matchCount rf.matchIndex beginIndex ≤ n / 2 then some rf
      else do
        let committed ← rf.commitAt first beginIndex
        commitLoop first last fuel (beginIndex + 1) committed

def advanceCommit (rf : Raft n C) : Option (Raft n C) := do
  let first ← rf.getFirstLog
  let last ← rf.getLastLog
  commitLoop first.index last.index (last.index - rf.commitIndex).toNat (rf.commitIndex + 1) rf

/-! ## Handling the answers -/

/-- Walk back over the entries of one term. -/
def backUpLoop (rf : Raft n C) (first nowNextTerm : Int) : Nat → Int → Option Int
  | 0, backNextIndex => some backNextIndex
  | fuel + 1, backNextIndex =>
      if backNextIndex ≥ first then do
        let entry ← Slice.get rf.log (backNextIndex - first)
        if entry.term = nowNextTerm then
          backUpLoop rf first nowNextTerm fuel (backNextIndex - 1)
        else some backNextIndex
      else some backNextIndex

def backUp (rf : Raft n C) (peer : Fin n) : Option (Raft n C) := do
  let first ← rf.getFirstLog
  let last ← rf.getLastLog
  let backNextIndex := rf.nextIndex peer - 1
  if backNextIndex ≤ first.index then some (rf.setNextIndex peer first.index)
  else do
    let clamped := if backNextIndex > last.index then last.index else backNextIndex
    let entry ← Slice.get rf.log (clamped - first.index)
    let stop ← rf.backUpLoop first.index entry.term (clamped - first.index + 1).toNat clamped
    some (rf.setNextIndex peer (stop + 1))

/-- `matchIndex` and `nextIndex` only move forward on success. -/
def recordMatch (rf : Raft n C) (peer : Fin n) (lastEntry : LogEntry C) : Raft n C :=
  let matched := if lastEntry.index > rf.matchIndex peer then
      lastEntry.index else rf.matchIndex peer
  let next := if lastEntry.index + 1 > rf.nextIndex peer then
      lastEntry.index + 1 else rf.nextIndex peer
  (rf.setMatchIndex peer matched).setNextIndex peer next

def handleSendLogReply (rf : Raft n C) (peer : Fin n) (args : SendLogArgs n C)
    (recodeNextIndex : Int) (reply : SendLogReply) : Option (Raft n C) :=
  if reply.term > rf.currentTerm then some (rf.addCurrentTerm reply.term)
  else if rf.state = .leader ∧ rf.currentTerm = args.term then
    if reply.success then
      match args.entries.getLast? with
      | none => some rf
      | some lastEntry => (rf.recordMatch peer lastEntry).advanceCommit
    else if rf.nextIndex peer = recodeNextIndex then rf.backUp peer
    else some rf
  else some rf

/-- Two independent guards, each comparing with the value at sending time. -/
def recordSnapShot (rf : Raft n C) (peer : Fin n)
    (sendNextIndex sendMatchIndex sendLastLogIndex : Int) : Raft n C :=
  let next := if rf.nextIndex peer = sendNextIndex ∧ sendLastLogIndex + 1 > rf.nextIndex peer then
      sendLastLogIndex + 1 else rf.nextIndex peer
  let matched := if rf.matchIndex peer = sendMatchIndex ∧ sendLastLogIndex > rf.matchIndex peer then
      sendLastLogIndex else rf.matchIndex peer
  (rf.setNextIndex peer next).setMatchIndex peer matched

def handleSnapShotReply (rf : Raft n C) (peer : Fin n) (args : RequestSnapShotArgs n)
    (sendNextIndex sendMatchIndex : Int) (reply : RequestSnapShotReply) : Option (Raft n C) :=
  if reply.term > rf.currentTerm then some (rf.addCurrentTerm reply.term)
  else if rf.state = .leader ∧ rf.currentTerm = args.term then
    (rf.recordSnapShot peer sendNextIndex sendMatchIndex args.lastIncludedIndex).advanceCommit
  else some rf

end Raft

end DistributedLabs
