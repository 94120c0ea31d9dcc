import DistributedLabs.Raft.Types

/-!
# The operations a peer runs under its lock

Each definition is the body of one method between taking and releasing `rf.mu`.
Every read of a slice is checked, so a result of `none` is a run-time panic.
-/

namespace DistributedLabs

/-! ## The counters of an election -/

namespace Election

/-- One goroutine of an election has its answer; `none` is a failed call. -/
def count (election : Election) (reply : Option RequestVoteReply) : Election :=
  { election with
    finishRequest := election.finishRequest + 1
    voteCount := match reply with
      | some ⟨_, true⟩ => election.voteCount + 1
      | _ => election.voteCount }

/-- The loop condition under which the counting goroutine keeps waiting. -/
def Waits (n : Nat) (election : Election) : Prop :=
  election.voteCount ≤ n / 2 ∧ election.finishRequest < n ∧
    election.voteCount + (n - election.finishRequest) > n / 2

instance (n : Nat) (election : Election) : Decidable (Waits n election) :=
  inferInstanceAs (Decidable (_ ∧ _ ∧ _))

end Election

namespace Raft

open DistributedLabs.Library

variable {n : Nat} {C : Type}

def getFirstLog (rf : Raft n C) : Option (LogEntry C) :=
  Slice.get rf.log 0

def getLastLog (rf : Raft n C) : Option (LogEntry C) :=
  Slice.get rf.log ((rf.log.length : Int) - 1)

def persist (rf : Raft n C) : Raft n C :=
  { rf with persister := ⟨some (rf.currentTerm, rf.voteFor, rf.log), rf.snapshot⟩ }

def addCurrentTerm (rf : Raft n C) (term : Int) : Raft n C :=
  if term ≤ rf.currentTerm then rf
  else ({ rf with currentTerm := term, state := .follower, voteFor := none }).persist

/-- `rf.applyCond.Signal()`: a parked applier will look at its condition again. -/
def signalApply (rf : Raft n C) : Raft n C :=
  { rf with applier := rf.applier.wake }

/-- The test that opens every handler: a larger term is taken over first. -/
def catchUp (rf : Raft n C) (term : Int) : Raft n C :=
  if term > rf.currentTerm then rf.addCurrentTerm term else rf

def leaveCandidate (rf : Raft n C) : Raft n C :=
  { rf with state := if rf.state = .candidate then .follower else rf.state }

/-! ## `RequestVote` -/

/-- The deferred function of `RequestVote` on the granting paths. -/
def grantVote (rf : Raft n C) (candidateId : Fin n) : Raft n C :=
  ({ rf with voteFor := some candidateId, state := .follower }).persist

/-- `(localLastIndex, localLastTerm)` -/
def localLast (rf : Raft n C) : Int × Int :=
  match rf.log.getLast? with
  | none => (-1, -1)
  | some last => (last.index, last.term)

def requestVote (rf : Raft n C) (args : RequestVoteArgs n) : Raft n C × RequestVoteReply :=
  if args.term < rf.currentTerm then
    (rf, ⟨rf.currentTerm, false⟩)
  else
    let caught := rf.catchUp args.term
    if args.term = caught.currentTerm ∧ caught.voteFor = some args.candidateId then
      (caught.grantVote args.candidateId, ⟨rf.currentTerm, true⟩)
    else if caught.voteFor ≠ none then
      (caught, ⟨rf.currentTerm, false⟩)
    else if args.lastLogTerm > caught.localLast.2 ∨
        (args.lastLogTerm = caught.localLast.2 ∧ args.lastLogIndex ≥ caught.localLast.1) then
      (caught.grantVote args.candidateId, ⟨rf.currentTerm, true⟩)
    else
      (caught, ⟨rf.currentTerm, false⟩)

/-! ## `RequestHeartBeat` -/

/-- Registered as an RPC handler; no goroutine calls it any more. -/
def requestHeartBeat (rf : Raft n C) (args : HeartBeatArgs n) : Raft n C × HeartBeatReply :=
  if args.term < rf.currentTerm then
    (rf, ⟨rf.currentTerm⟩)
  else
    let settled := if args.term = rf.currentTerm then rf.leaveCandidate else rf
    (settled.catchUp args.term, ⟨rf.currentTerm⟩)

/-! ## `RequestSendLog` -/

/-- The loop that cuts `args.Entries` at the first entry above `first`. -/
def trimEntries (first : Int) : List (LogEntry C) → Option (List (LogEntry C))
  | [] => none
  | entry :: rest => if entry.index > first then some (entry :: rest) else trimEntries first rest

/-- Whether the entry at `PrevLogIndex` has the term the leader says. -/
def prevLogAgrees (rf : Raft n C) (first : LogEntry C) (args : SendLogArgs n C) : Option Bool :=
  if args.prevLogIndex > first.index then do
    let entry ← Slice.get rf.log (args.prevLogIndex - first.index)
    some (entry.term = args.prevLogTerm)
  else some true

/-- Whether the last entry sent is already in the log. -/
def holdsEntry (rf : Raft n C) (first : LogEntry C) (entry : LogEntry C) : Option Bool := do
  let last ← rf.getLastLog
  if last.index ≥ entry.index then do
    let held ← Slice.get rf.log (entry.index - first.index)
    some (held.term = entry.term)
  else some false

/-- The log after the entries have been taken in. -/
def mergeEntries (rf : Raft n C) (first : LogEntry C) (args : SendLogArgs n C) :
    Option (List (LogEntry C)) :=
  match args.entries.getLast? with
  | none => some rf.log
  | some argsLastLog => do
      if ← rf.holdsEntry first argsLastLog then some rf.log
      else do
        let kept ← Slice.high rf.log (args.prevLogIndex - first.index + 1)
        some (kept ++ args.entries)

/-- `LeaderCommit` is only followed as far as the own log reaches. -/
def followCommit (rf : Raft n C) (leaderCommit : Int) : Option (Raft n C) :=
  if leaderCommit > rf.commitIndex then do
    let last ← rf.getLastLog
    let newCommitIndex := min leaderCommit last.index
    some (if newCommitIndex > rf.commitIndex then
      ({ rf with commitIndex := newCommitIndex }).signalApply else rf)
  else some rf

/-- `RequestSendLog` from the check of `PrevLogTerm` on. -/
def spliceLog (rf : Raft n C) (first : LogEntry C) (args : SendLogArgs n C) :
    Option (Raft n C × SendLogReply) := do
  if ← rf.prevLogAgrees first args then do
    let settled := rf.leaveCandidate
    let log ← settled.mergeEntries first args
    let committed ← (({ settled with log := log }).persist).followCommit args.leaderCommit
    some (committed, ⟨committed.currentTerm, true⟩)
  else some (rf, ⟨rf.currentTerm, false⟩)

/-- `RequestSendLog` once the term has been taken over. -/
def acceptLog (rf : Raft n C) (args : SendLogArgs n C) : Option (Raft n C × SendLogReply) := do
  let first ← rf.getFirstLog
  let last ← rf.getLastLog
  if args.prevLogIndex > last.index then
    some (rf, ⟨rf.currentTerm, false⟩)
  else if args.prevLogIndex < first.index then
    match args.entries.getLast? with
    | none => rf.spliceLog first args
    | some argsLastLogEntry =>
        if argsLastLogEntry.index ≤ first.index then
          some (rf, ⟨rf.currentTerm, true⟩)
        else
          rf.spliceLog first { args with
            prevLogIndex := first.index
            prevLogTerm := first.term
            entries := (trimEntries first.index args.entries).getD args.entries }
  else rf.spliceLog first args

def requestSendLog (rf : Raft n C) (args : SendLogArgs n C) :
    Option (Raft n C × SendLogReply) :=
  if args.term < rf.currentTerm then some (rf, ⟨rf.currentTerm, false⟩)
  else (rf.catchUp args.term).acceptLog args

/-! ## `RequestInstallSnapShot` -/

/-- Whether the log already reaches the snapshot and agrees with it there. -/
def coversSnapShot (rf : Raft n C) (args : RequestSnapShotArgs n) : Option Bool := do
  let first ← rf.getFirstLog
  let last ← rf.getLastLog
  if args.lastIncludedIndex ≤ first.index then some true
  else if args.lastIncludedIndex ≤ last.index then do
    let entry ← Slice.get rf.log (args.lastIncludedIndex - first.index)
    some (entry.term = args.lastIncludedTerm)
  else some false

/-- The log is replaced, and a goroutine is started that will deliver the snapshot. -/
def replaceLog (rf : Raft n C) (args : RequestSnapShotArgs n) : Raft n C :=
  { rf with
    log := [⟨args.lastIncludedTerm, args.lastIncludedIndex, none⟩]
    snapshot := args.data
    installs := rf.installs ++ [(⟨args.lastIncludedIndex, args.lastIncludedTerm⟩ : Install)] }

def requestInstallSnapShot (rf : Raft n C) (args : RequestSnapShotArgs n) :
    Option (Raft n C × RequestSnapShotReply) :=
  if args.term < rf.currentTerm then some (rf.persist, ⟨rf.currentTerm⟩)
  else do
    let settled := (rf.catchUp args.term).leaveCandidate
    -- the two tests of the source are each other's negation
    if ← settled.coversSnapShot args then some (settled.persist, ⟨rf.currentTerm⟩)
    else some ((settled.replaceLog args).persist, ⟨rf.currentTerm⟩)

/-! ## `Snapshot` and `Start` -/

def serviceSnapshot (rf : Raft n C) (index : Int) (snapshot : Bytes) : Option (Raft n C) := do
  let firstLog ← rf.getFirstLog
  let lastLog ← rf.getLastLog
  if index ≤ firstLog.index then some rf
  else if index > lastLog.index then some rf
  else do
    let entry ← Slice.get rf.log (index - firstLog.index)
    let rest ← Slice.low rf.log (index - firstLog.index + 1)
    some ({ rf with
      log := ⟨entry.term, entry.index, none⟩ :: rest
      snapshot := snapshot }).persist

/-- The index, the term and whether the peer believes it is the leader. -/
def start (rf : Raft n C) (me : Fin n) (command : Option C) :
    Option (Raft n C × Int × Int × Bool) :=
  if rf.state ≠ .leader then some (rf, 0, rf.currentTerm, false)
  else do
    let last ← rf.getLastLog
    let entry : LogEntry C := ⟨rf.currentTerm, last.index + 1, command⟩
    some (({ rf with
        log := rf.log ++ [entry]
        matchIndex := Function.update rf.matchIndex me entry.index }).persist,
      entry.index, entry.term, true)

/-! ## Elections -/

/-- The ticker's step once the timer has fired: stand in the next term. -/
def startElection (rf : Raft n C) (me : Fin n) : Raft n C × RequestVoteArgs n :=
  let standing := ({ rf with
    currentTerm := rf.currentTerm + 1
    state := .candidate
    voteFor := some me
    elections := rf.elections ++ [({ term := rf.currentTerm + 1 } : Election)] }).persist
  (standing, ⟨standing.currentTerm, me, standing.localLast.1, standing.localLast.2⟩)

def countVote (rf : Raft n C) (args : RequestVoteArgs n) (reply : Option RequestVoteReply) :
    Raft n C :=
  { rf with
    elections := rf.elections.map fun election =>
      if election.term = args.term then election.count reply else election }

def handleVoteReply (rf : Raft n C) (args : RequestVoteArgs n)
    (reply : Option RequestVoteReply) : Raft n C :=
  match reply with
  | none => rf.countVote args none
  | some answer => (rf.countVote args (some answer)).catchUp answer.term

/-- The entry that `nextIndex` starts behind. -/
def nextIndexBase (rf : Raft n C) : Option (LogEntry C) :=
  if rf.log.length = 1 then Slice.get rf.log 0 else rf.getLastLog

def resetRaftIndex (rf : Raft n C) (me : Fin n) : Option (Raft n C) := do
  let last ← rf.nextIndexBase
  let own ← rf.getLastLog
  some { rf with
    nextIndex := fun _ => last.index + 1
    matchIndex := fun i => if i = me then own.index else 0 }

/-- What follows the wait: the votes decide if the candidacy still stands. -/
def concludeElection (rf : Raft n C) (me : Fin n) (election : Election) : Option (Raft n C) :=
  let finished := { rf with elections := rf.elections.erase election }
  if finished.currentTerm = election.term ∧ finished.state = .candidate ∧
      election.voteCount > n / 2 then
    ({ finished with state := .leader }).resetRaftIndex me
  else some finished

/-! ## `Make` -/

def readPersist (rf : Raft n C) : Option (Raft n C) :=
  match rf.persister.raftstate with
  | none => some rf
  | some (currentTerm, voteFor, log) => do
      let read := { rf with currentTerm := currentTerm, voteFor := voteFor, log := log }
      let first ← read.getFirstLog
      some { read with lastApplied := first.index, commitIndex := first.index }

/-- The fields before `readPersist`. -/
def blank (persister : Persister n C) (incarnation : Nat) : Raft n C where
  state := .follower
  currentTerm := 0
  voteFor := none
  log := [⟨-1, 0, none⟩]
  snapshot := []
  commitIndex := 0
  lastApplied := 0
  nextIndex := fun _ => 0
  matchIndex := fun _ => 0
  persister := persister
  elections := []
  snapShotSends := []
  installs := []
  applier := .top
  applySeqMu := .free
  applyCh := ⟨0, []⟩
  incarnation := incarnation

def make (me : Fin n) (persister : Persister n C) (incarnation : Nat) : Option (Raft n C) := do
  let read ← (blank persister incarnation).readPersist
  let ready ← ({ read with snapshot := persister.snapshot }).resetRaftIndex me
  let first ← ready.getFirstLog
  some { ready with applyCh := ⟨first.index, []⟩ }

end Raft

end DistributedLabs
