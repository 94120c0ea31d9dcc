import DistributedLabs.Library.Machine
import DistributedLabs.Raft.Handlers

/-!
# Putting messages on the channel

`applyTicket` and the goroutines started by `RequestInstallSnapShot` take turns
by `applySeqMu`.  Each definition is what one of them does between two points
where another goroutine can run; it is blocked when that goroutine is elsewhere.
-/

namespace DistributedLabs.Raft

open DistributedLabs.Library

variable {n : Nat} {C : Type}

/-- The message for one entry of a batch. -/
def commandMsg (entry : LogEntry C) : ApplyMsg C :=
  { commandValid := true, command := entry.data, commandIndex := entry.index }

/-- The message a snapshot goroutine builds; the bytes are read here. -/
def snapshotMsg (rf : Raft n C) (install : Install) : ApplyMsg C :=
  { snapshotValid := true
    snapshot := rf.snapshot
    snapshotIndex := install.snapShotIndex
    snapshotTerm := install.snapShotTerm }

/-- `applyCh <- msg` -/
def send (rf : Raft n C) (msg : ApplyMsg C) : Raft n C :=
  { rf with applyCh := { rf.applyCh with msgs := rf.applyCh.msgs ++ [msg] } }

/-! ## `applyTicket` -/

/-- The entries above `lastApplied` up to `commitIndex`. -/
def collectEntries (rf : Raft n C) (first : Int) : Option (List (LogEntry C)) :=
  (List.range (rf.commitIndex - rf.lastApplied).toNat).mapM fun k : Nat =>
    Slice.get rf.log (rf.lastApplied + 1 + k - first)

/-- The condition on which the applier parks. -/
def NothingToApply (rf : Raft n C) (first : LogEntry C) : Prop :=
  rf.lastApplied ≥ rf.commitIndex ∨ rf.lastApplied < first.index

instance (rf : Raft n C) (first : LogEntry C) : Decidable (rf.NothingToApply first) :=
  inferInstanceAs (Decidable (_ ∨ _))

/-- From the head of the loop to the release of `rf.mu`. -/
def applyCollect (rf : Raft n C) : Outcome (Raft n C) :=
  match rf.applier with
  | .top => Outcome.ofOption do
      let first ← rf.getFirstLog
      if rf.NothingToApply first then some { rf with applier := .parked }
      else do
        let toApply ← rf.collectEntries first.index
        some { rf with applier := if toApply.isEmpty then .top else .collected toApply }
  | _ => .blocked

/-- From taking `applySeqMu` to the first send.  A batch that a snapshot has
overtaken is dropped by a `continue` that does not release the mutex. -/
def applyLock (rf : Raft n C) : Outcome (Raft n C) :=
  match rf.applier, rf.applySeqMu with
  | .collected toApply, .free => Outcome.ofOption do
      let firstLog ← Slice.get toApply 0
      if firstLog.index ≠ rf.lastApplied + 1 ∧ firstLog.index > rf.lastApplied then
        some { rf with applier := .waiting toApply }
      else if firstLog.index ≤ rf.lastApplied then
        some { rf with applier := .top, applySeqMu := .applier }
      else
        some { rf with applier := .sending toApply toApply, applySeqMu := .applier }
  | _, _ => .blocked

def applySend (rf : Raft n C) : Outcome (Raft n C) :=
  match rf.applier with
  | .sending toApply (entry :: rest) =>
      .ok (({ rf with applier := .sending toApply rest }).send (commandMsg entry))
  | _ => .blocked

def applyFinish (rf : Raft n C) : Outcome (Raft n C) :=
  match rf.applier with
  | .sending toApply [] =>
      let applied := match toApply.getLast? with
        | some last => if last.index > rf.lastApplied then last.index else rf.lastApplied
        | none => rf.lastApplied
      .ok { rf with lastApplied := applied, applier := .top, applySeqMu := .free }
  | _ => .blocked

/-! ## The goroutine of an installed snapshot -/

def installLock (rf : Raft n C) (k : Nat) : Outcome (Raft n C) :=
  match rf.installs[k]?, rf.applySeqMu with
  | some install, .free =>
      .ok { rf with
        installs := rf.installs.eraseIdx k
        applySeqMu := .install install.snapShotIndex (rf.snapshotMsg install) }
  | _, _ => .blocked

def installSend (rf : Raft n C) : Outcome (Raft n C) :=
  match rf.applySeqMu with
  | .install index msg => .ok (({ rf with applySeqMu := .installed index }).send msg)
  | _ => .blocked

/-- `applySeqCond.Signal()` -/
def signalSeq (rf : Raft n C) : Raft n C :=
  { rf with applier := rf.applier.wakeSeq }

def installFinish (rf : Raft n C) : Outcome (Raft n C) :=
  match rf.applySeqMu with
  | .installed index =>
      let applied := { rf with
        lastApplied := if index > rf.lastApplied then index else rf.lastApplied }
      let committed := if index > applied.commitIndex then
          ({ applied with commitIndex := index }).signalApply else applied
      .ok { committed.signalSeq with applySeqMu := .free }
  | _ => .blocked

end DistributedLabs.Raft
