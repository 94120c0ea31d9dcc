import DistributedLabs.Raft.Applier
import DistributedLabs.Raft.Sender

/-!
# A cluster of peers and its network

The network holds the calls in progress.  A request is executed at most once and
turns into its answer in place; the goroutine that made the call then takes the
answer, or the call fails.  Messages may be taken in any order and at any time,
and one that is never taken is lost.  A request carries the entries the log held
when it was built; what becomes of it if the log is overwritten before the request
has been encoded is the subject of `Shared`.

An action is what one goroutine does while it holds a lock.  A crash and the
`Make` that follows are one action, because a peer that is down does nothing; the
goroutines of the old incarnation are gone and its channel is closed.  An action
that panics has no successor: the process stops with what it last persisted,
which is the crash of the state before.
-/

namespace DistributedLabs

open DistributedLabs.Library

/-- A call in progress, with what its goroutine has captured. -/
inductive Message (n : Nat) (C : Type) where
  | voteRequest (args : RequestVoteArgs n)
  | voteReply (args : RequestVoteArgs n) (reply : RequestVoteReply)
  | logRequest (args : SendLogArgs n C) (recodeNextIndex : Int)
  | logReply (args : SendLogArgs n C) (recodeNextIndex : Int) (reply : SendLogReply)
  | snapShotRequest (args : RequestSnapShotArgs n) (sendNextIndex sendMatchIndex : Int)
  | snapShotReply (args : RequestSnapShotArgs n) (sendNextIndex sendMatchIndex : Int)
      (reply : RequestSnapShotReply)
  deriving DecidableEq

/-- The goroutine behind a call belongs to one incarnation of its peer. -/
structure Flight (n : Nat) (C : Type) where
  src : Fin n
  dst : Fin n
  incarnation : Nat
  msg : Message n C
  deriving DecidableEq

structure Cluster (n : Nat) (C : Type) where
  peers : Fin n → Raft n C
  net : List (Flight n C)
  /-- The channels of incarnations that have crashed. -/
  past : List (Fin n × ApplyChan C)

inductive Action (n : Nat) (C : Type) where
  | start (p : Fin n) (command : Option C)
  | ticker (p : Fin n)
  | concludeElection (p : Fin n) (k : Nat)
  | sendLogTicketCore (p : Fin n)
  | sendSnapShot (p : Fin n) (k : Nat)
  | deliver (k : Nat)
  | answer (k : Nat)
  | fail (k : Nat)
  | snapshot (p : Fin n) (index : Int) (bytes : Bytes)
  | applyCollect (p : Fin n)
  | applyLock (p : Fin n)
  | applySend (p : Fin n)
  | applyFinish (p : Fin n)
  | installLock (p : Fin n) (k : Nat)
  | installSend (p : Fin n)
  | installFinish (p : Fin n)
  | crash (p : Fin n)

variable {n : Nat} {C : Type}

namespace Message

/-- The callee runs its handler and the call becomes its answer. -/
def execute (rf : Raft n C) : Message n C → Outcome (Raft n C × Message n C)
  | voteRequest args =>
      .ok ((rf.requestVote args).1, voteReply args (rf.requestVote args).2)
  | logRequest args recodeNextIndex =>
      (Outcome.ofOption (rf.requestSendLog args)).map fun (after, reply) =>
        (after, logReply args recodeNextIndex reply)
  | snapShotRequest args sendNextIndex sendMatchIndex =>
      (Outcome.ofOption (rf.requestInstallSnapShot args)).map fun (after, reply) =>
        (after, snapShotReply args sendNextIndex sendMatchIndex reply)
  | _ => .blocked

/-- The caller takes the answer of `peer`. -/
def handle (rf : Raft n C) (peer : Fin n) : Message n C → Outcome (Raft n C)
  | voteReply args reply => .ok (rf.handleVoteReply args (some reply))
  | logReply args recodeNextIndex reply =>
      Outcome.ofOption (rf.handleSendLogReply peer args recodeNextIndex reply)
  | snapShotReply args sendNextIndex sendMatchIndex reply =>
      Outcome.ofOption (rf.handleSnapShotReply peer args sendNextIndex sendMatchIndex reply)
  | _ => .blocked

/-- The call returned false: only an election counts that. -/
def giveUp (rf : Raft n C) : Message n C → Raft n C
  | voteRequest args | voteReply args _ => rf.handleVoteReply args none
  | _ => rf

end Message

/-- The service of this incarnation has been given the log up to `index`. -/
def Raft.Given (rf : Raft n C) (index : Int) : Prop :=
  index = rf.applyCh.start ∨ ∃ msg ∈ rf.applyCh.msgs, msg.index = index

instance (rf : Raft n C) (index : Int) : Decidable (rf.Given index) :=
  inferInstanceAs (Decidable (_ ∨ _))

namespace Cluster

def setPeer (s : Cluster n C) (p : Fin n) (rf : Raft n C) : Cluster n C :=
  { s with peers := Function.update s.peers p rf }

/-- Let one peer take a step of its own. -/
def onPeer (s : Cluster n C) (p : Fin n) (f : Raft n C → Outcome (Raft n C)) :
    Outcome (Cluster n C) :=
  (f (s.peers p)).map (s.setPeer p)

/-- The vote requests of an election, one for each other peer. -/
def voteFlights (p : Fin n) (incarnation : Nat) (args : RequestVoteArgs n) :
    List (Flight n C) :=
  ((List.finRange n).filter (· ≠ p)).map fun dst => ⟨p, dst, incarnation, .voteRequest args⟩

/-- The log requests among the prepared jobs. -/
def logFlights (p : Fin n) (incarnation : Nat) (jobs : List (SendJob n C)) :
    List (Flight n C) :=
  jobs.filterMap fun
    | .log dst args recodeNextIndex =>
        some ⟨p, dst, incarnation, .logRequest args recodeNextIndex⟩
    | .snapShot _ => none

/-- The followers among the prepared jobs that need a snapshot. -/
def snapShotPeers (jobs : List (SendJob n C)) : List (Fin n) :=
  jobs.filterMap fun
    | .log _ _ _ => none
    | .snapShot dst => some dst

def ticker (s : Cluster n C) (p : Fin n) : Outcome (Cluster n C) :=
  let rf := s.peers p
  if rf.state = .follower ∨ rf.state = .candidate then
    let (standing, args) := rf.startElection p
    .ok { s.setPeer p standing with net := s.net ++ voteFlights p rf.incarnation args }
  else .blocked

def concludeElection (s : Cluster n C) (p : Fin n) (k : Nat) : Outcome (Cluster n C) :=
  match (s.peers p).elections[k]? with
  | some election =>
      if election.Waits n then .blocked
      else s.onPeer p fun rf => Outcome.ofOption (rf.concludeElection p election)
  | none => .blocked

def sendLogTicketCore (s : Cluster n C) (p : Fin n) : Outcome (Cluster n C) :=
  (Outcome.ofOption ((s.peers p).sendLogTicketCore p)).map fun (prepared, jobs) =>
    { s.setPeer p { prepared with
        snapShotSends := prepared.snapShotSends ++ snapShotPeers jobs } with
      net := s.net ++ logFlights p prepared.incarnation jobs }

def sendSnapShot (s : Cluster n C) (p : Fin n) (k : Nat) : Outcome (Cluster n C) :=
  let rf := s.peers p
  match rf.snapShotSends[k]? with
  | some dst =>
      let started := s.setPeer p { rf with snapShotSends := rf.snapShotSends.eraseIdx k }
      (Outcome.ofOption (rf.sendSnapShot p dst)).map fun
        | none => started
        | some (args, sendNextIndex, sendMatchIndex) =>
            { started with net := s.net ++
              [⟨p, dst, rf.incarnation, .snapShotRequest args sendNextIndex sendMatchIndex⟩] }
  | none => .blocked

def deliver (s : Cluster n C) (k : Nat) : Outcome (Cluster n C) :=
  match s.net[k]? with
  | some flight =>
      (flight.msg.execute (s.peers flight.dst)).map fun (after, msg) =>
        { s.setPeer flight.dst after with net := s.net.set k { flight with msg := msg } }
  | none => .blocked

def answer (s : Cluster n C) (k : Nat) : Outcome (Cluster n C) :=
  match s.net[k]? with
  | some flight =>
      if (s.peers flight.src).incarnation = flight.incarnation then
        (flight.msg.handle (s.peers flight.src) flight.dst).map fun after =>
          { s.setPeer flight.src after with net := s.net.eraseIdx k }
      else .ok { s with net := s.net.eraseIdx k }
  | none => .blocked

def fail (s : Cluster n C) (k : Nat) : Outcome (Cluster n C) :=
  match s.net[k]? with
  | some flight =>
      let erased := { s with net := s.net.eraseIdx k }
      if (s.peers flight.src).incarnation = flight.incarnation then
        .ok (erased.setPeer flight.src (flight.msg.giveUp (s.peers flight.src)))
      else .ok erased
  | none => .blocked

def snapshot (s : Cluster n C) (p : Fin n) (index : Int) (bytes : Bytes) :
    Outcome (Cluster n C) :=
  if (s.peers p).Given index then
    s.onPeer p fun rf => Outcome.ofOption (rf.serviceSnapshot index bytes)
  else .blocked

def crash (s : Cluster n C) (p : Fin n) : Outcome (Cluster n C) :=
  let rf := s.peers p
  (Outcome.ofOption (Raft.make p rf.persister (rf.incarnation + 1))).map fun made =>
    { s.setPeer p made with past := s.past ++ [(p, rf.applyCh)] }

def step (s : Cluster n C) : Action n C → Outcome (Cluster n C)
  | .start p command => s.onPeer p fun rf =>
      (Outcome.ofOption (rf.start p command)).map Prod.fst
  | .ticker p => s.ticker p
  | .concludeElection p k => s.concludeElection p k
  | .sendLogTicketCore p => s.sendLogTicketCore p
  | .sendSnapShot p k => s.sendSnapShot p k
  | .deliver k => s.deliver k
  | .answer k => s.answer k
  | .fail k => s.fail k
  | .snapshot p index bytes => s.snapshot p index bytes
  | .applyCollect p => s.onPeer p Raft.applyCollect
  | .applyLock p => s.onPeer p Raft.applyLock
  | .applySend p => s.onPeer p Raft.applySend
  | .applyFinish p => s.onPeer p Raft.applyFinish
  | .installLock p k => s.onPeer p (Raft.installLock · k)
  | .installSend p => s.onPeer p Raft.installSend
  | .installFinish p => s.onPeer p Raft.installFinish
  | .crash p => s.crash p

/-- A peer made from an empty persister. -/
def newPeer : Raft n C where
  state := .follower
  currentTerm := 0
  voteFor := none
  log := [⟨-1, 0, none⟩]
  snapshot := []
  commitIndex := 0
  lastApplied := 0
  nextIndex := fun _ => 1
  matchIndex := fun _ => 0
  persister := ⟨none, []⟩
  elections := []
  snapShotSends := []
  installs := []
  applier := .top
  applySeqMu := .free
  applyCh := ⟨0, []⟩
  incarnation := 0

def initial : Cluster n C where
  peers := fun _ => newPeer
  net := []
  past := []

/-- A new peer is what `Make` returns on an empty persister. -/
theorem make_empty (p : Fin n) :
    Raft.make p (⟨none, []⟩ : Persister n C) 0 = some newPeer := by
  simp [Raft.make, Raft.readPersist, Raft.blank, Raft.resetRaftIndex, Raft.nextIndexBase,
    Raft.getLastLog, Raft.getFirstLog, newPeer, Slice.get]

def Reachable (s : Cluster n C) : Prop :=
  Reaches step initial s

end Cluster

end DistributedLabs
