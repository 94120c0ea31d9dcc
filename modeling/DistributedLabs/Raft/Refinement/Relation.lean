import DistributedLabs.Raft.Persistence
import DistributedLabs.Raft.Representation

/-!
# Relating a cluster to the replicated log

A peer stands for a member of the abstract protocol: its log is the compacted
form of the member's log, and what it has compacted or counts as committed is
committed there.  A message in flight stands for records of the protocol, which
are never erased, so a message stays meaningful however late it arrives.
-/

namespace DistributedLabs

open DistributedLabs.Library
open DistributedLabs.Library.Replication

variable {n : Nat} {C : Type}

/-- The abstract protocol over the peers and commands of a cluster. -/
abbrev Protocol (n : Nat) (C : Type) :=
  Replication.State (Fin n) (Option C)

def stateOf : Role → ServerState
  | .follower => .follower
  | .candidate => .candidate
  | .leader => .leader

theorem stateOf_injective : Function.Injective stateOf := by
  intro left right h
  cases left <;> cases right <;> first | rfl | cases h

/-- The command at `index` of the committed log is `data`. -/
def CommittedAt (A : Protocol n C) (index : Int) (data : Option C) : Prop :=
  ∃ U front entry, Committed A U (front ++ [entry]) ∧
    index = front.length + 1 ∧ data = entry.data

/-! ## Peers -/

/-- `f` is the compaction point and `c` the commit index of the peer. -/
structure PeerRel (A : Protocol n C) (p : Fin n) (rf : Raft n C) (f c : Nat) : Prop where
  term : rf.currentTerm = A.term p
  vote : rf.voteFor = A.vote p
  role : rf.state = stateOf (A.role p)
  log : rf.log = compact f (A.log p)
  base_le : f ≤ (A.log p).length
  base : Committed A (A.term p) ((A.log p).take f)
  commit : rf.commitIndex = c
  commit_le : c ≤ (A.log p).length
  committed : Committed A (A.term p) ((A.log p).take c)
  matched : A.role p = .leader → ∀ i, rf.matchIndex i ≤ A.ack (A.term p) i
  next : A.role p = .leader →
    ∀ i, 0 ≤ rf.nextIndex i ∧ rf.nextIndex i ≤ (A.log p).length + 1
  sends : ∀ dst ∈ rf.snapShotSends, dst ≠ p

/-- The entries the applier has collected. -/
def Applier.entries : Applier C → List (LogEntry C)
  | top | parked => []
  | collected toApply | waiting toApply => toApply
  | sending toApply rest => toApply ++ rest

/-- A snapshot being delivered is not above `bound`. -/
def SeqMu.Below (bound : Int) : SeqMu C → Prop
  | free | applier => True
  | install index msg => index ≤ bound ∧ msg.index = index ∧ msg.commandValid = false
  | installed index => index ≤ bound

/-- What has been or is being delivered lies below the bound the peer has reached. -/
structure ChannelRel (A : Protocol n C) (rf : Raft n C) (f c : Nat) : Prop where
  batch : ∀ entry ∈ rf.applier.entries,
    entry.index ≤ max f c ∧ CommittedAt A entry.index entry.data
  given : ∀ msg ∈ rf.applyCh.msgs, msg.index ≤ max f c ∧
    (msg.commandValid = true → CommittedAt A msg.commandIndex msg.command)
  start : rf.applyCh.start ≤ f
  installs : ∀ install ∈ rf.installs, install.snapShotIndex ≤ f
  seq : rf.applySeqMu.Below f

/-- The peer stands for the member `p`. -/
def Reps (A : Protocol n C) (p : Fin n) (rf : Raft n C) : Prop :=
  ∃ f c, PeerRel A p rf f c ∧ ChannelRel A rf f c

/-! ## Messages -/

/-- The candidate stood with the log `l`. -/
structure VoteRel (A : Protocol n C) (src : Fin n) (args : RequestVoteArgs n)
    (l : List (Entry (Option C))) : Prop where
  candidate : args.candidateId = src
  stood : A.stood args.term src = some l
  lastIndex : args.lastLogIndex = l.length
  lastTerm : args.lastLogTerm = Replication.lastTerm l

/-- `front` and `entries` are consecutive parts of the log of the leader `src`. -/
structure LogRel (A : Protocol n C) (src : Fin n) (args : SendLogArgs n C)
    (front entries : List (Entry (Option C))) : Prop where
  mandate : ∃ m, A.mandate args.term = some m ∧ m.leader = src
  written : front ++ entries <+: A.leaderLog args.term
  prevIndex : args.prevLogIndex = front.length
  prevTerm : args.prevLogTerm = Replication.lastTerm front
  numbered : args.entries = number (front.length + 1) entries
  commit : ∃ z, z <+: front ++ entries ∧ Committed A args.term z ∧ args.leaderCommit = z.length

/-- The snapshot stands for the committed part `front` of the leader's log. -/
structure SnapShotRel (A : Protocol n C) (src : Fin n) (args : RequestSnapShotArgs n)
    (front : List (Entry (Option C))) : Prop where
  mandate : ∃ m, A.mandate args.term = some m ∧ m.leader = src
  written : front <+: A.leaderLog args.term
  lastIndex : args.lastIncludedIndex = front.length
  lastTerm : args.lastIncludedTerm = Replication.lastTerm front
  committed : Committed A args.term front

/-- What a call from `src` to `dst` stands for. -/
def MessageRel (A : Protocol n C) (src dst : Fin n) : Message n C → Prop
  | .voteRequest args => ∃ l, VoteRel A src args l
  | .voteReply args reply => (∃ l, VoteRel A src args l) ∧
      (reply.voteGranted = true → ∃ l, A.ballot args.term dst = some (src, l))
  | .logRequest args _ => ∃ front entries, LogRel A src args front entries
  | .logReply args _ reply => ∃ front entries, LogRel A src args front entries ∧
      (reply.success = true → (front ++ entries).length ≤ A.ack args.term dst)
  | .snapShotRequest args _ _ => ∃ front, SnapShotRel A src args front
  | .snapShotReply args _ _ reply => ∃ front, SnapShotRel A src args front ∧
      (reply.term ≤ args.term → front.length ≤ A.ack args.term dst)

structure FlightRel (A : Protocol n C) (flight : Flight n C) : Prop where
  distinct : flight.src ≠ flight.dst
  msg : MessageRel A flight.src flight.dst flight.msg

/-! ## Votes -/

/-- The election a call belongs to, if it asks for a vote. -/
def Flight.voteKey (flight : Flight n C) : Option (Fin n × Fin n × Int) :=
  match flight.msg with
  | .voteRequest args | .voteReply args _ => some (flight.src, flight.dst, args.term)
  | _ => none

/-- The elections that have calls in progress. -/
def voteKeys (net : List (Flight n C)) : List (Fin n × Fin n × Int) :=
  net.filterMap Flight.voteKey

/-- The peers whose vote for `p` in `term` has been cast and is not on its way any more. -/
noncomputable def castVotes (A : Protocol n C) (net : List (Flight n C)) (p : Fin n)
    (term : Int) : Finset (Fin n) :=
  open Classical in Finset.univ.filter fun v =>
    (∃ l, A.ballot term v = some (p, l)) ∧ (p, v, term) ∉ voteKeys net

/-- An election has counted no more votes than were cast. -/
structure Counted (A : Protocol n C) (net : List (Flight n C)) (p : Fin n)
    (election : Election) : Prop where
  past : election.term ≤ A.term p
  votes : election.voteCount ≤ (castVotes A net p election.term).card

/-! ## Clusters -/

/-- The cluster `s` is a state of the protocol. -/
structure Refines (A : Protocol n C) (s : Cluster n C) : Prop where
  valid : Valid A
  peers : ∀ p, Reps A p (s.peers p)
  flights : ∀ flight ∈ s.net, FlightRel A flight
  keys : (voteKeys s.net).Nodup
  votes : ∀ p, ∀ election ∈ (s.peers p).elections, Counted A s.net p election
  past : ∀ channel ∈ s.past, ∀ msg ∈ channel.2.msgs,
    msg.commandValid = true → CommittedAt A msg.commandIndex msg.command

/-! ## What grows keeps its meaning -/

section Growth

variable {A A' : Protocol n C}

theorem CommittedAt.grows (grows : Grows A A') {index : Int} {data : Option C}
    (h : CommittedAt A index data) : CommittedAt A' index data := by
  obtain ⟨U, front, entry, hcommitted, hindex, hdata⟩ := h
  exact ⟨U, front, entry, hcommitted.grows grows, hindex, hdata⟩

theorem PeerRel.frame {p : Fin n} {rf : Raft n C} {f c : Nat} (grows : Grows A A')
    (same : SameFor p A A') (h : PeerRel A p rf f c) : PeerRel A' p rf f c where
  term := h.term.trans same.term.symm
  vote := h.vote.trans same.vote.symm
  role := by rw [same.role]; exact h.role
  log := by rw [same.log]; exact h.log
  base_le := by rw [same.log]; exact h.base_le
  base := by rw [same.term, same.log]; exact h.base.grows grows
  commit := h.commit
  commit_le := by rw [same.log]; exact h.commit_le
  committed := by rw [same.term, same.log]; exact h.committed.grows grows
  matched := by
    intro hleader i
    rw [same.role] at hleader
    rw [same.term]
    exact Int.le_trans (h.matched hleader i) (by exact_mod_cast grows.ack _ i)
  next := by
    intro hleader
    rw [same.role] at hleader
    rw [same.log]
    exact h.next hleader
  sends := h.sends

theorem SeqMu.Below.mono {mu : SeqMu C} {bound bound' : Int} (hle : bound ≤ bound')
    (h : mu.Below bound) : mu.Below bound' := by
  cases mu with
  | free => trivial
  | applier => trivial
  | install index msg => exact ⟨Int.le_trans h.1 hle, h.2⟩
  | installed index => exact Int.le_trans h hle

/-- The bounds may rise and the records may grow. -/
theorem ChannelRel.mono {rf : Raft n C} {f f' c c' : Nat} (grows : Grows A A')
    (hf : f ≤ f') (hc : c ≤ c') (h : ChannelRel A rf f c) : ChannelRel A' rf f' c' where
  batch := fun entry hmem => by
    obtain ⟨hle, hcommitted⟩ := h.batch entry hmem
    exact ⟨by omega, hcommitted.grows grows⟩
  given := fun msg hmem => by
    obtain ⟨hle, hcommitted⟩ := h.given msg hmem
    exact ⟨by omega, fun hvalid => (hcommitted hvalid).grows grows⟩
  start := by
    have := h.start
    omega
  installs := fun install hmem => by
    have := h.installs install hmem
    omega
  seq := h.seq.mono (by omega)

theorem Reps.frame {p : Fin n} {rf : Raft n C} (grows : Grows A A')
    (same : SameFor p A A') (h : Reps A p rf) : Reps A' p rf := by
  obtain ⟨f, c, hpeer, hchannel⟩ := h
  exact ⟨f, c, hpeer.frame grows same,
    hchannel.mono grows (Nat.le_refl f) (Nat.le_refl c)⟩

theorem VoteRel.grows (grows : Grows A A') {src : Fin n} {args : RequestVoteArgs n}
    {l : List (Entry (Option C))} (h : VoteRel A src args l) : VoteRel A' src args l :=
  ⟨h.candidate, grows.stood h.stood, h.lastIndex, h.lastTerm⟩

theorem LogRel.grows (grows : Grows A A') {src : Fin n} {args : SendLogArgs n C}
    {front entries : List (Entry (Option C))} (h : LogRel A src args front entries) :
    LogRel A' src args front entries where
  mandate := by
    obtain ⟨m, hm, hleader⟩ := h.mandate
    exact ⟨m, grows.mandate hm, hleader⟩
  written := h.written.trans (grows.leaderLog _)
  prevIndex := h.prevIndex
  prevTerm := h.prevTerm
  numbered := h.numbered
  commit := by
    obtain ⟨z, hz, hcommitted, hlength⟩ := h.commit
    exact ⟨z, hz, hcommitted.grows grows, hlength⟩

theorem SnapShotRel.grows (grows : Grows A A') {src : Fin n} {args : RequestSnapShotArgs n}
    {front : List (Entry (Option C))} (h : SnapShotRel A src args front) :
    SnapShotRel A' src args front where
  mandate := by
    obtain ⟨m, hm, hleader⟩ := h.mandate
    exact ⟨m, grows.mandate hm, hleader⟩
  written := h.written.trans (grows.leaderLog _)
  lastIndex := h.lastIndex
  lastTerm := h.lastTerm
  committed := h.committed.grows grows

theorem MessageRel.grows (grows : Grows A A') {src dst : Fin n} {msg : Message n C}
    (h : MessageRel A src dst msg) : MessageRel A' src dst msg := by
  cases msg with
  | voteRequest args =>
      obtain ⟨l, hl⟩ := h
      exact ⟨l, hl.grows grows⟩
  | voteReply args reply =>
      obtain ⟨⟨l, hl⟩, hgranted⟩ := h
      refine ⟨⟨l, hl.grows grows⟩, fun hreply => ?_⟩
      obtain ⟨voter, hvoter⟩ := hgranted hreply
      exact ⟨voter, grows.ballot hvoter⟩
  | logRequest args recodeNextIndex =>
      obtain ⟨front, entries, hlog⟩ := h
      exact ⟨front, entries, hlog.grows grows⟩
  | logReply args recodeNextIndex reply =>
      obtain ⟨front, entries, hlog, hack⟩ := h
      exact ⟨front, entries, hlog.grows grows,
        fun hsuccess => Nat.le_trans (hack hsuccess) (grows.ack _ _)⟩
  | snapShotRequest args sendNextIndex sendMatchIndex =>
      obtain ⟨front, hsnap⟩ := h
      exact ⟨front, hsnap.grows grows⟩
  | snapShotReply args sendNextIndex sendMatchIndex reply =>
      obtain ⟨front, hsnap, hack⟩ := h
      exact ⟨front, hsnap.grows grows, fun hterm => Nat.le_trans (hack hterm) (grows.ack _ _)⟩

theorem FlightRel.grows (grows : Grows A A') {flight : Flight n C} (h : FlightRel A flight) :
    FlightRel A' flight :=
  ⟨h.distinct, h.msg.grows grows⟩

end Growth

end DistributedLabs
