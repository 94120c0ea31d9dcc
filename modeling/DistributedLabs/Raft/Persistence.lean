import DistributedLabs.Raft.Moves

/-!
# What a crash keeps

Whenever `rf.mu` is released the persister holds the term, the vote, the log and
the snapshot that the peer has in memory.  `Make` reads the same four values back
and starts at the compaction point.
-/

namespace DistributedLabs

open DistributedLabs.Library

variable {n : Nat} {C : Type}

/-- The values that have to survive a crash. -/
structure Stable (n : Nat) (C : Type) where
  currentTerm : Int
  voteFor : Option (Fin n)
  log : List (LogEntry C)
  snapshot : Bytes

/-- What a persister stands for; an empty one stands for a new peer. -/
def Persister.decode (persister : Persister n C) : Stable n C :=
  match persister.raftstate with
  | none => ⟨0, none, [⟨-1, 0, none⟩], persister.snapshot⟩
  | some (currentTerm, voteFor, log) => ⟨currentTerm, voteFor, log, persister.snapshot⟩

@[simp]
theorem Persister.decode_snapshot (persister : Persister n C) :
    persister.decode.snapshot = persister.snapshot := by
  unfold decode
  split <;> rfl

namespace Raft

variable {rf rf' : Raft n C}

def stable (rf : Raft n C) : Stable n C :=
  ⟨rf.currentTerm, rf.voteFor, rf.log, rf.snapshot⟩

/-- The persister and the memory agree. -/
def Coherent (rf : Raft n C) : Prop :=
  rf.persister.decode = rf.stable

/-- The persister agrees with a memory from which `Make` can start. -/
structure Durable (rf : Raft n C) : Prop where
  coherent : rf.Coherent
  nonempty : rf.log ≠ []

/-! ## Restarting -/

/-- The peer that `Make` returns. -/
def restarted (me : Fin n) (persister : Persister n C) (first last : LogEntry C)
    (incarnation : Nat) : Raft n C where
  state := .follower
  currentTerm := persister.decode.currentTerm
  voteFor := persister.decode.voteFor
  log := persister.decode.log
  snapshot := persister.decode.snapshot
  commitIndex := first.index
  lastApplied := first.index
  nextIndex := fun _ => last.index + 1
  matchIndex := fun i => if i = me then last.index else 0
  persister := persister
  elections := []
  snapShotSends := []
  installs := []
  applier := .top
  applySeqMu := .free
  applyCh := ⟨first.index, []⟩
  incarnation := incarnation

theorem getLastLog_eq (rf : Raft n C) : rf.getLastLog = rf.log.getLast? :=
  Slice.get_last rf.log

theorem getFirstLog_eq (rf : Raft n C) : rf.getFirstLog = rf.log.head? := by
  rw [getFirstLog, Slice.get_zero, List.head?_eq_getElem?]

theorem resetRaftIndex_of_last {me : Fin n} {last : LogEntry C}
    (hlast : rf.log.getLast? = some last) : rf.resetRaftIndex me = some { rf with
      nextIndex := fun _ => last.index + 1
      matchIndex := fun i => if i = me then last.index else 0 } := by
  have hget : rf.getLastLog = some last := (getLastLog_eq rf).trans hlast
  have hbase : rf.nextIndexBase = some last := by
    unfold nextIndexBase
    split
    · next hone => rw [← hget, getLastLog, hone]; rfl
    · exact hget
  simp [resetRaftIndex, hbase, hget]

theorem make_eq (me : Fin n) {persister : Persister n C} (incarnation : Nat)
    {first last : LogEntry C} (hfirst : persister.decode.log.head? = some first)
    (hlast : persister.decode.log.getLast? = some last) :
    make me persister incarnation = some (restarted me persister first last incarnation) := by
  obtain ⟨raftstate, snapshot⟩ := persister
  cases raftstate with
  | none =>
      simp only [Persister.decode, List.head?_cons, List.getLast?_singleton,
        Option.some.injEq] at hfirst hlast
      subst hfirst hlast
      simp [make, readPersist, blank, resetRaftIndex, nextIndexBase, getLastLog,
        getFirstLog, Slice.get, restarted, Persister.decode]
  | some saved =>
      obtain ⟨currentTerm, voteFor, log⟩ := saved
      simp only [Persister.decode] at hfirst hlast
      rw [List.head?_eq_getElem?] at hfirst
      simp only [make, readPersist, blank, getFirstLog, Slice.get_zero, hfirst,
        Option.bind_eq_bind, Option.bind_some]
      rw [resetRaftIndex_of_last (by exact hlast)]
      simp [hfirst, restarted, Persister.decode]

/-- A crash here loses nothing that has to survive, and the next incarnation starts
at the compaction point. -/
def Transparent (me : Fin n) (rf : Raft n C) : Prop :=
  rf.Coherent ∧ ∀ incarnation, ∃ made first, make me rf.persister incarnation = some made ∧
    made.stable = rf.stable ∧ made.log.head? = some first ∧
    made.commitIndex = first.index ∧ made.lastApplied = first.index

theorem Durable.make_eq (h : Durable rf) (me : Fin n) (incarnation : Nat) :
    ∃ first last, rf.log.head? = some first ∧ rf.log.getLast? = some last ∧
      make me rf.persister incarnation =
        some (restarted me rf.persister first last incarnation) := by
  have hlog : rf.persister.decode.log = rf.log := congrArg Stable.log h.coherent
  have hfirst := List.head?_eq_some_head h.nonempty
  have hlast := List.getLast?_eq_some_getLast h.nonempty
  refine ⟨_, _, hfirst, hlast, Raft.make_eq me incarnation ?_ ?_⟩
  · rw [hlog]
    exact hfirst
  · rw [hlog]
    exact hlast

theorem Durable.transparent (h : Durable rf) (me : Fin n) : Transparent me rf := by
  refine ⟨h.coherent, fun incarnation => ?_⟩
  obtain ⟨first, last, hfirst, _, hmake⟩ := h.make_eq me incarnation
  have hlog : rf.persister.decode.log = rf.log := congrArg Stable.log h.coherent
  exact ⟨_, first, hmake, h.coherent, by rw [← hfirst, ← hlog]; rfl, rfl, rfl⟩

/-! ## Every operation leaves the two in agreement -/

theorem durable_persist (hnonempty : rf.log ≠ []) : Durable rf.persist :=
  ⟨rfl, hnonempty⟩

theorem Durable.leaveCandidate (h : Durable rf) : Durable rf.leaveCandidate :=
  ⟨h.coherent, h.nonempty⟩

theorem Durable.catchUp (h : Durable rf) (term : Int) : Durable (rf.catchUp term) := by
  rcases catchUp_cases rf term with ⟨_, heq⟩ | ⟨_, heq⟩
  · rw [heq]
    exact h
  · rw [heq]
    exact durable_persist h.nonempty

theorem Durable.commits (h : Durable rf) (hcommits : Commits rf rf') : Durable rf' := by
  rw [hcommits.eq]
  exact ⟨h.coherent, h.nonempty⟩

theorem Durable.requestVote (h : Durable rf) (args : RequestVoteArgs n) :
    Durable (rf.requestVote args).1 := by
  rcases requestVote_cases rf args with ⟨_, heq⟩ | ⟨_, heq | ⟨heq, _⟩⟩
  · rw [heq]
    exact h
  · rw [heq]
    exact h.catchUp args.term
  · rw [heq]
    exact durable_persist (h.catchUp args.term).nonempty

theorem Durable.requestHeartBeat (h : Durable rf) (args : HeartBeatArgs n) :
    Durable (rf.requestHeartBeat args).1 := by
  unfold Raft.requestHeartBeat
  split
  · exact h
  · refine Durable.catchUp ?_ args.term
    split
    · exact h.leaveCandidate
    · exact h

theorem mergeEntries_ne_nil {first : LogEntry C} {args : SendLogArgs n C}
    {log : List (LogEntry C)} (hnonempty : rf.log ≠ [])
    (h : rf.mergeEntries first args = some log) : log ≠ [] := by
  rcases mergeEntries_cases h with ⟨rfl, _⟩ | ⟨kept, lastEntry, hlast, _, _, rfl⟩
  · exact hnonempty
  · intro hnil
    rw [(List.append_eq_nil_iff.mp hnil).2] at hlast
    cases hlast

theorem Durable.requestSendLog (h : Durable rf) {args : SendLogArgs n C} {reply : SendLogReply}
    (hrun : rf.requestSendLog args = some (rf', reply)) : Durable rf' := by
  have hcaught := h.catchUp args.term
  cases requestSendLog_outcome hrun with
  | stale => exact h
  | refused => exact hcaught
  | below => exact hcaught
  | taken _ _ _ _ _ _ merged followed =>
      exact (durable_persist (mergeEntries_ne_nil hcaught.nonempty merged)).commits
        (followCommit_cases followed).1

theorem Durable.requestInstallSnapShot (h : Durable rf) {args : RequestSnapShotArgs n}
    {reply : RequestSnapShotReply} (hrun : rf.requestInstallSnapShot args = some (rf', reply)) :
    Durable rf' := by
  have hcaught := h.catchUp args.term
  cases requestInstallSnapShot_outcome hrun with
  | stale => exact durable_persist h.nonempty
  | covered => exact durable_persist hcaught.nonempty
  | replaced => exact durable_persist (List.cons_ne_nil _ _)

theorem Durable.start (h : Durable rf) {me : Fin n} {command : Option C}
    {result : Int × Int × Bool} (hrun : rf.start me command = some (rf', result)) :
    Durable rf' := by
  rcases start_cases hrun with rfl | ⟨_, last, _, rfl⟩
  · exact h
  · exact durable_persist (by simp)

theorem Durable.serviceSnapshot (h : Durable rf) {index : Int} {bytes : Bytes}
    (hrun : rf.serviceSnapshot index bytes = some rf') : Durable rf' := by
  rcases serviceSnapshot_cases hrun with rfl | ⟨_, _, _, _, _, _, _, _, _, _, rfl⟩
  · exact h
  · exact durable_persist (List.cons_ne_nil _ _)

theorem Durable.handleVoteReply (h : Durable rf) (args : RequestVoteArgs n)
    (reply : Option RequestVoteReply) : Durable (rf.handleVoteReply args reply) := by
  obtain ⟨term, heq⟩ := handleVoteReply_eq rf args reply
  rw [heq]
  have hcounted : Durable (rf.countVote args reply) := ⟨h.coherent, h.nonempty⟩
  exact hcounted.catchUp term

theorem Durable.advanceCommit (h : Durable rf) (hrun : rf.advanceCommit = some rf') :
    Durable rf' :=
  h.commits (advanceCommit_cases hrun).1

theorem Durable.handleSendLogReply (h : Durable rf) {peer : Fin n} {args : SendLogArgs n C}
    {recodeNextIndex : Int} {reply : SendLogReply}
    (hrun : rf.handleSendLogReply peer args recodeNextIndex reply = some rf') : Durable rf' := by
  cases handleSendLogReply_answer hrun with
  | overtaken => exact h.catchUp reply.term
  | ignored => exact h
  | @matched lastEntry _ _ _ _ _ advanced =>
      have hrecorded : Durable (rf.recordMatch peer lastEntry) := ⟨h.coherent, h.nonempty⟩
      exact hrecorded.advanceCommit advanced
  | backed _ _ _ _ _ backed =>
      obtain ⟨_, _, index, _, _, rfl, _⟩ := backUp_cases backed
      exact ⟨h.coherent, h.nonempty⟩

theorem Durable.handleSnapShotReply (h : Durable rf) {peer : Fin n}
    {args : RequestSnapShotArgs n} {sendNextIndex sendMatchIndex : Int}
    {reply : RequestSnapShotReply}
    (hrun : rf.handleSnapShotReply peer args sendNextIndex sendMatchIndex reply = some rf') :
    Durable rf' := by
  cases handleSnapShotReply_answer hrun with
  | overtaken => exact h.catchUp reply.term
  | ignored => exact h
  | recorded _ _ _ advanced =>
      have hrecorded : Durable (rf.recordSnapShot peer sendNextIndex sendMatchIndex
          args.lastIncludedIndex) := ⟨h.coherent, h.nonempty⟩
      exact hrecorded.advanceCommit advanced

theorem Durable.operation (h : Durable rf) {op : Operation n C} (hrun : op.run rf = some rf') :
    Durable rf' := by
  cases op with
  | requestVote args =>
      cases hrun
      exact h.requestVote args
  | requestHeartBeat args =>
      cases hrun
      exact h.requestHeartBeat args
  | requestSendLog args =>
      obtain ⟨⟨after, reply⟩, hafter, rfl⟩ := Option.map_eq_some_iff.mp hrun
      exact h.requestSendLog hafter
  | requestInstallSnapShot args =>
      obtain ⟨⟨after, reply⟩, hafter, rfl⟩ := Option.map_eq_some_iff.mp hrun
      exact h.requestInstallSnapShot hafter
  | start me command =>
      obtain ⟨⟨after, result⟩, hafter, rfl⟩ := Option.map_eq_some_iff.mp hrun
      exact h.start hafter
  | snapshot index bytes => exact h.serviceSnapshot hrun
  | startElection me =>
      cases hrun
      exact durable_persist h.nonempty
  | voteReply args reply =>
      cases hrun
      exact h.handleVoteReply args reply
  | sendLogReply peer args recodeNextIndex reply => exact h.handleSendLogReply hrun
  | snapShotReply peer args sendNextIndex sendMatchIndex reply => exact h.handleSnapShotReply hrun

theorem durable_make (h : Durable rf) {me : Fin n} {incarnation : Nat}
    (hrun : make me rf.persister incarnation = some rf') : Durable rf' := by
  obtain ⟨first, last, _, _, hmake⟩ := h.make_eq me incarnation
  obtain rfl := Option.some.inj (hmake.symm.trans hrun)
  refine ⟨rfl, fun hnil => h.nonempty ?_⟩
  rw [← hnil]
  exact (congrArg Stable.log h.coherent).symm

theorem Durable.frame (h : Durable rf) (hframe : Frame rf rf') : Durable rf' := by
  refine ⟨?_, hframe.log ▸ h.nonempty⟩
  have hcoherent := h.coherent
  unfold Coherent stable at hcoherent ⊢
  rw [hframe.persister, hframe.currentTerm, hframe.voteFor, hframe.log, hframe.snapshot]
  exact hcoherent

theorem Durable.move (h : Durable rf) {net : List (Flight n C)} {p : Fin n} {action : Action n C}
    (hmove : PeerMove net p rf action rf') : Durable rf' := by
  rcases hmove.frame with ⟨op, _, hrun⟩ | hframe | ⟨_, hcrash⟩
  · exact h.operation hrun
  · exact h.frame hframe
  · exact durable_make h hcrash

end Raft

namespace Cluster

variable {s : Cluster n C}

theorem durable_of_reachable (hreach : Reachable s) (p : Fin n) : (s.peers p).Durable :=
  peer_of_reachable hreach p ⟨rfl, List.cons_ne_nil _ _⟩ fun _ h hmove => h.move hmove

/-- In every reachable state, and after every operation from it, a crash loses nothing. -/
theorem crash_transparent (hreach : Reachable s) (p : Fin n) :
    (s.peers p).Transparent p ∧ ∀ (op : Operation n C) (rf : Raft n C),
      op.run (s.peers p) = some rf → rf.Transparent p :=
  ⟨(durable_of_reachable hreach p).transparent p,
    fun _ _ hrun => ((durable_of_reachable hreach p).operation hrun).transparent p⟩

theorem crash_transparent_after_vote : ∃ s : Cluster 3 Nat, Reachable s ∧
    (s.peers 1).voteFor = some 0 ∧ (s.peers 1).Transparent 1 := by
  have hchecked : RunHolds step [.ticker 0, .deliver 0] (initial : Cluster 3 Nat) fun s =>
      (s.peers 1).voteFor = some 0 := by
    decide +kernel
  obtain ⟨s, hreach, hvote⟩ := hchecked.exists_reaches
  exact ⟨s, hreach, hvote, (crash_transparent hreach 1).1⟩

end Cluster

end DistributedLabs
