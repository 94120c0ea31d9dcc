import DistributedLabs.Raft.Stream

/-!
# Snapshots and the logs they stand for

The first entry of a log names the entry up to which the log was compacted, and
the snapshot beside it holds the state of a service at that entry.  The two are
set together by `Snapshot`, travel together in a request, are stored together and
are read back together, so that they stay paired on every peer.  A message on the
channel is different: it takes its index when the snapshot is installed and its
bytes when the goroutine of the installation runs.
-/

namespace DistributedLabs

open DistributedLabs.Library

variable {n : Nat} {C : Type}

/-! ## Operations and the compaction point -/

/-- The compaction point and the snapshot stay. -/
structure KeepsBase (rf rf' : Raft n C) : Prop where
  head : rf'.log.head? = rf.log.head?
  snapshot : rf'.snapshot = rf.snapshot

namespace KeepsBase

variable {rf rf' : Raft n C}

theorem refl (rf : Raft n C) : KeepsBase rf rf :=
  ⟨rfl, rfl⟩

theorem catchUp (rf : Raft n C) (term : Int) : KeepsBase rf (rf.catchUp term) :=
  ⟨by rw [Raft.catchUp_log], by rw [Raft.catchUp_snapshot]⟩

theorem commits {mid : Raft n C} (hcommits : Raft.Commits mid rf') (h : KeepsBase rf mid) :
    KeepsBase rf rf' := by
  rw [hcommits.eq]
  exact { h with }

/-- Entries are only spliced in above the compaction point. -/
theorem mergeEntries {first : LogEntry C} {args effective : SendLogArgs n C}
    {log : List (LogEntry C)} (hfirst : rf.getFirstLog = some first)
    (htrimmed : Raft.Trimmed first args effective)
    (hmerged : rf.mergeEntries first effective = some log) : log.head? = rf.log.head? := by
  rcases Raft.mergeEntries_cases hmerged with ⟨rfl, _⟩ | ⟨kept, lastEntry, hlast, _, hkept, rfl⟩
  · rfl
  · have hprev : first.index ≤ effective.prevLogIndex := by
      cases htrimmed with
      | whole above =>
          rcases above with hle | hnil
          · exact hle
          · rw [hnil] at hlast
            cases hlast
      | cut => exact Int.le_refl _
    rw [Raft.getFirstLog_eq] at hfirst
    obtain ⟨k, hk⟩ : ∃ k, (effective.prevLogIndex - first.index + 1).toNat = k + 1 :=
      ⟨(effective.prevLogIndex - first.index).toNat, by omega⟩
    obtain rfl := Slice.high_eq_some hkept
    rw [hk]
    cases hlog : rf.log with
    | nil =>
        rw [hlog] at hfirst
        cases hfirst
    | cons head rest => simp

theorem requestSendLog {args : SendLogArgs n C} {reply : SendLogReply}
    (h : rf.requestSendLog args = some (rf', reply)) : KeepsBase rf rf' := by
  have hcaught := KeepsBase.catchUp rf args.term
  cases Raft.requestSendLog_outcome h with
  | stale => exact KeepsBase.refl rf
  | refused => exact hcaught
  | below => exact hcaught
  | taken _ hfirst _ _ trimmed _ merged followed =>
      refine KeepsBase.commits (Raft.followCommit_cases followed).1 ⟨?_, hcaught.snapshot⟩
      exact (KeepsBase.mergeEntries hfirst trimmed merged).trans hcaught.head

/-- An installed snapshot replaces the compaction point together with the bytes. -/
theorem requestInstallSnapShot {args : RequestSnapShotArgs n} {reply : RequestSnapShotReply}
    (h : rf.requestInstallSnapShot args = some (rf', reply)) : KeepsBase rf rf' ∨
      (rf'.log.head? = some ⟨args.lastIncludedTerm, args.lastIncludedIndex, none⟩ ∧
        rf'.snapshot = args.data) := by
  have hcaught := KeepsBase.catchUp rf args.term
  cases Raft.requestInstallSnapShot_outcome h with
  | stale => exact Or.inl { KeepsBase.refl rf with }
  | covered => exact Or.inl { hcaught with }
  | replaced => exact Or.inr ⟨rfl, rfl⟩

theorem start {me : Fin n} {command : Option C} {result : Int × Int × Bool}
    (h : rf.start me command = some (rf', result)) : KeepsBase rf rf' := by
  rcases Raft.start_cases h with rfl | ⟨_, last, hlast, rfl⟩
  · exact KeepsBase.refl _
  · rw [Raft.getLastLog_eq] at hlast
    refine ⟨?_, rfl⟩
    show (rf.log ++ _).head? = _
    cases hlog : rf.log with
    | nil =>
        rw [hlog] at hlast
        cases hlast
    | cons head rest => rfl

/-- Only a snapshot of the service or an installed one moves the compaction point. -/
theorem operation {op : Operation n C} (h : op.run rf = some rf') : KeepsBase rf rf' ∨
    (∃ index bytes, op = .snapshot index bytes) ∨
    ∃ args, op = .requestInstallSnapShot args ∧
      rf'.log.head? = some ⟨args.lastIncludedTerm, args.lastIncludedIndex, none⟩ ∧
      rf'.snapshot = args.data := by
  rcases Operation.log_cases h with hkeeps | ⟨args, reply, rfl, hrun⟩ | ⟨args, reply, rfl, hrun⟩ |
    ⟨me, command, result, rfl, hrun⟩ | ⟨index, bytes, rfl, _⟩
  · exact Or.inl ⟨by rw [hkeeps.log], hkeeps.snapshot⟩
  · exact Or.inl (KeepsBase.requestSendLog hrun)
  · rcases KeepsBase.requestInstallSnapShot hrun with hkeeps | ⟨hhead, hbytes⟩
    · exact Or.inl hkeeps
    · exact Or.inr (Or.inr ⟨args, rfl, hhead, hbytes⟩)
  · exact Or.inl (KeepsBase.start hrun)
  · exact Or.inr (Or.inl ⟨index, bytes, rfl⟩)

end KeepsBase

/-! ## Snapshots on the network -/

/-- The snapshot a call carries. -/
def Message.snapShotArgs : Message n C → Option (RequestSnapShotArgs n)
  | snapShotRequest args _ _ | snapShotReply args _ _ _ => some args
  | _ => none

/-- Handling a request keeps the snapshot that the call carries. -/
theorem Message.execute_snapShotArgs {rf rf' : Raft n C} {msg msg' : Message n C}
    (h : msg.execute rf = .ok (rf', msg')) : msg'.snapShotArgs = msg.snapShotArgs := by
  cases msg with
  | voteRequest args =>
      cases h
      rfl
  | logRequest args recodeNextIndex =>
      obtain ⟨⟨after, reply⟩, _, heq⟩ := Outcome.map_eq_ok.mp h
      cases heq
      rfl
  | snapShotRequest args sendNextIndex sendMatchIndex =>
      obtain ⟨⟨after, reply⟩, _, heq⟩ := Outcome.map_eq_ok.mp h
      cases heq
      rfl
  | _ => cases h

namespace Cluster

variable {s s' : Cluster n C}

/-- A snapshot on the network was there before or is the one some peer holds. -/
theorem step_snapShotArgs {action : Action n C} (h : s.step action = .ok s')
    {flight : Flight n C} (hmem : flight ∈ s'.net) {args : RequestSnapShotArgs n}
    (hargs : flight.msg.snapShotArgs = some args) :
    (∃ old ∈ s.net, old.msg.snapShotArgs = some args) ∨ ∃ p, s.Sends p args := by
  rcases step_net h hmem with hold | ⟨old, hold, rf', hrun⟩ | ⟨request, hmsg⟩ |
    ⟨request, recodeNextIndex, _, _, _, _, _, hmsg⟩ |
    ⟨p, request, sendNextIndex, sendMatchIndex, hsends, hmsg⟩
  · exact Or.inl ⟨flight, hold, hargs⟩
  · rw [Message.execute_snapShotArgs hrun] at hargs
    exact Or.inl ⟨old, hold, hargs⟩
  · rw [hmsg] at hargs
    cases hargs
  · rw [hmsg] at hargs
    cases hargs
  · rw [hmsg] at hargs
    obtain rfl := Option.some.inj hargs
    exact Or.inr ⟨p, hsends⟩

/-! ## Where a stored snapshot comes from -/

/-- The peer `q` holds an entry of `term` at `index` above its compaction point, and counts
it as committed. -/
def HoldsCommitted (s : Cluster n C) (q : Fin n) (index term : Int) : Prop :=
  index ≤ (s.peers q).commitIndex ∧ ∃ base entry, (s.peers q).getFirstLog = some base ∧
    base.index < index ∧ (s.peers q).logAt index = some entry ∧ entry.term = term

/-- Some service passed `bytes` to `Snapshot(first.index, ...)` on a peer that held the
committed entry there with the term of `first`. -/
def Taken (actions : List (Action n C)) (first : LogEntry C) (bytes : Bytes) : Prop :=
  ∃ before after t q, actions = before ++ .snapshot q first.index bytes :: after ∧
    Runs step initial before t ∧ t.HoldsCommitted q first.index first.term

/-- The log starts at the initial dummy beside an empty snapshot, or where a service took
the snapshot beside it. -/
def Paired (actions : List (Action n C)) (first : LogEntry C) (bytes : Bytes) : Prop :=
  (first.term = -1 ∧ first.index = 0 ∧ bytes = []) ∨ Taken actions first bytes

theorem Paired.extend {actions : List (Action n C)} {first : LogEntry C} {bytes : Bytes}
    (h : Paired actions first bytes) (action : Action n C) :
    Paired (actions ++ [action]) first bytes := by
  rcases h with hinitial | ⟨before, after, t, q, rfl, hrun, hheld⟩
  · exact Or.inl hinitial
  · exact Or.inr ⟨before, after ++ [action], t, q, by simp, hrun, hheld⟩

/-- Every snapshot that is stored or on the network is paired. -/
structure PairedAll (actions : List (Action n C)) (s : Cluster n C) : Prop where
  peers : ∀ p first, (s.peers p).log.head? = some first →
    Paired actions first (s.peers p).snapshot
  flights : ∀ flight ∈ s.net, ∀ args, flight.msg.snapShotArgs = some args →
    Paired actions ⟨args.lastIncludedTerm, args.lastIncludedIndex, none⟩ args.data

theorem pairedAll_initial : PairedAll [] (initial : Cluster n C) where
  peers := by
    intro p first hfirst
    cases hfirst
    exact Or.inl ⟨rfl, rfl, rfl⟩
  flights := fun flight hmem => by cases hmem

/-- A snapshot of the own service is taken at a committed entry. -/
theorem paired_serviceSnapshot {actions : List (Action n C)} {p : Fin n} {rf : Raft n C}
    {index : Int} {bytes : Bytes} {first : LogEntry C} (hrun : Runs step initial actions s)
    (hpaired : ∀ first, (s.peers p).log.head? = some first →
      Paired actions first (s.peers p).snapshot) (hgiven : (s.peers p).Given index)
    (hsnapshot : (s.peers p).serviceSnapshot index bytes = some rf)
    (hfirst : rf.log.head? = some first) :
    Paired (actions ++ [.snapshot p index bytes]) first rf.snapshot := by
  obtain ⟨A, hrefines⟩ := exists_refines hrun.reaches
  obtain ⟨f, c, hpeer, hchannel⟩ := hrefines.peers p
  rcases hpeer.serviceSnapshot hchannel hgiven hsnapshot with rfl | ⟨i, rfl, hf, hc, rfl⟩
  · exact (hpaired first hfirst).extend _
  · obtain rfl := Option.some.inj (compact_head?.symm.trans hfirst)
    refine Or.inr ⟨actions, [], s, p, rfl, hrun, ?_, _, _, hpeer.first, ?_,
      hpeer.logAt_eq (Nat.le_of_lt hf) (Nat.le_trans hc hpeer.commit_le), rfl⟩
    · rw [hpeer.commit]
      exact Int.ofNat_le.mpr hc
    · exact Int.ofNat_lt.mpr hf

theorem PairedAll.peer_step {actions : List (Action n C)} {action : Action n C}
    (h : PairedAll actions s) (hrun : Runs step initial actions s)
    (hstep : s.step action = .ok s') (p : Fin n) (first : LogEntry C)
    (hfirst : (s'.peers p).log.head? = some first) :
    Paired (actions ++ [action]) first (s'.peers p).snapshot := by
  have hkeeps : KeepsBase (s.peers p) (s'.peers p) →
      Paired (actions ++ [action]) first (s'.peers p).snapshot := by
    intro hkeeps
    rw [hkeeps.snapshot]
    exact (h.peers p first (hkeeps.head ▸ hfirst)).extend action
  rcases step_moves hstep p with hsame | hmove
  · exact hkeeps (hsame ▸ KeepsBase.refl _)
  · rcases hmove.frame with ⟨op, hcause, hop⟩ | hframe | ⟨_, hcrash⟩
    · rcases KeepsBase.operation hop with hbase | ⟨index, bytes, rfl⟩ | ⟨args, rfl, hhead, hbytes⟩
      · exact hkeeps hbase
      · obtain ⟨rfl, hgiven⟩ := hcause
        exact paired_serviceSnapshot hrun (h.peers p) hgiven hop hfirst
      · obtain ⟨flight, hmem, sendNextIndex, sendMatchIndex, hmsg, _⟩ := hcause
        obtain rfl := Option.some.inj (hhead.symm.trans hfirst)
        rw [hbytes]
        exact (h.flights flight hmem args (by rw [hmsg]; rfl)).extend action
    · exact hkeeps ⟨by rw [hframe.log], hframe.snapshot⟩
    · have hdurable := durable_of_reachable hrun.reaches p
      obtain ⟨base, last, _, _, hmake⟩ := hdurable.make_eq p ((s.peers p).incarnation + 1)
      have hmade := Option.some.inj (hmake.symm.trans hcrash)
      refine hkeeps ⟨?_, ?_⟩
      · rw [← hmade]
        exact congrArg (fun stable => stable.log.head?) hdurable.coherent
      · rw [← hmade]
        exact congrArg Stable.snapshot hdurable.coherent

theorem PairedAll.next {actions : List (Action n C)} {action : Action n C}
    (h : PairedAll actions s) (hrun : Runs step initial actions s)
    (hstep : s.step action = .ok s') : PairedAll (actions ++ [action]) s' where
  peers := h.peer_step hrun hstep
  flights := by
    intro flight hmem args hargs
    rcases step_snapShotArgs hstep hmem hargs with ⟨old, hold, hsame⟩ | ⟨p, first, hfirst, hindex,
      hterm, hdata⟩
    · exact (h.flights old hold args hsame).extend action
    · rw [Raft.getFirstLog_eq] at hfirst
      rw [hindex, hterm, hdata]
      exact (h.peers p first hfirst).extend action

theorem pairedAll_of_runs {actions : List (Action n C)} (hrun : Runs step initial actions s) :
    PairedAll actions s := by
  induction hrun with
  | refl => exact pairedAll_initial
  | tail before permitted taken ih => exact ih.next before taken

/-! ## After a restart -/

/-- A channel keeps its start and what was sent on it while the incarnation lasts. -/
theorem channel_of_step (hreach : Reachable s) {action : Action n C}
    (hstep : s.step action = .ok s') (p : Fin n) :
    ((s'.peers p).incarnation = (s.peers p).incarnation ∧
      (s'.peers p).applyCh.start = (s.peers p).applyCh.start ∧
      (s.peers p).applyCh.msgs <+: (s'.peers p).applyCh.msgs) ∨
    (action = .crash p ∧ (s'.peers p).incarnation = (s.peers p).incarnation + 1) := by
  rcases step_moves hstep p with hsame | hmove
  · rw [hsame]
    exact Or.inl ⟨rfl, rfl, List.prefix_refl _⟩
  · rcases hmove.frame with ⟨op, _, hop⟩ | hframe | ⟨rfl, hcrash⟩
    · have hquiet := Quiet.operation hop
      exact Or.inl ⟨hquiet.incarnation, by rw [hquiet.applyCh],
        by rw [hquiet.applyCh]⟩
    · exact Or.inl ⟨hframe.incarnation, hframe.start, hframe.msgs⟩
    · obtain ⟨first, last, _, _, hmake⟩ := (durable_of_reachable hreach p).make_eq p
        ((s.peers p).incarnation + 1)
      rw [← Option.some.inj (hmake.symm.trans hcrash)]
      exact Or.inr ⟨rfl, rfl⟩

theorem start_of_reaches (hreach : Reachable s) (hrun : Reaches step s s') (p : Fin n) :
    (s.peers p).incarnation ≤ (s'.peers p).incarnation ∧
      ((s'.peers p).incarnation = (s.peers p).incarnation →
        (s'.peers p).applyCh.start = (s.peers p).applyCh.start) := by
  induction hrun with
  | refl => exact ⟨Nat.le_refl _, fun _ => rfl⟩
  | tail before last ih =>
      obtain ⟨action, hstep⟩ := last
      obtain ⟨hle, hstart⟩ := ih
      rcases channel_of_step (hreach.trans before) hstep p with ⟨hsame, hkept, _⟩ | ⟨_, hnext⟩
      · rw [hsame, hkept]
        exact ⟨hle, hstart⟩
      · exact ⟨by omega, fun heq => by omega⟩

/-- The term at a compaction point is the one of the committed entry there. -/
theorem base_term (hreach : Reachable s) {p q : Fin n} {first entry : LogEntry C}
    (hfirst : (s.peers p).getFirstLog = some first)
    (hcommit : first.index ≤ (s.peers q).commitIndex)
    (hentry : (s.peers q).logAt first.index = some entry) : entry.term = first.term := by
  obtain ⟨A, hrefines⟩ := exists_refines hreach
  obtain ⟨f, c, hpeer, _⟩ := hrefines.peers p
  obtain ⟨f', c', hpeer', _⟩ := hrefines.peers q
  obtain rfl := Option.some.inj (hpeer.first.symm.trans hfirst)
  obtain ⟨i, hindex, _, hi, rfl⟩ := hpeer'.logAt_inv hentry
  obtain rfl : f = i := Int.ofNat.inj hindex
  rw [hpeer'.commit] at hcommit
  have hother := hpeer'.committed.shorten (List.take_prefix_take_left (Int.ofNat_le.mp hcommit))
  have hlength : ((A.log p).take f).length = ((A.log q).take f).length := by
    rw [take_length_of_le hpeer.base_le, take_length_of_le hi]
  have hsame : (A.log q).take f = (A.log p).take f := by
    rcases hrefines.valid.committed_total hpeer.base hother with hin | hin
    · exact (hin.eq_of_length hlength).symm
    · exact hin.eq_of_length hlength.symm
  exact (entryAt_of_take_eq (f := f') (g := f) hsame).1

/-- A restarted peer has the stored snapshot, and the first command to arrive is the one behind
it. -/
theorem crash_resumes (hreach : Reachable s) {p : Fin n} {first : LogEntry C}
    (hfirst : (s.peers p).log.head? = some first) :
    ∃ made, s.step (.crash p) = .ok made ∧
      (made.peers p).snapshot = (s.peers p).persister.decode.snapshot ∧
      ∀ t, Reaches step made t → (t.peers p).incarnation = (made.peers p).incarnation →
        ∀ msg rest, (t.peers p).applyCh.msgs = msg :: rest → msg.commandValid = true →
          msg.commandIndex = first.index + 1 := by
  obtain ⟨base, last, hbase, _, hmake⟩ := (durable_of_reachable hreach p).make_eq p
    ((s.peers p).incarnation + 1)
  obtain rfl := Option.some.inj (hbase.symm.trans hfirst)
  have hcrash : s.step (.crash p) = .ok { s.setPeer p (Raft.restarted p (s.peers p).persister
      base last ((s.peers p).incarnation + 1)) with
        past := s.past ++ [(p, (s.peers p).applyCh)] } := by
    simp only [step, crash, hmake]
    rfl
  refine ⟨_, hcrash, ?_, fun t hlater hsame msg rest hmsgs hvalid => ?_⟩
  · show ((s.setPeer p _).peers p).snapshot = _
    rw [setPeer_self]
    rfl
  · have hreach' := hreach.tail ⟨_, hcrash⟩
    have hstart := (start_of_reaches hreach' hlater p).2 hsame
    have hgapless := (delivering_of_reachable (hreach'.trans hlater) p).gapless
    have hput : (t.peers p).applyCh.Put ⟨(t.peers p).applyCh.start, []⟩ msg :=
      ⟨rfl, by rw [hmsgs]; exact List.prefix_append [msg] rest⟩
    rw [hgapless _ msg hput hvalid]
    show (t.peers p).applyCh.start + 1 = _
    rw [hstart]
    show ((s.setPeer p _).peers p).applyCh.start + 1 = _
    rw [setPeer_self]
    rfl

end Cluster

namespace SharedCluster

open Cluster (Paired installTwo)

/-- In memory and in the persister the snapshot is the one taken at the compaction point.
After a restart the first command to arrive is the one behind it. -/
theorem snapshot_paired {s : SharedCluster n C} {actions : List (SharedAction (Action n C))}
    (hrun : RunsIf step EncodedAsBuilt initial actions s) (p : Fin n) :
    (∃ first, (s.base.peers p).getFirstLog = some first ∧
      Paired (actions.filterMap SharedAction.seen) first (s.base.peers p).snapshot ∧
      ∀ q entry, first.index ≤ (s.base.peers q).commitIndex →
        (s.base.peers q).logAt first.index = some entry → entry.term = first.term) ∧
    ∃ first, (s.base.peers p).persister.decode.log.head? = some first ∧
      Paired (actions.filterMap SharedAction.seen) first
        (s.base.peers p).persister.decode.snapshot ∧
      ∀ full, ∃ made, step s (.own (.crash p) full) = .ok made ∧
        (made.base.peers p).snapshot = (s.base.peers p).persister.decode.snapshot ∧
        ∀ t, BuiltRun made t →
          (t.base.peers p).incarnation = (made.base.peers p).incarnation →
          ∀ msg rest, (t.base.peers p).applyCh.msgs = msg :: rest → msg.commandValid = true →
            msg.commandIndex = first.index + 1 := by
  have hbase := runs_base hrun
  have hreach : Cluster.Reachable s.base := hbase.reaches
  have hpaired := (Cluster.pairedAll_of_runs hbase).peers p
  have hdurable := Cluster.durable_of_reachable hreach p
  obtain ⟨first, _, hfirst, _, _⟩ := hdurable.make_eq p 0
  have hcoherent : (s.base.peers p).persister.decode = (s.base.peers p).stable := hdurable.coherent
  have hhead := (Raft.getFirstLog_eq (s.base.peers p)).trans hfirst
  refine ⟨⟨first, hhead, hpaired first hfirst,
    fun q entry hcommit hentry => Cluster.base_term hreach hhead hcommit hentry⟩, first, ?_, ?_,
    fun full => ?_⟩
  · rw [hcoherent]
    exact hfirst
  · rw [hcoherent]
    exact hpaired first hfirst
  · obtain ⟨made, hcrash, hsnapshot, hresumes⟩ := Cluster.crash_resumes hreach hfirst
    exact ⟨_, step_eq_follow full rfl hcrash, hsnapshot,
      fun t hlater => hresumes t.base hlater.reaches⟩

theorem snapshot_paired_installed : ∃ (actions : List (SharedAction (Action 3 Nat)))
    (s : SharedCluster 3 Nat), RunsIf step EncodedAsBuilt initial actions s ∧
      actions.filterMap SharedAction.seen = installTwo ∧
      ∃ first, (s.base.peers 2).getFirstLog = some first ∧ first.index = 2 ∧
        Paired installTwo first [2] := by
  have hchecked : RunHolds Cluster.step installTwo Cluster.initial fun s =>
      (s.peers 2).getFirstLog = some ⟨1, 2, none⟩ ∧ (s.peers 2).snapshot = [2] := by
    decide +kernel
  obtain ⟨t, hrun, hfirst, hbytes⟩ := hchecked.exists_runs
  obtain ⟨actions, s, hs, hseen, rfl, _⟩ := settled_initial.exists_runs hrun
  obtain ⟨⟨first, hfirst', hpaired, _⟩, _⟩ := snapshot_paired hs 2
  obtain rfl := Option.some.inj (hfirst.symm.trans hfirst')
  rw [hbytes, hseen] at hpaired
  exact ⟨actions, s, hs, hseen, _, hfirst, rfl, hpaired⟩

/-- Peers 2 and 3 have committed different entries at index 1, and 2 compacts its log there. -/
theorem compaction_point_of_other_term : ∃ s : SharedCluster 7 Nat, Reaches step initial s ∧
    (s.base.peers 2).getFirstLog = some ⟨2, 1, none⟩ ∧ (s.base.peers 3).commitIndex = 3 ∧
    (s.base.peers 3).logAt 1 = some ⟨1, 1, some 11⟩ := by
  have hchecked : RunHolds step (followOver ++ own [.applyCollect 2, .applyLock 2, .applySend 2,
        .snapshot 2 1 [1]]) initial fun s => (s.base.peers 2).getFirstLog = some ⟨2, 1, none⟩ ∧
      (s.base.peers 3).commitIndex = 3 ∧ (s.base.peers 3).logAt 1 = some ⟨1, 1, some 11⟩ := by
    decide +kernel
  exact hchecked.exists_reaches

end SharedCluster

namespace Cluster

variable {s : Cluster n C}

/-! ## Snapshots on the channel -/

/-- Only snapshots above the compaction point are installed, so none is at 0. -/
theorem installs_pos (hreach : Reachable s) (p : Fin n) :
    ∀ install ∈ (s.peers p).installs, 0 < install.snapShotIndex := by
  refine peer_of_reachable (P := fun rf => ∀ install ∈ rf.installs, 0 < install.snapShotIndex)
    hreach p (fun install hmem => by cases hmem) ?_
  intro t action rf' before h hmove install hmem
  rcases hmove.frame with ⟨op, _, hop⟩ | hframe | ⟨_, hcrash⟩
  · rcases (Quiet.operation hop).installs with hkept | ⟨first, new, hfirst, habove, hadded⟩
    · exact h install (hkept ▸ hmem)
    · rw [hadded] at hmem
      rcases List.mem_append.mp hmem with hold | hnew
      · exact h install hold
      · obtain rfl := List.mem_singleton.mp hnew
        obtain ⟨A, hrefines⟩ := exists_refines before
        obtain ⟨f, c, hpeer, _⟩ := hrefines.peers p
        obtain rfl := Option.some.inj (hpeer.first.symm.trans hfirst)
        simp only [entryAt] at habove
        omega
  · exact h install (hframe.installs install hmem)
  · obtain ⟨first, last, _, _, hmake⟩ := (durable_of_reachable before p).make_eq p _
    rw [← Option.some.inj (hmake.symm.trans hcrash)] at hmem
    cases hmem

end Cluster

/-- Every snapshot message that is built or sent is good. -/
structure Bears (good : ApplyMsg C → Prop) (rf : Raft n C) : Prop where
  prepared : ∀ index msg, rf.applySeqMu = .install index msg → good msg
  given : ∀ msg ∈ rf.applyCh.msgs, msg.snapshotValid = true → good msg

namespace Bears

variable {good : ApplyMsg C → Prop} {rf rf' : Raft n C}

/-- Messages are good when the goroutine that takes the mutex builds a good one. -/
theorem move (h : Bears good rf) {p : Fin n} {action : Action n C}
    (hmove : ChannelMove p rf action rf')
    (hbuilt : ∀ k install, action = .installLock p k → rf.installs[k]? = some install →
      good (rf.snapshotMsg install)) : Bears good rf' := by
  cases hmove with
  | still channel mutex =>
      refine ⟨fun index msg hmu => ?_, by rw [channel]; exact h.given⟩
      rcases mutex with hsame | hnone
      · exact h.prepared index msg (hsame ▸ hmu)
      · exact absurd hmu (hnone index msg)
  | command sending channel mutex =>
      refine ⟨by rw [mutex]; exact h.prepared, fun msg hmem hvalid => ?_⟩
      rw [channel] at hmem
      rcases List.mem_append.mp hmem with hold | hnew
      · exact h.given msg hold hvalid
      · rw [List.mem_singleton.mp hnew] at hvalid
        cases hvalid
  | @prepare k install lock found free channel mutex =>
      refine ⟨fun index msg hmu => ?_, by rw [channel]; exact h.given⟩
      rw [mutex] at hmu
      cases hmu
      exact hbuilt k install lock found
  | @snapshot index msg prepared channel mutex =>
      refine ⟨fun _ _ hmu => (by rw [mutex] at hmu; cases hmu), fun other hmem hvalid => ?_⟩
      rw [channel] at hmem
      rcases List.mem_append.mp hmem with hold | hnew
      · exact h.given other hold hvalid
      · rw [List.mem_singleton.mp hnew]
        exact h.prepared index msg prepared
  | restart channel mutex =>
      refine ⟨fun _ _ hmu => (by rw [mutex] at hmu; cases hmu), fun msg hmem => ?_⟩
      rw [channel] at hmem
      cases hmem

theorem imp {good' : ApplyMsg C → Prop} (h : Bears good rf)
    (himp : ∀ msg, good msg → good' msg) : Bears good' rf :=
  ⟨fun index msg hmu => himp msg (h.prepared index msg hmu),
    fun msg hmem hvalid => himp msg (h.given msg hmem hvalid)⟩

end Bears

namespace Cluster

variable {s s' : Cluster n C}

/-- Some service passed the bytes of the message to `Snapshot` with its index. -/
def Labels (actions : List (Action n C)) (msg : ApplyMsg C) : Prop :=
  ∃ q, .snapshot q msg.snapshotIndex msg.snapshot ∈ actions

theorem Labels.extend {actions : List (Action n C)} {msg : ApplyMsg C} (h : Labels actions msg)
    (action : Action n C) : Labels (actions ++ [action]) msg := by
  obtain ⟨q, hmem⟩ := h
  exact ⟨q, List.mem_append_left _ hmem⟩

/-- The goroutine of an installed snapshot runs while the log is still compacted at the
index it was started with. -/
def InstallsCurrent (s : Cluster n C) : Action n C → Prop
  | .installLock p k => ∀ install ∈ (s.peers p).installs[k]?,
      ∀ first ∈ (s.peers p).getFirstLog, first.index = install.snapShotIndex
  | _ => True

instance (s : Cluster n C) (action : Action n C) : Decidable (s.InstallsCurrent action) :=
  match action with
  | .installLock p k => inferInstanceAs (Decidable (∀ install ∈ (s.peers p).installs[k]?, _))
  | .start _ _ | .ticker _ | .concludeElection _ _ | .sendLogTicketCore _ | .sendSnapShot _ _
  | .deliver _ | .answer _ | .fail _ | .snapshot _ _ _ | .applyCollect _ | .applyLock _
  | .applySend _ | .applyFinish _ | .installSend _ | .installFinish _ | .crash _ =>
      instDecidableTrue

/-- A message built at the compaction point carries the snapshot taken there. -/
theorem labels_snapshotMsg {actions : List (Action n C)} (hrun : Runs step initial actions s)
    {p : Fin n} {install : Install} {first : LogEntry C}
    (hfirst : (s.peers p).getFirstLog = some first) (hpos : 0 < install.snapShotIndex)
    (hcurrent : first.index = install.snapShotIndex) :
    Labels actions ((s.peers p).snapshotMsg install) := by
  rw [Raft.getFirstLog_eq] at hfirst
  rcases (pairedAll_of_runs hrun).peers p first hfirst with
    ⟨_, hzero, _⟩ | ⟨before, after, t, q, hactions, _, _⟩
  · omega
  · refine ⟨q, ?_⟩
    show .snapshot q install.snapShotIndex (s.peers p).snapshot ∈ actions
    rw [hactions, hcurrent]
    simp

theorem exists_getFirstLog (hreach : Reachable s) (p : Fin n) :
    ∃ first, (s.peers p).getFirstLog = some first := by
  rw [Raft.getFirstLog_eq]
  exact ⟨_, List.head?_eq_some_head (durable_of_reachable hreach p).nonempty⟩

theorem labelled_of_runs {actions : List (Action n C)}
    (hrun : RunsIf step InstallsCurrent initial actions s) (p : Fin n) :
    Bears (Labels actions) (s.peers p) := by
  refine peer_of_runsIf (P := fun actions => Bears (Labels actions)) hrun p
    ⟨fun _ _ hmu => (by cases hmu), fun msg hmem => by cases hmem⟩
    (fun action h => h.imp fun _ hlabels => hlabels.extend action) ?_
  intro past t action rf' before permitted h hmove
  refine h.move (hmove.channelMove (durable_of_reachable before.reaches p)) ?_
  rintro k install rfl hinstall
  obtain ⟨first, hfirst⟩ := exists_getFirstLog before.reaches p
  exact (labels_snapshotMsg before.runs hfirst
    (installs_pos before.reaches p install (List.mem_of_getElem? hinstall))
    (permitted install hinstall first hfirst)).extend _

/-- While no goroutine of an installed snapshot finds the log compacted further, every
snapshot message carries bytes that were taken at its index. -/
theorem snapshot_payload {actions : List (Action n C)}
    (hrun : RunsIf step InstallsCurrent initial actions s) {channel : ApplyChan C}
    (hchannel : s.Channel channel) {msg : ApplyMsg C} (hmem : msg ∈ channel.msgs)
    (hvalid : msg.snapshotValid = true) :
    ∃ q, .snapshot q msg.snapshotIndex msg.snapshot ∈ actions := by
  refine channel_of_runs (P := fun actions channel => ∀ msg ∈ channel.msgs,
    msg.snapshotValid = true → Labels actions msg) hrun ?_ ?_ hchannel msg hmem hvalid
  · exact fun hbefore p => (labelled_of_runs hbefore p).given
  · exact fun action h other hother hsnapshot => (h other hother hsnapshot).extend action

/-- Peer 2 delivers the first of its two snapshots before it installs the second. -/
def deliverFirst : List (Action 3 Nat) :=
  electFirst ++ [.start 0 (some 5), .start 0 (some 6), .sendLogTicketCore 0, .deliver 1, .answer 1,
    .applyCollect 0, .applyLock 0, .applySend 0, .applySend 0, .applyFinish 0,
    .snapshot 0 1 [1], .sendLogTicketCore 0, .sendSnapShot 0 0, .deliver 3,
    .installLock 2 0, .installSend 2]

theorem snapshot_payload_first : ∃ s : Cluster 3 Nat,
    RunsIf step InstallsCurrent initial deliverFirst s ∧ ∃ msg ∈ (s.peers 2).applyCh.msgs,
      msg.snapshotValid = true ∧ msg.snapshotIndex = 1 ∧
      ∃ q, .snapshot q msg.snapshotIndex msg.snapshot ∈ deliverFirst := by
  have hchecked : RunHolds (guarded step InstallsCurrent) deliverFirst initial fun s =>
      (⟨false, none, 0, true, [1], 1, 1⟩ : ApplyMsg Nat) ∈ (s.peers 2).applyCh.msgs := by
    decide +kernel
  obtain ⟨s, hrun, hmem⟩ := hchecked.exists_runsIf
  exact ⟨s, hrun, _, hmem, rfl, rfl, snapshot_payload hrun (Or.inl ⟨2, rfl⟩) hmem rfl⟩

/-- Peer 2 installs both snapshots before the goroutine of the first runs: the message for
index 1 carries the bytes that were taken at 2. -/
theorem snapshot_payload_swapped : ∃ (s : Cluster 3 Nat) (actions : List (Action 3 Nat)),
    Runs step initial actions s ∧ ∃ msg ∈ (s.peers 2).applyCh.msgs, msg.snapshotValid = true ∧
      ¬ ∃ q, .snapshot q msg.snapshotIndex msg.snapshot ∈ actions := by
  have hchecked : RunHolds step (installTwo ++ [.installLock 2 0, .installSend 2]) initial
      fun s => (⟨false, none, 0, true, [2], 1, 1⟩ : ApplyMsg Nat) ∈ (s.peers 2).applyCh.msgs := by
    decide +kernel
  obtain ⟨s, hrun, hmem⟩ := hchecked.exists_runs
  refine ⟨s, _, hrun, _, hmem, rfl, ?_⟩
  rintro ⟨q, hasked⟩
  simp [installTwo, electFirst] at hasked

end Cluster

end DistributedLabs
