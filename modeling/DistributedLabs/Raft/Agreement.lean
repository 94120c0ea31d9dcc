import DistributedLabs.Raft.Retention

/-!
# What a follower commits

A follower takes over the commit index of a request as far as its own log reaches, and
not only as far as the entries of the request.  This is safe because every request holds
the log of its sender to the end: whatever the sender counts as committed is part of what
the follower has just compared or taken in.  A request may arrive in any later state; it
then speaks of the log that its sender had when the request was built, provided that
requests have been encoded as they were built.
-/

namespace DistributedLabs

open DistributedLabs.Library
open DistributedLabs.Library.Replication

variable {n : Nat} {C : Type}

/-- Above both compaction points and up to `bound`, both logs hold the same entries. -/
def Raft.AgreesUpTo (bound : Int) (rf rf' : Raft n C) : Prop :=
  ∀ first first' index, rf.getFirstLog = some first → rf'.getFirstLog = some first' →
    first.index < index → first'.index < index → index ≤ bound →
    ∃ entry entry', rf.logAt index = some entry ∧ rf'.logAt index = some entry' ∧
      entry'.term = entry.term ∧ entry'.data = entry.data

/-- Only a successful request moves the commit index, in the term of the request and not above
what the request allows. -/
theorem Raft.requestSendLog_raises {rf rf' : Raft n C} {args : SendLogArgs n C}
    {reply : SendLogReply} (hrun : rf.requestSendLog args = some (rf', reply))
    (hraised : rf.commitIndex < rf'.commitIndex) :
    reply.success = true ∧ rf'.currentTerm = args.term ∧ rf'.commitIndex ≤ args.leaderCommit := by
  cases Raft.requestSendLog_outcome hrun with
  | stale => exact absurd hraised (Int.lt_irrefl _)
  | refused | below =>
      rw [Raft.catchUp_commitIndex] at hraised
      exact absurd hraised (Int.lt_irrefl _)
  | taken reached _ _ _ _ _ _ followed =>
      obtain ⟨hcommits, hcases⟩ := Raft.followCommit_cases followed
      refine ⟨rfl, hcommits.currentTerm.trans (Raft.catchUp_currentTerm reached), ?_⟩
      rcases hcases with hsame | ⟨last, _, hmin⟩
      · have hkept : rf'.commitIndex = rf.commitIndex :=
          hsame.trans (rf.catchUp_commitIndex args.term)
        omega
      · omega

theorem Message.execute_not_request {rf rf' : Raft n C} {msg : Message n C}
    {args : SendLogArgs n C} {recodeNextIndex : Int} :
    msg.execute rf ≠ .ok (rf', .logRequest args recodeNextIndex) := by
  intro h
  cases msg with
  | logRequest | snapShotRequest =>
      obtain ⟨_, _, heq⟩ := Outcome.map_eq_ok.mp h
      cases heq
  | voteRequest | voteReply | logReply | snapShotReply => cases h

namespace Cluster

variable {s t t' : Cluster n C}

/-- In the state `s` the sender of the request has built it; `t` is the state after that or a
later one. -/
def BuiltIn (s t : Cluster n C) (flight : Flight n C) : Prop :=
  Reachable s ∧ ∃ args recodeNextIndex prepared jobs sent,
    flight.msg = .logRequest args recodeNextIndex ∧
    (s.peers flight.src).sendLogTicketCore flight.src = some (prepared, jobs) ∧
    .log flight.dst args recodeNextIndex ∈ jobs ∧
    s.step (.sendLogTicketCore flight.src) = .ok sent ∧ Reaches step sent t

theorem deliver_logRequest {k : Nat} {flight : Flight n C} {args : SendLogArgs n C}
    {recodeNextIndex : Int} (hflight : t.net[k]? = some flight)
    (hmsg : flight.msg = .logRequest args recodeNextIndex)
    (hstep : t.step (.deliver k) = .ok t') :
    ∃ reply, (t.peers flight.dst).requestSendLog args = some (t'.peers flight.dst, reply) ∧
      { flight with msg := .logReply args recodeNextIndex reply } ∈ t'.net := by
  simp only [step, deliver, hflight, hmsg] at hstep
  obtain ⟨⟨after, msg⟩, hexecuted, rfl⟩ := Outcome.map_eq_ok.mp hstep
  obtain ⟨⟨after', reply⟩, hrun, heq⟩ := Outcome.map_eq_ok.mp hexecuted
  cases heq
  refine ⟨reply, ?_, ?_⟩
  · rw [setPeer_self]
    exact Outcome.ofOption_eq_ok.mp hrun
  · exact List.mem_set (List.getElem?_eq_some_iff.mp hflight).1 _

/-- Whoever follows the commit index of a request holds all that its sender held when it built
the request. -/
theorem BuiltIn.held {k : Nat} {flight : Flight n C} (h : BuiltIn s t flight)
    (hflight : t.net[k]? = some flight) (hstep : t.step (.deliver k) = .ok t')
    (hraised : (t.peers flight.dst).commitIndex < (t'.peers flight.dst).commitIndex) :
    ∃ A A' : Protocol n C, Refines A s ∧ Refines A' t' ∧ A.log flight.src <+: A'.log flight.dst ∧
      (t'.peers flight.dst).commitIndex ≤ (s.peers flight.src).commitIndex := by
  obtain ⟨hreach, args, recodeNextIndex, prepared, jobs, sent, hmsg, hrun, hjob, hsent, hlater⟩ := h
  obtain ⟨hleader, _, hbuilds⟩ := Raft.job_builds hrun hjob
  obtain ⟨reply, hrequest, hreply⟩ := deliver_logRequest hflight hmsg hstep
  obtain ⟨hsuccess, hterm, hcommit⟩ := Raft.requestSendLog_raises hrequest hraised
  obtain ⟨A, hrefines⟩ := exists_refines hreach
  obtain ⟨A', hsteps, hrefines'⟩ := hrefines.reaches hreach
    (((Relation.ReflTransGen.single ⟨_, hsent⟩).trans hlater).tail ⟨_, hstep⟩)
  have hgrows := hsteps.grows hrefines.valid
  obtain ⟨f, c, hpeer, _⟩ := hrefines.peers flight.src
  obtain ⟨f', c', hpeer', _⟩ := hrefines'.peers flight.dst
  obtain ⟨front, entries, hlog, hparts⟩ := hpeer.buildsLog hrefines.valid hleader hbuilds
  obtain ⟨front', entries', hlog', hack⟩ := (hrefines'.flights _ hreply).msg
  have hargs : args.term = (s.peers flight.src).currentTerm ∧
      args.leaderCommit = (s.peers flight.src).commitIndex := by
    obtain ⟨_, _, _, _, _, _, rfl⟩ := hbuilds
    exact ⟨rfl, rfl⟩
  obtain ⟨_, _, hwritten⟩ := hpeer.leader_log hrefines.valid hleader hargs.1.symm
  -- both readings of the request have the same length
  have hlength : (A.log flight.src).length = (front' ++ entries').length := by
    have hfront := hlog.prevIndex.symm.trans hlog'.prevIndex
    have hentries := congrArg List.length (hlog.numbered.symm.trans hlog'.numbered)
    rw [number_length, number_length] at hentries
    rw [← hparts, List.length_append, List.length_append]
    omega
  have hacked : Acked A' args.term flight.dst (A.log flight.src) := by
    refine ⟨?_, ?_⟩
    · rw [hwritten]
      exact hgrows.leaderLog args.term
    · rw [hlength]
      exact hack hsuccess
  refine ⟨A, A', hrefines, hrefines', ?_, hargs.2 ▸ hcommit⟩
  rcases hrefines'.valid.kept hacked with hkept | ⟨T, _, _, hlow, hhigh, _⟩
  · exact hkept
  · rw [← hpeer'.term, hterm] at hhigh
    omega

end Cluster

namespace SharedCluster

open Cluster (commitFirst)

variable {s t t' : SharedCluster n C}

/-- In the state `s` of the run the sender of the request has built it; `t` is the state after
that or a later one. -/
def BuiltIn (run : SharedCluster n C → SharedCluster n C → Prop) (s t : SharedCluster n C)
    (flight : Flight n C) : Prop :=
  run initial s ∧ ∃ args recodeNextIndex prepared jobs full sent,
    flight.msg = .logRequest args recodeNextIndex ∧
    (s.base.peers flight.src).sendLogTicketCore flight.src = some (prepared, jobs) ∧
    .log flight.dst args recodeNextIndex ∈ jobs ∧
    step s (.own (.sendLogTicketCore flight.src) full) = .ok sent ∧ run sent t

theorem BuiltIn.base {flight : Flight n C} (h : BuiltIn BuiltRun s t flight) :
    Cluster.BuiltIn s.base t.base flight := by
  obtain ⟨hbuilt, args, recodeNextIndex, prepared, jobs, full, sent, hmsg, hrun, hjob, hsent,
    hlater⟩ := h
  exact ⟨BuiltReachable.reachable hbuilt, args, recodeNextIndex, prepared, jobs, sent.base, hmsg,
    hrun, hjob, Shared.step_own hsent, hlater.reaches⟩

theorem BuiltIn.later {flight : Flight n C} (h : BuiltIn BuiltRun s t flight)
    (hrun : BuiltRun t t') : BuiltIn BuiltRun s t' flight := by
  obtain ⟨hbuilt, args, recodeNextIndex, prepared, jobs, full, sent, hmsg, hprepared, hjob, hsent,
    hlater⟩ := h
  exact ⟨hbuilt, args, recodeNextIndex, prepared, jobs, full, sent, hmsg, hprepared, hjob, hsent,
    hlater.trans hrun⟩

/-- Every request on the network was built in some earlier state. -/
theorem exists_builtIn (hbuilt : BuiltReachable t) : ∀ flight ∈ t.base.net,
    ∀ args recodeNextIndex, flight.msg = .logRequest args recodeNextIndex →
      ∃ s, BuiltIn BuiltRun s t flight := by
  obtain ⟨actions, hrun⟩ := hbuilt
  induction hrun with
  | refl =>
      intro flight hmem
      cases hmem
  | @tail past u u' action before permitted taken ih =>
      intro flight hmem args recodeNextIndex hmsg
      have hlast : BuiltRun u u' := ⟨[action], RunsIf.refl.tail permitted taken⟩
      have hold : flight ∈ u.base.net → ∃ s, BuiltIn BuiltRun s u' flight := by
        intro hmem
        obtain ⟨s, h⟩ := ih flight hmem args recodeNextIndex hmsg
        exact ⟨s, h.later hlast⟩
      cases action with
      | encode k =>
          have hsame : u'.base = u.base := Shared.encode_asBuilt taken permitted
          exact hold (hsame ▸ hmem)
      | own action full =>
          have hstep : u.base.step action = .ok u'.base := Shared.step_own taken
          rcases Cluster.step_net hstep hmem with hkept | ⟨old, _, rf', hexecuted⟩ |
            ⟨request, hrequest⟩ |
            ⟨request, recode, prepared, jobs, rfl, hprepared, hjob, hrequest⟩ |
            ⟨_, request, _, _, _, hrequest⟩
          · exact hold hkept
          · rw [hmsg] at hexecuted
            exact absurd hexecuted Message.execute_not_request
          · rw [hmsg] at hrequest
            cases hrequest
          · exact ⟨u, ⟨past, before⟩, request, recode, prepared, jobs, full, u', hrequest,
              hprepared, hjob, taken, [], RunsIf.refl⟩
          · rw [hmsg] at hrequest
            cases hrequest

/-- Whenever a request moves the commit index of a follower, the follower's log agrees up to it
with the log its sender had when the request was built. -/
theorem follower_commits_verified (hbuilt : BuiltReachable t) {k : Nat} {flight : Flight n C}
    {args : SendLogArgs n C} {recodeNextIndex : Int} {full : Bool}
    (hflight : t.base.net[k]? = some flight)
    (hmsg : flight.msg = .logRequest args recodeNextIndex)
    (htaken : step t (.own (.deliver k) full) = .ok t')
    (hraised : (t.base.peers flight.dst).commitIndex < (t'.base.peers flight.dst).commitIndex) :
    (∃ s, BuiltIn BuiltRun s t flight) ∧ ∀ s, BuiltIn BuiltRun s t flight →
      Raft.AgreesUpTo (t'.base.peers flight.dst).commitIndex (s.base.peers flight.src)
        (t'.base.peers flight.dst) := by
  have hstep : t.base.step (.deliver k) = .ok t'.base := Shared.step_own htaken
  constructor
  · exact exists_builtIn hbuilt flight (List.mem_of_getElem? hflight) args recodeNextIndex hmsg
  · intro s hsent first first' index hfirst hfirst' hlow hlow' hhigh
    obtain ⟨A, A', hrefines, hrefines', hpre, hcommit⟩ := hsent.base.held hflight hstep hraised
    obtain ⟨f, c, hpeer, _⟩ := hrefines.peers flight.src
    obtain ⟨f', c', hpeer', _⟩ := hrefines'.peers flight.dst
    obtain rfl := Option.some.inj (hpeer.first.symm.trans hfirst)
    have hbound := hpeer.commit_le
    rw [hpeer.commit] at hcommit
    have hlow : (f : Int) < index := hlow
    obtain ⟨i, rfl⟩ := Int.eq_ofNat_of_zero_le (show 0 ≤ index by omega)
    have hi : i ≤ (A.log flight.src).length := by omega
    rcases hpeer.compacted_or_held hpeer' hi ((List.take_prefix i _).trans hpre) hfirst with
      ⟨base, hbase, hbelow⟩ | ⟨entry', hentry', _, hterms, hdata⟩
    · obtain rfl := Option.some.inj (hbase.symm.trans hfirst')
      omega
    · exact ⟨_, entry', hpeer.logAt_eq (by omega) hi, hentry', hterms, hdata hlow⟩

/-- The first entry is committed on peer 0 when it is sent to peer 2. -/
theorem follower_commits_verified_first_entry : ∃ (t t' : SharedCluster 3 Nat)
    (flight : Flight 3 Nat), BuiltReachable t ∧ step t (.own (.deliver 3) false) = .ok t' ∧
    (t.base.peers 2).commitIndex = 0 ∧ (t'.base.peers 2).commitIndex = 1 ∧
    ∃ s, BuiltIn BuiltRun s t flight ∧ Raft.AgreesUpTo 1 (s.base.peers 0) (t'.base.peers 2) := by
  have hchecked : RunHolds Cluster.step (commitFirst ++ [.sendLogTicketCore 0]) Cluster.initial
      fun t => (t.net[3]? = some ⟨0, 2, 0, .logRequest ⟨1, 0, 0, -1, [⟨1, 1, some 7⟩], 1⟩ 1⟩ ∧
        (t.peers 2).commitIndex = 0) ∧
      RunHolds Cluster.step [.deliver 3] t fun t' => (t'.peers 2).commitIndex = 1 := by
    decide +kernel
  obtain ⟨u, hrun, ⟨hflight, hbefore⟩, hrest⟩ := hchecked.exists_runs
  obtain ⟨past, t, ht, _, rfl, hsettled⟩ := settled_initial.exists_runs hrun
  obtain ⟨u', hstep, hafter⟩ := hrest.exists_step
  obtain ⟨t', htaken, rfl, _⟩ := hsettled.own hstep
  have hraised : (t.base.peers 2).commitIndex < (t'.base.peers 2).commitIndex := by
    rw [hbefore, hafter]
    decide
  obtain ⟨⟨s, hsent⟩, hagree⟩ := follower_commits_verified ⟨past, ht⟩ hflight rfl htaken hraised
  have hsame := hagree s hsent
  rw [hafter] at hsame
  exact ⟨t, t', _, ⟨past, ht⟩, htaken, hbefore, hafter, s, hsent, hsame⟩

/-- A heartbeat of peer 3 lets peer 2 commit three entries, the first of which is not the one
that 3 has. -/
theorem commits_unverified_entry : ∃ (s t t' : SharedCluster 7 Nat) (flight : Flight 7 Nat),
    BuiltIn (Reaches step) s t flight ∧ t.base.net[33]? = some flight ∧ flight.src = 3 ∧
    flight.dst = 2 ∧ step t (.own (.deliver 33) false) = .ok t' ∧
    (t.base.peers 2).commitIndex = 0 ∧ (t'.base.peers 2).commitIndex = 3 ∧
    (s.base.peers 3).logAt 1 = some ⟨1, 1, some 11⟩ ∧
    (t'.base.peers 2).logAt 1 = some ⟨2, 1, some 21⟩ ∧
    ¬ Raft.AgreesUpTo 3 (s.base.peers 3) (t'.base.peers 2) := by
  have hchecked : RunHolds step commitOver initial fun s =>
      ((s.base.peers 3).log =
          [⟨-1, 0, none⟩, ⟨1, 1, some 11⟩, ⟨1, 2, some 12⟩, ⟨3, 3, some 31⟩] ∧
        ∃ result ∈ (s.base.peers 3).sendLogTicketCore 3,
          .log 2 ⟨3, 3, 3, 3, [], 3⟩ 4 ∈ result.2) ∧
      RunHolds step [.own (.sendLogTicketCore 3) false] s fun sent =>
        RunHolds step [.encode 33] sent fun t =>
          (t.base.net[33]? = some ⟨3, 2, 0, .logRequest ⟨3, 3, 3, 3, [], 3⟩ 4⟩ ∧
            (t.base.peers 2).commitIndex = 0) ∧
          RunHolds step [.own (.deliver 33) false] t fun t' =>
            (t'.base.peers 2).commitIndex = 3 ∧ (t'.base.peers 2).log =
              [⟨-1, 0, none⟩, ⟨2, 1, some 21⟩, ⟨1, 2, some 12⟩, ⟨3, 3, some 31⟩] := by
    decide +kernel
  obtain ⟨s, hreach, ⟨hlog, ⟨prepared, jobs⟩, hprepared, hjob⟩, hrest⟩ := hchecked.exists_reaches
  obtain ⟨sent, hsent, hrest⟩ := hrest.exists_step
  obtain ⟨t, hlater, ⟨hflight, hbefore⟩, hrest⟩ := hrest.exists_reaches
  obtain ⟨t', hdelivered, hafter, hlog'⟩ := hrest.exists_step
  have hentry : (s.base.peers 3).logAt 1 = some ⟨1, 1, some 11⟩ := by
    simp [Raft.logAt, Raft.getFirstLog, Slice.get, hlog]
  have hother : (t'.base.peers 2).logAt 1 = some ⟨2, 1, some 21⟩ := by
    simp [Raft.logAt, Raft.getFirstLog, Slice.get, hlog']
  refine ⟨s, t, t', _, ⟨hreach, _, _, prepared, jobs, false, sent, rfl, hprepared, hjob, hsent,
    hlater⟩, hflight, rfl, rfl, hdelivered, hbefore, hafter, hentry, hother, fun hagrees => ?_⟩
  obtain ⟨entry, entry', hread, hread', hterm, _⟩ :=
    hagrees ⟨-1, 0, none⟩ ⟨-1, 0, none⟩ 1 (by rw [Raft.getFirstLog, hlog]; rfl)
      (by rw [Raft.getFirstLog, hlog']; rfl) (by decide) (by decide) (by decide)
  obtain rfl := Option.some.inj (hentry.symm.trans hread)
  obtain rfl := Option.some.inj (hother.symm.trans hread')
  cases hterm

end SharedCluster

end DistributedLabs
