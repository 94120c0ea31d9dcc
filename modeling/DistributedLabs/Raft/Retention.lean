import DistributedLabs.Raft.Stream

/-!
# What a peer keeps of its log

An entry that a leader counts for a follower stays with that follower for the rest
of the term, through crashes too.  An entry up to the commit index of a peer stays
with that peer until a snapshot covers it, so what has been applied is never above
the commit index, and the commit index never above the log.  Both rest on requests that
are encoded as they were built.
-/

namespace DistributedLabs

open DistributedLabs.Library
open DistributedLabs.Library.Replication

variable {n : Nat} {C : Type}

/-! ## The commit index does not fall -/

section Commit

variable {rf rf' : Raft n C}

theorem Operation.commitIndex_le {op : Operation n C} (h : op.run rf = some rf') :
    rf.commitIndex ≤ rf'.commitIndex := by
  obtain ⟨mid, rfl | ⟨_, hfollowed⟩ | hadvanced, hcommit, _⟩ := Operation.commit_cases h
  · exact Int.le_of_eq hcommit.symm
  · rw [← hcommit]
    exact (Raft.followCommit_cases hfollowed).1.le
  · rw [← hcommit]
    exact (Raft.advanceCommit_cases hadvanced).1.le

/-- Only a crash moves the commit index back. -/
theorem PeerMove.commitIndex_le {net : List (Flight n C)} {p : Fin n} {action : Action n C}
    (hmove : PeerMove net p rf action rf') (halive : action ≠ .crash p) :
    rf.commitIndex ≤ rf'.commitIndex := by
  cases hmove with
  | operation op _ run => exact Operation.commitIndex_le run
  | concludeElection election counted run =>
      rcases Raft.concludeElection_cases run with rfl | ⟨_, _, _, last, _, rfl⟩
      · exact Int.le_refl _
      · exact Int.le_refl _
  | sendLogTicketCore run sends =>
      rw [(Raft.sendLogTicketCore_cases run).1.eq]
  | sendSnapShot sends => exact Int.le_refl _
  | applyCollect run =>
      obtain ⟨_, first, _, ⟨_, rfl⟩ | ⟨_, toApply, _, rfl⟩⟩ := Raft.applyCollect_cases run
      · exact Int.le_refl _
      · exact Int.le_refl _
  | applyLock run =>
      obtain ⟨_, _, _, _, _, ⟨_, rfl⟩ | ⟨_, rfl⟩ | ⟨_, rfl⟩⟩ := Raft.applyLock_cases run
      · exact Int.le_refl _
      · exact Int.le_refl _
      · exact Int.le_refl _
  | applySend run =>
      obtain ⟨toApply, entry, rest, _, rfl⟩ := Raft.applySend_cases run
      exact Int.le_refl _
  | applyFinish run =>
      obtain ⟨toApply, _, applied, rfl, _⟩ := Raft.applyFinish_cases run
      exact Int.le_refl _
  | installLock run =>
      obtain ⟨install, _, _, rfl⟩ := Raft.installLock_cases run
      exact Int.le_refl _
  | installSend run =>
      obtain ⟨index, msg, _, rfl⟩ := Raft.installSend_cases run
      exact Int.le_refl _
  | installFinish run =>
      obtain ⟨index, _, applier, _, rfl⟩ := Raft.installFinish_cases run
      exact Int.le_max_left _ _
  | crash run => exact absurd rfl halive

end Commit

/-! ## What is applied is committed -/

/-- Neither what has been applied nor what is about to be is above the commit index. -/
structure Applied (rf : Raft n C) : Prop where
  done : rf.lastApplied ≤ rf.commitIndex
  batch : ∀ entry ∈ rf.applier.entries, entry.index ≤ rf.commitIndex

namespace Applied

variable {rf rf' : Raft n C} {A : Protocol n C} {p : Fin n}

theorem quiet (h : Applied rf) (hquiet : Quiet rf rf')
    (hle : rf.commitIndex ≤ rf'.commitIndex) : Applied rf' := by
  refine ⟨?_, fun entry hmem => ?_⟩
  · rw [hquiet.lastApplied]
    exact Int.le_trans h.done hle
  · rw [hquiet.entries_eq] at hmem
    exact Int.le_trans (h.batch entry hmem) hle

/-- A batch is cut at the commit index. -/
theorem applyCollect (h : Applied rf) (hreps : Reps A p rf) (hrun : rf.applyCollect = .ok rf') :
    Applied rf' := by
  obtain ⟨f, c, hpeer, _⟩ := hreps
  obtain ⟨_, first, hfirst, ⟨_, rfl⟩ | ⟨hpending, toApply, htoApply, rfl⟩⟩ :=
    Raft.applyCollect_cases hrun
  · exact ⟨h.done, fun _ hmem => by cases hmem⟩
  · refine ⟨h.done, fun entry hmem => ?_⟩
    obtain ⟨a, ha, hf, rfl⟩ := hpeer.collected hfirst hpending htoApply
    dsimp only at hmem
    split at hmem
    · cases hmem
    · obtain ⟨k, hk, rfl⟩ := List.mem_map.mp hmem
      have hk' := List.mem_range.mp hk
      show ((a + 1 + k : Nat) : Int) ≤ rf.commitIndex
      rw [hpeer.commit]
      omega

theorem applyLock (h : Applied rf) (hrun : rf.applyLock = .ok rf') : Applied rf' := by
  have hsubset := Raft.applyLock_entries hrun
  have hbatch := fun entry hmem => h.batch entry (hsubset hmem)
  obtain ⟨toApply, _, _, _, _, hcases⟩ := Raft.applyLock_cases hrun
  rcases hcases with ⟨_, rfl⟩ | ⟨_, rfl⟩ | ⟨_, rfl⟩
  · exact ⟨h.done, hbatch⟩
  · exact ⟨h.done, hbatch⟩
  · exact ⟨h.done, hbatch⟩

theorem applySend (h : Applied rf) (hrun : rf.applySend = .ok rf') : Applied rf' := by
  have hsubset := (Raft.applySend_entries hrun).1
  obtain ⟨toApply, entry, rest, _, rfl⟩ := Raft.applySend_cases hrun
  exact ⟨h.done, fun other hmem => h.batch other (hsubset hmem)⟩

theorem applyFinish (h : Applied rf) (hrun : rf.applyFinish = .ok rf') : Applied rf' := by
  obtain ⟨toApply, hsending, applied, rfl, happlied⟩ := Raft.applyFinish_cases hrun
  refine ⟨?_, fun _ hmem => by cases hmem⟩
  rcases happlied with ⟨_, rfl⟩ | ⟨last, hlast, rfl⟩
  · exact h.done
  · have hbatch := h.batch last
    rw [hsending] at hbatch
    exact Int.max_le.mpr ⟨h.done, hbatch (List.mem_append_left _ (List.mem_of_getLast? hlast))⟩

theorem installFinish (h : Applied rf) (hrun : rf.installFinish = .ok rf') : Applied rf' := by
  obtain ⟨index, _, applier, hsignalled, rfl⟩ := Raft.installFinish_cases hrun
  have hdone := h.done
  refine ⟨by dsimp only; omega, fun entry hmem => ?_⟩
  have hentry := h.batch entry (Applier.entries_signalled hsignalled ▸ hmem)
  dsimp only
  omega

theorem move (h : Applied rf) (hreps : Reps A p rf) (hdurable : rf.Durable)
    {net : List (Flight n C)} {action : Action n C} (hmove : PeerMove net p rf action rf') :
    Applied rf' := by
  have hcommit : action ≠ .crash p → rf.commitIndex ≤ rf'.commitIndex := hmove.commitIndex_le
  cases hmove with
  | operation op _ run => exact h.quiet (Quiet.operation run) (Operation.commitIndex_le run)
  | concludeElection election counted run =>
      exact h.quiet (Quiet.concludeElection run) (hcommit fun hcrash => by cases hcrash)
  | sendLogTicketCore run sends =>
      exact h.quiet (Quiet.sendLogTicketCore run sends) (hcommit fun hcrash => by cases hcrash)
  | sendSnapShot sends => exact ⟨h.done, h.batch⟩
  | applyCollect run => exact h.applyCollect hreps run
  | applyLock run => exact h.applyLock run
  | applySend run => exact h.applySend run
  | applyFinish run => exact h.applyFinish run
  | installLock run =>
      obtain ⟨install, _, _, rfl⟩ := Raft.installLock_cases run
      exact ⟨h.done, h.batch⟩
  | installSend run =>
      obtain ⟨index, msg, _, rfl⟩ := Raft.installSend_cases run
      exact ⟨h.done, h.batch⟩
  | installFinish run => exact h.installFinish run
  | crash run =>
      obtain ⟨first, last, _, _, hmake⟩ := hdurable.make_eq p (rf.incarnation + 1)
      obtain rfl := Option.some.inj (hmake.symm.trans run)
      exact ⟨Int.le_refl _, fun _ hmem => by cases hmem⟩

end Applied

namespace Cluster

variable {s s' : Cluster n C}

theorem applied_of_reachable (hreach : Reachable s) (p : Fin n) : Applied (s.peers p) := by
  refine peer_of_reachable hreach p ⟨Int.le_refl 0, fun _ hmem => by cases hmem⟩ ?_
  intro t action rf' before h hmove
  obtain ⟨A, hrefines⟩ := exists_refines before
  exact h.move (hrefines.peers p) (durable_of_reachable before p) hmove

/-! ## Committed entries -/

/-- A new incarnation reads the log its predecessor had. -/
theorem crash_logAt {p : Fin n} (hdurable : (s.peers p).Durable)
    (hstep : s.step (.crash p) = .ok s') (k : Int) :
    (s'.peers p).logAt k = (s.peers p).logAt k := by
  obtain ⟨made, hrun, rfl⟩ := Outcome.map_eq_ok.mp hstep
  obtain ⟨first, last, _, _, hmake⟩ := hdurable.make_eq p ((s.peers p).incarnation + 1)
  obtain rfl := Option.some.inj (hmake.symm.trans (Outcome.ofOption_eq_ok.mp hrun))
  have hlog : (s.peers p).persister.decode.log = (s.peers p).log :=
    congrArg Stable.log hdurable.coherent
  show ((s.setPeer p _).peers p).logAt k = _
  rw [setPeer_self, Raft.logAt, Raft.getFirstLog, Raft.restarted, hlog]
  rfl

/-- What a peer holds and counts as committed it still holds after any step that does not
move its commit index back. -/
theorem committed_kept (hreach : Reachable s) {action : Action n C}
    (hstep : s.step action = .ok s') {p : Fin n}
    (hcommit : (s.peers p).commitIndex ≤ (s'.peers p).commitIndex) {k : Int}
    {first entry : LogEntry C} (hfirst : (s.peers p).getFirstLog = some first)
    (hlow : first.index < k) (hk : k ≤ (s.peers p).commitIndex)
    (hentry : (s.peers p).logAt k = some entry) :
    (∃ first', (s'.peers p).getFirstLog = some first' ∧ k ≤ first'.index) ∨
      (s'.peers p).logAt k = some entry := by
  obtain ⟨A, h⟩ := exists_refines hreach
  obtain ⟨A', hsteps, h'⟩ := h.step (durable_of_reachable hreach) hstep
  obtain ⟨f, c, hpeer, _⟩ := h.peers p
  obtain ⟨f', c', hpeer', _⟩ := h'.peers p
  obtain ⟨i, rfl, hf, hi, rfl⟩ := hpeer.logAt_inv hentry
  rw [hpeer.commit, hpeer'.commit] at hcommit
  rw [hpeer.commit] at hk
  have hle : c ≤ c' := Int.ofNat_le.mp hcommit
  have hic : i ≤ c := Int.ofNat_le.mp hk
  have hheld : (A.log p).take c <+: (A'.log p).take c' := by
    rcases h'.valid.committed_total (hpeer.committed.grows (hsteps.grows h.valid))
      hpeer'.committed with hpre | hpre
    · exact hpre
    · have hlength := hpre.length_le
      rw [take_length_of_le hpeer.commit_le, take_length_of_le hpeer'.commit_le] at hlength
      have heq : c' = c := by omega
      refine (hpre.eq_of_length ?_).symm ▸ List.prefix_refl _
      rw [take_length_of_le hpeer.commit_le, take_length_of_le hpeer'.commit_le, heq]
  have hpre : (A.log p).take i <+: A'.log p :=
    (List.take_prefix_take_left hic).trans (hheld.trans (List.take_prefix _ _))
  rcases hpeer.compacted_or_held hpeer' hi hpre hfirst with hcompacted |
    ⟨⟨term, index, data⟩, hat, hindex, hterm, hdata⟩
  · exact Or.inl hcompacted
  · refine Or.inr (hat.trans ?_)
    have hdata := hdata hlow
    dsimp only at hindex hterm hdata
    rw [hindex, hterm, hdata]
    rfl

end Cluster

namespace SharedCluster

open Cluster (electFirst commitFirst)

variable {s s' : SharedCluster n C}

/-- No step takes a committed entry away from a peer, unless the log then starts at a snapshot
that covers it; and the commit index lies between what is applied and the end of the log. -/
theorem committed_prefix_never_cut (hbuilt : BuiltReachable s) :
    (∀ action full s', step s (.own action full) = .ok s' → ∀ p k first entry,
      (s.base.peers p).getFirstLog = some first → first.index < k →
      k ≤ (s.base.peers p).commitIndex → (s.base.peers p).logAt k = some entry →
      (∃ first', (s'.base.peers p).getFirstLog = some first' ∧ k ≤ first'.index) ∨
        (s'.base.peers p).logAt k = some entry) ∧
    ∀ p, (s.base.peers p).lastApplied ≤ (s.base.peers p).commitIndex ∧
      ∃ last, (s.base.peers p).getLastLog = some last ∧
        (s.base.peers p).commitIndex ≤ last.index := by
  have hreach := hbuilt.reachable
  refine ⟨fun action full s' htaken p k first entry hfirst hlow hk hentry => ?_, fun p => ?_⟩
  · have hstep : s.base.step action = .ok s'.base := Shared.step_own htaken
    rcases Cluster.step_moves hstep p with hsame | hmove
    · rw [hsame]
      exact Or.inr hentry
    · by_cases hcrash : action = .crash p
      · subst hcrash
        exact Or.inr ((Cluster.crash_logAt (Cluster.durable_of_reachable hreach p) hstep k).trans
          hentry)
      · exact Cluster.committed_kept hreach hstep (hmove.commitIndex_le hcrash) hfirst hlow hk
          hentry
  · obtain ⟨A, h⟩ := exists_refines hreach
    obtain ⟨f, c, hpeer, _⟩ := h.peers p
    refine ⟨(Cluster.applied_of_reachable hreach p).done, _, hpeer.last, ?_⟩
    rw [hpeer.commit]
    exact Int.ofNat_le.mpr hpeer.commit_le

theorem committed_prefix_never_cut_by_compaction : ∃ s s' : SharedCluster 3 Nat,
    BuiltReachable s ∧ step s (.own (.snapshot 0 1 [1]) false) = .ok s' ∧
    (s.base.peers 0).commitIndex = 2 ∧
    ((∃ first', (s'.base.peers 0).getFirstLog = some first' ∧ 2 ≤ first'.index) ∨
      (s'.base.peers 0).logAt 2 = some ⟨1, 2, some 6⟩) := by
  have hchecked : RunHolds Cluster.step (electFirst ++ [.start 0 (some 5), .start 0 (some 6),
        .sendLogTicketCore 0, .deliver 1, .answer 1, .applyCollect 0, .applyLock 0, .applySend 0])
      Cluster.initial fun s => ((s.peers 0).getFirstLog = some ⟨-1, 0, none⟩ ∧
        (s.peers 0).commitIndex = 2 ∧ (s.peers 0).logAt 2 = some ⟨1, 2, some 6⟩) ∧
        RunHolds Cluster.step [.snapshot 0 1 [1]] s fun _ => True := by
    decide +kernel
  obtain ⟨t, hrun, ⟨hfirst, hcommit, hentry⟩, hrest⟩ := hchecked.exists_runs
  obtain ⟨past, s, hs, _, rfl, hsettled⟩ := settled_initial.exists_runs hrun
  obtain ⟨t', hstep, _⟩ := hrest.exists_step
  obtain ⟨s', htaken, rfl, _⟩ := hsettled.own hstep
  exact ⟨s, s', ⟨past, hs⟩, htaken, hcommit, (committed_prefix_never_cut ⟨past, hs⟩).1 _ _ s' htaken
    0 2 _ _ hfirst (by decide) (Int.le_of_eq hcommit.symm) hentry⟩

/-- Peer 4 has committed two entries.  The leader of term 4, which 2 has helped to elect,
replaces them by one entry of term 2. -/
theorem committed_entries_cut : ∃ s s' : SharedCluster 7 Nat, Reaches step initial s ∧
    step s (.own (.deliver 38) false) = .ok s' ∧
    ((s.base.peers 4).log = [⟨-1, 0, none⟩, ⟨3, 1, some 31⟩, ⟨3, 2, some 32⟩] ∧
      (s.base.peers 4).commitIndex = 2) ∧
    (s'.base.peers 4).log = [⟨-1, 0, none⟩, ⟨2, 1, some 21⟩] ∧
      (s'.base.peers 4).commitIndex = 2 := by
  have hchecked : RunHolds step voteBehind initial fun s =>
      ((s.base.peers 4).log = [⟨-1, 0, none⟩, ⟨3, 1, some 31⟩, ⟨3, 2, some 32⟩] ∧
        (s.base.peers 4).commitIndex = 2) ∧
      RunHolds step [.own (.deliver 38) false] s fun s' =>
        (s'.base.peers 4).log = [⟨-1, 0, none⟩, ⟨2, 1, some 21⟩] ∧
          (s'.base.peers 4).commitIndex = 2 := by
    decide +kernel
  obtain ⟨s, hreach, hbefore, hrest⟩ := hchecked.exists_reaches
  obtain ⟨s', hstep, hafter⟩ := hrest.exists_step
  exact ⟨s, s', hreach, hstep, hbefore, hafter⟩

/-! ## Entries a leader counts -/

/-- While a follower is in the term of a leader, at that moment or later, it has every entry
up to the match index the leader keeps for it. -/
theorem match_index_sound (hbuilt : BuiltReachable s) (hrun : BuiltRun s s') {leader i : Fin n}
    (hleader : (s.base.peers leader).state = .leader)
    (hterm : (s'.base.peers i).currentTerm = (s.base.peers leader).currentTerm) {k : Int}
    {first entry : LogEntry C} (hk : k ≤ (s.base.peers leader).matchIndex i)
    (hfirst : (s.base.peers leader).getFirstLog = some first)
    (hentry : (s.base.peers leader).logAt k = some entry) :
    (∃ first', (s'.base.peers i).getFirstLog = some first' ∧ k ≤ first'.index) ∨
      ∃ entry', (s'.base.peers i).logAt k = some entry' ∧ entry'.term = entry.term ∧
        (first.index < k → entry'.data = entry.data) := by
  obtain ⟨A, h⟩ := exists_refines hbuilt.reachable
  obtain ⟨A', hsteps, h'⟩ := h.reaches hbuilt.reachable hrun.reaches
  have hgrows := hsteps.grows h.valid
  obtain ⟨f, c, hpeer, _⟩ := h.peers leader
  obtain ⟨f', c', hpeer', _⟩ := h'.peers i
  have hrole := hpeer.leader_iff.mp hleader
  obtain ⟨_, _, _, hlog⟩ := h.valid.leader hrole
  obtain ⟨m, rfl, hf, hm, rfl⟩ := hpeer.logAt_inv hentry
  rw [hpeer.term, hpeer'.term] at hterm
  have hacked : Acked A' (A.term leader) i ((A.log leader).take m) := by
    refine ⟨?_, ?_⟩
    · rw [hlog]
      exact (List.take_prefix _ _).trans (hgrows.leaderLog _)
    · have hmatched := Int.le_trans hk (hpeer.matched hrole i)
      rw [take_length_of_le hm]
      exact Nat.le_trans (Int.ofNat_le.mp hmatched) (hgrows.ack _ i)
  have hpre : (A.log leader).take m <+: A'.log i := by
    rcases h'.valid.kept hacked with hkept | ⟨T, _, _, hlow, hhigh, _⟩
    · exact hkept
    · omega
  rcases hpeer.compacted_or_held hpeer' hm hpre hfirst with hcompacted |
    ⟨entry', hat, _, hterms, hdata⟩
  · exact Or.inl hcompacted
  · exact Or.inr ⟨entry', hat, hterms, hdata⟩

/-- A follower that has acknowledged an entry has it after a restart too. -/
theorem match_index_sound_after_crash : ∃ s s' : SharedCluster 3 Nat, BuiltReachable s ∧
    step s (.own (.crash 1) false) = .ok s' ∧ (s.base.peers 0).matchIndex 1 = 1 ∧
    ((∃ first', (s'.base.peers 1).getFirstLog = some first' ∧ 1 ≤ first'.index) ∨
      ∃ entry', (s'.base.peers 1).logAt 1 = some entry' ∧ entry'.term = 1 ∧
        ((0 : Int) < 1 → entry'.data = some 7)) := by
  have hchecked : RunHolds Cluster.step commitFirst Cluster.initial fun s =>
      ((s.peers 0).state = .leader ∧
        (s.peers 0).matchIndex 1 = 1 ∧ (s.peers 0).getFirstLog = some ⟨-1, 0, none⟩ ∧
        (s.peers 0).logAt 1 = some ⟨1, 1, some 7⟩) ∧
      RunHolds Cluster.step [.crash 1] s fun s' =>
        (s'.peers 1).currentTerm = (s.peers 0).currentTerm := by
    decide +kernel
  obtain ⟨t, hrun, ⟨hleader, hmatch, hfirst, hentry⟩, hrest⟩ := hchecked.exists_runs
  obtain ⟨past, s, hs, _, rfl, hsettled⟩ := settled_initial.exists_runs hrun
  obtain ⟨t', hstep, hterm⟩ := hrest.exists_step
  obtain ⟨s', htaken, rfl, _⟩ := hsettled.own hstep
  have hlater : BuiltRun s s' := BuiltRun.own ⟨[], RunsIf.refl⟩ htaken
  exact ⟨s, s', ⟨past, hs⟩, htaken, hmatch, match_index_sound ⟨past, hs⟩ hlater
    hleader hterm (Int.le_of_eq hmatch.symm) hfirst hentry⟩

/-- Peer 2 has acknowledged three entries to the leader 0.  An older request of 0, encoded
after peer 1 has overwritten its slots, leaves 2 with two other entries in the same term. -/
theorem acknowledged_entries_lost : ∃ s s' : SharedCluster 7 Nat, Reaches step initial s ∧
    Reaches step s s' ∧
    ((s.base.peers 0).state = .leader ∧ (s.base.peers 0).currentTerm = 1 ∧
      (s.base.peers 0).matchIndex 2 = 3 ∧ (s.base.peers 0).logAt 3 = some ⟨1, 3, some 13⟩) ∧
    (s'.base.peers 2).currentTerm = 1 ∧
      (s'.base.peers 2).log = [⟨-1, 0, none⟩, ⟨2, 1, some 21⟩, ⟨2, 2, some 22⟩] := by
  have hchecked : RunHolds step (leadFirst ++ own [.sendLogTicketCore 0, .start 0 (some 13),
        .sendLogTicketCore 0] ++ call 7) initial fun s =>
      ((s.base.peers 0).state = .leader ∧ (s.base.peers 0).currentTerm = 1 ∧
        (s.base.peers 0).matchIndex 2 = 3 ∧ (s.base.peers 0).logAt 3 = some ⟨1, 3, some 13⟩) ∧
      RunHolds step (own [.ticker 1, .deliver 14, .deliver 15, .deliver 16, .answer 14, .answer 14,
          .answer 14, .concludeElection 1 0, .start 1 (some 21), .start 1 (some 22),
          .sendLogTicketCore 1] ++ [.encode 14, .own (.deliver 14) false, .encode 1,
          .own (.deliver 1) false]) s fun s' =>
        (s'.base.peers 2).currentTerm = 1 ∧
          (s'.base.peers 2).log = [⟨-1, 0, none⟩, ⟨2, 1, some 21⟩, ⟨2, 2, some 22⟩] := by
    decide +kernel
  obtain ⟨s, hreach, hleads, hrest⟩ := hchecked.exists_reaches
  obtain ⟨s', hrun, hlost⟩ := hrest.exists_reaches
  exact ⟨s, s', hreach, hrun, hleads, hlost⟩

end SharedCluster

end DistributedLabs
