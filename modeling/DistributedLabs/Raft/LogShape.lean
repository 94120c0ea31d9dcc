import DistributedLabs.Raft.IndexSafety

/-!
# The shape of a log

Every access computes an offset from the index of an entry, so that the log has to begin
somewhere and to be numbered from there on.  Its terms do not decrease.  Where entries from
another peer are joined to a log, behind an entry that both have or behind a compaction
point, both sides are parts of what one leader has written.
-/

namespace DistributedLabs

open DistributedLabs.Library
open DistributedLabs.Library.Replication

variable {n : Nat} {C : Type}

/-- The log is not empty, its indexes are consecutive, its terms do not decrease, and the peer
has reached the last of them. -/
structure Raft.LogInvariant (rf : Raft n C) : Prop where
  nonempty : rf.log ≠ []
  numbered : ∀ first, rf.getFirstLog = some first → Consecutive first.index rf.log
  sorted : rf.log.Pairwise fun earlier later => earlier.term ≤ later.term
  reached : ∀ last, rf.getLastLog = some last → last.term ≤ rf.currentTerm

/-! ## Peers that stand for a member of the protocol -/

theorem compact_read {f k : Nat} {full : List (Entry (Option C))}
    (hk : k < (compact f full).length) (hf : f ≤ full.length) :
    (compact f full)[k] = entryAt f full (f + k) := by
  rw [compact_length] at hk
  have hread := compact_getElem? (Nat.le_add_right f k) (show f + k ≤ full.length by omega)
  rw [Nat.add_sub_cancel_left] at hread
  exact (List.getElem?_eq_some_iff.mp hread).2

theorem PeerRel.logInvariant {A : Protocol n C} (valid : Valid A) {p : Fin n} {rf : Raft n C}
    {f c : Nat} (h : PeerRel A p rf f c) : rf.LogInvariant where
  nonempty := by
    rw [h.log]
    exact List.cons_ne_nil _ _
  numbered := by
    intro first hfirst
    obtain rfl := Option.some.inj (h.first.symm.trans hfirst)
    exact h.consecutive
  sorted := by
    rw [h.log, List.pairwise_iff_getElem]
    intro i j hi hj hlt
    rw [compact_read hi h.base_le, compact_read hj h.base_le]
    refine valid.lastTerm_mono ((valid.log_wf p).shorten (List.take_prefix _ _)) ?_
    exact List.take_prefix_take_left (by omega)
  reached := by
    intro last hlast
    obtain rfl := Option.some.inj (h.last.symm.trans hlast)
    rw [h.term]
    simp only [entryAt, List.take_length]
    exact valid.lastTerm_le p

theorem Reps.logInvariant {A : Protocol n C} (valid : Valid A) {p : Fin n} {rf : Raft n C}
    (h : Reps A p rf) : rf.LogInvariant := by
  obtain ⟨f, c, hpeer, _⟩ := h
  exact hpeer.logInvariant valid

/-! ## Compacting at any index -/

namespace Raft.LogInvariant

variable {rf rf' : Raft n C}

theorem term_le (h : rf.LogInvariant) {entry : LogEntry C} (hmem : entry ∈ rf.log) :
    entry.term ≤ rf.currentTerm := by
  obtain ⟨last, hlast⟩ := exists_getLastLog h.nonempty
  refine Int.le_trans ?_ (h.reached last hlast)
  rw [getLastLog_eq] at hlast
  obtain ⟨front, hfront⟩ := List.getLast?_eq_some_iff.mp hlast
  have hsorted := h.sorted
  rw [hfront] at hmem hsorted
  rcases List.mem_append.mp hmem with hin | hend
  · exact (List.pairwise_append.mp hsorted).2.2 entry hin last (List.mem_singleton_self last)
  · rw [List.mem_singleton.mp hend]

/-- A log may begin at any of its entries. -/
theorem compacted (h : rf.LogInvariant) {k : Nat} {entry : LogEntry C} {rest : List (LogEntry C)}
    (hdrop : rf.log.drop k = entry :: rest) (bytes : Bytes) :
    ({ rf with
      log := ⟨entry.term, entry.index, none⟩ :: rest
      snapshot := bytes } : Raft n C).persist.LogInvariant := by
  have hkept : entry :: rest <:+ rf.log := hdrop ▸ List.drop_suffix k rf.log
  have hsorted := List.pairwise_cons.mp (h.sorted.sublist hkept.sublist)
  refine ⟨List.cons_ne_nil _ _, ?_, ?_, ?_⟩
  · intro base hbase
    cases hbase
    obtain ⟨first, hfirst⟩ : ∃ first, rf.getFirstLog = some first :=
      ⟨_, (getFirstLog_eq rf).trans (List.head?_eq_some_head h.nonempty)⟩
    have hread (j : Nat) (later : LogEntry C) (hlater : (entry :: rest)[j]? = some later) :
        later.index = first.index + (k + j : Nat) := by
      rw [← hdrop, List.getElem?_drop] at hlater
      exact h.numbered first hfirst _ later hlater
    have hentry := hread 0 entry rfl
    intro j later hlater
    cases j with
    | zero =>
        cases hlater
        exact (Int.add_zero _).symm
    | succ j =>
        have hindex := hread (j + 1) later hlater
        dsimp only
        omega
  · exact List.pairwise_cons.mpr hsorted
  · intro last hlast
    rw [getLastLog_eq] at hlast
    rcases List.mem_cons.mp (List.mem_of_getLast? hlast) with rfl | hin
    · have hown := h.term_le (hkept.subset (List.mem_cons_self (a := entry)))
      exact hown
    · exact h.term_le (hkept.subset (List.mem_cons_of_mem entry hin))

theorem serviceSnapshot (h : rf.LogInvariant) {index : Int} {bytes : Bytes}
    (hrun : rf.serviceSnapshot index bytes = some rf') : rf'.LogInvariant := by
  rcases serviceSnapshot_cases hrun with
    rfl | ⟨first, last, entry, rest, _, _, hlow, _, hentry, hrest, rfl⟩
  · exact h
  · obtain ⟨k, hk⟩ := Int.eq_ofNat_of_zero_le (Int.sub_nonneg_of_le (Int.le_of_lt hlow))
    rw [hk, Slice.get_natCast] at hentry
    rw [hk] at hrest
    obtain ⟨hlt, hread⟩ := List.getElem?_eq_some_iff.mp hentry
    have hdrop : rf.log.drop k = entry :: rest := by
      rw [Slice.low_eq_some hrest, List.drop_eq_getElem_cons hlt, hread]
      rfl
    exact h.compacted hdrop bytes

end Raft.LogInvariant

/-! ## Reachable clusters -/

namespace SharedCluster

open Cluster (electFirst)

variable {s : SharedCluster n C}

/-- The logs of reachable peers have the shape, if log requests are encoded as they were built.
`Start` keeps it, `Snapshot` at any index, the requests of other peers that are on the network,
and a restart. -/
theorem log_invariant (hbuilt : BuiltReachable s) (p : Fin n) :
    (s.base.peers p).LogInvariant ∧
    (∀ command, ∃ rf' result, (s.base.peers p).start p command = some (rf', result) ∧
      rf'.LogInvariant) ∧
    (∀ index bytes, ∃ rf', (s.base.peers p).serviceSnapshot index bytes = some rf' ∧
      rf'.LogInvariant) ∧
    (∀ flight ∈ s.base.net, flight.src ≠ p → ∀ args recodeNextIndex,
      flight.msg = .logRequest args recodeNextIndex →
      ∃ rf' reply, (s.base.peers p).requestSendLog args = some (rf', reply) ∧
        rf'.LogInvariant) ∧
    (∀ flight ∈ s.base.net, flight.src ≠ p → ∀ args sendNextIndex sendMatchIndex,
      flight.msg = .snapShotRequest args sendNextIndex sendMatchIndex →
      ∃ rf' reply, (s.base.peers p).requestInstallSnapShot args = some (rf', reply) ∧
        rf'.LogInvariant) ∧
    ∀ incarnation, ∃ rf', Raft.make p (s.base.peers p).persister incarnation = some rf' ∧
      rf'.LogInvariant := by
  obtain ⟨A, hrefines⟩ := exists_refines hbuilt.reachable
  have valid := hrefines.valid
  have hreps := hrefines.peers p
  obtain ⟨first, last, hspans⟩ : ∃ first last, Spans (s.base.peers p) first last := by
    obtain ⟨f, c, hpeer, _⟩ := hreps
    exact ⟨_, _, hpeer.spans⟩
  have hinvariant := hreps.logInvariant valid
  refine ⟨hinvariant, ?_, ?_, ?_, ?_, ?_⟩
  · intro command
    obtain ⟨⟨rf', result⟩, hrun⟩ := hspans.exists_start p command
    obtain ⟨A', hsteps, hreps'⟩ := hreps.start valid hrun
    exact ⟨rf', result, hrun, hreps'.logInvariant (hsteps.valid valid)⟩
  · intro index bytes
    obtain ⟨rf', hrun⟩ := hspans.exists_serviceSnapshot index bytes
    exact ⟨rf', hrun, hinvariant.serviceSnapshot hrun⟩
  · intro flight hmem hne args recodeNextIndex hmsg
    obtain ⟨front, entries, hlog⟩ := hrefines.logRequest hmem hmsg
    obtain ⟨⟨rf', reply⟩, hrun⟩ := hspans.exists_requestSendLog hlog.prev_le
    obtain ⟨A', hsteps, hreps', _⟩ := hreps.requestSendLog valid hne hlog hrun
    exact ⟨rf', reply, hrun, hreps'.logInvariant (hsteps.valid valid)⟩
  · intro flight hmem hne args sendNextIndex sendMatchIndex hmsg
    obtain ⟨front, hsnap⟩ := hrefines.snapShotRequest hmem hmsg
    obtain ⟨⟨rf', reply⟩, hrun⟩ := hspans.exists_requestInstallSnapShot args
    obtain ⟨A', hsteps, hreps', _⟩ := hreps.requestInstallSnapShot valid hne hsnap hrun
    exact ⟨rf', reply, hrun, hreps'.logInvariant (hsteps.valid valid)⟩
  · intro incarnation
    obtain ⟨_, _, _, _, hmake⟩ :=
      (Cluster.durable_of_reachable hbuilt.reachable p).make_eq p incarnation
    obtain ⟨A', hsteps, hreps'⟩ := hreps.make valid
      (Cluster.durable_of_reachable hbuilt.reachable p) hmake
    exact ⟨_, hmake, hreps'.logInvariant (hsteps.valid valid)⟩

/-- A request from before the first snapshot reaches peer 2 after it has installed that
snapshot: its first entry is cut off. -/
theorem log_invariant_trimmed : ∃ s : SharedCluster 3 Nat, BuiltReachable s ∧
    (s.base.peers 2).log = [⟨1, 1, none⟩] ∧
    ∃ args rf' reply, ⟨0, 2, 0, .logRequest args 1⟩ ∈ s.base.net ∧
      args.prevLogIndex = 0 ∧ args.entries = [⟨1, 1, some 5⟩, ⟨1, 2, some 6⟩] ∧
      (s.base.peers 2).requestSendLog args = some (rf', reply) ∧ rf'.LogInvariant := by
  have hchecked : RunHolds Cluster.step (electFirst ++ [.start 0 (some 5), .start 0 (some 6),
        .sendLogTicketCore 0, .deliver 1, .answer 1, .applyCollect 0, .applyLock 0, .applySend 0,
        .applySend 0, .applyFinish 0, .snapshot 0 1 [1], .sendLogTicketCore 0, .sendSnapShot 0 0,
        .deliver 3]) Cluster.initial fun s => (s.peers 2).log = [⟨1, 1, none⟩] ∧
      s.net[1]? = some ⟨0, 2, 0,
        .logRequest ⟨1, 0, 0, -1, [⟨1, 1, some 5⟩, ⟨1, 2, some 6⟩], 0⟩ 1⟩ := by
    decide +kernel
  obtain ⟨t, hreach, hlog, hflight⟩ := hchecked.exists_reaches
  obtain ⟨s, hbuilt, rfl⟩ := reachable_iff.mp hreach
  have hmem := List.mem_of_getElem? hflight
  obtain ⟨_, _, _, hrequests, _⟩ := log_invariant hbuilt 2
  obtain ⟨rf', reply, hrun, hinvariant⟩ := hrequests _ hmem (by decide) _ _ rfl
  exact ⟨s, hbuilt, hlog, _, rf', reply, hmem, rfl, rfl, hrun, hinvariant⟩

/-- A late encoding gives peer 2, which is in term 1, an entry of term 2 in front of one of
term 1. -/
theorem overwritten_terms_decrease : ∃ s : SharedCluster 7 Nat, Reaches step initial s ∧
    (s.base.peers 2).currentTerm = 1 ∧
    (s.base.peers 2).log = [⟨-1, 0, none⟩, ⟨2, 1, some 21⟩, ⟨1, 2, some 12⟩] ∧
    ¬ (s.base.peers 2).LogInvariant := by
  have hchecked : RunHolds step encodeLate initial fun s => (s.base.peers 2).currentTerm = 1 ∧
      (s.base.peers 2).log = [⟨-1, 0, none⟩, ⟨2, 1, some 21⟩, ⟨1, 2, some 12⟩] := by
    decide +kernel
  obtain ⟨s, hreach, hterm, hlog⟩ := hchecked.exists_reaches
  refine ⟨s, hreach, hterm, hlog, fun hinvariant => ?_⟩
  have hsorted := hinvariant.sorted
  rw [hlog] at hsorted
  exact absurd hsorted (by decide)

end SharedCluster

end DistributedLabs
