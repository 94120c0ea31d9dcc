import DistributedLabs.Raft.Compaction
import DistributedLabs.Raft.Pairing

/-!
# A parked applier and the signals that wake it

The applier parks while it has nothing to apply, or while a snapshot that was
installed has not been delivered.  Whoever moves the commit index gives a signal.
The goroutine that delivers a snapshot moves `lastApplied` as well; it gives its
signal only if it also moves the commit index, so that entries which were committed
above the snapshot in the meantime are not applied before the next commit.
-/

namespace DistributedLabs

open DistributedLabs.Library

variable {n : Nat} {C : Type}

/-! ## Signals -/

/-- An applier that is parked now was parked before, and the commit index has not moved. -/
def Wakes (rf rf' : Raft n C) : Prop :=
  rf'.applier = .parked → rf.applier = .parked ∧ rf'.commitIndex = rf.commitIndex

section Signals

variable {rf mid rf' : Raft n C}

theorem Applier.wake_ne_parked (applier : Applier C) : applier.wake ≠ .parked := by
  cases applier <;> simp [Applier.wake]

theorem Wakes.refl (rf : Raft n C) : Wakes rf rf :=
  fun hparked => ⟨hparked, rfl⟩

theorem Wakes.trans (first : Wakes rf mid) (second : Wakes mid rf') : Wakes rf rf' := by
  intro hparked
  obtain ⟨hmid, hcommit⟩ := second hparked
  obtain ⟨hbefore, hcommit'⟩ := first hmid
  exact ⟨hbefore, hcommit.trans hcommit'⟩

theorem Wakes.signalApply (rf mid : Raft n C) : Wakes rf mid.signalApply :=
  fun hparked => absurd hparked (Applier.wake_ne_parked mid.applier)

namespace Raft

theorem followCommit_wakes {leaderCommit : Int} (h : rf.followCommit leaderCommit = some rf') :
    Wakes rf rf' := by
  unfold followCommit at h
  split at h
  · obtain ⟨last, _, h⟩ := Option.bind_eq_some_iff.mp h
    dsimp only at h
    split at h
    · cases h
      exact Wakes.signalApply rf _
    · cases h
      exact Wakes.refl rf
  · cases h
    exact Wakes.refl rf

theorem commitLoop_wakes {first last : Int} {fuel : Nat} {begin : Int}
    (h : commitLoop first last fuel begin rf = some rf') : Wakes rf rf' := by
  induction fuel generalizing begin rf with
  | zero =>
      cases h
      exact Wakes.refl _
  | succ fuel ih =>
      simp only [commitLoop] at h
      split at h
      · cases h
        exact Wakes.refl _
      · split at h
        · cases h
          exact Wakes.refl _
        · obtain ⟨mid, hmid, hrest⟩ := Option.bind_eq_some_iff.mp h
          have hround : Wakes rf mid := by
            rcases commitAt_cases hmid with rfl | ⟨_, rfl, _⟩
            · exact Wakes.refl mid
            · exact Wakes.signalApply _ _
          exact hround.trans (ih hrest)

theorem advanceCommit_wakes (h : rf.advanceCommit = some rf') : Wakes rf rf' := by
  obtain ⟨first, _, h⟩ := Option.bind_eq_some_iff.mp h
  obtain ⟨last, _, h⟩ := Option.bind_eq_some_iff.mp h
  exact commitLoop_wakes h

/-- A delivered snapshot gives a signal if it moves the commit index. -/
theorem installFinish_wakes (h : rf.installFinish = .ok rf') : Wakes rf rf' := by
  intro hparked
  unfold installFinish at h
  split at h
  · next index _ =>
      cases h
      dsimp only [signalSeq] at hparked
      split at hparked
      · exact absurd hparked (by
          dsimp only [signalApply]
          cases rf.applier <;> simp [Applier.wake, Applier.wakeSeq])
      · next hle =>
          constructor
          · cases happlier : rf.applier with
            | parked => rfl
            | _ => simp [happlier, Applier.wakeSeq] at hparked
          · simp [signalSeq, hle]
  · cases h

end Raft

theorem Operation.wakes {op : Operation n C} (h : op.run rf = some rf') : Wakes rf rf' := by
  obtain ⟨mid, hcases, hcommit, happlier⟩ := Operation.commit_cases h
  have hmid : Wakes rf mid := by
    intro hparked
    exact ⟨happlier.symm.trans hparked, hcommit⟩
  rcases hcases with rfl | ⟨leaderCommit, hfollowed⟩ | hadvanced
  · exact hmid
  · exact hmid.trans (Raft.followCommit_wakes hfollowed)
  · exact hmid.trans (Raft.advanceCommit_wakes hadvanced)

end Signals

/-! ## The compaction point -/

/-- No operation moves the compaction point back. -/
theorem Operation.first_le {rf rf' : Raft n C} {op : Operation n C} (h : op.run rf = some rf')
    {first first' : LogEntry C} (hfirst : rf.getFirstLog = some first)
    (hnumbered : Consecutive first.index rf.log) (hfirst' : rf'.getFirstLog = some first') :
    first.index ≤ first'.index := by
  have hkept (hhead : rf'.log.head? = rf.log.head?) : first.index ≤ first'.index := by
    rw [Raft.getFirstLog_eq] at hfirst hfirst'
    rw [hhead, hfirst] at hfirst'
    cases hfirst'
    exact Int.le_refl _
  rcases Operation.log_cases h with hkeeps | ⟨args, reply, rfl, hrun⟩ | ⟨args, reply, rfl, hrun⟩ |
    ⟨me, command, result, rfl, hrun⟩ | ⟨index, bytes, rfl, hrun⟩
  · exact hkept (by rw [hkeeps.log])
  · exact hkept (KeepsBase.requestSendLog hrun).head
  · cases Raft.requestInstallSnapShot_outcome hrun with
    | stale => exact hkept rfl
    | covered => exact hkept (KeepsBase.catchUp rf args.term).head
    | replaced _ covers =>
        obtain ⟨base, last, hbase, _, hcases⟩ := Raft.coversSnapShot_cases covers
        rw [Raft.getFirstLog_eq, Raft.catchUp_log, ← Raft.getFirstLog_eq, hfirst] at hbase
        cases hbase
        cases hfirst'
        rcases hcases with ⟨_, hcovered⟩ | ⟨hlt, _⟩ | ⟨hlt, _⟩
        · cases hcovered
        · exact Int.le_of_lt hlt
        · exact Int.le_of_lt hlt
  · exact hkept (KeepsBase.start hrun).head
  · rcases Raft.serviceSnapshot_cases hrun with
      rfl | ⟨base, _, entry, rest, hbase, _, hlt, _, hentry, _, rfl⟩
    · exact hkept rfl
    · cases hfirst.symm.trans hbase
      cases hfirst'
      have hindex := hnumbered _ entry (Slice.read_of_get hentry)
      dsimp only
      omega

/-! ## Parked appliers -/

/-- A parked applier has nothing to apply. -/
def Settled (rf : Raft n C) : Prop :=
  rf.applier = .parked → ∀ first, rf.getFirstLog = some first → rf.NothingToApply first

/-- The snapshot that has just been put on the channel. -/
def SeqMu.delivered : SeqMu C → Option Int
  | installed index => some index
  | free | applier | install _ _ => none

/-- The goroutine of the newest snapshot finishes, with the applier parked, before anything
above the snapshot is committed. -/
def FinishesFirst (rf : Raft n C) : Prop :=
  rf.applier = .parked → ∀ index ∈ rf.applySeqMu.delivered, ∀ first ∈ rf.getFirstLog,
    first.index ≤ index → rf.commitIndex ≤ index

instance [DecidableEq C] (rf : Raft n C) : Decidable (FinishesFirst rf) :=
  inferInstanceAs (Decidable (_ → ∀ index ∈ rf.applySeqMu.delivered, _))

namespace Settled

variable {rf rf' : Raft n C}

theorem keeps (h : Settled rf) (hwakes : Wakes rf rf') (happlied : rf'.lastApplied = rf.lastApplied)
    (hbase : ∀ first', rf'.getFirstLog = some first' →
      ∃ first, rf.getFirstLog = some first ∧ first.index ≤ first'.index) : Settled rf' := by
  intro hparked first' hfirst'
  obtain ⟨hbefore, hcommit⟩ := hwakes hparked
  obtain ⟨first, hfirst, hle⟩ := hbase first' hfirst'
  unfold Raft.NothingToApply
  rw [happlied, hcommit]
  rcases h hbefore first hfirst with hdone | hbelow
  · exact Or.inl hdone
  · exact Or.inr (Int.lt_of_lt_of_le hbelow hle)

theorem of_not_parked (h : rf.applier ≠ .parked) : Settled rf :=
  fun hparked => absurd hparked h

theorem applyCollect (hrun : rf.applyCollect = .ok rf') : Settled rf' := by
  obtain ⟨_, first, hfirst, ⟨hnothing, rfl⟩ | ⟨_, toApply, _, rfl⟩⟩ := Raft.applyCollect_cases hrun
  · intro _ first' hfirst'
    cases hfirst.symm.trans hfirst'
    exact hnothing
  · refine of_not_parked ?_
    dsimp only
    split <;> simp

theorem applyLock (hrun : rf.applyLock = .ok rf') : Settled rf' := by
  obtain ⟨_, _, _, _, _, ⟨_, rfl⟩ | ⟨_, rfl⟩ | ⟨_, rfl⟩⟩ := Raft.applyLock_cases hrun
  all_goals exact of_not_parked (by simp)

/-- A snapshot that was already covered by the commit index leaves `lastApplied` behind. -/
theorem installFinish (h : Settled rf) (hrun : rf.installFinish = .ok rf')
    (hfirsts : FinishesFirst rf) : Settled rf' := by
  intro hparked first hfirst
  obtain ⟨hbefore, hcommit⟩ := Raft.installFinish_wakes hrun hparked
  obtain ⟨index, hinstalled, applier, _, rfl⟩ := Raft.installFinish_cases hrun
  have hfinish := hfirsts hbefore index (by rw [hinstalled]; rfl) first hfirst
  dsimp only at hcommit
  rcases h hbefore first hfirst with hdone | hbelow
  · left
    dsimp only
    omega
  · by_cases hnewest : first.index ≤ index
    · left
      have := hfinish hnewest
      dsimp only
      omega
    · right
      dsimp only
      omega

theorem move (h : Settled rf) {net : List (Flight n C)} {p : Fin n} {action : Action n C}
    {first : LogEntry C} (hfirst : rf.getFirstLog = some first)
    (hnumbered : Consecutive first.index rf.log) (hmove : PeerMove net p rf action rf')
    (hdurable : rf.Durable) (hfirsts : action = .installFinish p → FinishesFirst rf) :
    Settled rf' := by
  cases hmove with
  | operation op _ run =>
      exact h.keeps (Operation.wakes run) (Quiet.operation run).lastApplied fun first' hfirst' =>
        ⟨first, hfirst, Operation.first_le run hfirst hnumbered hfirst'⟩
  | concludeElection election counted run =>
      rcases Raft.concludeElection_cases run with rfl | ⟨_, _, _, last, _, rfl⟩
      · exact h
      · exact h
  | sendLogTicketCore run sends =>
      rw [(Raft.sendLogTicketCore_cases run).1.eq]
      exact h
  | sendSnapShot sends => exact h
  | applyCollect run => exact applyCollect run
  | applyLock run => exact applyLock run
  | applySend run =>
      obtain ⟨toApply, entry, rest, _, rfl⟩ := Raft.applySend_cases run
      exact of_not_parked (by simp [Raft.send])
  | applyFinish run =>
      obtain ⟨toApply, _, applied, rfl, _⟩ := Raft.applyFinish_cases run
      exact of_not_parked (by simp)
  | installLock run =>
      obtain ⟨install, _, _, rfl⟩ := Raft.installLock_cases run
      exact h
  | installSend run =>
      obtain ⟨index, msg, _, rfl⟩ := Raft.installSend_cases run
      exact h
  | installFinish run => exact h.installFinish run (hfirsts rfl)
  | crash run =>
      obtain ⟨_, _, _, _, hmake⟩ := hdurable.make_eq p (rf.incarnation + 1)
      obtain rfl := Option.some.inj (hmake.symm.trans run)
      exact of_not_parked (by simp [Raft.restarted])

end Settled

namespace Cluster

variable {s : Cluster n C}

/-- Snapshots are delivered before anything above them is committed. -/
def DeliversFirst (s : Cluster n C) : Action n C → Prop
  | .installFinish p => FinishesFirst (s.peers p)
  | _ => True

instance [DecidableEq C] (s : Cluster n C) (action : Action n C) :
    Decidable (s.DeliversFirst action) :=
  match action with
  | .installFinish p => inferInstanceAs (Decidable (FinishesFirst (s.peers p)))
  | .start _ _ | .ticker _ | .concludeElection _ _ | .sendLogTicketCore _ | .sendSnapShot _ _
  | .deliver _ | .answer _ | .fail _ | .snapshot _ _ _ | .applyCollect _ | .installLock _ _
  | .applyLock _ | .applySend _ | .applyFinish _ | .installSend _ | .crash _ =>
      instDecidableTrue

/-- In a run that delivers snapshots first, an applier that is parked without a signal has
nothing to apply. -/
theorem no_lost_wakeup {actions : List (Action n C)}
    (hrun : RunsIf step DeliversFirst initial actions s) (p : Fin n)
    (hparked : (s.peers p).applier = .parked) {first : LogEntry C}
    (hfirst : (s.peers p).getFirstLog = some first) :
    (s.peers p).lastApplied ≥ (s.peers p).commitIndex ∨
      (s.peers p).lastApplied < first.index := by
  have hsettled : Settled (s.peers p) := by
    refine peer_of_runsIf (P := fun _ => Settled) hrun p ?_ (fun _ h => h) ?_
    · exact Settled.of_not_parked (by simp [newPeer])
    · intro past t action rf' before permitted h hmove
      obtain ⟨first, hfirst⟩ := exists_getFirstLog before.reaches p
      refine h.move hfirst (consecutive_of_reachable before.reaches hfirst) hmove
        (durable_of_reachable before.reaches p) ?_
      rintro rfl
      exact permitted
  exact hsettled hparked first hfirst

/-- Peer 2 has parked its applier when it installs the snapshot that peer 0 took of its first
entry.  The second entry is committed on peers 0 and 1. -/
def installBehind : List (Action 3 Nat) :=
  electFirst ++ [.applyCollect 2, .start 0 (some 5), .sendLogTicketCore 0, .deliver 1, .answer 1,
    .applyCollect 0, .applyLock 0, .applySend 0, .applyFinish 0, .snapshot 0 1 [1],
    .sendLogTicketCore 0, .sendSnapShot 0 0, .deliver 3, .answer 3, .start 0 (some 6),
    .sendLogTicketCore 0, .deliver 3, .answer 3, .sendLogTicketCore 0]

/-- The snapshot is delivered first; the applier looks again and parks. -/
theorem no_lost_wakeup_in_turn : ∃ (s : Cluster 3 Nat) (actions : List (Action 3 Nat)),
    RunsIf step DeliversFirst initial actions s ∧ (s.peers 2).applier = .parked ∧
      (s.peers 2).commitIndex = 1 ∧ ((s.peers 2).lastApplied ≥ (s.peers 2).commitIndex ∨
        (s.peers 2).lastApplied < 1) := by
  have hchecked : RunHolds (guarded step DeliversFirst) (installBehind ++ [.installLock 2 0,
      .installSend 2, .installFinish 2, .applyCollect 2]) initial fun s =>
      (s.peers 2).applier = .parked ∧ (s.peers 2).commitIndex = 1 ∧
        (s.peers 2).getFirstLog = some ⟨1, 1, none⟩ := by
    decide +kernel
  obtain ⟨s, hrun, hparked, hcommit, hfirst⟩ := hchecked.exists_runsIf
  exact ⟨s, _, hrun, hparked, hcommit, no_lost_wakeup hrun 2 hparked hfirst⟩

/-- The second entry is committed on peer 2 first.  The signal finds the snapshot still to be
delivered, the delivery gives none, and the applier stays parked with an entry to apply. -/
theorem applier_sleeps_over_commit : ∃ s : Cluster 3 Nat, Reachable s ∧
    (s.peers 2).applier = .parked ∧ (s.peers 2).applySeqMu = .free ∧ (s.peers 2).installs = [] ∧
    (s.peers 2).getFirstLog = some ⟨1, 1, none⟩ ∧ (s.peers 2).lastApplied = 1 ∧
    (s.peers 2).commitIndex = 2 := by
  have hchecked : RunHolds step (installBehind ++ [.deliver 5, .applyCollect 2, .installLock 2 0,
      .installSend 2, .installFinish 2]) initial fun s =>
      (s.peers 2).applier = .parked ∧ (s.peers 2).applySeqMu = .free ∧
        (s.peers 2).installs = [] ∧ (s.peers 2).getFirstLog = some ⟨1, 1, none⟩ ∧
        (s.peers 2).lastApplied = 1 ∧ (s.peers 2).commitIndex = 2 := by
    decide +kernel
  exact hchecked.exists_reaches

end Cluster

end DistributedLabs
