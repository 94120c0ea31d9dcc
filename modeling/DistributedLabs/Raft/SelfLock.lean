import DistributedLabs.Raft.Stream

/-!
# The applier and the mutex it takes

The applier takes `applySeqMu` for each batch.  It gives the mutex back at the end
of the batch and inside `applySeqCond.Wait`, but not on the path that drops a batch
which a snapshot has overtaken.  After such a drop it goes around its loop holding
the mutex, and the next time it asks for it nothing is delivered any more.
-/

namespace DistributedLabs

open DistributedLabs.Library

variable {n : Nat} {C : Type}

/-- The applier holds the mutex only while it sends a batch. -/
def Released (rf : Raft n C) : Prop :=
  rf.applier.Idle → rf.applySeqMu ≠ .applier

/-- The applier holds the mutex and has yet to ask for it. -/
structure SelfLocked (rf : Raft n C) : Prop where
  idle : rf.applier.Idle
  held : rf.applySeqMu = .applier

section Moves

variable {rf rf' : Raft n C} {net : List (Flight n C)} {p : Fin n} {action : Action n C}

theorem Applier.idle_of_wake {applier applier' : Applier C}
    (h : applier' = applier ∨ applier' = applier.wake) : applier'.Idle ↔ applier.Idle := by
  rcases h with rfl | rfl
  · rfl
  · cases applier <;> rfl

theorem Released.quiet (h : Released rf) (hquiet : Quiet rf rf') : Released rf' := by
  intro hidle
  rw [hquiet.applySeqMu]
  exact h ((Applier.idle_of_wake hquiet.applier).mp hidle)

/-- The one path that keeps the mutex is the one the condition excludes. -/
theorem Released.applyLock (hrun : rf.applyLock = .ok rf')
    (hahead : ∀ toApply ∈ rf.applier.batch, ∀ firstLog ∈ toApply[0]?,
      rf.lastApplied < firstLog.index) : Released rf' := by
  obtain ⟨toApply, firstLog, hcollected, hfree, hfirst, hcases⟩ := Raft.applyLock_cases hrun
  have hlt : rf.lastApplied < firstLog.index :=
    hahead toApply (by rw [hcollected]; rfl) firstLog hfirst
  rcases hcases with ⟨_, rfl⟩ | ⟨hovertaken, _⟩ | ⟨_, rfl⟩
  · intro _ hheld
    dsimp only at hheld
    rw [hfree] at hheld
    cases hheld
  · omega
  · intro hidle
    exact hidle.elim

theorem Released.move (h : Released rf) (hdurable : rf.Durable)
    (hmove : PeerMove net p rf action rf')
    (hahead : action = .applyLock p → ∀ toApply ∈ rf.applier.batch, ∀ firstLog ∈ toApply[0]?,
      rf.lastApplied < firstLog.index) : Released rf' := by
  cases hmove with
  | operation op _ run => exact h.quiet (Quiet.operation run)
  | concludeElection election counted run => exact h.quiet (Quiet.concludeElection run)
  | sendLogTicketCore run sends => exact h.quiet (Quiet.sendLogTicketCore run sends)
  | sendSnapShot sends => exact h.quiet { Quiet.refl rf with }
  | applyCollect run =>
      obtain ⟨htop, first, _, ⟨_, rfl⟩ | ⟨_, toApply, _, rfl⟩⟩ := Raft.applyCollect_cases run
      · exact fun _ => h (by rw [htop]; trivial)
      · exact fun _ => h (by rw [htop]; trivial)
  | applyLock run => exact Released.applyLock run (hahead rfl)
  | applySend run =>
      obtain ⟨toApply, entry, rest, _, rfl⟩ := Raft.applySend_cases run
      exact fun hidle => hidle.elim
  | applyFinish run =>
      obtain ⟨toApply, _, applied, rfl, _⟩ := Raft.applyFinish_cases run
      intro _ hheld
      cases hheld
  | installLock run =>
      obtain ⟨install, _, _, rfl⟩ := Raft.installLock_cases run
      intro _ hheld
      cases hheld
  | installSend run =>
      obtain ⟨index, msg, _, rfl⟩ := Raft.installSend_cases run
      intro _ hheld
      cases hheld
  | installFinish run =>
      obtain ⟨index, _, applier, _, rfl⟩ := Raft.installFinish_cases run
      intro _ hheld
      cases hheld
  | crash run =>
      obtain ⟨first, last, _, _, hmake⟩ := hdurable.make_eq p (rf.incarnation + 1)
      obtain rfl := Option.some.inj (hmake.symm.trans run)
      intro _ hheld
      cases hheld

theorem SelfLocked.quiet (h : SelfLocked rf) (hquiet : Quiet rf rf') :
    SelfLocked rf' ∧ rf'.applyCh = rf.applyCh :=
  ⟨⟨(Applier.idle_of_wake hquiet.applier).mpr h.idle, hquiet.applySeqMu.trans h.held⟩,
    hquiet.applyCh⟩

theorem SelfLocked.not_free (h : SelfLocked rf) : rf.applySeqMu ≠ .free := by
  rw [h.held]
  intro hfree
  cases hfree

/-- A peer that waits for its own mutex delivers nothing until it crashes. -/
theorem SelfLocked.move (h : SelfLocked rf) (hmove : PeerMove net p rf action rf')
    (halive : action ≠ .crash p) : SelfLocked rf' ∧ rf'.applyCh = rf.applyCh := by
  cases hmove with
  | operation op _ run => exact h.quiet (Quiet.operation run)
  | concludeElection election counted run => exact h.quiet (Quiet.concludeElection run)
  | sendLogTicketCore run sends => exact h.quiet (Quiet.sendLogTicketCore run sends)
  | sendSnapShot sends => exact h.quiet { Quiet.refl rf with }
  | applyCollect run =>
      obtain ⟨_, first, _, ⟨_, rfl⟩ | ⟨_, toApply, _, rfl⟩⟩ := Raft.applyCollect_cases run
      · exact ⟨⟨trivial, h.held⟩, rfl⟩
      · refine ⟨⟨?_, h.held⟩, rfl⟩
        dsimp only
        split <;> trivial
  | applyLock run =>
      obtain ⟨_, _, _, hfree, _⟩ := Raft.applyLock_cases run
      exact absurd hfree h.not_free
  | applySend run =>
      obtain ⟨toApply, entry, rest, hsending, _⟩ := Raft.applySend_cases run
      exact (hsending ▸ h.idle : (Applier.sending toApply (entry :: rest)).Idle).elim
  | applyFinish run =>
      obtain ⟨toApply, hsending, _⟩ := Raft.applyFinish_cases run
      exact (hsending ▸ h.idle : (Applier.sending toApply []).Idle).elim
  | installLock run =>
      obtain ⟨install, _, hfree, _⟩ := Raft.installLock_cases run
      exact absurd hfree h.not_free
  | installSend run =>
      obtain ⟨index, msg, hinstall, _⟩ := Raft.installSend_cases run
      cases h.held.symm.trans hinstall
  | installFinish run =>
      obtain ⟨index, hinstalled, _⟩ := Raft.installFinish_cases run
      cases h.held.symm.trans hinstalled
  | crash run => exact absurd rfl halive

end Moves

namespace Cluster

variable {s s' : Cluster n C}

/-- When the applier takes the mutex for a batch, no snapshot has overtaken the batch. -/
def AppliesAhead (s : Cluster n C) : Action n C → Prop
  | .applyLock p => ∀ toApply ∈ (s.peers p).applier.batch, ∀ firstLog ∈ toApply[0]?,
      (s.peers p).lastApplied < firstLog.index
  | _ => True

instance (s : Cluster n C) (action : Action n C) : Decidable (s.AppliesAhead action) :=
  match action with
  | .applyLock p => inferInstanceAs (Decidable (∀ toApply ∈ (s.peers p).applier.batch, _))
  | .start _ _ | .ticker _ | .concludeElection _ _ | .sendLogTicketCore _ | .sendSnapShot _ _
  | .deliver _ | .answer _ | .fail _ | .snapshot _ _ _ | .applyCollect _ | .installLock _ _
  | .applySend _ | .applyFinish _ | .installSend _ | .installFinish _ | .crash _ =>
      instDecidableTrue

/-- In a run that drops no batch the applier never asks for a mutex it holds. -/
theorem applier_releases_mutex {actions : List (Action n C)}
    (hrun : RunsIf step AppliesAhead initial actions s) (p : Fin n) :
    (s.peers p).applier.Idle → (s.peers p).applySeqMu ≠ .applier := by
  refine peer_of_runsIf (P := fun _ => Released) hrun p ?_ (fun _ h => h) ?_
  · intro _ hheld
    cases hheld
  · intro past t action rf' before permitted h hmove
    refine h.move (durable_of_reachable before.reaches p) hmove ?_
    rintro rfl
    exact permitted

theorem self_locked_of_runs {p : Fin n} {actions : List (Action n C)}
    (hrun : RunsIf step (fun _ action => action ≠ .crash p) s actions s')
    (h : SelfLocked (s.peers p)) :
    SelfLocked (s'.peers p) ∧ (s'.peers p).applyCh = (s.peers p).applyCh := by
  induction hrun with
  | refl => exact ⟨h, rfl⟩
  | tail _ permitted taken ih =>
      obtain ⟨hlocked, hchannel⟩ := ih
      rcases step_moves taken p with hsame | hmove
      · rw [hsame]
        exact ⟨hlocked, hchannel⟩
      · obtain ⟨hlocked', hchannel'⟩ := hlocked.move hmove permitted
        exact ⟨hlocked', hchannel'.trans hchannel⟩

/-- Peer 2 has collected the first entry when the leader, which has compacted its log at 2,
sends it a snapshot. -/
def overtakeBatch : List (Action 3 Nat) :=
  electFirst ++ [.start 0 (some 5), .sendLogTicketCore 0, .deliver 1, .answer 1, .deliver 1,
    .sendLogTicketCore 0, .deliver 3, .applyCollect 2, .start 0 (some 6), .sendLogTicketCore 0,
    .deliver 4, .answer 4, .applyCollect 0, .applyLock 0, .applySend 0, .applySend 0,
    .applyFinish 0, .snapshot 0 2 [2], .sendLogTicketCore 0, .sendSnapShot 0 0]

/-- A batch that is sent before the snapshot arrives gives the mutex back. -/
theorem applier_releases_mutex_in_turn : ∃ (s : Cluster 3 Nat) (actions : List (Action 3 Nat)),
    RunsIf step AppliesAhead initial actions s ∧ (s.peers 2).applyCh.msgs.length = 2 ∧
      ((s.peers 2).applier.Idle → (s.peers 2).applySeqMu ≠ .applier) := by
  have hchecked : RunHolds (guarded step AppliesAhead) (overtakeBatch ++ [.applyLock 2,
      .applySend 2, .applyFinish 2, .deliver 6, .installLock 2 0, .installSend 2,
      .installFinish 2]) initial fun s => (s.peers 2).applyCh.msgs.length = 2 := by
    decide +kernel
  obtain ⟨s, hrun, hlength⟩ := hchecked.exists_runsIf
  exact ⟨s, _, hrun, hlength, applier_releases_mutex hrun 2⟩

/-- The snapshot is delivered first.  The applier drops its batch and keeps the mutex; when
the next entry is committed it waits for itself, and peer 2 delivers nothing any more. -/
theorem applier_waits_for_own_mutex : ∃ s s' : Cluster 3 Nat, Reachable s ∧
    (s.peers 2).applier = .top ∧ (s.peers 2).applySeqMu = .applier ∧ Reaches step s s' ∧
    (s'.peers 2).applier = .collected [⟨1, 3, some 7⟩] ∧ (s'.peers 2).applySeqMu = .applier ∧
    ∀ actions s'', RunsIf step (fun _ action => action ≠ .crash 2) s' actions s'' →
      (s''.peers 2).applyCh = (s'.peers 2).applyCh := by
  have hchecked : RunHolds step (overtakeBatch ++ [.deliver 6, .installLock 2 0, .installSend 2,
      .installFinish 2, .applyLock 2]) initial fun s =>
      ((s.peers 2).applier = .top ∧ (s.peers 2).applySeqMu = .applier) ∧
      RunHolds step [.answer 6, .start 0 (some 7), .sendLogTicketCore 0, .deliver 7, .deliver 6,
        .answer 6, .sendLogTicketCore 0, .deliver 8, .applyCollect 2] s fun s' =>
        (s'.peers 2).applier = .collected [⟨1, 3, some 7⟩] ∧
          (s'.peers 2).applySeqMu = .applier := by
    decide +kernel
  obtain ⟨s, hreach, ⟨htop, hheld⟩, hrest⟩ := hchecked.exists_reaches
  obtain ⟨s', hlater, hcollected, hheld'⟩ := hrest.exists_reaches
  refine ⟨s, s', hreach, htop, hheld, hlater, hcollected, hheld', fun actions s'' hrun => ?_⟩
  have hlocked : SelfLocked (s'.peers 2) := ⟨by rw [hcollected]; trivial, hheld'⟩
  exact (self_locked_of_runs hrun hlocked).2

end Cluster

end DistributedLabs
