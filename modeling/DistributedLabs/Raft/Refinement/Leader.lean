import DistributedLabs.Raft.Refinement.Replication
import Mathlib.Data.Fintype.Fin

/-!
# What a leader does as steps of the protocol
-/

namespace DistributedLabs

open DistributedLabs.Library
open DistributedLabs.Library.Replication

variable {n : Nat} {C : Type} {A : Protocol n C} {p peer : Fin n} {rf rf' : Raft n C} {f c : Nat}

/-! ## `Start` -/

theorem Reps.start (valid : Valid A) (h : Reps A p rf) {command : Option C}
    {result : Int × Int × Bool} (hrun : rf.start p command = some (rf', result)) :
    ∃ A', StepsBy p A A' ∧ Reps A' p rf' := by
  rcases Raft.start_cases hrun with rfl | ⟨hstate, last, hlast, rfl⟩
  · exact ⟨A, StepsBy.refl p A, h⟩
  · obtain ⟨f, c, hpeer, hchannel⟩ := h
    have hleader := hpeer.leader_iff.mp hstate
    have step := Step.append (d := command) hleader
    have grows := step.grows valid
    rw [hpeer.last] at hlast
    obtain rfl := Option.some.inj hlast
    have hentry : rf.log ++ [(⟨rf.currentTerm, (A.log p).length + 1, command⟩ : LogEntry C)] =
        compact f (A.log p ++ [⟨A.term p, command⟩]) := by
      rw [← compact_append hpeer.base_le, hpeer.log, hpeer.term]
      rfl
    refine ⟨_, step.stepsBy, f, c, ?_, hchannel.carry grows rfl rfl rfl rfl⟩
    exact {
      term := hpeer.term
      vote := hpeer.vote
      role := hpeer.role
      log := by simpa [Raft.persist, entryAt] using hentry
      base_le := by
        simp only [Function.update_self, List.length_append]
        exact Nat.le_trans hpeer.base_le (Nat.le_add_right _ _)
      base := by
        simp only [Function.update_self, List.take_append_of_le_length hpeer.base_le]
        exact hpeer.base.grows grows
      commit := hpeer.commit
      commit_le := by
        simp only [Function.update_self, List.length_append]
        exact Nat.le_trans hpeer.commit_le (Nat.le_add_right _ _)
      committed := by
        simp only [Function.update_self, List.take_append_of_le_length hpeer.commit_le]
        exact hpeer.committed.grows grows
      matched := fun _ i => by
        by_cases hi : i = p
        · subst hi
          simp [Raft.persist, entryAt]
        · simpa [Raft.persist, hi, record_of_ne] using hpeer.matched hleader i
      next := fun _ i => by
        obtain ⟨hlow, hhigh⟩ := hpeer.next hleader i
        refine ⟨hlow, Int.le_trans hhigh ?_⟩
        simp
      sends := hpeer.sends }

/-! ## Counting -/

theorem matchCount_eq (matchIndex : Fin n → Int) (index : Int) :
    Raft.matchCount matchIndex index =
      (Finset.univ.filter fun peer => matchIndex peer ≥ index).card := by
  simp [Raft.matchCount, Finset.card_def, Finset.filter_val, Fin.univ_def,
    Multiset.filter_coe, List.countP_eq_length_filter]

/-- The commit loop stops at an entry that a majority has acknowledged. -/
theorem PeerRel.countable (valid : Valid A) (h : PeerRel A p rf f c)
    (hleader : A.role p = .leader) {k : Nat} (hf : f ≤ k) (hk : k ≤ (A.log p).length)
    (hcount : rf.Countable f k) : Committed A (A.term p) ((A.log p).take k) := by
  obtain ⟨hmajority, entry, hentry, hterm⟩ := hcount
  obtain ⟨m, hm, _, hlog⟩ := valid.leader hleader
  rw [h.log, compact_get hf hk] at hentry
  obtain rfl := Option.some.inj hentry
  rw [h.term] at hterm
  refine Or.inr ⟨A.term p, _, valid.mandate_pos hm, Int.le_refl _, ?_, List.prefix_refl _⟩
  refine ⟨hterm, hlog ▸ List.take_prefix k _,
    Finset.univ.filter fun i => rf.matchIndex i ≥ k, ?_, fun v hv => ?_⟩
  · rw [matchCount_eq] at hmajority
    unfold Majority
    rw [Fintype.card_fin]
    omega
  · rw [take_length_of_le hk]
    exact Int.ofNat_le.mp (Int.le_trans (Finset.mem_filter.mp hv).2 (h.matched hleader v))

theorem PeerRel.advanceCommit (valid : Valid A) (h : PeerRel A p rf f c)
    (hchannel : ChannelRel A rf f c) (hleader : A.role p = .leader)
    (hrun : rf.advanceCommit = some rf') : Reps A p rf' := by
  obtain ⟨hcommits, hcases⟩ := Raft.advanceCommit_cases hrun
  rcases hcases with hsame | ⟨first, last, hfirst, hlast, hlt, hle, hcount⟩
  · exact ⟨f, c, h.commits hcommits (hsame.trans h.commit) h.commit_le h.committed,
      hchannel.commits hcommits (Nat.le_refl c)⟩
  · rw [h.first] at hfirst
    obtain rfl := Option.some.inj hfirst
    rw [h.last] at hlast
    obtain rfl := Option.some.inj hlast
    obtain ⟨entry, hentry, _⟩ := hcount.2
    have hoffset := Slice.get_nonneg hentry
    rw [h.commit] at hlt
    simp only [entryAt] at hle hoffset hcount
    obtain ⟨k, hk⟩ := Int.eq_ofNat_of_zero_le (show 0 ≤ rf'.commitIndex by omega)
    rw [hk] at hlt hle hoffset hcount
    have hk' : k ≤ (A.log p).length := by omega
    exact ⟨f, k, h.commits hcommits hk hk' (h.countable valid hleader (by omega) hk' hcount),
      hchannel.commits hcommits (by omega)⟩

/-! ## Answers -/

/-- A leader may count what a follower has acknowledged. -/
theorem PeerRel.recordMatch (h : PeerRel A p rf f c) {lastEntry : LogEntry C}
    (hnonneg : 0 ≤ lastEntry.index) (hack : lastEntry.index ≤ A.ack (A.term p) peer)
    (hle : lastEntry.index ≤ (A.log p).length) :
    PeerRel A p (rf.recordMatch peer lastEntry) f c :=
  { h with
    matched := fun hleader i => by
      have hold := h.matched hleader i
      by_cases hi : i = peer
      · subst hi
        simp only [Raft.recordMatch, Raft.setNextIndex, Raft.setMatchIndex, Function.update_self]
        split <;> omega
      · simpa [Raft.recordMatch, Raft.setNextIndex, Raft.setMatchIndex, hi] using hold
    next := fun hleader i => by
      have hold := h.next hleader i
      by_cases hi : i = peer
      · subst hi
        simp only [Raft.recordMatch, Raft.setNextIndex, Raft.setMatchIndex, Function.update_self]
        split <;> omega
      · simpa [Raft.recordMatch, Raft.setNextIndex, Raft.setMatchIndex, hi] using hold }

theorem PeerRel.recordSnapShot (h : PeerRel A p rf f c) {sendNextIndex sendMatchIndex index : Int}
    (hnonneg : 0 ≤ index) (hack : index ≤ A.ack (A.term p) peer)
    (hle : index ≤ (A.log p).length) :
    PeerRel A p (rf.recordSnapShot peer sendNextIndex sendMatchIndex index) f c :=
  { h with
    matched := fun hleader i => by
      have hold := h.matched hleader i
      by_cases hi : i = peer
      · subst hi
        simp only [Raft.recordSnapShot, Raft.setNextIndex, Raft.setMatchIndex,
          Function.update_self]
        split <;> omega
      · simpa [Raft.recordSnapShot, Raft.setNextIndex, Raft.setMatchIndex, hi] using hold
    next := fun hleader i => by
      have hold := h.next hleader i
      by_cases hi : i = peer
      · subst hi
        simp only [Raft.recordSnapShot, Raft.setNextIndex, Raft.setMatchIndex,
          Function.update_self]
        split <;> omega
      · simpa [Raft.recordSnapShot, Raft.setNextIndex, Raft.setMatchIndex, hi] using hold }

theorem PeerRel.backUp (h : PeerRel A p rf f c) (hrun : rf.backUp peer = some rf') :
    PeerRel A p rf' f c ∧ ∃ index, rf' = rf.setNextIndex peer index := by
  obtain ⟨first, last, index, hfirst, hlast, rfl, hlow, hhigh⟩ := Raft.backUp_cases hrun
  rw [h.first] at hfirst
  obtain rfl := Option.some.inj hfirst
  rw [h.last] at hlast
  obtain rfl := Option.some.inj hlast
  have hbase := h.base_le
  simp only [entryAt] at hlow hhigh
  refine ⟨{ h with next := fun hleader i => ?_ }, index, rfl⟩
  have hold := h.next hleader i
  by_cases hi : i = peer
  · subst hi
    simp only [Raft.setNextIndex, Function.update_self]
    omega
  · simpa [Raft.setNextIndex, hi] using hold

/-- A leader's log is the log of its term. -/
theorem PeerRel.leader_log (valid : Valid A) (h : PeerRel A p rf f c) {T : Int}
    (hstate : rf.state = .leader) (hterm : rf.currentTerm = T) :
    A.role p = .leader ∧ A.term p = T ∧ A.log p = A.leaderLog T := by
  have hleader := h.leader_iff.mp hstate
  obtain ⟨m, _, _, hlog⟩ := valid.leader hleader
  have hT : A.term p = T := h.term.symm.trans hterm
  exact ⟨hleader, hT, hT ▸ hlog⟩

theorem Reps.handleSendLogReply (valid : Valid A) (h : Reps A p rf) {args : SendLogArgs n C}
    {recodeNextIndex : Int} {reply : SendLogReply}
    (hmsg : MessageRel A p peer (.logReply args recodeNextIndex reply))
    (hrun : rf.handleSendLogReply peer args recodeNextIndex reply = some rf') :
    ∃ A', StepsBy p A A' ∧ Reps A' p rf' := by
  obtain ⟨front, entries, hlog, hack⟩ := hmsg
  cases Raft.handleSendLogReply_answer hrun with
  | overtaken => exact h.catchUp valid reply.term
  | ignored => exact ⟨A, StepsBy.refl p A, h⟩
  | @matched lastEntry _ leading same success hlast advanced =>
      obtain ⟨f, c, hpeer, hchannel⟩ := h
      obtain ⟨hleader, hterm, heq⟩ := hpeer.leader_log valid leading same
      have hindex := (hlog.lastEntry hlast).1
      have hlength := hlog.written.length_le
      rw [← heq] at hlength
      have hacked := hack success
      rw [← hterm] at hacked
      have hrecorded : PeerRel A p (rf.recordMatch peer lastEntry) f c :=
        hpeer.recordMatch (by omega) (by omega) (by omega)
      exact ⟨A, StepsBy.refl p A, hrecorded.advanceCommit valid
        (hchannel.congr rfl rfl rfl rfl) hleader advanced⟩
  | backed leading same _ _ _ backed =>
      obtain ⟨f, c, hpeer, hchannel⟩ := h
      obtain ⟨hpeer', index, rfl⟩ := hpeer.backUp backed
      exact ⟨A, StepsBy.refl p A, f, c, hpeer', hchannel.congr rfl rfl rfl rfl⟩

theorem Reps.handleSnapShotReply (valid : Valid A) (h : Reps A p rf)
    {args : RequestSnapShotArgs n} {sendNextIndex sendMatchIndex : Int}
    {reply : RequestSnapShotReply}
    (hmsg : MessageRel A p peer (.snapShotReply args sendNextIndex sendMatchIndex reply))
    (hrun : rf.handleSnapShotReply peer args sendNextIndex sendMatchIndex reply = some rf') :
    ∃ A', StepsBy p A A' ∧ Reps A' p rf' := by
  obtain ⟨front, hsnap, hack⟩ := hmsg
  cases Raft.handleSnapShotReply_answer hrun with
  | overtaken => exact h.catchUp valid reply.term
  | ignored => exact ⟨A, StepsBy.refl p A, h⟩
  | recorded current leading same advanced =>
      obtain ⟨f, c, hpeer, hchannel⟩ := h
      obtain ⟨hleader, hterm, heq⟩ := hpeer.leader_log valid leading same
      have hindex := hsnap.lastIndex
      have hlength := hsnap.written.length_le
      rw [← heq] at hlength
      have hacked := hack (same ▸ current)
      rw [← hterm] at hacked
      have hrecorded : PeerRel A p (rf.recordSnapShot peer sendNextIndex sendMatchIndex
          args.lastIncludedIndex) f c :=
        hpeer.recordSnapShot (by omega) (by omega) (by omega)
      exact ⟨A, StepsBy.refl p A, hrecorded.advanceCommit valid
        (hchannel.congr rfl rfl rfl rfl) hleader advanced⟩

/-! ## Requests -/

theorem PeerRel.prepares (h : PeerRel A p rf f c) (hprepares : Raft.Prepares rf rf') :
    PeerRel A p rf' f c := by
  have hnext := hprepares.next
  rw [hprepares.eq]
  refine { h with next := fun hleader i => ?_ }
  have hold := h.next hleader i
  have hbase := h.base_le
  rcases hnext i with heq | heq | ⟨first, hfirst, heq⟩
  · simp only [heq]
    exact hold
  · simp only [heq]
    omega
  · rw [h.first] at hfirst
    obtain rfl := Option.some.inj hfirst
    simp only [heq, entryAt]
    omega

/-- A log request is the leader's log, cut in two. -/
theorem PeerRel.buildsLog (valid : Valid A) (h : PeerRel A p rf f c)
    (hstate : rf.state = .leader) {index : Int} {args : SendLogArgs n C}
    (hbuilds : rf.BuildsLog p index args) :
    ∃ front entries, LogRel A p args front entries ∧ front ++ entries = A.log p := by
  obtain ⟨first, preLog, entries, hfirst, hpre, hentries, rfl⟩ := hbuilds
  obtain ⟨m, hm, hleader, hlog⟩ := valid.leader (h.leader_iff.mp hstate)
  rw [h.first] at hfirst
  obtain rfl := Option.some.inj hfirst
  rw [h.log] at hpre hentries
  obtain ⟨i, hf, hi, hoffset, rfl⟩ := compact_get_inv h.base_le hpre
  simp only [entryAt] at hoffset hentries
  rw [show index - (f : Int) = ((i + 1 : Nat) : Int) - f by omega,
    compact_low (Nat.lt_succ_of_le hf) (Nat.succ_le_succ hi)] at hentries
  obtain rfl := Option.some.inj hentries
  have hlength : ((A.log p).take i).length = i := take_length_of_le hi
  have hparts : (A.log p).take i ++ (A.log p).drop i = A.log p := List.take_append_drop i _
  refine ⟨(A.log p).take i, (A.log p).drop i, ?_, hparts⟩
  exact {
    mandate := ⟨m, by rw [h.term]; exact hm, hleader⟩
    written := by rw [hparts, h.term, hlog]
    prevIndex := by rw [hlength]; rfl
    prevTerm := rfl
    numbered := by simp [hlength]
    commit := ⟨(A.log p).take c, by rw [hparts]; exact List.take_prefix c _,
      by rw [h.term]; exact h.committed, by rw [take_length_of_le h.commit_le]; exact h.commit⟩ }

/-- A snapshot request stands for what the leader has compacted. -/
theorem PeerRel.sendSnapShot (valid : Valid A) (h : PeerRel A p rf f c)
    {args : RequestSnapShotArgs n} {sendNextIndex sendMatchIndex : Int}
    (hrun : rf.sendSnapShot p peer = some (some (args, sendNextIndex, sendMatchIndex))) :
    ∃ front, SnapShotRel A p args front := by
  unfold Raft.sendSnapShot at hrun
  split at hrun
  · cases hrun
  · next hstate =>
      obtain ⟨m, hm, hleader, hlog⟩ :=
        valid.leader (h.leader_iff.mp (Decidable.not_not.mp hstate))
      rw [h.first] at hrun
      simp only [Option.bind_eq_bind, Option.bind_some, Option.some.injEq, Prod.mk.injEq] at hrun
      obtain ⟨rfl, _⟩ := hrun
      refine ⟨(A.log p).take f, ?_⟩
      exact {
        mandate := ⟨m, by rw [h.term]; exact hm, hleader⟩
        written := by rw [h.term, ← hlog]; exact List.take_prefix f _
        lastIndex := by rw [take_length_of_le h.base_le]; rfl
        lastTerm := rfl
        committed := by rw [h.term]; exact h.base }

end DistributedLabs
