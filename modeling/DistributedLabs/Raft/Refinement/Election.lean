import DistributedLabs.Raft.Refinement.Relation

/-!
# Terms, votes and elections as steps of the protocol
-/

namespace DistributedLabs

open DistributedLabs.Library
open DistributedLabs.Library.Replication

variable {n : Nat} {C : Type} {A : Protocol n C} {p : Fin n} {rf rf' : Raft n C} {f c : Nat}

/-! ## Reading a represented peer -/

@[simp]
theorem Applier.entries_wake (applier : Applier C) : applier.wake.entries = applier.entries := by
  cases applier <;> rfl

@[simp]
theorem Applier.entries_wakeSeq (applier : Applier C) :
    applier.wakeSeq.entries = applier.entries := by
  cases applier <;> rfl

/-- A signal does not touch the entries in hand. -/
theorem Applier.entries_signalled {applier applier' : Applier C}
    (h : Raft.Applier.Signalled applier applier') : applier'.entries = applier.entries := by
  rcases h with rfl | rfl | rfl
  · rfl
  · exact entries_wake applier
  · exact entries_wakeSeq applier

theorem Quiet.entries_eq (h : Quiet rf rf') : rf'.applier.entries = rf.applier.entries := by
  rcases h.applier with heq | heq
  · rw [heq]
  · rw [heq, Applier.entries_wake]

/-- Taking the mutex brings no entries into the batch. -/
theorem Raft.applyLock_entries (h : rf.applyLock = .ok rf') :
    rf'.applier.entries ⊆ rf.applier.entries := by
  obtain ⟨toApply, _, hcollected, _, _, hcases⟩ := Raft.applyLock_cases h
  rw [hcollected]
  rcases hcases with ⟨_, rfl⟩ | ⟨_, rfl⟩ | ⟨_, rfl⟩
  · exact List.Subset.refl _
  · exact List.nil_subset _
  · exact List.append_subset.mpr ⟨List.Subset.refl _, List.Subset.refl _⟩

/-- A send hands over the first entry that remains and keeps the others. -/
theorem Raft.applySend_entries (h : rf.applySend = .ok rf') :
    rf'.applier.entries ⊆ rf.applier.entries ∧
    ∃ entry ∈ rf.applier.entries, rf'.applyCh.msgs = rf.applyCh.msgs ++ [commandMsg entry] := by
  obtain ⟨toApply, entry, rest, hsending, rfl⟩ := Raft.applySend_cases h
  rw [hsending]
  refine ⟨fun other hmem => ?_, entry, ?_, rfl⟩
  · rcases List.mem_append.mp hmem with hin | hin
    · exact List.mem_append_left _ hin
    · exact List.mem_append_right _ (List.mem_cons_of_mem _ hin)
  · exact List.mem_append_right _ List.mem_cons_self

namespace PeerRel

theorem first (h : PeerRel A p rf f c) : rf.getFirstLog = some (entryAt f (A.log p) f) := by
  rw [Raft.getFirstLog_eq, h.log, compact_head?]

theorem last (h : PeerRel A p rf f c) :
    rf.getLastLog = some (entryAt f (A.log p) (A.log p).length) := by
  rw [Raft.getLastLog_eq, h.log, compact_getLast? h.base_le]

theorem localLast (h : PeerRel A p rf f c) :
    rf.localLast = (((A.log p).length : Int), lastTerm (A.log p)) := by
  simp [Raft.localLast, h.log, compact_getLast? h.base_le, entryAt]

theorem leader_iff (h : PeerRel A p rf f c) : rf.state = .leader ↔ A.role p = .leader := by
  rw [h.role]
  exact ⟨fun hstate => stateOf_injective hstate, fun hrole => by rw [hrole]; rfl⟩

theorem candidate_iff (h : PeerRel A p rf f c) :
    rf.state = .candidate ↔ A.role p = .candidate := by
  rw [h.role]
  exact ⟨fun hstate => stateOf_injective hstate, fun hrole => by rw [hrole]; rfl⟩

end PeerRel

/-- A change to the delivery side that leaves collected entries and messages alone. -/
theorem ChannelRel.congr (h : ChannelRel A rf f c)
    (happlier : rf'.applier.entries = rf.applier.entries) (hchannel : rf'.applyCh = rf.applyCh)
    (hinstalls : rf'.installs = rf.installs) (hseq : rf'.applySeqMu = rf.applySeqMu) :
    ChannelRel A rf' f c where
  batch := by rw [happlier]; exact h.batch
  given := by rw [hchannel]; exact h.given
  start := by rw [hchannel]; exact h.start
  installs := by rw [hinstalls]; exact h.installs
  seq := by rw [hseq]; exact h.seq

theorem ChannelRel.carry {A' : Protocol n C} (h : ChannelRel A rf f c) (grows : Grows A A')
    (happlier : rf'.applier.entries = rf.applier.entries) (hchannel : rf'.applyCh = rf.applyCh)
    (hinstalls : rf'.installs = rf.installs) (hseq : rf'.applySeqMu = rf.applySeqMu) :
    ChannelRel A' rf' f c :=
  ChannelRel.mono grows (Nat.le_refl f) (Nat.le_refl c) (h.congr happlier hchannel hinstalls hseq)

/-! ## Terms -/

/-- Leaving the leader's role is always a step of the protocol. -/
theorem PeerRel.stepDown (valid : Valid A) (h : PeerRel A p rf f c) :
    StepsBy p A { A with role := Function.update A.role p .follower } ∧
      PeerRel { A with role := Function.update A.role p .follower } p
        { rf with state := .follower } f c := by
  have step : Step p A { A with role := Function.update A.role p .follower } := .stepDown
  have grows := step.grows valid
  refine ⟨step.stepsBy, ?_⟩
  exact {
    term := h.term
    vote := h.vote
    role := by simp [stateOf]
    log := h.log
    base_le := h.base_le
    base := h.base.grows grows
    commit := h.commit
    commit_le := h.commit_le
    committed := h.committed.grows grows
    matched := fun hleader => by simp at hleader
    next := fun hleader => by simp at hleader
    sends := h.sends }

theorem PeerRel.advance (valid : Valid A) (h : PeerRel A p rf f c) {term : Int}
    (higher : rf.currentTerm < term) :
    ∃ A', StepsBy p A A' ∧ PeerRel A' p
      ({ rf with currentTerm := term, state := .follower, voteFor := none }).persist f c := by
  have hlt : A.term p < term := h.term ▸ higher
  have step := Step.advance hlt
  have grows := step.grows valid
  refine ⟨_, step.stepsBy, ?_⟩
  have hle : A.term p ≤ term := Int.le_of_lt hlt
  exact {
    term := by simp [Raft.persist]
    vote := by simp [Raft.persist]
    role := by simp [Raft.persist, stateOf]
    log := h.log
    base_le := h.base_le
    base := by simpa using (h.base.grows grows).later hle
    commit := h.commit
    commit_le := h.commit_le
    committed := by simpa using (h.committed.grows grows).later hle
    matched := fun hleader => by simp at hleader
    next := fun hleader => by simp at hleader
    sends := h.sends }

theorem PeerRel.catchUp (valid : Valid A) (h : PeerRel A p rf f c) (term : Int) :
    ∃ A', StepsBy p A A' ∧ PeerRel A' p (rf.catchUp term) f c := by
  rcases Raft.catchUp_cases rf term with ⟨_, heq⟩ | ⟨hlt, heq⟩
  · rw [heq]
    exact ⟨A, StepsBy.refl p A, h⟩
  · rw [heq]
    exact h.advance valid hlt

theorem ChannelRel.catchUp (h : ChannelRel A rf f c) (term : Int) :
    ChannelRel A (rf.catchUp term) f c := by
  rcases Raft.catchUp_cases rf term with ⟨_, heq⟩ | ⟨_, heq⟩
  · rw [heq]
    exact h
  · rw [heq]
    exact h.congr rfl rfl rfl rfl

theorem Reps.catchUp (valid : Valid A) (h : Reps A p rf) (term : Int) :
    ∃ A', StepsBy p A A' ∧ Reps A' p (rf.catchUp term) := by
  obtain ⟨f, c, hpeer, hchannel⟩ := h
  obtain ⟨A', hsteps, hpeer'⟩ := hpeer.catchUp valid term
  exact ⟨A', hsteps, f, c, hpeer',
    (hchannel.catchUp term).mono (hsteps.grows valid) (Nat.le_refl f) (Nat.le_refl c)⟩

theorem Reps.catchUp_term (h : Reps A p (rf.catchUp term)) (reached : rf.currentTerm ≤ term) :
    A.term p = term := by
  obtain ⟨f, c, hpeer, _⟩ := h
  rw [← hpeer.term]
  exact Raft.catchUp_currentTerm reached

/-! ## Votes -/

theorem Reps.stepDown (valid : Valid A) (h : Reps A p rf) :
    ∃ A', StepsBy p A A' ∧ Reps A' p { rf with state := .follower } := by
  obtain ⟨f, c, hpeer, hchannel⟩ := h
  obtain ⟨hsteps, hpeer'⟩ := hpeer.stepDown valid
  exact ⟨_, hsteps, f, c, hpeer',
    hchannel.carry (hsteps.grows valid) rfl rfl rfl rfl⟩

theorem Reps.persist (h : Reps A p rf) : Reps A p rf.persist := by
  obtain ⟨f, c, hpeer, hchannel⟩ := h
  exact ⟨f, c, { hpeer with }, hchannel.congr rfl rfl rfl rfl⟩

theorem Reps.setVote_same (h : Reps A p rf) {candidate : Fin n}
    (hvote : rf.voteFor = some candidate) : Reps A p { rf with voteFor := some candidate } := by
  obtain ⟨f, c, hpeer, hchannel⟩ := h
  exact ⟨f, c, { hpeer with vote := hvote ▸ hpeer.vote }, hchannel.congr rfl rfl rfl rfl⟩

/-- A first vote of the term, for a candidate that stood with `l`. -/
theorem Reps.grant (valid : Valid A) (h : Reps A p rf) {src : Fin n}
    {args : RequestVoteArgs n} {l : List (Entry (Option C))} (hvote : VoteRel A src args l)
    (hterm : A.term p = args.term) (hfree : rf.voteFor = none) (hcurrent : rf.UpToDate args) :
    ∃ A', StepsBy p A A' ∧ Reps A' p (rf.grantVote args.candidateId) ∧
      ∃ l', A'.ballot args.term p = some (src, l') := by
  obtain ⟨f, c, hpeer, hchannel⟩ := h
  have hstanding : A.stood (A.term p) src = some l := by
    rw [hterm]
    exact hvote.stood
  have hup : UpToDate l (A.log p) := by
    unfold Raft.UpToDate at hcurrent
    rw [hpeer.localLast, hvote.lastIndex, hvote.lastTerm] at hcurrent
    rcases hcurrent with hlt | ⟨heq, hle⟩
    · exact Or.inl hlt
    · exact Or.inr ⟨heq, Int.ofNat_le.mp hle⟩
  have step := Step.grant (hpeer.vote ▸ hfree) hstanding hup
  have grows := step.grows valid
  refine ⟨_, step.stepsBy, ⟨f, c, ?_, hchannel.carry grows rfl rfl rfl rfl⟩,
    A.log p, by simp [← hterm]⟩
  exact {
    term := hpeer.term
    vote := by simp [Raft.grantVote, Raft.persist, hvote.candidate]
    role := by simp [Raft.grantVote, Raft.persist, stateOf]
    log := hpeer.log
    base_le := hpeer.base_le
    base := hpeer.base.grows grows
    commit := hpeer.commit
    commit_le := hpeer.commit_le
    committed := hpeer.committed.grows grows
    matched := fun hleader => by simp at hleader
    next := fun hleader => by simp at hleader
    sends := hpeer.sends }

/-- The vote of the term was already given to this candidate. -/
theorem Reps.grant_again (valid : Valid A) (h : Reps A p rf) {src : Fin n}
    {args : RequestVoteArgs n} {l : List (Entry (Option C))} (hvote : VoteRel A src args l)
    (hterm : A.term p = args.term) (hvoted : rf.voteFor = some args.candidateId) :
    ∃ A', StepsBy p A A' ∧ Reps A' p (rf.grantVote args.candidateId) ∧
      ∃ l', A'.ballot args.term p = some (src, l') := by
  have hsame := h.setVote_same hvoted
  obtain ⟨A', hsteps, hreps⟩ := hsame.stepDown valid
  refine ⟨A', hsteps, hreps.persist, ?_⟩
  obtain ⟨f, c, hpeer, _⟩ := h
  obtain ⟨l', hl'⟩ := valid.vote_ballot (hpeer.vote ▸ hvoted)
  rw [hterm, hvote.candidate] at hl'
  exact ⟨l', (hsteps.grows valid).ballot hl'⟩

theorem Reps.requestVote (valid : Valid A) (h : Reps A p rf) {src : Fin n}
    {args : RequestVoteArgs n} {l : List (Entry (Option C))} (hvote : VoteRel A src args l) :
    ∃ A', StepsBy p A A' ∧ Reps A' p (rf.requestVote args).1 ∧
      MessageRel A' src p (.voteReply args (rf.requestVote args).2) := by
  rcases Raft.requestVote_cases rf args with ⟨_, heq⟩ | ⟨reached, hcases⟩
  · rw [heq]
    exact ⟨A, StepsBy.refl p A, h, ⟨l, hvote⟩, fun hgranted => by cases hgranted⟩
  · obtain ⟨A₁, hsteps₁, hreps₁⟩ := h.catchUp valid args.term
    have hvote₁ := hvote.grows (hsteps₁.grows valid)
    have hterm := hreps₁.catchUp_term reached
    rcases hcases with heq | ⟨heq, hreason⟩
    · rw [heq]
      exact ⟨A₁, hsteps₁, hreps₁, ⟨l, hvote₁⟩, fun hgranted => by cases hgranted⟩
    · rw [heq]
      have valid₁ := hsteps₁.valid valid
      obtain ⟨A₂, hsteps₂, hreps₂, hballot⟩ : ∃ A₂, StepsBy p A₁ A₂ ∧
          Reps A₂ p ((rf.catchUp args.term).grantVote args.candidateId) ∧
          ∃ l', A₂.ballot args.term p = some (src, l') := by
        rcases hreason with hvoted | ⟨hfree, hcurrent⟩
        · exact hreps₁.grant_again valid₁ hvote₁ hterm hvoted
        · exact hreps₁.grant valid₁ hvote₁ hterm hfree hcurrent
      exact ⟨A₂, hsteps₁.trans hsteps₂, hreps₂,
        ⟨l, hvote₁.grows (hsteps₂.grows valid₁)⟩, fun _ => hballot⟩

/-! ## Elections -/

theorem Reps.startElection (valid : Valid A) (h : Reps A p rf) :
    ∃ A', StepsBy p A A' ∧ Reps A' p (rf.startElection p).1 ∧
      A.term p < (rf.startElection p).2.term ∧ A'.term p = (rf.startElection p).2.term ∧
      VoteRel A' p (rf.startElection p).2 (A.log p) ∧
      ∃ l, A'.ballot (rf.startElection p).2.term p = some (p, l) := by
  obtain ⟨f, c, hpeer, hchannel⟩ := h
  have hlt : A.term p < rf.currentTerm + 1 := by
    rw [hpeer.term]
    omega
  have step := Step.stand hlt
  have grows := step.grows valid
  have hle : A.term p ≤ rf.currentTerm + 1 := Int.le_of_lt hlt
  have hstanding : (({ rf with
      currentTerm := rf.currentTerm + 1
      state := .candidate
      voteFor := some p
      elections := rf.elections ++ [({ term := rf.currentTerm + 1 } : Election)] }
        : Raft n C).persist).localLast = rf.localLast := rfl
  refine ⟨_, step.stepsBy, ⟨f, c, ?_, hchannel.carry grows rfl rfl rfl rfl⟩, hlt,
    by simp [Raft.startElection, Raft.persist], ?_, A.log p,
    by simp [Raft.startElection, Raft.persist]⟩
  · exact {
      term := by simp [Raft.startElection, Raft.persist]
      vote := by simp [Raft.startElection, Raft.persist]
      role := by simp [Raft.startElection, Raft.persist, stateOf]
      log := hpeer.log
      base_le := hpeer.base_le
      base := by simpa using (hpeer.base.grows grows).later hle
      commit := hpeer.commit
      commit_le := hpeer.commit_le
      committed := by simpa using (hpeer.committed.grows grows).later hle
      matched := fun hleader => by simp at hleader
      next := fun hleader => by simp at hleader
      sends := hpeer.sends }
  · refine ⟨rfl, by simp [Raft.startElection, Raft.persist], ?_, ?_⟩
    · simp only [Raft.startElection, hstanding, hpeer.localLast]
    · simp only [Raft.startElection, hstanding, hpeer.localLast]

theorem Reps.countVote (h : Reps A p rf) (args : RequestVoteArgs n)
    (reply : Option RequestVoteReply) : Reps A p (rf.countVote args reply) := by
  obtain ⟨f, c, hpeer, hchannel⟩ := h
  exact ⟨f, c, { hpeer with }, hchannel.congr rfl rfl rfl rfl⟩

theorem Reps.handleVoteReply (valid : Valid A) (h : Reps A p rf) (args : RequestVoteArgs n)
    (reply : Option RequestVoteReply) :
    ∃ A', StepsBy p A A' ∧ Reps A' p (rf.handleVoteReply args reply) := by
  obtain ⟨term, heq⟩ := Raft.handleVoteReply_eq rf args reply
  rw [heq]
  exact (h.countVote args reply).catchUp valid term

/-- A candidate that a majority voted for may lead. -/
theorem Reps.concludeElection (valid : Valid A) (h : Reps A p rf) {election : Election}
    (hrun : rf.concludeElection p election = some rf')
    (hvotes : n / 2 < election.voteCount → ∃ quorum : Finset (Fin n), Majority quorum ∧
      ∀ v ∈ quorum, ∃ l, A.ballot election.term v = some (p, l)) :
    ∃ A', StepsBy p A A' ∧ Reps A' p rf' := by
  obtain ⟨f, c, hpeer, hchannel⟩ := h
  rcases Raft.concludeElection_cases hrun with rfl | ⟨hterm, hstate, hcount, last, hlast, rfl⟩
  · exact ⟨A, StepsBy.refl p A, f, c, { hpeer with }, hchannel.congr rfl rfl rfl rfl⟩
  · obtain ⟨quorum, hmajority, hgranted⟩ := hvotes hcount
    rw [← hterm, hpeer.term] at hgranted
    have step := Step.win (hpeer.candidate_iff.mp hstate) hmajority hgranted
    have grows := step.grows valid
    have hindex : last.index = (A.log p).length := by
      rw [← Option.some.inj (hpeer.last.symm.trans hlast)]
      rfl
    refine ⟨_, step.stepsBy, f, c, ?_, hchannel.carry grows rfl rfl rfl rfl⟩
    exact {
      term := hpeer.term
      vote := hpeer.vote
      role := by simp [stateOf]
      log := hpeer.log
      base_le := hpeer.base_le
      base := hpeer.base.grows grows
      commit := hpeer.commit
      commit_le := hpeer.commit_le
      committed := hpeer.committed.grows grows
      matched := fun _ i => by
        by_cases hi : i = p
        · subst hi
          simp [hindex]
        · simp [hi]
      next := fun _ i => ⟨by simp only [hindex]; omega, by simp [hindex]⟩
      sends := hpeer.sends }

end DistributedLabs
