import DistributedLabs.Raft.CommitLoop

/-!
# The bookkeeping of a leader

A step can leave a peer in the lead in few ways.  It was elected, it has taken in a
command or compacted its log, it has prepared requests, it has handled one answer, or
nothing that concerns its followers has moved.  Entries and snapshots are never taken
in by a leader, because all requests of its term are its own.

A leader counts only while it handles an answer.  With one peer there are no answers,
so that a cluster of one never commits; with more, whatever a majority holds has been
counted.
-/

namespace DistributedLabs

open DistributedLabs.Library
open DistributedLabs.Library.Replication

variable {n : Nat} {C : Type}

/-! ## Steps of a leader -/

/-- What a leader knows of its followers stays; its commit index may rise. -/
structure KeepsLead (rf rf' : Raft n C) : Prop where
  state : rf'.state = rf.state
  currentTerm : rf'.currentTerm = rf.currentTerm
  log : rf'.log = rf.log
  matchIndex : rf'.matchIndex = rf.matchIndex
  nextIndex : rf'.nextIndex = rf.nextIndex
  commitIndex : rf.commitIndex ≤ rf'.commitIndex

theorem KeepsLead.refl (rf : Raft n C) : KeepsLead rf rf :=
  ⟨rfl, rfl, rfl, rfl, rfl, Int.le_refl _⟩

/-- How the peer `p` moves when it leads afterwards. -/
inductive LeaderMove (net : List (Flight n C)) (p : Fin n) (rf : Raft n C) (action : Action n C) :
    Raft n C → Prop where
  | kept {rf' : Raft n C} (keeps : KeepsLead rf rf') : LeaderMove net p rf action rf'
  | elected {last : LogEntry C} {rf' : Raft n C} (standing : rf.state = .candidate)
      (hlast : rf.getLastLog = some last)
      (keeps : KeepsLead { rf with
        state := .leader
        nextIndex := fun _ => last.index + 1
        matchIndex := fun i => if i = p then last.index else 0 } rf') :
      LeaderMove net p rf action rf'
  | started {last : LogEntry C} {command : Option C} (leading : rf.state = .leader)
      (hlast : rf.getLastLog = some last) :
      LeaderMove net p rf action ({ rf with
        log := rf.log ++ [(⟨rf.currentTerm, last.index + 1, command⟩ : LogEntry C)]
        matchIndex := Function.update rf.matchIndex p (last.index + 1) }).persist
  | compacted {index : Int} {bytes : Bytes} {rf' : Raft n C} (leading : rf.state = .leader)
      (given : rf.Given index) (run : rf.serviceSnapshot index bytes = some rf') :
      LeaderMove net p rf action rf'
  | prepared {mid : Raft n C} (sends : List (Fin n)) (leading : rf.state = .leader)
      (prepares : Raft.Prepares rf mid) :
      LeaderMove net p rf action { mid with snapShotSends := sends }
  | matched {peer : Fin n} {lastEntry : LogEntry C} {rf' : Raft n C} (leading : rf.state = .leader)
      (other : peer ≠ p)
      (advanced : (rf.recordMatch peer lastEntry).advanceCommit = some rf') :
      LeaderMove net p rf action rf'
  | backed {k incarnation : Nat} {peer : Fin n} {args : SendLogArgs n C} {recodeNextIndex : Int}
      {reply : SendLogReply} {rf' : Raft n C} (leading : rf.state = .leader) (other : peer ≠ p)
      (answers : action = .answer k)
      (flight : net[k]? = some ⟨p, peer, incarnation, .logReply args recodeNextIndex reply⟩)
      (same : rf.currentTerm = args.term) (current : reply.term ≤ rf.currentTerm)
      (failed : reply.success = false) (unmoved : rf.nextIndex peer = recodeNextIndex)
      (run : rf.backUp peer = some rf') : LeaderMove net p rf action rf'
  | recorded {k incarnation : Nat} {peer : Fin n} {args : RequestSnapShotArgs n}
      {sendNextIndex sendMatchIndex : Int} {reply : RequestSnapShotReply} {rf' : Raft n C}
      (leading : rf.state = .leader) (other : peer ≠ p) (answers : action = .answer k)
      (flight : net[k]? = some ⟨p, peer, incarnation,
        .snapShotReply args sendNextIndex sendMatchIndex reply⟩)
      (same : rf.currentTerm = args.term) (current : reply.term ≤ rf.currentTerm)
      (advanced : (rf.recordSnapShot peer sendNextIndex sendMatchIndex
        args.lastIncludedIndex).advanceCommit = some rf') : LeaderMove net p rf action rf'

namespace Raft

variable {rf rf' : Raft n C}

/-- A peer that leads after looking at a term has not taken that term over. -/
theorem catchUp_leads {term : Int} (h : (rf.catchUp term).state = .leader) :
    rf.catchUp term = rf ∧ term ≤ rf.currentTerm := by
  rcases catchUp_cases rf term with ⟨hle, heq⟩ | ⟨_, heq⟩
  · exact ⟨heq, hle⟩
  · rw [heq] at h
    cases h

/-- It led before, in the term of the request. -/
theorem leads_of_reached {term : Int} (h : (rf.catchUp term).state = .leader)
    (reached : rf.currentTerm ≤ term) : rf.state = .leader ∧ rf.currentTerm = term := by
  obtain ⟨heq, hle⟩ := catchUp_leads h
  rw [heq] at h
  exact ⟨h, Int.le_antisymm reached hle⟩

theorem leaveCandidate_leads (h : rf.leaveCandidate.state = .leader) : rf.state = .leader := by
  unfold leaveCandidate at h
  dsimp only at h
  split at h
  · cases h
  · exact h

theorem requestVote_leads {args : RequestVoteArgs n}
    (h : (rf.requestVote args).1.state = .leader) : (rf.requestVote args).1 = rf := by
  rcases requestVote_cases rf args with ⟨_, heq⟩ | ⟨_, heq | ⟨heq, _⟩⟩
  · rw [heq]
  · rw [heq] at h ⊢
    exact (catchUp_leads h).1
  · rw [heq] at h
    cases h

theorem requestHeartBeat_leads {args : HeartBeatArgs n}
    (h : (rf.requestHeartBeat args).1.state = .leader) :
    KeepsLead rf (rf.requestHeartBeat args).1 := by
  unfold requestHeartBeat at h ⊢
  split at h
  · next hstale =>
      rw [if_pos hstale]
      exact KeepsLead.refl rf
  · next hreached =>
      rw [if_neg hreached]
      dsimp only at h ⊢
      obtain ⟨heq, _⟩ := catchUp_leads h
      rw [heq] at h ⊢
      split at h
      · next hsame =>
          rw [if_pos hsame]
          exact { KeepsLead.refl rf with state := h.trans (leaveCandidate_leads h).symm }
      · next hother =>
          rw [if_neg hother]
          exact KeepsLead.refl rf

/-- A peer that leads after a log request found the request old, or led in its term. -/
theorem requestSendLog_leads {args : SendLogArgs n C} {reply : SendLogReply}
    (hrun : rf.requestSendLog args = some (rf', reply)) (h : rf'.state = .leader) :
    rf' = rf ∨ (rf.state = .leader ∧ rf.currentTerm = args.term) := by
  cases requestSendLog_outcome hrun with
  | stale => exact Or.inl rfl
  | refused reached => exact Or.inr (leads_of_reached h reached)
  | below reached => exact Or.inr (leads_of_reached h reached)
  | taken reached _ _ _ _ _ _ followed =>
      rw [(followCommit_cases followed).1.eq] at h
      exact Or.inr (leads_of_reached (leaveCandidate_leads h) reached)

theorem requestInstallSnapShot_leads {args : RequestSnapShotArgs n} {reply : RequestSnapShotReply}
    (hrun : rf.requestInstallSnapShot args = some (rf', reply)) (h : rf'.state = .leader) :
    rf' = rf.persist ∨ (rf.state = .leader ∧ rf.currentTerm = args.term) := by
  cases requestInstallSnapShot_outcome hrun with
  | stale => exact Or.inl rfl
  | covered reached => exact Or.inr (leads_of_reached (leaveCandidate_leads h) reached)
  | replaced reached => exact Or.inr (leads_of_reached (leaveCandidate_leads h) reached)

end Raft

section Inversion

variable {A : Protocol n C} {s : Cluster n C} {p : Fin n} {rf' : Raft n C} {action : Action n C}

/-- Requests of a term come from its leader, and never to itself. -/
theorem Refines.not_led (h : Refines A s) {flight : Flight n C} {T : Int}
    (hmem : flight ∈ s.net) (hmandate : ∃ m, A.mandate T = some m ∧ m.leader = flight.src)
    (hterm : (s.peers flight.dst).currentTerm = T) : (s.peers flight.dst).state ≠ .leader := by
  obtain ⟨f, c, hpeer, _⟩ := h.peers flight.dst
  obtain ⟨m, hm, hleader⟩ := hmandate
  rw [← hterm, hpeer.term] at hm
  intro hstate
  refine h.valid.not_leader hm ?_ (hpeer.leader_iff.mp hstate)
  rw [hleader]
  exact (h.flights flight hmem).distinct

theorem Refines.operation_leads (h : Refines A s) {op : Operation n C}
    (hcause : op.Cause s.net p (s.peers p) action) (hrun : op.run (s.peers p) = some rf')
    (hleads : rf'.state = .leader) : LeaderMove s.net p (s.peers p) action rf' := by
  have hother {k : Nat} {peer : Fin n} {incarnation : Nat} {msg : Message n C}
      (hflight : s.net[k]? = some ⟨p, peer, incarnation, msg⟩) : peer ≠ p :=
    (h.flights _ (List.mem_of_getElem? hflight)).distinct.symm
  cases op with
  | requestVote args =>
      cases hrun
      rw [Raft.requestVote_leads hleads]
      exact .kept (KeepsLead.refl _)
  | requestHeartBeat args =>
      cases hrun
      exact .kept (Raft.requestHeartBeat_leads hleads)
  | requestSendLog args =>
      obtain ⟨⟨after, reply⟩, hafter, rfl⟩ := Option.map_eq_some_iff.mp hrun
      obtain ⟨flight, hmem, recodeNextIndex, hmsg, rfl⟩ := hcause
      rcases Raft.requestSendLog_leads hafter hleads with rfl | ⟨hstate, hterm⟩
      · exact .kept (KeepsLead.refl _)
      · obtain ⟨front, entries, hlog⟩ := h.logRequest hmem hmsg
        exact absurd hstate (h.not_led hmem hlog.mandate hterm)
  | requestInstallSnapShot args =>
      obtain ⟨⟨after, reply⟩, hafter, rfl⟩ := Option.map_eq_some_iff.mp hrun
      obtain ⟨flight, hmem, sendNextIndex, sendMatchIndex, hmsg, rfl⟩ := hcause
      rcases Raft.requestInstallSnapShot_leads hafter hleads with rfl | ⟨hstate, hterm⟩
      · exact .kept { KeepsLead.refl (s.peers flight.dst) with }
      · obtain ⟨front, hsnap⟩ := h.snapShotRequest hmem hmsg
        exact absurd hstate (h.not_led hmem hsnap.mandate hterm)
  | start me command =>
      obtain ⟨⟨after, result⟩, hafter, rfl⟩ := Option.map_eq_some_iff.mp hrun
      obtain ⟨_, rfl⟩ := hcause
      rcases Raft.start_cases hafter with rfl | ⟨hstate, last, hlast, rfl⟩
      · exact .kept (KeepsLead.refl _)
      · exact .started hstate hlast
  | snapshot index bytes =>
      refine .compacted ?_ hcause.2 hrun
      rcases Raft.serviceSnapshot_cases hrun with rfl | ⟨_, _, _, _, _, _, _, _, _, _, rfl⟩
      · exact hleads
      · exact hleads
  | startElection me =>
      cases hrun
      cases hleads
  | voteReply args reply =>
      cases hrun
      obtain ⟨term, heq⟩ := Raft.handleVoteReply_eq (s.peers p) args reply
      rw [heq] at hleads ⊢
      rw [(Raft.catchUp_leads hleads).1]
      exact .kept { KeepsLead.refl (s.peers p) with }
  | sendLogReply peer args recodeNextIndex reply =>
      obtain ⟨k, incarnation, rfl, hflight⟩ := hcause
      cases Raft.handleSendLogReply_answer hrun with
      | overtaken higher =>
          exact absurd (Raft.catchUp_leads hleads).2 (Int.not_le.mpr higher)
      | ignored => exact .kept (KeepsLead.refl _)
      | matched leading _ _ _ advanced => exact .matched leading (hother hflight) advanced
      | backed leading same current failed unmoved backed =>
          exact .backed leading (hother hflight) rfl hflight same current failed unmoved backed
  | snapShotReply peer args sendNextIndex sendMatchIndex reply =>
      obtain ⟨k, incarnation, rfl, hflight⟩ := hcause
      cases Raft.handleSnapShotReply_answer hrun with
      | overtaken higher =>
          exact absurd (Raft.catchUp_leads hleads).2 (Int.not_le.mpr higher)
      | ignored => exact .kept (KeepsLead.refl _)
      | recorded current leading same advanced =>
          exact .recorded leading (hother hflight) rfl hflight same current advanced

theorem Refines.leaderMove (h : Refines A s) (hdurable : (s.peers p).Durable)
    (hmove : PeerMove s.net p (s.peers p) action rf') (hleads : rf'.state = .leader) :
    LeaderMove s.net p (s.peers p) action rf' := by
  have hkeeps := KeepsLead.refl (s.peers p)
  cases hmove with
  | operation op cause run => exact h.operation_leads cause run hleads
  | concludeElection election counted run =>
      rcases Raft.concludeElection_cases run with rfl | ⟨_, hstanding, _, last, hlast, rfl⟩
      · exact .kept { hkeeps with }
      · exact .elected hstanding hlast ⟨rfl, rfl, rfl, rfl, rfl, Int.le_refl _⟩
  | sendLogTicketCore run sends =>
      have hprepares := (Raft.sendLogTicketCore_cases run).1
      refine .prepared sends ?_ hprepares
      rw [hprepares.eq] at hleads
      exact hleads
  | sendSnapShot sends => exact .kept { hkeeps with }
  | applyCollect run =>
      obtain ⟨_, first, _, ⟨_, rfl⟩ | ⟨_, toApply, _, rfl⟩⟩ := Raft.applyCollect_cases run
      · exact .kept { hkeeps with }
      · exact .kept { hkeeps with }
  | applyLock run =>
      obtain ⟨_, _, _, _, _, ⟨_, rfl⟩ | ⟨_, rfl⟩ | ⟨_, rfl⟩⟩ := Raft.applyLock_cases run
      all_goals exact .kept { hkeeps with }
  | applySend run =>
      obtain ⟨toApply, entry, rest, _, rfl⟩ := Raft.applySend_cases run
      exact .kept { hkeeps with }
  | applyFinish run =>
      obtain ⟨toApply, _, applied, rfl, _⟩ := Raft.applyFinish_cases run
      exact .kept { hkeeps with }
  | installLock run =>
      obtain ⟨install, _, _, rfl⟩ := Raft.installLock_cases run
      exact .kept { hkeeps with }
  | installSend run =>
      obtain ⟨index, msg, _, rfl⟩ := Raft.installSend_cases run
      exact .kept { hkeeps with }
  | installFinish run =>
      obtain ⟨index, _, applier, _, rfl⟩ := Raft.installFinish_cases run
      exact .kept { hkeeps with commitIndex := Int.le_max_left _ _ }
  | crash run =>
      obtain ⟨first, last, _, _, hmake⟩ := hdurable.make_eq p ((s.peers p).incarnation + 1)
      rw [← Option.some.inj (hmake.symm.trans run)] at hleads
      cases hleads

end Inversion

/-! ## Counting -/

/-- Appended entries leave the log below them as it was. -/
theorem Spans.logAt_append {rf rf' : Raft n C} {first last : LogEntry C} (h : Spans rf first last)
    (more : List (LogEntry C)) (hlog : rf'.log = rf.log ++ more) {k : Int} (hk : k ≤ last.index) :
    rf'.logAt k = rf.logAt k := by
  have hlength := h.length
  have hle := h.le
  have hfirst : rf'.getFirstLog = some first := by
    rw [Raft.getFirstLog_eq, hlog, List.head?_append_of_ne_nil, ← Raft.getFirstLog_eq]
    · exact h.hfirst
    · intro hnil
      simp only [hnil, List.length_nil] at hlength
      omega
  have hread := Slice.get_take_append_of_lt more (Nat.le_refl rf.log.length)
    (show k - first.index < rf.log.length by omega)
  rw [List.take_length] at hread
  rw [Raft.logAt, hfirst, h.logAt_eq, hlog]
  exact hread

namespace Raft

/-- An index that only the peer `p` can have reached is held once at most. -/
theorem matchCount_update_le_one {matchIndex : Fin n → Int} {N : Int} (p : Fin n) (reached : Int)
    (hothers : ∀ i, matchIndex i < N) :
    matchCount (Function.update matchIndex p reached) N ≤ 1 := by
  have hone : matchCount (Function.update matchIndex p reached) N ≤
      (List.finRange n).count p := by
    refine List.countP_mono_left fun i _ hi => ?_
    have hi : N ≤ Function.update matchIndex p reached i := of_decide_eq_true hi
    by_contra hip
    rw [Function.update_of_ne (ne_of_beq_false (Bool.eq_false_iff.mpr hip))] at hi
    exact Int.not_lt.mpr hi (hothers i)
  rw [List.count_eq_one_of_mem (List.nodup_finRange n) (List.mem_finRange p)] at hone
  exact hone

/-- A peer that holds an index already is not counted twice for it. -/
theorem matchCount_update_le {matchIndex : Fin n → Int} {N : Int} {p : Fin n} (reached : Int)
    (hown : N ≤ matchIndex p) :
    matchCount (Function.update matchIndex p reached) N ≤ matchCount matchIndex N := by
  refine List.countP_mono_left fun i _ hi => ?_
  have hi : N ≤ Function.update matchIndex p reached i := of_decide_eq_true hi
  by_cases hip : i = p
  · rw [hip]
    exact decide_eq_true hown
  · rw [Function.update_of_ne hip] at hi
    exact decide_eq_true hi

end Raft

/-! ## What a majority holds is committed -/

/-- The leader counts itself up to its last entry, and every entry of its term that a majority
holds as committed. -/
structure Counts (p : Fin n) (rf : Raft n C) : Prop where
  own : ∀ last, rf.getLastLog = some last → rf.matchIndex p = last.index
  counted : ∀ N entry, rf.commitIndex < N → rf.logAt N = some entry →
    entry.term = rf.currentTerm → Raft.matchCount rf.matchIndex N ≤ n / 2

namespace Counts

variable {p : Fin n} {rf rf' : Raft n C}

theorem keeps (h : Counts p rf) (hkeeps : KeepsLead rf rf') : Counts p rf' where
  own := by
    intro last hlast
    rw [Raft.getLastLog_eq, hkeeps.log, ← Raft.getLastLog_eq] at hlast
    rw [hkeeps.matchIndex]
    exact h.own last hlast
  counted := by
    intro N entry hcommit hentry hterm
    rw [Raft.logAt, Raft.getFirstLog_eq, hkeeps.log, ← Raft.getFirstLog_eq] at hentry
    rw [hkeeps.currentTerm] at hterm
    rw [hkeeps.matchIndex]
    exact h.counted N entry (Int.lt_of_le_of_lt hkeeps.commitIndex hcommit) hentry hterm

/-- Whatever an answer has told the leader, the commit loop counts it. -/
theorem advance {mid : Raft n C} (h : Counts p rf) (hrun : mid.advanceCommit = some rf')
    (hlog : mid.log = rf.log) (hown : mid.matchIndex p = rf.matchIndex p)
    {first last : LogEntry C} (hspans : Spans rf first last) : Counts p rf' := by
  obtain ⟨hcommits, _⟩ := Raft.advanceCommit_cases hrun
  have hmid : Spans mid first last := hspans.of_log hlog
  have hafter : Spans rf' first last := hmid.of_log (by rw [hcommits.eq])
  have hmatch : rf'.matchIndex = mid.matchIndex := by rw [hcommits.eq]
  constructor
  · intro last' hlast'
    obtain rfl := Option.some.inj (hafter.hlast.symm.trans hlast')
    rw [hmatch, hown]
    exact h.own last hspans.hlast
  · intro N entry hcommit hentry hterm
    have hheld : mid.logAt N = some entry := by
      rw [← hentry, hcommits.eq]
      rfl
    rw [hmatch]
    exact hmid.advanceCommit_settles hrun hcommit hheld (hterm.trans hcommits.currentTerm)

/-- A new leader has no entry of its term yet. -/
theorem elected {A : Protocol n C} (valid : Valid A) {f c : Nat} (hpeer : PeerRel A p rf f c)
    (hstanding : rf.state = .candidate) {last : LogEntry C} (hlast : rf.getLastLog = some last) :
    Counts p { rf with
      state := .leader
      nextIndex := fun _ => last.index + 1
      matchIndex := fun i => if i = p then last.index else 0 } := by
  constructor
  · intro last' hlast'
    obtain rfl := Option.some.inj (hlast.symm.trans hlast')
    exact if_pos rfl
  · intro N entry hcommit hentry hterm
    exfalso
    have hrole : A.role p = .candidate := stateOf_injective (hpeer.role.symm.trans hstanding)
    obtain ⟨i, rfl, _, hi, rfl⟩ := hpeer.logAt_inv hentry
    have hcommit : rf.commitIndex < i := hcommit
    rw [hpeer.commit] at hcommit
    obtain ⟨k, rfl⟩ : ∃ k, i = k + 1 := ⟨i - 1, by omega⟩
    have hlower := valid.stood_lt (valid.candidate hrole) _ (List.getElem_mem (show k < _ from hi))
    have hterm : lastTerm ((A.log p).take (k + 1)) = rf.currentTerm := hterm
    rw [lastTerm_take_succ hi, hpeer.term] at hterm
    omega

/-- An entry that has just been started is held by the leader alone. -/
theorem started {A : Protocol n C} (valid : Valid A) {f c : Nat} (h : Counts p rf)
    (hn : 2 ≤ n) (hpeer : PeerRel A p rf f c) (hleading : rf.state = .leader)
    {last : LogEntry C} (hlast : rf.getLastLog = some last) (command : Option C) :
    Counts p ({ rf with
      log := rf.log ++ [(⟨rf.currentTerm, last.index + 1, command⟩ : LogEntry C)]
      matchIndex := Function.update rf.matchIndex p (last.index + 1) }).persist := by
  have hspans := hpeer.spans
  obtain rfl := Option.some.inj (hspans.hlast.symm.trans hlast)
  obtain ⟨hleader, _, hlog⟩ := hpeer.leader_log valid hleading rfl
  constructor
  · intro last' hlast'
    rw [Raft.getLastLog_eq] at hlast'
    obtain rfl : (⟨rf.currentTerm, _, command⟩ : LogEntry C) = last' := by
      simpa [Raft.persist] using hlast'
    exact Function.update_self _ _ _
  · intro N entry hcommit hentry hterm
    by_cases hnew : (A.log p).length < N
    · have hothers (i : Fin n) : rf.matchIndex i < N := by
        have hack := Int.le_trans (hpeer.matched hleader i)
          (Int.ofNat_le.mpr (valid.ack_short _ i))
        rw [← hpeer.term, ← hlog] at hack
        exact Int.lt_of_le_of_lt hack hnew
      have hhalf : 1 ≤ n / 2 := by omega
      exact Nat.le_trans (Raft.matchCount_update_le_one p _ hothers) hhalf
    · have hown : N ≤ rf.matchIndex p := (h.own _ hlast).symm ▸ Int.not_lt.mp hnew
      have hold := Raft.matchCount_update_le ((A.log p).length + 1 : Int) hown
      rw [hspans.logAt_append _ rfl (Int.not_lt.mp hnew)] at hentry
      exact Nat.le_trans hold (h.counted N entry hcommit hentry hterm)

/-- A compacted log has the terms it had. -/
theorem compacted {A : Protocol n C} {f c : Nat} (h : Counts p rf) (hpeer : PeerRel A p rf f c)
    (hchannel : ChannelRel A rf f c) {index : Int} {bytes : Bytes} (hgiven : rf.Given index)
    (hrun : rf.serviceSnapshot index bytes = some rf') : Counts p rf' := by
  rcases hpeer.serviceSnapshot hchannel hgiven hrun with rfl | ⟨i, _, hf, hc, rfl⟩
  · exact h
  · have hi : i ≤ (A.log p).length := Nat.le_trans hc hpeer.commit_le
    constructor
    · intro last hlast
      rw [Raft.getLastLog_eq] at hlast
      obtain rfl := Option.some.inj ((compact_getLast? hi).symm.trans hlast)
      have hown : rf.matchIndex p = (A.log p).length := h.own _ hpeer.last
      exact hown
    · intro N entry hcommit hentry hterm
      rw [Raft.logAt, Raft.getFirstLog_eq, Raft.persist, compact_head?] at hentry
      obtain ⟨k, hik, hk, hoffset, rfl⟩ := compact_get_inv hi hentry
      obtain rfl : N = k := by
        simp only [entryAt] at hoffset
        omega
      exact h.counted k _ hcommit (hpeer.logAt_eq (by omega) hk) hterm

theorem move {A : Protocol n C} {s : Cluster n C} {action : Action n C} (hn : 2 ≤ n)
    (hrefines : Refines A s) (h : (s.peers p).state = .leader → Counts p (s.peers p))
    (hmove : LeaderMove s.net p (s.peers p) action rf') (hleads : rf'.state = .leader) :
    Counts p rf' := by
  obtain ⟨f, c, hpeer, hchannel⟩ := hrefines.peers p
  cases hmove with
  | kept keeps => exact (h (keeps.state ▸ hleads)).keeps keeps
  | elected standing hlast keeps => exact (elected hrefines.valid hpeer standing hlast).keeps keeps
  | started leading hlast =>
      exact (h leading).started hrefines.valid hn hpeer leading hlast _
  | compacted leading given run => exact (h leading).compacted hpeer hchannel given run
  | prepared sends leading prepares =>
      rw [prepares.eq]
      exact { h leading with }
  | matched leading other advanced =>
      exact (h leading).advance advanced rfl (Raft.recordMatch_others other.symm _).2 hpeer.spans
  | backed leading _ _ _ _ _ _ _ run =>
      obtain ⟨_, _, index, _, _, rfl, _⟩ := Raft.backUp_cases run
      exact { h leading with }
  | recorded leading other _ _ _ _ advanced =>
      exact (h leading).advance advanced rfl (Raft.recordSnapShot_others other.symm _ _ _).2
        hpeer.spans

end Counts

namespace Cluster

variable {s : Cluster n C}

/-- In a cluster of two or more, a leader has committed every entry of its term that it knows
a majority to hold. -/
theorem leader_commits_counted (hn : 2 ≤ n) (hreach : Reachable s) {p : Fin n}
    (hleader : (s.peers p).state = .leader) {N : Int} {entry : LogEntry C}
    (hcommit : (s.peers p).commitIndex < N) (hentry : (s.peers p).logAt N = some entry)
    (hterm : entry.term = (s.peers p).currentTerm) :
    ¬ Raft.matchCount (s.peers p).matchIndex N > n / 2 := by
  have hcounts : (s.peers p).state = .leader → Counts p (s.peers p) := by
    refine peer_of_reachable (P := fun rf => rf.state = .leader → Counts p rf) hreach p ?_ ?_
    · intro hstate
      cases hstate
    · intro t action rf' before h hmove hleads
      obtain ⟨A, hrefines⟩ := exists_refines before
      exact Counts.move hn hrefines h
        (hrefines.leaderMove (durable_of_reachable before p) hmove hleads) hleads
  exact Nat.not_lt.mpr ((hcounts hleader).counted N entry hcommit hentry hterm)

/-- The second entry is held by peer 0 alone. -/
theorem leader_commits_counted_of_three : ∃ s : Cluster 3 Nat, Reachable s ∧
    (s.peers 0).state = .leader ∧ (s.peers 0).commitIndex = 1 ∧ (s.peers 0).matchIndex 0 = 2 ∧
    ¬ Raft.matchCount (s.peers 0).matchIndex 2 > 3 / 2 := by
  have hchecked : RunHolds step (commitFirst ++ [.start 0 (some 8)]) initial fun s =>
      (s.peers 0).state = .leader ∧ (s.peers 0).commitIndex = 1 ∧ (s.peers 0).matchIndex 0 = 2 ∧
        (s.peers 0).logAt 2 = some ⟨1, 2, some 8⟩ ∧ (s.peers 0).currentTerm = 1 := by
    decide +kernel
  obtain ⟨s, hreach, hleader, hcommit, hmatch, hentry, hterm⟩ := hchecked.exists_reaches
  exact ⟨s, hreach, hleader, hcommit, hmatch, leader_commits_counted (by decide) hreach hleader
    (by rw [hcommit]; decide) hentry hterm.symm⟩

/-- A peer that is alone elects itself and starts an entry.  It is the majority, and the entry
is never counted. -/
theorem single_leader_never_commits : ∃ s : Cluster 1 Nat, Reachable s ∧
    (s.peers 0).state = .leader ∧ (s.peers 0).commitIndex = 0 ∧
    (s.peers 0).logAt 1 = some ⟨1, 1, some 7⟩ ∧ (s.peers 0).currentTerm = 1 ∧
    Raft.matchCount (s.peers 0).matchIndex 1 > 1 / 2 := by
  have hchecked : RunHolds step [.ticker 0, .concludeElection 0 0, .start 0 (some 7)]
      (initial : Cluster 1 Nat) fun s =>
      (s.peers 0).state = .leader ∧ (s.peers 0).commitIndex = 0 ∧
        (s.peers 0).logAt 1 = some ⟨1, 1, some 7⟩ ∧ (s.peers 0).currentTerm = 1 ∧
        Raft.matchCount (s.peers 0).matchIndex 1 > 1 / 2 := by
    decide +kernel
  exact hchecked.exists_reaches

end Cluster

end DistributedLabs
