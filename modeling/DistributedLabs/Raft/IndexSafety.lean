import DistributedLabs.Raft.Stream

/-!
# Every access to a log is in range

A log that spans the indexes from its first to its last entry can be read at each
of them, so an operation panics only when it computes an index outside.  The
invariants of the replicated log keep all of them inside but one: a leader whose
commit index is still behind its compaction point starts its commit loop below
the log.
-/

namespace DistributedLabs

open DistributedLabs.Library
open DistributedLabs.Library.Replication

variable {n : Nat} {C : Type}

/-- The log has one entry for each index from `first` to `last`. -/
structure Spans (rf : Raft n C) (first last : LogEntry C) : Prop where
  hfirst : rf.getFirstLog = some first
  hlast : rf.getLastLog = some last
  length : (rf.log.length : Int) = last.index - first.index + 1

theorem Spans.logAt_eq {rf : Raft n C} {first last : LogEntry C} (h : Spans rf first last)
    (k : Int) : rf.logAt k = Slice.get rf.log (k - first.index) := by
  rw [Raft.logAt, h.hfirst]
  rfl

theorem PeerRel.spans {A : Protocol n C} {p : Fin n} {rf : Raft n C} {f c : Nat}
    (h : PeerRel A p rf f c) :
    Spans rf (entryAt f (A.log p) f) (entryAt f (A.log p) (A.log p).length) := by
  refine ⟨h.first, h.last, ?_⟩
  have hle := h.base_le
  rw [h.log, compact_length]
  simp only [entryAt]
  omega

/-- The log of a peer is numbered from its compaction point on. -/
theorem PeerRel.consecutive {A : Protocol n C} {p : Fin n} {rf : Raft n C} {f c : Nat}
    (h : PeerRel A p rf f c) : Consecutive (entryAt f (A.log p) f).index rf.log := by
  intro k entry hentry
  rw [← Slice.get_natCast, h.log] at hentry
  obtain ⟨i, _, _, hoffset, rfl⟩ := compact_get_inv h.base_le hentry
  simp only [entryAt]
  omega

theorem spans_of_consecutive {rf : Raft n C} {first last : LogEntry C}
    (hfirst : rf.getFirstLog = some first) (hlast : rf.getLastLog = some last)
    (hlog : Consecutive first.index rf.log) : Spans rf first last := by
  refine ⟨hfirst, hlast, ?_⟩
  rw [Raft.getLastLog_eq] at hlast
  have hpos := List.length_pos_of_mem (List.mem_of_getLast? hlast)
  rw [List.getLast?_eq_getElem?] at hlast
  have hindex := hlog _ last hlast
  omega

namespace Raft

variable {rf : Raft n C} {first last : LogEntry C}

/-! ## Taking in entries -/

theorem exists_followCommit (hlast : rf.getLastLog = some last) (leaderCommit : Int) :
    ∃ rf', rf.followCommit leaderCommit = some rf' := by
  unfold followCommit
  split
  · simp only [hlast, Option.bind_eq_bind, Option.bind_some]
    exact ⟨_, rfl⟩
  · exact ⟨rf, rfl⟩

/-- The loop only drops entries from the front. -/
theorem trimEntries_getLast? {index : Int} {entries : List (LogEntry C)}
    {lastEntry : LogEntry C} (hlast : entries.getLast? = some lastEntry) :
    ((trimEntries index entries).getD entries).getLast? = some lastEntry := by
  cases htrim : trimEntries index entries with
  | none => exact hlast
  | some kept =>
      induction entries with
      | nil => cases htrim
      | cons entry rest ih =>
          simp only [trimEntries] at htrim
          split at htrim
          · cases htrim
            exact hlast
          · cases rest with
            | nil => cases htrim
            | cons next rest =>
                rw [List.getLast?_cons_cons] at hlast
                exact ih hlast htrim

theorem exists_getLastLog (hne : rf.log ≠ []) : ∃ last, rf.getLastLog = some last :=
  ⟨_, (getLastLog_eq rf).trans (List.getLast?_eq_some_getLast hne)⟩

/-- The answer to a log request takes the leader into its commit loop. -/
def CountsLogReply (rf : Raft n C) (args : SendLogArgs n C) (reply : SendLogReply) : Prop :=
  reply.term ≤ rf.currentTerm ∧ rf.state = .leader ∧ rf.currentTerm = args.term ∧
    reply.success = true ∧ args.entries.isEmpty = false

/-- The answer to a snapshot takes the leader into its commit loop. -/
def CountsSnapShotReply (rf : Raft n C) (args : RequestSnapShotArgs n)
    (reply : RequestSnapShotReply) : Prop :=
  reply.term ≤ rf.currentTerm ∧ rf.state = .leader ∧ rf.currentTerm = args.term

end Raft

/-- The answer takes the peer that made the call into a commit loop. -/
def Message.Counts (rf : Raft n C) : Message n C → Prop
  | .logReply args _ reply => rf.CountsLogReply args reply
  | .snapShotReply args _ _ reply => rf.CountsSnapShotReply args reply
  | _ => False

instance (rf : Raft n C) (msg : Message n C) : Decidable (msg.Counts rf) :=
  match msg with
  | .logReply _ _ _ => inferInstanceAs (Decidable (_ ∧ _ ∧ _ ∧ _ ∧ _))
  | .snapShotReply _ _ _ _ => inferInstanceAs (Decidable (_ ∧ _ ∧ _))
  | .voteRequest _ | .voteReply _ _ | .logRequest _ _ | .snapShotRequest _ _ _ =>
      instDecidableFalse

namespace Spans

variable {rf rf' : Raft n C} {first last : LogEntry C}

theorem of_log (h : Spans rf first last) (hlog : rf'.log = rf.log) : Spans rf' first last := by
  obtain ⟨hfirst, hlast, hlength⟩ := h
  refine ⟨?_, ?_, by rw [hlog]; exact hlength⟩
  · rw [Raft.getFirstLog_eq, hlog, ← Raft.getFirstLog_eq]
    exact hfirst
  · rw [Raft.getLastLog_eq, hlog, ← Raft.getLastLog_eq]
    exact hlast

theorem le (h : Spans rf first last) : first.index ≤ last.index := by
  have hne : rf.log ≠ [] := by
    intro hnil
    have hfirst := h.hfirst
    rw [Raft.getFirstLog_eq, hnil] at hfirst
    cases hfirst
  have hpos := List.length_pos_iff.mpr hne
  have hlength := h.length
  omega

/-- The log can be read at every index it spans. -/
theorem exists_get (h : Spans rf first last) {index : Int} (hlow : first.index ≤ index)
    (hhigh : index ≤ last.index) :
    ∃ entry, Slice.get rf.log (index - first.index) = some entry := by
  have hlength := h.length
  exact Slice.exists_get (by omega) (by omega)

theorem exists_prevLogAgrees (h : Spans rf first last) {args : SendLogArgs n C}
    (hprev : args.prevLogIndex ≤ last.index) :
    ∃ agrees, rf.prevLogAgrees first args = some agrees := by
  unfold Raft.prevLogAgrees
  split
  · next hlow =>
      obtain ⟨entry, hentry⟩ := h.exists_get (Int.le_of_lt hlow) hprev
      simp only [hentry, Option.bind_eq_bind, Option.bind_some]
      exact ⟨_, rfl⟩
  · exact ⟨true, rfl⟩

theorem exists_holdsEntry (h : Spans rf first last) {entry : LogEntry C}
    (hentry : first.index ≤ entry.index) : ∃ holds, rf.holdsEntry first entry = some holds := by
  unfold Raft.holdsEntry
  simp only [h.hlast, Option.bind_eq_bind, Option.bind_some]
  split
  · next hhigh =>
      obtain ⟨held, hheld⟩ := h.exists_get hentry hhigh
      exact ⟨_, by rw [hheld, Option.bind_some]⟩
  · exact ⟨false, rfl⟩

/-- Entries are spliced in behind an entry of the log. -/
theorem exists_mergeEntries (h : Spans rf first last) {args : SendLogArgs n C}
    (hprev : args.prevLogIndex ≤ last.index)
    (hlow : ∀ lastEntry, args.entries.getLast? = some lastEntry →
      first.index ≤ args.prevLogIndex ∧ first.index ≤ lastEntry.index) :
    ∃ log, rf.mergeEntries first args = some log ∧ log ≠ [] := by
  have hlength := h.length
  have hle := h.le
  unfold Raft.mergeEntries
  cases hentries : args.entries.getLast? with
  | none => exact ⟨rf.log, rfl, fun hnil => by simp [hnil] at hlength; omega⟩
  | some lastEntry =>
      obtain ⟨hfirst, hlast⟩ := hlow lastEntry hentries
      obtain ⟨holds, hholds⟩ := h.exists_holdsEntry hlast
      simp only [hholds, Option.bind_eq_bind, Option.bind_some]
      cases holds with
      | true => exact ⟨rf.log, rfl, fun hnil => by simp [hnil] at hlength; omega⟩
      | false =>
          refine ⟨rf.log.take (args.prevLogIndex - first.index + 1).toNat ++ args.entries, ?_, ?_⟩
          · simp only [Bool.false_eq_true, if_false]
            rw [Slice.high_eq (by omega) (by omega), Option.bind_some]
          · intro hnil
            rw [(List.append_eq_nil_iff.mp hnil).2] at hentries
            cases hentries

theorem exists_spliceLog (h : Spans rf first last) {args : SendLogArgs n C}
    (hprev : args.prevLogIndex ≤ last.index)
    (hlow : ∀ lastEntry, args.entries.getLast? = some lastEntry →
      first.index ≤ args.prevLogIndex ∧ first.index ≤ lastEntry.index) :
    ∃ result, rf.spliceLog first args = some result := by
  unfold Raft.spliceLog
  obtain ⟨agrees, hagrees⟩ := h.exists_prevLogAgrees hprev
  simp only [hagrees, Option.bind_eq_bind, Option.bind_some]
  cases agrees with
  | false => exact ⟨_, rfl⟩
  | true =>
      have hsettled : Spans rf.leaveCandidate first last := h.of_log rfl
      obtain ⟨log, hlog, hne⟩ := hsettled.exists_mergeEntries hprev hlow
      have hnonempty : (({ rf.leaveCandidate with log := log }).persist).log ≠ [] := hne
      obtain ⟨last', hlast'⟩ := Raft.exists_getLastLog hnonempty
      obtain ⟨after, hafter⟩ := Raft.exists_followCommit hlast' args.leaderCommit
      simp only [if_true, hlog, Option.bind_some, hafter]
      exact ⟨_, rfl⟩

/-- A request whose entries follow its previous index is handled. -/
theorem exists_acceptLog (h : Spans rf first last) {args : SendLogArgs n C}
    (hnumbered : ∀ lastEntry, args.entries.getLast? = some lastEntry →
      args.prevLogIndex ≤ lastEntry.index) :
    ∃ result, rf.acceptLog args = some result := by
  unfold Raft.acceptLog
  simp only [h.hfirst, h.hlast, Option.bind_eq_bind, Option.bind_some]
  split
  · exact ⟨_, rfl⟩
  · next hcovered =>
      have hprev : args.prevLogIndex ≤ last.index := Int.not_lt.mp hcovered
      split
      · cases hentries : args.entries.getLast? with
        | none =>
            refine h.exists_spliceLog hprev fun lastEntry hlast => ?_
            rw [hentries] at hlast
            cases hlast
        | some lastEntry =>
            dsimp only
            split
            · exact ⟨_, rfl⟩
            · next hhigh =>
                refine h.exists_spliceLog h.le fun other hother => ⟨Int.le_refl _, ?_⟩
                rw [Raft.trimEntries_getLast? hentries] at hother
                obtain rfl := Option.some.inj hother
                exact Int.le_of_lt (Int.not_le.mp hhigh)
      · next hlow =>
          refine h.exists_spliceLog hprev fun lastEntry hlast => ?_
          have hle := hnumbered lastEntry hlast
          omega

theorem exists_requestSendLog (h : Spans rf first last) {args : SendLogArgs n C}
    (hnumbered : ∀ lastEntry, args.entries.getLast? = some lastEntry →
      args.prevLogIndex ≤ lastEntry.index) :
    ∃ result, rf.requestSendLog args = some result := by
  unfold Raft.requestSendLog
  split
  · exact ⟨_, rfl⟩
  · exact (h.of_log (rf.catchUp_log args.term)).exists_acceptLog hnumbered

/-! ## Snapshots -/

theorem exists_coversSnapShot (h : Spans rf first last) (args : RequestSnapShotArgs n) :
    ∃ covers, rf.coversSnapShot args = some covers := by
  unfold Raft.coversSnapShot
  simp only [h.hfirst, h.hlast, Option.bind_eq_bind, Option.bind_some]
  split
  · exact ⟨true, rfl⟩
  · next hlow =>
      split
      · next hhigh =>
          obtain ⟨entry, hentry⟩ := h.exists_get (Int.le_of_lt (Int.not_le.mp hlow)) hhigh
          rw [hentry, Option.bind_some]
          exact ⟨_, rfl⟩
      · exact ⟨false, rfl⟩

theorem exists_requestInstallSnapShot (h : Spans rf first last) (args : RequestSnapShotArgs n) :
    ∃ result, rf.requestInstallSnapShot args = some result := by
  unfold Raft.requestInstallSnapShot
  split
  · exact ⟨_, rfl⟩
  · have hsettled : Spans (rf.catchUp args.term).leaveCandidate first last :=
      h.of_log (rf.catchUp_log args.term)
    obtain ⟨covers, hcovers⟩ := hsettled.exists_coversSnapShot args
    simp only [hcovers, Option.bind_eq_bind, Option.bind_some]
    cases covers
    · exact ⟨_, rfl⟩
    · exact ⟨_, rfl⟩

theorem exists_serviceSnapshot (h : Spans rf first last) (index : Int) (bytes : Bytes) :
    ∃ rf', rf.serviceSnapshot index bytes = some rf' := by
  unfold Raft.serviceSnapshot
  simp only [h.hfirst, h.hlast, Option.bind_eq_bind, Option.bind_some]
  split
  · exact ⟨rf, rfl⟩
  · next hlow =>
      split
      · exact ⟨rf, rfl⟩
      · next hhigh =>
          have hlength := h.length
          obtain ⟨entry, hentry⟩ := h.exists_get (Int.le_of_lt (Int.not_le.mp hlow))
            (Int.not_lt.mp hhigh)
          rw [hentry, Option.bind_some, Slice.low_eq (by omega) (by omega), Option.bind_some]
          exact ⟨_, rfl⟩

/-! ## Leaders and candidates -/

theorem exists_start (h : Spans rf first last) (me : Fin n) (command : Option C) :
    ∃ result, rf.start me command = some result := by
  unfold Raft.start
  split
  · exact ⟨_, rfl⟩
  · simp only [h.hlast, Option.bind_eq_bind, Option.bind_some]
    exact ⟨_, rfl⟩

theorem exists_concludeElection (h : Spans rf first last) (me : Fin n) (election : Election) :
    ∃ rf', rf.concludeElection me election = some rf' := by
  have hlast := h.hlast
  rw [Raft.getLastLog_eq] at hlast
  unfold Raft.concludeElection
  dsimp only
  split
  · exact ⟨_, Raft.resetRaftIndex_of_last hlast⟩
  · exact ⟨_, rfl⟩

/-! ## The commit loop -/

theorem exists_commitAt (h : Spans rf first last) {index : Int} (hlow : first.index ≤ index)
    (hhigh : index ≤ last.index) :
    ∃ rf', rf.commitAt first.index index = some rf' ∧ rf'.log = rf.log := by
  unfold Raft.commitAt
  split
  · obtain ⟨entry, hentry⟩ := h.exists_get hlow hhigh
    simp only [hentry, Option.bind_eq_bind, Option.bind_some]
    refine ⟨_, rfl, ?_⟩
    split <;> rfl
  · exact ⟨rf, rfl, rfl⟩

theorem exists_commitLoop (h : Spans rf first last) (fuel : Nat) {index : Int}
    (hlow : first.index ≤ index) :
    ∃ rf', Raft.commitLoop first.index last.index fuel index rf = some rf' := by
  induction fuel generalizing index rf with
  | zero => exact ⟨rf, rfl⟩
  | succ fuel ih =>
      simp only [Raft.commitLoop]
      split
      · exact ⟨rf, rfl⟩
      · next hlast =>
          split
          · exact ⟨rf, rfl⟩
          · obtain ⟨mid, hmid, hlog⟩ := h.exists_commitAt hlow (Int.not_lt.mp hlast)
            simp only [hmid, Option.bind_eq_bind, Option.bind_some]
            exact ih (h.of_log hlog) (by omega)

/-- The loop starts inside the log when the commit index is not behind it. -/
theorem exists_advanceCommit (h : Spans rf first last)
    (hlow : first.index ≤ rf.commitIndex + 1) : ∃ rf', rf.advanceCommit = some rf' := by
  unfold Raft.advanceCommit
  simp only [h.hfirst, h.hlast, Option.bind_eq_bind, Option.bind_some]
  exact h.exists_commitLoop _ hlow

/-! ## Backing up -/

theorem exists_backUpLoop (h : Spans rf first last) (nowNextTerm : Int) (fuel : Nat) {index : Int}
    (hhigh : index ≤ last.index) :
    ∃ stop, rf.backUpLoop first.index nowNextTerm fuel index = some stop := by
  induction fuel generalizing index with
  | zero => exact ⟨index, rfl⟩
  | succ fuel ih =>
      simp only [Raft.backUpLoop]
      split
      · next hlow =>
          obtain ⟨entry, hentry⟩ := h.exists_get hlow hhigh
          simp only [hentry, Option.bind_eq_bind, Option.bind_some]
          split
          · exact ih (by omega)
          · exact ⟨index, rfl⟩
      · exact ⟨index, rfl⟩

theorem exists_backUp (h : Spans rf first last) (peer : Fin n) :
    ∃ rf', rf.backUp peer = some rf' := by
  have hle := h.le
  unfold Raft.backUp
  simp only [h.hfirst, h.hlast, Option.bind_eq_bind, Option.bind_some]
  split
  · exact ⟨_, rfl⟩
  · next hlow =>
      generalize hclamped : (if rf.nextIndex peer - 1 > last.index then last.index
        else rf.nextIndex peer - 1) = clamped
      have hrange : first.index ≤ clamped ∧ clamped ≤ last.index := by
        rw [← hclamped]
        split <;> omega
      obtain ⟨entry, hentry⟩ := h.exists_get hrange.1 hrange.2
      obtain ⟨stop, hstop⟩ := h.exists_backUpLoop entry.term
        (clamped - first.index + 1).toNat hrange.2
      rw [hentry, Option.bind_some, hstop, Option.bind_some]
      exact ⟨_, rfl⟩

/-! ## Answers -/

theorem exists_handleSendLogReply (h : Spans rf first last) (peer : Fin n)
    (args : SendLogArgs n C) (recodeNextIndex : Int) (reply : SendLogReply)
    (hlow : rf.CountsLogReply args reply → first.index ≤ rf.commitIndex + 1) :
    ∃ rf', rf.handleSendLogReply peer args recodeNextIndex reply = some rf' := by
  unfold Raft.handleSendLogReply
  split
  · exact ⟨_, rfl⟩
  · next hcurrent =>
    split
    · next hleading =>
        split
        · next hsuccess =>
          cases hentries : args.entries.getLast? with
          | none => exact ⟨rf, rfl⟩
          | some lastEntry =>
              have hrecorded : Spans (rf.recordMatch peer lastEntry) first last := h.of_log rfl
              have hsome : args.entries.isEmpty = false :=
                List.isEmpty_eq_false_iff_exists_mem.mpr ⟨_, List.mem_of_getLast? hentries⟩
              exact hrecorded.exists_advanceCommit
                (hlow ⟨Int.not_lt.mp hcurrent, hleading.1, hleading.2, hsuccess, hsome⟩)
        · split
          · exact h.exists_backUp peer
          · exact ⟨rf, rfl⟩
    · exact ⟨rf, rfl⟩

theorem exists_handleSnapShotReply (h : Spans rf first last) (peer : Fin n)
    (args : RequestSnapShotArgs n) (sendNextIndex sendMatchIndex : Int)
    (reply : RequestSnapShotReply)
    (hlow : rf.CountsSnapShotReply args reply → first.index ≤ rf.commitIndex + 1) :
    ∃ rf', rf.handleSnapShotReply peer args sendNextIndex sendMatchIndex reply = some rf' := by
  unfold Raft.handleSnapShotReply
  split
  · exact ⟨_, rfl⟩
  · next hcurrent =>
    split
    · next hleading =>
        have hrecorded : Spans (rf.recordSnapShot peer sendNextIndex sendMatchIndex
            args.lastIncludedIndex) first last := h.of_log rfl
        exact hrecorded.exists_advanceCommit
          (hlow ⟨Int.not_lt.mp hcurrent, hleading.1, hleading.2⟩)
    · exact ⟨rf, rfl⟩

/-! ## Building requests -/

/-- Each follower is sent entries that the log has or is about to have. -/
structure Sendable (rf : Raft n C) (first last : LogEntry C) : Prop where
  spans : Spans rf first last
  base : 0 ≤ first.index
  initial : first.term = -1 → first.index = 0
  next : ∀ peer, 0 ≤ rf.nextIndex peer ∧ rf.nextIndex peer ≤ last.index + 1

theorem Sendable.prepares (h : Sendable rf first last) (hprepares : Raft.Prepares rf rf') :
    Sendable rf' first last := by
  refine ⟨h.spans.of_log (by rw [hprepares.eq]), h.base, h.initial, fun peer => ?_⟩
  have hle := h.spans.le
  have hbase := h.base
  rcases hprepares.next peer with heq | heq | ⟨entry, hentry, heq⟩
  · rw [heq]
    exact h.next peer
  · omega
  · obtain rfl := Option.some.inj (h.spans.hfirst.symm.trans hentry)
    omega

/-- The corrections leave `nextIndex` behind an entry of the log. -/
theorem Sendable.repaired (h : Sendable rf first last) {peer : Fin n}
    (hlog : ¬ (first.term ≠ -1 ∧ rf.nextIndex peer ≤ first.index)) :
    first.index + 1 ≤ (rf.repairNextIndex first peer).nextIndex peer ∧
      (rf.repairNextIndex first peer).nextIndex peer ≤ last.index + 1 := by
  have hle := h.spans.le
  have hnext := h.next peer
  have hbase := h.base
  simp only [Raft.repairNextIndex, Raft.setNextIndex, Function.update_self]
  by_cases hinitial : first.term = -1
  · have hzero := h.initial hinitial
    simp only [hinitial, true_and]
    split <;> split <;> omega
  · have hhigh : first.index < rf.nextIndex peer :=
      Int.not_le.mp fun hlow => hlog ⟨hinitial, hlow⟩
    simp only [hinitial, false_and, if_false]
    split <;> omega

theorem Sendable.exists_prepareSend (h : Sendable rf first last) (me peer : Fin n) :
    ∃ result, rf.prepareSend me peer = some result := by
  unfold Raft.prepareSend
  simp only [h.spans.hfirst, Option.bind_eq_bind, Option.bind_some]
  split
  · exact ⟨_, rfl⟩
  · next hlog =>
      obtain ⟨hlow, hhigh⟩ := h.repaired hlog
      have hspans : Spans (rf.repairNextIndex first peer) first last := h.spans.of_log rfl
      have hlength := hspans.length
      obtain ⟨preLog, hpre⟩ : ∃ preLog, Slice.get (rf.repairNextIndex first peer).log
          ((rf.repairNextIndex first peer).nextIndex peer - first.index - 1) = some preLog :=
        Slice.exists_get (by omega) (by omega)
      simp only [Raft.buildSendLog, hpre, Option.bind_eq_bind, Option.bind_some]
      rw [Slice.low_eq (by omega) (by omega)]
      exact ⟨_, rfl⟩

theorem Sendable.exists_prepareSends (h : Sendable rf first last) (me : Fin n)
    (peers : List (Fin n)) : ∃ result, Raft.prepareSends me peers rf = some result := by
  induction peers generalizing rf with
  | nil => exact ⟨_, rfl⟩
  | cons peer rest ih =>
      simp only [Raft.prepareSends]
      split
      · exact ih h
      · obtain ⟨⟨mid, job⟩, hmid⟩ := h.exists_prepareSend me peer
        obtain ⟨⟨final, jobs⟩, hrest⟩ := ih (h.prepares (Raft.prepareSend_cases hmid).1)
        simp only [hmid, hrest, Option.bind_eq_bind, Option.bind_some]
        exact ⟨_, rfl⟩

theorem exists_sendSnapShot (h : Spans rf first last) (me peer : Fin n) :
    ∃ result, rf.sendSnapShot me peer = some result := by
  unfold Raft.sendSnapShot
  split
  · exact ⟨_, rfl⟩
  · simp only [h.hfirst, Option.bind_eq_bind, Option.bind_some]
    exact ⟨_, rfl⟩

end Spans

/-! ## Peers of a reachable cluster -/

section Peers

variable {A : Protocol n C} {p : Fin n} {rf : Raft n C} {f c : Nat}

theorem PeerRel.sendable (valid : Valid A) (h : PeerRel A p rf f c)
    (hleader : rf.state = .leader) :
    Spans.Sendable rf (entryAt f (A.log p) f) (entryAt f (A.log p) (A.log p).length) where
  spans := h.spans
  base := Int.natCast_nonneg f
  initial := by
    intro hterm
    by_contra hne
    have hpos : f ≠ 0 := fun hzero => hne (congrArg Int.ofNat hzero)
    have hnonempty : (A.log p).take f ≠ [] := fun hnil => by
      have hlength := take_length_of_le h.base_le
      rw [hnil] at hlength
      exact hpos hlength.symm
    have hterms := valid.lastTerm_pos
      ((valid.log_wf p).sound.shorten (List.take_prefix f _)) hnonempty
    simp only [entryAt] at hterm
    omega
  next := h.next (h.leader_iff.mp hleader)

theorem PeerRel.exists_sendLogTicketCore (valid : Valid A) (h : PeerRel A p rf f c) :
    ∃ result, rf.sendLogTicketCore p = some result := by
  unfold Raft.sendLogTicketCore
  split
  · exact ⟨_, rfl⟩
  · next hleader =>
      exact (h.sendable valid (Decidable.not_not.mp hleader)).exists_prepareSends p _

theorem PeerRel.exists_applyCollect (h : PeerRel A p rf f c) : rf.applyCollect ≠ .panic := by
  unfold Raft.applyCollect
  split
  · rw [Ne, Outcome.ofOption_eq_panic]
    simp only [h.first, Option.bind_eq_bind, Option.bind_some]
    split
    · exact Option.some_ne_none _
    · next hpending =>
        simp only [Raft.NothingToApply, entryAt, not_or, Int.not_lt] at hpending
        obtain ⟨a, ha⟩ := Int.eq_ofNat_of_zero_le (show 0 ≤ rf.lastApplied by omega)
        simp only [entryAt]
        rw [h.collectEntries ha (by omega), Option.bind_some]
        exact Option.some_ne_none _
  · exact Outcome.blocked_ne_panic

theorem Delivering.exists_applyLock (h : Delivering rf) : rf.applyLock ≠ .panic := by
  unfold Raft.applyLock
  split
  · next toApply hcollected _ =>
      rw [Ne, Outcome.ofOption_eq_panic]
      obtain ⟨hne, _⟩ := h.batch toApply (by rw [hcollected]; rfl)
      obtain ⟨entry, hentry⟩ : ∃ entry, Slice.get toApply 0 = some entry :=
        Slice.exists_get (Int.le_refl 0) (Int.ofNat_lt.mpr (List.length_pos_iff.mpr hne))
      simp only [hentry, Option.bind_eq_bind, Option.bind_some]
      split
      · exact Option.some_ne_none _
      · split <;> exact Option.some_ne_none _
  · exact Outcome.blocked_ne_panic

/-- The entries of a request follow its previous index. -/
theorem LogRel.prev_le {src : Fin n} {args : SendLogArgs n C}
    {front entries : List (Entry (Option C))} (h : LogRel A src args front entries)
    (lastEntry : LogEntry C) (hlast : args.entries.getLast? = some lastEntry) :
    args.prevLogIndex ≤ lastEntry.index := by
  rw [(h.lastEntry hlast).1, h.prevIndex, List.length_append]
  omega

end Peers

/-! ## Steps of a cluster -/

namespace Raft

theorem applySend_ne_panic (rf : Raft n C) : rf.applySend ≠ .panic := by
  unfold applySend
  split
  · exact Outcome.ok_ne_panic _
  · exact Outcome.blocked_ne_panic

theorem applyFinish_ne_panic (rf : Raft n C) : rf.applyFinish ≠ .panic := by
  unfold applyFinish
  split
  · exact Outcome.ok_ne_panic _
  · exact Outcome.blocked_ne_panic

theorem installLock_ne_panic (rf : Raft n C) (k : Nat) : rf.installLock k ≠ .panic := by
  unfold installLock
  split
  · exact Outcome.ok_ne_panic _
  · exact Outcome.blocked_ne_panic

theorem installSend_ne_panic (rf : Raft n C) : rf.installSend ≠ .panic := by
  unfold installSend
  split
  · exact Outcome.ok_ne_panic _
  · exact Outcome.blocked_ne_panic

theorem installFinish_ne_panic (rf : Raft n C) : rf.installFinish ≠ .panic := by
  unfold installFinish
  split
  · exact Outcome.ok_ne_panic _
  · exact Outcome.blocked_ne_panic

end Raft

theorem Message.execute_ne_panic {A : Protocol n C} {src dst p : Fin n} {rf : Raft n C}
    {f c : Nat} {msg : Message n C} (hpeer : PeerRel A p rf f c)
    (hmsg : MessageRel A src dst msg) : msg.execute rf ≠ .panic := by
  cases msg with
  | voteRequest args => exact Outcome.ok_ne_panic _
  | logRequest args recodeNextIndex =>
      obtain ⟨front, entries, hlog⟩ := hmsg
      obtain ⟨result, hresult⟩ := hpeer.spans.exists_requestSendLog hlog.prev_le
      rw [Message.execute, hresult]
      exact Outcome.ok_ne_panic _
  | snapShotRequest args sendNextIndex sendMatchIndex =>
      obtain ⟨result, hresult⟩ := hpeer.spans.exists_requestInstallSnapShot args
      rw [Message.execute, hresult]
      exact Outcome.ok_ne_panic _
  | _ => exact Outcome.blocked_ne_panic

theorem Message.handle_ne_panic {rf : Raft n C} {first last : LogEntry C} {peer : Fin n}
    {msg : Message n C} (hspans : Spans rf first last)
    (hlow : msg.Counts rf → first.index ≤ rf.commitIndex + 1) :
    msg.handle rf peer ≠ .panic := by
  cases msg with
  | voteReply args reply => exact Outcome.ok_ne_panic _
  | logReply args recodeNextIndex reply =>
      obtain ⟨rf', hrun⟩ := hspans.exists_handleSendLogReply peer args recodeNextIndex reply hlow
      rw [Message.handle, hrun]
      exact Outcome.ok_ne_panic _
  | snapShotReply args sendNextIndex sendMatchIndex reply =>
      obtain ⟨rf', hrun⟩ := hspans.exists_handleSnapShotReply peer args sendNextIndex
        sendMatchIndex reply hlow
      rw [Message.handle, hrun]
      exact Outcome.ok_ne_panic _
  | _ => exact Outcome.blocked_ne_panic

namespace Cluster

variable {s s' : Cluster n C}

/-- A leader that goes through a commit loop has not compacted beyond the entry after its
commit index. -/
def CommitReadable (s : Cluster n C) : Action n C → Prop
  | .answer k => ∀ flight ∈ s.net[k]?, (s.peers flight.src).incarnation = flight.incarnation →
      flight.msg.Counts (s.peers flight.src) →
      ∀ first ∈ (s.peers flight.src).getFirstLog,
        first.index ≤ (s.peers flight.src).commitIndex + 1
  | _ => True

instance (s : Cluster n C) (action : Action n C) : Decidable (s.CommitReadable action) :=
  match action with
  | .answer k => inferInstanceAs (Decidable (∀ flight ∈ s.net[k]?, _))
  | .start _ _ | .ticker _ | .concludeElection _ _ | .sendLogTicketCore _ | .sendSnapShot _ _
  | .deliver _ | .fail _ | .snapshot _ _ _ | .applyCollect _ | .applyLock _ | .applySend _
  | .applyFinish _ | .installLock _ _ | .installSend _ | .installFinish _ | .crash _ =>
      instDecidableTrue

theorem onPeer_ne_panic {p : Fin n} {g : Raft n C → Outcome (Raft n C)}
    (h : g (s.peers p) ≠ .panic) : s.onPeer p g ≠ .panic :=
  fun hpanic => h (Outcome.map_eq_panic.mp hpanic)

end Cluster

namespace Refines

variable {A : Protocol n C} {s : Cluster n C}

theorem concludeElection_ne_panic (h : Refines A s) (p : Fin n) (k : Nat) :
    s.concludeElection p k ≠ .panic := by
  obtain ⟨f, c, hpeer, _⟩ := h.peers p
  simp only [Cluster.concludeElection]
  split
  · next election _ =>
      split
      · exact Outcome.blocked_ne_panic
      · apply Cluster.onPeer_ne_panic
        exact Outcome.ofOption_ne_panic (hpeer.spans.exists_concludeElection p election)
  · exact Outcome.blocked_ne_panic

theorem sendSnapShot_ne_panic (h : Refines A s) (p : Fin n) (k : Nat) :
    s.sendSnapShot p k ≠ .panic := by
  obtain ⟨f, c, hpeer, _⟩ := h.peers p
  simp only [Cluster.sendSnapShot]
  split
  · next dst _ =>
      intro hpanic
      exact Outcome.ofOption_ne_panic (hpeer.spans.exists_sendSnapShot p dst)
        (Outcome.map_eq_panic.mp hpanic)
  · exact Outcome.blocked_ne_panic

/-- A request in the network can be executed by the peer it is for. -/
theorem deliver_ne_panic (h : Refines A s) (k : Nat) : s.deliver k ≠ .panic := by
  simp only [Cluster.deliver]
  split
  · next flight hflight =>
      obtain ⟨f, c, hpeer, _⟩ := h.peers flight.dst
      have hrel := h.flights flight (List.mem_of_getElem? hflight)
      intro hpanic
      exact Message.execute_ne_panic hpeer hrel.msg (Outcome.map_eq_panic.mp hpanic)
  · exact Outcome.blocked_ne_panic

/-- An answer can be handled by the peer it is for, if that peer can read its log from the
commit index on. -/
theorem answer_ne_panic (h : Refines A s) {k : Nat} (hreadable : s.CommitReadable (.answer k)) :
    s.answer k ≠ .panic := by
  simp only [Cluster.answer]
  split
  · next flight hflight =>
      obtain ⟨f, c, hpeer, _⟩ := h.peers flight.src
      split
      · next hsame =>
        intro hpanic
        refine Message.handle_ne_panic hpeer.spans (fun hcounts => ?_)
          (Outcome.map_eq_panic.mp hpanic)
        exact hreadable flight hflight hsame hcounts _ hpeer.first
      · exact Outcome.ok_ne_panic _
  · exact Outcome.blocked_ne_panic

end Refines

namespace Cluster

variable {s s' : Cluster n C}

/-- No action reads a log out of range, if every leader that counts an answer has a commit
index that is not behind its log. -/
theorem step_ne_panic (hreach : Reachable s) {action : Action n C}
    (hreadable : s.CommitReadable action) : s.step action ≠ .panic := by
  obtain ⟨A, hrefines⟩ := exists_refines hreach
  cases action with
  | start p command =>
      obtain ⟨f, c, hpeer, _⟩ := hrefines.peers p
      simp only [step]
      refine onPeer_ne_panic fun hpanic => ?_
      exact Outcome.ofOption_ne_panic (hpeer.spans.exists_start p command)
        (Outcome.map_eq_panic.mp hpanic)
  | ticker p =>
      simp only [step, ticker]
      split
      · exact Outcome.ok_ne_panic _
      · exact Outcome.blocked_ne_panic
  | concludeElection p k => exact hrefines.concludeElection_ne_panic p k
  | sendLogTicketCore p =>
      obtain ⟨f, c, hpeer, _⟩ := hrefines.peers p
      exact fun hpanic => Outcome.ofOption_ne_panic (hpeer.exists_sendLogTicketCore hrefines.valid)
        (Outcome.map_eq_panic.mp hpanic)
  | sendSnapShot p k => exact hrefines.sendSnapShot_ne_panic p k
  | deliver k => exact hrefines.deliver_ne_panic k
  | answer k => exact hrefines.answer_ne_panic hreadable
  | fail k =>
      simp only [step, fail]
      split
      · split
        · exact Outcome.ok_ne_panic _
        · exact Outcome.ok_ne_panic _
      · exact Outcome.blocked_ne_panic
  | snapshot p index bytes =>
      obtain ⟨f, c, hpeer, _⟩ := hrefines.peers p
      simp only [step, snapshot]
      split
      · apply onPeer_ne_panic
        exact Outcome.ofOption_ne_panic (hpeer.spans.exists_serviceSnapshot index bytes)
      · exact Outcome.blocked_ne_panic
  | applyCollect p =>
      obtain ⟨f, c, hpeer, _⟩ := hrefines.peers p
      exact onPeer_ne_panic hpeer.exists_applyCollect
  | applyLock p => exact onPeer_ne_panic (delivering_of_reachable hreach p).exists_applyLock
  | applySend p => exact onPeer_ne_panic (Raft.applySend_ne_panic _)
  | applyFinish p => exact onPeer_ne_panic (Raft.applyFinish_ne_panic _)
  | installLock p k =>
      exact onPeer_ne_panic (g := (Raft.installLock · k)) (Raft.installLock_ne_panic _ k)
  | installSend p => exact onPeer_ne_panic (Raft.installSend_ne_panic _)
  | installFinish p => exact onPeer_ne_panic (Raft.installFinish_ne_panic _)
  | crash p =>
      obtain ⟨first, last, _, _, hmake⟩ := (durable_of_reachable hreach p).make_eq p
        ((s.peers p).incarnation + 1)
      exact fun hpanic => Outcome.ofOption_ne_panic ⟨_, hmake⟩ (Outcome.map_eq_panic.mp hpanic)

end Cluster

namespace SharedCluster

open Cluster (electFirst)

/-- The condition on the cluster's own actions. -/
def CommitReadable (s : SharedCluster n C) : SharedAction (Action n C) → Prop
  | .own action _ => s.base.CommitReadable action
  | .encode _ => True

instance (s : SharedCluster n C) (action : SharedAction (Action n C)) :
    Decidable (CommitReadable s action) :=
  match action with
  | .own action _ => inferInstanceAs (Decidable (s.base.CommitReadable action))
  | .encode _ => instDecidableTrue

/-- No action reads a log out of range, if log requests have been encoded as they were built and
every leader that counts an answer has a commit index that is not behind its log. -/
theorem index_safety {s : SharedCluster n C} (hbuilt : BuiltReachable s)
    {action : SharedAction (Action n C)} (hreadable : CommitReadable s action) :
    step s action ≠ .panic := by
  cases action with
  | own action full =>
      simp only [step, Shared.step]
      split
      · exact Outcome.blocked_ne_panic
      · exact fun hpanic => Cluster.step_ne_panic hbuilt.reachable hreadable
          (Outcome.map_eq_panic.mp hpanic)
  | encode k =>
      simp only [step, Shared.step, Shared.encode]
      split
      · exact Outcome.ok_ne_panic _
      · exact Outcome.blocked_ne_panic

/-- Peer 0 is about to take the answer that lets it commit its first command. -/
theorem index_safety_first_commit : ∃ s : SharedCluster 3 Nat, BuiltReachable s ∧
    (s.base.peers 0).state = .leader ∧ (s.base.peers 0).commitIndex = 0 ∧
      RunHolds Cluster.step [.answer 1] s.base (fun s' => (s'.peers 0).commitIndex = 1) ∧
      step s (.own (.answer 1) false) ≠ .panic := by
  have hchecked : RunHolds Cluster.step (electFirst ++ [.start 0 (some 7), .sendLogTicketCore 0,
      .deliver 1]) Cluster.initial fun s =>
        (s.peers 0).state = .leader ∧ (s.peers 0).commitIndex = 0 ∧
        RunHolds Cluster.step [.answer 1] s (fun s' => (s'.peers 0).commitIndex = 1) ∧
        s.CommitReadable (.answer 1) := by
    decide +kernel
  obtain ⟨t, hreach, hleader, hbefore, hafter, hreadable⟩ := hchecked.exists_reaches
  obtain ⟨s, hbuilt, rfl⟩ := reachable_iff.mp hreach
  exact ⟨s, hbuilt, hleader, hbefore, hafter, index_safety hbuilt hreadable⟩

/-- Peer 2 of three installs a snapshot at 2 and wins the next term before the goroutine of the
snapshot has run. -/
def leadBehind : List (SharedAction (Action 3 Nat)) :=
  own (electFirst ++ [.start 0 (some 1), .start 0 (some 2), .sendLogTicketCore 0]) ++ call 1 ++
  own [.applyCollect 0, .applyLock 0, .applySend 0, .applySend 0, .applyFinish 0,
    .snapshot 0 2 [7], .sendLogTicketCore 0, .sendSnapShot 0 0, .deliver 3, .ticker 2, .deliver 5,
    .answer 5, .concludeElection 2 0, .start 2 (some 3), .sendLogTicketCore 2] ++
  [.encode 6, .own (.deliver 6) false]

/-- Its commit loop starts at index 1. -/
theorem counts_behind_snapshot : RunHolds (guarded step EncodedAsBuilt) leadBehind initial fun s =>
    (s.base.peers 2).state = .leader ∧ (s.base.peers 2).commitIndex = 0 ∧
      (s.base.peers 2).getFirstLog = some ⟨1, 2, none⟩ ∧
      (step s (.own (.answer 6) false)).panics = true := by
  decide +kernel

/-- Peer 4 of seven has lost a committed entry, and its applier is about to collect it. -/
theorem collects_lost_entry : RunHolds (guarded step CommitReadable)
    (voteBehind ++ own [.deliver 38]) initial fun s => (s.base.peers 4).commitIndex = 2 ∧
      (s.base.peers 4).getLastLog = some ⟨2, 1, some 21⟩ ∧
      (step s (.own (.applyCollect 4) false)).panics = true := by
  decide +kernel

/-- Either condition is needed.  The leader that has installed a snapshot panics on its first
answer.  And the peer whose committed entries a late encoding has cut off panics when its
applier collects them, in a run in which every commit loop could be read. -/
theorem log_read_out_of_range :
    (∃ s : SharedCluster 3 Nat, RunsIf step EncodedAsBuilt initial leadBehind s ∧
      (s.base.peers 2).state = .leader ∧ (s.base.peers 2).commitIndex = 0 ∧
      (s.base.peers 2).getFirstLog = some ⟨1, 2, none⟩ ∧
      step s (.own (.answer 6) false) = .panic) ∧
    ∃ s : SharedCluster 7 Nat,
      RunsIf step CommitReadable initial (voteBehind ++ own [.deliver 38]) s ∧
      (s.base.peers 4).commitIndex = 2 ∧
      (s.base.peers 4).getLastLog = some ⟨2, 1, some 21⟩ ∧
      step s (.own (.applyCollect 4) false) = .panic := by
  constructor
  · obtain ⟨s, hrun, hleader, hcommit, hfirst, hpanics⟩ := counts_behind_snapshot.exists_runsIf
    exact ⟨s, hrun, hleader, hcommit, hfirst, Outcome.panics_iff.mp hpanics⟩
  · obtain ⟨s, hrun, hcommit, hlast, hpanics⟩ := collects_lost_entry.exists_runsIf
    exact ⟨s, hrun, hcommit, hlast, Outcome.panics_iff.mp hpanics⟩

end SharedCluster

end DistributedLabs
