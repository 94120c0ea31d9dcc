import DistributedLabs.Raft.Cluster

/-!
# What each operation can do to a peer

One lemma for each operation lists its outcomes, with the new peer written as an
update of the old one.  Later proofs take the outcomes apart and never unfold an
operation again.
-/

namespace DistributedLabs.Raft

open DistributedLabs.Library

variable {n : Nat} {C : Type} {rf rf' : Raft n C}

/-! ## Terms and votes -/

theorem catchUp_cases (rf : Raft n C) (term : Int) :
    (term ≤ rf.currentTerm ∧ rf.catchUp term = rf) ∨
    (rf.currentTerm < term ∧ rf.catchUp term =
      ({ rf with currentTerm := term, state := .follower, voteFor := none }).persist) := by
  by_cases hle : term ≤ rf.currentTerm
  · exact Or.inl ⟨hle, by simp [catchUp, Int.not_lt.mpr hle]⟩
  · have hlt : rf.currentTerm < term := Int.not_le.mp hle
    exact Or.inr ⟨hlt, by simp [catchUp, addCurrentTerm, hlt, hle]⟩

theorem addCurrentTerm_eq_catchUp (rf : Raft n C) (term : Int) :
    rf.addCurrentTerm term = rf.catchUp term := by
  unfold catchUp
  split
  · rfl
  · next hle => simp [addCurrentTerm, Int.not_lt.mp hle]

/-- The role, the term, the vote, the elections and what is stored may change, and nothing
else. -/
structure Polls (rf rf' : Raft n C) : Prop where
  eq : rf' = { rf with
    state := rf'.state
    currentTerm := rf'.currentTerm
    voteFor := rf'.voteFor
    persister := rf'.persister
    elections := rf'.elections }

namespace Polls

theorem refl (rf : Raft n C) : Polls rf rf :=
  ⟨rfl⟩

theorem trans {mid : Raft n C} (first : Polls rf mid) (second : Polls mid rf') :
    Polls rf rf' := by
  constructor
  conv_lhs => rw [second.eq, first.eq]

theorem catchUp (rf : Raft n C) (term : Int) : Polls rf (rf.catchUp term) := by
  rcases catchUp_cases rf term with ⟨_, heq⟩ | ⟨_, heq⟩
  · rw [heq]
    exact Polls.refl rf
  · rw [heq]
    exact ⟨rfl⟩

end Polls

@[simp]
theorem catchUp_log (rf : Raft n C) (term : Int) : (rf.catchUp term).log = rf.log := by
  rw [(Polls.catchUp rf term).eq]

@[simp]
theorem catchUp_snapshot (rf : Raft n C) (term : Int) :
    (rf.catchUp term).snapshot = rf.snapshot := by
  rw [(Polls.catchUp rf term).eq]

@[simp]
theorem catchUp_installs (rf : Raft n C) (term : Int) :
    (rf.catchUp term).installs = rf.installs := by
  rw [(Polls.catchUp rf term).eq]

@[simp]
theorem catchUp_commitIndex (rf : Raft n C) (term : Int) :
    (rf.catchUp term).commitIndex = rf.commitIndex := by
  rw [(Polls.catchUp rf term).eq]

theorem catchUp_currentTerm {term : Int} (hle : rf.currentTerm ≤ term) :
    (rf.catchUp term).currentTerm = term := by
  rcases catchUp_cases rf term with ⟨hge, heq⟩ | ⟨_, heq⟩
  · rw [heq]
    exact Int.le_antisymm hle hge
  · rw [heq]
    rfl

/-- The candidate's log ends at least as late as the voter's. -/
def UpToDate (rf : Raft n C) (args : RequestVoteArgs n) : Prop :=
  args.lastLogTerm > rf.localLast.2 ∨
    (args.lastLogTerm = rf.localLast.2 ∧ args.lastLogIndex ≥ rf.localLast.1)

theorem requestVote_cases (rf : Raft n C) (args : RequestVoteArgs n) :
    (args.term < rf.currentTerm ∧ rf.requestVote args = (rf, ⟨rf.currentTerm, false⟩)) ∨
    (rf.currentTerm ≤ args.term ∧
      (rf.requestVote args = (rf.catchUp args.term, ⟨rf.currentTerm, false⟩) ∨
      (rf.requestVote args =
          ((rf.catchUp args.term).grantVote args.candidateId, ⟨rf.currentTerm, true⟩) ∧
        ((rf.catchUp args.term).voteFor = some args.candidateId ∨
          ((rf.catchUp args.term).voteFor = none ∧
            (rf.catchUp args.term).UpToDate args))))) := by
  by_cases hstale : args.term < rf.currentTerm
  · exact Or.inl ⟨hstale, by simp [requestVote, hstale]⟩
  · have hle : rf.currentTerm ≤ args.term := Int.not_lt.mp hstale
    have hterm : args.term = (rf.catchUp args.term).currentTerm := (catchUp_currentTerm hle).symm
    refine Or.inr ⟨hle, ?_⟩
    by_cases hagain : (rf.catchUp args.term).voteFor = some args.candidateId
    · exact Or.inr ⟨by simp [requestVote, hstale, ← hterm, hagain], Or.inl hagain⟩
    · by_cases hvoted : (rf.catchUp args.term).voteFor = none
      · by_cases hcurrent : (rf.catchUp args.term).UpToDate args
        · refine Or.inr ⟨?_, Or.inr ⟨hvoted, hcurrent⟩⟩
          unfold UpToDate at hcurrent
          simp [requestVote, hstale, hvoted, hcurrent]
        · refine Or.inl ?_
          unfold UpToDate at hcurrent
          simp [requestVote, hstale, hvoted, hcurrent]
      · exact Or.inl (by simp [requestVote, hstale, ← hterm, hagain, hvoted])

namespace Polls

theorem requestVote (rf : Raft n C) (args : RequestVoteArgs n) :
    Polls rf (rf.requestVote args).1 := by
  have hcaught := Polls.catchUp rf args.term
  rcases requestVote_cases rf args with ⟨_, heq⟩ | ⟨_, heq | ⟨heq, _⟩⟩
  · rw [heq]
    exact Polls.refl rf
  · rw [heq]
    exact hcaught
  · rw [heq]
    exact hcaught.trans ⟨rfl⟩

theorem requestHeartBeat (rf : Raft n C) (args : HeartBeatArgs n) :
    Polls rf (rf.requestHeartBeat args).1 := by
  have hsettled : Polls rf rf.leaveCandidate := ⟨rfl⟩
  unfold Raft.requestHeartBeat
  split
  · exact Polls.refl rf
  · dsimp only
    split
    · exact hsettled.trans (Polls.catchUp rf.leaveCandidate args.term)
    · exact Polls.catchUp rf args.term

theorem startElection (rf : Raft n C) (me : Fin n) : Polls rf (rf.startElection me).1 :=
  ⟨rfl⟩

end Polls

/-! ## Following and raising the commit index -/

/-- Only the commit index moved, and the applier was woken if it did. -/
structure Commits (rf rf' : Raft n C) : Prop where
  eq : rf' = { rf with commitIndex := rf'.commitIndex, applier := rf'.applier }
  le : rf.commitIndex ≤ rf'.commitIndex
  applier : rf'.applier = rf.applier ∨ rf'.applier = rf.applier.wake

theorem Commits.refl (rf : Raft n C) : Commits rf rf :=
  ⟨rfl, Int.le_refl _, Or.inl rfl⟩

theorem Applier.wake_wake {C : Type} (applier : Applier C) : applier.wake.wake = applier.wake := by
  cases applier <;> rfl

theorem Commits.trans {mid : Raft n C} (first : Commits rf mid) (second : Commits mid rf') :
    Commits rf rf' := by
  refine ⟨?_, Int.le_trans first.le second.le, ?_⟩
  · conv_lhs => rw [second.eq, first.eq]
  · rcases first.applier with ha | ha <;> rcases second.applier with hb | hb <;> rw [hb, ha]
    · exact Or.inl rfl
    · exact Or.inr rfl
    · exact Or.inr rfl
    · exact Or.inr (Applier.wake_wake _)

theorem Commits.raise (rf : Raft n C) {index : Int} (hlt : rf.commitIndex < index) :
    Commits rf ({ rf with commitIndex := index }).signalApply :=
  ⟨rfl, Int.le_of_lt hlt, Or.inr rfl⟩

theorem followCommit_cases {leaderCommit : Int} (h : rf.followCommit leaderCommit = some rf') :
    Commits rf rf' ∧ (rf'.commitIndex = rf.commitIndex ∨
      ∃ last, rf.getLastLog = some last ∧ rf'.commitIndex = min leaderCommit last.index) := by
  unfold followCommit at h
  split at h
  · cases hlast : rf.getLastLog with
    | none => simp [hlast] at h
    | some last =>
        simp only [hlast, Option.bind_eq_bind, Option.bind_some, Option.some.injEq] at h
        split at h
        · next hraise =>
            subst h
            exact ⟨Commits.raise rf hraise, Or.inr ⟨last, rfl, rfl⟩⟩
        · subst h
          exact ⟨Commits.refl rf, Or.inl rfl⟩
  · cases h
    exact ⟨Commits.refl rf, Or.inl rfl⟩

/-- What the commit loop may set the commit index to. -/
def Countable (rf : Raft n C) (first index : Int) : Prop :=
  n / 2 < matchCount rf.matchIndex index ∧
    ∃ entry, Slice.get rf.log (index - first) = some entry ∧ entry.term = rf.currentTerm

theorem commitAt_cases {first index : Int} (h : rf.commitAt first index = some rf') :
    rf' = rf ∨ (rf.commitIndex < index ∧
      rf' = ({ rf with commitIndex := index }).signalApply ∧
      ∃ entry, Slice.get rf.log (index - first) = some entry ∧ entry.term = rf.currentTerm) := by
  unfold commitAt at h
  split at h
  · next hlt =>
      cases hentry : Slice.get rf.log (index - first) with
      | none => simp [hentry] at h
      | some entry =>
          simp only [hentry, Option.bind_eq_bind, Option.bind_some, Option.some.injEq] at h
          split at h
          · next hterm => exact Or.inr ⟨hlt, h.symm, entry, rfl, hterm.symm⟩
          · exact Or.inl h.symm
  · exact Or.inl (Option.some.inj h).symm

theorem commitLoop_cases {first last : Int} {fuel : Nat} {begin : Int}
    (h : commitLoop first last fuel begin rf = some rf') :
    Commits rf rf' ∧ (rf'.commitIndex = rf.commitIndex ∨
      (begin ≤ rf'.commitIndex ∧ rf'.commitIndex ≤ last ∧
        rf.Countable first rf'.commitIndex)) := by
  induction fuel generalizing begin rf with
  | zero =>
      cases h
      exact ⟨Commits.refl _, Or.inl rfl⟩
  | succ fuel ih =>
      simp only [commitLoop] at h
      split at h
      · cases h
        exact ⟨Commits.refl _, Or.inl rfl⟩
      · next hlast =>
          split at h
          · cases h
            exact ⟨Commits.refl _, Or.inl rfl⟩
          · next hcount =>
              obtain ⟨mid, hmid, hrest⟩ := Option.bind_eq_some_iff.mp h
              obtain ⟨hcommits, hcases⟩ := ih hrest
              rcases commitAt_cases hmid with rfl | ⟨hlt, rfl, hentry⟩
              · refine ⟨hcommits, ?_⟩
                rcases hcases with heq | ⟨hge, hle, hcountable⟩
                · exact Or.inl heq
                · exact Or.inr ⟨by omega, hle, hcountable⟩
              · refine ⟨(Commits.raise rf hlt).trans hcommits, Or.inr ?_⟩
                rcases hcases with heq | ⟨hge, hle, hcountable⟩
                · rw [heq]
                  exact ⟨Int.le_refl _, Int.not_lt.mp hlast, Nat.not_le.mp hcount, hentry⟩
                · exact ⟨by omega, hle, hcountable⟩

theorem advanceCommit_cases (h : rf.advanceCommit = some rf') :
    Commits rf rf' ∧ (rf'.commitIndex = rf.commitIndex ∨
      ∃ first last, rf.getFirstLog = some first ∧ rf.getLastLog = some last ∧
        rf.commitIndex < rf'.commitIndex ∧ rf'.commitIndex ≤ last.index ∧
        rf.Countable first.index rf'.commitIndex) := by
  unfold advanceCommit at h
  obtain ⟨first, hfirst, h⟩ := Option.bind_eq_some_iff.mp h
  obtain ⟨last, hlast, h⟩ := Option.bind_eq_some_iff.mp h
  obtain ⟨hcommits, hcases⟩ := commitLoop_cases h
  refine ⟨hcommits, ?_⟩
  rcases hcases with heq | ⟨hge, hle, hcountable⟩
  · exact Or.inl heq
  · exact Or.inr ⟨first, last, hfirst, hlast, by omega, hle, hcountable⟩

/-! ## Taking in entries -/

/-- The arguments as the splice sees them: cut at the own compaction point if needed. -/
inductive Trimmed (first : LogEntry C) (args : SendLogArgs n C) : SendLogArgs n C → Prop where
  | whole (above : first.index ≤ args.prevLogIndex ∨ args.entries = []) : Trimmed first args args
  | cut {lastEntry : LogEntry C} (below : args.prevLogIndex < first.index)
      (last : args.entries.getLast? = some lastEntry) (above : first.index < lastEntry.index) :
      Trimmed first args { args with
        prevLogIndex := first.index
        prevLogTerm := first.term
        entries := (trimEntries first.index args.entries).getD args.entries }

/-- The outcomes of `RequestSendLog`. -/
inductive LogOutcome (rf : Raft n C) (args : SendLogArgs n C) :
    Raft n C → SendLogReply → Prop where
  | stale (lower : args.term < rf.currentTerm) :
      LogOutcome rf args rf ⟨rf.currentTerm, false⟩
  | refused (reached : rf.currentTerm ≤ args.term) :
      LogOutcome rf args (rf.catchUp args.term) ⟨args.term, false⟩
  | below {first lastEntry : LogEntry C} (reached : rf.currentTerm ≤ args.term)
      (hfirst : (rf.catchUp args.term).getFirstLog = some first)
      (hlast : args.entries.getLast? = some lastEntry)
      (lower : lastEntry.index ≤ first.index) :
      LogOutcome rf args (rf.catchUp args.term) ⟨args.term, true⟩
  | taken {first last : LogEntry C} {effective : SendLogArgs n C} {log : List (LogEntry C)}
      {rf' : Raft n C} (reached : rf.currentTerm ≤ args.term)
      (hfirst : (rf.catchUp args.term).getFirstLog = some first)
      (hlast : (rf.catchUp args.term).getLastLog = some last)
      (covered : args.prevLogIndex ≤ last.index)
      (trimmed : Trimmed first args effective)
      (agrees : (rf.catchUp args.term).prevLogAgrees first effective = some true)
      (merged : (rf.catchUp args.term).mergeEntries first effective = some log)
      (followed : (({ (rf.catchUp args.term).leaveCandidate with log := log }).persist).followCommit
        args.leaderCommit = some rf') :
      LogOutcome rf args rf' ⟨args.term, true⟩

theorem Trimmed.leaderCommit {first : LogEntry C} {args effective : SendLogArgs n C}
    (h : Trimmed first args effective) : effective.leaderCommit = args.leaderCommit := by
  cases h <;> rfl

theorem Commits.currentTerm (h : Commits rf rf') : rf'.currentTerm = rf.currentTerm := by
  rw [h.eq]

theorem spliceLog_outcome {first last : LogEntry C} {args effective : SendLogArgs n C}
    {reply : SendLogReply} (reached : rf.currentTerm ≤ args.term)
    (hfirst : (rf.catchUp args.term).getFirstLog = some first)
    (hlast : (rf.catchUp args.term).getLastLog = some last)
    (covered : args.prevLogIndex ≤ last.index) (trimmed : Trimmed first args effective)
    (h : (rf.catchUp args.term).spliceLog first effective = some (rf', reply)) :
    LogOutcome rf args rf' reply := by
  have hterm := catchUp_currentTerm reached
  unfold spliceLog at h
  obtain ⟨agrees, hagrees, h⟩ := Option.bind_eq_some_iff.mp h
  cases agrees with
  | false =>
      simp only [Bool.false_eq_true, if_false, Option.some.injEq, Prod.mk.injEq] at h
      obtain ⟨rfl, rfl⟩ := h
      rw [hterm]
      exact .refused reached
  | true =>
      simp only [if_true] at h
      obtain ⟨log, hmerged, h⟩ := Option.bind_eq_some_iff.mp h
      obtain ⟨after, hfollowed, h⟩ := Option.bind_eq_some_iff.mp h
      simp only [Option.some.injEq, Prod.mk.injEq] at h
      obtain ⟨rfl, rfl⟩ := h
      have hafter : after.currentTerm = args.term := by
        rw [(followCommit_cases hfollowed).1.currentTerm]
        exact hterm
      rw [hafter]
      rw [trimmed.leaderCommit] at hfollowed
      exact .taken reached hfirst hlast covered trimmed hagrees hmerged hfollowed

theorem requestSendLog_outcome {args : SendLogArgs n C} {reply : SendLogReply}
    (h : rf.requestSendLog args = some (rf', reply)) : LogOutcome rf args rf' reply := by
  unfold requestSendLog at h
  split at h
  · next hlower =>
      simp only [Option.some.injEq, Prod.mk.injEq] at h
      obtain ⟨rfl, rfl⟩ := h
      exact .stale hlower
  · next hlower =>
      have reached : rf.currentTerm ≤ args.term := Int.not_lt.mp hlower
      have hterm := catchUp_currentTerm reached
      unfold acceptLog at h
      obtain ⟨first, hfirst, h⟩ := Option.bind_eq_some_iff.mp h
      obtain ⟨last, hlast, h⟩ := Option.bind_eq_some_iff.mp h
      split at h
      · simp only [Option.some.injEq, Prod.mk.injEq] at h
        obtain ⟨rfl, rfl⟩ := h
        rw [hterm]
        exact .refused reached
      · next hcovered =>
          have covered : args.prevLogIndex ≤ last.index := Int.not_lt.mp hcovered
          split at h
          · next hbelow =>
              cases hentries : args.entries.getLast? with
              | none =>
                  simp only [hentries] at h
                  have hnil : args.entries = [] := List.getLast?_eq_none_iff.mp hentries
                  exact spliceLog_outcome reached hfirst hlast covered (.whole (Or.inr hnil)) h
              | some lastEntry =>
                  simp only [hentries] at h
                  split at h
                  · next hlow =>
                      simp only [Option.some.injEq, Prod.mk.injEq] at h
                      obtain ⟨rfl, rfl⟩ := h
                      rw [hterm]
                      exact .below reached hfirst hentries hlow
                  · next hhigh =>
                      exact spliceLog_outcome reached hfirst hlast covered
                        (.cut hbelow hentries (Int.not_le.mp hhigh)) h
          · next habove =>
              exact spliceLog_outcome reached hfirst hlast covered
                (.whole (Or.inl (Int.not_lt.mp habove))) h

/-- Either the log stays, or it is cut at the previous entry and extended. -/
theorem mergeEntries_cases {first : LogEntry C} {args : SendLogArgs n C}
    {log : List (LogEntry C)} (h : rf.mergeEntries first args = some log) :
    (log = rf.log ∧ (args.entries = [] ∨ ∃ last lastEntry held,
        rf.getLastLog = some last ∧ args.entries.getLast? = some lastEntry ∧
        lastEntry.index ≤ last.index ∧
        Slice.get rf.log (lastEntry.index - first.index) = some held ∧
        held.term = lastEntry.term)) ∨
    (∃ kept lastEntry, args.entries.getLast? = some lastEntry ∧
      rf.holdsEntry first lastEntry = some false ∧
      Slice.high rf.log (args.prevLogIndex - first.index + 1) = some kept ∧
      log = kept ++ args.entries) := by
  unfold mergeEntries at h
  cases hentries : args.entries.getLast? with
  | none =>
      simp only [hentries, Option.some.injEq] at h
      exact Or.inl ⟨h.symm, Or.inl (List.getLast?_eq_none_iff.mp hentries)⟩
  | some lastEntry =>
      simp only [hentries] at h
      obtain ⟨holds, hholds, h⟩ := Option.bind_eq_some_iff.mp h
      cases holds with
      | false =>
          simp only [Bool.false_eq_true, if_false] at h
          obtain ⟨kept, hkept, h⟩ := Option.bind_eq_some_iff.mp h
          exact Or.inr ⟨kept, lastEntry, rfl, hholds, hkept, (Option.some.inj h).symm⟩
      | true =>
          simp only [if_true, Option.some.injEq] at h
          refine Or.inl ⟨h.symm, Or.inr ?_⟩
          unfold holdsEntry at hholds
          obtain ⟨last, hlast, hholds⟩ := Option.bind_eq_some_iff.mp hholds
          split at hholds
          · next hle =>
              obtain ⟨held, hheld, hholds⟩ := Option.bind_eq_some_iff.mp hholds
              have hterm : held.term = lastEntry.term := by simpa using hholds
              exact ⟨last, lastEntry, held, hlast, rfl, hle, hheld, hterm⟩
          · cases hholds

/-! ## Snapshots -/

/-- The outcomes of `RequestInstallSnapShot`. -/
inductive InstallOutcome (rf : Raft n C) (args : RequestSnapShotArgs n) :
    Raft n C → RequestSnapShotReply → Prop where
  | stale (lower : args.term < rf.currentTerm) :
      InstallOutcome rf args rf.persist ⟨rf.currentTerm⟩
  | covered (reached : rf.currentTerm ≤ args.term)
      (covers : (rf.catchUp args.term).coversSnapShot args = some true) :
      InstallOutcome rf args (rf.catchUp args.term).leaveCandidate.persist ⟨rf.currentTerm⟩
  | replaced (reached : rf.currentTerm ≤ args.term)
      (covers : (rf.catchUp args.term).coversSnapShot args = some false) :
      InstallOutcome rf args ((rf.catchUp args.term).leaveCandidate.replaceLog args).persist
        ⟨rf.currentTerm⟩

theorem requestInstallSnapShot_outcome {args : RequestSnapShotArgs n}
    {reply : RequestSnapShotReply} (h : rf.requestInstallSnapShot args = some (rf', reply)) :
    InstallOutcome rf args rf' reply := by
  unfold requestInstallSnapShot at h
  split at h
  · next hlower =>
      simp only [Option.some.injEq, Prod.mk.injEq] at h
      obtain ⟨rfl, rfl⟩ := h
      exact .stale hlower
  · next hlower =>
      have reached : rf.currentTerm ≤ args.term := Int.not_lt.mp hlower
      obtain ⟨covers, hcovers, h⟩ := Option.bind_eq_some_iff.mp h
      cases covers with
      | true =>
          simp only [if_true, Option.some.injEq, Prod.mk.injEq] at h
          obtain ⟨rfl, rfl⟩ := h
          exact .covered reached hcovers
      | false =>
          simp only [Bool.false_eq_true, if_false, Option.some.injEq, Prod.mk.injEq] at h
          obtain ⟨rfl, rfl⟩ := h
          exact .replaced reached hcovers

theorem coversSnapShot_cases {args : RequestSnapShotArgs n} {covers : Bool}
    (h : rf.coversSnapShot args = some covers) :
    ∃ first last, rf.getFirstLog = some first ∧ rf.getLastLog = some last ∧
      ((args.lastIncludedIndex ≤ first.index ∧ covers = true) ∨
      (first.index < args.lastIncludedIndex ∧ args.lastIncludedIndex ≤ last.index ∧
        ∃ entry, Slice.get rf.log (args.lastIncludedIndex - first.index) = some entry ∧
          (covers = true ↔ entry.term = args.lastIncludedTerm)) ∨
      (first.index < args.lastIncludedIndex ∧ last.index < args.lastIncludedIndex ∧
        covers = false)) := by
  unfold coversSnapShot at h
  obtain ⟨first, hfirst, h⟩ := Option.bind_eq_some_iff.mp h
  obtain ⟨last, hlast, h⟩ := Option.bind_eq_some_iff.mp h
  refine ⟨first, last, hfirst, hlast, ?_⟩
  split at h
  · next hle => exact Or.inl ⟨hle, (Option.some.inj h).symm⟩
  · next hgt =>
      split at h
      · next hle =>
          obtain ⟨entry, hentry, h⟩ := Option.bind_eq_some_iff.mp h
          have hcovers := Option.some.inj h
          exact Or.inr (Or.inl ⟨Int.not_le.mp hgt, hle, entry, hentry, by simp [← hcovers]⟩)
      · next hgt' =>
          exact Or.inr (Or.inr ⟨Int.not_le.mp hgt, Int.not_le.mp hgt', (Option.some.inj h).symm⟩)

/-- A snapshot of the service changes nothing or moves the compaction point forward. -/
theorem serviceSnapshot_cases {index : Int} {bytes : Bytes}
    (h : rf.serviceSnapshot index bytes = some rf') :
    rf' = rf ∨ ∃ first last entry rest, rf.getFirstLog = some first ∧
      rf.getLastLog = some last ∧ first.index < index ∧ index ≤ last.index ∧
      Slice.get rf.log (index - first.index) = some entry ∧
      Slice.low rf.log (index - first.index + 1) = some rest ∧
      rf' = ({ rf with
        log := ⟨entry.term, entry.index, none⟩ :: rest
        snapshot := bytes }).persist := by
  unfold serviceSnapshot at h
  obtain ⟨first, hfirst, h⟩ := Option.bind_eq_some_iff.mp h
  obtain ⟨last, hlast, h⟩ := Option.bind_eq_some_iff.mp h
  split at h
  · exact Or.inl (Option.some.inj h).symm
  · next hgt =>
      split at h
      · exact Or.inl (Option.some.inj h).symm
      · next hle =>
          obtain ⟨entry, hentry, h⟩ := Option.bind_eq_some_iff.mp h
          obtain ⟨rest, hrest, h⟩ := Option.bind_eq_some_iff.mp h
          exact Or.inr ⟨first, last, entry, rest, hfirst, hlast, Int.not_le.mp hgt,
            Int.not_lt.mp hle, hentry, hrest, (Option.some.inj h).symm⟩

/-! ## Leaders and candidates -/

theorem start_cases {me : Fin n} {command : Option C} {result : Int × Int × Bool}
    (h : rf.start me command = some (rf', result)) :
    rf' = rf ∨ (rf.state = .leader ∧ ∃ last, rf.getLastLog = some last ∧
      rf' = ({ rf with
        log := rf.log ++ [(⟨rf.currentTerm, last.index + 1, command⟩ : LogEntry C)]
        matchIndex := Function.update rf.matchIndex me (last.index + 1) }).persist) := by
  unfold start at h
  split at h
  · simp only [Option.some.injEq, Prod.mk.injEq] at h
    exact Or.inl h.1.symm
  · next hleader =>
      obtain ⟨last, hlast, h⟩ := Option.bind_eq_some_iff.mp h
      simp only [Option.some.injEq, Prod.mk.injEq] at h
      exact Or.inr ⟨Decidable.not_not.mp hleader, last, hlast, h.1.symm⟩

theorem resetRaftIndex_eq {me : Fin n} (h : rf.resetRaftIndex me = some rf') :
    ∃ last, rf.getLastLog = some last ∧ rf' = { rf with
      nextIndex := fun _ => last.index + 1
      matchIndex := fun i => if i = me then last.index else 0 } := by
  unfold resetRaftIndex at h
  obtain ⟨last, hlast, h⟩ := Option.bind_eq_some_iff.mp h
  obtain ⟨own, hown, h⟩ := Option.bind_eq_some_iff.mp h
  have hbase : rf.nextIndexBase = rf.getLastLog := by
    unfold nextIndexBase
    split
    · next hone => simp [getLastLog, hone]
    · rfl
  obtain rfl : last = own := Option.some.inj (hlast.symm.trans (hbase.trans hown))
  exact ⟨last, hown, (Option.some.inj h).symm⟩

theorem concludeElection_cases {me : Fin n} {election : Election}
    (h : rf.concludeElection me election = some rf') :
    rf' = { rf with elections := rf.elections.erase election } ∨
    (rf.currentTerm = election.term ∧ rf.state = .candidate ∧ n / 2 < election.voteCount ∧
      ∃ last, rf.getLastLog = some last ∧ rf' = { rf with
        elections := rf.elections.erase election
        state := .leader
        nextIndex := fun _ => last.index + 1
        matchIndex := fun i => if i = me then last.index else 0 }) := by
  unfold concludeElection at h
  dsimp only at h
  split at h
  · next hwon =>
      obtain ⟨last, hlast, heq⟩ := resetRaftIndex_eq h
      exact Or.inr ⟨hwon.1, hwon.2.1, hwon.2.2, last, hlast, heq⟩
  · exact Or.inl (Option.some.inj h).symm

theorem handleVoteReply_eq (rf : Raft n C) (args : RequestVoteArgs n)
    (reply : Option RequestVoteReply) :
    ∃ term, rf.handleVoteReply args reply = (rf.countVote args reply).catchUp term := by
  cases reply with
  | none => exact ⟨rf.currentTerm, by simp [handleVoteReply, catchUp, countVote]⟩
  | some answer => exact ⟨answer.term, rfl⟩

theorem Polls.handleVoteReply (rf : Raft n C) (args : RequestVoteArgs n)
    (reply : Option RequestVoteReply) : Polls rf (rf.handleVoteReply args reply) := by
  obtain ⟨term, heq⟩ := handleVoteReply_eq rf args reply
  have hcounted : Polls rf (rf.countVote args reply) := ⟨rfl⟩
  rw [heq]
  exact hcounted.trans (Polls.catchUp (rf.countVote args reply) term)

/-! ## The answers of followers -/

/-- What the leader notes about one peer leaves the other peers as they were. -/
theorem recordMatch_others {peer i : Fin n} (hi : i ≠ peer) (lastEntry : LogEntry C) :
    (rf.recordMatch peer lastEntry).nextIndex i = rf.nextIndex i ∧
      (rf.recordMatch peer lastEntry).matchIndex i = rf.matchIndex i := by
  constructor
  · exact Function.update_of_ne hi _ _
  · exact Function.update_of_ne hi _ _

theorem recordSnapShot_others {peer i : Fin n} (hi : i ≠ peer)
    (sendNextIndex sendMatchIndex index : Int) :
    (rf.recordSnapShot peer sendNextIndex sendMatchIndex index).nextIndex i = rf.nextIndex i ∧
      (rf.recordSnapShot peer sendNextIndex sendMatchIndex index).matchIndex i =
        rf.matchIndex i := by
  constructor
  · exact Function.update_of_ne hi _ _
  · exact Function.update_of_ne hi _ _

/-- The outcomes of handling the answer to a log request. -/
inductive SendLogAnswer (rf : Raft n C) (peer : Fin n) (args : SendLogArgs n C)
    (recodeNextIndex : Int) (reply : SendLogReply) : Raft n C → Prop where
  | overtaken (higher : rf.currentTerm < reply.term) :
      SendLogAnswer rf peer args recodeNextIndex reply (rf.catchUp reply.term)
  | ignored : SendLogAnswer rf peer args recodeNextIndex reply rf
  | matched {lastEntry : LogEntry C} {rf' : Raft n C} (leading : rf.state = .leader)
      (same : rf.currentTerm = args.term) (success : reply.success = true)
      (hlast : args.entries.getLast? = some lastEntry)
      (advanced : (rf.recordMatch peer lastEntry).advanceCommit = some rf') :
      SendLogAnswer rf peer args recodeNextIndex reply rf'
  | backed {rf' : Raft n C} (leading : rf.state = .leader) (same : rf.currentTerm = args.term)
      (current : reply.term ≤ rf.currentTerm) (failed : reply.success = false)
      (unmoved : rf.nextIndex peer = recodeNextIndex) (backed : rf.backUp peer = some rf') :
      SendLogAnswer rf peer args recodeNextIndex reply rf'

theorem handleSendLogReply_answer {peer : Fin n} {args : SendLogArgs n C} {recodeNextIndex : Int}
    {reply : SendLogReply} (h : rf.handleSendLogReply peer args recodeNextIndex reply = some rf') :
    SendLogAnswer rf peer args recodeNextIndex reply rf' := by
  unfold handleSendLogReply at h
  split at h
  · next hhigher =>
      rw [addCurrentTerm_eq_catchUp] at h
      cases h
      exact .overtaken hhigher
  · next hcurrent =>
      split at h
      · next hleading =>
          split at h
          · next hsuccess =>
              cases hlast : args.entries.getLast? with
              | none =>
                  simp only [hlast] at h
                  cases h
                  exact .ignored
              | some lastEntry =>
                  simp only [hlast] at h
                  exact .matched hleading.1 hleading.2 hsuccess hlast h
          · next hfailed =>
              split at h
              · next hunmoved =>
                  exact .backed hleading.1 hleading.2 (Int.not_lt.mp hcurrent)
                    (Bool.eq_false_iff.mpr hfailed) hunmoved h
              · cases h
                exact .ignored
      · cases h
        exact .ignored

/-- The outcomes of handling the answer to a snapshot request. -/
inductive SnapShotAnswer (rf : Raft n C) (peer : Fin n) (args : RequestSnapShotArgs n)
    (sendNextIndex sendMatchIndex : Int) (reply : RequestSnapShotReply) : Raft n C → Prop where
  | overtaken (higher : rf.currentTerm < reply.term) :
      SnapShotAnswer rf peer args sendNextIndex sendMatchIndex reply (rf.catchUp reply.term)
  | ignored : SnapShotAnswer rf peer args sendNextIndex sendMatchIndex reply rf
  | recorded {rf' : Raft n C} (current : reply.term ≤ rf.currentTerm) (leading : rf.state = .leader)
      (same : rf.currentTerm = args.term)
      (advanced : (rf.recordSnapShot peer sendNextIndex sendMatchIndex
        args.lastIncludedIndex).advanceCommit = some rf') :
      SnapShotAnswer rf peer args sendNextIndex sendMatchIndex reply rf'

theorem handleSnapShotReply_answer {peer : Fin n} {args : RequestSnapShotArgs n}
    {sendNextIndex sendMatchIndex : Int} {reply : RequestSnapShotReply}
    (h : rf.handleSnapShotReply peer args sendNextIndex sendMatchIndex reply = some rf') :
    SnapShotAnswer rf peer args sendNextIndex sendMatchIndex reply rf' := by
  unfold handleSnapShotReply at h
  split at h
  · next hhigher =>
      rw [addCurrentTerm_eq_catchUp] at h
      cases h
      exact .overtaken hhigher
  · next hcurrent =>
      split at h
      · next hleading => exact .recorded (Int.not_lt.mp hcurrent) hleading.1 hleading.2 h
      · cases h
        exact .ignored

/-- The walk passes over entries of one term, and stops at an entry of another term or below the
first entry. -/
theorem backUpLoop_walks {first nowNextTerm : Int} {fuel : Nat} {begin stop : Int}
    (hbegin : first - 1 ≤ begin) (hfuel : begin < first + fuel)
    (h : rf.backUpLoop first nowNextTerm fuel begin = some stop) :
    first - 1 ≤ stop ∧ stop ≤ begin ∧
      (∀ k, stop < k → k ≤ begin →
        ∃ passed, Slice.get rf.log (k - first) = some passed ∧ passed.term = nowNextTerm) ∧
      (first ≤ stop →
        ∃ held, Slice.get rf.log (stop - first) = some held ∧ held.term ≠ nowNextTerm) := by
  induction fuel generalizing begin with
  | zero =>
      cases h
      exact ⟨hbegin, Int.le_refl _, fun k hlow hhigh => by omega, fun hfirst => by omega⟩
  | succ fuel ih =>
      simp only [backUpLoop] at h
      split at h
      · next hge =>
          obtain ⟨entry, hentry, h⟩ := Option.bind_eq_some_iff.mp h
          split at h
          · next hterm =>
              obtain ⟨hlow, hhigh, hpassed, hheld⟩ := ih (by omega) (by omega) h
              refine ⟨hlow, by omega, fun k hk hk' => ?_, hheld⟩
              by_cases htop : k = begin
              · exact ⟨entry, htop ▸ hentry, hterm⟩
              · exact hpassed k hk (by omega)
          · next hterm =>
              cases h
              exact ⟨hbegin, Int.le_refl _, fun k hlow hhigh => by omega,
                fun _ => ⟨entry, hentry, hterm⟩⟩
      · cases h
        exact ⟨hbegin, Int.le_refl _, fun k hlow hhigh => by omega, fun hfirst => by omega⟩

/-- Backing up from `top` to `index` passes over the entries of one term, and stops behind an
entry of another term or at the first entry. -/
structure BacksOver (rf : Raft n C) (first : LogEntry C) (top index term : Int) : Prop where
  le : index ≤ top
  passed : ∀ k, index ≤ k → k ≤ top →
    ∃ passed, Slice.get rf.log (k - first.index) = some passed ∧ passed.term = term
  stopped : first.index < index →
    ∃ held, Slice.get rf.log (index - 1 - first.index) = some held ∧ held.term ≠ term

/-- Backing up stops at the first entry, or moves back over the entries of one term. -/
theorem backUp_retreats {peer : Fin n} (h : rf.backUp peer = some rf') :
    ∃ first last index, rf.getFirstLog = some first ∧ rf.getLastLog = some last ∧
      rf' = rf.setNextIndex peer index ∧ first.index ≤ index ∧
      ((rf.nextIndex peer - 1 ≤ first.index ∧ index = first.index) ∨
        ∃ term, rf.BacksOver first (min (rf.nextIndex peer - 1) last.index) index term) := by
  unfold backUp at h
  obtain ⟨first, hfirst, h⟩ := Option.bind_eq_some_iff.mp h
  obtain ⟨last, hlast, h⟩ := Option.bind_eq_some_iff.mp h
  dsimp only at h
  split at h
  · next hlow =>
      exact ⟨first, last, first.index, hfirst, hlast, (Option.some.inj h).symm, Int.le_refl _,
        Or.inl ⟨hlow, rfl⟩⟩
  · next hgt =>
      have hclamped : (if rf.nextIndex peer - 1 > last.index then last.index
          else rf.nextIndex peer - 1) = min (rf.nextIndex peer - 1) last.index := by
        split <;> omega
      rw [hclamped] at h
      obtain ⟨entry, hentry, h⟩ := Option.bind_eq_some_iff.mp h
      obtain ⟨stop, hstop, h⟩ := Option.bind_eq_some_iff.mp h
      have hbegin := Slice.get_nonneg hentry
      obtain ⟨hlow, hhigh, hpassed, hheld⟩ := backUpLoop_walks (by omega) (by omega) hstop
      -- the walk leaves the entry it starts at, because that entry has the term it looks for
      have hleaves : stop < min (rf.nextIndex peer - 1) last.index := by
        refine Int.lt_iff_le_and_ne.mpr ⟨hhigh, fun hsame => ?_⟩
        obtain ⟨held, hread, hterm⟩ := hheld (by omega)
        rw [hsame, hentry] at hread
        obtain rfl := Option.some.inj hread
        exact hterm rfl
      refine ⟨first, last, stop + 1, hfirst, hlast, (Option.some.inj h).symm, by omega,
        Or.inr ⟨entry.term, by omega, fun k hk hk' => hpassed k (by omega) hk', fun habove => ?_⟩⟩
      rw [Int.add_sub_cancel]
      exact hheld (by omega)

theorem backUp_cases {peer : Fin n} (h : rf.backUp peer = some rf') :
    ∃ first last index, rf.getFirstLog = some first ∧ rf.getLastLog = some last ∧
      rf' = rf.setNextIndex peer index ∧ first.index ≤ index ∧
      (index = first.index ∨ index ≤ last.index + 1) := by
  obtain ⟨first, last, index, hfirst, hlast, heq, hle, hcases⟩ := backUp_retreats h
  refine ⟨first, last, index, hfirst, hlast, heq, hle, ?_⟩
  rcases hcases with ⟨_, hbottom⟩ | ⟨_, hbacks⟩
  · exact Or.inl hbottom
  · have hle := hbacks.le
    exact Or.inr (by omega)

/-! ## Building requests -/

/-- A log request as the leader builds it from its own log, from `index` on. -/
def BuildsLog (rf : Raft n C) (me : Fin n) (index : Int) (args : SendLogArgs n C) : Prop :=
  ∃ first preLog entries, rf.getFirstLog = some first ∧
    Slice.get rf.log (index - first.index - 1) = some preLog ∧
    Slice.low rf.log (index - first.index) = some entries ∧
    args = ⟨rf.currentTerm, me, preLog.index, preLog.term, entries, rf.commitIndex⟩

/-- What preparing requests may do to the leader itself. -/
structure Prepares (rf rf' : Raft n C) : Prop where
  eq : rf' = { rf with nextIndex := rf'.nextIndex }
  next : ∀ peer, rf'.nextIndex peer = rf.nextIndex peer ∨ rf'.nextIndex peer = 0 ∨
    ∃ first, rf.getFirstLog = some first ∧ rf'.nextIndex peer = first.index + 1
  le : ∀ peer, rf.nextIndex peer ≤ rf'.nextIndex peer

theorem Prepares.refl (rf : Raft n C) : Prepares rf rf :=
  ⟨rfl, fun _ => Or.inl rfl, fun _ => Int.le_refl _⟩

theorem Prepares.trans {mid : Raft n C} (first : Prepares rf mid) (second : Prepares mid rf') :
    Prepares rf rf' := by
  refine ⟨?_, fun peer => ?_, fun peer => Int.le_trans (first.le peer) (second.le peer)⟩
  · conv_lhs => rw [second.eq, first.eq]
  · rcases second.next peer with h | h | ⟨entry, hentry, h⟩
    · rw [h]
      exact first.next peer
    · exact Or.inr (Or.inl h)
    · rw [first.eq] at hentry
      exact Or.inr (Or.inr ⟨entry, hentry, h⟩)

theorem Prepares.buildsLog {me : Fin n} {index : Int} {args : SendLogArgs n C}
    (h : Prepares rf rf') (hbuilds : rf'.BuildsLog me index args) :
    rf.BuildsLog me index args := by
  rw [h.eq] at hbuilds
  exact hbuilds

theorem repairNextIndex_prepares {first : LogEntry C} (peer : Fin n)
    (hfirst : rf.getFirstLog = some first) : Prepares rf (rf.repairNextIndex first peer) := by
  refine ⟨rfl, fun other => ?_, fun other => ?_⟩
  · by_cases hother : other = peer
    · subst hother
      simp only [repairNextIndex, setNextIndex, Function.update_self]
      split <;> split
      · exact Or.inr (Or.inl rfl)
      · exact Or.inr (Or.inr ⟨first, hfirst, rfl⟩)
      · exact Or.inr (Or.inl rfl)
      · exact Or.inl rfl
    · exact Or.inl (by simp [repairNextIndex, setNextIndex, hother])
  · by_cases hother : other = peer
    · subst hother
      simp only [repairNextIndex, setNextIndex, Function.update_self]
      split <;> split <;> omega
    · simp [repairNextIndex, setNextIndex, hother]

theorem prepareSend_cases {me peer : Fin n} {job : SendJob n C}
    (h : rf.prepareSend me peer = some (rf', job)) :
    Prepares rf rf' ∧ (job = .snapShot peer ∨
      ∃ args, rf.BuildsLog me (rf'.nextIndex peer) args ∧
        job = .log peer args (rf'.nextIndex peer)) := by
  unfold prepareSend at h
  obtain ⟨first, hfirst, h⟩ := Option.bind_eq_some_iff.mp h
  split at h
  · simp only [Option.some.injEq, Prod.mk.injEq] at h
    obtain ⟨rfl, rfl⟩ := h
    exact ⟨Prepares.refl rf, Or.inl rfl⟩
  · obtain ⟨args, hargs, h⟩ := Option.bind_eq_some_iff.mp h
    simp only [Option.some.injEq, Prod.mk.injEq] at h
    obtain ⟨rfl, rfl⟩ := h
    have hprepares := repairNextIndex_prepares peer hfirst
    refine ⟨hprepares, Or.inr ⟨args, hprepares.buildsLog ?_, rfl⟩⟩
    unfold buildSendLog at hargs
    obtain ⟨preLog, hpre, hargs⟩ := Option.bind_eq_some_iff.mp hargs
    obtain ⟨entries, hentries, hargs⟩ := Option.bind_eq_some_iff.mp hargs
    exact ⟨first, preLog, entries, hfirst, hpre, hentries, (Option.some.inj hargs).symm⟩

theorem prepareSends_cases {me : Fin n} {peers : List (Fin n)} {jobs : List (SendJob n C)}
    (h : prepareSends me peers rf = some (rf', jobs)) :
    Prepares rf rf' ∧ ∀ job ∈ jobs, ∃ peer, peer ≠ me ∧ (job = .snapShot peer ∨
      ∃ args recodeNextIndex, rf.BuildsLog me recodeNextIndex args ∧
        job = .log peer args recodeNextIndex) := by
  induction peers generalizing rf jobs with
  | nil =>
      simp only [prepareSends, Option.some.injEq, Prod.mk.injEq] at h
      obtain ⟨rfl, rfl⟩ := h
      exact ⟨Prepares.refl _, by simp⟩
  | cons peer rest ih =>
      simp only [prepareSends] at h
      split at h
      · exact ih h
      · next hne =>
          obtain ⟨⟨mid, job⟩, hmid, h⟩ := Option.bind_eq_some_iff.mp h
          obtain ⟨⟨final, others⟩, hrest, h⟩ := Option.bind_eq_some_iff.mp h
          simp only [Option.some.injEq, Prod.mk.injEq] at h
          obtain ⟨rfl, rfl⟩ := h
          obtain ⟨hprepares, hjob⟩ := prepareSend_cases hmid
          obtain ⟨hothers, hjobs⟩ := ih hrest
          refine ⟨hprepares.trans hothers, fun candidate hmem => ?_⟩
          rcases List.mem_cons.mp hmem with rfl | hin
          · rcases hjob with hsnap | ⟨args, hargs, hlog⟩
            · exact ⟨peer, hne, Or.inl hsnap⟩
            · exact ⟨peer, hne, Or.inr ⟨args, _, hargs, hlog⟩⟩
          · obtain ⟨other, hother, hcases⟩ := hjobs candidate hin
            rcases hcases with hsnap | ⟨args, recodeNextIndex, hargs, hlog⟩
            · exact ⟨other, hother, Or.inl hsnap⟩
            · exact ⟨other, hother,
                Or.inr ⟨args, recodeNextIndex, hprepares.buildsLog hargs, hlog⟩⟩

theorem sendLogTicketCore_cases {me : Fin n} {jobs : List (SendJob n C)}
    (h : rf.sendLogTicketCore me = some (rf', jobs)) :
    Prepares rf rf' ∧ ((rf' = rf ∧ jobs = []) ∨ (rf.state = .leader ∧
      ∀ job ∈ jobs, ∃ peer, peer ≠ me ∧ (job = .snapShot peer ∨
        ∃ args recodeNextIndex, rf.BuildsLog me recodeNextIndex args ∧
          job = .log peer args recodeNextIndex))) := by
  unfold sendLogTicketCore at h
  split at h
  · simp only [Option.some.injEq, Prod.mk.injEq] at h
    obtain ⟨rfl, rfl⟩ := h
    exact ⟨Prepares.refl _, Or.inl ⟨rfl, rfl⟩⟩
  · next hleader =>
      obtain ⟨hprepares, hjobs⟩ := prepareSends_cases h
      exact ⟨hprepares, Or.inr ⟨Decidable.not_not.mp hleader, hjobs⟩⟩

/-- A prepared log request is built from the leader's log. -/
theorem job_builds {me peer : Fin n} {jobs : List (SendJob n C)} {args : SendLogArgs n C}
    {recodeNextIndex : Int} (h : rf.sendLogTicketCore me = some (rf', jobs))
    (hjob : .log peer args recodeNextIndex ∈ jobs) :
    rf.state = .leader ∧ peer ≠ me ∧ rf.BuildsLog me recodeNextIndex args := by
  rcases (sendLogTicketCore_cases h).2 with ⟨_, rfl⟩ | ⟨hleader, hjobs⟩
  · cases hjob
  · obtain ⟨other, hne, hsnap | ⟨request, recode, hbuilds, heq⟩⟩ := hjobs _ hjob
    · cases hsnap
    · cases heq
      exact ⟨hleader, hne, hbuilds⟩

/-! ## The channel -/

theorem applyCollect_cases (h : rf.applyCollect = .ok rf') :
    rf.applier = .top ∧ ∃ first, rf.getFirstLog = some first ∧
      ((rf.NothingToApply first ∧ rf' = { rf with applier := .parked }) ∨
      (¬ rf.NothingToApply first ∧ ∃ toApply, rf.collectEntries first.index = some toApply ∧
        rf' = { rf with applier := if toApply.isEmpty then .top else .collected toApply })) := by
  unfold applyCollect at h
  split at h
  · next htop =>
      obtain ⟨first, hfirst, h⟩ := Option.bind_eq_some_iff.mp (Outcome.ofOption_eq_ok.mp h)
      refine ⟨htop, first, hfirst, ?_⟩
      split at h
      · next hnothing => exact Or.inl ⟨hnothing, (Option.some.inj h).symm⟩
      · next hpending =>
          obtain ⟨toApply, htoApply, h⟩ := Option.bind_eq_some_iff.mp h
          exact Or.inr ⟨hpending, toApply, htoApply, (Option.some.inj h).symm⟩
  · cases h

/-- A batch waits, is dropped with the mutex held, or starts to be sent. -/
theorem applyLock_cases (h : rf.applyLock = .ok rf') :
    ∃ toApply firstLog, rf.applier = .collected toApply ∧ rf.applySeqMu = .free ∧
      toApply[0]? = some firstLog ∧
      ((rf.lastApplied + 1 < firstLog.index ∧ rf' = { rf with applier := .waiting toApply }) ∨
      (firstLog.index ≤ rf.lastApplied ∧
        rf' = { rf with applier := .top, applySeqMu := .applier }) ∨
      (firstLog.index = rf.lastApplied + 1 ∧
        rf' = { rf with applier := .sending toApply toApply, applySeqMu := .applier })) := by
  unfold applyLock at h
  split at h
  · next toApply hcollected hfree =>
      obtain ⟨firstLog, hfirst, h⟩ := Option.bind_eq_some_iff.mp (Outcome.ofOption_eq_ok.mp h)
      rw [Slice.get_zero] at hfirst
      refine ⟨toApply, firstLog, hcollected, hfree, hfirst, ?_⟩
      split at h
      · exact Or.inl ⟨by omega, (Option.some.inj h).symm⟩
      · split at h
        · exact Or.inr (Or.inl ⟨by omega, (Option.some.inj h).symm⟩)
        · exact Or.inr (Or.inr ⟨by omega, (Option.some.inj h).symm⟩)
  · cases h

theorem applySend_cases (h : rf.applySend = .ok rf') :
    ∃ toApply entry rest, rf.applier = .sending toApply (entry :: rest) ∧
      rf' = ({ rf with applier := .sending toApply rest }).send (commandMsg entry) := by
  unfold applySend at h
  split at h
  · next toApply entry rest hsending =>
      cases h
      exact ⟨toApply, entry, rest, hsending, rfl⟩
  · cases h

theorem applyFinish_cases (h : rf.applyFinish = .ok rf') :
    ∃ toApply, rf.applier = .sending toApply [] ∧ ∃ applied,
      rf' = { rf with lastApplied := applied, applier := .top, applySeqMu := .free } ∧
      ((toApply = [] ∧ applied = rf.lastApplied) ∨ ∃ last, toApply.getLast? = some last ∧
        applied = max rf.lastApplied last.index) := by
  unfold applyFinish at h
  split at h
  · next toApply hsending =>
      refine ⟨toApply, hsending, ?_⟩
      cases hlast : toApply.getLast? with
      | none =>
          simp only [hlast] at h
          cases h
          exact ⟨_, rfl, Or.inl ⟨List.getLast?_eq_none_iff.mp hlast, rfl⟩⟩
      | some last =>
          simp only [hlast] at h
          cases h
          refine ⟨_, rfl, Or.inr ⟨last, rfl, ?_⟩⟩
          split <;> omega
  · cases h

theorem installLock_cases {k : Nat} (h : rf.installLock k = .ok rf') :
    ∃ install, rf.installs[k]? = some install ∧ rf.applySeqMu = .free ∧
      rf' = { rf with
        installs := rf.installs.eraseIdx k
        applySeqMu := .install install.snapShotIndex (rf.snapshotMsg install) } := by
  unfold installLock at h
  split at h
  · next install hinstall hfree =>
      cases h
      exact ⟨install, hinstall, hfree, rfl⟩
  · cases h

theorem installSend_cases (h : rf.installSend = .ok rf') :
    ∃ index msg, rf.applySeqMu = .install index msg ∧
      rf' = ({ rf with applySeqMu := .installed index }).send msg := by
  unfold installSend at h
  split at h
  · next index msg hinstall =>
      cases h
      exact ⟨index, msg, hinstall, rfl⟩
  · cases h

/-- The applier after the two signals a delivered snapshot may give. -/
def Applier.Signalled {C : Type} (applier applier' : Applier C) : Prop :=
  applier' = applier ∨ applier' = applier.wake ∨ applier' = applier.wakeSeq

theorem installFinish_cases (h : rf.installFinish = .ok rf') :
    ∃ index, rf.applySeqMu = .installed index ∧ ∃ applier,
      Applier.Signalled rf.applier applier ∧ rf' = { rf with
        lastApplied := max rf.lastApplied index
        commitIndex := max rf.commitIndex index
        applier := applier
        applySeqMu := .free } := by
  unfold installFinish at h
  split at h
  · next index hinstalled =>
      cases h
      have happlied : (if index > rf.lastApplied then index else rf.lastApplied) =
          max rf.lastApplied index := by
        split <;> omega
      refine ⟨index, hinstalled, ?_⟩
      dsimp only
      split
      · next hlt =>
          refine ⟨rf.applier.wake.wakeSeq, ?_, ?_⟩
          · cases rf.applier <;> simp [Applier.Signalled, Applier.wake, Applier.wakeSeq]
          · simp [signalSeq, signalApply, happlied, Int.max_eq_right (Int.le_of_lt hlt)]
      · next hle =>
          refine ⟨rf.applier.wakeSeq, Or.inr (Or.inr rfl), ?_⟩
          simp [signalSeq, happlied, Int.max_eq_left (Int.not_lt.mp hle)]
  · cases h

end DistributedLabs.Raft
