import DistributedLabs.Raft.IndexSafety

/-!
# Compaction is invisible from outside

A peer that has compacted its log at a committed index answers every request as it
would have answered without the compaction, and takes over the same term, vote,
commit index and entries.  The proof follows both peers through each handler.
-/

namespace DistributedLabs

open DistributedLabs.Library

variable {n : Nat} {C : Type}

/-! ## Peers that differ in compaction only -/

/-- The same term, vote and commit index, and the same log above `c` and above the entry the
log starts with. -/
structure SameAbove (c : Int) (rf rf' : Raft n C) : Prop where
  term : rf'.currentTerm = rf.currentTerm
  vote : rf'.voteFor = rf.voteFor
  commit : rf'.commitIndex = rf.commitIndex
  base : ∃ first first', rf.getFirstLog = some first ∧ rf'.getFirstLog = some first' ∧
    max c first'.index = max c first.index
  log : ∀ first, rf.getFirstLog = some first → ∀ k, max c first.index < k →
    rf'.logAt k = rf.logAt k

/-- The same reply, and peers that are the same above `c`. -/
structure Alike {R : Type} (c : Int) (out out' : Raft n C × R) : Prop where
  reply : out'.2 = out.2
  peers : SameAbove c out.1 out'.1

/-- `rf'` is `rf` with its log compacted at `c`. -/
structure Twin (c : Int) (rf rf' : Raft n C) (first last first' last' : LogEntry C) : Prop where
  term : rf'.currentTerm = rf.currentTerm
  vote : rf'.voteFor = rf.voteFor
  commit : rf'.commitIndex = rf.commitIndex
  spans : Spans rf first last
  spans' : Spans rf' first' last'
  low : first.index < c
  base : first'.index = c
  lastIndex : last'.index = last.index
  lastTerm : last'.term = last.term
  above : ∀ k, c < k → Slice.get rf'.log (k - c) = Slice.get rf.log (k - first.index)

namespace Twin

variable {c : Int} {rf rf' : Raft n C} {first last first' last' : LogEntry C}

theorem le_last (h : Twin c rf rf' first last first' last') : c ≤ last.index := by
  have hle := h.spans'.le
  have hbase := h.base
  have hlast := h.lastIndex
  omega

theorem logAt_eq (h : Twin c rf rf' first last first' last') {k : Int} (hk : c < k) :
    rf'.logAt k = rf.logAt k := by
  rw [h.spans.logAt_eq, h.spans'.logAt_eq, h.base]
  exact h.above k hk

theorem sameAbove (h : Twin c rf rf' first last first' last') : SameAbove c rf rf' where
  term := h.term
  vote := h.vote
  commit := h.commit
  base := by
    have hlow := h.low
    have hbase := h.base
    exact ⟨first, first', h.spans.hfirst, h.spans'.hfirst, by omega⟩
  log := fun _ _ k hk => h.logAt_eq (by omega)

/-- Only the logs and the compared fields matter. -/
theorem update (h : Twin c rf rf' first last first' last') {after after' : Raft n C}
    (hlog : after.log = rf.log) (hlog' : after'.log = rf'.log)
    (hterm : after'.currentTerm = after.currentTerm) (hvote : after'.voteFor = after.voteFor)
    (hcommit : after'.commitIndex = after.commitIndex) :
    Twin c after after' first last first' last' where
  term := hterm
  vote := hvote
  commit := hcommit
  spans := h.spans.of_log hlog
  spans' := h.spans'.of_log hlog'
  low := h.low
  base := h.base
  lastIndex := h.lastIndex
  lastTerm := h.lastTerm
  above := by
    rw [hlog, hlog']
    exact h.above

theorem persist (h : Twin c rf rf' first last first' last') :
    Twin c rf.persist rf'.persist first last first' last' :=
  h.update rfl rfl h.term h.vote h.commit

theorem leaveCandidate (h : Twin c rf rf' first last first' last') :
    Twin c rf.leaveCandidate rf'.leaveCandidate first last first' last' :=
  h.update rfl rfl h.term h.vote h.commit

theorem grantVote (h : Twin c rf rf' first last first' last') (candidateId : Fin n) :
    Twin c (rf.grantVote candidateId) (rf'.grantVote candidateId) first last first' last' :=
  h.update rfl rfl h.term rfl h.commit

theorem catchUp (h : Twin c rf rf' first last first' last') (term : Int) :
    Twin c (rf.catchUp term) (rf'.catchUp term) first last first' last' := by
  rcases Raft.catchUp_cases rf term with ⟨hle, heq⟩ | ⟨hlt, heq⟩
  · rcases Raft.catchUp_cases rf' term with ⟨_, heq'⟩ | ⟨hlt', _⟩
    · rw [heq, heq']
      exact h
    · rw [h.term] at hlt'
      omega
  · rcases Raft.catchUp_cases rf' term with ⟨hle', _⟩ | ⟨_, heq'⟩
    · rw [h.term] at hle'
      omega
    · rw [heq, heq']
      exact persist (h.update rfl rfl rfl rfl h.commit)

/-! ## Votes -/

theorem localLast (h : Twin c rf rf' first last first' last') : rf'.localLast = rf.localLast := by
  have hlast := h.spans.hlast
  have hlast' := h.spans'.hlast
  rw [Raft.getLastLog_eq] at hlast hlast'
  simp only [Raft.localLast, hlast, hlast', h.lastIndex, h.lastTerm]

theorem requestVote (h : Twin c rf rf' first last first' last') (args : RequestVoteArgs n) :
    Alike c (rf.requestVote args) (rf'.requestVote args) := by
  have hcaught := h.catchUp args.term
  have hgrant := (hcaught.grantVote args.candidateId).sameAbove
  unfold Raft.requestVote
  simp only [h.term, hcaught.term, hcaught.vote, hcaught.localLast]
  split
  · exact ⟨rfl, h.sameAbove⟩
  · split
    · exact ⟨rfl, hgrant⟩
    · split
      · exact ⟨rfl, hcaught.sameAbove⟩
      · split
        · exact ⟨rfl, hgrant⟩
        · exact ⟨rfl, hcaught.sameAbove⟩

/-! ## Snapshots -/

/-- A snapshot is covered by both logs or by neither, and then it is above `c`. -/
theorem coversSnapShot (h : Twin c rf rf' first last first' last')
    (args : RequestSnapShotArgs n) (hagrees : args.lastIncludedIndex ≤ c →
      ∀ held, rf.logAt args.lastIncludedIndex = some held → held.term = args.lastIncludedTerm) :
    ∃ covers, rf.coversSnapShot args = some covers ∧ rf'.coversSnapShot args = some covers ∧
      (covers = false → c < args.lastIncludedIndex) := by
  have hlow := h.low
  have hreaches := h.le_last
  unfold Raft.coversSnapShot
  simp only [h.spans.hfirst, h.spans.hlast, h.spans'.hfirst, h.spans'.hlast, h.base, h.lastIndex,
    Option.bind_eq_bind, Option.bind_some]
  by_cases hcompacted : args.lastIncludedIndex ≤ c
  · refine ⟨true, ?_, if_pos hcompacted, fun hfalse => by cases hfalse⟩
    split
    · rfl
    · next hgt =>
        obtain ⟨held, hheld⟩ := h.spans.exists_get (Int.le_of_lt (Int.not_le.mp hgt))
          (Int.le_trans hcompacted hreaches)
        have hterm := hagrees hcompacted held ((h.spans.logAt_eq _).trans hheld)
        rw [if_pos (by omega), hheld, Option.bind_some, hterm, decide_eq_true rfl]
  · have hgt : c < args.lastIncludedIndex := Int.not_le.mp hcompacted
    rw [if_neg (by omega), if_neg hcompacted, h.above _ hgt]
    by_cases hinside : args.lastIncludedIndex ≤ last.index
    · obtain ⟨held, hheld⟩ := h.spans.exists_get (by omega) hinside
      rw [if_pos hinside, hheld, Option.bind_some]
      exact ⟨_, rfl, rfl, fun _ => hgt⟩
    · rw [if_neg hinside]
      exact ⟨false, rfl, rfl, fun _ => hgt⟩

theorem requestInstallSnapShot (h : Twin c rf rf' first last first' last')
    {args : RequestSnapShotArgs n} (hagrees : args.lastIncludedIndex ≤ c →
      ∀ held, rf.logAt args.lastIncludedIndex = some held → held.term = args.lastIncludedTerm) :
    ∃ out out', rf.requestInstallSnapShot args = some out ∧
      rf'.requestInstallSnapShot args = some out' ∧ Alike c out out' := by
  unfold Raft.requestInstallSnapShot
  rw [h.term]
  split
  · exact ⟨_, _, rfl, rfl, rfl, h.persist.sameAbove⟩
  · have hsettled := (h.catchUp args.term).leaveCandidate
    have hlog : (rf.catchUp args.term).leaveCandidate.logAt args.lastIncludedIndex =
        rf.logAt args.lastIncludedIndex := by
      rw [hsettled.spans.logAt_eq, h.spans.logAt_eq]
      exact congrArg (Slice.get · _) (rf.catchUp_log args.term)
    obtain ⟨covers, hcovers, hcovers', habove⟩ := hsettled.coversSnapShot args
      (by rw [hlog]; exact hagrees)
    simp only [hcovers, hcovers', Option.bind_eq_bind, Option.bind_some]
    cases covers with
    | true => exact ⟨_, _, rfl, rfl, rfl, hsettled.persist.sameAbove⟩
    | false =>
        refine ⟨_, _, rfl, rfl, rfl, ?_⟩
        exact {
          term := hsettled.term
          vote := hsettled.vote
          commit := hsettled.commit
          base := ⟨_, _, rfl, rfl, rfl⟩
          log := fun _ _ _ _ => rfl }

end Twin

/-! ## Taking in entries -/

/-- The loop drops the entries up to `index`. -/
theorem Raft.trimEntries_eq_drop {entries : List (LogEntry C)} {prev index : Int}
    (hnumbered : Consecutive (prev + 1) entries) (hlow : prev ≤ index)
    (hhigh : index < prev + entries.length) :
    Raft.trimEntries index entries = some (entries.drop (index - prev).toNat) := by
  induction entries generalizing prev with
  | nil =>
      simp only [List.length_nil] at hhigh
      omega
  | cons entry rest ih =>
      have hentry : entry.index = prev + 1 := by
        have hzero := hnumbered 0 entry rfl
        omega
      simp only [Raft.trimEntries, hentry]
      split
      · next habove =>
          rw [show (index - prev).toNat = 0 by omega]
          rfl
      · next hbelow =>
          have hrest : Consecutive (prev + 1 + 1) rest := by
            intro k other hother
            have hindex := hnumbered (k + 1) other hother
            omega
          simp only [List.length_cons] at hhigh
          rw [ih hrest (by omega) (by omega),
            show (index - prev).toNat = (index - (prev + 1)).toNat + 1 by omega]
          rfl

/-- What the handler leaves of the compared fields when it takes the entries in; `lastIndex` is
where the log ends then. -/
structure Took (rf : Raft n C) (leaderCommit lastIndex : Int) (after : Raft n C) : Prop where
  term : after.currentTerm = rf.currentTerm
  vote : after.voteFor = rf.voteFor
  commit : after.commitIndex = max rf.commitIndex (min leaderCommit lastIndex)

section Took

variable {rf : Raft n C} {first last : LogEntry C} {args : SendLogArgs n C}

theorem Raft.followCommit_eq (hlast : rf.getLastLog = some last) (leaderCommit : Int) :
    ∃ after, rf.followCommit leaderCommit = some after ∧ Raft.Commits rf after ∧
      after.commitIndex = max rf.commitIndex (min leaderCommit last.index) := by
  unfold Raft.followCommit
  simp only [hlast, Option.bind_eq_bind, Option.bind_some]
  split
  · split
    · next hraise => exact ⟨_, rfl, Raft.Commits.raise rf hraise, by simp [Raft.signalApply]; omega⟩
    · exact ⟨rf, rfl, Raft.Commits.refl rf, by omega⟩
  · exact ⟨rf, rfl, Raft.Commits.refl rf, by omega⟩

theorem Raft.spliceLog_taken {log : List (LogEntry C)}
    (hagrees : rf.prevLogAgrees first args = some true)
    (hmerged : rf.mergeEntries first args = some log) (hlast : log.getLast? = some last) :
    ∃ after, rf.spliceLog first args = some (after, ⟨rf.currentTerm, true⟩) ∧ after.log = log ∧
      Took rf args.leaderCommit last.index after := by
  have hmerged' : rf.leaveCandidate.mergeEntries first args = some log := hmerged
  have hlast' : (({ rf.leaveCandidate with log := log }).persist).getLastLog = some last :=
    (Raft.getLastLog_eq _).trans hlast
  obtain ⟨after, hafter, hcommits, hcommit⟩ := Raft.followCommit_eq hlast' args.leaderCommit
  have hterm : after.currentTerm = rf.currentTerm := by
    rw [hcommits.eq]
    rfl
  refine ⟨after, ?_, ?_, ⟨hterm, ?_, hcommit⟩⟩
  · unfold Raft.spliceLog
    simp only [hagrees, hmerged', hafter, Option.bind_eq_bind, Option.bind_some, if_true, hterm]
  · rw [hcommits.eq]
    rfl
  · rw [hcommits.eq]
    rfl

theorem Raft.spliceLog_refused (hagrees : rf.prevLogAgrees first args = some false) :
    rf.spliceLog first args = some (rf, ⟨rf.currentTerm, false⟩) := by
  unfold Raft.spliceLog
  simp only [hagrees, Option.bind_eq_bind, Option.bind_some, Bool.false_eq_true, if_false]

/-- The check of the previous entry passes. -/
def Raft.Passes (rf : Raft n C) (first : LogEntry C) (args : SendLogArgs n C) : Prop :=
  first.index < args.prevLogIndex → ∃ held,
    Slice.get rf.log (args.prevLogIndex - first.index) = some held ∧ held.term = args.prevLogTerm

theorem Raft.Passes.prevLogAgrees (h : rf.Passes first args) :
    rf.prevLogAgrees first args = some true := by
  unfold Raft.prevLogAgrees
  split
  · next hlt =>
      obtain ⟨held, hheld, hterm⟩ := h hlt
      rw [hheld]
      exact congrArg some (decide_eq_true hterm)
  · rfl

namespace Spans

/-- A request without entries only moves the commit index. -/
theorem acceptLog_empty (h : Spans rf first last) (hcovered : args.prevLogIndex ≤ last.index)
    (hpasses : rf.Passes first args) (hempty : args.entries = []) :
    ∃ after, rf.acceptLog args = some (after, ⟨rf.currentTerm, true⟩) ∧ after.log = rf.log ∧
      Took rf args.leaderCommit last.index after := by
  have hmerged : rf.mergeEntries first args = some rf.log := by
    simp only [Raft.mergeEntries, hempty, List.getLast?_nil]
  have hlast := h.hlast
  rw [Raft.getLastLog_eq] at hlast
  obtain ⟨after, hafter, hrest⟩ := Raft.spliceLog_taken hpasses.prevLogAgrees hmerged hlast
  refine ⟨after, ?_, hrest⟩
  unfold Raft.acceptLog
  simp only [h.hfirst, h.hlast, Option.bind_eq_bind, Option.bind_some]
  rw [if_neg (by omega)]
  split
  · simp only [hempty, List.getLast?_nil]
    exact hafter
  · exact hafter

/-- The arguments without the entries the log has compacted. -/
def effective (first : LogEntry C) (args : SendLogArgs n C) : SendLogArgs n C :=
  if args.prevLogIndex < first.index then
    { args with
      prevLogIndex := first.index
      prevLogTerm := first.term
      entries := args.entries.drop (first.index - args.prevLogIndex).toNat }
  else args

theorem effective_prevLogIndex (first : LogEntry C) (args : SendLogArgs n C) :
    (effective first args).prevLogIndex = max args.prevLogIndex first.index := by
  unfold effective
  split
  · dsimp only
    omega
  · omega

theorem effective_entries (first : LogEntry C) (args : SendLogArgs n C) :
    (effective first args).entries =
      args.entries.drop (max args.prevLogIndex first.index - args.prevLogIndex).toNat := by
  unfold effective
  split
  · rw [show max args.prevLogIndex first.index = first.index by omega]
  · rw [show (max args.prevLogIndex first.index - args.prevLogIndex).toNat = 0 by omega]
    rfl

theorem effective_leaderCommit (first : LogEntry C) (args : SendLogArgs n C) :
    (effective first args).leaderCommit = args.leaderCommit := by
  unfold effective
  split <;> rfl

theorem effective_passes (hpasses : rf.Passes first args) :
    rf.Passes first (effective first args) := by
  unfold effective
  split
  · intro hlt
    exact absurd hlt (Int.lt_irrefl _)
  · exact hpasses

/-- The index of the last entry of a request. -/
theorem lastEntry_index (hnumbered : Consecutive (args.prevLogIndex + 1) args.entries)
    {lastEntry : LogEntry C} (hlastEntry : args.entries.getLast? = some lastEntry) :
    lastEntry.index = args.prevLogIndex + args.entries.length := by
  have hpos := List.length_pos_of_mem (List.mem_of_getLast? hlastEntry)
  rw [List.getLast?_eq_getElem?] at hlastEntry
  have hindex := hnumbered _ lastEntry hlastEntry
  omega

theorem effective_getLast? (hnumbered : Consecutive (args.prevLogIndex + 1) args.entries)
    {lastEntry : LogEntry C} (hlastEntry : args.entries.getLast? = some lastEntry)
    (habove : first.index < lastEntry.index) :
    (effective first args).entries.getLast? = some lastEntry := by
  have hindex := lastEntry_index hnumbered hlastEntry
  have hpos := List.length_pos_of_mem (List.mem_of_getLast? hlastEntry)
  rw [effective_entries, List.getLast?_drop, if_neg (by omega)]
  exact hlastEntry

/-- Entries that end above the start of the log are spliced in. -/
theorem acceptLog_eq_spliceLog (h : Spans rf first last)
    (hnumbered : Consecutive (args.prevLogIndex + 1) args.entries)
    (hcovered : args.prevLogIndex ≤ last.index) {lastEntry : LogEntry C}
    (hlastEntry : args.entries.getLast? = some lastEntry) (habove : first.index < lastEntry.index) :
    rf.acceptLog args = rf.spliceLog first (effective first args) := by
  have hindex := lastEntry_index hnumbered hlastEntry
  unfold Raft.acceptLog effective
  simp only [h.hfirst, h.hlast, hlastEntry, Option.bind_eq_bind, Option.bind_some]
  rw [if_neg (by omega)]
  split
  · rw [if_neg (by omega),
      Raft.trimEntries_eq_drop hnumbered (by omega) (by omega), Option.getD_some]
  · rfl

/-- A request whose last entry is in the log leaves the log as it is. -/
theorem acceptLog_held (h : Spans rf first last)
    (hnumbered : Consecutive (args.prevLogIndex + 1) args.entries)
    (hcovered : args.prevLogIndex ≤ last.index) (hpasses : rf.Passes first args)
    {lastEntry : LogEntry C} (hlastEntry : args.entries.getLast? = some lastEntry)
    (habove : first.index < lastEntry.index)
    (hholds : rf.holdsEntry first lastEntry = some true) :
    ∃ after, rf.acceptLog args = some (after, ⟨rf.currentTerm, true⟩) ∧ after.log = rf.log ∧
      Took rf args.leaderCommit last.index after := by
  have hmerged : rf.mergeEntries first (effective first args) = some rf.log := by
    unfold Raft.mergeEntries
    simp only [effective_getLast? hnumbered hlastEntry habove, hholds, Option.bind_eq_bind,
      Option.bind_some, if_true]
  have hlast := h.hlast
  rw [Raft.getLastLog_eq] at hlast
  obtain ⟨after, hafter, hlog, htook⟩ := Raft.spliceLog_taken
    (effective_passes hpasses).prevLogAgrees hmerged hlast
  rw [effective_leaderCommit] at htook
  exact ⟨after, (h.acceptLog_eq_spliceLog hnumbered hcovered hlastEntry habove).trans hafter, hlog,
    htook⟩

/-- Any other request replaces what stands behind its previous entry, or behind the start of
the log. -/
theorem acceptLog_spliced (h : Spans rf first last)
    (hnumbered : Consecutive (args.prevLogIndex + 1) args.entries)
    (hcovered : args.prevLogIndex ≤ last.index) (hpasses : rf.Passes first args)
    {lastEntry : LogEntry C} (hlastEntry : args.entries.getLast? = some lastEntry)
    (habove : first.index < lastEntry.index)
    (hholds : rf.holdsEntry first lastEntry = some false) :
    ∃ after, rf.acceptLog args = some (after, ⟨rf.currentTerm, true⟩) ∧
      Took rf args.leaderCommit lastEntry.index after ∧ after.getFirstLog = some first ∧
      ∀ k, first.index < k → after.logAt k = if k ≤ args.prevLogIndex then rf.logAt k
        else Slice.get args.entries (k - args.prevLogIndex - 1) := by
  have hlength := h.length
  have hle := h.le
  have hprev := effective_prevLogIndex first args
  have hcut : ((effective first args).prevLogIndex - first.index + 1).toNat ≤ rf.log.length := by
    omega
  have hmerged : rf.mergeEntries first (effective first args) =
      some (rf.log.take ((effective first args).prevLogIndex - first.index + 1).toNat ++
        (effective first args).entries) := by
    unfold Raft.mergeEntries
    simp only [effective_getLast? hnumbered hlastEntry habove, hholds, Option.bind_eq_bind,
      Option.bind_some, Bool.false_eq_true, if_false]
    rw [Slice.high_eq (by omega) (by omega), Option.bind_some]
  obtain ⟨after, hafter, hlog, htook⟩ := Raft.spliceLog_taken
    (effective_passes hpasses).prevLogAgrees hmerged (by
      rw [List.getLast?_append, effective_getLast? hnumbered hlastEntry habove]
      rfl)
  rw [effective_leaderCommit] at htook
  have hfirst : after.getFirstLog = some first := by
    rw [Raft.getFirstLog, hlog, Slice.get_take_append_of_lt _ hcut (by omega)]
    exact h.hfirst
  refine ⟨after, (h.acceptLog_eq_spliceLog hnumbered hcovered hlastEntry habove).trans hafter,
    htook, hfirst, fun k hk => ?_⟩
  have hread : after.logAt k = Slice.get after.log (k - first.index) := by
    rw [Raft.logAt, hfirst]
    rfl
  rw [hread, hlog]
  split
  · next hbefore =>
      rw [Slice.get_take_append_of_lt _ hcut (by omega)]
      exact (h.logAt_eq k).symm
  · next hbehind =>
      rw [Slice.get_take_append_of_ge _ hcut (by omega), effective_entries,
        Slice.get_drop _ _ (by omega)]
      congr 1
      omega

/-- Entries that the log has compacted are taken as held. -/
theorem acceptLog_below (h : Spans rf first last)
    (hnumbered : Consecutive (args.prevLogIndex + 1) args.entries)
    (hcovered : args.prevLogIndex ≤ last.index) {lastEntry : LogEntry C}
    (hlastEntry : args.entries.getLast? = some lastEntry)
    (hbelow : lastEntry.index ≤ first.index) :
    rf.acceptLog args = some (rf, ⟨rf.currentTerm, true⟩) := by
  have hindex := lastEntry_index hnumbered hlastEntry
  have hpos := List.length_pos_of_mem (List.mem_of_getLast? hlastEntry)
  unfold Raft.acceptLog
  simp only [h.hfirst, h.hlast, hlastEntry, Option.bind_eq_bind, Option.bind_some]
  rw [if_neg (by omega), if_pos (by omega), if_pos hbelow]

/-- A request that passes the check of its previous entry succeeds. -/
theorem acceptLog_passes (h : Spans rf first last)
    (hnumbered : Consecutive (args.prevLogIndex + 1) args.entries)
    (hcovered : args.prevLogIndex ≤ last.index) (hpasses : rf.Passes first args) :
    ∃ after, rf.acceptLog args = some (after, ⟨rf.currentTerm, true⟩) := by
  cases hlastEntry : args.entries.getLast? with
  | none =>
      obtain ⟨after, hafter, _⟩ :=
        h.acceptLog_empty hcovered hpasses (List.getLast?_eq_none_iff.mp hlastEntry)
      exact ⟨after, hafter⟩
  | some lastEntry =>
      by_cases hbelow : lastEntry.index ≤ first.index
      · exact ⟨rf, h.acceptLog_below hnumbered hcovered hlastEntry hbelow⟩
      · have habove : first.index < lastEntry.index := Int.not_le.mp hbelow
        obtain ⟨holds, hholds⟩ := h.exists_holdsEntry (Int.le_of_lt habove)
        cases holds with
        | true =>
            obtain ⟨after, hafter, _⟩ :=
              h.acceptLog_held hnumbered hcovered hpasses hlastEntry habove hholds
            exact ⟨after, hafter⟩
        | false =>
            obtain ⟨after, hafter, _⟩ :=
              h.acceptLog_spliced hnumbered hcovered hpasses hlastEntry habove hholds
            exact ⟨after, hafter⟩

/-- A request whose previous entry is missing or different is refused. -/
theorem acceptLog_refused (h : Spans rf first last)
    (hrefused : last.index < args.prevLogIndex ∨ ¬ rf.Passes first args) :
    rf.acceptLog args = some (rf, ⟨rf.currentTerm, false⟩) := by
  unfold Raft.acceptLog
  simp only [h.hfirst, h.hlast, Option.bind_eq_bind, Option.bind_some]
  split
  · rfl
  · next hcovered =>
      have hfails : ¬ rf.Passes first args := hrefused.resolve_left hcovered
      have hlt : first.index < args.prevLogIndex := by
        by_contra hle
        exact hfails fun hlt => absurd hlt hle
      rw [if_neg (by omega)]
      obtain ⟨held, hheld⟩ := h.exists_get (Int.le_of_lt hlt) (Int.not_lt.mp hcovered)
      refine Raft.spliceLog_refused ?_
      unfold Raft.prevLogAgrees
      rw [if_pos hlt, hheld]
      exact congrArg some (decide_eq_false fun hterm => hfails fun _ => ⟨held, hheld, hterm⟩)

end Spans

end Took

/-- The request is contiguous and contradicts nothing the peer counts as committed. -/
structure SendLogArgs.Agrees (args : SendLogArgs n C) (rf : Raft n C) : Prop where
  numbered : Consecutive (args.prevLogIndex + 1) args.entries
  prev : args.prevLogIndex ≤ rf.commitIndex →
    ∀ held, rf.logAt args.prevLogIndex = some held → held.term = args.prevLogTerm
  entries : ∀ entry ∈ args.entries, entry.index ≤ rf.commitIndex →
    ∀ held, rf.logAt entry.index = some held → held.term = entry.term
  commit : args.leaderCommit ≤ args.prevLogIndex + args.entries.length

namespace Twin

variable {c : Int} {rf rf' : Raft n C} {first last first' last' : LogEntry C}
  {args : SendLogArgs n C}

theorem holdsEntry (h : Twin c rf rf' first last first' last') {entry : LogEntry C}
    (habove : c < entry.index) : rf'.holdsEntry first' entry = rf.holdsEntry first entry := by
  unfold Raft.holdsEntry
  simp only [h.spans.hlast, h.spans'.hlast, h.base, h.lastIndex, h.above _ habove,
    Option.bind_eq_bind, Option.bind_some]

theorem passes (h : Twin c rf rf' first last first' last') (hpasses : rf.Passes first args) :
    rf'.Passes first' args := by
  intro hlt
  have hlow := h.low
  have hbase := h.base
  rw [hbase, h.above _ (by omega)]
  exact hpasses (by omega)

/-- The check passes in both peers up to `c`, and is the same one above. -/
theorem passes_iff (h : Twin c rf rf' first last first' last') (hcommit : c ≤ rf.commitIndex)
    (hargs : args.Agrees rf) (hcovered : args.prevLogIndex ≤ last.index) :
    rf'.Passes first' args ↔ rf.Passes first args := by
  refine ⟨fun hpasses hlt => ?_, h.passes⟩
  have hbase := h.base
  by_cases hprev : args.prevLogIndex ≤ c
  · obtain ⟨held, hheld⟩ := h.spans.exists_get (Int.le_of_lt hlt) hcovered
    exact ⟨held, hheld, hargs.prev (by omega) held ((h.spans.logAt_eq _).trans hheld)⟩
  · obtain ⟨held, hheld, hterm⟩ := hpasses (by omega)
    rw [hbase, h.above _ (by omega)] at hheld
    exact ⟨held, hheld, hterm⟩

/-- The log is kept in both peers. -/
theorem took_kept (h : Twin c rf rf' first last first' last') {after after' : Raft n C}
    (hlog : after.log = rf.log) (hlog' : after'.log = rf'.log) {lastIndex lastIndex' : Int}
    (htook : Took rf args.leaderCommit lastIndex after)
    (htook' : Took rf' args.leaderCommit lastIndex' after') (hsame : lastIndex' = lastIndex) :
    SameAbove c after after' := by
  refine (h.update hlog hlog' ?_ ?_ ?_).sameAbove
  · rw [htook.term, htook'.term, h.term]
  · rw [htook.vote, htook'.vote, h.vote]
  · rw [htook.commit, htook'.commit, h.commit, hsame]

/-- The last entry of the request is compacted in `rf'` and held by `rf`. -/
theorem acceptLog_below (h : Twin c rf rf' first last first' last') (hcommit : c ≤ rf.commitIndex)
    (hargs : args.Agrees rf) (hcovered : args.prevLogIndex ≤ last.index)
    (hpasses : rf.Passes first args) {lastEntry : LogEntry C}
    (hlastEntry : args.entries.getLast? = some lastEntry) (hbelow : lastEntry.index ≤ c) :
    ∃ out out', rf.acceptLog args = some out ∧ rf'.acceptLog args = some out' ∧
      Alike c out out' := by
  have hreaches := h.le_last
  have hindex := Spans.lastEntry_index hargs.numbered hlastEntry
  have hrun' := h.spans'.acceptLog_below hargs.numbered (by rw [h.lastIndex]; exact hcovered)
    hlastEntry (by rw [h.base]; exact hbelow)
  by_cases hcompacted : lastEntry.index ≤ first.index
  · have hrun := h.spans.acceptLog_below hargs.numbered hcovered hlastEntry hcompacted
    exact ⟨_, _, hrun, hrun', by rw [h.term], h.sameAbove⟩
  · have habove : first.index < lastEntry.index := Int.not_le.mp hcompacted
    obtain ⟨held, hheld⟩ := h.spans.exists_get (Int.le_of_lt habove)
      (Int.le_trans hbelow hreaches)
    have hterm := hargs.entries lastEntry (List.mem_of_getLast? hlastEntry) (by omega) held
      ((h.spans.logAt_eq _).trans hheld)
    have hholds : rf.holdsEntry first lastEntry = some true := by
      unfold Raft.holdsEntry
      simp only [h.spans.hlast, Option.bind_eq_bind, Option.bind_some]
      rw [if_pos (by omega), hheld, Option.bind_some, decide_eq_true hterm]
    obtain ⟨after, hrun, hlog, htook⟩ := h.spans.acceptLog_held hargs.numbered hcovered hpasses
      hlastEntry habove hholds
    have hargsCommit := hargs.commit
    have hsettled : after.commitIndex = rf.commitIndex := by
      rw [htook.commit]
      omega
    refine ⟨_, _, hrun, hrun', by rw [h.term], (h.update hlog rfl ?_ ?_ ?_).sameAbove⟩
    · rw [htook.term, h.term]
    · rw [htook.vote, h.vote]
    · rw [hsettled, h.commit]

/-- The request reaches above `c`: both peers hold its last entry, or both take it in. -/
theorem acceptLog_above (h : Twin c rf rf' first last first' last')
    (hargs : args.Agrees rf) (hcovered : args.prevLogIndex ≤ last.index)
    (hpasses : rf.Passes first args) {lastEntry : LogEntry C}
    (hlastEntry : args.entries.getLast? = some lastEntry) (habove : c < lastEntry.index) :
    ∃ out out', rf.acceptLog args = some out ∧ rf'.acceptLog args = some out' ∧
      Alike c out out' := by
  have hlow := h.low
  have hbase := h.base
  have hcovered' : args.prevLogIndex ≤ last'.index := by rw [h.lastIndex]; exact hcovered
  have hfirst : first.index < lastEntry.index := by omega
  have hfirst' : first'.index < lastEntry.index := by omega
  obtain ⟨holds, hholds⟩ := h.spans.exists_holdsEntry (Int.le_of_lt hfirst)
  have hholds' := (h.holdsEntry habove).trans hholds
  cases holds with
  | true =>
      obtain ⟨after, hrun, hlog, htook⟩ := h.spans.acceptLog_held hargs.numbered hcovered
        hpasses hlastEntry hfirst hholds
      obtain ⟨after', hrun', hlog', htook'⟩ := h.spans'.acceptLog_held hargs.numbered hcovered'
        (h.passes hpasses) hlastEntry hfirst' hholds'
      exact ⟨_, _, hrun, hrun', by rw [h.term], h.took_kept hlog hlog' htook htook' h.lastIndex⟩
  | false =>
      obtain ⟨after, hrun, htook, hstart, hread⟩ := h.spans.acceptLog_spliced hargs.numbered
        hcovered hpasses hlastEntry hfirst hholds
      obtain ⟨after', hrun', htook', hstart', hread'⟩ := h.spans'.acceptLog_spliced
        hargs.numbered hcovered' (h.passes hpasses) hlastEntry hfirst' hholds'
      refine ⟨_, _, hrun, hrun', by rw [h.term], ?_⟩
      exact {
        term := by rw [htook.term, htook'.term, h.term]
        vote := by rw [htook.vote, htook'.vote, h.vote]
        commit := by rw [htook.commit, htook'.commit, h.commit]
        base := ⟨first, first', hstart, hstart', by omega⟩
        log := fun _ _ k hk => by
          rw [hread k (by omega), hread' k (by omega), h.logAt_eq (by omega)] }

theorem acceptLog (h : Twin c rf rf' first last first' last') (hcommit : c ≤ rf.commitIndex)
    (hargs : args.Agrees rf) :
    ∃ out out', rf.acceptLog args = some out ∧ rf'.acceptLog args = some out' ∧
      Alike c out out' := by
  by_cases haccepted : args.prevLogIndex ≤ last.index ∧ rf.Passes first args
  · obtain ⟨hcovered, hpasses⟩ := haccepted
    cases hlastEntry : args.entries.getLast? with
    | none =>
        have hempty := List.getLast?_eq_none_iff.mp hlastEntry
        obtain ⟨after, hrun, hlog, htook⟩ := h.spans.acceptLog_empty hcovered hpasses hempty
        obtain ⟨after', hrun', hlog', htook'⟩ := h.spans'.acceptLog_empty
          (by rw [h.lastIndex]; exact hcovered) (h.passes hpasses) hempty
        exact ⟨_, _, hrun, hrun', by rw [h.term],
          h.took_kept hlog hlog' htook htook' h.lastIndex⟩
    | some lastEntry =>
        by_cases habove : c < lastEntry.index
        · exact h.acceptLog_above hargs hcovered hpasses hlastEntry habove
        · exact h.acceptLog_below hcommit hargs hcovered hpasses hlastEntry
            (Int.not_lt.mp habove)
  · have hrefused : last.index < args.prevLogIndex ∨ ¬ rf.Passes first args := by
      by_cases hcovered : args.prevLogIndex ≤ last.index
      · exact Or.inr fun hpasses => haccepted ⟨hcovered, hpasses⟩
      · exact Or.inl (Int.not_le.mp hcovered)
    have hrefused' : last'.index < args.prevLogIndex ∨ ¬ rf'.Passes first' args := by
      rw [h.lastIndex]
      rcases hrefused with hshort | hfails
      · exact Or.inl hshort
      · by_cases hcovered : args.prevLogIndex ≤ last.index
        · exact Or.inr ((h.passes_iff hcommit hargs hcovered).not.mpr hfails)
        · exact Or.inl (Int.not_le.mp hcovered)
    exact ⟨_, _, h.spans.acceptLog_refused hrefused, h.spans'.acceptLog_refused hrefused',
      by rw [h.term], h.sameAbove⟩

theorem requestSendLog (h : Twin c rf rf' first last first' last') (hcommit : c ≤ rf.commitIndex)
    (hargs : args.Agrees rf) :
    ∃ out out', rf.requestSendLog args = some out ∧ rf'.requestSendLog args = some out' ∧
      Alike c out out' := by
  unfold Raft.requestSendLog
  rw [h.term]
  split
  · exact ⟨_, _, rfl, rfl, rfl, h.sameAbove⟩
  · have hcaught := h.catchUp args.term
    have hlogAt : ∀ k, (rf.catchUp args.term).logAt k = rf.logAt k := by
      intro k
      rw [hcaught.spans.logAt_eq, h.spans.logAt_eq, Raft.catchUp_log]
    have hargs' : args.Agrees (rf.catchUp args.term) := by
      refine ⟨hargs.numbered, ?_, ?_, hargs.commit⟩
      · rw [Raft.catchUp_commitIndex, hlogAt]
        exact hargs.prev
      · intro entry hmem
        rw [Raft.catchUp_commitIndex, hlogAt]
        exact hargs.entries entry hmem
    exact hcaught.acceptLog (by rw [Raft.catchUp_commitIndex]; exact hcommit) hargs'

end Twin

/-! ## Compacting -/

section Compacting

variable {rf : Raft n C} {first last : LogEntry C}

/-- `Snapshot` makes a twin. -/
theorem Spans.exists_twin (h : Spans rf first last) (hlog : Consecutive first.index rf.log)
    {c : Int} (hlow : first.index < c) (hhigh : c ≤ last.index) (bytes : Bytes) :
    ∃ compacted first' last', rf.serviceSnapshot c bytes = some compacted ∧
      Twin c rf compacted first last first' last' := by
  have hlength := h.length
  obtain ⟨entry, hentry⟩ := h.exists_get (Int.le_of_lt hlow) hhigh
  have hindex : entry.index = c := by
    have hread := hentry
    rw [show c - first.index = ((c - first.index).toNat : Int) by omega, Slice.get_natCast] at hread
    have hnumbered := hlog _ entry hread
    omega
  obtain ⟨last', hlast', hlastIndex, hlastTerm⟩ : ∃ last' : LogEntry C,
      (⟨entry.term, entry.index, none⟩ :: rf.log.drop (c - first.index + 1).toNat).getLast? =
        some last' ∧ last'.index = last.index ∧ last'.term = last.term := by
    have hlast := h.hlast
    by_cases hend : c = last.index
    · rw [Raft.getLastLog, show (rf.log.length : Int) - 1 = c - first.index by omega, hentry]
        at hlast
      obtain rfl := Option.some.inj hlast
      rw [List.drop_eq_nil_of_le (by omega)]
      exact ⟨_, rfl, rfl, rfl⟩
    · rw [Raft.getLastLog_eq] at hlast
      rw [List.getLast?_cons, List.getLast?_drop, if_neg (by omega), hlast]
      exact ⟨last, rfl, rfl, rfl⟩
  refine ⟨({ rf with
      log := ⟨entry.term, entry.index, none⟩ :: rf.log.drop (c - first.index + 1).toNat
      snapshot := bytes }).persist, ⟨entry.term, entry.index, none⟩, last', ?_, ?_⟩
  · unfold Raft.serviceSnapshot
    simp only [h.hfirst, h.hlast, Option.bind_eq_bind, Option.bind_some]
    rw [if_neg (by omega), if_neg (by omega), hentry, Option.bind_some,
      Slice.low_eq (by omega) (by omega), Option.bind_some]
  · exact {
      term := rfl
      vote := rfl
      commit := rfl
      spans := h
      spans' := by
        refine ⟨rfl, (Raft.getLastLog_eq _).trans hlast', ?_⟩
        simp only [Raft.persist, List.length_cons, List.length_drop]
        omega
      low := hlow
      base := hindex
      lastIndex := hlastIndex
      lastTerm := hlastTerm
      above := fun k hk => by
        show Slice.get (_ :: rf.log.drop _) _ = _
        rw [Slice.get_cons_of_pos _ _ (by omega), Slice.get_drop _ _ (by omega)]
        congr 1
        omega }

/-- A peer compacted at a committed index answers every request that contradicts nothing
committed as it would have answered before, and the two stay the same above that index. -/
theorem compaction_invisible (hfirst : rf.getFirstLog = some first)
    (hlast : rf.getLastLog = some last) (hlog : Consecutive first.index rf.log) {c : Int}
    (hlow : first.index < c) (hcommit : c ≤ rf.commitIndex)
    (hreaches : rf.commitIndex ≤ last.index) (bytes : Bytes) :
    ∃ compacted, rf.serviceSnapshot c bytes = some compacted ∧
      (∀ args : RequestVoteArgs n, Alike c (rf.requestVote args) (compacted.requestVote args)) ∧
      (∀ args : SendLogArgs n C, args.Agrees rf → ∃ out out',
        rf.requestSendLog args = some out ∧ compacted.requestSendLog args = some out' ∧
        Alike c out out') ∧
      ∀ args : RequestSnapShotArgs n,
        (args.lastIncludedIndex ≤ rf.commitIndex → ∀ held,
          rf.logAt args.lastIncludedIndex = some held → held.term = args.lastIncludedTerm) →
        ∃ out out', rf.requestInstallSnapShot args = some out ∧
          compacted.requestInstallSnapShot args = some out' ∧ Alike c out out' := by
  have hspans := spans_of_consecutive hfirst hlast hlog
  obtain ⟨compacted, first', last', hrun, htwin⟩ := hspans.exists_twin hlog hlow
    (Int.le_trans hcommit hreaches) bytes
  refine ⟨compacted, hrun, htwin.requestVote, fun args hargs => htwin.requestSendLog hcommit hargs,
    fun args hagrees => htwin.requestInstallSnapShot fun hle => hagrees (Int.le_trans hle hcommit)⟩

end Compacting

/-- The logs of reachable peers are numbered. -/
theorem Cluster.consecutive_of_reachable {s : Cluster n C} (hreach : Reachable s) {p : Fin n}
    {first : LogEntry C} (hfirst : (s.peers p).getFirstLog = some first) :
    Consecutive first.index (s.peers p).log := by
  obtain ⟨A, h⟩ := exists_refines hreach
  obtain ⟨f, c, hpeer, _⟩ := h.peers p
  obtain rfl := Option.some.inj (hpeer.first.symm.trans hfirst)
  exact hpeer.consecutive

/-- The first entry of the log, sent again. -/
def firstEntryAgain : SendLogArgs 3 Nat where
  term := 1
  leaderId := 0
  prevLogIndex := 0
  prevLogTerm := -1
  entries := [⟨1, 1, some 5⟩]
  leaderCommit := 1

/-- A follower with two committed entries compacts both.  It votes as before, and it accepts the
first entry again, which lies below its compaction point. -/
theorem Cluster.compaction_invisible_first_entry : ∃ s : Cluster 3 Nat, Reachable s ∧
    (s.peers 1).state = .follower ∧ (s.peers 1).commitIndex = 2 ∧
    ∃ compacted, (s.peers 1).serviceSnapshot 2 [1] = some compacted ∧
      (∀ args : RequestVoteArgs 3,
        Alike 2 ((s.peers 1).requestVote args) (compacted.requestVote args)) ∧
      ∃ out out', (s.peers 1).requestSendLog firstEntryAgain = some out ∧
        compacted.requestSendLog firstEntryAgain = some out' ∧ out'.2 = ⟨1, true⟩ ∧
        Alike 2 out out' := by
  have hchecked : RunHolds step (electFirst ++ [.start 0 (some 5), .start 0 (some 6),
        .sendLogTicketCore 0, .deliver 1, .answer 1, .sendLogTicketCore 0, .deliver 2]) initial
      fun s => ((s.peers 1).state = .follower ∧ (s.peers 1).commitIndex = 2) ∧
        ((s.peers 1).getFirstLog = some ⟨-1, 0, none⟩ ∧
          (s.peers 1).getLastLog = some ⟨1, 2, some 6⟩) ∧
        ((s.peers 1).logAt 0 = some ⟨-1, 0, none⟩ ∧ (s.peers 1).logAt 1 = some ⟨1, 1, some 5⟩) ∧
        ((s.peers 1).requestSendLog firstEntryAgain).map Prod.snd = some ⟨1, true⟩ := by
    decide +kernel
  obtain ⟨s, hreach, ⟨hfollower, hcommit⟩, ⟨hfirst, hlast⟩, ⟨hbase, hheld⟩, hreply⟩ :=
    hchecked.exists_reaches
  have hagrees : firstEntryAgain.Agrees (s.peers 1) := by
    refine ⟨fun k entry hentry => ?_, fun _ held hat => ?_, fun entry hentry _ held hat => ?_,
      by decide⟩
    · cases k with
      | zero =>
          cases hentry
          rfl
      | succ k => cases hentry
    · obtain rfl := Option.some.inj (hbase.symm.trans hat)
      rfl
    · obtain rfl := List.mem_singleton.mp hentry
      obtain rfl := Option.some.inj (hheld.symm.trans hat)
      rfl
  obtain ⟨compacted, hrun, hvotes, hlogs, _⟩ := compaction_invisible hfirst hlast
    (consecutive_of_reachable hreach hfirst) (c := 2) (by decide) (by omega) (by rw [hcommit]) [1]
  obtain ⟨out, out', hout, hout', halike⟩ := hlogs firstEntryAgain hagrees
  rw [hout, Option.map_some] at hreply
  exact ⟨s, hreach, hfollower, hcommit, compacted, hrun, hvotes, out, out', hout, hout',
    halike.reply.trans (Option.some.inj hreply), halike⟩

end DistributedLabs
