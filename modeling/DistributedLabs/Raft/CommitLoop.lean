import DistributedLabs.Raft.IndexSafety
import Mathlib.Order.Bounds.Basic

/-!
# The rule of the commit loop

The loop goes up from the commit index.  It ends at the first index that no majority holds,
it steps over entries of older terms, and it raises the commit index it started from.  Who
holds the log up to an index holds it below, so that nothing is missed where the loop ends:
the commit index becomes that of the last entry of the current term that a majority holds.
-/

namespace DistributedLabs

open DistributedLabs.Library

variable {n : Nat} {C : Type} {rf rf' : Raft n C} {first last : LogEntry C}

namespace Raft

/-! ## Rounds of the loop -/

/-- Fewer peers hold a longer part of the log. -/
theorem matchCount_anti (matchIndex : Fin n → Int) {low high : Int} (hle : low ≤ high) :
    matchCount matchIndex high ≤ matchCount matchIndex low := by
  refine List.countP_mono_left fun peer _ hpeer => ?_
  have hpeer : high ≤ matchIndex peer := of_decide_eq_true hpeer
  exact decide_eq_true (Int.le_trans hle hpeer)

/-- A round of the loop leaves the commit index at an entry of the current term or above it. -/
theorem commitAt_raises {first index : Int} {entry : LogEntry C}
    (h : rf.commitAt first index = some rf')
    (hentry : Slice.get rf.log (index - first) = some entry)
    (hterm : entry.term = rf.currentTerm) : index ≤ rf'.commitIndex := by
  unfold commitAt at h
  split at h
  · simp only [hentry, hterm, Option.bind_eq_bind, Option.bind_some, if_true] at h
    cases h
    exact Int.le_refl _
  · next hle =>
      cases h
      exact Int.not_lt.mp hle

/-- Behind the loop no entry of the current term is left that a majority holds. -/
theorem commitLoop_settles {first last : Int} {fuel : Nat} {begin : Int}
    (h : commitLoop first last fuel begin rf = some rf') (hfuel : last - begin + 1 ≤ fuel)
    {N : Int} {entry : LogEntry C} (hbegin : begin ≤ N) (hlast : N ≤ last)
    (hcommit : rf'.commitIndex < N) (hentry : Slice.get rf.log (N - first) = some entry)
    (hterm : entry.term = rf.currentTerm) : matchCount rf.matchIndex N ≤ n / 2 := by
  induction fuel generalizing begin rf with
  | zero => omega
  | succ fuel ih =>
      simp only [commitLoop] at h
      split at h
      · omega
      · split at h
        · next hcount => exact Nat.le_trans (matchCount_anti rf.matchIndex hbegin) hcount
        · obtain ⟨mid, hmid, hrest⟩ := Option.bind_eq_some_iff.mp h
          have hle := (commitLoop_cases hrest).1.le
          have hround : N ≠ begin := by
            rintro rfl
            have hraised := commitAt_raises hmid hentry hterm
            omega
          have habove : begin + 1 ≤ N := by omega
          rcases commitAt_cases hmid with rfl | ⟨_, rfl, _⟩
          · exact ih hrest (by omega) habove hentry hterm
          · have hlater := ih hrest (by omega) habove hentry hterm
            exact hlater

end Raft

theorem Spans.advanceCommit_settles (h : Spans rf first last) (hrun : rf.advanceCommit = some rf')
    {N : Int} {entry : LogEntry C} (hcommit : rf'.commitIndex < N)
    (hentry : rf.logAt N = some entry) (hterm : entry.term = rf.currentTerm) :
    Raft.matchCount rf.matchIndex N ≤ n / 2 := by
  rw [h.logAt_eq] at hentry
  have hbound := Slice.get_lt_length hentry
  have hlength := h.length
  have hle := (Raft.advanceCommit_cases hrun).1.le
  unfold Raft.advanceCommit at hrun
  rw [h.hfirst, h.hlast] at hrun
  exact Raft.commitLoop_settles hrun (by omega) (by omega) (by omega) hcommit hentry hterm

/-! ## The rule -/

namespace Raft

/-- The commit index may stay, and it may move to an entry of the current term in the log
that more than half of the peers hold. -/
def commitRule (rf : Raft n C) : Set Int :=
  {N | N = rf.commitIndex ∨ ∃ last entry, rf.getLastLog = some last ∧ N ≤ last.index ∧
    rf.logAt N = some entry ∧ entry.term = rf.currentTerm ∧
    n / 2 < (Finset.univ.filter fun peer => rf.matchIndex peer ≥ N).card}

/-- The commit index is the greatest that the rule allows.  Besides, only the applier has been
woken. -/
structure CommitsByRule (rf rf' : Raft n C) : Prop where
  greatest : IsGreatest rf.commitRule rf'.commitIndex
  commits : Commits rf rf'

end Raft

namespace Spans

theorem advanceCommit_mem_rule (h : Spans rf first last) (hrun : rf.advanceCommit = some rf') :
    rf'.commitIndex ∈ rf.commitRule := by
  rcases (Raft.advanceCommit_cases hrun).2 with
    hsame | ⟨base, top, hbase, htop, _, hle, hcount, entry, hentry, hterm⟩
  · exact Or.inl hsame
  · obtain rfl := Option.some.inj (h.hfirst.symm.trans hbase)
    rw [matchCount_eq] at hcount
    rw [← h.logAt_eq] at hentry
    exact Or.inr ⟨top, entry, htop, hle, hentry, hterm, hcount⟩

theorem advanceCommit_bounds_rule (h : Spans rf first last)
    (hrun : rf.advanceCommit = some rf') : rf'.commitIndex ∈ upperBounds rf.commitRule := by
  rintro N (rfl | ⟨_, entry, _, _, hentry, hterm, hcount⟩)
  · exact (Raft.advanceCommit_cases hrun).1.le
  · rw [← matchCount_eq] at hcount
    by_contra hbelow
    have hsettled := h.advanceCommit_settles hrun (Int.not_le.mp hbelow) hentry hterm
    exact Nat.not_le.mpr hcount hsettled

theorem exists_commitsByRule (h : Spans rf first last) (hlow : first.index ≤ rf.commitIndex) :
    ∃ rf', rf.advanceCommit = some rf' ∧ Raft.CommitsByRule rf rf' := by
  obtain ⟨rf', hrun⟩ := h.exists_advanceCommit (Int.le_add_one hlow)
  refine ⟨rf', hrun, ⟨?_, (Raft.advanceCommit_cases hrun).1⟩⟩
  exact ⟨h.advanceCommit_mem_rule hrun, h.advanceCommit_bounds_rule hrun⟩

end Spans

namespace Raft

/-- On a contiguous log the loop sets the commit index to the greatest index that the rule
allows, for whatever the leader knows of its followers; and so it does after an answer to a
log request and after an answer to a snapshot. -/
theorem commit_loop_meets_rule (hfirst : rf.getFirstLog = some first)
    (hlast : rf.getLastLog = some last) (hlog : Consecutive first.index rf.log)
    (hlow : first.index ≤ rf.commitIndex) :
    (∃ rf', rf.advanceCommit = some rf' ∧ CommitsByRule rf rf') ∧
    (∀ peer args recodeNextIndex reply lastEntry, rf.state = .leader →
      rf.currentTerm = args.term → reply.term ≤ rf.currentTerm → reply.success = true →
      args.entries.getLast? = some lastEntry →
      ∃ rf', rf.handleSendLogReply peer args recodeNextIndex reply = some rf' ∧
        CommitsByRule (rf.recordMatch peer lastEntry) rf') ∧
    ∀ peer args sendNextIndex sendMatchIndex reply, rf.state = .leader →
      rf.currentTerm = args.term → reply.term ≤ rf.currentTerm →
      ∃ rf', rf.handleSnapShotReply peer args sendNextIndex sendMatchIndex reply = some rf' ∧
        CommitsByRule (rf.recordSnapShot peer sendNextIndex sendMatchIndex
          args.lastIncludedIndex) rf' := by
  have hspans := spans_of_consecutive hfirst hlast hlog
  refine ⟨hspans.exists_commitsByRule hlow, ?_, ?_⟩
  · intro peer args recodeNextIndex reply lastEntry hleader hterm hcurrent hsuccess hlastEntry
    have hrecorded : Spans (rf.recordMatch peer lastEntry) first last := hspans.of_log rfl
    obtain ⟨rf', hrun, hrule⟩ := hrecorded.exists_commitsByRule hlow
    refine ⟨rf', ?_, hrule⟩
    unfold handleSendLogReply
    rw [if_neg (Int.not_lt.mpr hcurrent), if_pos ⟨hleader, hterm⟩, if_pos hsuccess, hlastEntry]
    exact hrun
  · intro peer args sendNextIndex sendMatchIndex reply hleader hterm hcurrent
    have hrecorded : Spans (rf.recordSnapShot peer sendNextIndex sendMatchIndex
        args.lastIncludedIndex) first last := hspans.of_log rfl
    obtain ⟨rf', hrun, hrule⟩ := hrecorded.exists_commitsByRule hlow
    refine ⟨rf', ?_, hrule⟩
    unfold handleSnapShotReply
    rw [if_neg (Int.not_lt.mpr hcurrent), if_pos ⟨hleader, hterm⟩]
    exact hrun

/-- A leader of term 2 that holds an older entry, and two entries of its own. -/
def olderEntry : Raft 3 Nat :=
  { Cluster.newPeer with
    state := .leader
    currentTerm := 2
    log := [⟨-1, 0, none⟩, ⟨1, 1, some 5⟩, ⟨2, 2, some 6⟩, ⟨2, 3, some 7⟩]
    matchIndex := fun peer => if peer = 0 then 3 else if peer = 1 then 2 else 0 }

/-- The entry of term 1 is stepped over, the second entry is committed, and the third is held
by the leader alone. -/
theorem commit_loop_meets_rule_older_entry : ∃ rf', olderEntry.advanceCommit = some rf' ∧
    rf'.commitIndex = 2 ∧ CommitsByRule olderEntry rf' := by
  have hnumbered : Consecutive 0 olderEntry.log := by
    intro k entry hentry
    rcases k with _ | _ | _ | _ | k
    · cases hentry
      rfl
    · cases hentry
      rfl
    · cases hentry
      rfl
    · cases hentry
      rfl
    · cases hentry
  have hfirst : olderEntry.getFirstLog = some ⟨-1, 0, none⟩ := rfl
  have hlast : olderEntry.getLastLog = some ⟨2, 3, some 7⟩ := rfl
  obtain ⟨⟨rf', hrun, hrule⟩, _⟩ := commit_loop_meets_rule hfirst hlast hnumbered (Int.le_refl 0)
  have hindex : olderEntry.advanceCommit.map Raft.commitIndex = some 2 := by
    decide +kernel
  rw [hrun] at hindex
  exact ⟨rf', hrun, Option.some.inj hindex, hrule⟩

end Raft

end DistributedLabs
