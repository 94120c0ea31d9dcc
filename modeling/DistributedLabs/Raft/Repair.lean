import DistributedLabs.Raft.Agreement
import DistributedLabs.Raft.NextIndex

/-!
# Repairing the log of a follower

A leader that has been refused backs up and sends again, over a whole term at a time, and
sends its snapshot when it has backed up to its compaction point.  An exchange is one such
round with one follower.  Each refusal moves `nextIndex` back; a snapshot moves it forward
again, but then the next request starts where the snapshot ends and cannot be refused.  So
the exchanges come to a request that is accepted, and it leaves the follower with the leader's
log, unless the commit loop behind the answer to the snapshot starts below the leader's
compaction point: a leader that is behind with its commit index may panic there.
-/

namespace DistributedLabs

open DistributedLabs.Library

variable {n : Nat} {C : Type}

/-! ## Exchanges -/

def SendJob.peer : SendJob n C → Fin n
  | log peer _ _ | snapShot peer => peer

/-- One round between a leader and a follower: the request that `sendLogTicketCore` prepares
for the follower, its handling there, and the handling of the answer.  The flag says whether
`RequestSendLog` has succeeded. -/
def Raft.exchange (me peer : Fin n) (leader follower : Raft n C) :
    Option (Raft n C × Raft n C × Bool) := do
  let (prepared, jobs) ← leader.sendLogTicketCore me
  match jobs.find? (fun job => job.peer = peer) with
  | none => some (prepared, follower, false)
  | some (.log _ args recodeNextIndex) => do
      let (taken, reply) ← follower.requestSendLog args
      let answered ← prepared.handleSendLogReply peer args recodeNextIndex reply
      some (answered, taken, reply.success)
  | some (.snapShot _) => do
      match ← prepared.sendSnapShot me peer with
      | none => some (prepared, follower, false)
      | some (args, sendNextIndex, sendMatchIndex) => do
          let (installed, reply) ← follower.requestInstallSnapShot args
          let answered ←
            prepared.handleSnapShotReply peer args sendNextIndex sendMatchIndex reply
          some (answered, installed, false)

/-- The follower after the request of a round, if `RequestSendLog` accepts it.  What the leader
makes of the answer comes later. -/
def Raft.accepted (me peer : Fin n) (leader follower : Raft n C) : Option (Raft n C) := do
  let (_, jobs) ← leader.sendLogTicketCore me
  match jobs.find? (fun job => job.peer = peer) with
  | some (.log _ args _) => do
      let (taken, reply) ← follower.requestSendLog args
      if reply.success then some taken else none
  | _ => none

/-- Exchanges up to the first that succeeds, at most `rounds` of them. -/
def Raft.exchanges (me peer : Fin n) : Nat → Raft n C → Raft n C →
    Option (Raft n C × Raft n C × Bool)
  | 0, leader, follower => some (leader, follower, false)
  | rounds + 1, leader, follower => do
      let (answered, taken, succeeded) ← Raft.exchange me peer leader follower
      if succeeded then some (answered, taken, true)
      else exchanges me peer rounds answered taken

/-- A round that succeeds has a request that is accepted. -/
theorem Raft.accepted_of_exchange {me peer : Fin n} {leader follower answered taken : Raft n C}
    (h : Raft.exchange me peer leader follower = some (answered, taken, true)) :
    Raft.accepted me peer leader follower = some taken := by
  unfold Raft.exchange at h
  obtain ⟨⟨prepared, jobs⟩, hrun, h⟩ := Option.bind_eq_some_iff.mp h
  dsimp only at h
  split at h
  · cases h
  · next args recodeNextIndex hfind =>
      obtain ⟨⟨after, reply⟩, hafter, h⟩ := Option.bind_eq_some_iff.mp h
      obtain ⟨_, _, h⟩ := Option.bind_eq_some_iff.mp h
      obtain ⟨_, rfl, hsuccess⟩ := Prod.mk.inj (Option.some.inj h) |>.imp_right Prod.mk.inj
      have hsuccess : reply.success = true := hsuccess
      simp only [Raft.accepted, hrun, hfind, hafter, hsuccess, Option.bind_eq_bind,
        Option.bind_some, if_true]
  · obtain ⟨sent, _, h⟩ := Option.bind_eq_some_iff.mp h
    split at h
    · cases h
    · obtain ⟨_, _, h⟩ := Option.bind_eq_some_iff.mp h
      obtain ⟨_, _, h⟩ := Option.bind_eq_some_iff.mp h
      cases h

/-- The rounds before the first that succeeds. -/
theorem Raft.before_success {me peer : Fin n} {rounds : Nat}
    {leader follower answered taken : Raft n C}
    (h : Raft.exchanges me peer rounds leader follower = some (answered, taken, true)) :
    ∃ before mid other, before < rounds ∧
      Raft.exchanges me peer before leader follower = some (mid, other, false) ∧
      Raft.exchange me peer mid other = some (answered, taken, true) := by
  induction rounds generalizing leader follower with
  | zero => cases h
  | succ rounds ih =>
      simp only [Raft.exchanges] at h
      obtain ⟨⟨first, second, succeeded⟩, hexchange, h⟩ := Option.bind_eq_some_iff.mp h
      cases succeeded with
      | true =>
          cases h
          exact ⟨0, leader, follower, Nat.succ_pos _, rfl, hexchange⟩
      | false =>
          obtain ⟨before, mid, other, hless, hrun, hlast⟩ := ih h
          refine ⟨before + 1, mid, other, Nat.succ_lt_succ hless, ?_, hlast⟩
          simp only [Raft.exchanges, hexchange, hrun, Option.bind_eq_bind, Option.bind_some,
            Bool.false_eq_true, if_false]

/-! ## The job for one follower -/

/-- What is prepared for `peer`: the snapshot, or a request for the entries from `index` on. -/
inductive Job (rf : Raft n C) (me peer : Fin n) (first last : LogEntry C) (prepared : Raft n C) :
    SendJob n C → Prop where
  | snapShot (compacted : first.term ≠ -1) (low : rf.nextIndex peer ≤ first.index)
      (next : prepared.nextIndex peer = rf.nextIndex peer) :
      Job rf me peer first last prepared (.snapShot peer)
  | log {index : Int} {args : SendLogArgs n C} (low : first.index < index)
      (high : index ≤ last.index + 1)
      (kept : index = rf.nextIndex peer ∨
        (first.term = -1 ∧ rf.nextIndex peer = first.index ∧ index = first.index + 1))
      (builds : rf.BuildsLog me index args) (next : prepared.nextIndex peer = index) :
      Job rf me peer first last prepared (.log peer args index)

theorem Job.peer_eq {rf prepared : Raft n C} {me peer : Fin n} {first last : LogEntry C}
    {job : SendJob n C} (h : Job rf me peer first last prepared job) : job.peer = peer := by
  cases h <;> rfl

/-- Requests to other followers do not matter for the job. -/
theorem Job.after {rf mid prepared : Raft n C} {me peer : Fin n} {first last : LogEntry C}
    {job : SendJob n C} (h : Job mid me peer first last prepared job)
    (hprepares : Raft.Prepares rf mid) (hnext : mid.nextIndex peer = rf.nextIndex peer) :
    Job rf me peer first last prepared job := by
  cases h with
  | snapShot compacted low next =>
      rw [hnext] at low next
      exact .snapShot compacted low next
  | log low high kept builds next =>
      rw [hnext] at kept
      exact .log low high kept (hprepares.buildsLog builds) next

namespace Spans

variable {rf rf' : Raft n C} {first last : LogEntry C} {me peer : Fin n}

theorem Sendable.exists_prepareSend_job (h : Sendable rf first last) (me peer : Fin n) :
    ∃ prepared job, rf.prepareSend me peer = some (prepared, job) ∧
      Job rf me peer first last prepared job ∧
      ∀ i, i ≠ peer → prepared.nextIndex i = rf.nextIndex i := by
  obtain ⟨⟨prepared, job⟩, hrun⟩ := h.exists_prepareSend me peer
  refine ⟨prepared, job, hrun, ?_⟩
  unfold Raft.prepareSend at hrun
  simp only [h.spans.hfirst, Option.bind_eq_bind, Option.bind_some] at hrun
  split at hrun
  · next hsnap =>
      cases hrun
      exact ⟨.snapShot hsnap.1 hsnap.2 rfl, fun _ _ => rfl⟩
  · next hlog =>
      obtain ⟨hlow, hhigh⟩ := h.repaired hlog
      obtain ⟨args, hargs, hrun⟩ := Option.bind_eq_some_iff.mp hrun
      cases hrun
      obtain ⟨preLog, hpre, hargs⟩ := Option.bind_eq_some_iff.mp hargs
      obtain ⟨entries, hentries, hargs⟩ := Option.bind_eq_some_iff.mp hargs
      refine ⟨.log (by omega) hhigh ?_ ⟨first, preLog, entries, h.spans.hfirst, hpre, hentries,
        (Option.some.inj hargs).symm⟩ rfl, fun i hi => ?_⟩
      · have hnext := h.next peer
        simp only [Raft.repairNextIndex, Raft.setNextIndex, Function.update_self]
        split <;> split <;> omega
      · simp [Raft.repairNextIndex, Raft.setNextIndex, hi]

/-- A follower that is not in the list keeps its `nextIndex`. -/
theorem prepareSends_of_not_mem {peers : List (Fin n)} {jobs : List (SendJob n C)}
    (h : Sendable rf first last) (hrun : Raft.prepareSends me peers rf = some (rf', jobs))
    (hmem : peer ∉ peers) : rf'.nextIndex peer = rf.nextIndex peer := by
  induction peers generalizing rf jobs with
  | nil =>
      cases hrun
      rfl
  | cons head rest ih =>
      obtain ⟨hhead, hrest⟩ := not_or.mp (mt List.mem_cons.mpr hmem)
      simp only [Raft.prepareSends] at hrun
      split at hrun
      · exact ih h hrun hrest
      · obtain ⟨mid, job, hmid, _, hkept⟩ := h.exists_prepareSend_job me head
        simp only [hmid, Option.bind_eq_bind, Option.bind_some] at hrun
        obtain ⟨⟨final, others⟩, hlater, hrun⟩ := Option.bind_eq_some_iff.mp hrun
        cases hrun
        rw [ih (h.prepares (Raft.prepareSend_cases hmid).1) hlater hrest]
        exact hkept peer hhead

theorem Sendable.exists_prepareSends_job (h : Sendable rf first last) (hne : peer ≠ me)
    {peers : List (Fin n)} (hmem : peer ∈ peers) (hnodup : peers.Nodup) :
    ∃ prepared jobs job, Raft.prepareSends me peers rf = some (prepared, jobs) ∧
      Raft.Prepares rf prepared ∧ jobs.find? (fun job => job.peer = peer) = some job ∧
      Job rf me peer first last prepared job := by
  induction peers generalizing rf with
  | nil => cases hmem
  | cons head rest ih =>
      obtain ⟨hhead, hrest⟩ := List.nodup_cons.mp hnodup
      simp only [Raft.prepareSends]
      by_cases hme : head = me
      · rw [if_pos hme]
        rcases List.mem_cons.mp hmem with rfl | hin
        · exact absurd hme hne
        · exact ih h hin hrest
      · rw [if_neg hme]
        obtain ⟨mid, job, hmid, hjob, hkept⟩ := h.exists_prepareSend_job me head
        have hprepares := (Raft.prepareSend_cases hmid).1
        have hsendable := h.prepares hprepares
        simp only [hmid, Option.bind_eq_bind, Option.bind_some]
        rcases List.mem_cons.mp hmem with rfl | hin
        · obtain ⟨⟨final, others⟩, hlater⟩ := hsendable.exists_prepareSends me rest
          simp only [hlater, Option.bind_some]
          refine ⟨final, _, job, rfl, hprepares.trans (Raft.prepareSends_cases hlater).1, ?_, ?_⟩
          · exact List.find?_cons_of_pos (decide_eq_true hjob.peer_eq)
          · have hnext := prepareSends_of_not_mem hsendable hlater hhead
            cases hjob with
            | snapShot compacted low next => exact .snapShot compacted low (hnext.trans next)
            | log low high kept builds next => exact .log low high kept builds (hnext.trans next)
        · have hother : peer ≠ head := by
            rintro rfl
            exact hhead hin
          obtain ⟨final, others, job', hlater, hlaterPrepares, hfind, hjob'⟩ :=
            ih hsendable hin hrest
          simp only [hlater, Option.bind_some]
          refine ⟨final, _, job', rfl, hprepares.trans hlaterPrepares, ?_,
            hjob'.after hprepares (hkept peer hother)⟩
          rw [List.find?_cons_of_neg]
          · exact hfind
          · rw [hjob.peer_eq]
            exact fun heq => hother (of_decide_eq_true heq).symm

end Spans

/-! ## The request -/

/-- What a log request from `index` on says of the log it is built from. -/
structure Requests (rf : Raft n C) (last : LogEntry C) (index : Int) (args : SendLogArgs n C) :
    Prop where
  term : args.term = rf.currentTerm
  prev : args.prevLogIndex = index - 1
  prevTerm : ∃ preLog, rf.logAt (index - 1) = some preLog ∧ preLog.term = args.prevLogTerm
  numbered : Consecutive (args.prevLogIndex + 1) args.entries
  length : args.prevLogIndex + args.entries.length = last.index
  entries : ∀ k, index ≤ k → Slice.get args.entries (k - index) = rf.logAt k

theorem Spans.requests {rf : Raft n C} {first last : LogEntry C} (h : Spans rf first last)
    (hnumbered : Consecutive first.index rf.log) {me : Fin n} {index : Int}
    {args : SendLogArgs n C} (hlow : first.index < index) (hhigh : index ≤ last.index + 1)
    (hbuilds : rf.BuildsLog me index args) : Requests rf last index args := by
  obtain ⟨base, preLog, entries, hbase, hpre, hentries, rfl⟩ := hbuilds
  obtain rfl := Option.some.inj (h.hfirst.symm.trans hbase)
  have hprev : preLog.index = index - 1 := by
    have hindex := hnumbered _ preLog (Slice.read_of_get hpre)
    omega
  have hlength := h.length
  obtain rfl := Slice.low_eq_some hentries
  constructor
  · rfl
  · exact hprev
  · refine ⟨preLog, ?_, rfl⟩
    rw [h.logAt_eq, ← hpre]
    congr 1
    omega
  · intro k entry hentry
    rw [List.getElem?_drop] at hentry
    have hindex := hnumbered _ entry hentry
    dsimp only
    omega
  · dsimp only
    rw [List.length_drop]
    omega
  · intro k hk
    dsimp only
    rw [Slice.get_drop _ _ (by omega), h.logAt_eq]
    congr 1
    omega

theorem Requests.prepares {rf prepared : Raft n C} {last : LogEntry C} {index : Int}
    {args : SendLogArgs n C} (h : Requests rf last index args)
    (hprepares : Raft.Prepares rf prepared) : Requests prepared last index args := by
  rw [hprepares.eq]
  exact ⟨h.term, h.prev, h.prevTerm, h.numbered, h.length, h.entries⟩

/-! ## Taking the request in -/

/-- Logs with entries of one term at one index agree up to it. -/
def Raft.Matching (rf rf' : Raft n C) : Prop :=
  ∀ k entry entry', rf.logAt k = some entry → rf'.logAt k = some entry' →
    entry'.term = entry.term → Raft.AgreesUpTo k rf rf'

/-- The log is compacted past the entry, or holds it. -/
def Raft.Aligned (rf : Raft n C) (entry first : LogEntry C) : Prop :=
  entry.index ≤ first.index ∨ ∃ held, rf.logAt entry.index = some held ∧ held.term = entry.term

/-- A follower takes a request in when it is aligned where the request starts. -/
theorem Spans.passes_iff_aligned {rf : Raft n C} {first last entry : LogEntry C}
    {args : SendLogArgs n C} (h : Spans rf first last) (hindex : args.prevLogIndex = entry.index)
    (hterm : args.prevLogTerm = entry.term) :
    args.prevLogIndex ≤ last.index ∧ rf.Passes first args ↔ rf.Aligned entry first := by
  rw [Raft.Passes, Raft.Aligned, h.logAt_eq, hindex, hterm]
  have hle := h.le
  constructor
  · rintro ⟨_, hpasses⟩
    by_cases habove : first.index < entry.index
    · exact .inr (hpasses habove)
    · exact .inl (Int.not_lt.mp habove)
  · rintro (hcompacted | ⟨held, hheld, hsame⟩)
    · exact ⟨by omega, fun habove => by omega⟩
    · have hbound := Slice.get_lt_length hheld
      have hlength := h.length
      exact ⟨by omega, fun _ => ⟨held, hheld, hsame⟩⟩

/-- A leader and a follower of its term whose logs match.  The leader may send each follower
what it has or is about to have. -/
structure Repairs (me peer : Fin n) (leader follower : Raft n C)
    (first last first' last' : LogEntry C) : Prop where
  other : peer ≠ me
  leading : leader.state = .leader
  sameTerm : follower.currentTerm = leader.currentTerm
  sendable : Spans.Sendable leader first last
  numbered : Consecutive first.index leader.log
  spans : Spans follower first' last'
  base : 0 ≤ first'.index
  matching : leader.Matching follower

theorem Raft.AgreesUpTo.congr {bound : Int} {rf rf' left right : Raft n C}
    (h : Raft.AgreesUpTo bound rf rf') (hleft : left.log = rf.log) (hright : right.log = rf'.log) :
    Raft.AgreesUpTo bound left right := by
  intro first first' index hfirst hfirst' hlow hlow' hhigh
  rw [Raft.getFirstLog, hleft, ← Raft.getFirstLog] at hfirst
  rw [Raft.getFirstLog, hright, ← Raft.getFirstLog] at hfirst'
  simp only [Raft.logAt, Raft.getFirstLog, hleft, hright]
  exact h first first' index hfirst hfirst' hlow hlow' hhigh

/-- Nothing above a compaction point lies at or below it. -/
theorem Raft.AgreesUpTo.of_compacted {bound : Int} {rf rf' : Raft n C} {first' : LogEntry C}
    (hfirst' : rf'.getFirstLog = some first') (hle : bound ≤ first'.index) :
    Raft.AgreesUpTo bound rf rf' := by
  intro _ base' index _ hbase' _ hlow' hhigh
  obtain rfl := Option.some.inj (hfirst'.symm.trans hbase')
  omega

theorem Raft.holdsEntry_true {rf : Raft n C} {first entry : LogEntry C}
    (h : rf.holdsEntry first entry = some true) :
    ∃ held, Slice.get rf.log (entry.index - first.index) = some held ∧ held.term = entry.term := by
  unfold Raft.holdsEntry at h
  obtain ⟨last, _, h⟩ := Option.bind_eq_some_iff.mp h
  split at h
  · obtain ⟨held, hheld, h⟩ := Option.bind_eq_some_iff.mp h
    exact ⟨held, hheld, of_decide_eq_true (Option.some.inj h)⟩
  · cases h

/-- The last entry of a request is the leader's last entry. -/
theorem Requests.lastEntry {rf : Raft n C} {last lastEntry : LogEntry C} {index : Int}
    {args : SendLogArgs n C} (h : Requests rf last index args)
    (hlastEntry : args.entries.getLast? = some lastEntry) :
    lastEntry.index = last.index ∧ rf.logAt last.index = some lastEntry := by
  have hindex := Spans.lastEntry_index h.numbered hlastEntry
  have hpos := List.length_pos_of_mem (List.mem_of_getLast? hlastEntry)
  have hlength := h.length
  have hprev := h.prev
  refine ⟨by omega, ?_⟩
  rw [← h.entries last.index (by omega),
    show last.index - index = (args.entries.length : Int) - 1 by omega, Slice.get_last]
  exact hlastEntry

namespace Repairs

variable {me peer : Fin n} {leader follower : Raft n C} {first last first' last' : LogEntry C}
  {index : Int} {args : SendLogArgs n C}

theorem requestSendLog_eq (h : Repairs me peer leader follower first last first' last')
    (hrequests : Requests leader last index args) :
    follower.requestSendLog args = follower.acceptLog args := by
  have hterm : args.term = follower.currentTerm := hrequests.term.trans h.sameTerm.symm
  simp [Raft.requestSendLog, Raft.catchUp, hterm]

/-- The follower's log agrees with the leader's where the request starts. -/
theorem agrees_prev (h : Repairs me peer leader follower first last first' last')
    (hrequests : Requests leader last index args) (hpasses : follower.Passes first' args)
    (habove : first'.index < args.prevLogIndex) :
    Raft.AgreesUpTo args.prevLogIndex leader follower := by
  obtain ⟨held, hheld, hterm⟩ := hpasses habove
  obtain ⟨preLog, hpre, hpreTerm⟩ := hrequests.prevTerm
  rw [← hrequests.prev] at hpre
  exact h.matching args.prevLogIndex preLog held hpre ((h.spans.logAt_eq _).trans hheld)
    (hterm.trans hpreTerm.symm)

/-- Entries that are spliced in are the leader's. -/
theorem agrees_spliced (h : Repairs me peer leader follower first last first' last')
    (hrequests : Requests leader last index args) (hpasses : follower.Passes first' args)
    {after : Raft n C} (hfirst : after.getFirstLog = some first')
    (hread : ∀ k, first'.index < k → after.logAt k = if k ≤ args.prevLogIndex then
      follower.logAt k else Slice.get args.entries (k - args.prevLogIndex - 1)) :
    Raft.AgreesUpTo last.index leader after := by
  intro base base' k hbase hbase' hlow hlow' hhigh
  obtain rfl := Option.some.inj (h.sendable.spans.hfirst.symm.trans hbase)
  obtain rfl := Option.some.inj (hfirst.symm.trans hbase')
  rw [hread k hlow']
  split
  · next hbefore =>
      exact h.agrees_prev hrequests hpasses (by omega) first first' k hbase h.spans.hfirst hlow
        hlow' hbefore
  · next hbehind =>
      have hprev := hrequests.prev
      obtain ⟨entry, hentry⟩ := h.sendable.spans.exists_get (Int.le_of_lt hlow) hhigh
      have hat : leader.logAt k = some entry := (h.sendable.spans.logAt_eq k).trans hentry
      refine ⟨entry, entry, hat, ?_, rfl, rfl⟩
      rw [show k - args.prevLogIndex - 1 = k - index by omega, hrequests.entries k (by omega)]
      exact hat

/-- A request that is taken in leaves the follower with the leader's log. -/
theorem taken (h : Repairs me peer leader follower first last first' last')
    (hrequests : Requests leader last index args) (hcovered : args.prevLogIndex ≤ last'.index)
    (hpasses : follower.Passes first' args) :
    ∃ after, follower.requestSendLog args = some (after, ⟨follower.currentTerm, true⟩) ∧
      Raft.AgreesUpTo last.index leader after := by
  rw [h.requestSendLog_eq hrequests]
  cases hlastEntry : args.entries.getLast? with
  | none =>
      have hempty := List.getLast?_eq_none_iff.mp hlastEntry
      obtain ⟨after, hafter, hlog, _⟩ := h.spans.acceptLog_empty hcovered hpasses hempty
      have hprev : args.prevLogIndex = last.index := by
        have hlength := hrequests.length
        rw [hempty, List.length_nil] at hlength
        omega
      have hagrees : Raft.AgreesUpTo last.index leader follower := by
        by_cases habove : first'.index < args.prevLogIndex
        · exact hprev ▸ h.agrees_prev hrequests hpasses habove
        · exact Raft.AgreesUpTo.of_compacted h.spans.hfirst (by omega)
      exact ⟨after, hafter, hagrees.congr rfl hlog⟩
  | some lastEntry =>
      obtain ⟨hindex, hat⟩ := hrequests.lastEntry hlastEntry
      by_cases hbelow : lastEntry.index ≤ first'.index
      · exact ⟨follower, h.spans.acceptLog_below hrequests.numbered hcovered hlastEntry hbelow,
          Raft.AgreesUpTo.of_compacted h.spans.hfirst (by omega)⟩
      · have habove : first'.index < lastEntry.index := Int.not_le.mp hbelow
        obtain ⟨holds, hholds⟩ := h.spans.exists_holdsEntry (Int.le_of_lt habove)
        cases holds with
        | true =>
            obtain ⟨after, hafter, hlog, _⟩ := h.spans.acceptLog_held hrequests.numbered hcovered
              hpasses hlastEntry habove hholds
            obtain ⟨held, hheld, hterm⟩ := Raft.holdsEntry_true hholds
            rw [hindex, ← h.spans.logAt_eq] at hheld
            exact ⟨after, hafter, (h.matching _ _ _ hat hheld hterm).congr rfl hlog⟩
        | false =>
            obtain ⟨after, hafter, _, hfirst, hread⟩ := h.spans.acceptLog_spliced
              hrequests.numbered hcovered hpasses hlastEntry habove hholds
            exact ⟨after, hafter, h.agrees_spliced hrequests hpasses hfirst hread⟩

end Repairs

/-! ## Backing up -/

/-- A leader that starts with `next` and is refused again and again comes to a request that
starts behind the entry: it is the one before `next`, or the last of its term below. -/
def Raft.Tries (leader : Raft n C) (next : Int) (entry : LogEntry C) : Prop :=
  leader.logAt entry.index = some entry ∧ (entry.index + 1 = next ∨ (entry.index + 1 < next ∧
    ∃ above, leader.logAt (entry.index + 1) = some above ∧ above.term ≠ entry.term))

theorem Raft.Tries.congr {rf rf' : Raft n C} {next : Int} {entry : LogEntry C}
    (h : rf.Tries next entry) (hlog : rf'.log = rf.log) : rf'.Tries next entry := by
  simpa only [Raft.Tries, Raft.logAt, Raft.getFirstLog, hlog] using h

/-- Backing up comes to an entry that the follower holds or has compacted. -/
def Raft.Finds (leader follower : Raft n C) (peer : Fin n) (first' : LogEntry C) : Prop :=
  ∃ entry, leader.Tries (leader.nextIndex peer) entry ∧ follower.Aligned entry first'

theorem Spans.low_of_logAt {rf : Raft n C} {first last entry : LogEntry C} {k : Int}
    (h : Spans rf first last) (hread : rf.logAt k = some entry) : first.index ≤ k := by
  rw [h.logAt_eq] at hread
  have hlow := Slice.get_nonneg hread
  omega

/-- What is tried lies in the log, below `next`. -/
theorem Spans.tries_bounds {rf : Raft n C} {first last entry : LogEntry C} {next : Int}
    (h : Spans rf first last) (htries : rf.Tries next entry) :
    first.index ≤ entry.index ∧ entry.index < next := by
  refine ⟨h.low_of_logAt htries.1, ?_⟩
  rcases htries.2 with heq | ⟨hlt, _⟩ <;> omega

/-- Backing up leaves out the entry that was refused, and nothing else. -/
theorem Spans.tries_backsOver {rf : Raft n C} {first last entry : LogEntry C}
    {next index term : Int} (h : Spans rf first last)
    (hbacks : rf.BacksOver first (next - 1) index term) :
    rf.Tries index entry ↔ rf.Tries next entry ∧ entry.index + 1 ≠ next := by
  have hle := hbacks.le
  constructor
  · intro htries
    obtain ⟨hlow, hless⟩ := h.tries_bounds htries
    refine ⟨⟨htries.1, .inr ⟨by omega, ?_⟩⟩, by omega⟩
    rcases htries.2 with heq | ⟨_, hother⟩
    · obtain ⟨held, hheld, hterm⟩ := hbacks.stopped (by omega)
      rw [show index - 1 = entry.index by omega, ← h.logAt_eq] at hheld
      obtain rfl := Option.some.inj (htries.1.symm.trans hheld)
      obtain ⟨above, habove, hsame⟩ := hbacks.passed index (Int.le_refl _) hle
      rw [← h.logAt_eq, ← heq] at habove
      exact ⟨above, habove, fun heq' => hterm (heq'.symm.trans hsame)⟩
    · exact hother
  · rintro ⟨⟨hread, hnext⟩, hne⟩
    obtain ⟨hbelow, above, habove, hterm⟩ := hnext.resolve_left hne
    -- the entry and the one above it have different terms, so the walk cannot pass over both
    have hstop : entry.index + 1 ≤ index := by
      by_contra hgt
      obtain ⟨held, hheld, hheldTerm⟩ := hbacks.passed entry.index (by omega) (by omega)
      obtain ⟨next', hnext', hnextTerm⟩ := hbacks.passed (entry.index + 1) (by omega) (by omega)
      rw [← h.logAt_eq] at hheld hnext'
      obtain rfl := Option.some.inj (hread.symm.trans hheld)
      obtain rfl := Option.some.inj (habove.symm.trans hnext')
      exact hterm (hnextTerm.trans hheldTerm.symm)
    refine ⟨hread, ?_⟩
    rcases Int.lt_or_eq_of_le hstop with hlt | heq
    · exact .inr ⟨hlt, above, habove, hterm⟩
    · exact .inl heq

/-! ## The commit loop behind an answer -/

theorem Raft.matchCount_congr {left right : Fin n → Int} {index : Int}
    (h : ∀ i, index ≤ left i ↔ index ≤ right i) :
    Raft.matchCount left index = Raft.matchCount right index :=
  List.countP_congr fun i _ => decide_eq_true_iff.trans ((h i).trans decide_eq_true_iff.symm)

/-- The loop starts inside the log, or ends at once because no majority holds the log up to
where it starts. -/
theorem Spans.exists_advanceCommit_iff {rf : Raft n C} {first last : LogEntry C}
    (h : Spans rf first last) : (∃ rf', rf.advanceCommit = some rf') ↔
      first.index ≤ rf.commitIndex + 1 ∨
        Raft.matchCount rf.matchIndex (rf.commitIndex + 1) ≤ n / 2 := by
  by_cases hlow : first.index ≤ rf.commitIndex + 1
  · exact iff_of_true (h.exists_advanceCommit hlow) (.inl hlow)
  · have hle := h.le
    obtain ⟨fuel, hfuel⟩ := Nat.exists_eq_succ_of_ne_zero
      (show (last.index - rf.commitIndex).toNat ≠ 0 by omega)
    simp only [Raft.advanceCommit, h.hfirst, h.hlast, hfuel, Raft.commitLoop, Option.bind_eq_bind,
      Option.bind_some]
    rw [if_neg (show ¬ rf.commitIndex + 1 > last.index by omega)]
    by_cases hfew : Raft.matchCount rf.matchIndex (rf.commitIndex + 1) ≤ n / 2
    · simp [hfew]
    · have hnone : rf.commitAt first.index (rf.commitIndex + 1) = none := by
        unfold Raft.commitAt
        rw [if_pos (by omega), Slice.get_of_neg _ (by omega)]
        rfl
      simp [hfew, hlow, hnone]

/-- When `peer` is known to hold the log up to the compaction point, a commit loop of the leader
starts inside the log, or ends at once because no majority holds the log up to where it starts. -/
def Raft.Recounts (leader : Raft n C) (peer : Fin n) (first : LogEntry C) : Prop :=
  first.index ≤ leader.commitIndex + 1 ∨
    Raft.matchCount (Function.update leader.matchIndex peer first.index)
      (leader.commitIndex + 1) ≤ n / 2

/-- The leader has noted that `peer` holds its log up to the compaction point. -/
structure Raft.Notes (leader recorded : Raft n C) (peer : Fin n) (first : LogEntry C) : Prop where
  commit : recorded.commitIndex = leader.commitIndex
  others : ∀ i, i ≠ peer → recorded.matchIndex i = leader.matchIndex i
  reached : first.index ≤ recorded.matchIndex peer

/-- Preparing requests does not touch what is counted. -/
theorem Raft.Prepares.recounts_iff {rf prepared : Raft n C} (h : Raft.Prepares rf prepared)
    {peer : Fin n} {first : LogEntry C} :
    prepared.Recounts peer first ↔ rf.Recounts peer first := by
  rw [h.eq]
  rfl

namespace Raft.Notes

variable {leader recorded answered : Raft n C} {peer : Fin n} {first last : LogEntry C}

theorem recounts_iff (h : leader.Notes recorded peer first) :
    recorded.Recounts peer first ↔ leader.Recounts peer first := by
  have hmatch : Function.update recorded.matchIndex peer first.index =
      Function.update leader.matchIndex peer first.index := by
    funext i
    by_cases hi : i = peer
    · rw [hi, Function.update_self, Function.update_self]
    · rw [Function.update_of_ne hi, Function.update_of_ne hi, h.others i hi]
  rw [Raft.Recounts, Raft.Recounts, h.commit, hmatch]

theorem exists_advanceCommit_iff (h : leader.Notes recorded peer first)
    (hspans : Spans recorded first last) :
    (∃ answered, recorded.advanceCommit = some answered) ↔ leader.Recounts peer first := by
  rw [hspans.exists_advanceCommit_iff, ← h.recounts_iff, Raft.Recounts]
  refine or_congr_right' fun hbehind => ?_
  rw [Raft.matchCount_congr fun i => ?_]
  by_cases hi : i = peer
  · have hreached := h.reached
    rw [hi, Function.update_self]
    omega
  · rw [Function.update_of_ne hi]

/-- An index that is committed lies above the compaction point. -/
theorem recounts (h : leader.Notes recorded peer first) (hspans : Spans recorded first last)
    (hadvanced : recorded.advanceCommit = some answered) : answered.Recounts peer first := by
  obtain ⟨hcommits, hcases⟩ := Raft.advanceCommit_cases hadvanced
  rcases hcases with hsame | ⟨base, _, hbase, _, _, _, hcountable⟩
  · have hrecounts : recorded.Recounts peer first :=
      h.recounts_iff.mpr ((h.exists_advanceCommit_iff hspans).mp ⟨_, hadvanced⟩)
    rw [Raft.Recounts, hsame, show answered.matchIndex = recorded.matchIndex by rw [hcommits.eq]]
    exact hrecounts
  · obtain rfl := Option.some.inj (hspans.hfirst.symm.trans hbase)
    obtain ⟨_, entry, hentry, _⟩ := hcountable
    have hlow := Slice.get_nonneg hentry
    exact .inl (by omega)

end Raft.Notes

namespace Repairs

variable {me peer : Fin n} {leader follower : Raft n C} {first last first' last' : LogEntry C}
  {index : Int} {args : SendLogArgs n C}

/-! ## The answer -/

theorem relead (h : Repairs me peer leader follower first last first' last') {leader' : Raft n C}
    (hstate : leader'.state = leader.state) (hterm : leader'.currentTerm = leader.currentTerm)
    (hlog : leader'.log = leader.log)
    (hnext : ∀ i, 0 ≤ leader'.nextIndex i ∧ leader'.nextIndex i ≤ last.index + 1) :
    Repairs me peer leader' follower first last first' last' where
  other := h.other
  leading := hstate.trans h.leading
  sameTerm := h.sameTerm.trans hterm.symm
  sendable := ⟨h.sendable.spans.of_log hlog, h.sendable.base, h.sendable.initial, hnext⟩
  numbered := by
    rw [hlog]
    exact h.numbered
  spans := h.spans
  base := h.base
  matching := by
    intro k entry entry' hentry hentry' hsame
    simp only [Raft.logAt, Raft.getFirstLog, hlog] at hentry
    exact (h.matching k entry entry' hentry hentry' hsame).congr hlog rfl

theorem prepares (h : Repairs me peer leader follower first last first' last')
    {prepared : Raft n C} (hprepares : Raft.Prepares leader prepared) :
    Repairs me peer prepared follower first last first' last' := by
  have hnext := (h.sendable.prepares hprepares).next
  have heq := hprepares.eq
  exact h.relead (by rw [heq]) (by rw [heq]) (by rw [heq]) hnext

theorem exists_job (h : Repairs me peer leader follower first last first' last') :
    ∃ prepared jobs job, leader.sendLogTicketCore me = some (prepared, jobs) ∧
      Raft.Prepares leader prepared ∧ jobs.find? (fun job => job.peer = peer) = some job ∧
      Job leader me peer first last prepared job := by
  obtain ⟨prepared, jobs, job, hrun, hrest⟩ := h.sendable.exists_prepareSends_job h.other
    (List.mem_finRange peer) (List.nodup_finRange n)
  refine ⟨prepared, jobs, job, ?_, hrest⟩
  unfold Raft.sendLogTicketCore
  rw [if_neg (fun hnot => hnot h.leading)]
  exact hrun

/-- A refusal backs the leader up. -/
theorem backs (h : Repairs me peer leader follower first last first' last')
    (hterm : args.term = leader.currentTerm) (hnext : leader.nextIndex peer = index)
    (hlow : first.index < index) :
    ∃ answered, leader.handleSendLogReply peer args index ⟨leader.currentTerm, false⟩ =
        some answered ∧
      Repairs me peer answered follower first last first' last' ∧
      (answered.Recounts peer first ↔ leader.Recounts peer first) ∧
      answered.nextIndex peer < index ∧ ∀ entry, leader.Tries (answered.nextIndex peer) entry ↔
        leader.Tries index entry ∧ entry.index + 1 ≠ index := by
  obtain ⟨answered, hback⟩ := h.sendable.spans.exists_backUp peer
  obtain ⟨base, top, stop, hbase, htop, rfl, hstop, hcases⟩ := Raft.backUp_retreats hback
  obtain rfl := Option.some.inj (h.sendable.spans.hfirst.symm.trans hbase)
  obtain rfl := Option.some.inj (h.sendable.spans.hlast.symm.trans htop)
  have hbounds := h.sendable.base
  have hle := h.sendable.spans.le
  have hhigh := (h.sendable.next peer).2
  rw [show min (leader.nextIndex peer - 1) last.index = index - 1 by omega] at hcases
  have hless : stop < index := by
    rcases hcases with ⟨_, rfl⟩ | ⟨_, hbacks⟩
    · exact hlow
    · have hbelow := hbacks.le
      omega
  refine ⟨leader.setNextIndex peer stop, ?_,
    h.relead rfl rfl rfl fun i => ?_, Iff.rfl, ?_, fun entry => ?_⟩
  · unfold Raft.handleSendLogReply
    rw [if_neg (Int.lt_irrefl _), if_pos ⟨h.leading, hterm.symm⟩, if_neg Bool.false_ne_true,
      if_pos hnext]
    exact hback
  · by_cases hi : i = peer
    · subst hi
      simp only [Raft.setNextIndex, Function.update_self]
      omega
    · simpa [Raft.setNextIndex, hi] using h.sendable.next i
  · simpa [Raft.setNextIndex] using hless
  · simp only [Raft.setNextIndex, Function.update_self]
    rcases hcases with ⟨hbottom, rfl⟩ | ⟨term, hbacks⟩
    · -- nothing lies below the first entry, which was refused
      constructor
      · intro htries
        have hrange := h.sendable.spans.tries_bounds htries
        omega
      · rintro ⟨htries, hne⟩
        have hrange := h.sendable.spans.tries_bounds htries
        omega
    · exact h.sendable.spans.tries_backsOver hbacks

/-- The answer to a request that was taken in can be handled if the commit loop behind it can be
run. -/
theorem exists_handleSendLogReply (h : Repairs me peer leader follower first last first' last')
    (hrequests : Requests leader last index args) (hlow : first.index < index)
    (hrecounts : leader.Recounts peer first) :
    ∃ answered, leader.handleSendLogReply peer args index ⟨leader.currentTerm, true⟩ =
      some answered := by
  unfold Raft.handleSendLogReply
  rw [if_neg (Int.lt_irrefl _), if_pos ⟨h.leading, hrequests.term.symm⟩, if_pos rfl]
  cases hlastEntry : args.entries.getLast? with
  | none => exact ⟨leader, rfl⟩
  | some lastEntry =>
      have hpos := List.length_pos_of_mem (List.mem_of_getLast? hlastEntry)
      have hindex := (hrequests.lastEntry hlastEntry).1
      have hlength := hrequests.length
      have hprev := hrequests.prev
      have hnotes : leader.Notes (leader.recordMatch peer lastEntry) peer first := by
        refine ⟨rfl, fun i hi => Function.update_of_ne hi _ _, ?_⟩
        simp only [Raft.recordMatch, Raft.setMatchIndex, Raft.setNextIndex, Function.update_self]
        split <;> omega
      exact (hnotes.exists_advanceCommit_iff (h.sendable.spans.of_log rfl)).mpr hrecounts

/-- The answer to a snapshot is always followed by the commit loop. -/
theorem handleSnapShotReply_eq (h : Repairs me peer leader follower first last first' last')
    {request : RequestSnapShotArgs n} (hterm : request.term = leader.currentTerm)
    (hindex : request.lastIncludedIndex = first.index) :
    leader.handleSnapShotReply peer request (leader.nextIndex peer) (leader.matchIndex peer)
        ⟨leader.currentTerm⟩ =
      (leader.recordSnapShot peer (leader.nextIndex peer) (leader.matchIndex peer)
        first.index).advanceCommit := by
  unfold Raft.handleSnapShotReply
  rw [if_neg (Int.lt_irrefl _), if_pos ⟨h.leading, hterm.symm⟩, hindex]

theorem notes_recordSnapShot (leader : Raft n C) (peer : Fin n) (first : LogEntry C) :
    leader.Notes (leader.recordSnapShot peer (leader.nextIndex peer) (leader.matchIndex peer)
      first.index) peer first := by
  refine ⟨rfl, fun i hi => (Raft.recordSnapShot_others hi _ _ _).2, ?_⟩
  simp only [Raft.recordSnapShot, Raft.setMatchIndex, Function.update_self, true_and]
  split <;> omega

/-! ## Rounds -/

/-- The pair after a successful round. -/
def Repaired (me peer : Fin n) (leader follower : Raft n C) (last : LogEntry C) : Prop :=
  ∃ answered taken, Raft.exchange me peer leader follower = some (answered, taken, true) ∧
    Raft.AgreesUpTo last.index leader taken

/-- A round whose request is taken in succeeds if its answer can be handled. -/
theorem exchange_taken (h : Repairs me peer leader follower first last first' last')
    {prepared : Raft n C} {jobs : List (SendJob n C)}
    (hrun : leader.sendLogTicketCore me = some (prepared, jobs))
    (hprepares : Raft.Prepares leader prepared)
    (hfind : jobs.find? (fun job => job.peer = peer) = some (.log peer args index))
    (hlow : first.index < index) (hrequests : Requests leader last index args)
    (htaken : args.prevLogIndex ≤ last'.index ∧ follower.Passes first' args) :
    (leader.Recounts peer first → Repaired me peer leader follower last) ∧
    (∃ taken, Raft.accepted me peer leader follower = some taken ∧
      Raft.AgreesUpTo last.index leader taken) ∧
    ∀ answered taken, Raft.exchange me peer leader follower ≠ some (answered, taken, false) := by
  have hprepared := h.prepares hprepares
  obtain ⟨after, hafter, hagrees⟩ := h.taken hrequests htaken.1 htaken.2
  rw [hprepared.sameTerm] at hafter
  have hexchange : Raft.exchange me peer leader follower =
      (prepared.handleSendLogReply peer args index ⟨prepared.currentTerm, true⟩).bind
        fun answered => some (answered, after, true) := by
    simp only [Raft.exchange, hrun, hfind, hafter, Option.bind_eq_bind, Option.bind_some]
  refine ⟨fun hrecounts => ?_, ⟨after, ?_, hagrees⟩, fun answered taken hfails => ?_⟩
  · obtain ⟨answered, hanswered⟩ := hprepared.exists_handleSendLogReply
      (hrequests.prepares hprepares) hlow (hprepares.recounts_iff.mpr hrecounts)
    refine ⟨answered, after, ?_, hagrees⟩
    rw [hexchange, hanswered, Option.bind_some]
  · simp only [Raft.accepted, hrun, hfind, hafter, Option.bind_eq_bind, Option.bind_some, if_true]
  · rw [hexchange] at hfails
    obtain ⟨_, _, hfails⟩ := Option.bind_eq_some_iff.mp hfails
    cases hfails

/-- In a round whose request is refused the leader backs up. -/
theorem exchange_refused (h : Repairs me peer leader follower first last first' last')
    {prepared : Raft n C} {jobs : List (SendJob n C)}
    (hrun : leader.sendLogTicketCore me = some (prepared, jobs))
    (hprepares : Raft.Prepares leader prepared)
    (hfind : jobs.find? (fun job => job.peer = peer) = some (.log peer args index))
    (hlow : first.index < index) (hnext : prepared.nextIndex peer = index)
    (hrequests : Requests leader last index args)
    (hfails : ¬ (args.prevLogIndex ≤ last'.index ∧ follower.Passes first' args)) :
    Raft.accepted me peer leader follower = none ∧
    ∃ answered, Raft.exchange me peer leader follower = some (answered, follower, false) ∧
      answered.log = leader.log ∧ Repairs me peer answered follower first last first' last' ∧
      (answered.Recounts peer first ↔ leader.Recounts peer first) ∧
      answered.nextIndex peer < index ∧ ∀ entry, leader.Tries (answered.nextIndex peer) entry ↔
        leader.Tries index entry ∧ entry.index + 1 ≠ index := by
  have hprepared := h.prepares hprepares
  have hlog : prepared.log = leader.log := by rw [hprepares.eq]
  have hterm : prepared.currentTerm = leader.currentTerm := by rw [hprepares.eq]
  have hrefused : last'.index < args.prevLogIndex ∨ ¬ follower.Passes first' args := by
    by_cases hcovered : args.prevLogIndex ≤ last'.index
    · exact Or.inr fun hpasses => hfails ⟨hcovered, hpasses⟩
    · exact Or.inl (Int.not_le.mp hcovered)
  have hanswer : follower.requestSendLog args = some (follower, ⟨prepared.currentTerm, false⟩) := by
    rw [h.requestSendLog_eq hrequests, hprepared.sameTerm.symm]
    exact h.spans.acceptLog_refused hrefused
  obtain ⟨answered, hanswered, hrepairs, hrecounts, hless, htries⟩ :=
    hprepared.backs (hrequests.term.trans hterm.symm) hnext hlow
  constructor
  · simp only [Raft.accepted, hrun, hfind, hanswer, Option.bind_eq_bind, Option.bind_some,
      Bool.false_eq_true, if_false]
  · refine ⟨answered, ?_, (KeepsLog.handleSendLogReply hanswered).log.trans hlog, hrepairs,
      hrecounts.trans hprepares.recounts_iff, hless, fun entry => ?_⟩
    · simp only [Raft.exchange, hrun, hfind, hanswer, hanswered, Option.bind_eq_bind,
        Option.bind_some]
    · have hsame := htries entry
      simp only [Raft.Tries, Raft.logAt, Raft.getFirstLog, hlog] at hsame ⊢
      exact hsame

/-- A follower that holds the entry of a snapshot, or has compacted past it, is aligned. -/
theorem aligned_of_covers {request : RequestSnapShotArgs n} (hspans : Spans follower first' last')
    (covers : follower.coversSnapShot request = some true)
    (hindex : request.lastIncludedIndex = first.index)
    (hterm : request.lastIncludedTerm = first.term) : follower.Aligned first first' := by
  obtain ⟨base, top, hbase, _, hcases⟩ := Raft.coversSnapShot_cases covers
  obtain rfl := Option.some.inj (hspans.hfirst.symm.trans hbase)
  rw [hindex, hterm] at hcases
  rcases hcases with ⟨hle, _⟩ | ⟨_, _, held, hheld, hsame⟩ | ⟨_, _, hfalse⟩
  · exact Or.inl hle
  · exact Or.inr ⟨held, (hspans.logAt_eq _).trans hheld, hsame.mp rfl⟩
  · cases hfalse

/-- A request is taken in exactly if the follower is aligned with the entry it starts behind. -/
theorem taken_iff (h : Repairs me peer leader follower first last first' last')
    (hrequests : Requests leader last index args) {preLog : LogEntry C}
    (hpre : leader.logAt (index - 1) = some preLog) (hindex : preLog.index = index - 1) :
    args.prevLogIndex ≤ last'.index ∧ follower.Passes first' args ↔
      follower.Aligned preLog first' := by
  obtain ⟨sent, hsent, hterm⟩ := hrequests.prevTerm
  obtain rfl := Option.some.inj (hsent.symm.trans hpre)
  exact h.spans.passes_iff_aligned (hrequests.prev.trans hindex.symm) hterm.symm

/-- The snapshot of the leader aligns the follower, which keeps its log or starts a new one. -/
theorem installs (h : Repairs me peer leader follower first last first' last')
    {request : RequestSnapShotArgs n} (hterm : request.term = leader.currentTerm)
    (hindex : request.lastIncludedIndex = first.index)
    (hbaseTerm : request.lastIncludedTerm = first.term) :
    ∃ installed base top,
      follower.requestInstallSnapShot request = some (installed, ⟨leader.currentTerm⟩) ∧
      Repairs me peer leader installed first last base top ∧ installed.Aligned first base := by
  have hcaught : follower.catchUp request.term = follower := by
    simp [Raft.catchUp, hterm, h.sameTerm]
  obtain ⟨⟨installed, reply⟩, hrun⟩ := h.spans.exists_requestInstallSnapShot request
  have houtcome := Raft.requestInstallSnapShot_outcome hrun
  rw [← h.sameTerm]
  cases houtcome with
  | stale lower =>
      rw [hterm, h.sameTerm] at lower
      exact absurd lower (Int.lt_irrefl _)
  | covered _ covers =>
      rw [hcaught] at covers hrun
      have haligned := aligned_of_covers h.spans covers hindex hbaseTerm
      refine ⟨_, first', last', hrun, ?_, haligned⟩
      exact {
        h with
        sameTerm := h.sameTerm
        spans := h.spans.of_log rfl
        matching := h.matching }
  | replaced _ _ =>
      rw [hcaught, Raft.replaceLog, hindex, hbaseTerm] at hrun
      refine ⟨_, ⟨first.term, first.index, none⟩, ⟨first.term, first.index, none⟩, hrun, ?_,
        Or.inl (Int.le_refl _)⟩
      exact {
        h with
        sameTerm := h.sameTerm
        spans := ⟨rfl, rfl, by simp [Raft.persist]⟩
        base := h.sendable.base
        matching := by
          intro k entry entry' _ hentry' _
          refine Raft.AgreesUpTo.of_compacted rfl ?_
          have hbound : k - first.index < 1 := Slice.get_lt_length hentry'
          exact Int.le_of_sub_nonpos (Int.lt_add_one_iff.mp hbound) }

/-- The answer to the snapshot moves `nextIndex` behind it. -/
theorem records (h : Repairs me peer leader follower first last first' last')
    (hlow : leader.nextIndex peer ≤ first.index) {answered : Raft n C}
    (hadvanced : (leader.recordSnapShot peer (leader.nextIndex peer) (leader.matchIndex peer)
      first.index).advanceCommit = some answered) :
    answered.log = leader.log ∧ Repairs me peer answered follower first last first' last' ∧
      answered.nextIndex peer = first.index + 1 := by
  have hle := h.sendable.spans.le
  have hbase := h.sendable.base
  have hcommits := (Raft.advanceCommit_cases hadvanced).1
  have hnext : answered.nextIndex peer = first.index + 1 := by
    rw [hcommits.eq]
    simp only [Raft.recordSnapShot, Raft.setNextIndex, Raft.setMatchIndex, Function.update_self]
    rw [if_pos ⟨trivial, by omega⟩]
  refine ⟨?_, h.relead ?_ ?_ ?_ fun i => ?_, hnext⟩
  · rw [hcommits.eq]
    rfl
  · rw [hcommits.eq]
    rfl
  · rw [hcommits.eq]
    rfl
  · rw [hcommits.eq]
    rfl
  · by_cases hi : i = peer
    · rw [hi, hnext]
      omega
    · have hkept : answered.nextIndex i = leader.nextIndex i := by
        rw [hcommits.eq]
        exact (Raft.recordSnapShot_others hi _ (leader.matchIndex peer) _).1
      rw [hkept]
      exact h.sendable.next i

/-- A round with a snapshot aligns the follower and moves `nextIndex` behind the snapshot, if the
commit loop behind the answer can be run. -/
theorem exchange_snapShot (h : Repairs me peer leader follower first last first' last')
    {prepared : Raft n C} {jobs : List (SendJob n C)}
    (hrun : leader.sendLogTicketCore me = some (prepared, jobs))
    (hprepares : Raft.Prepares leader prepared)
    (hfind : jobs.find? (fun job => job.peer = peer) = some (.snapShot peer))
    (hlow : prepared.nextIndex peer ≤ first.index) :
    (leader.Recounts peer first → ∃ answered installed base top,
      Raft.exchange me peer leader follower = some (answered, installed, false) ∧
      answered.log = leader.log ∧ Repairs me peer answered installed first last base top ∧
      answered.Recounts peer first ∧ answered.nextIndex peer = first.index + 1 ∧
      installed.Aligned first base) ∧
    (¬ leader.Recounts peer first → Raft.exchange me peer leader follower = none) := by
  have hprepared := h.prepares hprepares
  have hlog : prepared.log = leader.log := by rw [hprepares.eq]
  let request : RequestSnapShotArgs n :=
    ⟨prepared.currentTerm, me, first.index, first.term, prepared.snapshot⟩
  have hsend : prepared.sendSnapShot me peer =
      some (some (request, prepared.nextIndex peer, prepared.matchIndex peer)) := by
    unfold Raft.sendSnapShot
    rw [if_neg (fun hnot => hnot hprepared.leading), hprepared.sendable.spans.hfirst]
    rfl
  obtain ⟨installed, base, top, hinstalled, hpair, haligned⟩ := hprepared.installs
    (show request.term = prepared.currentTerm from rfl) rfl rfl
  have hanswer := hpair.handleSnapShotReply_eq
    (show request.term = prepared.currentTerm from rfl) rfl
  have hnotes := notes_recordSnapShot prepared peer first
  have hspans : Spans (prepared.recordSnapShot peer (prepared.nextIndex peer)
    (prepared.matchIndex peer) first.index) first last := hpair.sendable.spans.of_log rfl
  have hadvances := (hnotes.exists_advanceCommit_iff hspans).trans hprepares.recounts_iff
  constructor
  · intro hcounts
    obtain ⟨answered, hadvanced⟩ := hadvances.mpr hcounts
    obtain ⟨hkept, hrepairs, hnext⟩ := hpair.records hlow hadvanced
    refine ⟨answered, installed, base, top, ?_, hkept.trans hlog, hrepairs,
      hnotes.recounts hspans hadvanced, hnext, haligned⟩
    simp only [Raft.exchange, hrun, hfind, hsend, hinstalled, hanswer, hadvanced,
      Option.bind_eq_bind, Option.bind_some]
  · intro hcounts
    have hnone : (prepared.recordSnapShot peer (prepared.nextIndex peer)
        (prepared.matchIndex peer) first.index).advanceCommit = none :=
      Option.eq_none_iff_forall_ne_some.mpr fun answered hadvanced =>
        hcounts (hadvances.mp ⟨answered, hadvanced⟩)
    simp only [Raft.exchange, hrun, hfind, hsend, hinstalled, hanswer, hnone,
      Option.bind_eq_bind, Option.bind_some, Option.bind_none]

/-- The entry behind which a request starts is tried. -/
theorem exists_prev (h : Repairs me peer leader follower first last first' last')
    (hrequests : Requests leader last index args) :
    ∃ preLog, preLog.index + 1 = index ∧ leader.Tries index preLog ∧
      (args.prevLogIndex ≤ last'.index ∧ follower.Passes first' args ↔
        follower.Aligned preLog first') := by
  obtain ⟨preLog, hpre, _⟩ := hrequests.prevTerm
  have hindex : preLog.index = index - 1 := by
    have hread := (h.sendable.spans.logAt_eq _).symm.trans hpre
    have hlow := Slice.get_nonneg hread
    have hnumbered := h.numbered _ preLog (Slice.read_of_get hread)
    omega
  refine ⟨preLog, by omega, ⟨?_, .inl (by omega)⟩, h.taken_iff hrequests hpre hindex⟩
  rw [hindex]
  exact hpre

/-- What a round can be.  The snapshot is sent, or a request that the follower takes in because it
is aligned with the entry before, or one that it refuses, and then the leader backs up. -/
inductive Round (me peer : Fin n) (leader follower : Raft n C)
    (first last first' last' : LogEntry C) : Prop where
  | snapShot (low : leader.nextIndex peer ≤ first.index)
      (unaccepted : Raft.accepted me peer leader follower = none)
      (installs : leader.Recounts peer first → ∃ answered installed base top,
        Raft.exchange me peer leader follower = some (answered, installed, false) ∧
        answered.log = leader.log ∧ Repairs me peer answered installed first last base top ∧
        answered.Recounts peer first ∧ answered.nextIndex peer = first.index + 1 ∧
        installed.Aligned first base)
      (panics : ¬ leader.Recounts peer first → Raft.exchange me peer leader follower = none)
  | taken {preLog : LogEntry C} {after : Raft n C}
      (tries : first.term ≠ -1 → leader.Tries (leader.nextIndex peer) preLog)
      (aligned : follower.Aligned preLog first')
      (accepted : Raft.accepted me peer leader follower = some after)
      (agrees : Raft.AgreesUpTo last.index leader after)
      (repaired : leader.Recounts peer first → Repaired me peer leader follower last)
      (succeeds : ∀ answered after,
        Raft.exchange me peer leader follower ≠ some (answered, after, false))
  | refused {preLog : LogEntry C} {answered : Raft n C}
      (prev : preLog.index + 1 = leader.nextIndex peer)
      (read : leader.logAt preLog.index = some preLog)
      (unaligned : ¬ follower.Aligned preLog first')
      (unaccepted : Raft.accepted me peer leader follower = none)
      (exchanged : Raft.exchange me peer leader follower = some (answered, follower, false))
      (log : answered.log = leader.log)
      (repairs : Repairs me peer answered follower first last first' last')
      (recounts : answered.Recounts peer first ↔ leader.Recounts peer first)
      (less : answered.nextIndex peer < leader.nextIndex peer)
      (tries : ∀ entry, leader.Tries (answered.nextIndex peer) entry ↔
        leader.Tries (leader.nextIndex peer) entry ∧ entry.index + 1 ≠ leader.nextIndex peer)

theorem round (h : Repairs me peer leader follower first last first' last') :
    Round me peer leader follower first last first' last' := by
  obtain ⟨prepared, jobs, job, hrun, hprepares, hfind, hjob⟩ := h.exists_job
  cases hjob with
  | snapShot _ low next =>
      obtain ⟨hinstalls, hpanics⟩ := h.exchange_snapShot hrun hprepares hfind (by omega)
      refine .snapShot low ?_ hinstalls hpanics
      simp only [Raft.accepted, hrun, hfind, Option.bind_eq_bind, Option.bind_some]
  | @log index args low high kept builds next =>
      have hrequests := h.sendable.spans.requests h.numbered low high builds
      obtain ⟨preLog, hprev, htries, hiff⟩ := h.exists_prev hrequests
      by_cases haligned : follower.Aligned preLog first'
      · obtain ⟨hrepaired, ⟨after, haccepted, hagrees⟩, hsucceeds⟩ :=
          h.exchange_taken hrun hprepares hfind low hrequests (hiff.mpr haligned)
        refine .taken (fun hcompacted => ?_) haligned haccepted hagrees hrepaired hsucceeds
        obtain rfl := kept.resolve_right fun hstart => hcompacted hstart.1
        exact htries
      · -- a request from the very start of the log is not refused
        obtain rfl : index = leader.nextIndex peer := by
          refine kept.resolve_right fun hstart => haligned (.inl ?_)
          have hzero := h.sendable.initial hstart.1
          have hbase := h.base
          omega
        obtain ⟨hunaccepted, answered, hexchange, hlog, hrepairs, hrecounts, hless, hremain⟩ :=
          h.exchange_refused hrun hprepares hfind low next hrequests (hiff.not.mpr haligned)
        exact .refused hprev htries.1 haligned hunaccepted hexchange hlog hrepairs hrecounts hless
          hremain

/-- From the compaction point of the leader on, an aligned follower takes everything in. -/
theorem exchange_aligned (h : Repairs me peer leader follower first last first' last')
    (haligned : follower.Aligned first first') (hrecounts : leader.Recounts peer first)
    (hnext : leader.nextIndex peer = first.index + 1) :
    Repaired me peer leader follower last := by
  cases h.round with
  | snapShot low => omega
  | taken _ _ _ _ repaired _ => exact repaired hrecounts
  | @refused preLog _ prev read unaligned =>
      have hindex : preLog.index = first.index := by omega
      rw [hindex, h.sendable.spans.logAt_eq, Int.sub_self] at read
      obtain rfl := Option.some.inj (h.sendable.spans.hfirst.symm.trans read)
      exact absurd haligned unaligned

/-- Exchanges come to a successful request, and the bound falls with every refusal. -/
theorem converges (h : Repairs me peer leader follower first last first' last')
    (hrecounts : leader.Recounts peer first) :
    ∃ rounds, rounds ≤ (leader.nextIndex peer - first.index).toNat + 2 ∧ ∃ answered taken,
      Raft.exchanges me peer rounds leader follower = some (answered, taken, true) ∧
      Raft.AgreesUpTo last.index leader taken := by
  generalize hmeasure : (leader.nextIndex peer - first.index).toNat = measure
  induction measure using Nat.strongRecOn generalizing leader with
  | ind measure ih =>
      cases h.round with
      | snapShot _ _ installs _ =>
          obtain ⟨mid, installed, base, top, hexchange, hkept, hrepairs, hcounts, hnext,
            haligned⟩ := installs hrecounts
          obtain ⟨answered, taken, hlast, hagrees⟩ :=
            hrepairs.exchange_aligned haligned hcounts hnext
          refine ⟨2, by omega, answered, taken, ?_, hagrees.congr hkept.symm rfl⟩
          simp only [Raft.exchanges, hexchange, hlast, Option.bind_eq_bind, Option.bind_some,
            if_true, Bool.false_eq_true, if_false]
      | taken _ _ _ _ repaired _ =>
          obtain ⟨answered, taken, hexchange, hagrees⟩ := repaired hrecounts
          refine ⟨1, by omega, answered, taken, ?_, hagrees⟩
          simp only [Raft.exchanges, hexchange, Option.bind_eq_bind, Option.bind_some, if_true]
      | refused prev read _ _ exchanged log repairs recounts less _ =>
          have hlow := h.sendable.spans.low_of_logAt read
          obtain ⟨rounds, hrounds, answered, taken, hlast, hagrees⟩ :=
            ih _ (by omega) repairs (recounts.mpr hrecounts) rfl
          refine ⟨rounds + 1, by omega, answered, taken, ?_, hagrees.congr log.symm rfl⟩
          simp only [Raft.exchanges, exchanged, hlast, Option.bind_eq_bind, Option.bind_some,
            Bool.false_eq_true, if_false]

/-- Backing up comes to an entry that the follower holds before a snapshot is sent. -/
theorem finds_accepted (h : Repairs me peer leader follower first last first' last')
    (hfinds : leader.Finds follower peer first') :
    ∃ rounds, rounds ≤ (leader.nextIndex peer - first.index).toNat ∧ ∃ mid taken,
      Raft.exchanges me peer rounds leader follower = some (mid, follower, false) ∧
      Raft.accepted me peer mid follower = some taken ∧
      Raft.AgreesUpTo last.index leader taken := by
  obtain ⟨entry, htries, haligned⟩ := hfinds
  generalize hmeasure : (leader.nextIndex peer - first.index).toNat = measure
  induction measure using Nat.strongRecOn generalizing leader with
  | ind measure ih =>
      have hbounds := h.sendable.spans.tries_bounds htries
      cases h.round with
      | snapShot low => omega
      | @taken _ after _ _ accepted agrees _ _ =>
          exact ⟨0, Nat.zero_le _, leader, after, rfl, accepted, agrees⟩
      | @refused preLog _ prev read unaligned _ exchanged log repairs _ less tries =>
          have hother : entry.index + 1 ≠ leader.nextIndex peer := by
            intro heq
            have hsame : entry.index = preLog.index := by omega
            obtain rfl := Option.some.inj (htries.1.symm.trans (hsame ▸ read))
            exact unaligned haligned
          obtain ⟨rounds, hrounds, mid, taken, hlater, haccepted, hagrees⟩ :=
            ih _ (by omega) repairs (((tries entry).mpr ⟨htries, hother⟩).congr log) rfl
          refine ⟨rounds + 1, by omega, mid, taken, ?_, haccepted, hagrees.congr log.symm rfl⟩
          simp only [Raft.exchanges, exchanged, hlater, Option.bind_eq_bind, Option.bind_some,
            Bool.false_eq_true, if_false]

/-- Without a commit loop that can be run, no request comes after a snapshot, so what is accepted
starts behind an entry that backing up comes to. -/
theorem finds_of_accepted (h : Repairs me peer leader follower first last first' last')
    (hcompacted : first.term ≠ -1) (hrecounts : ¬ leader.Recounts peer first) {rounds : Nat}
    {mid other taken : Raft n C}
    (hbefore : Raft.exchanges me peer rounds leader follower = some (mid, other, false))
    (haccepted : Raft.accepted me peer mid other = some taken) :
    leader.Finds follower peer first' := by
  induction rounds generalizing leader with
  | zero =>
      cases hbefore
      cases h.round with
      | snapShot _ unaccepted | refused _ _ _ unaccepted =>
          rw [unaccepted] at haccepted
          cases haccepted
      | taken tries aligned => exact ⟨_, tries hcompacted, aligned⟩
  | succ rounds ih =>
      simp only [Raft.exchanges] at hbefore
      obtain ⟨⟨answered, after, succeeded⟩, hexchange, hbefore⟩ :=
        Option.bind_eq_some_iff.mp hbefore
      cases succeeded with
      | true => cases hbefore
      | false =>
          cases h.round with
          | snapShot _ _ _ panics =>
              rw [panics hrecounts] at hexchange
              cases hexchange
          | taken _ _ _ _ _ succeeds => exact absurd hexchange (succeeds answered after)
          | refused _ _ _ _ exchanged log repairs recounts _ tries =>
              rw [exchanged] at hexchange
              cases hexchange
              obtain ⟨entry, htries, haligned⟩ := ih repairs (recounts.not.mpr hrecounts) hbefore
              exact ⟨entry, ((tries entry).mp (htries.congr log.symm)).1, haligned⟩

end Repairs

/-- A leader and a follower of its term, with any logs that match and any compaction points: from
every `nextIndex` in range, exchanges come to a request that is accepted, and the follower then
agrees with the leader's log to its end.  This is so exactly if the leader can run its commit loop
when it counts the follower, or comes to an entry that the follower holds before it has to send
its snapshot; in the first case it can handle the answer too. -/
theorem log_repair_converges {me peer : Fin n} {leader follower : Raft n C}
    {first last first' : LogEntry C} (hother : peer ≠ me) (hleading : leader.state = .leader)
    (hterm : follower.currentTerm = leader.currentTerm)
    (hfirst : leader.getFirstLog = some first) (hlast : leader.getLastLog = some last)
    (hfirst' : follower.getFirstLog = some first')
    (hlog : Consecutive first.index leader.log) (hlog' : Consecutive first'.index follower.log)
    (hbase : 0 ≤ first.index) (hbase' : 0 ≤ first'.index)
    (hinitial : first.term = -1 → first.index = 0) (hmatching : leader.Matching follower)
    (hcommit : 0 ≤ leader.commitIndex)
    (hnext : ∀ i, 0 ≤ leader.nextIndex i ∧ leader.nextIndex i ≤ last.index + 1) :
    (leader.Recounts peer first ∨ leader.Finds follower peer first' →
      ∃ rounds, rounds ≤ (leader.nextIndex peer - first.index).toNat + 1 ∧ ∃ mid other taken,
        Raft.exchanges me peer rounds leader follower = some (mid, other, false) ∧
        Raft.accepted me peer mid other = some taken ∧
        Raft.AgreesUpTo last.index leader taken ∧
        (leader.Recounts peer first →
          ∃ answered, Raft.exchange me peer mid other = some (answered, taken, true))) ∧
    ∀ rounds mid other taken,
      Raft.exchanges me peer rounds leader follower = some (mid, other, false) →
      Raft.accepted me peer mid other = some taken →
      leader.Recounts peer first ∨ leader.Finds follower peer first' := by
  have hne : follower.log ≠ [] := by
    intro hnil
    rw [Raft.getFirstLog_eq, hnil] at hfirst'
    cases hfirst'
  obtain ⟨last', hlast'⟩ := Raft.exists_getLastLog hne
  have hrepairs : Repairs me peer leader follower first last first' last' := {
    other := hother
    leading := hleading
    sameTerm := hterm
    sendable := ⟨spans_of_consecutive hfirst hlast hlog, hbase, hinitial, hnext⟩
    numbered := hlog
    spans := spans_of_consecutive hfirst' hlast' hlog'
    base := hbase'
    matching := hmatching }
  by_cases hrecounts : leader.Recounts peer first
  · refine ⟨fun _ => ?_, fun _ _ _ _ _ _ => .inl hrecounts⟩
    obtain ⟨rounds, hrounds, answered, taken, hrun, hagrees⟩ := hrepairs.converges hrecounts
    obtain ⟨before, mid, other, hless, hbefore, hlast⟩ := Raft.before_success hrun
    exact ⟨before, by omega, mid, other, taken, hbefore, Raft.accepted_of_exchange hlast, hagrees,
      fun _ => ⟨answered, hlast⟩⟩
  · have hcompacted : first.term ≠ -1 := fun hnone => by
      have hbehind := Int.not_le.mp (not_or.mp hrecounts).1
      have hzero := hinitial hnone
      omega
    refine ⟨fun hcan => ?_, fun _ _ _ _ hbefore haccepted =>
      .inr (hrepairs.finds_of_accepted hcompacted hrecounts hbefore haccepted)⟩
    obtain ⟨rounds, hrounds, mid, taken, hbefore, haccepted, hagrees⟩ :=
      hrepairs.finds_accepted (hcan.resolve_left hrecounts)
    exact ⟨rounds, by omega, mid, follower, taken, hbefore, haccepted, hagrees,
      fun hcounts => absurd hcounts hrecounts⟩

/-! ## Reachable clusters -/

theorem Refines.matching {A : Protocol n C} {s : Cluster n C} (h : Refines A s) (p q : Fin n) :
    (s.peers p).Matching (s.peers q) := by
  obtain ⟨f, c, hpeer, _⟩ := h.peers p
  obtain ⟨f', c', hpeer', _⟩ := h.peers q
  intro k entry entry' hentry hentry' hterm first first' index hfirst hfirst' hlow hlow' hhigh
  obtain ⟨i, rfl, _, hi, rfl⟩ := hpeer.logAt_inv hentry
  obtain ⟨i', heq, _, hi', rfl⟩ := hpeer'.logAt_inv hentry'
  obtain rfl : i = i' := Int.ofNat.inj heq
  have hsame := (h.valid.log_wf p).sound.take_eq (h.valid.log_wf q).sound hi hi' hterm.symm
  obtain rfl := Option.some.inj (hpeer.first.symm.trans hfirst)
  have habove : (f : Int) < index := hlow
  obtain ⟨j, rfl⟩ := Int.eq_ofNat_of_zero_le (show 0 ≤ index by omega)
  have hji : j ≤ i := Int.ofNat_le.mp hhigh
  have hj : j ≤ (A.log p).length := Nat.le_trans hji hi
  have hpre : (A.log p).take j <+: A.log q := by
    have htake := congrArg (List.take j) hsame
    rw [List.take_take, List.take_take, Nat.min_eq_left hji] at htake
    rw [htake]
    exact List.take_prefix j _
  rcases hpeer.compacted_or_held hpeer' hj hpre hfirst with
    ⟨base, hbase, hbelow⟩ | ⟨held, hheld, _, hterms, hdata⟩
  · obtain rfl := Option.some.inj (hbase.symm.trans hfirst')
    omega
  · exact ⟨_, held, hpeer.logAt_eq (by omega) hj, hheld, hterms, hdata hlow⟩

namespace Cluster

variable {s : Cluster n C}

/-- In a reachable cluster every leader that can run its commit loop when it counts a follower of
its term can repair that follower. -/
theorem exchanges_converge (hreach : Reachable s) {p q : Fin n} (hne : q ≠ p)
    (hleader : (s.peers p).state = .leader)
    (hterm : (s.peers q).currentTerm = (s.peers p).currentTerm) {first : LogEntry C}
    (hfirst : (s.peers p).getFirstLog = some first)
    (hrecounts : (s.peers p).Recounts q first) :
    ∃ rounds last answered taken, (s.peers p).getLastLog = some last ∧
      Raft.exchanges p q rounds (s.peers p) (s.peers q) = some (answered, taken, true) ∧
      Raft.AgreesUpTo last.index (s.peers p) taken := by
  obtain ⟨A, hrefines⟩ := exists_refines hreach
  obtain ⟨f, c, hpeer, _⟩ := hrefines.peers p
  obtain ⟨f', c', hpeer', _⟩ := hrefines.peers q
  obtain rfl := Option.some.inj (hpeer.first.symm.trans hfirst)
  have hrepairs : Repairs p q (s.peers p) (s.peers q) _ _ _ _ := {
    other := hne
    leading := hleader
    sameTerm := hterm
    sendable := hpeer.sendable hrefines.valid hleader
    numbered := consecutive_of_reachable hreach hfirst
    spans := hpeer'.spans
    base := Int.natCast_nonneg f'
    matching := hrefines.matching p q }
  obtain ⟨rounds, _, answered, taken, hrun, hagrees⟩ := hrepairs.converges hrecounts
  exact ⟨rounds, _, answered, taken, hpeer.last, hrun, hagrees⟩

/-- Peer 0 is elected again with an entry that peer 2, which has voted for it, does not have. -/
theorem log_repair_converges_missing_entry : ∃ (s : Cluster 3 Nat) (rounds : Nat)
    (mid other taken : Raft 3 Nat), Reachable s ∧ (s.peers 0).nextIndex 2 = 2 ∧
      (s.peers 2).getLastLog = some ⟨-1, 0, none⟩ ∧
      Raft.exchanges 0 2 rounds (s.peers 0) (s.peers 2) = some (mid, other, false) ∧
      Raft.accepted 0 2 mid other = some taken ∧ Raft.AgreesUpTo 1 (s.peers 0) taken := by
  have hchecked : RunHolds step (electFirst ++ [.start 0 (some 7), .crash 0, .ticker 0,
      .deliver 1, .answer 1, .deliver 1, .concludeElection 0 0]) initial fun s =>
      ((s.peers 0).nextIndex 2 = 2 ∧ (s.peers 2).getLastLog = some ⟨-1, 0, none⟩) ∧
      (s.peers 0).state = .leader ∧ (s.peers 2).currentTerm = (s.peers 0).currentTerm ∧
      (s.peers 0).getFirstLog = some ⟨-1, 0, none⟩ ∧
      (s.peers 0).getLastLog = some ⟨1, 1, some 7⟩ ∧
      (s.peers 2).getFirstLog = some ⟨-1, 0, none⟩ ∧ (s.peers 0).commitIndex = 0 ∧
      ∀ i, 0 ≤ (s.peers 0).nextIndex i ∧ (s.peers 0).nextIndex i ≤ 2 := by
    decide +kernel
  obtain ⟨s, hreach, ⟨hnext, hbehind⟩, hleader, hterm, hfirst, hlast, hfirst', hcommit, hrange⟩ :=
    hchecked.exists_reaches
  obtain ⟨A, hrefines⟩ := exists_refines hreach
  obtain ⟨rounds, _, mid, other, taken, hrun, haccepted, hagrees, _⟩ := (log_repair_converges
    (show (2 : Fin 3) ≠ 0 by decide) hleader hterm hfirst hlast hfirst'
    (consecutive_of_reachable hreach hfirst)
    (consecutive_of_reachable hreach hfirst') (by decide) (by decide) (fun _ => rfl)
    (hrefines.matching 0 2) (Int.le_of_eq hcommit.symm) hrange).1
    (.inl (.inl (by rw [hcommit]; decide)))
  exact ⟨s, rounds, mid, other, taken, hreach, hnext, hbehind, hrun, haccepted, hagrees⟩

/-- Peer 0 commits two entries with 1 and 3 and compacts them.  Peer 2 installs the snapshot and
wins the next term with 1 and 4 before the goroutine of the snapshot has run.  It takes a command,
which 1 accepts. -/
def leadUncounted : List (Action 5 Nat) :=
  [.ticker 0, .deliver 0, .answer 0, .deliver 0, .answer 0, .fail 0, .fail 0, .concludeElection 0 0,
    .start 0 (some 1), .start 0 (some 2), .sendLogTicketCore 0, .deliver 0, .answer 0, .deliver 1,
    .answer 1, .fail 0, .fail 0, .applyCollect 0, .applyLock 0, .applySend 0, .applySend 0,
    .applyFinish 0, .snapshot 0 2 [7], .sendLogTicketCore 0, .sendSnapShot 0 0, .deliver 2,
    .ticker 2, .deliver 4, .deliver 6, .answer 4, .answer 5, .concludeElection 2 0,
    .start 2 (some 3), .sendLogTicketCore 2, .deliver 6, .answer 6]

theorem leadUncounted_runs : RunHolds step leadUncounted initial fun s =>
    ((s.peers 2).state = .leader ∧ (s.peers 2).commitIndex = 0 ∧ (s.peers 2).nextIndex 4 = 3 ∧
      (s.peers 4).currentTerm = (s.peers 2).currentTerm) ∧
    ((s.peers 2).log = [⟨1, 2, none⟩, ⟨2, 3, some 3⟩] ∧ (s.peers 0).commitIndex = 2 ∧
      (s.peers 4).log = [⟨-1, 0, none⟩]) ∧
    (Raft.accepted 2 4 (s.peers 2) (s.peers 4)).isNone = true ∧
    ∃ round ∈ Raft.exchange 2 4 (s.peers 2) (s.peers 4), round.2.2 = false ∧
      (Raft.accepted 2 4 round.1 round.2.1).isNone = true ∧
      (Raft.exchange 2 4 round.1 round.2.1).isNone = true := by
  decide +kernel

/-- Peer 4 has nothing of the log.  It refuses the first request, gets the snapshot in the second
round, and peer 2 panics on the answer: its commit loop starts at index 1, below its compaction
point. -/
theorem log_repair_panics : ∃ s : Cluster 5 Nat, Reachable s ∧
    (s.peers 2).state = .leader ∧ (s.peers 2).commitIndex = 0 ∧ (s.peers 2).nextIndex 4 = 3 ∧
    (s.peers 4).currentTerm = (s.peers 2).currentTerm ∧
    (s.peers 2).log = [⟨1, 2, none⟩, ⟨2, 3, some 3⟩] ∧ (s.peers 0).commitIndex = 2 ∧
    (s.peers 4).log = [⟨-1, 0, none⟩] ∧ (s.peers 2).Matching (s.peers 4) ∧
    ∀ rounds mid other,
      Raft.exchanges 2 4 rounds (s.peers 2) (s.peers 4) = some (mid, other, false) →
      Raft.accepted 2 4 mid other = none := by
  obtain ⟨s, hreach, ⟨hleader, hcommit, hnext, hterm⟩, ⟨hlog, hcommitted, hlog'⟩, hfirst,
    ⟨backed, follower, _⟩, hround, rfl, hsecond, hpanics⟩ := leadUncounted_runs.exists_reaches
  obtain ⟨A, hrefines⟩ := exists_refines hreach
  refine ⟨s, hreach, hleader, hcommit, hnext, hterm, hlog, hcommitted, hlog',
    hrefines.matching 2 4, fun rounds mid other hbefore => ?_⟩
  have hround : Raft.exchange 2 4 (s.peers 2) (s.peers 4) = some (backed, follower, false) := hround
  match rounds with
  | 0 =>
      cases hbefore
      exact Option.isNone_iff_eq_none.mp hfirst
  | 1 =>
      simp only [Raft.exchanges, hround, Option.bind_eq_bind, Option.bind_some,
        Bool.false_eq_true, if_false] at hbefore
      cases hbefore
      exact Option.isNone_iff_eq_none.mp hsecond
  | rounds + 2 =>
      simp [Raft.exchanges, hround, Option.isNone_iff_eq_none.mp hpanics] at hbefore

end Cluster

end DistributedLabs
