import DistributedLabs.Raft.Compaction
import DistributedLabs.Raft.Leading

/-!
# What is sent next and what is known to be matched

A leader backs `nextIndex` up when a request has failed, and moves `nextIndex` and
`matchIndex` forward when one has succeeded.  A failure is taken as new if `nextIndex`
is what it was when the request was sent.  Two requests that were sent at the same
`nextIndex` may both fail; after a retreat and a success `nextIndex` can be back at that
value when the second failure arrives, and what has been matched is then sent again.
The answer to a snapshot compares `nextIndex` and `matchIndex` on their own, and may
move only the second.
-/

namespace DistributedLabs

open DistributedLabs.Library
open DistributedLabs.Library.Replication

variable {n : Nat} {C : Type}

/-! ## Failed requests -/

/-- A call remembers the index it was built for, and no request from the start of the log
fails in its own term. -/
def Message.Recoded : Message n C → Prop
  | .logRequest args recodeNextIndex => recodeNextIndex = args.prevLogIndex + 1
  | .logReply args recodeNextIndex reply => recodeNextIndex = args.prevLogIndex + 1 ∧
      (reply.success = false → reply.term ≤ args.term → 0 < args.prevLogIndex)
  | _ => True

theorem number_consecutive (index : Int) (entries : List (Entry (Option C))) :
    Consecutive index (number index entries) := by
  intro k entry hentry
  rw [number_getElem?] at hentry
  obtain ⟨_, _, rfl⟩ := Option.map_eq_some_iff.mp hentry
  rfl

theorem LogRel.consecutive {A : Protocol n C} {src : Fin n} {args : SendLogArgs n C}
    {front entries : List (Entry (Option C))} (h : LogRel A src args front entries) :
    Consecutive (args.prevLogIndex + 1) args.entries := by
  rw [h.numbered, h.prevIndex]
  exact number_consecutive _ entries

/-- A request fails in its own term only if its previous entry is above the start of the
follower's log. -/
theorem Spans.failed_above {rf rf' : Raft n C} {first last : LogEntry C} (h : Spans rf first last)
    {args : SendLogArgs n C} {reply : SendLogReply}
    (hnumbered : Consecutive (args.prevLogIndex + 1) args.entries)
    (hrun : rf.requestSendLog args = some (rf', reply)) (hfailed : reply.success = false)
    (hterm : reply.term ≤ args.term) : first.index < args.prevLogIndex := by
  by_contra hlow
  have hle := h.le
  unfold Raft.requestSendLog at hrun
  split at hrun
  · cases hrun
    dsimp only at hterm
    omega
  · have hcaught : Spans (rf.catchUp args.term) first last := h.of_log (rf.catchUp_log args.term)
    obtain ⟨after, hafter⟩ := hcaught.acceptLog_passes hnumbered (by omega)
      fun habove => absurd habove hlow
    cases hafter.symm.trans hrun
    cases hfailed

theorem Message.Recoded.execute {A : Protocol n C} {src dst p : Fin n} {rf rf' : Raft n C}
    {f c : Nat} {msg msg' : Message n C} (h : msg.Recoded) (hpeer : PeerRel A p rf f c)
    (hmsg : MessageRel A src dst msg) (hrun : msg.execute rf = .ok (rf', msg')) :
    msg'.Recoded := by
  cases msg with
  | voteRequest args =>
      cases hrun
      trivial
  | logRequest args recodeNextIndex =>
      obtain ⟨⟨after, reply⟩, hafter, heq⟩ := Outcome.map_eq_ok.mp hrun
      cases heq
      obtain ⟨front, entries, hlog⟩ := hmsg
      refine ⟨h, fun hfailed hterm => ?_⟩
      have habove := hpeer.spans.failed_above hlog.consecutive (Outcome.ofOption_eq_ok.mp hafter)
        hfailed hterm
      simp only [entryAt] at habove
      omega
  | snapShotRequest args sendNextIndex sendMatchIndex =>
      obtain ⟨⟨after, reply⟩, _, heq⟩ := Outcome.map_eq_ok.mp hrun
      cases heq
      trivial
  | voteReply | logReply | snapShotReply => cases hrun

theorem Cluster.recoded_of_reachable {s : Cluster n C} (hreach : Reachable s) :
    ∀ flight ∈ s.net, flight.msg.Recoded := by
  induction hreach with
  | refl =>
      intro flight hmem
      cases hmem
  | @tail t s' before last ih =>
      intro flight hmem
      obtain ⟨action, taken⟩ := last
      rcases step_net taken hmem with hold | ⟨old, hold, rf', hrun⟩ | ⟨args, hmsg⟩ |
        ⟨args, recodeNextIndex, _, jobs, _, hrun, hjob, hmsg⟩ | ⟨p, args, _, _, _, hmsg⟩
      · exact ih flight hold
      · obtain ⟨A, hrefines⟩ := exists_refines before
        obtain ⟨f, c, hpeer, _⟩ := hrefines.peers old.dst
        exact (ih old hold).execute hpeer (hrefines.flights old hold).msg hrun
      · rw [hmsg]
        trivial
      · obtain ⟨_, _, first, preLog, entries, hfirst, hpre, _, rfl⟩ := Raft.job_builds hrun hjob
        rw [hmsg]
        have hnonneg := Slice.get_nonneg hpre
        have hindex := consecutive_of_reachable before hfirst _ preLog (Slice.read_of_get hpre)
        show recodeNextIndex = preLog.index + 1
        omega
      · rw [hmsg]
        trivial

/-! ## Leaders -/

/-- Nothing that is matched is sent again. -/
def Ahead (p : Fin n) (rf : Raft n C) : Prop :=
  ∀ i, i ≠ p → rf.matchIndex i < rf.nextIndex i

/-- An answer does not undo what later answers have told.  A failure at the present `nextIndex`
comes before anything is matched; a snapshot that will count as matched finds `nextIndex` as it
was or already above the snapshot. -/
def Raft.InOrder (rf : Raft n C) (peer : Fin n) : Message n C → Prop
  | .logReply args recodeNextIndex reply => rf.state = .leader → rf.currentTerm = args.term →
      reply.term ≤ rf.currentTerm → reply.success = false →
      rf.nextIndex peer = recodeNextIndex → rf.matchIndex peer = 0
  | .snapShotReply args sendNextIndex sendMatchIndex reply => rf.state = .leader →
      rf.currentTerm = args.term → reply.term ≤ rf.currentTerm →
      rf.matchIndex peer = sendMatchIndex → sendMatchIndex < args.lastIncludedIndex →
      rf.nextIndex peer = sendNextIndex ∨ args.lastIncludedIndex < rf.nextIndex peer
  | _ => True

instance (rf : Raft n C) (peer : Fin n) (msg : Message n C) : Decidable (rf.InOrder peer msg) :=
  match msg with
  | .logReply _ _ _ => inferInstanceAs (Decidable (_ → _ → _ → _ → _ → _))
  | .snapShotReply _ _ _ _ => inferInstanceAs (Decidable (_ → _ → _ → _ → _ → _))
  | .voteRequest _ | .voteReply _ _ | .logRequest _ _ | .snapShotRequest _ _ _ => instDecidableTrue

namespace Ahead

variable {p : Fin n} {rf rf' : Raft n C}

theorem keeps (h : Ahead p rf) (hkeeps : KeepsLead rf rf') : Ahead p rf' := by
  intro i hi
  rw [hkeeps.matchIndex, hkeeps.nextIndex]
  exact h i hi

theorem commits {mid : Raft n C} (h : Ahead p mid) (hrun : mid.advanceCommit = some rf') :
    Ahead p rf' := by
  rw [(Raft.advanceCommit_cases hrun).1.eq]
  exact h

theorem recordMatch (h : Ahead p rf) (peer : Fin n) (lastEntry : LogEntry C) :
    Ahead p (rf.recordMatch peer lastEntry) := by
  intro i hi
  have hold := h i hi
  by_cases hpeer : i = peer
  · subst hpeer
    simp only [Raft.recordMatch, Raft.setNextIndex, Raft.setMatchIndex, Function.update_self]
    split <;> split <;> omega
  · rw [(Raft.recordMatch_others hpeer lastEntry).1, (Raft.recordMatch_others hpeer lastEntry).2]
    exact hold

/-- The two guards of a snapshot answer agree if the answer is in order. -/
theorem recordSnapShot (h : Ahead p rf) {peer : Fin n} {sendNextIndex sendMatchIndex index : Int}
    (horder : rf.matchIndex peer = sendMatchIndex → sendMatchIndex < index →
      rf.nextIndex peer = sendNextIndex ∨ index < rf.nextIndex peer) :
    Ahead p (rf.recordSnapShot peer sendNextIndex sendMatchIndex index) := by
  intro i hi
  have hold := h i hi
  by_cases hpeer : i = peer
  · subst hpeer
    simp only [Raft.recordSnapShot, Raft.setNextIndex, Raft.setMatchIndex, Function.update_self]
    split <;> split <;> omega
  · rw [(Raft.recordSnapShot_others hpeer _ _ _).1, (Raft.recordSnapShot_others hpeer _ _ _).2]
    exact hold

/-- Backing up stops above the start of the log that nothing precedes. -/
theorem backUp {A : Protocol n C} (valid : Valid A) {f c : Nat} (h : Ahead p rf)
    (hpeer : PeerRel A p rf f c) (hleading : rf.state = .leader) {peer : Fin n}
    (hunmatched : rf.matchIndex peer = 0) (habove : 1 < rf.nextIndex peer)
    (hrun : rf.backUp peer = some rf') : Ahead p rf' := by
  obtain ⟨first, last, index, hfirst, hlast, rfl, hlow, hcases⟩ := Raft.backUp_retreats hrun
  obtain rfl := Option.some.inj (hpeer.first.symm.trans hfirst)
  obtain rfl := Option.some.inj (hpeer.last.symm.trans hlast)
  have hnext := hpeer.next (hpeer.leader_iff.mp hleading) peer
  have hpos : 0 < index := by
    have hbase : (entryAt f (A.log p) f).index = f := rfl
    have htop : (entryAt f (A.log p) (A.log p).length).index = (A.log p).length := rfl
    rcases hcases with ⟨hbottom, rfl⟩ | ⟨term, hbacks⟩
    · omega
    · by_contra hzero
      -- the walk has passed over the first entry, so it began at an entry of the term 0
      have hle := hbacks.le
      obtain ⟨entry, hentry, hterm⟩ := hbacks.passed _ hle (Int.le_refl _)
      obtain ⟨bottom, hbottom, hsame⟩ := hbacks.passed index (Int.le_refl _) hle
      rw [show index - (entryAt f (A.log p) f).index = 0 by omega] at hbottom
      obtain rfl := Option.some.inj (hpeer.first.symm.trans hbottom)
      rw [← hsame] at hterm
      rw [hpeer.log] at hentry
      obtain ⟨i, _, hi, hoffset, rfl⟩ := compact_get_inv hpeer.base_le hentry
      have hne : (A.log p).take i ≠ [] := by
        intro hnil
        have hlength := take_length_of_le hi
        rw [hnil, List.length_nil] at hlength
        omega
      have hterm_pos := valid.lastTerm_pos
        (((valid.log_wf p).sound).shorten (List.take_prefix i _)) hne
      have hempty : f = 0 := by omega
      simp only [entryAt, hempty, List.take_zero] at hterm
      rw [hterm] at hterm_pos
      exact absurd hterm_pos (by simp [lastTerm])
  intro i hi
  by_cases hother : i = peer
  · subst hother
    simp only [Raft.setNextIndex, Function.update_self, hunmatched]
    exact hpos
  · simpa [Raft.setNextIndex, hother] using h i hi

theorem elected {A : Protocol n C} {f c : Nat} (hpeer : PeerRel A p rf f c) {last : LogEntry C}
    (hlast : rf.getLastLog = some last) :
    Ahead p { rf with
      state := .leader
      nextIndex := fun _ => last.index + 1
      matchIndex := fun i => if i = p then last.index else 0 } := by
  obtain rfl := Option.some.inj (hpeer.last.symm.trans hlast)
  intro i hi
  simp only [hi, if_false, entryAt]
  omega

theorem move {A : Protocol n C} {s : Cluster n C} {action : Action n C}
    (hreach : Cluster.Reachable s) (hrefines : Refines A s)
    (h : (s.peers p).state = .leader → Ahead p (s.peers p))
    (horder : ∀ k, action = .answer k → ∀ flight ∈ s.net[k]?,
      (s.peers flight.src).InOrder flight.dst flight.msg)
    (hmove : LeaderMove s.net p (s.peers p) action rf') (hleads : rf'.state = .leader) :
    Ahead p rf' := by
  obtain ⟨f, c, hpeer, _⟩ := hrefines.peers p
  cases hmove with
  | kept keeps => exact (h (keeps.state ▸ hleads)).keeps keeps
  | elected _ hlast keeps => exact (elected hpeer hlast).keeps keeps
  | started leading =>
      intro i hi
      simpa [Raft.persist, hi] using h leading i hi
  | compacted leading _ run =>
      rcases Raft.serviceSnapshot_cases run with rfl | ⟨_, _, _, _, _, _, _, _, _, _, rfl⟩
      · exact h leading
      · exact h leading
  | @prepared mid sends leading prepares =>
      intro i hi
      have hnext := prepares.le i
      have hmatch : mid.matchIndex = (s.peers p).matchIndex := by rw [prepares.eq]
      have hold := h leading i hi
      dsimp only
      rw [hmatch]
      omega
  | matched leading _ advanced => exact ((h leading).recordMatch _ _).commits advanced
  | @backed k _ peer _ _ _ _ leading other answers flight same current failed unmoved run =>
      have hmatched : (s.peers p).matchIndex peer = 0 :=
        horder k answers _ flight leading same current failed unmoved
      obtain ⟨hrecoded, hpos⟩ :=
        Cluster.recoded_of_reachable hreach _ (List.mem_of_getElem? flight)
      have hprev := hpos failed (same ▸ current)
      exact (h leading).backUp hrefines.valid hpeer leading hmatched (by omega) run
  | recorded leading other answers flight same current advanced =>
      refine Ahead.commits ((h leading).recordSnapShot ?_) advanced
      exact horder _ answers _ flight leading same current

end Ahead

namespace Cluster

variable {s : Cluster n C}

/-- The answers that are handled are in order. -/
def AnswersInOrder (s : Cluster n C) : Action n C → Prop
  | .answer k => ∀ flight ∈ s.net[k]?, (s.peers flight.src).InOrder flight.dst flight.msg
  | _ => True

instance (s : Cluster n C) (action : Action n C) : Decidable (s.AnswersInOrder action) :=
  match action with
  | .answer k => inferInstanceAs (Decidable (∀ flight ∈ s.net[k]?, _))
  | .start _ _ | .ticker _ | .concludeElection _ _ | .sendLogTicketCore _ | .sendSnapShot _ _
  | .deliver _ | .fail _ | .snapshot _ _ _ | .applyCollect _ | .installLock _ _ | .applyLock _
  | .applySend _ | .applyFinish _ | .installSend _ | .installFinish _ | .crash _ =>
      instDecidableTrue

/-- In a run that handles answers in order, a leader sends each follower only what lies above
what it knows to be matched there. -/
theorem match_behind_next {actions : List (Action n C)}
    (hrun : RunsIf step AnswersInOrder initial actions s) {p i : Fin n}
    (hleader : (s.peers p).state = .leader) (hne : i ≠ p) :
    (s.peers p).matchIndex i < (s.peers p).nextIndex i := by
  have hahead : (s.peers p).state = .leader → Ahead p (s.peers p) := by
    refine peer_of_runsIf (P := fun _ rf => rf.state = .leader → Ahead p rf) hrun p ?_
      (fun _ h => h) ?_
    · intro hstate
      cases hstate
    · intro past t action rf' before permitted h hmove hleads
      obtain ⟨A, hrefines⟩ := exists_refines before.reaches
      refine Ahead.move before.reaches hrefines h ?_
        (hrefines.leaderMove (durable_of_reachable before.reaches p) hmove hleads) hleads
      rintro k rfl
      exact permitted
  exact hahead hleader i hne

/-- Peer 0 holds one entry that nobody else has when it is elected for the second time, and
sends the entry behind it twice.  Peer 2 refuses both requests, and the first answer moves
`nextIndex` back to the entry. -/
def refusedTwice : List (Action 3 Nat) :=
  electFirst ++ [.start 0 (some 7), .crash 0, .ticker 0, .deliver 1, .answer 1,
    .concludeElection 0 0, .sendLogTicketCore 0, .sendLogTicketCore 0, .deliver 3, .deliver 5,
    .answer 3]

/-- The second refusal is answered next and is found to be old. -/
theorem match_behind_next_in_turn : ∃ (s : Cluster 3 Nat) (actions : List (Action 3 Nat)),
    RunsIf step AnswersInOrder initial actions s ∧ (s.peers 0).state = .leader ∧
      (s.peers 0).matchIndex 2 = 1 ∧ (s.peers 0).matchIndex 2 < (s.peers 0).nextIndex 2 := by
  have hchecked : RunHolds (guarded step AnswersInOrder) (refusedTwice ++ [.answer 4,
      .sendLogTicketCore 0, .deliver 5, .answer 5]) initial fun s =>
      (s.peers 0).state = .leader ∧ (s.peers 0).matchIndex 2 = 1 := by
    decide +kernel
  obtain ⟨s, hrun, hleader, hmatch⟩ := hchecked.exists_runsIf
  exact ⟨s, _, hrun, hleader, hmatch, match_behind_next hrun hleader (by decide)⟩

/-- Peer 0 has committed three entries with peer 1 and compacted them.  Peer 2 has refused a
request for the second entry and has installed the snapshot; both answers are on their way. -/
def refusedAndInstalled : List (Action 3 Nat) :=
  electFirst ++ [.start 0 (some 7), .crash 0, .ticker 0, .deliver 1, .answer 1,
    .concludeElection 0 0, .start 0 (some 8), .start 0 (some 9), .sendLogTicketCore 0, .deliver 2,
    .answer 2, .deliver 2, .sendLogTicketCore 0, .deliver 3, .answer 3, .applyCollect 0,
    .applyLock 0, .applySend 0, .applySend 0, .applySend 0, .applyFinish 0, .snapshot 0 3 [3],
    .sendLogTicketCore 0, .sendSnapShot 0 0, .deliver 5]

/-- A refusal that arrives after a success finds `nextIndex` as it was and moves it back below
what is matched.  A refusal that arrives before the answer to a snapshot moves `nextIndex`, so
that the answer moves only `matchIndex`. -/
theorem stale_answers_undo_progress :
    (∃ s : Cluster 3 Nat, Reachable s ∧ (s.peers 0).state = .leader ∧
      (s.peers 0).matchIndex 2 = 1 ∧ (s.peers 0).nextIndex 2 = 1) ∧
    ∃ s : Cluster 3 Nat, Reachable s ∧ (s.peers 0).state = .leader ∧
      (s.peers 0).matchIndex 2 = 3 ∧ (s.peers 0).nextIndex 2 = 3 := by
  constructor
  · have hchecked : RunHolds step (refusedTwice ++ [.sendLogTicketCore 0, .deliver 6, .answer 6,
        .answer 4]) initial fun s => (s.peers 0).state = .leader ∧
          (s.peers 0).matchIndex 2 = 1 ∧ (s.peers 0).nextIndex 2 = 1 := by
      decide +kernel
    exact hchecked.exists_reaches
  · have hchecked : RunHolds step (refusedAndInstalled ++ [.answer 2, .answer 4]) initial fun s =>
        (s.peers 0).state = .leader ∧ (s.peers 0).matchIndex 2 = 3 ∧
          (s.peers 0).nextIndex 2 = 3 := by
      decide +kernel
    exact hchecked.exists_reaches

end Cluster

end DistributedLabs
