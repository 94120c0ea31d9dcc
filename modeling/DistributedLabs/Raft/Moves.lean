import DistributedLabs.Raft.Effects

/-!
# Steps of a cluster as moves of one peer

Every action of the cluster moves at most one peer, by one of the operations of
the source.  A property of single peers is therefore kept by all runs as soon as
each move keeps it, and what happens to the network is said once for all actions.
-/

namespace DistributedLabs

open DistributedLabs.Library

variable {n : Nat} {C : Type}

/-- The operations that run under `rf.mu` and may change what has to survive a crash. -/
inductive Operation (n : Nat) (C : Type) where
  | requestVote (args : RequestVoteArgs n)
  | requestHeartBeat (args : HeartBeatArgs n)
  | requestSendLog (args : SendLogArgs n C)
  | requestInstallSnapShot (args : RequestSnapShotArgs n)
  | start (me : Fin n) (command : Option C)
  | snapshot (index : Int) (bytes : Bytes)
  | startElection (me : Fin n)
  | voteReply (args : RequestVoteArgs n) (reply : Option RequestVoteReply)
  | sendLogReply (peer : Fin n) (args : SendLogArgs n C) (recodeNextIndex : Int)
      (reply : SendLogReply)
  | snapShotReply (peer : Fin n) (args : RequestSnapShotArgs n)
      (sendNextIndex sendMatchIndex : Int) (reply : RequestSnapShotReply)

def Operation.run (rf : Raft n C) : Operation n C → Option (Raft n C)
  | requestVote args => some (rf.requestVote args).1
  | requestHeartBeat args => some (rf.requestHeartBeat args).1
  | requestSendLog args => (rf.requestSendLog args).map Prod.fst
  | requestInstallSnapShot args => (rf.requestInstallSnapShot args).map Prod.fst
  | start me command => (rf.start me command).map Prod.fst
  | snapshot index bytes => rf.serviceSnapshot index bytes
  | startElection me => some (rf.startElection me).1
  | voteReply args reply => some (rf.handleVoteReply args reply)
  | sendLogReply peer args recodeNextIndex reply =>
      rf.handleSendLogReply peer args recodeNextIndex reply
  | snapShotReply peer args sendNextIndex sendMatchIndex reply =>
      rf.handleSnapShotReply peer args sendNextIndex sendMatchIndex reply

/-- Where commands, snapshots and answers come from: the own service, a request on the
network, or a call of this peer that has been executed. -/
def Operation.Cause (net : List (Flight n C)) (p : Fin n) (rf : Raft n C) (action : Action n C) :
    Operation n C → Prop
  | start me command => action = .start p command ∧ me = p
  | snapshot index bytes => action = .snapshot p index bytes ∧ rf.Given index
  | requestSendLog args => ∃ flight ∈ net, ∃ recodeNextIndex,
      flight.msg = .logRequest args recodeNextIndex ∧ flight.dst = p
  | requestInstallSnapShot args => ∃ flight ∈ net, ∃ sendNextIndex sendMatchIndex,
      flight.msg = .snapShotRequest args sendNextIndex sendMatchIndex ∧ flight.dst = p
  | sendLogReply peer args recodeNextIndex reply => ∃ k incarnation, action = .answer k ∧
      net[k]? = some ⟨p, peer, incarnation, .logReply args recodeNextIndex reply⟩
  | snapShotReply peer args sendNextIndex sendMatchIndex reply => ∃ k incarnation,
      action = .answer k ∧ net[k]? =
        some ⟨p, peer, incarnation, .snapShotReply args sendNextIndex sendMatchIndex reply⟩
  | _ => True

/-- How the peer `p` moves when the cluster takes an action. -/
inductive PeerMove (net : List (Flight n C)) (p : Fin n) (rf : Raft n C) :
    Action n C → Raft n C → Prop where
  | operation {action : Action n C} {rf' : Raft n C} (op : Operation n C)
      (cause : op.Cause net p rf action) (run : op.run rf = some rf') :
      PeerMove net p rf action rf'
  | concludeElection {k : Nat} {rf' : Raft n C} (election : Election)
      (counted : rf.elections[k]? = some election)
      (run : rf.concludeElection p election = some rf') :
      PeerMove net p rf (.concludeElection p k) rf'
  | sendLogTicketCore {prepared : Raft n C} {jobs : List (SendJob n C)}
      (run : rf.sendLogTicketCore p = some (prepared, jobs)) (sends : List (Fin n)) :
      PeerMove net p rf (.sendLogTicketCore p) { prepared with snapShotSends := sends }
  | sendSnapShot {k : Nat} (sends : List (Fin n)) :
      PeerMove net p rf (.sendSnapShot p k) { rf with snapShotSends := sends }
  | applyCollect {rf' : Raft n C} (run : rf.applyCollect = .ok rf') :
      PeerMove net p rf (.applyCollect p) rf'
  | applyLock {rf' : Raft n C} (run : rf.applyLock = .ok rf') :
      PeerMove net p rf (.applyLock p) rf'
  | applySend {rf' : Raft n C} (run : rf.applySend = .ok rf') :
      PeerMove net p rf (.applySend p) rf'
  | applyFinish {rf' : Raft n C} (run : rf.applyFinish = .ok rf') :
      PeerMove net p rf (.applyFinish p) rf'
  | installLock {k : Nat} {rf' : Raft n C} (run : rf.installLock k = .ok rf') :
      PeerMove net p rf (.installLock p k) rf'
  | installSend {rf' : Raft n C} (run : rf.installSend = .ok rf') :
      PeerMove net p rf (.installSend p) rf'
  | installFinish {rf' : Raft n C} (run : rf.installFinish = .ok rf') :
      PeerMove net p rf (.installFinish p) rf'
  | crash {rf' : Raft n C} (run : Raft.make p rf.persister (rf.incarnation + 1) = some rf') :
      PeerMove net p rf (.crash p) rf'

namespace Cluster

variable {s s' : Cluster n C}

@[simp]
theorem setPeer_self (s : Cluster n C) (p : Fin n) (rf : Raft n C) :
    (s.setPeer p rf).peers p = rf := by
  simp [setPeer]

theorem setPeer_of_ne (s : Cluster n C) {p q : Fin n} (rf : Raft n C) (hne : q ≠ p) :
    (s.setPeer p rf).peers q = s.peers q := by
  simp [setPeer, hne]

theorem setPeer_moves {p : Fin n} {rf : Raft n C} {action : Action n C}
    (hmove : PeerMove s.net p (s.peers p) action rf) (q : Fin n) :
    (s.setPeer p rf).peers q = s.peers q ∨
      PeerMove s.net q (s.peers q) action ((s.setPeer p rf).peers q) := by
  by_cases hq : q = p
  · subst hq
    rw [setPeer_self]
    exact Or.inr hmove
  · exact Or.inl (setPeer_of_ne s rf hq)

theorem onPeer_ok {p : Fin n} {f : Raft n C → Outcome (Raft n C)}
    (h : s.onPeer p f = .ok s') : ∃ rf, f (s.peers p) = .ok rf ∧ s' = s.setPeer p rf := by
  obtain ⟨rf, hrf, heq⟩ := Outcome.map_eq_ok.mp h
  exact ⟨rf, hrf, heq.symm⟩

end Cluster

theorem Message.execute_moves {net : List (Flight n C)} {flight : Flight n C} {rf rf' : Raft n C}
    {msg' : Message n C} {action : Action n C} (hmem : flight ∈ net)
    (h : flight.msg.execute rf = .ok (rf', msg')) : PeerMove net flight.dst rf action rf' := by
  cases hmsg : flight.msg with
  | voteRequest args =>
      rw [hmsg] at h
      cases h
      exact .operation (.requestVote args) trivial rfl
  | logRequest args recodeNextIndex =>
      rw [hmsg] at h
      obtain ⟨⟨after, reply⟩, hrun, heq⟩ := Outcome.map_eq_ok.mp h
      cases heq
      refine .operation (.requestSendLog args) ⟨flight, hmem, _, hmsg, rfl⟩ ?_
      simp [Operation.run, Outcome.ofOption_eq_ok.mp hrun]
  | snapShotRequest args sendNextIndex sendMatchIndex =>
      rw [hmsg] at h
      obtain ⟨⟨after, reply⟩, hrun, heq⟩ := Outcome.map_eq_ok.mp h
      cases heq
      refine .operation (.requestInstallSnapShot args) ⟨flight, hmem, _, _, hmsg, rfl⟩ ?_
      simp [Operation.run, Outcome.ofOption_eq_ok.mp hrun]
  | _ =>
      rw [hmsg] at h
      cases h

theorem Message.handle_moves {net : List (Flight n C)} {rf rf' : Raft n C} {flight : Flight n C}
    {k : Nat} (hflight : net[k]? = some flight) (h : flight.msg.handle rf flight.dst = .ok rf') :
    PeerMove net flight.src rf (.answer k) rf' := by
  obtain ⟨src, dst, incarnation, msg⟩ := flight
  cases msg with
  | voteReply args reply =>
      cases h
      exact .operation (.voteReply args (some reply)) trivial rfl
  | logReply args recodeNextIndex reply =>
      exact .operation (.sendLogReply dst args recodeNextIndex reply) ⟨k, incarnation, rfl, hflight⟩
        (Outcome.ofOption_eq_ok.mp h)
  | snapShotReply args sendNextIndex sendMatchIndex reply =>
      exact .operation (.snapShotReply dst args sendNextIndex sendMatchIndex reply)
        ⟨k, incarnation, rfl, hflight⟩ (Outcome.ofOption_eq_ok.mp h)
  | _ => cases h

theorem Message.giveUp_moves (net : List (Flight n C)) (rf : Raft n C) (msg : Message n C)
    {p : Fin n} {action : Action n C} :
    msg.giveUp rf = rf ∨ PeerMove net p rf action (msg.giveUp rf) := by
  cases msg with
  | voteRequest args => exact Or.inr (.operation (.voteReply args none) trivial rfl)
  | voteReply args reply => exact Or.inr (.operation (.voteReply args none) trivial rfl)
  | _ => exact Or.inl rfl

namespace Cluster

variable {s s' : Cluster n C}

/-! ## What is on the network -/

/-- A request that carries the compaction point and the snapshot of the peer `p`. -/
def Sends (s : Cluster n C) (p : Fin n) (args : RequestSnapShotArgs n) : Prop :=
  ∃ first, (s.peers p).getFirstLog = some first ∧ args.lastIncludedIndex = first.index ∧
    args.lastIncludedTerm = first.term ∧ args.data = (s.peers p).snapshot

theorem sendSnapShot_sends {p dst : Fin n} {args : RequestSnapShotArgs n}
    {sendNextIndex sendMatchIndex : Int} (h : (s.peers p).sendSnapShot p dst =
      some (some (args, sendNextIndex, sendMatchIndex))) : s.Sends p args := by
  unfold Raft.sendSnapShot at h
  split at h
  · cases h
  · obtain ⟨first, hfirst, h⟩ := Option.bind_eq_some_iff.mp h
    cases h
    exact ⟨first, hfirst, rfl, rfl, rfl⟩

/-- How an action can have sent a request. -/
def Sent (s : Cluster n C) (action : Action n C) (flight : Flight n C) : Prop :=
  (∃ args, flight.msg = .voteRequest args) ∨
  (∃ args recodeNextIndex prepared jobs, action = .sendLogTicketCore flight.src ∧
    (s.peers flight.src).sendLogTicketCore flight.src = some (prepared, jobs) ∧
    .log flight.dst args recodeNextIndex ∈ jobs ∧
    flight.msg = .logRequest args recodeNextIndex) ∨
  ∃ p args sendNextIndex sendMatchIndex, s.Sends p args ∧
    flight.msg = .snapShotRequest args sendNextIndex sendMatchIndex

/-- How a call can be on the network after an action. -/
def Carried (s : Cluster n C) (action : Action n C) (flight : Flight n C) : Prop :=
  flight ∈ s.net ∨
  (∃ old ∈ s.net, ∃ rf', old.msg.execute (s.peers old.dst) = .ok (rf', flight.msg)) ∨
  s.Sent action flight

theorem voteFlights_sent (s : Cluster n C) (action : Action n C) {p : Fin n} {incarnation : Nat}
    {args : RequestVoteArgs n} {flight : Flight n C}
    (hmem : flight ∈ voteFlights p incarnation args) : s.Sent action flight := by
  obtain ⟨dst, _, rfl⟩ := List.mem_map.mp hmem
  exact Or.inl ⟨args, rfl⟩

theorem logFlights_sent {p : Fin n} {incarnation : Nat} {prepared : Raft n C}
    {jobs : List (SendJob n C)} (hrun : (s.peers p).sendLogTicketCore p = some (prepared, jobs))
    {flight : Flight n C} (hmem : flight ∈ logFlights p incarnation jobs) :
    s.Sent (.sendLogTicketCore p) flight := by
  obtain ⟨job, hjob, hflight⟩ := List.mem_filterMap.mp hmem
  cases job with
  | snapShot dst => cases hflight
  | log dst args recodeNextIndex =>
      cases hflight
      exact Or.inr (Or.inl ⟨args, recodeNextIndex, prepared, jobs, rfl, hrun, hjob, rfl⟩)

/-! ## What an action does -/

/-- One peer moves at most, and calls come onto the network, are executed there or leave it. -/
inductive Effect (s : Cluster n C) (action : Action n C) : Cluster n C → Prop where
  | moved {p : Fin n} {rf : Raft n C} (move : PeerMove s.net p (s.peers p) action rf) :
      Effect s action (s.setPeer p rf)
  | sent {p : Fin n} {rf : Raft n C} {flights : List (Flight n C)}
      (move : PeerMove s.net p (s.peers p) action rf)
      (sent : ∀ flight ∈ flights, s.Sent action flight) :
      Effect s action { s.setPeer p rf with net := s.net ++ flights }
  | executed {k : Nat} {flight : Flight n C} {rf : Raft n C} {msg : Message n C}
      (found : s.net[k]? = some flight)
      (run : flight.msg.execute (s.peers flight.dst) = .ok (rf, msg)) :
      Effect s action { s.setPeer flight.dst rf with net := s.net.set k { flight with msg := msg } }
  | returned {p : Fin n} {rf : Raft n C} {k : Nat} (ended : action = .answer k ∨ action = .fail k)
      (move : PeerMove s.net p (s.peers p) action rf) :
      Effect s action { s.setPeer p rf with net := s.net.eraseIdx k }
  | dropped {k : Nat} (ended : action = .answer k ∨ action = .fail k) :
      Effect s action { s with net := s.net.eraseIdx k }
  | crashed {p : Fin n} {rf : Raft n C} (move : PeerMove s.net p (s.peers p) action rf) :
      Effect s action { s.setPeer p rf with past := s.past ++ [(p, (s.peers p).applyCh)] }

theorem onPeer_effect {p : Fin n} {f : Raft n C → Outcome (Raft n C)} {action : Action n C}
    (h : s.onPeer p f = .ok s')
    (hmove : ∀ {rf}, f (s.peers p) = .ok rf → PeerMove s.net p (s.peers p) action rf) :
    Effect s action s' := by
  obtain ⟨rf, hrf, rfl⟩ := onPeer_ok h
  exact .moved (hmove hrf)

theorem sendSnapShot_effect {p : Fin n} {k : Nat} (h : s.sendSnapShot p k = .ok s') :
    Effect s (.sendSnapShot p k) s' := by
  simp only [sendSnapShot] at h
  split at h
  · obtain ⟨request, hrequest, heq⟩ := Outcome.map_eq_ok.mp h
    cases request with
    | none =>
        subst heq
        exact .moved (.sendSnapShot _)
    | some request =>
        subst heq
        refine .sent (.sendSnapShot _) fun flight hmem => ?_
        rw [List.mem_singleton.mp hmem]
        exact Or.inr (Or.inr ⟨p, _, _, _,
          sendSnapShot_sends (Outcome.ofOption_eq_ok.mp hrequest), rfl⟩)
  · cases h

theorem answer_effect {k : Nat} (h : s.answer k = .ok s') : Effect s (.answer k) s' := by
  simp only [answer] at h
  split at h
  · next flight hflight =>
      split at h
      · obtain ⟨after, hrun, rfl⟩ := Outcome.map_eq_ok.mp h
        exact .returned (Or.inl rfl) (Message.handle_moves hflight hrun)
      · cases h
        exact .dropped (Or.inl rfl)
  · cases h

theorem fail_effect {k : Nat} (h : s.fail k = .ok s') : Effect s (.fail k) s' := by
  simp only [fail] at h
  split at h
  · next flight _ =>
      split at h
      · cases h
        rcases Message.giveUp_moves s.net (s.peers flight.src) flight.msg with hsame | hmove
        · rw [hsame, setPeer, Function.update_eq_self]
          exact .dropped (Or.inr rfl)
        · exact .returned (Or.inr rfl) hmove
      · cases h
        exact .dropped (Or.inr rfl)
  · cases h

theorem step_effect {action : Action n C} (h : s.step action = .ok s') : Effect s action s' := by
  cases action with
  | start p command =>
      simp only [step] at h
      refine onPeer_effect h fun {rf} hrf => .operation (.start p command) ⟨rfl, rfl⟩ ?_
      obtain ⟨⟨after, result⟩, hrun, heq⟩ := Outcome.map_eq_ok.mp hrf
      subst heq
      simp [Operation.run, Outcome.ofOption_eq_ok.mp hrun]
  | ticker p =>
      simp only [step, ticker] at h
      split at h
      · cases h
        exact .sent (.operation (.startElection p) trivial rfl)
          fun flight hmem => s.voteFlights_sent _ hmem
      · cases h
  | concludeElection p k =>
      simp only [step, concludeElection] at h
      split at h
      · next election hcounted =>
          split at h
          · cases h
          · exact onPeer_effect h
              fun hrf => .concludeElection election hcounted (Outcome.ofOption_eq_ok.mp hrf)
      · cases h
  | sendLogTicketCore p =>
      obtain ⟨⟨prepared, jobs⟩, hrun, heq⟩ := Outcome.map_eq_ok.mp h
      subst heq
      have hrun := Outcome.ofOption_eq_ok.mp hrun
      exact .sent (.sendLogTicketCore hrun _) fun flight hmem => logFlights_sent hrun hmem
  | sendSnapShot p k => exact sendSnapShot_effect h
  | deliver k =>
      simp only [step, deliver] at h
      split at h
      · next flight hflight =>
          obtain ⟨⟨after, msg⟩, hrun, heq⟩ := Outcome.map_eq_ok.mp h
          subst heq
          exact .executed hflight hrun
      · cases h
  | answer k => exact answer_effect h
  | fail k => exact fail_effect h
  | snapshot p index bytes =>
      simp only [step, snapshot] at h
      split at h
      · next hgiven =>
          exact onPeer_effect h fun hrf => .operation (.snapshot index bytes) ⟨rfl, hgiven⟩
            (Outcome.ofOption_eq_ok.mp hrf)
      · cases h
  | applyCollect p => exact onPeer_effect h fun hrf => .applyCollect hrf
  | applyLock p => exact onPeer_effect h fun hrf => .applyLock hrf
  | applySend p => exact onPeer_effect h fun hrf => .applySend hrf
  | applyFinish p => exact onPeer_effect h fun hrf => .applyFinish hrf
  | installLock p k =>
      simp only [step] at h
      exact onPeer_effect h fun hrf => .installLock hrf
  | installSend p => exact onPeer_effect h fun hrf => .installSend hrf
  | installFinish p => exact onPeer_effect h fun hrf => .installFinish hrf
  | crash p =>
      obtain ⟨made, hrun, heq⟩ := Outcome.map_eq_ok.mp h
      subst heq
      exact .crashed (.crash (Outcome.ofOption_eq_ok.mp hrun))

/-- An action leaves a peer alone or moves it. -/
theorem step_moves {action : Action n C} (h : s.step action = .ok s') (q : Fin n) :
    s'.peers q = s.peers q ∨ PeerMove s.net q (s.peers q) action (s'.peers q) := by
  cases step_effect h with
  | moved move => exact setPeer_moves move q
  | sent move _ => exact setPeer_moves move q
  | executed found run =>
      exact setPeer_moves (Message.execute_moves (List.mem_of_getElem? found) run) q
  | returned _ move => exact setPeer_moves move q
  | dropped _ => exact Or.inl rfl
  | crashed move => exact setPeer_moves move q

/-- The channels of crashed incarnations stay as they were at the crash. -/
theorem step_past {action : Action n C} (h : s.step action = .ok s') :
    s'.past = s.past ∨ ∃ p, s'.past = s.past ++ [(p, (s.peers p).applyCh)] := by
  cases step_effect h with
  | @crashed p _ _ => exact Or.inr ⟨p, rfl⟩
  | _ => exact Or.inl rfl

/-- What is on the network was there, or the action has put it there. -/
theorem step_net {action : Action n C} (h : s.step action = .ok s') {flight : Flight n C}
    (hmem : flight ∈ s'.net) : s.Carried action flight := by
  cases step_effect h with
  | moved _ | crashed _ => exact Or.inl hmem
  | sent _ sent =>
      rcases List.mem_append.mp hmem with hold | hnew
      · exact Or.inl hold
      · exact Or.inr (Or.inr (sent flight hnew))
  | executed found run =>
      rcases List.mem_or_eq_of_mem_set hmem with hold | rfl
      · exact Or.inl hold
      · exact Or.inr (Or.inl ⟨_, List.mem_of_getElem? found, _, run⟩)
  | returned _ _ | dropped _ => exact Or.inl (List.mem_of_mem_eraseIdx hmem)

end Cluster

/-! ## What operations leave to the delivering goroutines -/

/-- The delivery side stands as it was, but for a signal to the applier and for a snapshot
installed above the compaction point. -/
structure Quiet (rf rf' : Raft n C) : Prop where
  lastApplied : rf'.lastApplied = rf.lastApplied
  applyCh : rf'.applyCh = rf.applyCh
  applySeqMu : rf'.applySeqMu = rf.applySeqMu
  incarnation : rf'.incarnation = rf.incarnation
  applier : rf'.applier = rf.applier ∨ rf'.applier = rf.applier.wake
  installs : rf'.installs = rf.installs ∨ ∃ first install, rf.getFirstLog = some first ∧
    first.index < install.snapShotIndex ∧ rf'.installs = rf.installs ++ [install]

namespace Quiet

variable {rf rf' : Raft n C}

theorem refl (rf : Raft n C) : Quiet rf rf :=
  ⟨rfl, rfl, rfl, rfl, Or.inl rfl, Or.inl rfl⟩

theorem polls (h : Raft.Polls rf rf') : Quiet rf rf' := by
  rw [h.eq]
  exact { Quiet.refl rf with }

theorem catchUp (rf : Raft n C) (term : Int) : Quiet rf (rf.catchUp term) :=
  Quiet.polls (.catchUp rf term)

/-- A commit wakes the applier and touches nothing else. -/
theorem commits {mid : Raft n C} (hcommits : Raft.Commits mid rf') (h : Quiet rf mid) :
    Quiet rf rf' := by
  have hwoken : rf'.applier = rf.applier ∨ rf'.applier = rf.applier.wake := by
    rcases hcommits.applier with hlast | hlast <;> rcases h.applier with hmid | hmid <;>
      rw [hlast, hmid]
    · exact Or.inl rfl
    · exact Or.inr rfl
    · exact Or.inr rfl
    · exact Or.inr (Raft.Applier.wake_wake _)
  rw [hcommits.eq]
  exact { h with applier := hwoken }

theorem requestSendLog {args : SendLogArgs n C} {reply : SendLogReply}
    (h : rf.requestSendLog args = some (rf', reply)) : Quiet rf rf' := by
  have hcaught := Quiet.catchUp rf args.term
  cases Raft.requestSendLog_outcome h with
  | stale => exact Quiet.refl rf
  | refused => exact hcaught
  | below => exact hcaught
  | taken _ _ _ _ _ _ _ followed =>
      exact Quiet.commits (Raft.followCommit_cases followed).1 { hcaught with }

theorem requestInstallSnapShot {args : RequestSnapShotArgs n} {reply : RequestSnapShotReply}
    (h : rf.requestInstallSnapShot args = some (rf', reply)) : Quiet rf rf' := by
  have hcaught := Quiet.catchUp rf args.term
  cases Raft.requestInstallSnapShot_outcome h with
  | stale => exact { Quiet.refl rf with }
  | covered => exact { hcaught with }
  | replaced _ covers =>
      refine { hcaught with installs := Or.inr ?_ }
      obtain ⟨first, last, hfirst, _, hcases⟩ := Raft.coversSnapShot_cases covers
      rw [Raft.getFirstLog, Raft.catchUp_log, ← Raft.getFirstLog] at hfirst
      refine ⟨first, ⟨args.lastIncludedIndex, args.lastIncludedTerm⟩, hfirst, ?_, ?_⟩
      · rcases hcases with ⟨_, hcovered⟩ | ⟨hlow, _⟩ | ⟨hlow, _⟩
        · cases hcovered
        · exact hlow
        · exact hlow
      · show (rf.catchUp args.term).installs ++ _ = _
        rw [Raft.catchUp_installs]

theorem handleSendLogReply {peer : Fin n} {args : SendLogArgs n C} {recodeNextIndex : Int}
    {reply : SendLogReply}
    (h : rf.handleSendLogReply peer args recodeNextIndex reply = some rf') : Quiet rf rf' := by
  cases Raft.handleSendLogReply_answer h with
  | overtaken => exact Quiet.catchUp rf reply.term
  | ignored => exact Quiet.refl rf
  | matched _ _ _ _ advanced =>
      exact Quiet.commits (Raft.advanceCommit_cases advanced).1 { Quiet.refl rf with }
  | backed _ _ _ _ _ backed =>
      obtain ⟨_, _, index, _, _, rfl, _⟩ := Raft.backUp_cases backed
      exact { Quiet.refl rf with }

theorem handleSnapShotReply {peer : Fin n} {args : RequestSnapShotArgs n}
    {sendNextIndex sendMatchIndex : Int} {reply : RequestSnapShotReply}
    (h : rf.handleSnapShotReply peer args sendNextIndex sendMatchIndex reply = some rf') :
    Quiet rf rf' := by
  cases Raft.handleSnapShotReply_answer h with
  | overtaken => exact Quiet.catchUp rf reply.term
  | ignored => exact Quiet.refl rf
  | recorded _ _ _ advanced =>
      exact Quiet.commits (Raft.advanceCommit_cases advanced).1 { Quiet.refl rf with }

theorem operation {op : Operation n C} (h : op.run rf = some rf') : Quiet rf rf' := by
  cases op with
  | requestVote args =>
      cases h
      exact Quiet.polls (.requestVote rf args)
  | requestHeartBeat args =>
      cases h
      exact Quiet.polls (.requestHeartBeat rf args)
  | requestSendLog args =>
      obtain ⟨⟨after, reply⟩, hafter, rfl⟩ := Option.map_eq_some_iff.mp h
      exact Quiet.requestSendLog hafter
  | requestInstallSnapShot args =>
      obtain ⟨⟨after, reply⟩, hafter, rfl⟩ := Option.map_eq_some_iff.mp h
      exact Quiet.requestInstallSnapShot hafter
  | start me command =>
      obtain ⟨⟨after, result⟩, hafter, rfl⟩ := Option.map_eq_some_iff.mp h
      rcases Raft.start_cases hafter with rfl | ⟨_, last, _, rfl⟩
      · exact Quiet.refl _
      · exact { Quiet.refl rf with }
  | snapshot index bytes =>
      rcases Raft.serviceSnapshot_cases h with rfl | ⟨_, _, _, _, _, _, _, _, _, _, rfl⟩
      · exact Quiet.refl _
      · exact { Quiet.refl rf with }
  | startElection me =>
      cases h
      exact Quiet.polls (.startElection rf me)
  | voteReply args reply =>
      cases h
      exact Quiet.polls (.handleVoteReply rf args reply)
  | sendLogReply peer args recodeNextIndex reply => exact Quiet.handleSendLogReply h
  | snapShotReply peer args sendNextIndex sendMatchIndex reply => exact Quiet.handleSnapShotReply h

theorem concludeElection {me : Fin n} {election : Election}
    (h : rf.concludeElection me election = some rf') : Quiet rf rf' := by
  rcases Raft.concludeElection_cases h with rfl | ⟨_, _, _, last, _, rfl⟩
  · exact { Quiet.refl rf with }
  · exact { Quiet.refl rf with }

theorem sendLogTicketCore {me : Fin n} {prepared : Raft n C} {jobs : List (SendJob n C)}
    (h : rf.sendLogTicketCore me = some (prepared, jobs)) (sends : List (Fin n)) :
    Quiet rf { prepared with snapShotSends := sends } := by
  rw [(Raft.sendLogTicketCore_cases h).1.eq]
  exact { Quiet.refl rf with }

end Quiet

/-! ## Operations that leave the log alone -/

/-- The log and the snapshot stay. -/
structure KeepsLog (rf rf' : Raft n C) : Prop where
  log : rf'.log = rf.log
  snapshot : rf'.snapshot = rf.snapshot

namespace KeepsLog

variable {rf rf' : Raft n C}

theorem refl (rf : Raft n C) : KeepsLog rf rf :=
  ⟨rfl, rfl⟩

theorem polls (h : Raft.Polls rf rf') : KeepsLog rf rf' := by
  rw [h.eq]
  exact { KeepsLog.refl rf with }

theorem commits {mid : Raft n C} (hcommits : Raft.Commits mid rf') (h : KeepsLog rf mid) :
    KeepsLog rf rf' := by
  rw [hcommits.eq]
  exact { h with }

theorem handleSendLogReply {peer : Fin n} {args : SendLogArgs n C} {recodeNextIndex : Int}
    {reply : SendLogReply}
    (h : rf.handleSendLogReply peer args recodeNextIndex reply = some rf') : KeepsLog rf rf' := by
  cases Raft.handleSendLogReply_answer h with
  | overtaken => exact KeepsLog.polls (.catchUp rf reply.term)
  | ignored => exact KeepsLog.refl rf
  | matched _ _ _ _ advanced =>
      exact KeepsLog.commits (Raft.advanceCommit_cases advanced).1 { KeepsLog.refl rf with }
  | backed _ _ _ _ _ backed =>
      obtain ⟨_, _, index, _, _, rfl, _⟩ := Raft.backUp_cases backed
      exact { KeepsLog.refl rf with }

theorem handleSnapShotReply {peer : Fin n} {args : RequestSnapShotArgs n}
    {sendNextIndex sendMatchIndex : Int} {reply : RequestSnapShotReply}
    (h : rf.handleSnapShotReply peer args sendNextIndex sendMatchIndex reply = some rf') :
    KeepsLog rf rf' := by
  cases Raft.handleSnapShotReply_answer h with
  | overtaken => exact KeepsLog.polls (.catchUp rf reply.term)
  | ignored => exact KeepsLog.refl rf
  | recorded _ _ _ advanced =>
      exact KeepsLog.commits (Raft.advanceCommit_cases advanced).1 { KeepsLog.refl rf with }

end KeepsLog

/-- Four operations may change the log. -/
theorem Operation.log_cases {rf rf' : Raft n C} {op : Operation n C} (h : op.run rf = some rf') :
    KeepsLog rf rf' ∨
    (∃ args reply, op = .requestSendLog args ∧ rf.requestSendLog args = some (rf', reply)) ∨
    (∃ args reply, op = .requestInstallSnapShot args ∧
      rf.requestInstallSnapShot args = some (rf', reply)) ∨
    (∃ me command result, op = .start me command ∧ rf.start me command = some (rf', result)) ∨
    ∃ index bytes, op = .snapshot index bytes ∧ rf.serviceSnapshot index bytes = some rf' := by
  cases op with
  | requestVote args =>
      cases h
      exact Or.inl (KeepsLog.polls (.requestVote rf args))
  | requestHeartBeat args =>
      cases h
      exact Or.inl (KeepsLog.polls (.requestHeartBeat rf args))
  | requestSendLog args =>
      obtain ⟨⟨after, reply⟩, hafter, rfl⟩ := Option.map_eq_some_iff.mp h
      exact Or.inr (Or.inl ⟨args, reply, rfl, hafter⟩)
  | requestInstallSnapShot args =>
      obtain ⟨⟨after, reply⟩, hafter, rfl⟩ := Option.map_eq_some_iff.mp h
      exact Or.inr (Or.inr (Or.inl ⟨args, reply, rfl, hafter⟩))
  | start me command =>
      obtain ⟨⟨after, result⟩, hafter, rfl⟩ := Option.map_eq_some_iff.mp h
      exact Or.inr (Or.inr (Or.inr (Or.inl ⟨me, command, result, rfl, hafter⟩)))
  | snapshot index bytes => exact Or.inr (Or.inr (Or.inr (Or.inr ⟨index, bytes, rfl, h⟩)))
  | startElection me =>
      cases h
      exact Or.inl (KeepsLog.polls (.startElection rf me))
  | voteReply args reply =>
      cases h
      exact Or.inl (KeepsLog.polls (.handleVoteReply rf args reply))
  | sendLogReply peer args recodeNextIndex reply => exact Or.inl (KeepsLog.handleSendLogReply h)
  | snapShotReply peer args sendNextIndex sendMatchIndex reply =>
      exact Or.inl (KeepsLog.handleSnapShotReply h)

/-- An operation moves the commit index, if at all, by following a leader or by counting. -/
theorem Operation.commit_cases {rf rf' : Raft n C} {op : Operation n C}
    (h : op.run rf = some rf') :
    ∃ mid : Raft n C, (rf' = mid ∨ (∃ leaderCommit, mid.followCommit leaderCommit = some rf') ∨
      mid.advanceCommit = some rf') ∧ mid.commitIndex = rf.commitIndex ∧
      mid.applier = rf.applier := by
  have hpolls {polled : Raft n C} (polls : Raft.Polls rf polled) :
      polled.commitIndex = rf.commitIndex ∧ polled.applier = rf.applier := by
    rw [polls.eq]
    exact ⟨rfl, rfl⟩
  have hcaught (term : Int) := hpolls (.catchUp rf term)
  cases op with
  | requestVote args =>
      cases h
      exact ⟨_, Or.inl rfl, hpolls (.requestVote rf args)⟩
  | requestHeartBeat args =>
      cases h
      exact ⟨_, Or.inl rfl, hpolls (.requestHeartBeat rf args)⟩
  | requestSendLog args =>
      obtain ⟨⟨after, reply⟩, hafter, rfl⟩ := Option.map_eq_some_iff.mp h
      cases Raft.requestSendLog_outcome hafter with
      | stale => exact ⟨rf, Or.inl rfl, rfl, rfl⟩
      | refused | below => exact ⟨rf.catchUp args.term, Or.inl rfl, hcaught args.term⟩
      | taken _ _ _ _ _ _ _ followed =>
          exact ⟨_, Or.inr (Or.inl ⟨args.leaderCommit, followed⟩), hcaught args.term⟩
  | requestInstallSnapShot args =>
      obtain ⟨⟨after, reply⟩, hafter, rfl⟩ := Option.map_eq_some_iff.mp h
      cases Raft.requestInstallSnapShot_outcome hafter with
      | stale => exact ⟨rf.persist, Or.inl rfl, rfl, rfl⟩
      | covered | replaced => exact ⟨_, Or.inl rfl, hcaught args.term⟩
  | start me command =>
      obtain ⟨⟨after, result⟩, hafter, rfl⟩ := Option.map_eq_some_iff.mp h
      rcases Raft.start_cases hafter with rfl | ⟨_, last, _, rfl⟩
      · exact ⟨_, Or.inl rfl, rfl, rfl⟩
      · exact ⟨_, Or.inl rfl, rfl, rfl⟩
  | snapshot index bytes =>
      rcases Raft.serviceSnapshot_cases h with rfl | ⟨_, _, _, _, _, _, _, _, _, _, rfl⟩
      · exact ⟨_, Or.inl rfl, rfl, rfl⟩
      · exact ⟨_, Or.inl rfl, rfl, rfl⟩
  | startElection me =>
      cases h
      exact ⟨_, Or.inl rfl, hpolls (.startElection rf me)⟩
  | voteReply args reply =>
      cases h
      exact ⟨_, Or.inl rfl, hpolls (.handleVoteReply rf args reply)⟩
  | sendLogReply peer args recodeNextIndex reply =>
      cases Raft.handleSendLogReply_answer h with
      | overtaken => exact ⟨_, Or.inl rfl, hcaught reply.term⟩
      | ignored => exact ⟨rf, Or.inl rfl, rfl, rfl⟩
      | matched _ _ _ _ advanced => exact ⟨_, Or.inr (Or.inr advanced), rfl, rfl⟩
      | backed _ _ _ _ _ backed =>
          obtain ⟨_, _, index, _, _, rfl, _⟩ := Raft.backUp_cases backed
          exact ⟨_, Or.inl rfl, rfl, rfl⟩
  | snapShotReply peer args sendNextIndex sendMatchIndex reply =>
      cases Raft.handleSnapShotReply_answer h with
      | overtaken => exact ⟨_, Or.inl rfl, hcaught reply.term⟩
      | ignored => exact ⟨rf, Or.inl rfl, rfl, rfl⟩
      | recorded _ _ _ advanced => exact ⟨_, Or.inr (Or.inr advanced), rfl, rfl⟩

/-! ## Properties of single peers -/

namespace Cluster

variable {s : Cluster n C}

/-- What a new peer has and every move keeps, each peer of a run has.  The property may
speak of the actions so far. -/
theorem peer_of_runsIf {allowed : Cluster n C → Action n C → Prop}
    {P : List (Action n C) → Raft n C → Prop} {actions : List (Action n C)}
    (hrun : RunsIf step allowed initial actions s) (p : Fin n) (hstart : P [] newPeer)
    (hlater : ∀ {past rf} action, P past rf → P (past ++ [action]) rf)
    (hmove : ∀ {past t action rf'}, RunsIf step allowed initial past t → allowed t action →
      P (past ++ [action]) (t.peers p) → PeerMove t.net p (t.peers p) action rf' →
      P (past ++ [action]) rf') : P actions (s.peers p) := by
  induction hrun with
  | refl => exact hstart
  | tail before permitted taken ih =>
      rcases step_moves taken p with hsame | hmoved
      · rw [hsame]
        exact hlater _ ih
      · exact hmove before permitted (hlater _ ih) hmoved

theorem peer_of_reachable {P : Raft n C → Prop} (hreach : Reachable s) (p : Fin n)
    (hstart : P newPeer)
    (hmove : ∀ {t action rf'}, Reachable t → P (t.peers p) →
      PeerMove t.net p (t.peers p) action rf' → P rf') : P (s.peers p) := by
  obtain ⟨actions, hrun⟩ := hreach.exists_runs
  exact peer_of_runsIf (P := fun _ => P) hrun p hstart (fun _ h => h)
    fun before _ h hmoved => hmove before.reaches h hmoved

end Cluster

/-! ## What the other goroutines leave to the operations -/

/-- Nothing that has to survive a crash is touched, and no snapshot is installed. -/
structure Frame (rf rf' : Raft n C) : Prop where
  currentTerm : rf'.currentTerm = rf.currentTerm
  voteFor : rf'.voteFor = rf.voteFor
  log : rf'.log = rf.log
  snapshot : rf'.snapshot = rf.snapshot
  persister : rf'.persister = rf.persister
  incarnation : rf'.incarnation = rf.incarnation
  start : rf'.applyCh.start = rf.applyCh.start
  msgs : rf.applyCh.msgs <+: rf'.applyCh.msgs
  installs : ∀ install ∈ rf'.installs, install ∈ rf.installs

theorem Frame.refl (rf : Raft n C) : Frame rf rf :=
  ⟨rfl, rfl, rfl, rfl, rfl, rfl, rfl, List.prefix_refl _, fun _ hmem => hmem⟩

/-- A move is an operation, leaves the durable state alone, or is a crash. -/
theorem PeerMove.frame {net : List (Flight n C)} {p : Fin n} {rf rf' : Raft n C}
    {action : Action n C} (hmove : PeerMove net p rf action rf') :
    (∃ op : Operation n C, op.Cause net p rf action ∧ op.run rf = some rf') ∨ Frame rf rf' ∨
      (action = .crash p ∧ Raft.make p rf.persister (rf.incarnation + 1) = some rf') := by
  cases hmove with
  | operation op cause run => exact Or.inl ⟨op, cause, run⟩
  | concludeElection election counted run =>
      rcases Raft.concludeElection_cases run with rfl | ⟨_, _, _, last, _, rfl⟩
      · exact Or.inr (Or.inl { Frame.refl rf with })
      · exact Or.inr (Or.inl { Frame.refl rf with })
  | sendLogTicketCore run sends =>
      rw [(Raft.sendLogTicketCore_cases run).1.eq]
      exact Or.inr (Or.inl { Frame.refl rf with })
  | sendSnapShot sends => exact Or.inr (Or.inl { Frame.refl rf with })
  | applyCollect run =>
      obtain ⟨_, first, _, ⟨_, rfl⟩ | ⟨_, toApply, _, rfl⟩⟩ := Raft.applyCollect_cases run
      · exact Or.inr (Or.inl { Frame.refl rf with })
      · exact Or.inr (Or.inl { Frame.refl rf with })
  | applyLock run =>
      obtain ⟨_, _, _, _, _, ⟨_, rfl⟩ | ⟨_, rfl⟩ | ⟨_, rfl⟩⟩ := Raft.applyLock_cases run
      · exact Or.inr (Or.inl { Frame.refl rf with })
      · exact Or.inr (Or.inl { Frame.refl rf with })
      · exact Or.inr (Or.inl { Frame.refl rf with })
  | applySend run =>
      obtain ⟨toApply, entry, rest, _, rfl⟩ := Raft.applySend_cases run
      exact Or.inr (Or.inl { Frame.refl rf with msgs := List.prefix_append _ _ })
  | applyFinish run =>
      obtain ⟨toApply, _, applied, rfl, _⟩ := Raft.applyFinish_cases run
      exact Or.inr (Or.inl { Frame.refl rf with })
  | installLock run =>
      obtain ⟨install, _, _, rfl⟩ := Raft.installLock_cases run
      exact Or.inr (Or.inl { Frame.refl rf with
        installs := fun other hmem => List.mem_of_mem_eraseIdx hmem })
  | installSend run =>
      obtain ⟨index, msg, _, rfl⟩ := Raft.installSend_cases run
      exact Or.inr (Or.inl { Frame.refl rf with msgs := List.prefix_append _ _ })
  | installFinish run =>
      obtain ⟨index, _, applier, _, rfl⟩ := Raft.installFinish_cases run
      exact Or.inr (Or.inl { Frame.refl rf with })
  | crash run => exact Or.inr (Or.inr ⟨rfl, run⟩)

end DistributedLabs
