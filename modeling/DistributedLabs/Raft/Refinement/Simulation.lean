import DistributedLabs.Raft.Refinement.Votes

/-!
# Every run of a cluster is a run of the protocol
-/

namespace DistributedLabs

open DistributedLabs.Library
open DistributedLabs.Library.Replication

variable {n : Nat} {C : Type} {A A' : Protocol n C} {p : Fin n} {rf rf' : Raft n C}
  {s s' : Cluster n C}

/-! ## Operations that leave the elections alone -/

namespace Raft

@[simp]
theorem catchUp_elections (rf : Raft n C) (term : Int) :
    (rf.catchUp term).elections = rf.elections := by
  rcases catchUp_cases rf term with ⟨_, heq⟩ | ⟨_, heq⟩
  · rw [heq]
  · rw [heq]
    rfl

theorem Commits.elections (h : Commits rf rf') : rf'.elections = rf.elections := by
  rw [h.eq]

theorem requestVote_elections (rf : Raft n C) (args : RequestVoteArgs n) :
    (rf.requestVote args).1.elections = rf.elections := by
  rcases requestVote_cases rf args with ⟨_, heq⟩ | ⟨_, heq | ⟨heq, _⟩⟩
  · rw [heq]
  · rw [heq, catchUp_elections]
  · rw [heq]
    exact catchUp_elections rf args.term

theorem requestSendLog_elections {args : SendLogArgs n C} {reply : SendLogReply}
    (h : rf.requestSendLog args = some (rf', reply)) : rf'.elections = rf.elections := by
  cases requestSendLog_outcome h with
  | stale => rfl
  | refused => exact catchUp_elections rf args.term
  | below => exact catchUp_elections rf args.term
  | taken _ _ _ _ _ _ _ followed =>
      exact (followCommit_cases followed).1.elections.trans (catchUp_elections rf args.term)

theorem requestInstallSnapShot_elections {args : RequestSnapShotArgs n}
    {reply : RequestSnapShotReply} (h : rf.requestInstallSnapShot args = some (rf', reply)) :
    rf'.elections = rf.elections := by
  cases requestInstallSnapShot_outcome h with
  | stale => rfl
  | covered => exact catchUp_elections rf args.term
  | replaced => exact catchUp_elections rf args.term

theorem start_elections {me : Fin n} {command : Option C} {result : Int × Int × Bool}
    (h : rf.start me command = some (rf', result)) : rf'.elections = rf.elections := by
  rcases start_cases h with rfl | ⟨_, last, _, rfl⟩
  · rfl
  · rfl

theorem serviceSnapshot_elections {index : Int} {bytes : Bytes}
    (h : rf.serviceSnapshot index bytes = some rf') : rf'.elections = rf.elections := by
  rcases serviceSnapshot_cases h with rfl | ⟨_, _, _, _, _, _, _, _, _, _, rfl⟩
  · rfl
  · rfl

theorem handleSendLogReply_elections {peer : Fin n} {args : SendLogArgs n C}
    {recodeNextIndex : Int} {reply : SendLogReply}
    (h : rf.handleSendLogReply peer args recodeNextIndex reply = some rf') :
    rf'.elections = rf.elections := by
  cases handleSendLogReply_answer h with
  | overtaken => exact catchUp_elections rf reply.term
  | ignored => rfl
  | matched _ _ _ _ advanced => exact (advanceCommit_cases advanced).1.elections
  | backed _ _ _ _ _ backed =>
      obtain ⟨_, _, index, _, _, rfl, _⟩ := backUp_cases backed
      rfl

theorem handleSnapShotReply_elections {peer : Fin n} {args : RequestSnapShotArgs n}
    {sendNextIndex sendMatchIndex : Int} {reply : RequestSnapShotReply}
    (h : rf.handleSnapShotReply peer args sendNextIndex sendMatchIndex reply = some rf') :
    rf'.elections = rf.elections := by
  cases handleSnapShotReply_answer h with
  | overtaken => exact catchUp_elections rf reply.term
  | ignored => rfl
  | recorded _ _ _ advanced => exact (advanceCommit_cases advanced).1.elections

end Raft

/-! ## Requests on the network -/

namespace Refines

theorem logRequest (h : Refines A s) {flight : Flight n C} (hmem : flight ∈ s.net)
    {args : SendLogArgs n C} {recodeNextIndex : Int}
    (hmsg : flight.msg = .logRequest args recodeNextIndex) :
    ∃ front entries, LogRel A flight.src args front entries := by
  have hrel := (h.flights flight hmem).msg
  rw [hmsg] at hrel
  exact hrel

theorem snapShotRequest (h : Refines A s) {flight : Flight n C} (hmem : flight ∈ s.net)
    {args : RequestSnapShotArgs n} {sendNextIndex sendMatchIndex : Int}
    (hmsg : flight.msg = .snapShotRequest args sendNextIndex sendMatchIndex) :
    ∃ front, SnapShotRel A flight.src args front := by
  have hrel := (h.flights flight hmem).msg
  rw [hmsg] at hrel
  exact hrel

/-! ## Moving one peer -/

/-- One member moved; the calls in progress are old ones or new ones that make sense. -/
theorem update (h : Refines A s) (hsteps : StepsBy p A A') (hreps : Reps A' p rf')
    {net' : List (Flight n C)}
    (hflights : ∀ flight ∈ net', flight ∈ s.net ∨ FlightRel A' flight)
    (hkeys : (voteKeys net').Nodup)
    (hother : ∀ q v term, q ≠ p → (q, v, term) ∈ voteKeys net' → (q, v, term) ∈ voteKeys s.net)
    (hvotes : ∀ election ∈ rf'.elections, Counted A' net' p election) :
    Refines A' { s.setPeer p rf' with net := net' } := by
  have grows := hsteps.grows h.valid
  exact {
    valid := hsteps.valid h.valid
    peers := fun q => by
      by_cases hq : q = p
      · subst hq
        simpa using hreps
      · have hsame := (h.peers q).frame grows (hsteps.frame hq)
        simpa [Cluster.setPeer_of_ne, hq] using hsame
    flights := fun flight hmem => by
      rcases hflights flight hmem with hold | hnew
      · exact (h.flights flight hold).grows grows
      · exact hnew
    keys := hkeys
    votes := fun q election hmem => by
      by_cases hq : q = p
      · subst hq
        exact hvotes election (by simpa using hmem)
      · have hmem' : election ∈ (s.peers q).elections := by
          simpa [Cluster.setPeer_of_ne, hq] using hmem
        exact (h.votes q election hmem').mono grows fun v => hother q v _ hq
    past := fun channel hchannel msg hmsg hvalid =>
      (h.past channel hchannel msg hmsg hvalid).grows grows }

/-- No new call asks for a vote, and the elections stand as they were. -/
theorem keep (h : Refines A s) (hsteps : StepsBy p A A') (hreps : Reps A' p rf')
    (helections : rf'.elections = (s.peers p).elections) {net' : List (Flight n C)}
    (hflights : ∀ flight ∈ net', flight ∈ s.net ∨ FlightRel A' flight)
    (hsub : List.Sublist (voteKeys net') (voteKeys s.net)) :
    Refines A' { s.setPeer p rf' with net := net' } := by
  refine h.update hsteps hreps hflights (h.keys.sublist hsub)
    (fun q v term _ hmem => hsub.subset hmem) fun election hmem => ?_
  rw [helections] at hmem
  exact (h.votes p election hmem).mono (hsteps.grows h.valid) fun v hin => hsub.subset hin

/-- The network is not touched. -/
theorem setPeer (h : Refines A s) (hsteps : StepsBy p A A') (hreps : Reps A' p rf')
    (helections : rf'.elections = (s.peers p).elections) : Refines A' (s.setPeer p rf') :=
  h.keep hsteps hreps helections (fun _ hmem => Or.inl hmem) (List.Sublist.refl _)

/-- A step of the source that is no step of the protocol. -/
theorem onPeer {op : Raft n C → Outcome (Raft n C)} (h : Refines A s)
    (hrun : s.onPeer p op = .ok s')
    (hop : ∀ {rf'}, op (s.peers p) = .ok rf' →
      Reps A p rf' ∧ rf'.elections = (s.peers p).elections) :
    ∃ A', Steps A A' ∧ Refines A' s' := by
  obtain ⟨rf', hrf', rfl⟩ := Cluster.onPeer_ok hrun
  obtain ⟨hreps, helections⟩ := hop hrf'
  exact ⟨A, Relation.ReflTransGen.refl, h.setPeer (StepsBy.refl p A) hreps helections⟩

end Refines

/-! ## Executing a call -/

theorem Reps.execute (valid : Valid A) (h : Reps A p rf) {src : Fin n} {msg msg' : Message n C}
    (hne : src ≠ p) (hmsg : MessageRel A src p msg) (hrun : msg.execute rf = .ok (rf', msg')) :
    ∃ A', StepsBy p A A' ∧ Reps A' p rf' ∧ MessageRel A' src p msg' ∧
      rf'.elections = rf.elections := by
  cases msg with
  | voteRequest args =>
      cases hrun
      obtain ⟨l, hl⟩ := hmsg
      obtain ⟨A', hsteps, hreps, hreply⟩ := h.requestVote valid hl
      exact ⟨A', hsteps, hreps, hreply, Raft.requestVote_elections rf args⟩
  | logRequest args recodeNextIndex =>
      obtain ⟨⟨after, reply⟩, hafter, heq⟩ := Outcome.map_eq_ok.mp hrun
      cases heq
      have hafter := Outcome.ofOption_eq_ok.mp hafter
      obtain ⟨front, entries, hlog⟩ := hmsg
      obtain ⟨A', hsteps, hreps, hack⟩ := h.requestSendLog valid hne hlog hafter
      exact ⟨A', hsteps, hreps, ⟨front, entries, hlog.grows (hsteps.grows valid), hack⟩,
        Raft.requestSendLog_elections hafter⟩
  | snapShotRequest args sendNextIndex sendMatchIndex =>
      obtain ⟨⟨after, reply⟩, hafter, heq⟩ := Outcome.map_eq_ok.mp hrun
      cases heq
      have hafter := Outcome.ofOption_eq_ok.mp hafter
      obtain ⟨front, hsnap⟩ := hmsg
      obtain ⟨A', hsteps, hreps, hack⟩ := h.requestInstallSnapShot valid hne hsnap hafter
      exact ⟨A', hsteps, hreps, ⟨front, hsnap.grows (hsteps.grows valid), hack⟩,
        Raft.requestInstallSnapShot_elections hafter⟩
  | _ => cases hrun

/-- The answer to a call belongs to the same election as the call. -/
theorem Message.execute_voteKey {src dst : Fin n} {incarnation : Nat} {msg msg' : Message n C}
    (hrun : msg.execute rf = .ok (rf', msg')) :
    Flight.voteKey ⟨src, dst, incarnation, msg'⟩ = Flight.voteKey ⟨src, dst, incarnation, msg⟩ := by
  cases msg with
  | voteRequest args =>
      cases hrun
      rfl
  | logRequest args recodeNextIndex =>
      obtain ⟨⟨after, reply⟩, _, heq⟩ := Outcome.map_eq_ok.mp hrun
      cases heq
      rfl
  | snapShotRequest args sendNextIndex sendMatchIndex =>
      obtain ⟨⟨after, reply⟩, _, heq⟩ := Outcome.map_eq_ok.mp hrun
      cases heq
      rfl
  | _ => cases hrun

theorem Refines.deliver (h : Refines A s) {k : Nat} (hrun : s.deliver k = .ok s') :
    ∃ A', Steps A A' ∧ Refines A' s' := by
  unfold Cluster.deliver at hrun
  split at hrun
  · next flight hflight =>
      obtain ⟨⟨after, msg⟩, hafter, rfl⟩ := Outcome.map_eq_ok.mp hrun
      obtain ⟨hdistinct, hmsg⟩ := h.flights flight (List.mem_of_getElem? hflight)
      obtain ⟨A', hsteps, hreps, hmsg', helections⟩ :=
        (h.peers flight.dst).execute h.valid hdistinct hmsg hafter
      refine ⟨A', hsteps.steps, h.keep hsteps hreps helections (fun other hmem => ?_) ?_⟩
      · rcases List.mem_or_eq_of_mem_set hmem with hold | rfl
        · exact Or.inl hold
        · exact Or.inr ⟨hdistinct, hmsg'⟩
      · have hkeys : voteKeys (s.net.set k { flight with msg := msg }) = voteKeys s.net :=
          filterMap_set_of_eq _ hflight (Message.execute_voteKey hafter)
        rw [hkeys]
  · cases hrun

/-! ## Taking an answer -/

theorem Refines.drop (h : Refines A s) (k : Nat) :
    Refines A { s with net := s.net.eraseIdx k } where
  valid := h.valid
  peers := h.peers
  flights := fun flight hmem => h.flights flight (List.mem_of_mem_eraseIdx hmem)
  keys := h.keys.sublist (filterMap_eraseIdx_sublist _)
  votes := fun p election hmem => (h.votes p election hmem).mono (Grows.refl A)
    fun _ hin => (filterMap_eraseIdx_sublist _).subset hin
  past := h.past

/-- The answer to a call for a vote is counted, or the failed call is. -/
theorem Refines.handleVoteReply (h : Refines A s) {k : Nat} {flight : Flight n C}
    (args : RequestVoteArgs n) (reply : Option RequestVoteReply)
    (hflight : s.net[k]? = some flight)
    (hkey : flight.voteKey = some (flight.src, flight.dst, args.term))
    (hgranted : ∀ answer, reply = some answer → answer.voteGranted = true →
      ∃ l, A.ballot args.term flight.dst = some (flight.src, l)) :
    ∃ A', Steps A A' ∧ Refines A'
      { s.setPeer flight.src ((s.peers flight.src).handleVoteReply args reply) with
        net := s.net.eraseIdx k } := by
  obtain ⟨A', hsteps, hreps⟩ := (h.peers flight.src).handleVoteReply h.valid args reply
  have grows := hsteps.grows h.valid
  refine ⟨A', hsteps.steps, h.update hsteps hreps
    (fun other hmem => Or.inl (List.mem_of_mem_eraseIdx hmem))
    (h.keys.sublist (filterMap_eraseIdx_sublist _))
    (fun q v term _ hmem => (filterMap_eraseIdx_sublist _).subset hmem) ?_⟩
  obtain ⟨term, heq⟩ := Raft.handleVoteReply_eq (s.peers flight.src) args reply
  rw [heq, Raft.catchUp_elections]
  refine counted_answer grows h.keys hflight hkey (fun answer hanswer hvote => ?_)
    (h.votes flight.src)
  obtain ⟨l, hl⟩ := hgranted answer hanswer hvote
  exact ⟨l, grows.ballot hl⟩

theorem Refines.answer (h : Refines A s) {k : Nat} (hrun : s.answer k = .ok s') :
    ∃ A', Steps A A' ∧ Refines A' s' := by
  unfold Cluster.answer at hrun
  split at hrun
  · next flight hflight =>
      split at hrun
      · obtain ⟨after, hafter, rfl⟩ := Outcome.map_eq_ok.mp hrun
        obtain ⟨hdistinct, hmsg⟩ := h.flights flight (List.mem_of_getElem? hflight)
        obtain ⟨src, dst, incarnation, msg⟩ := flight
        cases msg with
        | voteReply args reply =>
            cases hafter
            refine h.handleVoteReply args (some reply) hflight rfl fun answer hanswer hvote => ?_
            obtain rfl := Option.some.inj hanswer
            exact hmsg.2 hvote
        | logReply args recodeNextIndex reply =>
            have hafter := Outcome.ofOption_eq_ok.mp hafter
            obtain ⟨A', hsteps, hreps⟩ := (h.peers src).handleSendLogReply h.valid hmsg hafter
            exact ⟨A', hsteps.steps, h.keep hsteps hreps
              (Raft.handleSendLogReply_elections hafter)
              (fun other hmem => Or.inl (List.mem_of_mem_eraseIdx hmem))
              (filterMap_eraseIdx_sublist _)⟩
        | snapShotReply args sendNextIndex sendMatchIndex reply =>
            have hafter := Outcome.ofOption_eq_ok.mp hafter
            obtain ⟨A', hsteps, hreps⟩ := (h.peers src).handleSnapShotReply h.valid hmsg hafter
            exact ⟨A', hsteps.steps, h.keep hsteps hreps
              (Raft.handleSnapShotReply_elections hafter)
              (fun other hmem => Or.inl (List.mem_of_mem_eraseIdx hmem))
              (filterMap_eraseIdx_sublist _)⟩
        | _ => cases hafter
      · cases hrun
        exact ⟨A, Relation.ReflTransGen.refl, h.drop k⟩
  · cases hrun

theorem Refines.fail (h : Refines A s) {k : Nat} (hrun : s.fail k = .ok s') :
    ∃ A', Steps A A' ∧ Refines A' s' := by
  unfold Cluster.fail at hrun
  split at hrun
  · next flight hflight =>
      split at hrun
      · cases hrun
        obtain ⟨src, dst, incarnation, msg⟩ := flight
        cases msg with
        | voteRequest args =>
            exact h.handleVoteReply args none hflight rfl fun _ hanswer => by cases hanswer
        | voteReply args reply =>
            exact h.handleVoteReply args none hflight rfl fun _ hanswer => by cases hanswer
        | _ =>
            exact ⟨A, Relation.ReflTransGen.refl,
              (h.drop k).setPeer (StepsBy.refl src A) (h.peers src) rfl⟩
      · cases hrun
        exact ⟨A, Relation.ReflTransGen.refl, h.drop k⟩
  · cases hrun

/-! ## Standing and winning -/

theorem Refines.ticker (h : Refines A s) (hrun : s.ticker p = .ok s') :
    ∃ A', Steps A A' ∧ Refines A' s' := by
  unfold Cluster.ticker at hrun
  dsimp only at hrun
  split at hrun
  · cases hrun
    obtain ⟨A', hsteps, hreps, hlt, hterm, hvote, hballot⟩ := (h.peers p).startElection h.valid
    have grows := hsteps.grows h.valid
    have hnew : ∀ {key}, key ∈ voteKeys (Cluster.voteFlights (C := C) p
        (s.peers p).incarnation ((s.peers p).startElection p).2) →
        ∃ dst, dst ≠ p ∧ key = (p, dst, ((s.peers p).startElection p).2.term) := by
      intro key hin
      rw [voteKeys_voteFlights] at hin
      obtain ⟨dst, hdst, rfl⟩ := List.mem_map.mp hin
      exact ⟨dst, by simpa using (List.mem_filter.mp hdst).2, rfl⟩
    refine ⟨A', hsteps.steps, h.update hsteps hreps (fun flight hmem => ?_) ?_ ?_ ?_⟩
    · rcases List.mem_append.mp hmem with hold | hin
      · exact Or.inl hold
      · obtain ⟨dst, hdst, rfl⟩ := List.mem_map.mp hin
        have hne : dst ≠ p := by simpa using (List.mem_filter.mp hdst).2
        exact Or.inr ⟨hne.symm, A.log p, hvote⟩
    · rw [voteKeys, List.filterMap_append]
      refine List.nodup_append.mpr ⟨h.keys, ?_, ?_⟩
      · rw [← voteKeys, voteKeys_voteFlights]
        refine List.Nodup.map (fun left right heq => ?_)
          ((List.nodup_finRange n).filter _)
        simpa using heq
      · intro key hold other hin heq
        subst heq
        obtain ⟨dst, _, rfl⟩ := hnew hin
        exact absurd (voteKeys_le h.valid h.flights hold).2 (Int.not_le.mpr hlt)
    · intro q v term hq hmem
      rw [voteKeys, List.filterMap_append, List.mem_append] at hmem
      rcases hmem with hold | hin
      · exact hold
      · obtain ⟨dst, _, heq⟩ := hnew hin
        simp only [Prod.mk.injEq] at heq
        exact absurd heq.1 hq
    · exact counted_stand h.valid grows h.flights hlt hterm hballot (h.votes p)
  · cases hrun

theorem Refines.concludeElection (h : Refines A s) {k : Nat}
    (hrun : s.concludeElection p k = .ok s') : ∃ A', Steps A A' ∧ Refines A' s' := by
  unfold Cluster.concludeElection at hrun
  split at hrun
  · next election helection =>
      split at hrun
      · cases hrun
      · obtain ⟨rf', hrf', rfl⟩ := Cluster.onPeer_ok hrun
        have hrf' := Outcome.ofOption_eq_ok.mp hrf'
        have hcounted := h.votes p election (List.mem_of_getElem? helection)
        obtain ⟨A', hsteps, hreps⟩ :=
          (h.peers p).concludeElection h.valid hrf' hcounted.majority
        have helections : rf'.elections = (s.peers p).elections.erase election := by
          rcases Raft.concludeElection_cases hrf' with rfl | ⟨_, _, _, last, _, rfl⟩
          · rfl
          · rfl
        refine ⟨A', hsteps.steps, h.update hsteps hreps (fun flight hmem => Or.inl hmem)
          h.keys (fun q v term _ hmem => hmem) fun other hmem => ?_⟩
        rw [helections] at hmem
        exact (h.votes p other (List.mem_of_mem_erase hmem)).mono (hsteps.grows h.valid)
          fun v hin => hin
  · cases hrun

/-! ## Requests and restarts -/

theorem Refines.sendLogTicketCore (h : Refines A s) (hrun : s.sendLogTicketCore p = .ok s') :
    ∃ A', Steps A A' ∧ Refines A' s' := by
  obtain ⟨⟨prepared, jobs⟩, hprepared, rfl⟩ := Outcome.map_eq_ok.mp hrun
  have hprepared := Outcome.ofOption_eq_ok.mp hprepared
  obtain ⟨hprepares, hjobs⟩ := Raft.sendLogTicketCore_cases hprepared
  obtain ⟨f, c, hpeer, hchannel⟩ := h.peers p
  have hjob : ∀ job ∈ jobs, (s.peers p).state = .leader ∧ ∃ peer, peer ≠ p ∧
      (job = .snapShot peer ∨ ∃ args recodeNextIndex,
        (s.peers p).BuildsLog p recodeNextIndex args ∧ job = .log peer args recodeNextIndex) := by
    intro job hmem
    rcases hjobs with ⟨_, rfl⟩ | ⟨hleader, hall⟩
    · cases hmem
    · exact ⟨hleader, hall job hmem⟩
  have hpeer' := hpeer.prepares hprepares
  have hchannel' : ChannelRel A prepared f c := by
    rw [hprepares.eq]
    exact hchannel.congr rfl rfl rfl rfl
  have hreps : Reps A p { prepared with
      snapShotSends := prepared.snapShotSends ++ Cluster.snapShotPeers jobs } := by
    refine ⟨f, c, { hpeer' with sends := fun dst hmem => ?_ }, hchannel'.congr rfl rfl rfl rfl⟩
    rcases List.mem_append.mp hmem with hold | hnew
    · exact hpeer'.sends dst hold
    · obtain ⟨job, hin, heq⟩ := List.mem_filterMap.mp hnew
      obtain ⟨_, peer, hne, hcases⟩ := hjob job hin
      rcases hcases with rfl | ⟨args, recodeNextIndex, _, rfl⟩
      · exact Option.some.inj heq ▸ hne
      · cases heq
  refine ⟨A, Relation.ReflTransGen.refl, h.keep (StepsBy.refl p A) hreps ?_
    (fun flight hmem => ?_) ?_⟩
  · rw [hprepares.eq]
  · rcases List.mem_append.mp hmem with hold | hnew
    · exact Or.inl hold
    · obtain ⟨job, hin, heq⟩ := List.mem_filterMap.mp hnew
      obtain ⟨hleader, peer, hne, hcases⟩ := hjob job hin
      rcases hcases with rfl | ⟨args, recodeNextIndex, hbuilds, rfl⟩
      · cases heq
      · obtain rfl := Option.some.inj heq
        obtain ⟨front, entries, hlog, _⟩ := hpeer.buildsLog h.valid hleader hbuilds
        exact Or.inr ⟨hne.symm, front, entries, hlog⟩
  · rw [voteKeys, List.filterMap_append, ← voteKeys, ← voteKeys, voteKeys_logFlights,
      List.append_nil]

theorem Refines.sendSnapShot (h : Refines A s) {k : Nat} (hrun : s.sendSnapShot p k = .ok s') :
    ∃ A', Steps A A' ∧ Refines A' s' := by
  obtain ⟨f, c, hpeer, hchannel⟩ := h.peers p
  have hreps : Reps A p { s.peers p with
      snapShotSends := (s.peers p).snapShotSends.eraseIdx k } :=
    ⟨f, c, { hpeer with sends := fun dst hmem => hpeer.sends dst (List.mem_of_mem_eraseIdx hmem) },
      hchannel.congr rfl rfl rfl rfl⟩
  unfold Cluster.sendSnapShot at hrun
  dsimp only at hrun
  split at hrun
  · next dst hdst =>
      obtain ⟨request, hrequest, heq⟩ := Outcome.map_eq_ok.mp hrun
      have hrequest := Outcome.ofOption_eq_ok.mp hrequest
      refine ⟨A, Relation.ReflTransGen.refl, ?_⟩
      cases request with
      | none =>
          subst heq
          exact h.setPeer (StepsBy.refl p A) hreps rfl
      | some request =>
          subst heq
          refine h.keep (StepsBy.refl p A) hreps rfl (fun flight hmem => ?_) ?_
          · rcases List.mem_append.mp hmem with hold | hnew
            · exact Or.inl hold
            · rw [List.mem_singleton.mp hnew]
              exact Or.inr ⟨(hpeer.sends dst (List.mem_of_getElem? hdst)).symm,
                hpeer.sendSnapShot h.valid hrequest⟩
          · rw [voteKeys, List.filterMap_append]
            change (s.net.filterMap Flight.voteKey ++ []).Sublist _
            rw [List.append_nil]
            exact List.Sublist.refl _
  · cases hrun

theorem Refines.crash (h : Refines A s) (hdurable : (s.peers p).Durable)
    (hrun : s.crash p = .ok s') : ∃ A', Steps A A' ∧ Refines A' s' := by
  obtain ⟨made, hmade, rfl⟩ := Outcome.map_eq_ok.mp hrun
  have hmade := Outcome.ofOption_eq_ok.mp hmade
  obtain ⟨A', hsteps, hreps⟩ := (h.peers p).make h.valid hdurable hmade
  have helections : made.elections = [] := by
    obtain ⟨first, last, _, _, heq⟩ := hdurable.make_eq p ((s.peers p).incarnation + 1)
    obtain rfl := Option.some.inj (heq.symm.trans hmade)
    rfl
  have hrefines : Refines A' (s.setPeer p made) :=
    h.update hsteps hreps (fun _ hmem => Or.inl hmem) h.keys (fun _ _ _ _ hmem => hmem)
      fun election hmem => by rw [helections] at hmem; cases hmem
  refine ⟨A', hsteps.steps, { hrefines with past := fun channel hchannel msg hmsg hvalid => ?_ }⟩
  rcases List.mem_append.mp hchannel with hold | hnew
  · exact hrefines.past channel hold msg hmsg hvalid
  · rw [List.mem_singleton.mp hnew] at hmsg
    obtain ⟨f, c, _, hgiven⟩ := h.peers p
    exact ((hgiven.given msg hmsg).2 hvalid).grows (hsteps.grows h.valid)

/-! ## Runs -/

theorem Refines.step (h : Refines A s) (hdurable : ∀ p, (s.peers p).Durable)
    {action : Action n C} (hrun : s.step action = .ok s') : ∃ A', Steps A A' ∧ Refines A' s' := by
  cases action with
  | start p command =>
      simp only [Cluster.step] at hrun
      obtain ⟨rf', hrf', rfl⟩ := Cluster.onPeer_ok hrun
      obtain ⟨⟨after, result⟩, hafter, rfl⟩ := Outcome.map_eq_ok.mp hrf'
      have hafter := Outcome.ofOption_eq_ok.mp hafter
      obtain ⟨A', hsteps, hreps⟩ := (h.peers p).start h.valid hafter
      exact ⟨A', hsteps.steps, h.setPeer hsteps hreps (Raft.start_elections hafter)⟩
  | ticker p => exact h.ticker hrun
  | concludeElection p k => exact h.concludeElection hrun
  | sendLogTicketCore p => exact h.sendLogTicketCore hrun
  | sendSnapShot p k => exact h.sendSnapShot hrun
  | deliver k => exact h.deliver hrun
  | answer k => exact h.answer hrun
  | fail k => exact h.fail hrun
  | snapshot p index bytes =>
      simp only [Cluster.step, Cluster.snapshot] at hrun
      split at hrun
      · next hgiven =>
          refine h.onPeer hrun fun {rf'} hrf' => ?_
          have hrf' := Outcome.ofOption_eq_ok.mp hrf'
          exact ⟨(h.peers p).serviceSnapshot hgiven hrf', Raft.serviceSnapshot_elections hrf'⟩
      · cases hrun
  | applyCollect p =>
      refine h.onPeer hrun fun {rf'} hrf' => ⟨(h.peers p).applyCollect hrf', ?_⟩
      obtain ⟨_, first, _, ⟨_, rfl⟩ | ⟨_, toApply, _, rfl⟩⟩ := Raft.applyCollect_cases hrf'
      · rfl
      · rfl
  | applyLock p =>
      refine h.onPeer hrun fun {rf'} hrf' => ⟨(h.peers p).applyLock hrf', ?_⟩
      obtain ⟨_, _, _, _, _, ⟨_, rfl⟩ | ⟨_, rfl⟩ | ⟨_, rfl⟩⟩ := Raft.applyLock_cases hrf'
      · rfl
      · rfl
      · rfl
  | applySend p =>
      refine h.onPeer hrun fun {rf'} hrf' => ⟨(h.peers p).applySend hrf', ?_⟩
      obtain ⟨_, _, _, _, rfl⟩ := Raft.applySend_cases hrf'
      rfl
  | applyFinish p =>
      refine h.onPeer hrun fun {rf'} hrf' => ⟨(h.peers p).applyFinish hrf', ?_⟩
      obtain ⟨_, _, _, rfl, _⟩ := Raft.applyFinish_cases hrf'
      rfl
  | installLock p k =>
      simp only [Cluster.step] at hrun
      refine h.onPeer hrun fun {rf'} hrf' => ⟨(h.peers p).installLock hrf', ?_⟩
      obtain ⟨_, _, _, rfl⟩ := Raft.installLock_cases hrf'
      rfl
  | installSend p =>
      refine h.onPeer hrun fun {rf'} hrf' => ⟨(h.peers p).installSend hrf', ?_⟩
      obtain ⟨_, _, _, rfl⟩ := Raft.installSend_cases hrf'
      rfl
  | installFinish p =>
      refine h.onPeer hrun fun {rf'} hrf' => ⟨(h.peers p).installFinish hrf', ?_⟩
      obtain ⟨_, _, _, _, rfl⟩ := Raft.installFinish_cases hrf'
      rfl
  | crash p => exact h.crash (hdurable p) hrun

theorem refines_initial : Refines (Replication.initial : Protocol n C) Cluster.initial where
  valid := valid_initial
  peers := fun p => by
    refine ⟨0, 0, ?_, ?_⟩
    · exact {
        term := rfl
        vote := rfl
        role := rfl
        log := rfl
        base_le := Nat.le_refl 0
        base := Committed.nil _ _
        commit := rfl
        commit_le := Nat.le_refl 0
        committed := Committed.nil _ _
        matched := fun hleader => by cases hleader
        next := fun hleader => by cases hleader
        sends := fun dst hmem => by cases hmem }
    · exact {
        batch := fun entry hmem => by cases hmem
        given := fun msg hmem => by cases hmem
        start := Int.le_refl _
        installs := fun install hmem => by cases hmem
        seq := trivial }
  flights := fun flight hmem => by cases hmem
  keys := List.nodup_nil
  votes := fun p election hmem => by cases hmem
  past := fun channel hmem => by cases hmem

/-- From a reachable state on, a run of the cluster is a run of the protocol. -/
theorem Refines.reaches (h : Refines A s) (hreach : Cluster.Reachable s)
    (hrun : Reaches Cluster.step s s') : ∃ A', Steps A A' ∧ Refines A' s' := by
  induction hrun with
  | refl => exact ⟨A, Relation.ReflTransGen.refl, h⟩
  | tail before last ih =>
      obtain ⟨A₁, hsteps₁, h₁⟩ := ih
      obtain ⟨action, hstep⟩ := last
      obtain ⟨A₂, hsteps₂, h₂⟩ :=
        h₁.step (Cluster.durable_of_reachable (hreach.trans before)) hstep
      exact ⟨A₂, hsteps₁.trans hsteps₂, h₂⟩

theorem exists_refines (hreach : Cluster.Reachable s) : ∃ A : Protocol n C, Refines A s := by
  obtain ⟨A, _, h⟩ := refines_initial.reaches Relation.ReflTransGen.refl hreach
  exact ⟨A, h⟩

end DistributedLabs
