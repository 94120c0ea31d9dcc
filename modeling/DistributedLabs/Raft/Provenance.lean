import DistributedLabs.Raft.Pairing

/-!
# Nothing is invented

Whatever a channel delivers was handed in: a command was passed to `Start`, and the
bytes of a snapshot were passed to `Snapshot`.
-/

namespace DistributedLabs

open DistributedLabs.Library

variable {n : Nat} {C : Type}

/-! ## Commands in logs -/

/-- The entries a call carries. -/
def Message.entries : Message n C → List (LogEntry C)
  | logRequest args _ | logReply args _ _ => args.entries
  | _ => []

section Logs

variable {rf rf' : Raft n C}

theorem Raft.Trimmed.entries_subset {first : LogEntry C} {args effective : SendLogArgs n C}
    (h : Raft.Trimmed first args effective) {entry : LogEntry C}
    (hmem : entry ∈ effective.entries) : entry ∈ args.entries := by
  cases h with
  | whole => exact hmem
  | cut =>
      have htrim : ∀ {entries kept : List (LogEntry C)},
          Raft.trimEntries first.index entries = some kept → entry ∈ kept → entry ∈ entries := by
        intro entries kept hkept hin
        induction entries with
        | nil => cases hkept
        | cons head rest ih =>
            simp only [Raft.trimEntries] at hkept
            split at hkept
            · cases hkept
              exact hin
            · exact List.mem_cons_of_mem _ (ih hkept)
      cases hkept : Raft.trimEntries first.index args.entries with
      | none => simpa [hkept] using hmem
      | some kept =>
          simp only [hkept, Option.getD_some] at hmem
          exact htrim hkept hmem

/-- A log request brings in no entries but its own. -/
theorem Raft.requestSendLog_entries {args : SendLogArgs n C} {reply : SendLogReply}
    (h : rf.requestSendLog args = some (rf', reply)) {entry : LogEntry C}
    (hmem : entry ∈ rf'.log) : entry ∈ rf.log ∨ entry ∈ args.entries := by
  cases Raft.requestSendLog_outcome h with
  | stale => exact Or.inl hmem
  | refused =>
      rw [Raft.catchUp_log] at hmem
      exact Or.inl hmem
  | below =>
      rw [Raft.catchUp_log] at hmem
      exact Or.inl hmem
  | taken _ _ _ _ trimmed _ merged followed =>
      rw [(Raft.followCommit_cases followed).1.eq] at hmem
      rcases Raft.mergeEntries_cases merged with ⟨rfl, _⟩ | ⟨kept, lastEntry, _, _, hkept, rfl⟩
      · exact Or.inl (rf.catchUp_log args.term ▸ hmem)
      · rcases List.mem_append.mp hmem with hold | hnew
        · rw [Slice.high_eq_some hkept, Raft.catchUp_log] at hold
          exact Or.inl (List.mem_of_mem_take hold)
        · exact Or.inr (trimmed.entries_subset hnew)

/-- A command in the log was there before, came with a request or was passed to `Start`. -/
theorem Operation.entries_cases {op : Operation n C} (h : op.run rf = some rf')
    {entry : LogEntry C} (hmem : entry ∈ rf'.log) :
    entry ∈ rf.log ∨ entry.data = none ∨
    (∃ args, op = .requestSendLog args ∧ entry ∈ args.entries) ∨
    ∃ me, op = .start me entry.data := by
  rcases Operation.log_cases h with hkeeps | ⟨args, reply, rfl, hrun⟩ | ⟨args, reply, rfl, hrun⟩ |
    ⟨me, command, result, rfl, hrun⟩ | ⟨index, bytes, rfl, hrun⟩
  · exact Or.inl (hkeeps.log ▸ hmem)
  · rcases Raft.requestSendLog_entries hrun hmem with hold | hnew
    · exact Or.inl hold
    · exact Or.inr (Or.inr (Or.inl ⟨args, rfl, hnew⟩))
  · cases Raft.requestInstallSnapShot_outcome hrun with
    | stale => exact Or.inl hmem
    | covered => exact Or.inl (rf.catchUp_log args.term ▸ hmem)
    | replaced =>
        rw [List.mem_singleton.mp hmem]
        exact Or.inr (Or.inl rfl)
  · rcases Raft.start_cases hrun with rfl | ⟨_, last, _, rfl⟩
    · exact Or.inl hmem
    · rcases List.mem_append.mp hmem with hold | hnew
      · exact Or.inl hold
      · rw [List.mem_singleton.mp hnew]
        exact Or.inr (Or.inr (Or.inr ⟨me, rfl⟩))
  · rcases Raft.serviceSnapshot_cases hrun with rfl | ⟨_, _, held, rest, _, _, _, _, _, hrest, rfl⟩
    · exact Or.inl hmem
    · rcases List.mem_cons.mp hmem with rfl | hin
      · exact Or.inr (Or.inl rfl)
      · rw [Slice.low_eq_some hrest] at hin
        exact Or.inl (List.mem_of_mem_drop hin)

theorem Raft.mem_of_collectEntries {first : Int} {toApply : List (LogEntry C)}
    (h : rf.collectEntries first = some toApply) {entry : LogEntry C} (hmem : entry ∈ toApply) :
    entry ∈ rf.log := by
  obtain ⟨k, _, hread⟩ := Slice.mem_of_mapM h hmem
  exact Slice.mem_of_get hread

end Logs

/-! ## Commands of a peer -/

/-- Every command the peer has in its log, in its batch or on its channel is good. -/
structure Carries (good : Option C → Prop) (rf : Raft n C) : Prop where
  log : ∀ entry ∈ rf.log, good entry.data
  batch : ∀ entry ∈ rf.applier.entries, good entry.data
  given : ∀ msg ∈ rf.applyCh.msgs, msg.commandValid = true → good msg.command

namespace Carries

variable {good : Option C → Prop} {rf rf' : Raft n C}

theorem quiet (h : Carries good rf) (hquiet : Quiet rf rf')
    (hlog : ∀ entry ∈ rf'.log, good entry.data) : Carries good rf' := by
  refine ⟨hlog, ?_, ?_⟩
  · rw [hquiet.entries_eq]
    exact h.batch
  · rw [hquiet.applyCh]
    exact h.given

/-- A handler leaves good commands when its request brings good ones. -/
theorem operation (h : Carries good rf) {op : Operation n C} (hrun : op.run rf = some rf')
    (hnone : good none)
    (hrequest : ∀ args, op = .requestSendLog args → ∀ entry ∈ args.entries, good entry.data)
    (hstart : ∀ me command, op = .start me command → good command) : Carries good rf' := by
  refine h.quiet (Quiet.operation hrun) fun entry hmem => ?_
  rcases Operation.entries_cases hrun hmem with hold | hdummy | ⟨args, hop, hin⟩ | ⟨me, hop⟩
  · exact h.log entry hold
  · exact hdummy ▸ hnone
  · exact hrequest args hop entry hin
  · exact hstart me _ hop

/-- A batch is read from the log. -/
theorem applyCollect (h : Carries good rf) (hrun : rf.applyCollect = .ok rf') :
    Carries good rf' := by
  obtain ⟨_, first, _, ⟨_, rfl⟩ | ⟨_, toApply, htoApply, rfl⟩⟩ := Raft.applyCollect_cases hrun
  · exact ⟨h.log, fun entry hmem => (by cases hmem), h.given⟩
  · refine ⟨h.log, fun entry hmem => ?_, h.given⟩
    dsimp only at hmem
    split at hmem
    · cases hmem
    · exact h.log entry (Raft.mem_of_collectEntries htoApply hmem)

theorem applyLock (h : Carries good rf) (hrun : rf.applyLock = .ok rf') : Carries good rf' := by
  have hsubset := Raft.applyLock_entries hrun
  have hbatch := fun entry hmem => h.batch entry (hsubset hmem)
  obtain ⟨toApply, _, _, _, _, hcases⟩ := Raft.applyLock_cases hrun
  rcases hcases with ⟨_, rfl⟩ | ⟨_, rfl⟩ | ⟨_, rfl⟩
  · exact ⟨h.log, hbatch, h.given⟩
  · exact ⟨h.log, hbatch, h.given⟩
  · exact ⟨h.log, hbatch, h.given⟩

/-- What is sent comes from the batch. -/
theorem applySend (h : Carries good rf) (hrun : rf.applySend = .ok rf') : Carries good rf' := by
  obtain ⟨hsubset, entry, hentry, hmsgs⟩ := Raft.applySend_entries hrun
  obtain ⟨toApply, _, rest, _, rfl⟩ := Raft.applySend_cases hrun
  refine ⟨h.log, fun other hmem => h.batch other (hsubset hmem), fun msg hmem hvalid => ?_⟩
  rw [hmsgs] at hmem
  rcases List.mem_append.mp hmem with hold | hnew
  · exact h.given msg hold hvalid
  · rw [List.mem_singleton.mp hnew]
    exact h.batch entry hentry

/-- A snapshot message carries no command. -/
theorem installSend (h : Carries good rf) (hdelivering : Delivering rf)
    (hrun : rf.installSend = .ok rf') : Carries good rf' := by
  obtain ⟨index, msg, hinstall, rfl⟩ := Raft.installSend_cases hrun
  have hturn := hdelivering.turn
  rw [hinstall] at hturn
  refine ⟨h.log, h.batch, fun other hmem hvalid => ?_⟩
  rcases List.mem_append.mp hmem with hold | hnew
  · exact h.given other hold hvalid
  · rw [List.mem_singleton.mp hnew] at hvalid
    cases hturn with
    | install _ _ _ other =>
        rw [other] at hvalid
        cases hvalid

theorem installFinish (h : Carries good rf) (hrun : rf.installFinish = .ok rf') :
    Carries good rf' := by
  obtain ⟨_, _, applier, hsignalled, rfl⟩ := Raft.installFinish_cases hrun
  refine ⟨h.log, fun entry hmem => h.batch entry ?_, h.given⟩
  rw [← Applier.entries_signalled hsignalled]
  exact hmem

/-- A restarted peer has the log it persisted, and an empty channel. -/
theorem restart (h : Carries good rf) (hdurable : rf.Durable) {p : Fin n}
    (hrun : Raft.make p rf.persister (rf.incarnation + 1) = some rf') : Carries good rf' := by
  obtain ⟨first, last, _, _, hmake⟩ := hdurable.make_eq p (rf.incarnation + 1)
  rw [← Option.some.inj (hmake.symm.trans hrun)]
  refine ⟨?_, fun entry hmem => (by cases hmem), fun msg hmem => by cases hmem⟩
  show ∀ entry ∈ rf.persister.decode.log, _
  rw [show rf.persister.decode = rf.stable from hdurable.coherent]
  exact h.log

/-- Commands stay good when those that are handed in are. -/
theorem move (h : Carries good rf) (hdurable : rf.Durable) (hdelivering : Delivering rf)
    {net : List (Flight n C)} {p : Fin n} {action : Action n C} (hnone : good none)
    (hnet : ∀ flight ∈ net, ∀ entry ∈ flight.msg.entries, good entry.data)
    (hstart : ∀ command, action = .start p command → good command)
    (hmove : PeerMove net p rf action rf') : Carries good rf' := by
  cases hmove with
  | operation op cause run =>
      refine h.operation run hnone ?_ ?_
      · rintro args rfl entry hin
        obtain ⟨flight, hflight, _, hmsg, _⟩ := cause
        exact hnet flight hflight entry (by rw [hmsg]; exact hin)
      · rintro me command rfl
        exact hstart command cause.1
  | concludeElection election counted run =>
      refine h.quiet (Quiet.concludeElection run) ?_
      rcases Raft.concludeElection_cases run with rfl | ⟨_, _, _, last, _, rfl⟩
      · exact h.log
      · exact h.log
  | sendLogTicketCore run sends =>
      refine h.quiet (Quiet.sendLogTicketCore run sends) ?_
      rw [(Raft.sendLogTicketCore_cases run).1.eq]
      exact h.log
  | sendSnapShot sends => exact ⟨h.log, h.batch, h.given⟩
  | applyCollect run => exact h.applyCollect run
  | applyLock run => exact h.applyLock run
  | applySend run => exact h.applySend run
  | applyFinish run =>
      obtain ⟨_, _, _, rfl, _⟩ := Raft.applyFinish_cases run
      exact ⟨h.log, fun entry hmem => (by cases hmem), h.given⟩
  | installLock run =>
      obtain ⟨_, _, _, rfl⟩ := Raft.installLock_cases run
      exact ⟨h.log, h.batch, h.given⟩
  | installSend run => exact h.installSend hdelivering run
  | installFinish run => exact h.installFinish run
  | crash run => exact h.restart hdurable run

theorem imp {good' : Option C → Prop} (h : Carries good rf)
    (himp : ∀ command, good command → good' command) : Carries good' rf :=
  ⟨fun entry hmem => himp _ (h.log entry hmem), fun entry hmem => himp _ (h.batch entry hmem),
    fun msg hmem hvalid => himp _ (h.given msg hmem hvalid)⟩

end Carries

/-! ## Runs -/

theorem Message.execute_entries {rf rf' : Raft n C} {msg msg' : Message n C}
    (h : msg.execute rf = .ok (rf', msg')) : msg'.entries = msg.entries := by
  cases msg with
  | voteRequest args =>
      cases h
      rfl
  | logRequest args recodeNextIndex =>
      obtain ⟨⟨after, reply⟩, _, heq⟩ := Outcome.map_eq_ok.mp h
      cases heq
      rfl
  | snapShotRequest args sendNextIndex sendMatchIndex =>
      obtain ⟨⟨after, reply⟩, _, heq⟩ := Outcome.map_eq_ok.mp h
      cases heq
      rfl
  | _ => cases h

namespace Cluster

variable {s s' : Cluster n C}

/-- An entry on the network was there before or is in the log of some peer. -/
theorem step_entries {action : Action n C} (h : s.step action = .ok s') {flight : Flight n C}
    (hmem : flight ∈ s'.net) {entry : LogEntry C} (hentry : entry ∈ flight.msg.entries) :
    (∃ old ∈ s.net, entry ∈ old.msg.entries) ∨ ∃ p, entry ∈ (s.peers p).log := by
  rcases step_net h hmem with hold | ⟨old, hold, rf', hrun⟩ | ⟨request, hmsg⟩ |
    ⟨request, recodeNextIndex, _, jobs, _, hrun, hjob, hmsg⟩ |
    ⟨p, request, sendNextIndex, sendMatchIndex, _, hmsg⟩
  · exact Or.inl ⟨flight, hold, hentry⟩
  · rw [Message.execute_entries hrun] at hentry
    exact Or.inl ⟨old, hold, hentry⟩
  · rw [hmsg] at hentry
    cases hentry
  · rw [hmsg] at hentry
    obtain ⟨_, _, first, preLog, entries, _, _, hentries, rfl⟩ := Raft.job_builds hrun hjob
    obtain rfl := Slice.low_eq_some hentries
    exact Or.inr ⟨flight.src, List.mem_of_mem_drop hentry⟩
  · rw [hmsg] at hentry
    cases hentry

/-- The command is nil or was passed to `Start`. -/
def Started (actions : List (Action n C)) (command : Option C) : Prop :=
  command = none ∨ ∃ p, .start p command ∈ actions

theorem Started.extend {actions : List (Action n C)} {command : Option C}
    (h : Started actions command) (action : Action n C) :
    Started (actions ++ [action]) command := by
  rcases h with hnone | ⟨p, hmem⟩
  · exact Or.inl hnone
  · exact Or.inr ⟨p, List.mem_append_left _ hmem⟩

/-- Every command in the cluster was passed to `Start`. -/
structure AllStarted (actions : List (Action n C)) (s : Cluster n C) : Prop where
  peers : ∀ p, Carries (Started actions) (s.peers p)
  flights : ∀ flight ∈ s.net, ∀ entry ∈ flight.msg.entries, Started actions entry.data

theorem allStarted_of_runs {actions : List (Action n C)} (hrun : Runs step initial actions s) :
    AllStarted actions s := by
  induction hrun with
  | refl =>
      refine ⟨fun p => ⟨?_, fun entry hmem => (by cases hmem), fun msg hmem => by cases hmem⟩,
        fun flight hmem => by cases hmem⟩
      intro entry hmem
      rw [List.mem_singleton.mp hmem]
      exact Or.inl rfl
  | @tail past t _ action before permitted taken ih =>
      have hpeers : ∀ p, Carries (Started (past ++ [action])) (t.peers p) :=
        fun p => (ih.peers p).imp fun _ h => h.extend action
      have hflights : ∀ flight ∈ t.net, ∀ entry ∈ flight.msg.entries,
          Started (past ++ [action]) entry.data :=
        fun flight hmem entry hentry => (ih.flights flight hmem entry hentry).extend action
      refine ⟨fun p => ?_, fun flight hmem entry hentry => ?_⟩
      · rcases step_moves taken p with hsame | hmove
        · rw [hsame]
          exact hpeers p
        · refine (hpeers p).move (durable_of_reachable before.reaches p)
            (delivering_of_reachable before.reaches p) (Or.inl rfl) hflights ?_ hmove
          rintro command rfl
          exact Or.inr ⟨p, by simp⟩
      · rcases step_entries taken hmem hentry with ⟨old, hold, hin⟩ | ⟨p, hin⟩
        · exact hflights old hold entry hin
        · exact (hpeers p).log entry hin

/-- The bytes are empty or were passed to `Snapshot`. -/
def Snapshotted (actions : List (Action n C)) (bytes : Bytes) : Prop :=
  bytes = [] ∨ ∃ p index, .snapshot p index bytes ∈ actions

theorem Snapshotted.extend {actions : List (Action n C)} {bytes : Bytes}
    (h : Snapshotted actions bytes) (action : Action n C) :
    Snapshotted (actions ++ [action]) bytes := by
  rcases h with hnil | ⟨p, index, hmem⟩
  · exact Or.inl hnil
  · exact Or.inr ⟨p, index, List.mem_append_left _ hmem⟩

theorem snapshot_of_runs {actions : List (Action n C)} (hrun : Runs step initial actions s)
    (p : Fin n) : Snapshotted actions (s.peers p).snapshot := by
  obtain ⟨first, hfirst⟩ := exists_getFirstLog hrun.reaches p
  rw [Raft.getFirstLog_eq] at hfirst
  rcases (pairedAll_of_runs hrun).peers p first hfirst with
    ⟨_, _, hnil⟩ | ⟨before, after, t, q, hactions, _, _⟩
  · exact Or.inl hnil
  · exact Or.inr ⟨q, first.index, by rw [hactions]; simp⟩

/-- Every snapshot message carries bytes that were passed to `Snapshot`. -/
theorem snapshotted_of_runs {actions : List (Action n C)} (hrun : Runs step initial actions s)
    (p : Fin n) : Bears (fun msg => Snapshotted actions msg.snapshot) (s.peers p) := by
  refine peer_of_runsIf (P := fun actions => Bears fun msg => Snapshotted actions msg.snapshot)
    hrun p ⟨fun _ _ hmu => (by cases hmu), fun msg hmem => by cases hmem⟩
    (fun action h => h.imp fun _ hbytes => hbytes.extend action) ?_
  intro past t action rf' before _ h hmove
  refine h.move (hmove.channelMove (durable_of_reachable before.reaches p)) ?_
  exact fun k install _ _ => (snapshot_of_runs before p).extend action

end Cluster

end DistributedLabs
