import DistributedLabs.KvRaft.System
import DistributedLabs.Library.Table

/-!
# Steps of the system as turns

Every action is a step of the Raft layer, of a clerk, of the handler of one call, or
of one server.  A turn says all that the action changes.
-/

namespace DistributedLabs.KvRaft

open DistributedLabs.Library

variable {n : Nat}

namespace System

/-- The requests that were ever sent. -/
def requests (s : System n) : List ClientRequestArgs :=
  s.calls.map Call.args

/-- The request is the one the clerk has to send next, or the one it is sending. -/
def Serves (s : System n) (clientId : Int) (args : ClientRequestArgs) : Prop :=
  ((s.clerks clientId).pending = none ∧ args.clientId = clientId ∧
    args.reqSeq = (s.clerks clientId).reqSeq) ∨
  ∃ k, (s.clerks clientId).pending = some (args, k)

/-- What becomes of a call, of its server and of the Raft layer. -/
inductive HandlerTurn (s : System n) (call : Call n) : Call n → KVServer → Cluster n Op → Prop where
  | duplicate (sent : call.phase = .sent)
      (seen : (s.servers call.server).Duplicates call.args) :
      HandlerTurn s call
        { call with
          incarnation := (s.raft.peers call.server).incarnation
          phase := .replied { err := .duplicate } }
        (s.servers call.server) s.raft
  | checked (sent : call.phase = .sent) :
      HandlerTurn s call
        { call with
          incarnation := (s.raft.peers call.server).incarnation
          phase := .checked }
        (s.servers call.server) s.raft
  | refused {after : Raft n Op} {index term : Int} (alive : s.Alive call)
      (run : (s.raft.peers call.server).start call.server (some call.args.opLog) =
        some (after, index, term, false)) :
      HandlerTurn s call { call with phase := .replied { err := .wrongLeader } }
        (s.servers call.server) (s.raft.setPeer call.server after)
  | started {after : Raft n Op} {index term : Int} (alive : s.Alive call)
      (run : (s.raft.peers call.server).start call.server (some call.args.opLog) =
        some (after, index, term, true)) :
      HandlerTurn s call { call with phase := .started index term }
        (s.servers call.server) (s.raft.setPeer call.server after)
  | await {index term : Int} {channel : Nat} {kv : KVServer} (alive : s.Alive call)
      (started : call.phase = .started index term)
      (run : (s.servers call.server).getNotifyChannel index = (kv, channel)) :
      HandlerTurn s call { call with phase := .waiting index term channel } kv s.raft
  | receive {index term : Int} {channel : Nat} {kv : KVServer} {reply : ClientRequestReply}
      (alive : s.Alive call) (waiting : call.phase = .waiting index term channel)
      (run : (s.servers call.server).receive channel = .ok (kv, reply)) :
      HandlerTurn s call { call with phase := .replied reply } (kv.scheduleRemoval index) s.raft
  | timeOut {index term : Int} {channel : Nat} (alive : s.Alive call)
      (waiting : call.phase = .waiting index term channel) :
      HandlerTurn s call { call with phase := .replied { err := .timeOut } }
        ((s.servers call.server).scheduleRemoval index) s.raft

/-- What becomes of a server and of the Raft layer, and what is carried out. -/
inductive ServerTurn (codec : Codec) (s : System n) (p : Fin n) :
    SystemAction n → KVServer → Cluster n Op → List (Applied n) → Prop where
  | remove {j : Nat} {index : Int} (found : (s.servers p).removals[j]? = some index) :
      ServerTurn codec s p (.remove p j)
        ({ s.servers p with
          removals := (s.servers p).removals.eraseIdx j }.removeNotifyChannel index) s.raft []
  | apply {msg : ApplyMsg Op} {after : KVServer} (next : s.nextMsg p = some msg)
      (run : (s.servers p).applyMsg codec msg (decide ((s.raft.peers p).state = .leader)) =
        .ok after) :
      ServerTurn codec s p (.apply p) after s.raft ((s.servers p).carried p msg)
  | takeSnapShot {index : Int} {bytes : Bytes} {raft : Cluster n Op}
      (encoded : codec.encode (s.servers p).tables = some bytes)
      (run : s.raft.step (.snapshot p index bytes) = .ok raft) :
      ServerTurn codec s p (.takeSnapShot p) { s.servers p with justApplied := none } raft []
  | skipSnapShot :
      ServerTurn codec s p (.takeSnapShot p) { s.servers p with justApplied := none } s.raft []
  | crash {raft : Cluster n Op} (run : s.raft.step (.crash p) = .ok raft) :
      ServerTurn codec s p (.crash p) (startKVServer codec (s.raft.peers p).persister.snapshot)
        raft []

/-- What an action does. -/
inductive Turn (codec : Codec) (s : System n) : SystemAction n → System n → Prop where
  | raft {action : Action n Op} {raft : Cluster n Op} (internal : Internal action = true)
      (run : s.raft.step action = .ok raft) :
      Turn codec s (.raft action) { s with raft := raft }
  | send {action : SystemAction n} {clientId : Int} {args : ClientRequestArgs} {server : Fin n}
      {clerk : Clerk} (serves : s.Serves clientId args)
      (seq : clerk.reqSeq = (s.clerks clientId).reqSeq)
      (pending : clerk.pending = some (args, s.calls.length)) :
      Turn codec s action ({ s with
        calls := s.calls ++ [({ args := args, server := server } : Call n)]
        }.setClerk clientId clerk)
  | returned {clientId : Int} {clerk : Clerk} {args : ClientRequestArgs} {k : Nat}
      (served : (s.clerks clientId).pending = some (args, k))
      (seq : clerk.reqSeq = (s.clerks clientId).reqSeq + 1) (pending : clerk.pending = none) :
      Turn codec s (.callReturns clientId) (s.setClerk clientId clerk)
  | handler {action : SystemAction n} {k : Nat} {call call' : Call n} {kv : KVServer}
      {raft : Cluster n Op} (found : s.calls[k]? = some call)
      (turn : HandlerTurn s call call' kv raft) :
      Turn codec s action { s with
        raft := raft
        servers := Function.update s.servers call.server kv
        calls := s.calls.set k call' }
  | server {action : SystemAction n} {p : Fin n} {kv : KVServer} {raft : Cluster n Op}
      {applied : List (Applied n)} (turn : ServerTurn codec s p action kv raft applied) :
      Turn codec s action { s with
        raft := raft
        servers := Function.update s.servers p kv
        applied := s.applied ++ applied }

/-! ## Every step is a turn -/

variable {codec : Codec} {s s' : System n} {action : SystemAction n} {k : Nat}

theorem send_turn {clientId : Int} {args : ClientRequestArgs} {leaderId : Nat}
    (serves : s.Serves clientId args) (h : s.send clientId args leaderId = .ok s') :
    Turn codec s action s' := by
  unfold send at h
  split at h
  · cases h
    exact .send serves rfl rfl
  · cases h

theorem request_turn {clientId : Int} {op : OperationOp} {key value : String}
    (h : s.request clientId op key value = .ok s') : Turn codec s action s' := by
  unfold request at h
  dsimp only at h
  split at h
  · next hnone => exact send_turn (Or.inl ⟨hnone, rfl, rfl⟩) h
  · cases h

theorem callFails_turn {clientId : Int} (h : s.callFails clientId = .ok s') :
    Turn codec s action s' := by
  unfold callFails at h
  split at h
  · next hsome => exact send_turn (Or.inr ⟨_, hsome⟩) h
  · cases h

/-- An answer belongs to the request being served. -/
theorem answered_cases {clientId : Int} {args : ClientRequestArgs} {reply : ClientRequestReply}
    (h : s.answered clientId = some (args, reply)) : ∃ k call,
      (s.clerks clientId).pending = some (args, k) ∧ s.calls[k]? = some call ∧
        call.phase = .replied reply := by
  unfold answered at h
  split at h
  · next pendingArgs k hpending =>
      split at h
      · next found hfound =>
          cases h
          obtain ⟨call, hcall, hphase⟩ := Option.map_eq_some_iff.mp hfound
          exact ⟨k, call, hpending, hcall, hphase⟩
      · cases h
  · cases h

theorem callReturns_turn {clientId : Int} (h : s.callReturns clientId = .ok s') :
    Turn codec s (.callReturns clientId) s' := by
  unfold callReturns at h
  split at h
  · next args reply hanswered =>
      obtain ⟨k, call, hpending, _, _⟩ := answered_cases hanswered
      split at h
      · exact send_turn (Or.inr ⟨k, hpending⟩) h
      · cases h
        exact .returned hpending rfl rfl
  · cases h

/-- A handler that leaves the server alone. -/
theorem Turn.call {call call' : Call n} {raft : Cluster n Op} (found : s.calls[k]? = some call)
    (turn : HandlerTurn s call call' (s.servers call.server) raft) :
    Turn codec s action { s with raft := raft, calls := s.calls.set k call' } := by
  have hturn : Turn codec s action _ := .handler found turn
  rwa [Function.update_eq_self] at hturn

theorem check_turn (h : s.check k = .ok s') : Turn codec s action s' := by
  unfold check at h
  split at h
  · next args server incarnation hfound =>
      cases h
      split
      · next hseen => exact .call hfound (.duplicate rfl hseen)
      · exact .call hfound (.checked rfl)
  · cases h

theorem start_turn (h : s.start k = .ok s') : Turn codec s action s' := by
  unfold start at h
  split at h
  · next call hfound =>
      split at h
      · next hready =>
          obtain ⟨⟨after, index, term, ok⟩, hrun, rfl⟩ := Outcome.map_eq_ok.mp h
          have hrun := Outcome.ofOption_eq_ok.mp hrun
          simp only [setPhase, Table.modify_of_read hfound]
          cases ok with
          | false => exact .call hfound (.refused hready.2 hrun)
          | true => exact .call hfound (.started hready.2 hrun)
      · cases h
  · cases h

theorem await_turn (h : s.await k = .ok s') : Turn codec s action s' := by
  unfold await at h
  split at h
  · next call hfound =>
      split at h
      · next index term hphase =>
          split at h
          · next halive =>
              cases h
              simp only [setPhase, setServer, Table.modify_of_read hfound]
              exact .handler hfound (.await halive hphase rfl)
          · cases h
      · cases h
  · cases h

theorem receive_turn (h : s.receive k = .ok s') : Turn codec s action s' := by
  unfold receive at h
  split at h
  · next call hfound =>
      split at h
      · next index term channel hphase =>
          split at h
          · next halive =>
              obtain ⟨⟨kv, reply⟩, hrun, rfl⟩ := Outcome.map_eq_ok.mp h
              simp only [setPhase, setServer, Table.modify_of_read hfound]
              exact .handler hfound (.receive halive hphase hrun)
          · cases h
      · cases h
  · cases h

theorem timeOut_turn (h : s.timeOut k = .ok s') : Turn codec s action s' := by
  unfold timeOut at h
  split at h
  · next call hfound =>
      split at h
      · next index term channel hphase =>
          split at h
          · next halive =>
              cases h
              simp only [setPhase, setServer, Table.modify_of_read hfound]
              exact .handler hfound (.timeOut halive hphase)
          · cases h
      · cases h
  · cases h

/-- A server that carries nothing out. -/
theorem Turn.quiet {p : Fin n} {kv : KVServer} {raft : Cluster n Op}
    (turn : ServerTurn codec s p action kv raft []) :
    Turn codec s action { s with raft := raft, servers := Function.update s.servers p kv } := by
  have hturn : Turn codec s action _ := .server turn
  rwa [List.append_nil] at hturn

theorem takeSnapShot_turn {p : Fin n} (h : s.takeSnapShot codec p = .ok s') :
    Turn codec s (.takeSnapShot p) s' := by
  unfold takeSnapShot at h
  dsimp only at h
  split at h
  · split at h
    · next bytes hbytes =>
        obtain ⟨raft, hrun, rfl⟩ := Outcome.map_eq_ok.mp h
        exact .quiet (.takeSnapShot hbytes hrun)
    · cases h
      exact .quiet .skipSnapShot
  · cases h

theorem step_turn (h : s.step codec action = .ok s') : Turn codec s action s' := by
  cases action with
  | raft action =>
      simp only [step] at h
      split at h
      · next hinternal =>
          obtain ⟨raft, hrun, rfl⟩ := Outcome.map_eq_ok.mp h
          exact .raft hinternal hrun
      · cases h
  | request clientId op key value => exact request_turn h
  | callFails clientId => exact callFails_turn h
  | callReturns clientId => exact callReturns_turn h
  | check k => exact check_turn h
  | start k => exact start_turn h
  | await k => exact await_turn h
  | receive k => exact receive_turn h
  | timeOut k => exact timeOut_turn h
  | remove p j =>
      simp only [step, remove] at h
      split at h
      · next index hfound =>
          cases h
          exact .quiet (.remove hfound)
      · cases h
  | apply p =>
      simp only [step, apply] at h
      split at h
      · next msg hmsg =>
          obtain ⟨after, hrun, rfl⟩ := Outcome.map_eq_ok.mp h
          exact .server (.apply hmsg hrun)
      · cases h
  | takeSnapShot p => exact takeSnapShot_turn h
  | crash p =>
      obtain ⟨raft, hrun, rfl⟩ := Outcome.map_eq_ok.mp h
      exact .quiet (.crash hrun)

end System

end DistributedLabs.KvRaft
