import DistributedLabs.KvRaft.Replicated
import DistributedLabs.Models.Kv

/-!
# The service is linearizable

The calls of the clerks are recorded as the harness records them.  A request takes effect
when the first server applies its command: from then on it has its place in the one log
that all servers follow.  A clerk gets its answer later than that, and the answer to a
`Get` is the one that the log determines.
-/

namespace DistributedLabs.KvRaft

open DistributedLabs.Library
open DistributedLabs.Library.Session (Fresh)
open DistributedLabs.Models (KvInput KvOutput contents contents_insert kvModel kvObject)

variable {n : Nat}

/-! ## What the harness records -/

/-- The code of the operation in the history. -/
def OperationOp.code : OperationOp → UInt8
  | .opGet => 0
  | .opPut => 1
  | .opAppend => 2

def Op.input (op : Op) : KvInput :=
  ⟨op.op.code, op.key, op.value⟩

/-- Only a `Get` has a result. -/
def OperationOp.output (op : OperationOp) (reply : ClientRequestReply) : KvOutput :=
  match op with
  | .opGet => ⟨reply.value⟩
  | .opPut | .opAppend => {}

/-- The client and the number of a request. -/
def Op.call (op : Op) : Int × Int :=
  (op.clientId, op.reqSeq)

/-- A clerk's method is called, or it returns. -/
def System.event (s : System n) : SystemAction n → Event (Int × Int) KvInput KvOutput
  | .request clientId op key value =>
      .invoke (clientId, (s.clerks clientId).reqSeq) ⟨op.code, key, value⟩
  | .callReturns clientId =>
      match s.answered clientId with
      | some (args, reply) =>
          if reply.err = .wrongLeader ∨ reply.err = .timeOut then .internal
          else .respond (args.clientId, args.reqSeq) (args.op.output reply)
      | none => .internal
  | _ => .internal

/-! ## The store as an object -/

/-- The state machine does what the object allows. -/
theorem kvObject_step (store : AList fun _ : String => String) (op : Op) :
    kvObject.step (contents store) op.input (op.op.output (applyToStateMachine store op).2) =
      some (contents (applyToStateMachine store op).1) := by
  obtain ⟨kind, key, value, clientId, reqSeq⟩ := op
  cases kind with
  | opGet =>
      have hvalue : (stateMachineGet store key).1 = contents store key := by
        unfold stateMachineGet contents
        cases store.lookup key with
        | none => rfl
        | some value => rfl
      simp [kvObject, SeqObject.keyed, Porcupine.Model.object, kvModel, Models.KvModel.step,
        Op.input, OperationOp.code, OperationOp.output, applyToStateMachine, hvalue]
  | opPut =>
      simp [kvObject, SeqObject.keyed, Porcupine.Model.object, kvModel, Models.KvModel.step,
        Op.input, OperationOp.code, OperationOp.output, applyToStateMachine, stateMachinePut,
        contents_insert]
  | opAppend =>
      simp [kvObject, SeqObject.keyed, Porcupine.Model.object, kvModel, Models.KvModel.step,
        Op.input, OperationOp.code, OperationOp.output, applyToStateMachine, stateMachineAppend,
        contents_insert]
      rfl

namespace System

variable {codec : Codec} {s s' : System n} {action : SystemAction n}

/-! ## Clerks and their requests -/

/-- What an action is for the clerks: a new request, another call for the request being served,
the end of a request, or nothing. -/
inductive ClerkTurn (s : System n) : SystemAction n → System n → Prop where
  | request {clientId : Int} {op : OperationOp} {key value : String} {clerk : Clerk} {s' : System n}
      (idle : (s.clerks clientId).pending = none)
      (clerks : s'.clerks = Function.update s.clerks clientId clerk)
      (seq : clerk.reqSeq = (s.clerks clientId).reqSeq) (busy : clerk.pending ≠ none)
      (requests : s'.requests = s.requests ++ [⟨op, key, value, clientId, clerk.reqSeq⟩]) :
      ClerkTurn s (.request clientId op key value) s'
  | resend {action : SystemAction n} {clientId : Int} {args : ClientRequestArgs} {k : Nat}
      {clerk : Clerk} {s' : System n} (internal : s.event action = .internal)
      (served : (s.clerks clientId).pending = some (args, k))
      (clerks : s'.clerks = Function.update s.clerks clientId clerk)
      (seq : clerk.reqSeq = (s.clerks clientId).reqSeq) (busy : clerk.pending ≠ none)
      (requests : s'.requests = s.requests ++ [args]) : ClerkTurn s action s'
  | returned {clientId : Int} {args : ClientRequestArgs} {reply : ClientRequestReply}
      {clerk : Clerk} {s' : System n} (returns : s.Returns clientId args reply)
      (clerks : s'.clerks = Function.update s.clerks clientId clerk)
      (seq : clerk.reqSeq = (s.clerks clientId).reqSeq + 1)
      (requests : s'.requests = s.requests) : ClerkTurn s (.callReturns clientId) s'
  | quiet {action : SystemAction n} {s' : System n} (internal : s.event action = .internal)
      (clerks : s'.clerks = s.clerks) (requests : s'.requests = s.requests) :
      ClerkTurn s action s'

theorem event_of_returns {clientId : Int} {args : ClientRequestArgs} {reply : ClientRequestReply}
    (h : s.Returns clientId args reply) : s.event (.callReturns clientId) =
      .respond (args.clientId, args.reqSeq) (args.op.output reply) := by
  simp [event, h.1, h.2.1, h.2.2]

theorem send_cases {clientId : Int} {args : ClientRequestArgs} {leaderId : Nat}
    (h : s.send clientId args leaderId = .ok s') : ∃ clerk : Clerk,
      s'.clerks = Function.update s.clerks clientId clerk ∧
      clerk.reqSeq = (s.clerks clientId).reqSeq ∧ clerk.pending ≠ none ∧
      s'.requests = s.requests ++ [args] := by
  unfold send at h
  split at h
  · cases h
    refine ⟨_, rfl, rfl, Option.some_ne_none _, ?_⟩
    simp [requests, setClerk]
  · cases h

theorem requests_setPhase (s : System n) (k : Nat) (phase : Phase) :
    (s.setPhase k phase).requests = s.requests := by
  cases hread : s.calls[k]? with
  | none =>
      have hsame : s.calls.modify k (fun call => { call with phase := phase }) = s.calls := by
        rw [List.modify_eq_set_getElem?, hread]
        rfl
      simp only [setPhase, requests, hsame]
  | some call =>
      simp only [setPhase, Table.modify_of_read hread]
      exact requests_set hread rfl

theorem request_clerkTurn {clientId : Int} {op : OperationOp} {key value : String}
    (h : s.request clientId op key value = .ok s') :
    ClerkTurn s (.request clientId op key value) s' := by
  unfold request at h
  dsimp only at h
  split at h
  · next hidle =>
      obtain ⟨clerk, hclerks, hseq, hbusy, hrequests⟩ := send_cases h
      exact .request hidle hclerks hseq hbusy (by rw [hseq]; exact hrequests)
  · cases h

theorem callFails_clerkTurn {clientId : Int} (h : s.callFails clientId = .ok s') :
    ClerkTurn s (.callFails clientId) s' := by
  unfold callFails at h
  split at h
  · next args k hserved =>
      obtain ⟨clerk, hclerks, hseq, hbusy, hrequests⟩ := send_cases h
      exact .resend rfl hserved hclerks hseq hbusy hrequests
  · cases h

theorem callReturns_clerkTurn {clientId : Int} (h : s.callReturns clientId = .ok s') :
    ClerkTurn s (.callReturns clientId) s' := by
  unfold callReturns at h
  split at h
  · next args reply hanswered =>
      split at h
      · next hagain =>
          obtain ⟨k, call, hserved, _, _⟩ := answered_cases hanswered
          obtain ⟨clerk, hclerks, hseq, hbusy, hrequests⟩ := send_cases h
          refine .resend ?_ hserved hclerks hseq hbusy hrequests
          simp [event, hanswered, hagain]
      · next hdone =>
          cases h
          exact .returned ⟨hanswered, not_or.mp hdone⟩ rfl rfl rfl
  · cases h

/-- The clerks and their requests are as before. -/
def ClerksSame (s s' : System n) : Prop :=
  s'.clerks = s.clerks ∧ s'.requests = s.requests

theorem check_clerksSame {k : Nat} (h : s.check k = .ok s') : ClerksSame s s' := by
  unfold check at h
  split at h
  · next args server incarnation hfound =>
      cases h
      exact ⟨rfl, requests_set hfound rfl⟩
  · cases h

theorem start_clerksSame {k : Nat} (h : s.start k = .ok s') : ClerksSame s s' := by
  unfold start at h
  split at h
  · split at h
    · obtain ⟨⟨after, index, term, ok⟩, _, rfl⟩ := Outcome.map_eq_ok.mp h
      exact ⟨rfl, requests_setPhase s k _⟩
    · cases h
  · cases h

theorem await_clerksSame {k : Nat} (h : s.await k = .ok s') : ClerksSame s s' := by
  unfold await at h
  split at h
  · split at h
    · split at h
      · cases h
        exact ⟨rfl, requests_setPhase _ k _⟩
      · cases h
    · cases h
  · cases h

theorem receive_clerksSame {k : Nat} (h : s.receive k = .ok s') : ClerksSame s s' := by
  unfold receive at h
  split at h
  · split at h
    · split at h
      · obtain ⟨⟨kv, reply⟩, _, rfl⟩ := Outcome.map_eq_ok.mp h
        exact ⟨rfl, requests_setPhase _ k _⟩
      · cases h
    · cases h
  · cases h

theorem timeOut_clerksSame {k : Nat} (h : s.timeOut k = .ok s') : ClerksSame s s' := by
  unfold timeOut at h
  split at h
  · split at h
    · split at h
      · cases h
        exact ⟨rfl, requests_setPhase _ k _⟩
      · cases h
    · cases h
  · cases h

theorem takeSnapShot_clerksSame {p : Fin n} (h : s.takeSnapShot codec p = .ok s') :
    ClerksSame s s' := by
  unfold takeSnapShot at h
  dsimp only at h
  split at h
  · split at h
    · obtain ⟨raft, _, rfl⟩ := Outcome.map_eq_ok.mp h
      exact ⟨rfl, rfl⟩
    · cases h
      exact ⟨rfl, rfl⟩
  · cases h

theorem step_clerkTurn (h : s.step codec action = .ok s') : ClerkTurn s action s' := by
  have hquiet (internal : s.event action = .internal) (hsame : ClerksSame s s') :
      ClerkTurn s action s' :=
    .quiet internal hsame.1 hsame.2
  cases action with
  | raft action =>
      simp only [step] at h
      split at h
      · obtain ⟨raft, _, rfl⟩ := Outcome.map_eq_ok.mp h
        exact hquiet rfl ⟨rfl, rfl⟩
      · cases h
  | request clientId op key value => exact request_clerkTurn h
  | callFails clientId => exact callFails_clerkTurn h
  | callReturns clientId => exact callReturns_clerkTurn h
  | check k => exact hquiet rfl (check_clerksSame h)
  | start k => exact hquiet rfl (start_clerksSame h)
  | await k => exact hquiet rfl (await_clerksSame h)
  | receive k => exact hquiet rfl (receive_clerksSame h)
  | timeOut k => exact hquiet rfl (timeOut_clerksSame h)
  | remove p j =>
      simp only [step, remove] at h
      split at h
      · cases h
        exact hquiet rfl ⟨rfl, rfl⟩
      · cases h
  | apply p =>
      simp only [step, apply] at h
      split at h
      · obtain ⟨after, _, rfl⟩ := Outcome.map_eq_ok.mp h
        exact hquiet rfl ⟨rfl, rfl⟩
      · cases h
  | takeSnapShot p => exact hquiet rfl (takeSnapShot_clerksSame h)
  | crash p =>
      obtain ⟨raft, _, rfl⟩ := Outcome.map_eq_ok.mp h
      exact hquiet rfl ⟨rfl, rfl⟩

/-! ## The record and the clerks -/

/-- Every request is recorded, and the recorded calls of a clerk have the numbers it has used. -/
structure Registered (s : System n) (r : Record (Int × Int) KvInput KvOutput) : Prop where
  called : ∀ args ∈ s.requests, ∃ call ∈ r.calls,
    call.key = args.opLog.call ∧ call.input = args.opLog.input
  numbered : ∀ call ∈ r.calls, call.key.2 < (s.clerks call.key.1).reqSeq ∨
    (call.key.2 = (s.clerks call.key.1).reqSeq ∧ (s.clerks call.key.1).pending ≠ none)

namespace Registered

variable {r : Record (Int × Int) KvInput KvOutput}

/-- A clerk with nothing to do numbers its next request as no request before. -/
theorem unused (h : Registered s r) {clientId : Int} (idle : (s.clerks clientId).pending = none) :
    (clientId, (s.clerks clientId).reqSeq) ∉ r.calls.map CallRecord.key := by
  intro hmem
  obtain ⟨call, hcall, hkey⟩ := List.mem_map.mp hmem
  have hnumbered := h.numbered call hcall
  rw [hkey] at hnumbered
  rcases hnumbered with hlt | ⟨_, hbusy⟩
  · exact Int.lt_irrefl _ hlt
  · exact hbusy idle

/-- The numbers in use stay in use while a clerk works on its request or goes on to the next. -/
theorem numbered_update (h : Registered s r) {clientId : Int} {clerk : Clerk}
    (hclerk : (clerk.reqSeq = (s.clerks clientId).reqSeq ∧ clerk.pending ≠ none) ∨
      clerk.reqSeq = (s.clerks clientId).reqSeq + 1) {clerks : Int → Clerk}
    (hclerks : clerks = Function.update s.clerks clientId clerk)
    {call : CallRecord (Int × Int) KvInput KvOutput} (hmem : call ∈ r.calls) :
    call.key.2 < (clerks call.key.1).reqSeq ∨
      (call.key.2 = (clerks call.key.1).reqSeq ∧ (clerks call.key.1).pending ≠ none) := by
  have hold := h.numbered call hmem
  rw [hclerks]
  by_cases hclient : call.key.1 = clientId
  · rw [hclient] at hold ⊢
    rw [Function.update_self]
    rcases hclerk with ⟨hseq, hbusy⟩ | hseq
    · rw [hseq]
      exact hold.imp_right fun hlast => ⟨hlast.1, hbusy⟩
    · rw [hseq]
      rcases hold with hlt | ⟨heq, _⟩
      · exact Or.inl (Int.lt_add_one_of_le (Int.le_of_lt hlt))
      · exact Or.inl (Int.lt_add_one_of_le (Int.le_of_eq heq))
  · rw [Function.update_of_ne hclient]
    exact hold

theorem turn (h : Registered s r) (hserial : Serial s) (hturn : ClerkTurn s action s') :
    Registered s' (r.note (s.event action)) := by
  cases hturn with
  | @request clientId op key value clerk _ idle clerks seq busy requests =>
      refine ⟨fun args hmem => ?_, fun call hmem => ?_⟩
      · rw [requests] at hmem
        rcases List.mem_append.mp hmem with hold | hnew
        · obtain ⟨call, hcall, hsame⟩ := h.called args hold
          exact ⟨call, List.mem_append_left _ hcall, hsame⟩
        · rw [List.mem_singleton.mp hnew]
          refine ⟨_, List.mem_append_right _ (List.mem_singleton.mpr rfl), ?_, rfl⟩
          simp only [ClientRequestArgs.opLog, Op.call, seq]
      · rcases List.mem_append.mp hmem with hold | hnew
        · exact h.numbered_update (Or.inl ⟨seq, busy⟩) clerks hold
        · rw [List.mem_singleton.mp hnew, clerks]
          simp only [Function.update_self]
          exact Or.inr ⟨seq.symm, busy⟩
  | @resend _ clientId args k clerk _ internal served clerks seq busy requests =>
      rw [internal]
      refine ⟨fun args' hmem => ?_, fun call hmem => ?_⟩
      · rw [requests] at hmem
        rcases List.mem_append.mp hmem with hold | hnew
        · exact h.called args' hold
        · rw [List.mem_singleton.mp hnew]
          exact h.called args (List.mem_of_getElem? (hserial.pending clientId args k served).2.2)
      · exact h.numbered_update (Or.inl ⟨seq, busy⟩) clerks hmem
  | @returned clientId args reply clerk _ returns clerks seq requests =>
      rw [event_of_returns returns]
      refine ⟨fun args' hmem => ?_, fun call hmem => ?_⟩
      · rw [requests] at hmem
        obtain ⟨call, hcall, hkey, hinput⟩ := h.called args' hmem
        exact ⟨_, List.mem_map_of_mem hcall, (call.respond_key ..).trans hkey,
          (call.respond_input ..).trans hinput⟩
      · obtain ⟨old, hold, rfl⟩ := List.mem_map.mp hmem
        rw [CallRecord.respond_key]
        exact h.numbered_update (Or.inr seq) clerks hold
  | quiet internal clerks requests =>
      rw [internal]
      refine ⟨fun args hmem => ?_, fun call hmem => ?_⟩
      · rw [requests] at hmem
        exact h.called args hmem
      · rw [clerks]
        exact h.numbered call hmem

end Registered

/-! ## Points of the log -/

/-- Every operation of the log that came for the first time has a point, with the output that
the operations before it make of it. -/
structure PointsOf (log : List Op) (points : List (Point (Int × Int) KvInput KvOutput)) :
    Prop where
  state : kvObject.run kvObject.init (points.map Point.io) =
    some (contents (Tables.replay log).store)
  pointed : ∀ (i : Nat) op, log[i]? = some op → Fresh Op.clientId Op.reqSeq (log.take i) op →
    ∃ point ∈ points, point.key = op.call ∧
      point.output = op.op.output (applyToStateMachine (Tables.replay (log.take i)).store op).2
  known : ∀ point ∈ points, ∃ op ∈ log, point.key = op.call

namespace PointsOf

variable {log : List Op} {points : List (Point (Int × Int) KvInput KvOutput)} {op : Op}

theorem initial : PointsOf [] [] where
  state := rfl
  pointed _ _ hread := by cases hread
  known _ hmem := by cases hmem

theorem unused (h : PointsOf log points) (hfresh : Fresh Op.clientId Op.reqSeq log op) :
    op.call ∉ points.map Point.key := by
  intro hmem
  obtain ⟨point, hpoint, hkey⟩ := List.mem_map.mp hmem
  obtain ⟨earlier, hearlier, hcall⟩ := h.known point hpoint
  obtain ⟨hclient, hnumber⟩ := Prod.mk.inj (hcall.symm.trans hkey)
  exact Int.lt_irrefl _ (hnumber ▸ hfresh earlier hearlier hclient)

/-- The operations before the last one have their points already. -/
theorem pointed_append (h : PointsOf log points) {i : Nat} {other : Op}
    (hread : log[i]? = some other)
    (hfresh : Fresh Op.clientId Op.reqSeq ((log ++ [op]).take i) other) :
    ∃ point ∈ points, point.key = other.call ∧ point.output =
      other.op.output
        (applyToStateMachine (Tables.replay ((log ++ [op]).take i)).store other).2 := by
  have htake : (log ++ [op]).take i = log.take i :=
    List.take_append_of_le_length (Nat.le_of_lt (List.getElem?_eq_some_iff.mp hread).1)
  rw [htake] at hfresh ⊢
  exact h.pointed i other hread hfresh

theorem known_append (h : PointsOf log points) {point : Point (Int × Int) KvInput KvOutput}
    (hmem : point ∈ points) : ∃ earlier ∈ log ++ [op], point.key = earlier.call := by
  obtain ⟨earlier, hearlier, hkey⟩ := h.known point hmem
  exact ⟨earlier, List.mem_append_left _ hearlier, hkey⟩

/-- A repeated operation changes nothing. -/
theorem stale (h : PointsOf log points) (hstale : ¬ Fresh Op.clientId Op.reqSeq log op) :
    PointsOf (log ++ [op]) points where
  state := by
    rw [Tables.replay_concat_of_not_fresh hstale]
    exact h.state
  pointed i other hread hfresh := by
    rcases Table.read_concat hread with hold | ⟨rfl, rfl⟩
    · exact h.pointed_append hold hfresh
    · rw [List.take_left] at hfresh
      exact absurd hfresh hstale
  known _ hmem := h.known_append hmem

/-- An operation that comes for the first time takes effect. -/
theorem fresh (h : PointsOf log points) (hfresh : Fresh Op.clientId Op.reqSeq log op) (time : Nat) :
    PointsOf (log ++ [op]) (points ++ [⟨op.call, op.input,
      op.op.output (applyToStateMachine (Tables.replay log).store op).2, time⟩]) where
  state := by
    rw [List.map_append, List.map_singleton, kvObject.run_concat h.state,
      Tables.replay_concat_of_fresh hfresh]
    exact kvObject_step _ op
  pointed i other hread hfresh' := by
    rcases Table.read_concat hread with hold | ⟨rfl, rfl⟩
    · obtain ⟨point, hmem, hrest⟩ := h.pointed_append hold hfresh'
      exact ⟨point, List.mem_append_left _ hmem, hrest⟩
    · rw [List.take_left]
      exact ⟨_, List.mem_append_right _ (List.mem_singleton.mpr rfl), rfl, rfl⟩
  known point hmem := by
    rcases List.mem_append.mp hmem with hold | hnew
    · exact h.known_append hold
    · rw [List.mem_singleton.mp hnew]
      exact ⟨op, List.mem_append_right _ (List.mem_singleton.mpr rfl), rfl⟩

end PointsOf

/-- The answer that ends a request is the output that the request has in the log. -/
theorem Returns.exists_point {actions : List (SystemAction n)} {trace : List (Action n Op)}
    {log : List Op} {points : List (Point (Int × Int) KvInput KvOutput)}
    (hrun : RunsIf (step codec) NotifiesOwn initial actions s)
    (hreplicates : Replicates codec trace log s) (hpoints : PointsOf log points) {clientId : Int}
    {args : ClientRequestArgs} {reply : ClientRequestReply}
    (hreturns : s.Returns clientId args reply) :
    ∃ point ∈ points, point.key = (args.clientId, args.reqSeq) ∧
      point.output = args.op.output reply := by
  have hserial := serial_of_reaches hrun.reaches
  obtain ⟨_, hhanded⟩ := handed_of_reaches hrun.reaches
  obtain ⟨k, call, hpending, hcall, hphase⟩ := answered_cases hreturns.1
  have hargs : call.args = args := by
    simpa [requests, hcall] using (hserial.pending clientId args k hpending).2.2
  obtain ⟨e, he, howner, hle, hget⟩ := (faithful_of_runs hrun).replied call
    (List.mem_of_getElem? hcall) reply hphase hreturns.2.1 hreturns.2.2
  rw [hargs] at howner hle hget
  obtain ⟨⟨args', hmem, hop⟩, _⟩ := hhanded.applied e he
  rw [hop] at howner hle
  obtain rfl := hserial.eq_pending hpending hmem howner hle
  obtain ⟨i, _, hread, hfresh, hreply⟩ := hreplicates.computed e he
  obtain ⟨point, hpoint, hkey, houtput⟩ := hpoints.pointed i e.op hread hfresh
  rw [← hreply, hop] at houtput
  refine ⟨point, hpoint, by rw [hkey, hop]; rfl, houtput.trans ?_⟩
  cases hkind : args'.op with
  | opGet => simp only [ClientRequestArgs.opLog, hkind, hget hkind]
  | opPut => simp only [ClientRequestArgs.opLog, hkind, OperationOp.output]
  | opAppend => simp only [ClientRequestArgs.opLog, hkind, OperationOp.output]

/-! ## Runs -/

/-- No goroutine of an installed snapshot comes too late, and no handler is told about an entry
of another term. -/
def Orderly (s : System n) (action : SystemAction n) : Prop :=
  s.NotifiesOwn action ∧ s.InstallsInOrder action

instance (s : System n) (action : SystemAction n) : Decidable (s.Orderly action) :=
  inferInstanceAs (Decidable (_ ∧ _))

/-- The record fits the points of the log that the servers follow. -/
structure Linearized (codec : Codec) (s : System n) (r : Record (Int × Int) KvInput KvOutput)
    (log : List Op) (points : List (Point (Int × Int) KvInput KvOutput)) : Prop where
  replicates : ∃ trace, Replicates codec trace log s
  registered : Registered s r
  tracks : Tracks kvObject r points
  points : PointsOf log points

namespace Linearized

variable {r : Record (Int × Int) KvInput KvOutput} {log : List Op}
  {points : List (Point (Int × Int) KvInput KvOutput)}

/-- The first server to apply a command lets the request take effect. -/
theorem appliesFirst (h : Linearized codec s r log points)
    (hreach : Reaches (step codec) initial s) {log' : List Op}
    (hfirst : s.AppliesFirst action log log') :
    ∃ points', Tracks kvObject r points' ∧ PointsOf log' points' := by
  obtain ⟨p, msg, op, _, next, hvalid, hop, rfl⟩ := hfirst
  by_cases hfresh : Fresh Op.clientId Op.reqSeq log op
  · obtain ⟨_, hhanded⟩ := handed_of_reaches hreach
    obtain ⟨args, hargs, rfl⟩ := hhanded.requested (List.mem_of_getElem? next) hvalid hop
    obtain ⟨call, hcall, hkey, hinput⟩ := h.registered.called args hargs
    have hunused := h.points.unused hfresh
    rw [← hkey] at hunused
    have hopen : call.answer = none := by
      by_contra hanswer
      exact hunused (h.tracks.answered call hcall hanswer)
    have hpoints := h.points.fresh hfresh r.clock
    have hstep := kvObject_step (Tables.replay log).store args.opLog
    rw [← hkey, ← hinput] at hpoints
    rw [← hinput] at hstep
    exact ⟨_, h.tracks.linearize hcall hopen hunused h.points.state hstep, hpoints⟩
  · exact ⟨points, h.tracks, h.points.stale hfresh⟩

theorem event (h : Linearized codec s r log points) {actions : List (SystemAction n)}
    (hrun : RunsIf (step codec) NotifiesOwn initial actions s) (hturn : ClerkTurn s action s') :
    Tracks kvObject (r.note (s.event action)) points := by
  obtain ⟨trace, hreplicates⟩ := h.replicates
  cases hturn with
  | request idle clerks seq busy requests =>
      exact h.tracks.invoke (h.registered.unused idle) _
  | resend internal served clerks seq busy requests =>
      rw [internal]
      exact h.tracks.internal
  | @returned clientId args reply clerk _ returns clerks seq requests =>
      obtain ⟨point, hmem, hkey, houtput⟩ := Returns.exists_point hrun hreplicates h.points returns
      rw [event_of_returns returns]
      exact h.tracks.respond hmem hkey houtput
  | quiet internal clerks requests =>
      rw [internal]
      exact h.tracks.internal

theorem step (h : Linearized codec s r log points) {actions : List (SystemAction n)}
    (hrun : RunsIf (System.step codec) Orderly initial actions s) (hallowed : s.Orderly action)
    (hstep : s.step codec action = .ok s') :
    ∃ log' points', Linearized codec s' (r.note (s.event action)) log' points' := by
  obtain ⟨trace, hreplicates⟩ := h.replicates
  have hturn := step_clerkTurn hstep
  have hregistered := h.registered.turn (serial_of_reaches hrun.reaches) hturn
  obtain ⟨trace', log', hreplicates', hgrows⟩ := hreplicates.step hallowed.2 hstep
  rcases hgrows with rfl | hfirst
  · exact ⟨log', points, ⟨trace', hreplicates'⟩, hregistered,
      h.event (hrun.imp fun _ _ horderly => horderly.1) hturn, h.points⟩
  · obtain ⟨points', htracks, hpoints⟩ := h.appliesFirst hrun.reaches hfirst
    obtain ⟨p, msg, op, rfl, _⟩ := hfirst
    exact ⟨log', points', ⟨trace', hreplicates'⟩, hregistered, htracks.internal, hpoints⟩

end Linearized

theorem linearized_of_runs {actions : List (SystemAction n)}
    {t : System n × Record (Int × Int) KvInput KvOutput}
    (hrun : RunsIf (recording (step codec) event) (fun t a => t.1.Orderly a)
      (initial, {}) actions t) :
    ∃ log points, Linearized codec t.1 t.2 log points := by
  induction hrun with
  | refl =>
      exact ⟨[], [], ⟨[], Replicates.initial⟩, ⟨fun _ hmem => (by cases hmem),
        fun _ hmem => by cases hmem⟩, Tracks.initial kvObject, PointsOf.initial⟩
  | tail before permitted taken ih =>
      obtain ⟨log, points, h⟩ := ih
      obtain ⟨next, hnext, rfl⟩ := Outcome.map_eq_ok.mp taken
      exact h.step before.recorded permitted hnext

/-- The service with the record of its calls, as a machine with a cluster in it. -/
def recordingHost (codec : Codec) :
    Host n Op (System n × Record (Int × Int) KvInput KvOutput) (SystemAction n) where
  step := recording (step codec) event
  cluster := fun t => t.1.raft
  setNet := fun t net => ({ t.1 with raft := { t.1.raft with net := net } }, t.2)
  setNet_self := fun _ => rfl
  asked := (host codec).asked

/-- The recorded service with the arrays of its logs. -/
abbrev SharedRecord (n : Nat) := Shared n Op (System n × Record (Int × Int) KvInput KvOutput)

/-- The run is orderly, and log requests are encoded as they were built. -/
def OrderlyRun (codec : Codec) (actions : List (SharedAction (SystemAction n)))
    (t : SharedRecord n) : Prop :=
  RunsIf (Shared.step (recordingHost codec))
    (Shared.Meets (recordingHost codec) fun t a => t.1.Orderly a)
    (Shared.start (recordingHost codec) (initial, {})) actions t

/-- In every orderly run the answers that the clerks have got so far could have come from one
store that carries out the requests one after the other, each between its call and its return. -/
theorem clerks_see_one_store {actions : List (SharedAction (SystemAction n))} {t : SharedRecord n}
    (hrun : OrderlyRun codec actions t) : t.base.2.LinearizableTo kvObject := by
  obtain ⟨log, points, h⟩ := linearized_of_runs (Shared.runsIf_base hrun)
  exact h.tracks.linearizableTo

/-- Client 1 writes a value and reads it back, and log requests are encoded at once. -/
def writeAndRead : List (SharedAction (SystemAction 3)) :=
  electServer.map (.own · false) ++
  Shared.promptly (host Codec.unary) (putAndGet.drop electServer.length ++ [.callReturns 1])

theorem writeAndRead_runs : RunHolds (guarded (Shared.step (recordingHost Codec.unary))
    (Shared.Meets (recordingHost Codec.unary) fun t a => t.1.Orderly a)) writeAndRead
    (Shared.start (recordingHost Codec.unary) (initial, {}))
    fun t => t.base.2.history = [⟨⟨1, "x", "a"⟩, 4, ⟨""⟩, 17⟩, ⟨⟨0, "x", ""⟩, 18, ⟨"a"⟩, 31⟩] ∧
      ∀ call ∈ t.base.2.calls, call.answer ≠ none := by
  decide +kernel

/-- The history of a write and a read that have both returned. -/
theorem clerks_see_one_store_read_back : ∃ t : SharedRecord 3,
    OrderlyRun Codec.unary writeAndRead t ∧
    t.base.2.history.map Library.Operation.io =
      [(⟨1, "x", "a"⟩, ⟨""⟩), (⟨0, "x", ""⟩, ⟨"a"⟩)] ∧
    Linearizable kvObject t.base.2.history := by
  obtain ⟨t, hrun, hhistory, hdone⟩ := writeAndRead_runs.exists_runsIf
  refine ⟨t, hrun, ?_, (clerks_see_one_store hrun).history hdone⟩
  rw [hhistory]
  rfl

end System

end DistributedLabs.KvRaft
