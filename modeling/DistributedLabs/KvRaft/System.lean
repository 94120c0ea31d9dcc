import DistributedLabs.KvRaft.Server
import DistributedLabs.Raft.Cluster

/-!
# Clerks, servers and the Raft layer

A clerk calls one server after the other until an answer ends its request.  A call
that fails may still be executed: its handler goes on, and nobody reads its answer.
The servers stand on the peers of a Raft cluster, take the messages of their peer's
channel in order and lose their memory when the peer crashes.
-/

namespace DistributedLabs.KvRaft

open DistributedLabs.Library

variable {n : Nat}

/-- Where the handler of a call is.  The term is what `Start` returned. -/
inductive Phase where
  | sent
  | checked
  | started (index term : Int)
  | waiting (index term : Int) (channel : Nat)
  | replied (reply : ClientRequestReply)
  deriving DecidableEq

/-- What `Start` returned to a handler that has not answered yet. -/
def Phase.open : Phase → Option (Int × Int)
  | started index term | waiting index term _ => some (index, term)
  | _ => none

/-- The handler of a call belongs to one incarnation of its server. -/
structure Call (n : Nat) where
  args : ClientRequestArgs
  server : Fin n
  incarnation : Nat := 0
  phase : Phase := .sent

structure Clerk where
  reqSeq : Int := 0
  leaderId : Nat := 0
  /-- The request being served and the call in progress for it. -/
  pending : Option (ClientRequestArgs × Nat) := none

/-- An operation that a server has carried out, and the reply computed for it. -/
structure Applied (n : Nat) where
  server : Fin n
  index : Int
  op : Op
  reply : ClientRequestReply

/-- What a server carries out when it takes the message. -/
def KVServer.carried (kv : KVServer) (p : Fin n) (msg : ApplyMsg Op) : List (Applied n) :=
  (kv.carriesOut msg).toList.map fun opLog =>
    ⟨p, msg.commandIndex, opLog, (applyToStateMachine kv.tables.store opLog).2⟩

structure System (n : Nat) where
  raft : Cluster n Op
  servers : Fin n → KVServer
  clerks : Int → Clerk
  calls : List (Call n)
  /-- Every operation that was ever carried out. -/
  applied : List (Applied n)

inductive SystemAction (n : Nat) where
  | raft (action : Action n Op)
  | request (clientId : Int) (op : OperationOp) (key value : String)
  | callFails (clientId : Int)
  | callReturns (clientId : Int)
  | check (k : Nat)
  | start (k : Nat)
  | await (k : Nat)
  | receive (k : Nat)
  | timeOut (k : Nat)
  | remove (p : Fin n) (j : Nat)
  | apply (p : Fin n)
  | takeSnapShot (p : Fin n)
  | crash (p : Fin n)

/-- Actions of the Raft layer that the service does not ask for itself. -/
def Internal : Action n Op → Bool
  | .start _ _ | .snapshot _ _ _ | .crash _ => false
  | _ => true

namespace System

def setServer (s : System n) (p : Fin n) (kv : KVServer) : System n :=
  { s with servers := Function.update s.servers p kv }

def setClerk (s : System n) (clientId : Int) (clerk : Clerk) : System n :=
  { s with clerks := Function.update s.clerks clientId clerk }

def setPhase (s : System n) (k : Nat) (phase : Phase) : System n :=
  { s with calls := s.calls.modify k fun call => { call with phase := phase } }

/-! ## Clerks -/

/-- Call the server `leaderId`. -/
def send (s : System n) (clientId : Int) (args : ClientRequestArgs) (leaderId : Nat) :
    Outcome (System n) :=
  if h : leaderId < n then
    let called := { s with
      calls := s.calls ++ [({ args := args, server := ⟨leaderId, h⟩ } : Call n)] }
    .ok (called.setClerk clientId { s.clerks clientId with
      leaderId := leaderId
      pending := some (args, s.calls.length) })
  else .panic

def request (s : System n) (clientId : Int) (op : OperationOp) (key value : String) :
    Outcome (System n) :=
  let clerk := s.clerks clientId
  match clerk.pending with
  | none => s.send clientId ⟨op, key, value, clientId, clerk.reqSeq⟩ clerk.leaderId
  | some _ => .blocked

/-- Try the next server. -/
def retry (s : System n) (clientId : Int) (args : ClientRequestArgs) : Outcome (System n) :=
  s.send clientId args (((s.clerks clientId).leaderId + 1) % n)

def callFails (s : System n) (clientId : Int) : Outcome (System n) :=
  match (s.clerks clientId).pending with
  | some (args, _) => s.retry clientId args
  | none => .blocked

/-- The answer to the call in progress. -/
def answered (s : System n) (clientId : Int) : Option (ClientRequestArgs × ClientRequestReply) :=
  match (s.clerks clientId).pending with
  | some (args, k) =>
      match s.calls[k]?.map Call.phase with
      | some (.replied reply) => some (args, reply)
      | _ => none
  | none => none

/-- `SendClientRequest` returns with this answer. -/
def Returns (s : System n) (clientId : Int) (args : ClientRequestArgs)
    (reply : ClientRequestReply) : Prop :=
  s.answered clientId = some (args, reply) ∧ reply.err ≠ .wrongLeader ∧ reply.err ≠ .timeOut

instance (s : System n) (clientId : Int) (args : ClientRequestArgs) (reply : ClientRequestReply) :
    Decidable (s.Returns clientId args reply) :=
  inferInstanceAs (Decidable (_ ∧ _))

def callReturns (s : System n) (clientId : Int) : Outcome (System n) :=
  match s.answered clientId with
  | some (args, reply) =>
      if reply.err = .wrongLeader ∨ reply.err = .timeOut then s.retry clientId args
      else
        let clerk := s.clerks clientId
        .ok (s.setClerk clientId { clerk with reqSeq := clerk.reqSeq + 1, pending := none })
  | none => .blocked

/-! ## Handlers -/

/-- The server that runs the handler has not crashed since. -/
def Alive (s : System n) (call : Call n) : Prop :=
  call.incarnation = (s.raft.peers call.server).incarnation

instance (s : System n) (call : Call n) : Decidable (s.Alive call) :=
  inferInstanceAs (Decidable (_ = _))

/-- The handler starts and looks for a duplicate. -/
def check (s : System n) (k : Nat) : Outcome (System n) :=
  match s.calls[k]? with
  | some ⟨args, server, _, .sent⟩ =>
      let phase := if (s.servers server).Duplicates args then .replied { err := .duplicate }
        else .checked
      let handled : Call n := ⟨args, server, (s.raft.peers server).incarnation, phase⟩
      .ok { s with calls := s.calls.set k handled }
  | _ => .blocked

def start (s : System n) (k : Nat) : Outcome (System n) :=
  match s.calls[k]? with
  | some call =>
      if call.phase = .checked ∧ s.Alive call then
        (Outcome.ofOption ((s.raft.peers call.server).start call.server
          (some call.args.opLog))).map fun (after, index, term, ok) =>
            { s.setPhase k
                (if ok then .started index term else .replied { err := .wrongLeader }) with
              raft := s.raft.setPeer call.server after }
      else .blocked
  | none => .blocked

def await (s : System n) (k : Nat) : Outcome (System n) :=
  match s.calls[k]? with
  | some call =>
      match call.phase with
      | .started index term =>
          if s.Alive call then
            let (kv, channel) := (s.servers call.server).getNotifyChannel index
            .ok ((s.setServer call.server kv).setPhase k (.waiting index term channel))
          else .blocked
      | _ => .blocked
  | none => .blocked

def receive (s : System n) (k : Nat) : Outcome (System n) :=
  match s.calls[k]? with
  | some call =>
      match call.phase with
      | .waiting index _ channel =>
          if s.Alive call then
            ((s.servers call.server).receive channel).map fun (kv, reply) =>
              (s.setServer call.server (kv.scheduleRemoval index)).setPhase k (.replied reply)
          else .blocked
      | _ => .blocked
  | none => .blocked

def timeOut (s : System n) (k : Nat) : Outcome (System n) :=
  match s.calls[k]? with
  | some call =>
      match call.phase with
      | .waiting index _ _ =>
          if s.Alive call then
            .ok ((s.setServer call.server
              ((s.servers call.server).scheduleRemoval index)).setPhase k
                (.replied { err := .timeOut }))
          else .blocked
      | _ => .blocked
  | none => .blocked

/-! ## Servers -/

def remove (s : System n) (p : Fin n) (j : Nat) : Outcome (System n) :=
  let kv := s.servers p
  match kv.removals[j]? with
  | some index =>
      .ok (s.setServer p ({ kv with removals := kv.removals.eraseIdx j }.removeNotifyChannel index))
  | none => .blocked

/-- The next message for `ApplyTicket`. -/
def nextMsg (s : System n) (p : Fin n) : Option (ApplyMsg Op) :=
  (s.raft.peers p).applyCh.msgs[(s.servers p).consumed]?

def apply (codec : Codec) (s : System n) (p : Fin n) : Outcome (System n) :=
  let kv := s.servers p
  match s.nextMsg p with
  | some msg =>
      (kv.applyMsg codec msg (decide ((s.raft.peers p).state = .leader))).map fun after =>
        { s.setServer p after with applied := s.applied ++ kv.carried p msg }
  | none => .blocked

def takeSnapShot (codec : Codec) (s : System n) (p : Fin n) : Outcome (System n) :=
  let kv := s.servers p
  let done := s.setServer p { kv with justApplied := none }
  match kv.justApplied with
  | some index =>
      match codec.encode kv.tables with
      | some bytes => (s.raft.step (.snapshot p index bytes)).map fun raft =>
          { done with raft := raft }
      | none => .ok done
  | none => .blocked

def crash (codec : Codec) (s : System n) (p : Fin n) : Outcome (System n) :=
  (s.raft.step (.crash p)).map fun raft =>
    { s.setServer p (startKVServer codec (s.raft.peers p).persister.snapshot) with raft := raft }

def step (codec : Codec) (s : System n) : SystemAction n → Outcome (System n)
  | .raft action =>
      if Internal action then (s.raft.step action).map fun raft => { s with raft := raft }
      else .blocked
  | .request clientId op key value => s.request clientId op key value
  | .callFails clientId => s.callFails clientId
  | .callReturns clientId => s.callReturns clientId
  | .check k => s.check k
  | .start k => s.start k
  | .await k => s.await k
  | .receive k => s.receive k
  | .timeOut k => s.timeOut k
  | .remove p j => s.remove p j
  | .apply p => s.apply codec p
  | .takeSnapShot p => s.takeSnapShot codec p
  | .crash p => s.crash codec p

def initial : System n where
  raft := Cluster.initial
  servers := fun _ => {}
  clerks := fun _ => {}
  calls := []
  applied := []

end System

end DistributedLabs.KvRaft
