import DistributedLabs.KvRaft.Types
import DistributedLabs.Library.Machine

/-!
# What a server does

`HandlerClientRequest` and `ApplyTicket` are cut where they release `kv.mu` or wait.
-/

namespace DistributedLabs.KvRaft

open DistributedLabs.Library

/-! ## The state machine -/

def stateMachineGet (store : AList (fun _ : String => String)) (key : String) : String × Err :=
  match store.lookup key with
  | some value => (value, .ok)
  | none => ("", .noKey)

def stateMachinePut (store : AList (fun _ : String => String)) (key value : String) :
    AList (fun _ : String => String) × Err :=
  (store.insert key value, .ok)

def stateMachineAppend (store : AList (fun _ : String => String)) (key value : String) :
    AList (fun _ : String => String) × Err :=
  (store.insert key ((store.lookup key).getD "" ++ value), .ok)

def applyToStateMachine (store : AList (fun _ : String => String)) (opLog : Op) :
    AList (fun _ : String => String) × ClientRequestReply :=
  match opLog.op with
  | .opGet =>
      let (value, err) := stateMachineGet store opLog.key
      (store, ⟨err, value⟩)
  | .opPut =>
      let (store, err) := stateMachinePut store opLog.key opLog.value
      (store, ⟨err, ""⟩)
  | .opAppend =>
      let (store, err) := stateMachineAppend store opLog.key opLog.value
      (store, ⟨err, ""⟩)

namespace Tables

/-- A request of the client with this number or a later one has been applied. -/
def Seen (tables : Tables) (clientId reqSeq : Int) : Prop :=
  ∃ maxReq ∈ tables.clientMaxReq.lookup clientId, reqSeq ≤ maxReq

instance (tables : Tables) (clientId reqSeq : Int) : Decidable (tables.Seen clientId reqSeq) :=
  match h : tables.clientMaxReq.lookup clientId with
  | none => isFalse (by simp [Seen, h])
  | some maxReq => decidable_of_iff (reqSeq ≤ maxReq) (by simp [Seen, h])

/-- The tables after an operation has been carried out. -/
def record (tables : Tables) (opLog : Op) : Tables where
  store := (applyToStateMachine tables.store opLog).1
  clientMaxReq := tables.clientMaxReq.insert opLog.clientId opLog.reqSeq
  clientLastReqRest := tables.clientLastReqRest.insert opLog.clientId
    (applyToStateMachine tables.store opLog).2

/-- A request that has been seen is answered from the table, the others are carried
out.  The answer is a pointer. -/
def apply (tables : Tables) (opLog : Op) : Tables × Option ClientRequestReply :=
  if tables.Seen opLog.clientId opLog.reqSeq then
    (tables, tables.clientLastReqRest.lookup opLog.clientId)
  else (tables.record opLog, some (applyToStateMachine tables.store opLog).2)

end Tables

/-! ## Notify channels -/

namespace KVServer

/-- The channel for an index, made if the map has none. -/
def getNotifyChannel (kv : KVServer) (index : Int) : KVServer × Nat :=
  match kv.notifyChannel.lookup index with
  | some channel => (kv, channel)
  | none =>
      ({ kv with
          notifyChannel := kv.notifyChannel.insert index kv.channels.length
          channels := kv.channels ++ [({ index := index } : NotifyChannel)] },
        kv.channels.length)

def removeNotifyChannel (kv : KVServer) (index : Int) : KVServer :=
  { kv with notifyChannel := kv.notifyChannel.erase index }

def setContent (kv : KVServer) (channel : Nat) (content : Option (Option ClientRequestReply)) :
    KVServer :=
  { kv with channels := kv.channels.modify channel fun ch => { ch with content := content } }

/-- `notifyCh <- reply`, which blocks on a channel that is full. -/
def notify (kv : KVServer) (index : Int) (reply : Option ClientRequestReply) : Outcome KVServer :=
  let (named, channel) := kv.getNotifyChannel index
  match named.channels[channel]? with
  | some ⟨_, none⟩ => .ok (named.setContent channel (some reply))
  | _ => .blocked

/-! ## `HandlerClientRequest` -/

/-- Whether the request is answered with `Duplicate` at once. -/
def Duplicates (kv : KVServer) (args : ClientRequestArgs) : Prop :=
  kv.tables.Seen args.clientId args.reqSeq ∧ args.op ≠ .opGet

instance (kv : KVServer) (args : ClientRequestArgs) : Decidable (kv.Duplicates args) :=
  inferInstanceAs (Decidable (_ ∧ _))

/-- The goroutine that a handler starts when it is done. -/
def scheduleRemoval (kv : KVServer) (index : Int) : KVServer :=
  { kv with removals := kv.removals ++ [index] }

/-- Take what is on the channel; a nil pointer panics when its fields are read. -/
def receive (kv : KVServer) (channel : Nat) : Outcome (KVServer × ClientRequestReply) :=
  match kv.channels[channel]? with
  | some ⟨_, some (some reply)⟩ => .ok (kv.setContent channel none, reply)
  | some ⟨_, some none⟩ => .panic
  | _ => .blocked

/-! ## `ApplyTicket` -/

def applyCommand (kv : KVServer) (index : Int) (command : Option Op) (isLeader : Bool) :
    Outcome KVServer :=
  if index ≤ kv.lastApplied then .ok kv
  else
    match command with
    | none => .panic
    | some opLog =>
        let (tables, reply) := kv.tables.apply opLog
        let applied := { kv with
          lastApplied := index
          tables := tables
          justApplied := some index }
        if isLeader then applied.notify index reply else .ok applied

def restoreSnapShot (codec : Codec) (kv : KVServer) (snapShot : Bytes) : KVServer :=
  if snapShot = [] then kv else { kv with tables := codec.decode snapShot }

/-- One turn of the loop, with the message it has taken. -/
def applyMsg (codec : Codec) (kv : KVServer) (msg : ApplyMsg Op) (isLeader : Bool) :
    Outcome KVServer :=
  let taken := { kv with consumed := kv.consumed + 1, justApplied := none }
  if msg.commandValid then taken.applyCommand msg.commandIndex msg.command isLeader
  else if msg.snapshotValid then .ok (restoreSnapShot codec taken msg.snapshot)
  else .ok taken

/-- The operation that the message makes the server carry out. -/
def carriesOut (kv : KVServer) (msg : ApplyMsg Op) : Option Op :=
  if msg.commandValid ∧ kv.lastApplied < msg.commandIndex then
    msg.command.filter fun opLog => ¬ kv.tables.Seen opLog.clientId opLog.reqSeq
  else none

end KVServer

def startKVServer (codec : Codec) (snapShot : Bytes) : KVServer :=
  ({} : KVServer).restoreSnapShot codec snapShot

end DistributedLabs.KvRaft
