import DistributedLabs.Library.Session
import Mathlib.Data.List.AList

/-!
# The single key/value server

The server keeps the store and, for each client, the number of the last request it has
carried out.  Writes and reads have their own admission checks, which treat a repeated
request differently, and share the numbers.
-/

namespace DistributedLabs.KvSrv

open DistributedLabs.Library

structure PutAppendArgs where
  key : String
  value : String
  clientId : Int
  ackSeq : Int
  deriving DecidableEq, Repr

structure GetArgs where
  key : String
  clientId : Int
  ackSeq : Int
  deriving DecidableEq, Repr

/-- `PutAppendReply` and `GetReply`, which have the same fields. -/
structure Reply where
  value : String := ""
  opResult : Bool := false
  deriving DecidableEq, Repr

abbrev Store := AList (fun _ : String => String)

structure KVServer where
  store : Store
  clientAck : AList (fun _ : Int => Int)

def startKVServer : KVServer where
  store := ∅
  clientAck := ∅

namespace KVServer

/-! ## The admission checks and the bookkeeping -/

/-- Whether a write is to be carried out, and the reply as the check leaves it. -/
def checkWriteOpNecessary (kv : KVServer) (args : PutAppendArgs) (reply : Reply) : Bool × Reply :=
  if args.ackSeq < 0 then (false, reply)
  else
    match kv.clientAck.lookup args.clientId with
    | none =>
        if args.ackSeq = 0 then (true, reply) else (false, { reply with opResult := false })
    | some value =>
        if value + 1 = args.ackSeq then (true, reply)
        else if args.ackSeq ≤ value then (false, { reply with opResult := true })
        else (false, { reply with opResult := false })

/-- A repeated read is carried out again. -/
def checkReadOpNecessary (kv : KVServer) (args : GetArgs) (reply : Reply) : Bool × Reply :=
  if args.ackSeq < 0 then (false, reply)
  else
    match kv.clientAck.lookup args.clientId with
    | none => if args.ackSeq = 0 then (true, reply) else (false, reply)
    | some value =>
        if value + 1 = args.ackSeq then (true, reply)
        else if args.ackSeq ≤ value then (true, reply)
        else (false, { reply with opResult := false })

/-- The body that `MaintainState` and `MaintainRState` share. -/
def maintain (kv : KVServer) (clientId ackSeq : Int) (reply : Reply) : KVServer × Reply :=
  match kv.clientAck.lookup clientId with
  | none =>
      ({ kv with clientAck := kv.clientAck.insert clientId ackSeq },
        { reply with opResult := true })
  | some value =>
      if value < ackSeq then
        ({ kv with clientAck := kv.clientAck.insert clientId ackSeq },
          { reply with opResult := true })
      else (kv, { reply with opResult := true })

def maintainState (kv : KVServer) (args : PutAppendArgs) (reply : Reply) : KVServer × Reply :=
  kv.maintain args.clientId args.ackSeq reply

def maintainRState (kv : KVServer) (args : GetArgs) (reply : Reply) : KVServer × Reply :=
  kv.maintain args.clientId args.ackSeq reply

/-! ## The handlers -/

/-- Handlers are given a zero reply. -/
def get (kv : KVServer) (args : GetArgs) : KVServer × Reply :=
  match kv.checkReadOpNecessary args {} with
  | (false, reply) => (kv, reply)
  | (true, reply) =>
      match kv.store.lookup args.key with
      | some value => kv.maintainRState args { reply with value := value }
      | none => kv.maintainRState args { reply with value := "" }

def put (kv : KVServer) (args : PutAppendArgs) : KVServer × Reply :=
  match kv.checkWriteOpNecessary args {} with
  | (false, reply) => (kv, reply)
  | (true, reply) =>
      let written := { kv with store := kv.store.insert args.key args.value }
      match kv.store.lookup args.key with
      | some value => written.maintainState args { reply with value := value }
      | none => written.maintainState args { reply with value := "" }

def append (kv : KVServer) (args : PutAppendArgs) : KVServer × Reply :=
  match kv.checkWriteOpNecessary args {} with
  | (false, reply) => (kv, reply)
  | (true, reply) =>
      match kv.store.lookup args.key with
      | some value =>
          { kv with store := kv.store.insert args.key (value ++ args.value) }.maintainState args
            { reply with value := value }
      | none =>
          { kv with store := kv.store.insert args.key args.value }.maintainState args
            { reply with value := "" }

end KVServer

/-! ## Calls -/

inductive Call where
  | get (args : GetArgs)
  | put (args : PutAppendArgs)
  | append (args : PutAppendArgs)
  deriving DecidableEq, Repr

namespace Call

def key : Call → String
  | .get args => args.key
  | .put args | .append args => args.key

def clientId : Call → Int
  | .get args => args.clientId
  | .put args | .append args => args.clientId

def ackSeq : Call → Int
  | .get args => args.ackSeq
  | .put args | .append args => args.ackSeq

/-- What a call is meant to do to the store. -/
def effect (store : Store) : Call → Store
  | .get _ => store
  | .put args => store.insert args.key args.value
  | .append args => store.insert args.key ((store.lookup args.key).getD "" ++ args.value)

def IsWrite : Call → Prop
  | .get _ => False
  | .put _ | .append _ => True

instance : DecidablePred IsWrite
  | .get _ => instDecidableFalse
  | .put _ | .append _ => instDecidableTrue

theorem effect_of_not_isWrite {call : Call} (h : ¬call.IsWrite) (store : Store) :
    call.effect store = store := by
  cases call with
  | get args => rfl
  | put args | append args => exact absurd trivial h

end Call

/-- The store after the calls have taken effect in order. -/
def storeAfter (calls : List Call) : Store :=
  calls.foldl Call.effect ∅

@[simp]
theorem storeAfter_concat (calls : List Call) (call : Call) :
    storeAfter (calls ++ [call]) = call.effect (storeAfter calls) := by
  simp [storeAfter]

namespace KVServer

def serve (kv : KVServer) : Call → KVServer × Reply
  | .get args => kv.get args
  | .put args => kv.put args
  | .append args => kv.append args

def serveAll (kv : KVServer) (calls : List Call) : KVServer :=
  calls.foldl (fun kv call => (kv.serve call).1) kv

theorem serveAll_concat (kv : KVServer) (calls : List Call) (call : Call) :
    kv.serveAll (calls ++ [call]) = ((kv.serveAll calls).serve call).1 := by
  simp [serveAll]

/-! ## What a handler does

A request is compared with the number the server expects next from its client.
-/

/-- The number the server expects next from a client. -/
def nextSeq (kv : KVServer) (clientId : Int) : Int :=
  match kv.clientAck.lookup clientId with
  | none => 0
  | some value => value + 1

/-- The value under a key, empty if there is none. -/
def valueAt (kv : KVServer) (key : String) : String :=
  (kv.store.lookup key).getD ""

/-- The number is the next one of the client. -/
def Expects (kv : KVServer) (clientId ackSeq : Int) : Prop :=
  0 ≤ ackSeq ∧ ackSeq = kv.nextSeq clientId

/-- The request of the client with this number has been carried out. -/
def HasDone (kv : KVServer) (clientId ackSeq : Int) : Prop :=
  0 ≤ ackSeq ∧ ackSeq < kv.nextSeq clientId

instance (kv : KVServer) (clientId ackSeq : Int) : Decidable (kv.Expects clientId ackSeq) :=
  inferInstanceAs (Decidable (_ ∧ _))

instance (kv : KVServer) (clientId ackSeq : Int) : Decidable (kv.HasDone clientId ackSeq) :=
  inferInstanceAs (Decidable (_ ∧ _))

theorem Expects.not_hasDone {kv : KVServer} {clientId ackSeq : Int}
    (h : kv.Expects clientId ackSeq) : ¬kv.HasDone clientId ackSeq := by
  intro hdone
  exact Int.lt_irrefl _ (h.2 ▸ hdone.2)

/-- A write is carried out if it is the next request of its client, and only a repeated
one is confirmed otherwise. -/
theorem checkWriteOpNecessary_eq (kv : KVServer) (args : PutAppendArgs) :
    kv.checkWriteOpNecessary args {} =
      if kv.Expects args.clientId args.ackSeq then (true, {})
      else if kv.HasDone args.clientId args.ackSeq then (false, ⟨"", true⟩)
      else (false, {}) := by
  cases hlast : kv.clientAck.lookup args.clientId with
  | none =>
      have hnext : kv.nextSeq args.clientId = 0 := by simp only [nextSeq, hlast]
      simp only [checkWriteOpNecessary, Expects, HasDone, hlast, hnext]
      grind
  | some value =>
      have hnext : kv.nextSeq args.clientId = value + 1 := by simp only [nextSeq, hlast]
      simp only [checkWriteOpNecessary, Expects, HasDone, hlast, hnext]
      grind

/-- A read is carried out if it is the next request of its client or a repeated one. -/
theorem checkReadOpNecessary_eq (kv : KVServer) (args : GetArgs) :
    kv.checkReadOpNecessary args {} =
      if kv.Expects args.clientId args.ackSeq then (true, {})
      else if kv.HasDone args.clientId args.ackSeq then (true, {})
      else (false, {}) := by
  cases hlast : kv.clientAck.lookup args.clientId with
  | none =>
      have hnext : kv.nextSeq args.clientId = 0 := by simp only [nextSeq, hlast]
      simp only [checkReadOpNecessary, Expects, HasDone, hlast, hnext]
      grind
  | some value =>
      have hnext : kv.nextSeq args.clientId = value + 1 := by simp only [nextSeq, hlast]
      simp only [checkReadOpNecessary, Expects, HasDone, hlast, hnext]
      grind

theorem maintain_of_expects {kv : KVServer} {clientId ackSeq : Int}
    (h : kv.Expects clientId ackSeq) (store : Store) (reply : Reply) :
    maintain { kv with store := store } clientId ackSeq reply =
      (⟨store, kv.clientAck.insert clientId ackSeq⟩, { reply with opResult := true }) := by
  unfold maintain
  unfold Expects nextSeq at h
  cases hlast : kv.clientAck.lookup clientId with
  | none => rfl
  | some value =>
      simp only [hlast] at h
      exact if_pos (by omega)

theorem maintain_of_hasDone {kv : KVServer} {clientId ackSeq : Int}
    (h : kv.HasDone clientId ackSeq) (reply : Reply) :
    kv.maintain clientId ackSeq reply = (kv, { reply with opResult := true }) := by
  unfold maintain
  unfold HasDone nextSeq at h
  cases hlast : kv.clientAck.lookup clientId with
  | none =>
      simp only [hlast] at h
      omega
  | some value =>
      simp only [hlast] at h
      exact if_neg (by omega)

/-- The server after a request has been carried out for the first time. -/
def carryOut (kv : KVServer) (call : Call) : KVServer where
  store := call.effect kv.store
  clientAck := kv.clientAck.insert call.clientId call.ackSeq

theorem nextSeq_carryOut (kv : KVServer) (call : Call) (clientId : Int) :
    (kv.carryOut call).nextSeq clientId =
      if clientId = call.clientId then call.ackSeq + 1 else kv.nextSeq clientId := by
  split
  · next h =>
      subst h
      simp [nextSeq, carryOut]
  · next h => simp [nextSeq, carryOut, AList.lookup_insert_ne h]

theorem hasDone_carryOut {kv : KVServer} {call : Call}
    (h : kv.Expects call.clientId call.ackSeq) (clientId ackSeq : Int) :
    (kv.carryOut call).HasDone clientId ackSeq ↔
      kv.HasDone clientId ackSeq ∨ clientId = call.clientId ∧ ackSeq = call.ackSeq := by
  obtain ⟨hnonneg, hnext⟩ := h
  unfold HasDone
  rw [nextSeq_carryOut]
  split
  · next hclient =>
      subst hclient
      omega
  · next hclient =>
      simp only [hclient, false_and, or_false]

/-- The answer to a repeated request: the value for a read, nothing for a write. -/
def repeatReply (kv : KVServer) : Call → Reply
  | .get args => ⟨kv.valueAt args.key, true⟩
  | .put _ | .append _ => ⟨"", true⟩

/-- The next request of a client is carried out and answered with the value before. -/
theorem serve_of_expects {kv : KVServer} {call : Call}
    (h : kv.Expects call.clientId call.ackSeq) :
    kv.serve call = (kv.carryOut call, ⟨kv.valueAt call.key, true⟩) := by
  cases call with
  | get args =>
      simp only [Call.clientId, Call.ackSeq] at h
      have hmaintain (reply : Reply) :
          kv.maintain args.clientId args.ackSeq reply =
            (⟨kv.store, kv.clientAck.insert args.clientId args.ackSeq⟩,
              { reply with opResult := true }) :=
        maintain_of_expects h kv.store reply
      simp only [serve, get, checkReadOpNecessary_eq, if_pos h, maintainRState, hmaintain]
      cases hvalue : kv.store.lookup args.key <;>
        simp [carryOut, valueAt, hvalue, Call.effect, Call.key, Call.clientId, Call.ackSeq]
  | put args =>
      simp only [Call.clientId, Call.ackSeq] at h
      simp only [serve, put, checkWriteOpNecessary_eq, if_pos h, maintainState,
        maintain_of_expects h]
      cases hvalue : kv.store.lookup args.key <;>
        simp [carryOut, valueAt, hvalue, Call.effect, Call.key, Call.clientId, Call.ackSeq]
  | append args =>
      simp only [Call.clientId, Call.ackSeq] at h
      simp only [serve, append, checkWriteOpNecessary_eq, if_pos h, maintainState,
        maintain_of_expects h]
      cases hvalue : kv.store.lookup args.key <;>
        simp [carryOut, valueAt, hvalue, Call.effect, Call.key, Call.clientId, Call.ackSeq]

/-- A repeated request changes nothing. -/
theorem serve_of_hasDone {kv : KVServer} {call : Call}
    (h : kv.HasDone call.clientId call.ackSeq) :
    kv.serve call = (kv, kv.repeatReply call) := by
  have hnot : ¬kv.Expects call.clientId call.ackSeq := fun hnext => hnext.not_hasDone h
  cases call with
  | get args =>
      simp only [Call.clientId, Call.ackSeq] at h hnot
      simp only [serve, get, checkReadOpNecessary_eq, if_neg hnot, if_pos h, maintainRState,
        maintain_of_hasDone h]
      cases hvalue : kv.store.lookup args.key <;> simp [repeatReply, valueAt, hvalue]
  | put args =>
      simp only [Call.clientId, Call.ackSeq] at h hnot
      simp only [serve, put, checkWriteOpNecessary_eq, if_neg hnot, if_pos h, repeatReply]
  | append args =>
      simp only [Call.clientId, Call.ackSeq] at h hnot
      simp only [serve, append, checkWriteOpNecessary_eq, if_neg hnot, if_pos h, repeatReply]

/-- A request with any other number is refused. -/
theorem serve_of_refused {kv : KVServer} {call : Call}
    (hnext : ¬kv.Expects call.clientId call.ackSeq)
    (hdone : ¬kv.HasDone call.clientId call.ackSeq) : kv.serve call = (kv, {}) := by
  cases call with
  | get args =>
      simp only [Call.clientId, Call.ackSeq] at hnext hdone
      simp only [serve, get, checkReadOpNecessary_eq, if_neg hnext, if_neg hdone]
  | put args =>
      simp only [Call.clientId, Call.ackSeq] at hnext hdone
      simp only [serve, put, checkWriteOpNecessary_eq, if_neg hnext, if_neg hdone]
  | append args =>
      simp only [Call.clientId, Call.ackSeq] at hnext hdone
      simp only [serve, append, checkWriteOpNecessary_eq, if_neg hnext, if_neg hdone]

theorem serve_of_not_expects {kv : KVServer} {call : Call}
    (h : ¬kv.Expects call.clientId call.ackSeq) : (kv.serve call).1 = kv := by
  by_cases hdone : kv.HasDone call.clientId call.ackSeq
  · rw [serve_of_hasDone hdone]
  · rw [serve_of_refused h hdone]

/-! ## Requests in any order -/

/-- Equality of the tables that can be evaluated. -/
instance decidableEqClientAck : DecidableEq (AList fun _ : Int => Int) := fun first second =>
  decidable_of_iff (first.entries = second.entries) AList.ext_iff.symm

/-- The calls that change `clientAck` when they are served one after the other. -/
def changing (kv : KVServer) : List Call → List Call
  | [] => []
  | call :: rest =>
      if (kv.serve call).1.clientAck ≠ kv.clientAck then call :: (kv.serve call).1.changing rest
      else (kv.serve call).1.changing rest

/-- `clientAck` changes if the call is the next one of its client. -/
theorem clientAck_changes_iff (kv : KVServer) (call : Call) :
    (kv.serve call).1.clientAck ≠ kv.clientAck ↔ kv.Expects call.clientId call.ackSeq := by
  constructor
  · intro hchange
    by_contra hnot
    exact hchange (by rw [serve_of_not_expects hnot])
  · intro hnext hsame
    have hafter : (kv.carryOut call).nextSeq call.clientId = kv.nextSeq call.clientId := by
      rw [serve_of_expects hnext] at hsame
      rw [nextSeq, nextSeq, hsame]
    rw [nextSeq_carryOut, if_pos rfl] at hafter
    have := hnext.2
    omega

theorem changing_concat (kv : KVServer) (calls : List Call) (call : Call) :
    kv.changing (calls ++ [call]) =
      kv.changing calls ++
        if (kv.serveAll calls).Expects call.clientId call.ackSeq then [call] else [] := by
  induction calls generalizing kv with
  | nil =>
      simp only [List.nil_append, changing, clientAck_changes_iff, serveAll, List.foldl_nil]
      congr
  | cons first rest ih =>
      simp only [List.cons_append, changing, ih]
      split
      · rfl
      · rfl

/-- The server stands where the calls leave it: it expects the number of calls of each
client, and its store holds their effects. -/
structure Reflects (kv : KVServer) (calls : List Call) : Prop where
  ordered : Session.InOrder Call.clientId Call.ackSeq calls
  next : ∀ client, kv.nextSeq client = (Session.ofClient Call.clientId client calls).length
  nonneg : ∀ client, ∀ last ∈ kv.clientAck.lookup client, 0 ≤ last
  store : kv.store = storeAfter calls

theorem Reflects.carryOut {kv : KVServer} {calls : List Call} {call : Call}
    (h : kv.Reflects calls) (hnext : kv.Expects call.clientId call.ackSeq) :
    (kv.carryOut call).Reflects (calls ++ [call]) where
  ordered := h.ordered.concat (hnext.2.trans (h.next call.clientId))
  next client := by
    rw [nextSeq_carryOut]
    split
    · next hclient =>
        subst hclient
        rw [Session.ofClient_concat_self, List.length_append, hnext.2, h.next]
        rfl
    · next hclient =>
        rw [Session.ofClient_concat_of_ne (Ne.symm hclient)]
        exact h.next client
  nonneg client last hlast := by
    by_cases hclient : client = call.clientId
    · subst hclient
      rw [KVServer.carryOut, AList.lookup_insert, Option.mem_some_iff] at hlast
      exact hlast ▸ hnext.1
    · rw [KVServer.carryOut, AList.lookup_insert_ne hclient] at hlast
      exact h.nonneg client last hlast
  store := by
    rw [storeAfter_concat, ← h.store]
    rfl

theorem reflects_serveAll (calls : List Call) :
    (startKVServer.serveAll calls).Reflects (startKVServer.changing calls) := by
  induction calls using List.reverseRecOn with
  | nil => exact ⟨.nil, fun _ => rfl, fun _ _ hlast => (by cases hlast), rfl⟩
  | append_singleton calls call ih =>
      rw [serveAll_concat, changing_concat]
      split
      · next hnext =>
          rw [serve_of_expects hnext]
          exact ih.carryOut hnext
      · next hnext =>
          rw [serve_of_not_expects hnext, List.append_nil]
          exact ih

/-- Whatever requests arrive, the calls of a client that change `clientAck` are numbered
`0, 1, 2, …` up to its entry, the store holds the effects of exactly these calls in order,
and every other call leaves the server as it was. -/
theorem at_most_once_in_order (calls : List Call) :
    (∀ client,
      match (startKVServer.serveAll calls).clientAck.lookup client with
      | none => ∀ call ∈ startKVServer.changing calls, call.clientId ≠ client
      | some last =>
          0 ≤ last ∧
            ((startKVServer.changing calls).filter fun call => call.clientId = client).map
              Call.ackSeq = (List.range (last.toNat + 1)).map fun index : Nat => (index : Int)) ∧
    (startKVServer.serveAll calls).store = storeAfter (startKVServer.changing calls) ∧
    ∀ past call rest, calls = past ++ call :: rest →
      ((startKVServer.serveAll past).serve call).1.clientAck =
        (startKVServer.serveAll past).clientAck →
      ((startKVServer.serveAll past).serve call).1 = startKVServer.serveAll past := by
  have hreflects := reflects_serveAll calls
  refine ⟨fun client => ?_, hreflects.store, fun past call rest _ hsame => ?_⟩
  · have hnumbers := hreflects.ordered.numbers client
    have hlength := hreflects.next client
    unfold nextSeq at hlength
    cases hlast : (startKVServer.serveAll calls).clientAck.lookup client with
    | none =>
        simp only [hlast] at hlength
        have hnone : Session.ofClient Call.clientId client (startKVServer.changing calls) = [] :=
          List.length_eq_zero_iff.mp (by omega)
        intro call hcall hclient
        exact (List.filter_eq_nil_iff.mp hnone) call hcall (by simpa using hclient)
    | some last =>
        simp only [hlast] at hlength
        have hnonneg : 0 ≤ last := hreflects.nonneg client last hlast
        have hcount :
            (Session.ofClient Call.clientId client (startKVServer.changing calls)).length =
            last.toNat + 1 := by
          omega
        rw [hcount] at hnumbers
        exact ⟨hnonneg, hnumbers⟩
  · have hnot : ¬(startKVServer.serveAll past).Expects call.clientId call.ackSeq := fun hnext =>
      (clientAck_changes_iff _ call).mpr hnext hsame
    exact serve_of_not_expects hnot

/-- An early append and a repeated one are left out. -/
theorem at_most_once_in_order_with_repeats :
    startKVServer.changing
        [.append ⟨"k", "a", 7, 0⟩, .append ⟨"k", "c", 7, 2⟩, .append ⟨"k", "a", 7, 0⟩,
          .get ⟨"k", 7, 1⟩, .get ⟨"k", 7, 1⟩, .append ⟨"k", "c", 7, 2⟩] =
      [.append ⟨"k", "a", 7, 0⟩, .get ⟨"k", 7, 1⟩, .append ⟨"k", "c", 7, 2⟩] ∧
    (startKVServer.serveAll
        [.append ⟨"k", "a", 7, 0⟩, .append ⟨"k", "c", 7, 2⟩, .append ⟨"k", "a", 7, 0⟩,
          .get ⟨"k", 7, 1⟩, .get ⟨"k", 7, 1⟩, .append ⟨"k", "c", 7, 2⟩]).store =
      storeAfter [.append ⟨"k", "a", 7, 0⟩, .get ⟨"k", 7, 1⟩, .append ⟨"k", "c", 7, 2⟩] := by
  have hchanging : startKVServer.changing
      [.append ⟨"k", "a", 7, 0⟩, .append ⟨"k", "c", 7, 2⟩, .append ⟨"k", "a", 7, 0⟩,
        .get ⟨"k", 7, 1⟩, .get ⟨"k", 7, 1⟩, .append ⟨"k", "c", 7, 2⟩] =
      [.append ⟨"k", "a", 7, 0⟩, .get ⟨"k", 7, 1⟩, .append ⟨"k", "c", 7, 2⟩] := by
    decide +kernel
  refine ⟨hchanging, ?_⟩
  rw [← hchanging]
  exact (at_most_once_in_order _).2.1

end KVServer

end DistributedLabs.KvSrv
