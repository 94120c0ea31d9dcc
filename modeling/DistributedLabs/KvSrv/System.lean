import DistributedLabs.KvSrv.Server
import DistributedLabs.Library.Machine
import DistributedLabs.Library.Table

/-!
# Clerks and the single server

A clerk numbers its requests and calls the server until a call returns and the reply is
positive.  The reply variable is the same in all calls of a request.  A request or a reply
may be lost on the way, and several requests of a clerk may be under way.
-/

namespace DistributedLabs.KvSrv

open DistributedLabs.Library

/-- What a client asks its clerk. -/
inductive ClerkOp where
  | get (key : String)
  | put (key value : String)
  | append (key value : String)
  deriving DecidableEq, Repr

def ClerkOp.call (clientId ackSeq : Int) : ClerkOp → Call
  | .get key => .get ⟨key, clientId, ackSeq⟩
  | .put key value => .put ⟨key, value, clientId, ackSeq⟩
  | .append key value => .append ⟨key, value, clientId, ackSeq⟩

@[simp]
theorem ClerkOp.call_clientId (op : ClerkOp) (clientId ackSeq : Int) :
    (op.call clientId ackSeq).clientId = clientId := by
  cases op <;> rfl

@[simp]
theorem ClerkOp.call_ackSeq (op : ClerkOp) (clientId ackSeq : Int) :
    (op.call clientId ackSeq).ackSeq = ackSeq := by
  cases op <;> rfl

/-- Decoding does not touch the fields that were zero when the reply was encoded. -/
def Reply.decode (reply sent : Reply) : Reply where
  value := if sent.value = "" then reply.value else sent.value
  opResult := reply.opResult || sent.opResult

/-- Where the loop of a request stands. -/
inductive Phase where
  | calling
  /-- The handler has run and its reply is on the way. -/
  | replied (sent : Reply)
  | returned (value : String)
  deriving DecidableEq, Repr

structure Request where
  call : Call
  reply : Reply
  phase : Phase
  deriving DecidableEq, Repr

structure System where
  server : KVServer
  /-- The counters of the clerks, by their identity. -/
  ackSeq : Int → Int
  requests : List Request
  /-- The requests whose handler wrote the store, in order. -/
  effects : List (Nat × Call)

inductive Action where
  | request (clientId : Int) (op : ClerkOp)
  | execute (k : Nat)
  | receive (k : Nat)
  | lose (k : Nat)
  deriving DecidableEq, Repr

/-- The handler passes its check and goes on to write the store. -/
def KVServer.Writes (kv : KVServer) : Call → Prop
  | .get _ => False
  | .put args | .append args => (kv.checkWriteOpNecessary args {}).1 = true

instance (kv : KVServer) : DecidablePred kv.Writes
  | .get _ => instDecidableFalse
  | .put _ | .append _ => inferInstanceAs (Decidable (_ = _))

theorem KVServer.writes_iff (kv : KVServer) (call : Call) :
    kv.Writes call ↔ call.IsWrite ∧ kv.Expects call.clientId call.ackSeq := by
  cases call with
  | get args => simp [Writes, Call.IsWrite]
  | put args | append args =>
      simp only [Writes, checkWriteOpNecessary_eq, Call.IsWrite, true_and, Call.clientId,
        Call.ackSeq]
      split
      · simpa
      · split <;> simpa

namespace System

def initial : System where
  server := startKVServer
  ackSeq := fun _ => 0
  requests := []
  effects := []

/-- `Get` and `PutAppend` number the request and start the loop. -/
def request (s : System) (clientId : Int) (op : ClerkOp) : System :=
  { s with
    ackSeq := Function.update s.ackSeq clientId (s.ackSeq clientId + 1)
    requests := s.requests ++ [⟨op.call clientId (s.ackSeq clientId), {}, .calling⟩] }

/-- The request arrives and the handler runs. -/
def execute (s : System) (k : Nat) : Outcome System :=
  match s.requests[k]? with
  | some ⟨call, reply, .calling⟩ =>
      .ok { s with
        server := (s.server.serve call).1
        requests := s.requests.set k ⟨call, reply, .replied (s.server.serve call).2⟩
        effects := if s.server.Writes call then s.effects ++ [(k, call)] else s.effects }
  | _ => .blocked

/-- The call returns `true`; the loop ends if the reply is positive. -/
def receive (s : System) (k : Nat) : Outcome System :=
  match s.requests[k]? with
  | some ⟨call, reply, .replied sent⟩ =>
      let decoded := reply.decode sent
      let phase := if decoded.opResult then .returned decoded.value else .calling
      .ok { s with requests := s.requests.set k ⟨call, decoded, phase⟩ }
  | _ => .blocked

/-- The request or its reply is lost, the call returns `false` and is made again. -/
def lose (s : System) (k : Nat) : Outcome System :=
  match s.requests[k]? with
  | some ⟨_, _, .calling⟩ => .ok s
  | some ⟨call, reply, .replied _⟩ =>
      .ok { s with requests := s.requests.set k ⟨call, reply, .calling⟩ }
  | _ => .blocked

def step (s : System) : Action → Outcome System
  | .request clientId op => .ok (s.request clientId op)
  | .execute k => s.execute k
  | .receive k => s.receive k
  | .lose k => s.lose k

/-! ## What a step does -/

/-- The recorded writes after a request has been carried out. -/
def recorded (effects : List (Nat × Call)) (k : Nat) (call : Call) : List (Nat × Call) :=
  if call.IsWrite then effects ++ [(k, call)] else effects

section Recorded

variable {effects : List (Nat × Call)} {k : Nat} {call : Call}

theorem mem_recorded {effect : Nat × Call} :
    effect ∈ recorded effects k call ↔ effect ∈ effects ∨ call.IsWrite ∧ effect = (k, call) := by
  unfold recorded
  split
  · next hwrite => simp [hwrite]
  · next hread => simp [hread]

theorem recorded_extends : effects <+: recorded effects k call := by
  unfold recorded
  split
  · exact List.prefix_append _ _
  · exact List.prefix_refl _

theorem storeAfter_recorded :
    storeAfter ((recorded effects k call).map Prod.snd) =
      call.effect (storeAfter (effects.map Prod.snd)) := by
  unfold recorded
  split
  · rw [List.map_append, List.map_singleton, storeAfter_concat]
  · next hread => exact (Call.effect_of_not_isWrite hread _).symm

theorem nodup_recorded (h : (effects.map Prod.fst).Nodup) (hnew : k ∉ effects.map Prod.fst) :
    ((recorded effects k call).map Prod.fst).Nodup := by
  unfold recorded
  split
  · rw [List.map_append, List.map_singleton]
    refine h.append (List.nodup_singleton _) fun other hold hlast => ?_
    obtain rfl := List.mem_singleton.mp hlast
    exact hnew hold
  · exact h

end Recorded

def calls (s : System) : List Call :=
  s.requests.map Request.call

theorem call_of_request {s : System} {k : Nat} {request : Request}
    (h : s.requests[k]? = some request) : s.calls[k]? = some request.call := by
  rw [calls, List.getElem?_map, h]
  rfl

/-- The handler carries the request out, finds it done, or refuses it. -/
theorem execute_cases {s s' : System} {k : Nat} (h : s.execute k = .ok s') :
    ∃ call reply, s.requests[k]? = some ⟨call, reply, .calling⟩ ∧
      ((s.server.Expects call.clientId call.ackSeq ∧
          s' = { s with
            server := s.server.carryOut call
            requests := s.requests.set k
              ⟨call, reply, .replied ⟨s.server.valueAt call.key, true⟩⟩
            effects := recorded s.effects k call }) ∨
        (s.server.HasDone call.clientId call.ackSeq ∧
          s' = { s with
            requests := s.requests.set k ⟨call, reply, .replied (s.server.repeatReply call)⟩ }) ∨
        (¬s.server.HasDone call.clientId call.ackSeq ∧
          s' = { s with requests := s.requests.set k ⟨call, reply, .replied {}⟩ })) := by
  unfold execute at h
  split at h
  · next call reply hrequest =>
      cases h
      refine ⟨call, reply, hrequest, ?_⟩
      simp only [KVServer.writes_iff]
      by_cases hnext : s.server.Expects call.clientId call.ackSeq
      · refine .inl ⟨hnext, ?_⟩
        rw [KVServer.serve_of_expects hnext]
        simp only [hnext, and_true, recorded]
      · simp only [hnext, and_false, if_false]
        by_cases hdone : s.server.HasDone call.clientId call.ackSeq
        · refine .inr (.inl ⟨hdone, ?_⟩)
          rw [KVServer.serve_of_hasDone hdone]
        · refine .inr (.inr ⟨hdone, ?_⟩)
          rw [KVServer.serve_of_refused hnext hdone]
  · cases h

theorem receive_cases {s s' : System} {k : Nat} (h : s.receive k = .ok s') :
    ∃ call reply sent, s.requests[k]? = some ⟨call, reply, .replied sent⟩ ∧
      s' = { s with
        requests := s.requests.set k ⟨call, reply.decode sent,
          if (reply.decode sent).opResult then .returned (reply.decode sent).value
          else .calling⟩ } := by
  unfold receive at h
  split at h
  · next call reply sent hrequest =>
      cases h
      exact ⟨call, reply, sent, hrequest, rfl⟩
  · cases h

theorem lose_cases {s s' : System} {k : Nat} (h : s.lose k = .ok s') :
    s' = s ∨ ∃ call reply sent, s.requests[k]? = some ⟨call, reply, .replied sent⟩ ∧
      s' = { s with requests := s.requests.set k ⟨call, reply, .calling⟩ } := by
  unfold lose at h
  split at h
  · cases h
    exact .inl rfl
  · next call reply sent hrequest =>
      cases h
      exact .inr ⟨call, reply, sent, hrequest, rfl⟩
  · cases h

theorem calls_set {s : System} {k : Nat} {call : Call} {reply : Reply} {phase : Phase}
    (h : s.requests[k]? = some ⟨call, reply, phase⟩) (reply' : Reply) (phase' : Phase) :
    (s.requests.set k ⟨call, reply', phase'⟩).map Request.call = s.calls := by
  have hcall : s.calls[k]? = some call := call_of_request h
  rw [List.map_set]
  exact Table.set_of_read hcall

/-! ## What the recorded writes say -/

/-- The requests carry different numbers, below those their clerks use next.  The store
holds the recorded writes, and these are the writes the server has done. -/
structure Tracked (s : System) : Prop where
  nonneg : ∀ clientId, 0 ≤ s.ackSeq clientId
  below : ∀ call ∈ s.calls, 0 ≤ call.ackSeq ∧ call.ackSeq < s.ackSeq call.clientId
  distinct : (s.calls.map (Session.key Call.clientId Call.ackSeq)).Nodup
  behind : ∀ clientId, s.server.nextSeq clientId ≤ s.ackSeq clientId
  store : s.server.store = storeAfter (s.effects.map Prod.snd)
  once : (s.effects.map Prod.fst).Nodup
  effect : ∀ k call, (k, call) ∈ s.effects →
    s.calls[k]? = some call ∧ s.server.HasDone call.clientId call.ackSeq
  written : ∀ k call, s.calls[k]? = some call → call.IsWrite →
    s.server.HasDone call.clientId call.ackSeq → (k, call) ∈ s.effects

/-- Only the phases and the reply variables have changed. -/
theorem Tracked.requests {s : System} (h : s.Tracked) {requests : List Request}
    (hcalls : requests.map Request.call = s.calls) :
    Tracked { s with requests := requests } where
  nonneg := h.nonneg
  below := by
    rw [calls, hcalls]
    exact h.below
  distinct := by
    rw [calls, hcalls]
    exact h.distinct
  behind := h.behind
  store := h.store
  once := h.once
  effect := by
    rw [calls, hcalls]
    exact h.effect
  written := by
    rw [calls, hcalls]
    exact h.written

/-- Two requests of a clerk have different numbers. -/
theorem Tracked.eq_of_number {s : System} (h : s.Tracked) {j k : Nat} {first second : Call}
    (hfirst : s.calls[j]? = some first) (hsecond : s.calls[k]? = some second)
    (hclient : first.clientId = second.clientId) (hseq : first.ackSeq = second.ackSeq) : j = k :=
  Table.eq_of_column h.distinct hfirst hsecond (by simp only [Session.key, hclient, hseq])

theorem Tracked.not_hasDone_next {s : System} (h : s.Tracked) (clientId : Int) :
    ¬s.server.HasDone clientId (s.ackSeq clientId) := by
  intro hdone
  exact absurd (h.behind clientId) (Int.not_le.mpr hdone.2)

/-- Carrying out one request does not carry out another. -/
theorem Tracked.hasDone_of_ne {s : System} (h : s.Tracked) {j k : Nat} {call other : Call}
    (hcall : s.calls[k]? = some call) (hother : s.calls[j]? = some other) (hne : j ≠ k)
    (hnext : s.server.Expects call.clientId call.ackSeq)
    (hdone : (s.server.carryOut call).HasDone other.clientId other.ackSeq) :
    s.server.HasDone other.clientId other.ackSeq := by
  rcases (KVServer.hasDone_carryOut hnext _ _).mp hdone with hbefore | ⟨hclient, hseq⟩
  · exact hbefore
  · exact absurd (h.eq_of_number hother hcall hclient hseq) hne

theorem calls_request (s : System) (clientId : Int) (op : ClerkOp) :
    (s.request clientId op).calls = s.calls ++ [op.call clientId (s.ackSeq clientId)] := by
  simp [request, calls]

theorem ackSeq_request (s : System) (clientId : Int) (op : ClerkOp) (other : Int) :
    (s.request clientId op).ackSeq other =
      if other = clientId then s.ackSeq clientId + 1 else s.ackSeq other := by
  simp [request, Function.update_apply]

theorem Tracked.request {s : System} (h : s.Tracked) (clientId : Int) (op : ClerkOp) :
    (s.request clientId op).Tracked := by
  have hgrows (other : Int) : s.ackSeq other ≤ (s.request clientId op).ackSeq other := by
    rw [ackSeq_request]
    split
    · next hother =>
        subst hother
        omega
    · exact Int.le_refl _
  refine ⟨fun other => Int.le_trans (h.nonneg other) (hgrows other), ?_, ?_,
    fun other => Int.le_trans (h.behind other) (hgrows other), h.store, h.once, ?_, ?_⟩
  · intro call hcall
    rw [calls_request] at hcall
    rcases List.mem_append.mp hcall with hold | hnew
    · obtain ⟨hnonneg, hlt⟩ := h.below call hold
      exact ⟨hnonneg, Int.lt_of_lt_of_le hlt (hgrows _)⟩
    · obtain rfl := List.mem_singleton.mp hnew
      rw [ClerkOp.call_ackSeq, ClerkOp.call_clientId, ackSeq_request, if_pos rfl]
      exact ⟨h.nonneg clientId, by omega⟩
  · rw [calls_request, List.map_append, List.map_singleton]
    refine h.distinct.append (List.nodup_singleton _) fun other hold hnew => ?_
    obtain rfl := List.mem_singleton.mp hnew
    obtain ⟨call, hcall, hkey⟩ := List.mem_map.mp hold
    obtain ⟨hclient, hseq⟩ := Prod.mk.inj hkey
    have hlt := (h.below call hcall).2
    rw [hclient, hseq, ClerkOp.call_ackSeq, ClerkOp.call_clientId] at hlt
    exact Int.lt_irrefl _ hlt
  · intro k call hmem
    obtain ⟨hcall, hdone⟩ := h.effect k call hmem
    refine ⟨?_, hdone⟩
    rw [calls_request, List.getElem?_append_left (List.getElem?_eq_some_iff.mp hcall).1]
    exact hcall
  · intro k call hcall hwrite hdone
    rw [calls_request] at hcall
    rcases Table.read_concat hcall with hold | ⟨_, rfl⟩
    · exact h.written k call hold hwrite hdone
    · rw [ClerkOp.call_clientId, ClerkOp.call_ackSeq] at hdone
      exact absurd hdone (h.not_hasDone_next clientId)

theorem Tracked.not_effect {s : System} (h : s.Tracked) {k : Nat} {call : Call}
    (hcall : s.calls[k]? = some call) (hdone : ¬s.server.HasDone call.clientId call.ackSeq) :
    k ∉ s.effects.map Prod.fst := by
  intro hmem
  obtain ⟨⟨k', other⟩, heffect, rfl⟩ := List.mem_map.mp hmem
  obtain ⟨hother, hotherDone⟩ := h.effect _ other heffect
  obtain rfl : other = call := Option.some.inj (hother.symm.trans hcall)
  exact hdone hotherDone

theorem Tracked.carryOut {s : System} (h : s.Tracked) {k : Nat} {call : Call}
    (hcall : s.calls[k]? = some call) (hnext : s.server.Expects call.clientId call.ackSeq) :
    Tracked { s with
      server := s.server.carryOut call
      effects := recorded s.effects k call } where
  nonneg := h.nonneg
  below := h.below
  distinct := h.distinct
  behind := by
    intro clientId
    rw [KVServer.nextSeq_carryOut]
    split
    · next hclient =>
        subst hclient
        have := (h.below call (List.mem_of_getElem? hcall)).2
        dsimp only
        omega
    · exact h.behind clientId
  store := by
    rw [storeAfter_recorded, ← h.store]
    rfl
  once := nodup_recorded h.once (h.not_effect hcall hnext.not_hasDone)
  effect := by
    intro j other hmem
    rw [KVServer.hasDone_carryOut hnext]
    rcases mem_recorded.mp hmem with hold | ⟨_, hnew⟩
    · obtain ⟨hother, hdone⟩ := h.effect j other hold
      exact ⟨hother, .inl hdone⟩
    · obtain ⟨rfl, rfl⟩ := Prod.mk.inj hnew
      exact ⟨hcall, .inr ⟨rfl, rfl⟩⟩
  written := by
    intro j other hother hwrite hdone
    by_cases hj : j = k
    · subst hj
      obtain rfl : other = call := Option.some.inj (hother.symm.trans hcall)
      exact mem_recorded.mpr (.inr ⟨hwrite, rfl⟩)
    · have hbefore := h.hasDone_of_ne hcall hother hj hnext hdone
      exact mem_recorded.mpr (.inl (h.written j other hother hwrite hbefore))

theorem tracked_initial : initial.Tracked where
  nonneg _ := Int.le_refl 0
  below _ h := by cases h
  distinct := List.nodup_nil
  behind _ := Int.le_refl 0
  store := rfl
  once := List.nodup_nil
  effect _ _ h := by cases h
  written _ _ h := by cases h

theorem Tracked.step {s s' : System} {action : Action} (h : s.Tracked)
    (hstep : s.step action = .ok s') : s'.Tracked := by
  cases action with
  | request clientId op =>
      cases hstep
      exact h.request clientId op
  | execute k =>
      obtain ⟨call, reply, hrequest, ⟨hnext, rfl⟩ | ⟨_, rfl⟩ | ⟨_, rfl⟩⟩ := execute_cases hstep
      · exact (h.carryOut (call_of_request hrequest) hnext).requests (calls_set hrequest _ _)
      · exact h.requests (calls_set hrequest _ _)
      · exact h.requests (calls_set hrequest _ _)
  | receive k =>
      obtain ⟨call, reply, sent, hrequest, rfl⟩ := receive_cases hstep
      exact h.requests (calls_set hrequest _ _)
  | lose k =>
      obtain rfl | ⟨call, reply, sent, hrequest, rfl⟩ := lose_cases hstep
      · exact h
      · exact h.requests (calls_set hrequest _ _)

end System

end DistributedLabs.KvSrv
