import DistributedLabs.KvSrv.Append
import DistributedLabs.KvSrv.Oldest
import DistributedLabs.Models.Kv

/-!
# The single server is linearizable

A write takes effect when its handler writes the store, once.  A read takes effect when
the handler runs whose reply gets through; when that reply is lost, the read has not
happened.  What an `Append` returns is another matter: the value before the write is known
to the first reply only, so it is right as long as that reply gets through.
-/

namespace DistributedLabs.KvSrv

open DistributedLabs.Library
open DistributedLabs.Models (KvInput KvOutput contents contents_insert kvModel kvObject)

/-! ## What the harness records -/

namespace Call

/-- The input of a call in the history.  With `values` an `Append` is recorded together with
the value it returns. -/
def input (values : Bool) : Call → KvInput
  | .get args => ⟨0, args.key, ""⟩
  | .put args => ⟨1, args.key, args.value⟩
  | .append args => ⟨if values then 3 else 2, args.key, args.value⟩

def output (values : Bool) (value : String) : Call → KvOutput
  | .get _ => ⟨value⟩
  | .put _ => {}
  | .append _ => if values then ⟨value⟩ else {}

end Call

namespace System

/-- A clerk's method is called, or it returns. -/
def event (values : Bool) (s : System) : NetAction → Event Nat KvInput KvOutput
  | .timely (.request clientId op) =>
      .invoke s.requests.length ((op.call clientId (s.ackSeq clientId)).input values)
  | .timely (.receive k) =>
      match s.requests[k]? with
      | some ⟨call, reply, .replied sent⟩ =>
          let decoded := reply.decode sent
          if decoded.opResult then .respond k (call.output values decoded.value) else .internal
      | _ => .internal
  | _ => .internal

end System

/-- The object allows what a call does to the store. -/
theorem kvObject_step (values : Bool) (store : Store) (call : Call) :
    kvObject.step (contents store) (call.input values)
      (call.output values (contents store call.key)) = some (contents (call.effect store)) := by
  cases call with
  | get args =>
      simp [kvObject, SeqObject.keyed, Porcupine.Model.object, kvModel, Models.KvModel.step,
        Call.input, Call.output, Call.key, Call.effect]
  | put args =>
      simp [kvObject, SeqObject.keyed, Porcupine.Model.object, kvModel, Models.KvModel.step,
        Call.input, Call.output, Call.effect, contents_insert]
  | append args =>
      have happended : (store.lookup args.key).getD "" = contents store args.key := rfl
      cases values with
      | false =>
          simp [kvObject, SeqObject.keyed, Porcupine.Model.object, kvModel, Models.KvModel.step,
            Call.input, Call.output, Call.effect, contents_insert, happended]
      | true =>
          simp [kvObject, SeqObject.keyed, Porcupine.Model.object, kvModel, Models.KvModel.step,
            Call.input, Call.output, Call.key, Call.effect, contents_insert, happended]

/-- A read changes nothing, whatever it returns. -/
theorem kvObject_reads {values : Bool} {call : Call} (h : ¬call.IsWrite)
    {state next : String → String} {out : KvOutput}
    (hstep : kvObject.step state (call.input values) out = some next) : next = state := by
  cases call with
  | get args =>
      simp only [kvObject, SeqObject.keyed, Porcupine.Model.object, kvModel, Models.KvModel.step,
        Call.input, if_true, Option.map_eq_some_iff] at hstep
      obtain ⟨value, hvalue, rfl⟩ := hstep
      split at hvalue
      · rw [← Option.some.inj hvalue, Function.update_eq_self]
      · cases hvalue
  | put args | append args => exact absurd trivial h

/-! ## Replies that may be lost and requests that come late -/

/-- The answer of the loop is positive, or will be. -/
def Phase.Positive : Phase → Prop
  | .calling => False
  | .replied sent => sent.opResult = true
  | .returned _ => True

namespace Request

/-- The reply variable is zero until the loop ends, and a reply is zero unless the request has
been carried out. -/
def Honest (kv : KVServer) (request : Request) : Prop :=
  match request.phase with
  | .calling => request.reply = {}
  | .replied sent => request.reply = {} ∧ (sent = {} ∨
      sent.opResult = true ∧ kv.HasDone request.call.clientId request.call.ackSeq)
  | .returned _ => kv.HasDone request.call.clientId request.call.ackSeq

/-- A write has taken effect when the server has carried it out, and a read when its answer is
on the way. -/
def Effective (kv : KVServer) (request : Request) : Prop :=
  if request.call.IsWrite then kv.HasDone request.call.clientId request.call.ackSeq
  else request.phase.Positive

theorem effective_write {kv : KVServer} {request : Request} (h : request.call.IsWrite) :
    request.Effective kv ↔ kv.HasDone request.call.clientId request.call.ackSeq := by
  rw [Effective, if_pos h]

theorem effective_read {kv : KVServer} {request : Request} (h : ¬request.call.IsWrite) :
    request.Effective kv ↔ request.phase.Positive := by
  rw [Effective, if_neg h]

/-- What a loop does concerns reads only. -/
theorem effective_congr {kv : KVServer} {call : Call} {reply reply' : Reply} {phase phase' : Phase}
    (hread : ¬call.IsWrite → (phase'.Positive ↔ phase.Positive)) :
    Effective kv ⟨call, reply', phase'⟩ ↔ Effective kv ⟨call, reply, phase⟩ := by
  by_cases hwrite : call.IsWrite
  · rw [effective_write hwrite, effective_write hwrite]
  · rw [effective_read hwrite, effective_read hwrite]
    exact hread hwrite

theorem effective_of {kv : KVServer} {call : Call} {reply : Reply} {phase : Phase}
    (hdone : kv.HasDone call.clientId call.ackSeq) (hpositive : phase.Positive) :
    Effective kv ⟨call, reply, phase⟩ := by
  by_cases hwrite : call.IsWrite
  · exact (effective_write hwrite).mpr hdone
  · exact (effective_read hwrite).mpr hpositive

/-- A request that the clerk has to repeat has not taken effect before the server has done it. -/
theorem not_effective {kv : KVServer} {call : Call} {reply : Reply}
    (hnot : ¬kv.HasDone call.clientId call.ackSeq) : ¬Effective kv ⟨call, reply, .calling⟩ := by
  by_cases hwrite : call.IsWrite
  · rw [effective_write hwrite]
    exact hnot
  · rw [effective_read hwrite]
    exact id

theorem Honest.mono {kv kv' : KVServer} {request : Request} (h : request.Honest kv)
    (hdone : kv.HasDone request.call.clientId request.call.ackSeq →
      kv'.HasDone request.call.clientId request.call.ackSeq) : request.Honest kv' := by
  obtain ⟨call, reply, phase⟩ := request
  cases phase with
  | calling => exact h
  | replied sent => exact ⟨h.1, h.2.imp_right fun hsent => ⟨hsent.1, hdone hsent.2⟩⟩
  | returned value => exact hdone h

end Request

namespace System

variable {s s' : System} {k : Nat}

/-- A late request is carried out, or it changes nothing. -/
theorem late_cases (h : s.late k = .ok s') : ∃ request, s.requests[k]? = some request ∧
    ((s.server.Expects request.call.clientId request.call.ackSeq ∧ s' = { s with
        server := s.server.carryOut request.call
        effects := recorded s.effects k request.call }) ∨
      s' = s) := by
  unfold late at h
  split at h
  · next request hrequest =>
      cases h
      refine ⟨request, hrequest, ?_⟩
      simp only [KVServer.writes_iff]
      by_cases hnext : s.server.Expects request.call.clientId request.call.ackSeq
      · refine .inl ⟨hnext, ?_⟩
        rw [KVServer.serve_of_expects hnext]
        simp only [hnext, and_true, recorded]
      · refine .inr ?_
        rw [KVServer.serve_of_not_expects hnext]
        simp only [hnext, and_false, if_false]
  · cases h

theorem Tracked.netStep {action : NetAction} (h : s.Tracked) (hstep : s.netStep action = .ok s') :
    s'.Tracked := by
  cases action with
  | timely action => exact h.step hstep
  | late k =>
      obtain ⟨request, hrequest, ⟨hnext, rfl⟩ | rfl⟩ := late_cases hstep
      · exact h.carryOut (call_of_request hrequest) hnext
      · exact h

def AllHonest (s : System) : Prop :=
  ∀ request ∈ s.requests, request.Honest s.server

namespace AllHonest

theorem set (h : s.AllHonest) {request : Request} (hrequest : request.Honest s.server) :
    AllHonest { s with requests := s.requests.set k request } := by
  intro found hmem
  rcases List.mem_or_eq_of_mem_set hmem with hold | rfl
  · exact h found hold
  · exact hrequest

theorem carryOut (h : s.AllHonest) {call : Call}
    (hnext : s.server.Expects call.clientId call.ackSeq) {effects : List (Nat × Call)} :
    AllHonest { s with server := s.server.carryOut call, effects := effects } :=
  fun request hmem => (h request hmem).mono fun hdone =>
    (KVServer.hasDone_carryOut hnext _ _).mpr (.inl hdone)

/-- The loop ends with the reply that was sent, or the clerk calls again. -/
theorem receive_cases (h : s.AllHonest) (hstep : s.receive k = .ok s') :
    ∃ call sent, s.requests[k]? = some ⟨call, {}, .replied sent⟩ ∧
      (sent.opResult = true ∧ s.server.HasDone call.clientId call.ackSeq ∧
          s' = { s with requests := s.requests.set k ⟨call, sent, .returned sent.value⟩ } ∨
        sent = {} ∧ s' = { s with requests := s.requests.set k ⟨call, {}, .calling⟩ }) := by
  obtain ⟨call, reply, sent, hrequest, rfl⟩ := System.receive_cases hstep
  obtain ⟨hreply, hsent⟩ := h _ (List.mem_of_getElem? hrequest)
  dsimp only at hreply
  subst hreply
  refine ⟨call, sent, hrequest, ?_⟩
  rcases hsent with rfl | ⟨hpositive, hdone⟩
  · exact .inr ⟨rfl, rfl⟩
  · refine .inl ⟨hpositive, hdone, ?_⟩
    rw [Reply.decode_zero, if_pos hpositive]

theorem netStep {action : NetAction} (h : s.AllHonest) (hstep : s.netStep action = .ok s') :
    s'.AllHonest := by
  cases action with
  | timely action =>
      cases action with
      | request clientId op =>
          cases hstep
          intro request hmem
          rcases List.mem_append.mp hmem with hold | hnew
          · exact h request hold
          · rw [List.mem_singleton.mp hnew]
            exact rfl
      | execute k =>
          obtain ⟨call, reply, hrequest, hcases⟩ := execute_cases hstep
          have hreply : reply = {} := h _ (List.mem_of_getElem? hrequest)
          obtain ⟨hnext, rfl⟩ | ⟨hdone, rfl⟩ | ⟨_, rfl⟩ := hcases
          · have hself : (s.server.carryOut call).HasDone call.clientId call.ackSeq :=
              (KVServer.hasDone_carryOut hnext _ _).mpr (.inr ⟨rfl, rfl⟩)
            exact (h.carryOut hnext).set ⟨hreply, .inr ⟨rfl, hself⟩⟩
          · exact h.set ⟨hreply, .inr ⟨KVServer.repeatReply_opResult _ _, hdone⟩⟩
          · exact h.set ⟨hreply, .inl rfl⟩
      | receive k =>
          obtain ⟨call, sent, _, ⟨_, hdone, rfl⟩ | ⟨_, rfl⟩⟩ := h.receive_cases hstep
          · exact h.set hdone
          · exact h.set rfl
      | lose k =>
          obtain rfl | ⟨call, reply, sent, hrequest, rfl⟩ := lose_cases hstep
          · exact h
          · exact h.set (h _ (List.mem_of_getElem? hrequest)).1
  | late k =>
      obtain ⟨request, hrequest, ⟨hnext, rfl⟩ | rfl⟩ := late_cases hstep
      · exact h.carryOut hnext
      · exact h

end AllHonest

/-! ## Points -/

/-- Every request that has taken effect has a point, with the output its clerk gets. -/
structure Pointed (values : Bool) (s : System) (points : List (Point Nat KvInput KvOutput)) :
    Prop where
  state : kvObject.run kvObject.init (points.map Point.io) = some (contents s.server.store)
  pointed : ∀ k request, s.requests[k]? = some request → request.Effective s.server →
    ∃ point ∈ points, point.key = k ∧
      point.output = request.call.output values request.phase.answer
  known : ∀ point ∈ points, ∃ request, s.requests[point.key]? = some request ∧
    request.Effective s.server

namespace Pointed

variable {values : Bool} {points : List (Point Nat KvInput KvOutput)} {call : Call}
  {reply reply' : Reply} {phase phase' : Phase}

theorem unused (h : Pointed values s points) {request : Request}
    (hrequest : s.requests[k]? = some request) (hnot : ¬request.Effective s.server) :
    k ∉ points.map Point.key := by
  intro hmem
  obtain ⟨point, hpoint, rfl⟩ := List.mem_map.mp hmem
  obtain ⟨found, hfound, heffective⟩ := h.known point hpoint
  obtain rfl := Option.some.inj (hfound.symm.trans hrequest)
  exact hnot heffective

/-- The server changes without an effect. -/
theorem congr (h : Pointed values s points) {kv : KVServer} (hstore : kv.store = s.server.store)
    (hsame : ∀ (j : Nat) (request : Request), s.requests[j]? = some request →
      (request.Effective kv ↔ request.Effective s.server)) (effects : List (Nat × Call)) :
    Pointed values { s with server := kv, effects := effects } points where
  state := by
    rw [hstore]
    exact h.state
  pointed j request hrequest heffective :=
    h.pointed j request hrequest ((hsame j request hrequest).mp heffective)
  known point hmem := by
    obtain ⟨request, hrequest, heffective⟩ := h.known point hmem
    exact ⟨request, hrequest, (hsame _ request hrequest).mpr heffective⟩

/-- A loop goes on, and the answer its clerk will get stays the same. -/
theorem set (h : Pointed values s points) (hrequest : s.requests[k]? = some ⟨call, reply, phase⟩)
    (hsame : Request.Effective s.server ⟨call, reply', phase'⟩ ↔
      Request.Effective s.server ⟨call, reply, phase⟩)
    (hanswer : Request.Effective s.server ⟨call, reply, phase⟩ →
      call.output values phase'.answer = call.output values phase.answer) :
    Pointed values { s with requests := s.requests.set k ⟨call, reply', phase'⟩ } points where
  state := h.state
  pointed j found hfound heffective := by
    rcases Table.read_set hfound with ⟨rfl, rfl⟩ | ⟨_, hold⟩
    · have hbefore := hsame.mp heffective
      obtain ⟨point, hpoint, hkey, houtput⟩ := h.pointed j _ hrequest hbefore
      exact ⟨point, hpoint, hkey, houtput.trans (hanswer hbefore).symm⟩
    · exact h.pointed j found hold heffective
  known point hmem := by
    obtain ⟨found, hfound, heffective⟩ := h.known point hmem
    by_cases hk : k = point.key
    · subst hk
      obtain rfl := Option.some.inj (hfound.symm.trans hrequest)
      exact ⟨_, List.getElem?_set_self (List.getElem?_eq_some_iff.mp hrequest).1,
        hsame.mpr heffective⟩
    · exact ⟨found, (List.getElem?_set_ne hk).trans hfound, heffective⟩

/-- A request takes effect on the server. -/
theorem add (h : Pointed values s points) (hrequest : s.requests[k]? = some ⟨call, reply, phase⟩)
    {kv : KVServer} {out : KvOutput}
    (hstep : kvObject.step (contents s.server.store) (call.input values) out =
      some (contents kv.store))
    (hothers : ∀ j request, j ≠ k → s.requests[j]? = some request →
      (request.Effective kv ↔ request.Effective s.server))
    (heffective : Request.Effective kv ⟨call, reply', phase'⟩)
    (hout : out = call.output values phase'.answer) (effects : List (Nat × Call)) (time : Nat) :
    Pointed values { s with
      server := kv
      requests := s.requests.set k ⟨call, reply', phase'⟩
      effects := effects } (points ++ [⟨k, call.input values, out, time⟩]) where
  state := by
    rw [List.map_append, List.map_singleton, kvObject.run_concat h.state]
    exact hstep
  pointed j found hfound heffective' := by
    rcases Table.read_set hfound with ⟨rfl, rfl⟩ | ⟨hne, hold⟩
    · exact ⟨_, List.mem_append_right _ (List.mem_singleton.mpr rfl), rfl, hout⟩
    · obtain ⟨point, hpoint, hrest⟩ := h.pointed j found hold
        ((hothers j found hne hold).mp heffective')
      exact ⟨point, List.mem_append_left _ hpoint, hrest⟩
  known point hmem := by
    have hset := List.getElem?_set_self (a := (⟨call, reply', phase'⟩ : Request))
      (List.getElem?_eq_some_iff.mp hrequest).1
    rcases List.mem_append.mp hmem with hold | hnew
    · obtain ⟨found, hfound, hbefore⟩ := h.known point hold
      by_cases hk : k = point.key
      · subst hk
        exact ⟨_, hset, heffective⟩
      · exact ⟨found, (List.getElem?_set_ne hk).trans hfound,
          (hothers _ found (Ne.symm hk) hfound).mpr hbefore⟩
    · rw [List.mem_singleton.mp hnew]
      exact ⟨_, hset, heffective⟩

/-- A read whose reply is lost has not happened. -/
theorem drop (h : Pointed values s points) (hdistinct : (points.map Point.key).Nodup)
    (hrequest : s.requests[k]? = some ⟨call, reply, phase⟩) (hread : ¬call.IsWrite)
    {front back : List (Point Nat KvInput KvOutput)} {point : Point Nat KvInput KvOutput}
    (hsplit : points = front ++ point :: back) (hkey : point.key = k)
    (hreads : ∀ {state next}, kvObject.step state point.input point.output = some next →
      next = state) :
    Pointed values { s with requests := s.requests.set k ⟨call, reply, .calling⟩ }
      (front ++ back) := by
  have hother : ∀ other ∈ front ++ back, other.key ≠ k := by
    rw [hsplit] at hdistinct
    have hperm : (front ++ point :: back).Perm (point :: (front ++ back)) := List.perm_middle
    have hmiddle := (hperm.map Point.key).nodup_iff.mp hdistinct
    intro other hmem heq
    refine (List.nodup_cons.mp hmiddle).1 ?_
    rw [hkey, ← heq]
    exact List.mem_map_of_mem hmem
  refine ⟨?_, fun j found hfound heffective => ?_, fun other hmem => ?_⟩
  · have hstate := h.state
    rw [hsplit, List.map_append, List.map_cons] at hstate
    rw [List.map_append]
    exact kvObject.run_drop hstate hreads
  · rcases Table.read_set hfound with ⟨rfl, rfl⟩ | ⟨hne, hold⟩
    · have hpositive : Phase.calling.Positive := (Request.effective_read hread).mp heffective
      exact hpositive.elim
    · obtain ⟨other, hmem, hown, houtput⟩ := h.pointed j found hold heffective
      refine ⟨other, ?_, hown, houtput⟩
      rw [hsplit] at hmem
      rcases List.mem_append.mp hmem with hfront | hrest
      · exact List.mem_append_left _ hfront
      · rcases List.mem_cons.mp hrest with rfl | hback
        · exact absurd (hown.symm.trans hkey) hne
        · exact List.mem_append_right _ hback
  · have hsub : other ∈ points := by
      rw [hsplit]
      rcases List.mem_append.mp hmem with hfront | hback
      · exact List.mem_append_left _ hfront
      · exact List.mem_append_right _ (List.mem_cons_of_mem _ hback)
    obtain ⟨found, hfound, heffective⟩ := h.known other hsub
    exact ⟨found, (List.getElem?_set_ne (Ne.symm (hother other hmem))).trans hfound, heffective⟩

end Pointed

/-! ## The record and the requests -/

/-- Request number `k` is recorded under the key `k`, and its answer when the loop has ended. -/
structure Recorded (values : Bool) (requests : List Request) (r : Record Nat KvInput KvOutput) :
    Prop where
  keys : r.calls.map CallRecord.key = List.range requests.length
  inputs : ∀ call ∈ r.calls, ∀ request, requests[call.key]? = some request →
    call.input = request.call.input values ∧
      (call.answer ≠ none → ∃ value, request.phase = .returned value)

namespace Recorded

variable {values : Bool} {requests : List Request} {r : Record Nat KvInput KvOutput} {call : Call}
  {reply reply' : Reply} {phase phase' : Phase}

theorem exists_call (h : Recorded values requests r) {request : Request}
    (hrequest : requests[k]? = some request) : ∃ call ∈ r.calls, call.key = k ∧
      call.input = request.call.input values ∧
      ((∀ value, request.phase ≠ .returned value) → call.answer = none) := by
  have hmem : k ∈ r.calls.map CallRecord.key := by
    rw [h.keys]
    exact List.mem_range.mpr (List.getElem?_eq_some_iff.mp hrequest).1
  obtain ⟨call, hcall, rfl⟩ := List.mem_map.mp hmem
  obtain ⟨hinput, hanswer⟩ := h.inputs call hcall request hrequest
  refine ⟨call, hcall, rfl, hinput, fun hopen => ?_⟩
  by_contra hne
  obtain ⟨value, hvalue⟩ := hanswer hne
  exact hopen value hvalue

theorem invoke (h : Recorded values requests r) (call : Call) (reply : Reply) :
    Recorded values (requests ++ [⟨call, reply, .calling⟩])
      (r.note (.invoke requests.length (call.input values))) where
  keys := by
    simp only [Record.note, List.map_append, List.map_cons, List.map_nil, List.length_append,
      List.length_singleton, List.range_succ, h.keys]
  inputs other hmem request hrequest := by
    rcases List.mem_append.mp hmem with hold | hnew
    · rcases Table.read_concat hrequest with hbefore | ⟨hlast, _⟩
      · exact h.inputs other hold request hbefore
      · have hlt : other.key ∈ List.range requests.length :=
          h.keys ▸ List.mem_map_of_mem hold
        rw [hlast] at hlt
        exact absurd (List.mem_range.mp hlt) (Nat.lt_irrefl _)
    · rw [List.mem_singleton.mp hnew] at hrequest ⊢
      rcases Table.read_concat hrequest with hbefore | ⟨_, rfl⟩
      · exact absurd (List.getElem?_eq_some_iff.mp hbefore).1 (Nat.lt_irrefl _)
      · exact ⟨rfl, fun hne => absurd rfl hne⟩

/-- A loop goes on. -/
theorem set (h : Recorded values requests r) (hrequest : requests[k]? = some ⟨call, reply, phase⟩)
    (hopen : ∀ value, phase ≠ .returned value) :
    Recorded values (requests.set k ⟨call, reply', phase'⟩) (r.note .internal) where
  keys := by
    rw [List.length_set]
    exact h.keys
  inputs other hmem request hread := by
    rcases Table.read_set hread with ⟨hk, rfl⟩ | ⟨_, hold⟩
    · rw [← hk] at hrequest
      obtain ⟨hinput, hanswer⟩ := h.inputs other hmem _ hrequest
      refine ⟨hinput, fun hne => ?_⟩
      obtain ⟨value, hvalue⟩ := hanswer hne
      exact absurd hvalue (hopen value)
    · exact h.inputs other hmem request hold

theorem respond (h : Recorded values requests r)
    (hrequest : requests[k]? = some ⟨call, reply, phase⟩)
    (value : String) (out : KvOutput) :
    Recorded values (requests.set k ⟨call, reply', .returned value⟩)
      (r.note (.respond k out)) where
  keys := by
    simp only [Record.note, List.map_map, Function.comp_def, CallRecord.respond_key,
      List.length_set]
    exact h.keys
  inputs other hmem request hread := by
    obtain ⟨old, hold, rfl⟩ := List.mem_map.mp hmem
    rw [CallRecord.respond_key] at hread
    rw [CallRecord.respond_input]
    rcases Table.read_set hread with ⟨hk, rfl⟩ | ⟨hne, hbefore⟩
    · rw [← hk] at hrequest
      exact ⟨(h.inputs old hold _ hrequest).1, fun _ => ⟨value, rfl⟩⟩
    · rw [CallRecord.respond, if_neg hne]
      exact h.inputs old hold request hbefore

end Recorded

/-! ## Runs -/

/-- The reply of an append that found a value is not lost. -/
def KeepsOld (s : System) : NetAction → Prop
  | .timely action => s.KeepsValue action
  | .late k => ∀ request ∈ s.requests[k]?, request.call.IsAppend → s.server.Writes request.call →
      s.server.valueAt request.call.key = ""

/-- The record fits the points of the requests. -/
structure Linearized (values : Bool) (s : System) (r : Record Nat KvInput KvOutput)
    (points : List (Point Nat KvInput KvOutput)) : Prop where
  tracked : s.Tracked
  honest : s.AllHonest
  recorded : Recorded values s.requests r
  tracks : Tracks kvObject r points
  pointed : Pointed values s points

namespace Linearized

variable {values : Bool} {r : Record Nat KvInput KvOutput}
  {points : List (Point Nat KvInput KvOutput)}

/-- Carrying out one request changes nothing for the others. -/
theorem effective_carryOut (h : Linearized values s r points) {call : Call} {reply : Reply}
    {phase : Phase} (hrequest : s.requests[k]? = some ⟨call, reply, phase⟩)
    (hnext : s.server.Expects call.clientId call.ackSeq) {j : Nat} {request : Request} (hne : j ≠ k)
    (hother : s.requests[j]? = some request) :
    request.Effective (s.server.carryOut call) ↔ request.Effective s.server := by
  by_cases hwrite : request.call.IsWrite
  · rw [Request.effective_write hwrite, Request.effective_write hwrite]
    exact ⟨h.tracked.hasDone_of_ne (call_of_request hrequest) (call_of_request hother) hne hnext,
      fun hdone => (KVServer.hasDone_carryOut hnext _ _).mpr (.inl hdone)⟩
  · rw [Request.effective_read hwrite, Request.effective_read hwrite]

/-- A request that has not taken effect does so now. -/
theorem addPoint (h : Linearized values s r points) {request : Request}
    (hrequest : s.requests[k]? = some request) (hopen : ∀ value, request.phase ≠ .returned value)
    (hnot : ¬request.Effective s.server) {out : KvOutput} {next : String → String}
    (hstep : kvObject.step (contents s.server.store) (request.call.input values) out = some next) :
    Tracks kvObject r (points ++ [⟨k, request.call.input values, out, r.clock⟩]) := by
  obtain ⟨record, hrecord, hkey, hinput, hanswer⟩ := h.recorded.exists_call hrequest
  have hunused := h.pointed.unused hrequest hnot
  rw [← hinput] at hstep ⊢
  rw [← hkey] at hunused ⊢
  exact h.tracks.linearize hrecord (hanswer hopen) hunused h.pointed.state hstep

theorem request (h : Linearized values s r points) (clientId : Int) (op : ClerkOp) :
    Linearized values (s.request clientId op)
      (r.note (s.event values (.timely (.request clientId op)))) points := by
  have hfresh : s.requests.length ∉ r.calls.map CallRecord.key := by
    rw [h.recorded.keys]
    simp
  have hnot : ¬Request.Effective s.server ⟨op.call clientId (s.ackSeq clientId), {}, .calling⟩ := by
    refine Request.not_effective ?_
    rw [ClerkOp.call_clientId, ClerkOp.call_ackSeq]
    exact h.tracked.not_hasDone_next clientId
  have hstep : s.netStep (.timely (.request clientId op)) = .ok (s.request clientId op) := rfl
  refine ⟨h.tracked.netStep hstep, h.honest.netStep hstep, h.recorded.invoke _ _,
    h.tracks.invoke hfresh _, h.pointed.state, fun j found hfound heffective => ?_,
    fun point hmem => ?_⟩
  · rcases Table.read_concat hfound with hold | ⟨_, rfl⟩
    · exact h.pointed.pointed j found hold heffective
    · exact absurd heffective hnot
  · obtain ⟨found, hfound, heffective⟩ := h.pointed.known point hmem
    refine ⟨found, ?_, heffective⟩
    exact (List.getElem?_append_left (List.getElem?_eq_some_iff.mp hfound).1).trans hfound

/-- The handler runs, and its reply is on the way. -/
theorem execute (h : Linearized values s r points) (hrun : s.execute k = .ok s') :
    ∃ points', Linearized values s' (r.note .internal) points' := by
  have hstep : s.netStep (.timely (.execute k)) = .ok s' := hrun
  have htracked := h.tracked.netStep hstep
  have hhonest := h.honest.netStep hstep
  obtain ⟨call, reply, hrequest, hcases⟩ := execute_cases hrun
  have hopen : ∀ value, Phase.calling ≠ .returned value := fun _ heq => by cases heq
  have hrecorded {reply' : Reply} {phase' : Phase} :
      Recorded values (s.requests.set k ⟨call, reply', phase'⟩) (r.note .internal) :=
    h.recorded.set hrequest hopen
  obtain ⟨hnext, rfl⟩ | ⟨hdone, rfl⟩ | ⟨hnot, rfl⟩ := hcases
  · have hbefore : ¬Request.Effective s.server ⟨call, reply, .calling⟩ :=
      Request.not_effective hnext.not_hasDone
    have hafter : Request.Effective (s.server.carryOut call)
        ⟨call, reply, .replied ⟨s.server.valueAt call.key, true⟩⟩ :=
      Request.effective_of ((KVServer.hasDone_carryOut hnext _ _).mpr (.inr ⟨rfl, rfl⟩)) rfl
    have hobject := kvObject_step values s.server.store call
    exact ⟨_, htracked, hhonest, hrecorded,
      (h.addPoint hrequest hopen hbefore hobject).internal,
      h.pointed.add hrequest hobject (fun j request => h.effective_carryOut hrequest hnext) hafter
        rfl _ _⟩
  · by_cases hwrite : call.IsWrite
    · have hvalue : (s.server.repeatReply call).value = "" := by
        cases call with
        | get args => exact hwrite.elim
        | put args | append args => rfl
      exact ⟨points, htracked, hhonest, hrecorded, h.tracks.internal, h.pointed.set hrequest
        (Request.effective_congr fun hread => absurd hwrite hread)
        fun _ => congrArg (call.output values) hvalue⟩
    · have hreply : s.server.repeatReply call = ⟨s.server.valueAt call.key, true⟩ := by
        cases call with
        | get args => rfl
        | put args | append args => exact absurd trivial hwrite
      have hbefore : ¬Request.Effective s.server ⟨call, reply, .calling⟩ := by
        rw [Request.effective_read hwrite]
        exact id
      have hafter : Request.Effective s.server
          ⟨call, reply, .replied ⟨s.server.valueAt call.key, true⟩⟩ :=
        Request.effective_of hdone rfl
      have hobject := kvObject_step values s.server.store call
      rw [Call.effect_of_not_isWrite hwrite] at hobject
      rw [hreply] at htracked hhonest ⊢
      exact ⟨_, htracked, hhonest, hrecorded,
        (h.addPoint hrequest hopen hbefore hobject).internal,
        h.pointed.add hrequest hobject (fun _ _ _ _ => Iff.rfl) hafter rfl s.effects r.clock⟩
  · exact ⟨points, htracked, hhonest, hrecorded, h.tracks.internal, h.pointed.set hrequest
      (Request.effective_congr fun _ => ⟨fun hpositive => (by cases hpositive), False.elim⟩)
      fun _ => rfl⟩

/-- The call returns. -/
theorem receive (h : Linearized values s r points) (hrun : s.receive k = .ok s') :
    Linearized values s' (r.note (s.event values (.timely (.receive k)))) points := by
  have hstep : s.netStep (.timely (.receive k)) = .ok s' := hrun
  have htracked := h.tracked.netStep hstep
  have hhonest := h.honest.netStep hstep
  obtain ⟨call, sent, hrequest, ⟨hpositive, hdone, rfl⟩ | ⟨rfl, rfl⟩⟩ := h.honest.receive_cases hrun
  · have hevent : s.event values (.timely (.receive k)) =
        .respond k (call.output values sent.value) := by
      simp [event, hrequest, hpositive]
    have heffective : Request.Effective s.server ⟨call, {}, .replied sent⟩ :=
      Request.effective_of hdone hpositive
    obtain ⟨point, hpoint, hkey, houtput⟩ := h.pointed.pointed k _ hrequest heffective
    rw [hevent]
    exact ⟨htracked, hhonest, h.recorded.respond hrequest _ _, h.tracks.respond hpoint hkey houtput,
      h.pointed.set hrequest (Request.effective_congr fun _ =>
        ⟨fun _ => hpositive, fun _ => trivial⟩) fun _ => rfl⟩
  · have hevent : s.event values (.timely (.receive k)) = .internal := by
      simp [event, hrequest]
    rw [hevent]
    exact ⟨htracked, hhonest, h.recorded.set hrequest (fun _ heq => by cases heq),
      h.tracks.internal, h.pointed.set hrequest (Request.effective_congr fun _ =>
        ⟨False.elim, fun hpositive => by cases hpositive⟩) fun _ => rfl⟩

/-- A lost reply takes a read back and leaves a write alone. -/
theorem lose (h : Linearized values s r points) (hrun : s.lose k = .ok s')
    (hkeeps : values = true → s.KeepsValue (.lose k)) :
    ∃ points', Linearized values s' (r.note .internal) points' := by
  have hstep : s.netStep (.timely (.lose k)) = .ok s' := hrun
  have htracked := h.tracked.netStep hstep
  have hhonest := h.honest.netStep hstep
  obtain rfl | ⟨call, reply, sent, hrequest, rfl⟩ := lose_cases hrun
  · exact ⟨points, htracked, hhonest, ⟨h.recorded.keys, h.recorded.inputs⟩, h.tracks.internal,
      h.pointed⟩
  · have hrecorded {reply' : Reply} {phase' : Phase} :
        Recorded values (s.requests.set k ⟨call, reply', phase'⟩) (r.note .internal) :=
      h.recorded.set hrequest fun _ heq => by cases heq
    by_cases hwrite : call.IsWrite
    · refine ⟨points, htracked, hhonest, hrecorded, h.tracks.internal, h.pointed.set hrequest
        (Request.effective_congr fun hread => absurd hwrite hread) fun _ => ?_⟩
      cases call with
      | get args => exact hwrite.elim
      | put args => rfl
      | append args =>
          cases values with
          | false => rfl
          | true => exact congrArg (Call.output true · _) (hkeeps rfl _ hrequest trivial).symm
    · by_cases hpositive : sent.opResult = true
      · obtain ⟨point, hpoint, hkey, houtput⟩ := h.pointed.pointed k _ hrequest
          ((Request.effective_read hwrite).mpr hpositive)
        obtain ⟨front, back, hsplit⟩ := List.append_of_mem hpoint
        obtain ⟨record, hrecord, hfits⟩ := h.tracks.fits point hpoint
        have hinput : point.input = call.input values :=
          hfits.input.symm.trans (h.recorded.inputs record hrecord _ (by
            rw [hfits.key, hkey]
            exact hrequest)).1
        have hreads {state next : String → String}
            (hobject : kvObject.step state point.input point.output = some next) : next = state :=
          kvObject_reads hwrite (hinput ▸ hobject)
        refine ⟨_, htracked, hhonest, hrecorded, (h.tracks.drop hsplit hreads ?_).internal,
          h.pointed.drop h.tracks.distinct hrequest hwrite hsplit hkey hreads⟩
        intro other hother hsame
        obtain ⟨found, hfound, hown, _, hanswer⟩ := h.recorded.exists_call hrequest
        obtain rfl := h.tracks.unique hfound hother (hown.trans (hkey.symm.trans hsame.symm))
        exact hanswer fun _ heq => by cases heq
      · exact ⟨points, htracked, hhonest, hrecorded, h.tracks.internal, h.pointed.set hrequest
          (Request.effective_congr fun _ => ⟨False.elim, hpositive⟩) fun heffective =>
            absurd ((Request.effective_read hwrite).mp heffective) hpositive⟩

/-- A late request may write the store, and nobody gets its reply. -/
theorem late (h : Linearized values s r points) (hrun : s.late k = .ok s')
    (hkeeps : values = true → s.KeepsOld (.late k)) :
    ∃ points', Linearized values s' (r.note .internal) points' := by
  have hstep : s.netStep (.late k) = .ok s' := hrun
  have htracked := h.tracked.netStep hstep
  have hhonest := h.honest.netStep hstep
  obtain ⟨⟨call, reply, phase⟩, hrequest, ⟨hnext, rfl⟩ | rfl⟩ := late_cases hrun
  · by_cases hwrite : call.IsWrite
    · have hself : (s.server.carryOut call).HasDone call.clientId call.ackSeq :=
        (KVServer.hasDone_carryOut hnext _ _).mpr (.inr ⟨rfl, rfl⟩)
      obtain ⟨hopen, hanswer⟩ : (∀ value, phase ≠ .returned value) ∧ phase.answer = "" := by
        have hbefore := h.honest _ (List.mem_of_getElem? hrequest)
        cases phase with
        | calling => exact ⟨fun _ heq => (by cases heq), rfl⟩
        | replied sent =>
            rcases hbefore.2 with rfl | ⟨_, hdone⟩
            · exact ⟨fun _ heq => (by cases heq), rfl⟩
            · exact absurd hdone hnext.not_hasDone
        | returned value => exact absurd hbefore hnext.not_hasDone
      have hobject := kvObject_step values s.server.store call
      have hbefore : ¬Request.Effective s.server ⟨call, reply, phase⟩ := by
        rw [Request.effective_write hwrite]
        exact hnext.not_hasDone
      have hout : call.output values (contents s.server.store call.key) =
          call.output values phase.answer := by
        rw [hanswer]
        cases call with
        | get args => exact hwrite.elim
        | put args => rfl
        | append args =>
            cases values with
            | false => rfl
            | true => exact congrArg (Call.output true · _) (hkeeps rfl _ hrequest trivial
                ((KVServer.writes_iff _ _).mpr ⟨trivial, hnext⟩))
      have hafter : Request.Effective (s.server.carryOut call) ⟨call, reply, phase⟩ :=
        (Request.effective_write hwrite).mpr hself
      have hpointed := h.pointed.add hrequest hobject
        (fun j request => h.effective_carryOut hrequest hnext) hafter hout
        (System.recorded s.effects k call) r.clock
      rw [Table.set_of_read hrequest] at hpointed
      exact ⟨_, htracked, hhonest, ⟨h.recorded.keys, h.recorded.inputs⟩,
        (h.addPoint hrequest hopen hbefore hobject).internal, hpointed⟩
    · refine ⟨points, htracked, hhonest, ⟨h.recorded.keys, h.recorded.inputs⟩, h.tracks.internal,
        h.pointed.congr (Call.effect_of_not_isWrite hwrite _) (fun j request hother => ?_) _⟩
      by_cases hj : j = k
      · subst hj
        obtain rfl := Option.some.inj (hother.symm.trans hrequest)
        rw [Request.effective_read hwrite, Request.effective_read hwrite]
      · exact h.effective_carryOut hrequest hnext hj hother
  · exact ⟨points, htracked, hhonest, ⟨h.recorded.keys, h.recorded.inputs⟩, h.tracks.internal,
      h.pointed⟩

theorem step (h : Linearized values s r points) {action : NetAction}
    (hkeeps : values = true → s.KeepsOld action) (hstep : s.netStep action = .ok s') :
    ∃ points', Linearized values s' (r.note (s.event values action)) points' := by
  cases action with
  | timely action =>
      cases action with
      | request clientId op =>
          cases hstep
          exact ⟨points, h.request clientId op⟩
      | execute k => exact h.execute hstep
      | receive k => exact ⟨points, h.receive hstep⟩
      | lose k => exact h.lose hstep hkeeps
  | late k => exact h.late hstep hkeeps

end Linearized

theorem linearized_of_runs (values : Bool) {actions : List NetAction}
    {t : System × Record Nat KvInput KvOutput}
    (hrun : RunsIf (recording netStep (event values)) (fun t a => values = true → t.1.KeepsOld a)
      (initial, {}) actions t) : ∃ points, Linearized values t.1 t.2 points := by
  induction hrun with
  | refl =>
      refine ⟨[], tracked_initial, fun _ hmem => (by cases hmem),
        ⟨rfl, fun _ hmem => (by cases hmem)⟩, Tracks.initial kvObject, rfl,
        fun _ _ hread => (by cases hread), fun _ hmem => by cases hmem⟩
  | tail before permitted taken ih =>
      obtain ⟨points, h⟩ := ih
      obtain ⟨next, hnext, rfl⟩ := Outcome.map_eq_ok.mp taken
      exact h.step permitted hnext

/-- Whatever is lost, repeated or comes late, what the clerks have read so far could have come
from one store that carries out the calls one after the other, each between its call and its
return. -/
theorem reads_linearizable {actions : List NetAction} {t : System × Record Nat KvInput KvOutput}
    (hrun : Runs (recording netStep (event false)) (initial, {}) actions t) :
    t.2.LinearizableTo kvObject := by
  obtain ⟨points, h⟩ := linearized_of_runs false
    (RunsIf.imp hrun fun _ _ _ hfalse => by cases hfalse)
  exact h.tracks.linearizableTo

/-- Client 1 appends twice.  The first reply is lost, and the second request is carried out by
a copy of it that comes late.  Client 2 reads what both have written. -/
def appendTwice : List NetAction :=
  [.timely (.request 1 (.append "x" "a")), .timely (.execute 0), .timely (.lose 0),
    .timely (.execute 0), .timely (.receive 0), .timely (.request 1 (.append "x" "b")), .late 1,
    .timely (.execute 1), .timely (.receive 1), .timely (.request 2 (.get "x")),
    .timely (.execute 2), .timely (.receive 2)]

theorem reads_linearizable_append_twice : ∃ t : System × Record Nat KvInput KvOutput,
    Runs (recording netStep (event false)) (initial, {}) appendTwice t ∧
    t.2.history.map Library.Operation.io =
      [(⟨2, "x", "a"⟩, ⟨""⟩), (⟨2, "x", "b"⟩, ⟨""⟩), (⟨0, "x", ""⟩, ⟨"ab"⟩)] ∧
    Linearizable kvObject t.2.history := by
  have hchecked : RunHolds (recording netStep (event false)) appendTwice (initial, {})
      fun t : System × Record Nat KvInput KvOutput =>
        t.2.history.map Library.Operation.io =
          [(⟨2, "x", "a"⟩, ⟨""⟩), (⟨2, "x", "b"⟩, ⟨""⟩), (⟨0, "x", ""⟩, ⟨"ab"⟩)] ∧
        ∀ call ∈ t.2.calls, call.answer ≠ none := by
    decide +kernel
  obtain ⟨t, hrun, hhistory, hdone⟩ := hchecked.exists_runs
  exact ⟨t, hrun, hhistory, (reads_linearizable hrun).history hdone⟩

/-- If no reply of an append that found a value is lost, then the values that the appends have
returned could have come from that store too. -/
theorem appends_linearizable {actions : List NetAction} {t : System × Record Nat KvInput KvOutput}
    (hrun : RunsIf (recording netStep (event true)) (fun t a => t.1.KeepsOld a) (initial, {})
      actions t) : t.2.LinearizableTo kvObject := by
  obtain ⟨points, h⟩ := linearized_of_runs true
    (RunsIf.imp hrun fun _ _ hkeeps _ => hkeeps)
  exact h.tracks.linearizableTo

instance (s : System) (action : NetAction) : Decidable (s.KeepsOld action) :=
  match action with
  | .timely action => inferInstanceAs (Decidable (s.KeepsValue action))
  | .late k => inferInstanceAs (Decidable (∀ request ∈ s.requests[k]?, _))

/-- The first reply finds nothing and is lost; the second one finds a value and gets through. -/
theorem appends_linearizable_first_lost : ∃ t : System × Record Nat KvInput KvOutput,
    (∃ actions, RunsIf (recording netStep (event true)) (fun t a => t.1.KeepsOld a) (initial, {})
      actions t) ∧
    t.2.history.map Library.Operation.io =
      [(⟨3, "x", "a"⟩, ⟨""⟩), (⟨3, "x", "b"⟩, ⟨"a"⟩)] ∧
    Linearizable kvObject t.2.history := by
  have hchecked : RunHolds (guarded (recording netStep (event true)) (fun t a => t.1.KeepsOld a))
      [.timely (.request 1 (.append "x" "a")), .timely (.execute 0), .timely (.lose 0),
        .timely (.execute 0), .timely (.receive 0), .timely (.request 1 (.append "x" "b")),
        .timely (.execute 1), .timely (.receive 1)] (initial, {})
      fun t : System × Record Nat KvInput KvOutput =>
        t.2.history.map Library.Operation.io =
          [(⟨3, "x", "a"⟩, ⟨""⟩), (⟨3, "x", "b"⟩, ⟨"a"⟩)] ∧
        ∀ call ∈ t.2.calls, call.answer ≠ none := by
    decide +kernel
  obtain ⟨t, hrun, hhistory, hdone⟩ := hchecked.exists_runsIf
  exact ⟨t, ⟨_, hrun⟩, hhistory, (appends_linearizable hrun).history hdone⟩

end System

end DistributedLabs.KvSrv
