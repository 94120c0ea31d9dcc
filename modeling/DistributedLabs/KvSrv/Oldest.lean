import DistributedLabs.KvSrv.System
import Mathlib.Data.Finset.Max

/-!
# The oldest call of a clerk

A clerk may have several calls under way, and the server takes the requests of a clerk in the
order of their numbers only.  The numbers of a clerk have no gaps.  So what the server expects
next is the number of a call that has not returned, or the next one the clerk will use, and
the oldest call under way is never refused.

Here a request may also arrive after its call has returned `false`: the handler runs and
nobody waits for the reply.
-/

namespace DistributedLabs.KvSrv

open DistributedLabs.Library

/-! ## The answer of the server -/

namespace KVServer

/-- A request is confirmed if it is the next one of its clerk or a repeated one. -/
theorem serve_opResult_iff (kv : KVServer) (call : Call) :
    (kv.serve call).2.opResult = true ↔
      kv.Expects call.clientId call.ackSeq ∨ kv.HasDone call.clientId call.ackSeq := by
  by_cases hnext : kv.Expects call.clientId call.ackSeq
  · rw [serve_of_expects hnext]
    exact ⟨fun _ => .inl hnext, fun _ => rfl⟩
  · by_cases hdone : kv.HasDone call.clientId call.ackSeq
    · rw [serve_of_hasDone hdone]
      cases call <;> exact ⟨fun _ => .inr hdone, fun _ => rfl⟩
    · rw [serve_of_refused hnext hdone]
      constructor
      · intro hfalse
        cases hfalse
      · rintro (hyes | hyes)
        · exact absurd hyes hnext
        · exact absurd hyes hdone

/-- What has been carried out stays so. -/
theorem HasDone.serve {kv : KVServer} {clientId ackSeq : Int} (h : kv.HasDone clientId ackSeq)
    (call : Call) : (kv.serve call).1.HasDone clientId ackSeq := by
  by_cases hnext : kv.Expects call.clientId call.ackSeq
  · rw [serve_of_expects hnext]
    exact (hasDone_carryOut hnext _ _).mpr (.inl h)
  · rw [serve_of_not_expects hnext]
    exact h

/-- What is confirmed has been carried out. -/
theorem hasDone_of_confirmed {kv : KVServer} {call : Call}
    (h : (kv.serve call).2.opResult = true) :
    (kv.serve call).1.HasDone call.clientId call.ackSeq := by
  rcases (kv.serve_opResult_iff call).mp h with hnext | hdone
  · rw [serve_of_expects hnext]
    exact (hasDone_carryOut hnext _ _).mpr (.inr ⟨rfl, rfl⟩)
  · exact hdone.serve call

theorem nextSeq_serve_nonneg {kv : KVServer} (h : ∀ clientId, 0 ≤ kv.nextSeq clientId)
    (call : Call) (clientId : Int) : 0 ≤ (kv.serve call).1.nextSeq clientId := by
  by_cases hnext : kv.Expects call.clientId call.ackSeq
  · rw [serve_of_expects hnext, nextSeq_carryOut]
    split
    · exact Int.le_add_one hnext.1
    · exact h clientId
  · rw [serve_of_not_expects hnext]
    exact h clientId

end KVServer

/-! ## Late requests -/

inductive NetAction where
  | timely (action : Action)
  /-- A request arrives that its clerk has given up. -/
  | late (k : Nat)
  deriving DecidableEq, Repr

namespace Request

/-- The loop has not ended. -/
def Unfinished (request : Request) : Prop :=
  match request.phase with
  | .calling | .replied _ => True
  | .returned _ => False

instance : DecidablePred Unfinished := fun request =>
  match request with
  | ⟨_, _, .calling⟩ | ⟨_, _, .replied _⟩ => instDecidableTrue
  | ⟨_, _, .returned _⟩ => instDecidableFalse

/-- A positive answer is in the reply variable or on the way, or it has ended the loop. -/
def Confirmed (request : Request) : Prop :=
  request.reply.opResult = true ∨
    match request.phase with
    | .calling => False
    | .replied sent => sent.opResult = true
    | .returned _ => True

theorem confirmed_of_finished {request : Request} (h : ¬request.Unfinished) :
    request.Confirmed := by
  obtain ⟨call, reply, phase⟩ := request
  cases phase with
  | calling | replied sent => exact absurd trivial h
  | returned value => exact .inr trivial

end Request

namespace System

def late (s : System) (k : Nat) : Outcome System :=
  match s.requests[k]? with
  | some request =>
      .ok { s with
        server := (s.server.serve request.call).1
        effects := if s.server.Writes request.call then s.effects ++ [(k, request.call)]
          else s.effects }
  | none => .blocked

def netStep (s : System) : NetAction → Outcome System
  | .timely action => s.step action
  | .late k => s.late k

/-- Runs without late requests are runs. -/
theorem reaches_netStep {s s' : System} (h : Reaches step s s') : Reaches netStep s s' := by
  induction h with
  | refl => exact Relation.ReflTransGen.refl
  | tail _ last ih =>
      obtain ⟨action, taken⟩ := last
      exact ih.tail ⟨.timely action, taken⟩

/-! ## Numbers without gaps -/

/-- The calls of a clerk have exactly the numbers below its counter.  The server confirms what
it has carried out only. -/
structure Gapless (s : System) : Prop where
  counter : ∀ clientId, 0 ≤ s.ackSeq clientId
  numbers : ∀ clientId number, (∃ call ∈ s.calls, call.clientId = clientId ∧
    call.ackSeq = number) ↔ 0 ≤ number ∧ number < s.ackSeq clientId
  expected : ∀ clientId, 0 ≤ s.server.nextSeq clientId
  confirmed : ∀ request ∈ s.requests, request.Confirmed →
    s.server.HasDone request.call.clientId request.call.ackSeq

theorem gapless_initial : initial.Gapless where
  counter _ := Int.le_refl 0
  numbers clientId number := by
    constructor
    · rintro ⟨call, hmem, _⟩
      cases hmem
    · rintro ⟨hlow, hhigh⟩
      exact absurd hlow (Int.not_le.mpr hhigh)
  expected _ := Int.le_refl 0
  confirmed _ hmem := by cases hmem

namespace Gapless

variable {s s' : System}

theorem request (h : s.Gapless) (clientId : Int) (op : ClerkOp) :
    (s.request clientId op).Gapless where
  counter other := by
    rw [ackSeq_request]
    split
    · exact Int.le_add_one (h.counter clientId)
    · exact h.counter other
  numbers other number := by
    rw [calls_request, ackSeq_request]
    simp only [List.mem_append, List.mem_singleton, or_and_right, exists_or, exists_eq_left,
      ClerkOp.call_clientId, ClerkOp.call_ackSeq, h.numbers]
    have hcounter := h.counter clientId
    split
    · next hsame =>
        subst hsame
        simp only [true_and]
        omega
    · next hother => simp only [Ne.symm hother, false_and, or_false]
  expected := h.expected
  confirmed := by
    intro request hmem hconfirmed
    rcases List.mem_append.mp hmem with hold | hnew
    · exact h.confirmed request hold hconfirmed
    · obtain rfl := List.mem_singleton.mp hnew
      rcases hconfirmed with hfalse | hfalse
      · cases hfalse
      · cases hfalse

/-- The server handles a request. -/
theorem serve (h : s.Gapless) (call : Call) (effects : List (Nat × Call)) :
    Gapless { s with server := (s.server.serve call).1, effects := effects } where
  counter := h.counter
  numbers := h.numbers
  expected := KVServer.nextSeq_serve_nonneg h.expected call
  confirmed request hmem hconfirmed := (h.confirmed request hmem hconfirmed).serve call

/-- The loop of a request goes on. -/
theorem set (h : s.Gapless) {k : Nat} {call : Call} {reply reply' : Reply} {phase phase' : Phase}
    (hrequest : s.requests[k]? = some ⟨call, reply, phase⟩)
    (hdone : Request.Confirmed ⟨call, reply', phase'⟩ →
      s.server.HasDone call.clientId call.ackSeq) :
    Gapless { s with requests := s.requests.set k ⟨call, reply', phase'⟩ } where
  counter := h.counter
  numbers := by
    rw [calls, calls_set hrequest]
    exact h.numbers
  expected := h.expected
  confirmed := by
    intro found hmem hconfirmed
    rcases List.mem_or_eq_of_mem_set hmem with hold | rfl
    · exact h.confirmed found hold hconfirmed
    · exact hdone hconfirmed

theorem step {action : Action} (h : s.Gapless) (hstep : s.step action = .ok s') : s'.Gapless := by
  cases action with
  | request clientId op =>
      cases hstep
      exact h.request clientId op
  | execute k =>
      simp only [System.step, execute] at hstep
      split at hstep
      · next call reply hrequest =>
          cases hstep
          refine (h.serve call _).set hrequest ?_
          rintro (hreply | hsent)
          · exact (h.confirmed _ (List.mem_of_getElem? hrequest) (.inl hreply)).serve call
          · exact KVServer.hasDone_of_confirmed hsent
      · cases hstep
  | receive k =>
      obtain ⟨call, reply, sent, hrequest, rfl⟩ := receive_cases hstep
      have hbefore (hpositive : (reply.decode sent).opResult = true) :
          s.server.HasDone call.clientId call.ackSeq :=
        h.confirmed _ (List.mem_of_getElem? hrequest) ((Bool.or_eq_true _ _).mp hpositive)
      refine h.set hrequest ?_
      rintro (hreply | hphase)
      · exact hbefore hreply
      · by_cases hpositive : (reply.decode sent).opResult = true
        · exact hbefore hpositive
        · rw [if_neg hpositive] at hphase
          cases hphase
  | lose k =>
      obtain rfl | ⟨call, reply, sent, hrequest, rfl⟩ := lose_cases hstep
      · exact h
      · refine h.set hrequest ?_
        rintro (hreply | hfalse)
        · exact h.confirmed _ (List.mem_of_getElem? hrequest) (.inl hreply)
        · cases hfalse

theorem netStep {action : NetAction} (h : s.Gapless) (hstep : s.netStep action = .ok s') :
    s'.Gapless := by
  cases action with
  | timely action => exact h.step hstep
  | late k =>
      simp only [System.netStep, late] at hstep
      split at hstep
      · cases hstep
        exact h.serve _ _
      · cases hstep

end Gapless

theorem gapless_of_reaches {s : System} (h : Reaches netStep initial s) : s.Gapless :=
  h.invariant gapless_initial fun hbefore hstep => hbefore.netStep hstep

/-! ## The oldest call -/

/-- The call of the clerk that has not returned and has the smallest number. -/
structure Oldest (s : System) (clientId : Int) (request : Request) : Prop where
  mem : request ∈ s.requests
  own : request.call.clientId = clientId
  unfinished : request.Unfinished
  least : ∀ other ∈ s.requests, other.call.clientId = clientId → other.Unfinished →
    request.call.ackSeq ≤ other.call.ackSeq

theorem exists_oldest {s : System} {clientId : Int} {waiting : Request}
    (hmem : waiting ∈ s.requests) (hclient : waiting.call.clientId = clientId)
    (hunfinished : waiting.Unfinished) : ∃ request, s.Oldest clientId request := by
  obtain ⟨request, hrequest, hleast⟩ := Finset.exists_min_image
    (s.requests.toFinset.filter fun other => other.call.clientId = clientId ∧ other.Unfinished)
    (fun other => other.call.ackSeq) ⟨waiting, by simp [hmem, hclient, hunfinished]⟩
  simp only [Finset.mem_filter, List.mem_toFinset] at hrequest hleast
  obtain ⟨hin, hown, hopen⟩ := hrequest
  exact ⟨request, hin, hown, hopen, fun other hother hsame hwaiting =>
    hleast other ⟨hother, hsame, hwaiting⟩⟩

/-- A call whose number is not beyond what the server expects is confirmed. -/
theorem Gapless.confirms {s : System} (h : s.Gapless) {request : Request}
    (hmem : request ∈ s.requests)
    (hle : request.call.ackSeq ≤ s.server.nextSeq request.call.clientId) :
    (s.server.serve request.call).2.opResult = true := by
  obtain ⟨hnonneg, _⟩ := (h.numbers request.call.clientId request.call.ackSeq).mp
    ⟨request.call, List.mem_map_of_mem hmem, rfl, rfl⟩
  rw [KVServer.serve_opResult_iff]
  rcases Int.lt_or_eq_of_le hle with hlt | heq
  · exact .inr ⟨hnonneg, hlt⟩
  · exact .inl ⟨hnonneg, heq⟩

/-- A number that the clerk has used and the server still expects belongs to a call that has
not returned. -/
theorem Gapless.exists_expected {s : System} (h : s.Gapless) {clientId : Int}
    (hused : s.server.nextSeq clientId < s.ackSeq clientId) :
    ∃ other ∈ s.requests, other.call.clientId = clientId ∧
      other.call.ackSeq = s.server.nextSeq clientId ∧ other.Unfinished := by
  obtain ⟨call, hcall, hclient, hnumber⟩ :=
    (h.numbers clientId (s.server.nextSeq clientId)).mpr ⟨h.expected clientId, hused⟩
  obtain ⟨other, hother, rfl⟩ := List.mem_map.mp hcall
  refine ⟨other, hother, hclient, hnumber, ?_⟩
  by_contra hfinished
  have hdone := h.confirmed other hother (Request.confirmed_of_finished hfinished)
  rw [hclient, hnumber] at hdone
  exact Int.lt_irrefl _ hdone.2

/-- Whatever is lost, late or out of order: a clerk with unfinished calls has one with the
smallest number, and that call would be confirmed if its request arrived now. -/
theorem oldest_call_confirmed {s : System} (hreach : Reaches netStep initial s)
    {waiting : Request} (hmem : waiting ∈ s.requests) (hunfinished : waiting.Unfinished) :
    (∃ request, s.Oldest waiting.call.clientId request) ∧
    ∀ request, s.Oldest waiting.call.clientId request →
      (s.server.serve request.call).2.opResult = true := by
  have hgapless := gapless_of_reaches hreach
  refine ⟨exists_oldest hmem rfl hunfinished, fun request holdest => ?_⟩
  apply hgapless.confirms holdest.mem
  by_contra hbeyond
  have hgt := Int.not_le.mp hbeyond
  obtain ⟨_, hissued⟩ := (hgapless.numbers request.call.clientId request.call.ackSeq).mp
    ⟨request.call, List.mem_map_of_mem holdest.mem, rfl, rfl⟩
  obtain ⟨other, hother, hclient, hnumber, hopen⟩ :=
    hgapless.exists_expected (Int.lt_trans hgt hissued)
  have hle := holdest.least other hother (hclient.trans holdest.own) hopen
  rw [hnumber] at hle
  exact hbeyond hle

/-- The first of three calls has been carried out, and its reply was lost.  The second has been
carried out late and has returned, and the third was refused. -/
theorem oldest_call_confirmed_reply_lost : ∃ s : System, Reaches netStep initial s ∧
    s.Oldest 7 ⟨.append ⟨"k", "a", 7, 0⟩, {}, .calling⟩ ∧ s.server.nextSeq 7 = 2 ∧
    (s.server.serve (.append ⟨"k", "a", 7, 0⟩)).2.opResult = true := by
  have hchecked : RunHolds netStep
      [.timely (.request 7 (.append "k" "a")), .timely (.request 7 (.get "k")),
        .timely (.request 7 (.put "k" "b")), .timely (.execute 2), .timely (.receive 2),
        .timely (.execute 0), .timely (.lose 0), .timely (.lose 1), .late 1,
        .timely (.execute 1), .timely (.receive 1)] initial
      (fun s => ⟨.append ⟨"k", "a", 7, 0⟩, {}, .calling⟩ ∈ s.requests ∧ s.server.nextSeq 7 = 2 ∧
        ∀ other ∈ s.requests, other.call.clientId = 7 → other.Unfinished →
          0 ≤ other.call.ackSeq) := by
    decide +kernel
  obtain ⟨s, hreach, hmem, hnext, hleast⟩ := hchecked.exists_reaches
  have holdest : s.Oldest 7 ⟨.append ⟨"k", "a", 7, 0⟩, {}, .calling⟩ := ⟨hmem, rfl, trivial, hleast⟩
  obtain ⟨_, hconfirmed⟩ := oldest_call_confirmed hreach hmem trivial
  exact ⟨s, hreach, holdest, hnext, hconfirmed _ holdest⟩

end System

end DistributedLabs.KvSrv
