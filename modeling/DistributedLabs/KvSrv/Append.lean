import DistributedLabs.KvSrv.System

/-!
# What an append returns

An append that returns has written the store once.  Its answer is the value before that
write, unless the reply that carried this value was lost: the repeated request is confirmed
without a value.
-/

namespace DistributedLabs.KvSrv

open DistributedLabs.Library

@[simp]
theorem Reply.decode_zero (sent : Reply) : Reply.decode {} sent = sent := by
  cases sent with
  | mk value opResult =>
      simp only [decode, Bool.false_or, mk.injEq, and_true]
      split
      · next hempty => exact hempty.symm
      · rfl

@[simp]
theorem KVServer.repeatReply_opResult (kv : KVServer) (call : Call) :
    (kv.repeatReply call).opResult = true := by
  cases call <;> rfl

/-! ## Replies -/

/-- The reply variable is zero until the loop ends.  A reply on the way is positive if the
request has been carried out, and zero otherwise.  The loop ends when the request has been
carried out. -/
def Request.Sound (kv : KVServer) (request : Request) : Prop :=
  match request.phase with
  | .calling => request.reply = {}
  | .replied sent =>
      request.reply = {} ∧
        (kv.HasDone request.call.clientId request.call.ackSeq → sent.opResult = true) ∧
        (¬kv.HasDone request.call.clientId request.call.ackSeq → sent = {})
  | .returned _ => kv.HasDone request.call.clientId request.call.ackSeq

theorem Request.Sound.of_iff {kv kv' : KVServer} {request : Request} (h : request.Sound kv)
    (hiff : kv'.HasDone request.call.clientId request.call.ackSeq ↔
      kv.HasDone request.call.clientId request.call.ackSeq) : request.Sound kv' := by
  unfold Sound at h ⊢
  rw [hiff]
  exact h

namespace System

def AllSound (s : System) : Prop :=
  ∀ (k : Nat) (request : Request), s.requests[k]? = some request → request.Sound s.server

/-- The loop ends with the reply that was sent, or the clerk calls again. -/
theorem AllSound.receive_cases {s s' : System} {k : Nat} (h : s.AllSound)
    (hstep : s.receive k = .ok s') :
    ∃ call reply sent, s.requests[k]? = some ⟨call, reply, .replied sent⟩ ∧
      (s.server.HasDone call.clientId call.ackSeq ∧
          s' = { s with requests := s.requests.set k ⟨call, sent, .returned sent.value⟩ } ∨
        ¬s.server.HasDone call.clientId call.ackSeq ∧
          s' = { s with requests := s.requests.set k ⟨call, {}, .calling⟩ }) := by
  obtain ⟨call, reply, sent, hrequest, rfl⟩ := System.receive_cases hstep
  obtain ⟨hreply, hpositive, hzero⟩ := h k _ hrequest
  subst hreply
  refine ⟨call, {}, sent, hrequest, ?_⟩
  by_cases hdone : s.server.HasDone call.clientId call.ackSeq
  · refine .inl ⟨hdone, ?_⟩
    rw [Reply.decode_zero, if_pos (hpositive hdone)]
  · obtain rfl := hzero hdone
    exact .inr ⟨hdone, rfl⟩

theorem AllSound.set {s : System} (h : s.AllSound) {k : Nat} {request : Request}
    (hrequest : request.Sound s.server) :
    AllSound { s with requests := s.requests.set k request } := by
  intro j found hfound
  rcases Table.read_set hfound with ⟨_, rfl⟩ | ⟨_, hold⟩
  · exact hrequest
  · exact h j found hold

theorem AllSound.step {s s' : System} {action : Action} (h : s.AllSound) (htracked : s.Tracked)
    (hstep : s.step action = .ok s') : s'.AllSound := by
  cases action with
  | request clientId op =>
      cases hstep
      intro k request hrequest
      rcases Table.read_concat hrequest with hold | ⟨_, rfl⟩
      · exact h k request hold
      · exact rfl
  | execute k =>
      obtain ⟨call, reply, hrequest, hcases⟩ := execute_cases hstep
      have hreply : reply = {} := h k _ hrequest
      obtain ⟨hnext, rfl⟩ | ⟨hdone, rfl⟩ | ⟨hnot, rfl⟩ := hcases
      · have hself : (s.server.carryOut call).HasDone call.clientId call.ackSeq :=
          (KVServer.hasDone_carryOut hnext _ _).mpr (.inr ⟨rfl, rfl⟩)
        intro j found hfound
        rcases Table.read_set hfound with ⟨_, rfl⟩ | ⟨hne, hold⟩
        · exact ⟨hreply, fun _ => rfl, fun hnot => absurd hself hnot⟩
        · exact (h j found hold).of_iff
            ⟨htracked.hasDone_of_ne (call_of_request hrequest) (call_of_request hold) hne hnext,
              fun hdone => (KVServer.hasDone_carryOut hnext _ _).mpr (.inl hdone)⟩
      · exact h.set ⟨hreply, fun _ => KVServer.repeatReply_opResult _ _,
          fun hnot => absurd hdone hnot⟩
      · exact h.set ⟨hreply, fun hdone => absurd hdone hnot, fun _ => rfl⟩
  | receive k =>
      obtain ⟨call, reply, sent, _, ⟨hdone, rfl⟩ | ⟨_, rfl⟩⟩ := h.receive_cases hstep
      · exact h.set hdone
      · exact h.set rfl
  | lose k =>
      obtain rfl | ⟨call, reply, sent, hrequest, rfl⟩ := lose_cases hstep
      · exact h
      · exact h.set (h k _ hrequest).1

/-! ## Answers -/

end System

/-- What the clerk returns if no reply is lost from here on: a request that is made again
after it has been carried out is answered with no value. -/
def Phase.answer : Phase → String
  | .calling => ""
  | .replied sent => sent.value
  | .returned value => value

def Call.IsAppend : Call → Prop
  | .get _ | .put _ => False
  | .append _ => True

theorem Call.IsAppend.isWrite {call : Call} (h : call.IsAppend) : call.IsWrite := by
  cases call with
  | get args | put args => cases h
  | append args => trivial

instance decidableIsAppend (call : Call) : Decidable call.IsAppend :=
  match call with
  | .get _ | .put _ => instDecidableFalse
  | .append _ => instDecidableTrue

theorem KVServer.repeatReply_value {call : Call} (h : call.IsAppend) (kv : KVServer) :
    (kv.repeatReply call).value = "" := by
  cases call with
  | get args | put args => cases h
  | append args => rfl

namespace System

/-- The value is the one the key had just before the request wrote the store. -/
def OldValue (s : System) (k : Nat) (call : Call) (value : String) : Prop :=
  ∃ past rest, s.effects = past ++ (k, call) :: rest ∧
    value = ((storeAfter (past.map Prod.snd)).lookup call.key).getD ""

/-- Every append that has been carried out will be answered with the value before. -/
def Answers (s : System) : Prop :=
  ∀ (k : Nat) (request : Request), s.requests[k]? = some request → request.call.IsAppend →
    s.server.HasDone request.call.clientId request.call.ackSeq →
    s.OldValue k request.call request.phase.answer

/-- The reply of an append that found a value is not lost. -/
def KeepsValue (s : System) : Action → Prop
  | .lose k => ∀ request ∈ s.requests[k]?, request.call.IsAppend → request.phase.answer = ""
  | .request _ _ | .execute _ | .receive _ => True

theorem OldValue.later {s s' : System} {k : Nat} {call : Call} {value : String}
    (h : s.OldValue k call value) (hlater : s.effects <+: s'.effects) :
    s'.OldValue k call value := by
  obtain ⟨past, rest, heffects, hvalue⟩ := h
  obtain ⟨more, hmore⟩ := hlater
  refine ⟨past, rest ++ more, ?_, hvalue⟩
  rw [← hmore, heffects, List.append_assoc, List.cons_append]

theorem Answers.set {s : System} (h : s.Answers) {k : Nat} {call : Call} {reply reply' : Reply}
    {phase phase' : Phase} (hrequest : s.requests[k]? = some ⟨call, reply, phase⟩)
    (hsame : call.IsAppend → s.server.HasDone call.clientId call.ackSeq →
      phase'.answer = phase.answer) :
    Answers { s with requests := s.requests.set k ⟨call, reply', phase'⟩ } := by
  intro j found hfound happend hdone
  rcases Table.read_set hfound with ⟨rfl, rfl⟩ | ⟨_, hold⟩
  · have hanswer : s.OldValue j call phase.answer := h j _ hrequest happend hdone
    rw [← hsame happend hdone] at hanswer
    exact hanswer
  · exact h j found hold happend hdone

theorem Answers.request {s : System} (h : s.Answers) (htracked : s.Tracked) (clientId : Int)
    (op : ClerkOp) : (s.request clientId op).Answers := by
  intro k request hrequest happend hdone
  rcases Table.read_concat hrequest with hold | ⟨_, rfl⟩
  · exact h k request hold happend hdone
  · rw [ClerkOp.call_clientId, ClerkOp.call_ackSeq] at hdone
    exact absurd hdone (htracked.not_hasDone_next clientId)

theorem Answers.carryOut {s : System} (h : s.Answers) (htracked : s.Tracked) {k : Nat}
    {call : Call} {reply : Reply} (hrequest : s.requests[k]? = some ⟨call, reply, .calling⟩)
    (hnext : s.server.Expects call.clientId call.ackSeq) :
    Answers { s with
      server := s.server.carryOut call
      requests := s.requests.set k ⟨call, reply, .replied ⟨s.server.valueAt call.key, true⟩⟩
      effects := recorded s.effects k call } := by
  intro j found hfound happend hdone
  rcases Table.read_set hfound with ⟨rfl, rfl⟩ | ⟨hne, hold⟩
  · refine ⟨s.effects, [], if_pos happend.isWrite, ?_⟩
    rw [← htracked.store]
    rfl
  · have hbefore := htracked.hasDone_of_ne (call_of_request hrequest) (call_of_request hold) hne
      hnext hdone
    exact (h j found hold happend hbefore).later recorded_extends

theorem Answers.step {s s' : System} {action : Action} (h : s.Answers) (htracked : s.Tracked)
    (hsound : s.AllSound) (hkeeps : s.KeepsValue action) (hstep : s.step action = .ok s') :
    s'.Answers := by
  cases action with
  | request clientId op =>
      cases hstep
      exact h.request htracked clientId op
  | execute k =>
      obtain ⟨call, reply, hrequest, ⟨hnext, rfl⟩ | ⟨_, rfl⟩ | ⟨hnot, rfl⟩⟩ := execute_cases hstep
      · exact h.carryOut htracked hrequest hnext
      · exact h.set hrequest fun happend _ => KVServer.repeatReply_value happend _
      · exact h.set hrequest fun _ _ => rfl
  | receive k =>
      obtain ⟨call, reply, sent, hrequest, ⟨_, rfl⟩ | ⟨hnot, rfl⟩⟩ := hsound.receive_cases hstep
      · exact h.set hrequest fun _ _ => rfl
      · exact h.set hrequest fun _ hdone => absurd hdone hnot
  | lose k =>
      obtain rfl | ⟨call, reply, sent, hrequest, rfl⟩ := lose_cases hstep
      · exact h
      · exact h.set hrequest fun happend _ => (hkeeps _ hrequest happend).symm

/-! ## Runs -/

theorem tracked_of_reaches {s : System} (h : Reaches step initial s) : s.Tracked ∧ s.AllSound := by
  refine h.invariant (P := fun s => s.Tracked ∧ s.AllSound)
    ⟨tracked_initial, fun k request hrequest => (by cases hrequest)⟩ ?_
  intro t action t' hbefore hstep
  obtain ⟨htracked, hsound⟩ := hbefore
  exact ⟨htracked.step hstep, hsound.step htracked hstep⟩

theorem answers_of_runsIf {actions : List Action} {s : System}
    (h : RunsIf step KeepsValue initial actions s) : s.Answers := by
  induction h with
  | refl =>
      intro k request hrequest
      cases hrequest
  | tail before permitted taken ih =>
      obtain ⟨htracked, hsound⟩ := tracked_of_reaches before.reaches
      exact ih.step htracked hsound permitted taken

/-- A write that returns is among the recorded writes once. -/
theorem once_of_returned {s : System} (h : Reaches step initial s) {k : Nat} {call : Call}
    {reply : Reply} {value : String}
    (hreturned : s.requests[k]? = some ⟨call, reply, .returned value⟩)
    (hwrite : call.IsWrite) : (s.effects.map Prod.fst).count k = 1 := by
  obtain ⟨htracked, hsound⟩ := tracked_of_reaches h
  have hdone : s.server.HasDone call.clientId call.ackSeq := hsound k _ hreturned
  have hmem := htracked.written k call (call_of_request hreturned) hwrite hdone
  exact List.count_eq_one_of_mem htracked.once (List.mem_map.mpr ⟨(k, call), hmem, rfl⟩)

/-- As long as the reply of an append that found a value is not lost, an append that
returns has written the store exactly once, and its answer is the value before that write.
The store holds the recorded writes. -/
theorem append_returns_old_value {actions : List Action} {s : System}
    (h : RunsIf step KeepsValue initial actions s) :
    s.server.store = storeAfter (s.effects.map Prod.snd) ∧
    ∀ (k : Nat) (args : PutAppendArgs) (reply : Reply) (value : String),
      s.requests[k]? = some ⟨.append args, reply, .returned value⟩ →
      (s.effects.map Prod.fst).count k = 1 ∧
      ∃ past rest, s.effects = past ++ (k, .append args) :: rest ∧
        value = ((storeAfter (past.map Prod.snd)).lookup args.key).getD "" := by
  obtain ⟨htracked, hsound⟩ := tracked_of_reaches h.reaches
  refine ⟨htracked.store, fun k args reply value hreturned => ?_⟩
  refine ⟨once_of_returned h.reaches hreturned trivial, ?_⟩
  exact answers_of_runsIf h k _ hreturned trivial (hsound k _ hreturned)

instance decidableKeepsValue (s : System) (action : Action) : Decidable (s.KeepsValue action) :=
  match action with
  | .lose k =>
      inferInstanceAs (Decidable (∀ request ∈ s.requests[k]?, request.call.IsAppend →
        request.phase.answer = ""))
  | .request _ _ | .execute _ | .receive _ => instDecidableTrue

/-- The reply of the first append and the first request of the second are lost. -/
theorem append_returns_old_value_after_losses :
    ∃ s : System, s.server.store = storeAfter (s.effects.map Prod.snd) ∧
      s.requests[1]? = some ⟨.append ⟨"k", "a", 8, 0⟩, ⟨"b", true⟩, .returned "b"⟩ ∧
      (s.effects.map Prod.fst).count 1 = 1 ∧
      ∃ past rest, s.effects = past ++ (1, .append ⟨"k", "a", 8, 0⟩) :: rest ∧
        "b" = ((storeAfter (past.map Prod.snd)).lookup "k").getD "" := by
  have hchecked : RunHolds (guarded step KeepsValue)
      [.request 7 (.append "k" "b"), .execute 0, .lose 0, .execute 0, .receive 0,
        .request 8 (.append "k" "a"), .lose 1, .execute 1, .receive 1] initial
      (fun s => s.requests[1]? = some ⟨.append ⟨"k", "a", 8, 0⟩, ⟨"b", true⟩, .returned "b"⟩) := by
    decide +kernel
  obtain ⟨s, hrun, hreturned⟩ := hchecked.exists_runsIf
  obtain ⟨hstore, hanswers⟩ := append_returns_old_value hrun
  exact ⟨s, hstore, hreturned, hanswers 1 _ _ _ hreturned⟩

/-- The second append finds the value `b`, its reply is lost, and the repeated request is
confirmed with no value. -/
theorem append_forgets_old_value :
    ∃ s, Reaches step initial s ∧
      s.requests[1]? = some ⟨.append ⟨"k", "a", 7, 1⟩, ⟨"", true⟩, .returned ""⟩ ∧
      s.effects = [(0, .append ⟨"k", "b", 7, 0⟩), (1, .append ⟨"k", "a", 7, 1⟩)] ∧
      (storeAfter [.append ⟨"k", "b", 7, 0⟩]).lookup "k" = some "b" := by
  have hchecked : RunHolds step
      [.request 7 (.append "k" "b"), .execute 0, .receive 0, .request 7 (.append "k" "a"),
        .execute 1, .lose 1, .execute 1, .receive 1] initial
      (fun s =>
        s.requests[1]? = some ⟨.append ⟨"k", "a", 7, 1⟩, ⟨"", true⟩, .returned ""⟩ ∧
        s.effects = [(0, .append ⟨"k", "b", 7, 0⟩), (1, .append ⟨"k", "a", 7, 1⟩)] ∧
        (storeAfter [.append ⟨"k", "b", 7, 0⟩]).lookup "k" = some "b") := by
    decide +kernel
  exact hchecked.exists_reaches

end System

end DistributedLabs.KvSrv
