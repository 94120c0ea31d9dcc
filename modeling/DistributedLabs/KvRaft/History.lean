import DistributedLabs.KvRaft.Effects
import DistributedLabs.KvRaft.Turns
import DistributedLabs.Raft.Contract

/-!
# Requests and what is carried out for them

A clerk sends one request after the other, so a client and a number name one request.
Whatever a server carries out was sent as a request, and the Raft layer delivered it
for its index.
-/

namespace DistributedLabs.KvRaft

open DistributedLabs.Library

variable {n : Nat}

namespace System

variable {codec : Codec} {s s' : System n} {action : SystemAction n}

/-! ## Clerks -/

theorem HandlerTurn.args_eq {call call' : Call n} {kv : KVServer} {raft : Cluster n Op}
    (turn : HandlerTurn s call call' kv raft) : call'.args = call.args := by
  cases turn <;> rfl

theorem HandlerTurn.tables_eq {call call' : Call n} {kv : KVServer} {raft : Cluster n Op}
    (turn : HandlerTurn s call call' kv raft) : kv.tables = (s.servers call.server).tables := by
  cases turn with
  | await alive started run =>
      rw [← KVServer.getNotifyChannel_tables (s.servers call.server), run]
  | receive alive waiting run =>
      have htables := KVServer.receive_tables run
      exact htables
  | _ => rfl

/-- A handler uses the Raft layer only to start its command. -/
theorem HandlerTurn.raft_cases {call call' : Call n} {kv : KVServer} {raft : Cluster n Op}
    (turn : HandlerTurn s call call' kv raft) : raft = s.raft ∨
      s.raft.step (.start call.server (some call.args.opLog)) = .ok raft := by
  cases turn with
  | refused alive run => exact Or.inr (Cluster.step_start run)
  | started alive run => exact Or.inr (Cluster.step_start run)
  | _ => exact Or.inl rfl

/-- A handler leaves the requests as they are. -/
theorem requests_set {k : Nat} {call call' : Call n} (found : s.calls[k]? = some call)
    (hargs : call'.args = call.args) : (s.calls.set k call').map Call.args = s.requests := by
  obtain ⟨hlt, rfl⟩ := List.getElem?_eq_some_iff.mp found
  have hlt' : k < (s.calls.map Call.args).length := by simpa using hlt
  have hread : s.calls[k].args = (s.calls.map Call.args)[k] := by simp
  rw [List.map_set, hargs, hread, List.set_getElem_self, requests]

/-- The clerks send one request after the other. -/
structure Serial (s : System n) : Prop where
  pending : ∀ clientId args k, (s.clerks clientId).pending = some (args, k) →
    args.clientId = clientId ∧ args.reqSeq = (s.clerks clientId).reqSeq ∧
      s.requests[k]? = some args
  sent : ∀ args ∈ s.requests, args.reqSeq < (s.clerks args.clientId).reqSeq ∨
    ∃ k, (s.clerks args.clientId).pending = some (args, k)

namespace Serial

/-- No later request of a client has been sent than the one it is waiting for. -/
theorem eq_pending (h : Serial s) {clientId : Int} {args args' : ClientRequestArgs} {k : Nat}
    (hpending : (s.clerks clientId).pending = some (args, k)) (hmem : args' ∈ s.requests)
    (hclient : args'.clientId = args.clientId) (hle : args.reqSeq ≤ args'.reqSeq) :
    args' = args := by
  obtain ⟨howner, hseq, _⟩ := h.pending clientId args k hpending
  have hsent := h.sent args' hmem
  rw [hclient, howner] at hsent
  rcases hsent with hlt | ⟨k', hpending'⟩
  · omega
  · rw [hpending] at hpending'
    exact (Prod.mk.inj (Option.some.inj hpending')).1.symm

theorem serves (h : Serial s) {clientId : Int} {args : ClientRequestArgs}
    (hserves : s.Serves clientId args) :
    args.clientId = clientId ∧ args.reqSeq = (s.clerks clientId).reqSeq := by
  rcases hserves with ⟨_, hclient, hseq⟩ | ⟨k, hpending⟩
  · exact ⟨hclient, hseq⟩
  · obtain ⟨hclient, hseq, _⟩ := h.pending clientId args k hpending
    exact ⟨hclient, hseq⟩

theorem send (h : Serial s) {clientId : Int} {args : ClientRequestArgs} {server : Fin n}
    {clerk : Clerk} (serves : s.Serves clientId args)
    (seq : clerk.reqSeq = (s.clerks clientId).reqSeq)
    (pending : clerk.pending = some (args, s.calls.length)) :
    Serial ({ s with
      calls := s.calls ++ [({ args := args, server := server } : Call n)] }.setClerk
        clientId clerk) := by
  obtain ⟨hclient, hseq⟩ := h.serves serves
  refine ⟨fun other args' k hpending => ?_, fun args' hmem => ?_⟩
  · simp only [setClerk, requests, List.map_append, List.map_cons, List.map_nil] at hpending ⊢
    by_cases hother : other = clientId
    · subst hother
      rw [Function.update_self] at hpending ⊢
      rw [pending] at hpending
      obtain ⟨rfl, rfl⟩ := Prod.mk.inj (Option.some.inj hpending)
      exact ⟨hclient, by rw [seq]; exact hseq, by simp⟩
    · rw [Function.update_of_ne hother] at hpending ⊢
      obtain ⟨howner, hnumber, hread⟩ := h.pending other args' k hpending
      refine ⟨howner, hnumber, ?_⟩
      show (s.requests ++ [args])[k]? = some args'
      rw [List.getElem?_append_left (List.getElem?_eq_some_iff.mp hread).1]
      exact hread
  · simp only [setClerk, requests, List.map_append, List.map_cons, List.map_nil] at hmem ⊢
    by_cases howner : args'.clientId = clientId
    · rw [howner, Function.update_self, seq, pending]
      rcases List.mem_append.mp hmem with hold | hnew
      · have hsent := h.sent args' hold
        rw [howner] at hsent
        rcases hsent with hlt | ⟨k, hpending⟩
        · exact Or.inl hlt
        · rcases serves with ⟨hnone, _, _⟩ | ⟨k', hpending'⟩
          · rw [hnone] at hpending
            cases hpending
          · rw [hpending'] at hpending
            obtain ⟨rfl, _⟩ := Prod.mk.inj (Option.some.inj hpending)
            exact Or.inr ⟨_, rfl⟩
      · rw [List.mem_singleton.mp hnew]
        exact Or.inr ⟨_, rfl⟩
    · rw [Function.update_of_ne howner]
      rcases List.mem_append.mp hmem with hold | hnew
      · exact h.sent args' hold
      · exact absurd (by rw [List.mem_singleton.mp hnew]; exact hclient) howner

theorem returned (h : Serial s) {clientId : Int} {args : ClientRequestArgs} {k : Nat}
    {clerk : Clerk} (served : (s.clerks clientId).pending = some (args, k))
    (seq : clerk.reqSeq = (s.clerks clientId).reqSeq + 1) (pending : clerk.pending = none) :
    Serial (s.setClerk clientId clerk) := by
  refine ⟨fun other args' k' hpending => ?_, fun args' hmem => ?_⟩
  · simp only [setClerk] at hpending ⊢
    by_cases hother : other = clientId
    · subst hother
      rw [Function.update_self, pending] at hpending
      cases hpending
    · rw [Function.update_of_ne hother] at hpending ⊢
      exact h.pending other args' k' hpending
  · have hsent := h.sent args' hmem
    simp only [setClerk]
    by_cases howner : args'.clientId = clientId
    · rw [howner] at hsent
      rw [howner, Function.update_self, seq]
      rcases hsent with hlt | ⟨k', hpending⟩
      · exact Or.inl (by omega)
      · rw [(h.pending clientId args' k' hpending).2.1]
        exact Or.inl (by omega)
    · rw [Function.update_of_ne howner]
      exact hsent

theorem turn (h : Serial s) (hturn : Turn codec s action s') : Serial s' := by
  cases hturn with
  | raft internal run => exact ⟨h.pending, h.sent⟩
  | send serves seq pending => exact h.send serves seq pending
  | returned served seq pending => exact h.returned served seq pending
  | handler found turn =>
      have hrequests := requests_set found turn.args_eq
      refine ⟨fun clientId args k hpending => ?_, fun args hmem => ?_⟩
      · rw [requests, hrequests]
        exact h.pending clientId args k hpending
      · rw [requests, hrequests] at hmem
        exact h.sent args hmem
  | server turn => exact ⟨h.pending, h.sent⟩

end Serial

theorem serial_of_reaches (hreach : Reaches (step codec) initial s) : Serial s := by
  refine hreach.invariant ⟨fun _ _ _ hpending => ?_, fun _ hmem => ?_⟩
    fun h hstep => h.turn (step_turn hstep)
  · cases hpending
  · cases hmem

/-! ## What is carried out -/

/-- What the service handed to the Raft layer, and what came of it. -/
structure Handed (codec : Codec) (trace : List (Action n Op)) (s : System n) : Prop where
  run : Runs Cluster.step Cluster.initial trace s.raft
  starts : ∀ p command, .start p command ∈ trace →
    ∃ args ∈ s.requests, command = some args.opLog
  snapshots : ∀ p index bytes, .snapshot p index bytes ∈ trace →
    Known s.applied (codec.decode bytes)
  tables : ∀ p, Known s.applied (s.servers p).tables
  applied : ∀ e ∈ s.applied, (∃ args ∈ s.requests, e.op = args.opLog) ∧
    s.raft.Delivered e.index (some e.op)

namespace Handed

variable {trace : List (Action n Op)}

theorem decode (h : Handed codec trace s) {bytes : Bytes}
    (hbytes : Cluster.Snapshotted trace bytes) (hne : bytes ≠ []) :
    Known s.applied (codec.decode bytes) := by
  rcases hbytes with hnil | ⟨p, index, hmem⟩
  · exact absurd hnil hne
  · exact h.snapshots p index bytes hmem

/-- The Raft layer takes a step, and every command it is given is a request. -/
theorem layer (h : Handed codec trace s) {action : Action n Op} {raft : Cluster n Op}
    (hrun : s.raft.step action = .ok raft)
    (hstart : ∀ p command, action = .start p command → ∃ args ∈ s.requests,
      command = some args.opLog)
    (hsnapshot : ∀ p index bytes, action = .snapshot p index bytes →
      Known s.applied (codec.decode bytes)) :
    Handed codec (trace ++ [action]) { s with raft := raft } where
  run := h.run.tail trivial hrun
  starts := by
    intro p command hmem
    rcases List.mem_append.mp hmem with hold | hnew
    · exact h.starts p command hold
    · exact hstart p command (List.mem_singleton.mp hnew).symm
  snapshots := by
    intro p index bytes hmem
    rcases List.mem_append.mp hmem with hold | hnew
    · exact h.snapshots p index bytes hold
    · exact hsnapshot p index bytes (List.mem_singleton.mp hnew).symm
  tables := h.tables
  applied := fun e hmem => ⟨(h.applied e hmem).1, (h.applied e hmem).2.step h.run.reaches hrun⟩

/-- Only the tables of one server change, and nothing is carried out. -/
theorem server (h : Handed codec trace s) {p : Fin n} {kv : KVServer}
    (hknown : Known s.applied kv.tables) :
    Handed codec trace { s with servers := Function.update s.servers p kv } := by
  refine { h with tables := fun q => ?_ }
  by_cases hq : q = p
  · subst hq
    simpa using hknown
  · simpa [Function.update_of_ne hq] using h.tables q

theorem calls (h : Handed codec trace s) {clerks : Int → Clerk} {calls : List (Call n)}
    (hsub : s.requests ⊆ calls.map Call.args) :
    Handed codec trace { s with clerks := clerks, calls := calls } := by
  refine { h with starts := fun p command hmem => ?_, applied := fun e hmem => ?_ }
  · obtain ⟨args, hargs, hcommand⟩ := h.starts p command hmem
    exact ⟨args, hsub hargs, hcommand⟩
  · obtain ⟨⟨args, hargs, hop⟩, hdelivered⟩ := h.applied e hmem
    exact ⟨⟨args, hsub hargs, hop⟩, hdelivered⟩

theorem handler (h : Handed codec trace s) {k : Nat} {call call' : Call n} {kv : KVServer}
    {raft : Cluster n Op} (found : s.calls[k]? = some call)
    (turn : HandlerTurn s call call' kv raft) :
    ∃ trace', Handed codec trace' { s with
      raft := raft
      servers := Function.update s.servers call.server kv
      calls := s.calls.set k call' } := by
  have hknown : Known s.applied kv.tables := by
    rw [turn.tables_eq]
    exact h.tables call.server
  have hrequests : s.requests ⊆ (s.calls.set k call').map Call.args := by
    rw [requests_set found turn.args_eq]
    exact List.Subset.refl _
  rcases turn.raft_cases with rfl | hrun
  · exact ⟨trace, (h.server hknown).calls hrequests⟩
  · have hlayer := h.layer hrun (fun p command hstart => by
      cases hstart
      exact ⟨call.args, List.mem_map_of_mem (List.mem_of_getElem? found), rfl⟩)
      fun _ _ _ hsnapshot => by cases hsnapshot
    exact ⟨_, (hlayer.server hknown).calls hrequests⟩

/-- The command of a message was sent as a request. -/
theorem requested (h : Handed codec trace s) {p : Fin n} {msg : ApplyMsg Op} {op : Op}
    (hmem : msg ∈ (s.raft.peers p).applyCh.msgs) (hvalid : msg.commandValid = true)
    (hcommand : msg.command = some op) : ∃ args ∈ s.requests, op = args.opLog := by
  have hstarted := ((Cluster.allStarted_of_runs h.run).peers p).given msg hmem hvalid
  rw [hcommand] at hstarted
  rcases hstarted with hnone | ⟨q, hstart⟩
  · cases hnone
  · obtain ⟨args, hargs, hop⟩ := h.starts q (some op) hstart
    exact ⟨args, hargs, Option.some.inj hop⟩

theorem apply (h : Handed codec trace s) {p : Fin n} {msg : ApplyMsg Op} {after : KVServer}
    {isLeader : Bool} (next : s.nextMsg p = some msg)
    (run : (s.servers p).applyMsg codec msg isLeader = .ok after) :
    Handed codec trace { s with
      servers := Function.update s.servers p after
      applied := s.applied ++ (s.servers p).carried p msg } := by
  have hmem : msg ∈ (s.raft.peers p).applyCh.msgs := List.mem_of_getElem? next
  have hsub : s.applied ⊆ s.applied ++ (s.servers p).carried p msg :=
    List.subset_append_left _ _
  have hgrown : Handed codec trace { s with
      applied := s.applied ++ (s.servers p).carried p msg } := by
    refine { h with
      snapshots := fun q index bytes hin => (h.snapshots q index bytes hin).mono hsub
      tables := fun q => (h.tables q).mono hsub
      applied := fun e he => ?_ }
    rcases List.mem_append.mp he with hold | hnew
    · exact h.applied e hold
    · obtain ⟨hvalid, hindex, hcommand⟩ := KVServer.mem_carried hnew
      exact ⟨h.requested hmem hvalid hcommand,
        _, msg, Or.inl ⟨p, rfl⟩, hmem, hvalid, hindex, hcommand⟩
  refine hgrown.server ?_
  rcases KVServer.applyMsg_cases run with
    ⟨op, applied, hvalid, hcommand, hlater, htables, _, _, _, hafter⟩ | ⟨_, _, _, htables⟩
  · have hknown := (KVServer.known_applied (h.tables p) p hvalid hcommand hlater).1
    rw [← htables] at hknown
    rcases hafter with rfl | ⟨_, hnotify⟩
    · exact hknown
    · rw [KVServer.notify_tables hnotify]
      exact hknown
  · rcases htables with hsame | ⟨hvalid, hne, hdecode⟩
    · rw [hsame]
      exact (h.tables p).mono hsub
    · rw [hdecode]
      exact (h.decode ((Cluster.snapshotted_of_runs h.run p).given msg hmem hvalid) hne).mono hsub

theorem serverTurn (h : Handed codec trace s) {p : Fin n} {kv : KVServer} {raft : Cluster n Op}
    {applied : List (Applied n)} (turn : ServerTurn codec s p action kv raft applied) :
    ∃ trace', Handed codec trace' { s with
      raft := raft
      servers := Function.update s.servers p kv
      applied := s.applied ++ applied } := by
  cases turn with
  | remove =>
      rw [List.append_nil]
      exact ⟨trace, h.server (h.tables p)⟩
  | apply next run => exact ⟨trace, h.apply next run⟩
  | takeSnapShot encoded run =>
      rw [List.append_nil]
      refine ⟨_, (h.layer run (fun _ _ hstart => by cases hstart)
        fun q index bytes hsnapshot => ?_).server (h.tables p)⟩
      cases hsnapshot
      rw [codec.decode_encode encoded]
      exact h.tables p
  | skipSnapShot =>
      rw [List.append_nil]
      exact ⟨trace, h.server (h.tables p)⟩
  | crash run =>
      rw [List.append_nil]
      refine ⟨_, (h.layer run (fun _ _ hstart => by cases hstart)
        fun _ _ _ hsnapshot => by cases hsnapshot).server ?_⟩
      unfold startKVServer KVServer.restoreSnapShot
      split
      · exact Known.empty
      · next hne => exact h.decode (Cluster.persisted_of_runs h.run p) hne

theorem turn (h : Handed codec trace s) (hturn : Turn codec s action s') :
    ∃ trace', Handed codec trace' s' := by
  cases hturn with
  | raft internal run =>
      refine ⟨_, h.layer run ?_ ?_⟩
      · rintro p command rfl
        cases internal
      · rintro p index bytes rfl
        cases internal
  | send serves seq pending =>
      refine ⟨trace, h.calls ?_⟩
      rw [List.map_append]
      exact List.subset_append_left _ _
  | returned served seq pending => exact ⟨trace, h.calls (List.Subset.refl _)⟩
  | handler found turn => exact h.handler found turn
  | server turn => exact h.serverTurn turn

end Handed

theorem handed_of_reaches (hreach : Reaches (step codec) initial s) :
    ∃ trace, Handed codec trace s := by
  refine hreach.invariant (P := fun s => ∃ trace, Handed codec trace s) ⟨[], ?_⟩ ?_
  · exact {
      run := .refl
      starts := fun _ _ hmem => by cases hmem
      snapshots := fun _ _ _ hmem => by cases hmem
      tables := fun _ => Known.empty
      applied := fun _ hmem => by cases hmem }
  · rintro t a t' ⟨trace, h⟩ hstep
    exact h.turn (step_turn hstep)

end System

end DistributedLabs.KvRaft
