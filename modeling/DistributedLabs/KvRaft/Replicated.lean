import DistributedLabs.KvRaft.Acknowledged
import DistributedLabs.KvRaft.Replay
import DistributedLabs.Raft.Pairing

/-!
# The servers are replicas of one state machine

The servers are fed by the Raft layer, each at its own pace.  They take commands and
snapshots from their channels, hand snapshots back, crash and start again from what is
persisted.  As long as the goroutines of installed snapshots run in order and log requests
are encoded as they were built, there is one list of operations such that every server holds
what a prefix of it makes of empty tables.  The list grows when a server is the first one to
apply a command.
-/

namespace DistributedLabs

open DistributedLabs.Library
open DistributedLabs.Library.Session (Fresh)

/-- The channel after its message number `k`. -/
theorem ApplyChan.put_of_read {C : Type} {channel : ApplyChan C} {k : Nat} {msg : ApplyMsg C}
    (h : channel.msgs[k]? = some msg) :
    channel.Put ⟨channel.start, channel.msgs.take k⟩ msg ∧
      (⟨channel.start, channel.msgs.take (k + 1)⟩ : ApplyChan C) =
        ApplyChan.put ⟨channel.start, channel.msgs.take k⟩ msg := by
  have htake : channel.msgs.take (k + 1) = channel.msgs.take k ++ [msg] := by
    rw [List.take_add_one, h, Option.toList_some]
  refine ⟨⟨rfl, ?_⟩, ?_⟩
  · rw [← htake]
    exact List.take_prefix _ _
  · rw [htake]
    rfl

/-- A peer that has crashed gets an empty channel that starts at the compaction point. -/
theorem Cluster.crash_channel {n : Nat} {C : Type} {s s' : Cluster n C} (hreach : Reachable s)
    {p : Fin n} (hstep : s.step (.crash p) = .ok s') :
    ∃ first, (s.peers p).log.head? = some first ∧ (s'.peers p).applyCh = ⟨first.index, []⟩ ∧
      ∀ q, q ≠ p → s'.peers q = s.peers q := by
  obtain ⟨made, hmade, rfl⟩ := Outcome.map_eq_ok.mp hstep
  obtain ⟨first, last, hfirst, _, hmake⟩ := (durable_of_reachable hreach p).make_eq p
    ((s.peers p).incarnation + 1)
  obtain rfl := Option.some.inj (hmake.symm.trans (Outcome.ofOption_eq_ok.mp hmade))
  refine ⟨first, hfirst, ?_, fun q hq => ?_⟩
  · simp [setPeer, Raft.restarted]
  · simp [setPeer, Function.update_of_ne hq]

namespace KvRaft

variable {n : Nat}

/-! ## What the handlers leave alone -/

namespace KVServer

variable {kv after : KVServer}

/-- The server is as far as before. -/
structure SameProgress (kv after : KVServer) : Prop where
  tables : after.tables = kv.tables
  lastApplied : after.lastApplied = kv.lastApplied
  justApplied : after.justApplied = kv.justApplied
  consumed : after.consumed = kv.consumed

theorem sameProgress_getNotifyChannel (kv : KVServer) (index : Int) :
    SameProgress kv (kv.getNotifyChannel index).1 := by
  unfold getNotifyChannel
  split
  · exact ⟨rfl, rfl, rfl, rfl⟩
  · exact ⟨rfl, rfl, rfl, rfl⟩

theorem sameProgress_receive {channel : Nat} {reply : ClientRequestReply}
    (hrun : kv.receive channel = .ok (after, reply)) : SameProgress kv after := by
  unfold receive at hrun
  split at hrun
  · cases hrun
    exact ⟨rfl, rfl, rfl, rfl⟩
  · cases hrun
  · cases hrun

theorem notify_consumed {index : Int} {reply : Option ClientRequestReply}
    (hrun : kv.notify index reply = .ok after) : after.consumed = kv.consumed := by
  unfold notify at hrun
  dsimp only at hrun
  split at hrun
  · cases hrun
    exact (sameProgress_getNotifyChannel kv index).consumed
  · cases hrun

/-- Every turn of the loop takes one message. -/
theorem applyMsg_consumed {codec : Codec} {msg : ApplyMsg Op} {isLeader : Bool}
    (hrun : kv.applyMsg codec msg isLeader = .ok after) : after.consumed = kv.consumed + 1 := by
  unfold applyMsg at hrun
  dsimp only at hrun
  split at hrun
  · unfold applyCommand at hrun
    split at hrun
    · cases hrun
      rfl
    · split at hrun
      · cases hrun
      · dsimp only at hrun
        split at hrun
        · exact notify_consumed hrun
        · cases hrun
          rfl
  · split at hrun
    · cases hrun
      unfold restoreSnapShot
      split
      · rfl
      · rfl
    · cases hrun
      rfl

/-! ## The two kinds of messages -/

theorem applyMsg_of_command {codec : Codec} {msg : ApplyMsg Op} {isLeader : Bool}
    (hvalid : msg.commandValid = true) : kv.applyMsg codec msg isLeader =
      kv.applyMsg codec
        { commandValid := true, command := msg.command, commandIndex := msg.commandIndex }
        isLeader := by
  simp [applyMsg, hvalid]

theorem applyMsg_of_snapshot {codec : Codec} {msg : ApplyMsg Op} {isLeader : Bool}
    (hother : msg.commandValid = false) (hvalid : msg.snapshotValid = true) :
    kv.applyMsg codec msg isLeader = kv.applyMsg codec
      { snapshotValid := true, snapshot := msg.snapshot, snapshotIndex := msg.snapshotIndex,
        snapshotTerm := msg.snapshotTerm } isLeader := by
  simp [applyMsg, hother, hvalid]

/-- Nothing else than a command gets past the guard on `lastApplied`. -/
theorem exists_command {codec : Codec} {msg : ApplyMsg Op} {isLeader : Bool}
    (hvalid : msg.commandValid = true) (hlater : kv.lastApplied < msg.commandIndex)
    (hrun : kv.applyMsg codec msg isLeader = .ok after) : ∃ op, msg.command = some op := by
  cases hcommand : msg.command with
  | some op => exact ⟨op, rfl⟩
  | none =>
      have hguard : ¬ msg.commandIndex ≤ kv.lastApplied := Int.not_le.mpr hlater
      simp [applyMsg, applyCommand, hvalid, hguard, hcommand] at hrun

theorem carried_cases {p : Fin n} {msg : ApplyMsg Op} {e : Applied n} (h : e ∈ kv.carried p msg) :
    msg.commandIndex = e.index ∧ msg.command = some e.op ∧
      ¬ kv.tables.Seen e.op.clientId e.op.reqSeq ∧
      e.reply = (applyToStateMachine kv.tables.store e.op).2 := by
  obtain ⟨op, hop, rfl⟩ := List.mem_map.mp h
  have hcarries := Option.mem_toList.mp hop
  simp only [carriesOut] at hcarries
  split at hcarries
  · obtain ⟨hcommand, hunseen⟩ := Option.filter_eq_some_iff.mp hcarries
    exact ⟨rfl, hcommand, of_decide_eq_true hunseen, rfl⟩
  · cases hcarries

end KVServer

theorem System.HandlerTurn.sameProgress {s : System n} {call call' : Call n} {kv : KVServer}
    {raft : Cluster n Op} (turn : System.HandlerTurn s call call' kv raft) :
    (s.servers call.server).SameProgress kv := by
  cases turn with
  | @await index term channel kv alive started run =>
      have hsame := KVServer.sameProgress_getNotifyChannel (s.servers call.server) index
      rw [run] at hsame
      exact hsame
  | receive alive waiting run =>
      have hsame := KVServer.sameProgress_receive run
      exact ⟨hsame.tables, hsame.lastApplied, hsame.justApplied, hsame.consumed⟩
  | _ => exact ⟨rfl, rfl, rfl, rfl⟩

/-! ## Replicas of a log that grows -/

instance decidableEqTables : DecidableEq Tables := fun first second =>
  decidable_of_iff (first.store.entries = second.store.entries ∧
    first.clientMaxReq.entries = second.clientMaxReq.entries ∧
    first.clientLastReqRest.entries = second.clientLastReqRest.entries) (by
      cases first
      cases second
      simp [AList.ext_iff])

/-- An encoding for these tables alone. -/
def Codec.only (tables : Tables) : Codec where
  encode other := if other = tables then some [1] else none
  decode _ := tables
  decode_encode := by
    intro other bytes h
    split at h
    · next heq => exact heq.symm
    · cases h
  encode_ne_nil := by
    intro other bytes h
    split at h
    · cases h
      simp
    · cases h

section Log

variable {codec : Codec} {log log' : List Op}

/-- The server with the index it has come to. -/
def KVServer.replica (kv : KVServer) (index : Nat) : Replica :=
  ⟨kv, index, (0, [])⟩

/-- An operation at its place in the log, where it came for the first time, and the reply
that the operations before it make of it. -/
def Computed (log : List Op) (e : Applied n) : Prop :=
  ∃ i : Nat, e.index = i + 1 ∧ log[i]? = some e.op ∧
    Fresh Op.clientId Op.reqSeq (log.take i) e.op ∧
    e.reply = (applyToStateMachine (Tables.replay (log.take i)).store e.op).2

theorem take_of_extends (hgrows : log <+: log') {i : Nat} (hi : i ≤ log.length) :
    log'.take i = log.take i := by
  obtain ⟨rest, rfl⟩ := hgrows
  exact List.take_append_of_le_length hi

theorem Stands.extend {snapshot : Nat × Bytes} (h : Stands codec log snapshot)
    (hgrows : log <+: log') : Stands codec log' snapshot :=
  ⟨Nat.le_trans h.le hgrows.length_le, h.nonempty, by
    rw [take_of_extends hgrows h.le]
    exact h.tables⟩

theorem Follows.extend {kv : KVServer} {index : Nat} (h : Follows codec log (kv.replica index))
    (hgrows : log <+: log') : Follows codec log' (kv.replica index) :=
  ⟨Nat.le_trans h.le hgrows.length_le, by
    rw [take_of_extends hgrows h.le]
    exact h.tables, h.applied, h.just, Or.inl rfl⟩

theorem Computed.extend {e : Applied n} (h : Computed log e) (hgrows : log <+: log') :
    Computed log' e := by
  obtain ⟨i, hindex, hread, hfresh, hreply⟩ := h
  have htake := take_of_extends hgrows (Nat.le_of_lt (List.getElem?_eq_some_iff.mp hread).1)
  refine ⟨i, hindex, ?_, ?_, ?_⟩
  · obtain ⟨rest, rfl⟩ := hgrows
    rw [List.getElem?_append_left (List.getElem?_eq_some_iff.mp hread).1]
    exact hread
  · rw [htake]
    exact hfresh
  · rw [htake]
    exact hreply

theorem Follows.sameProgress {kv after : KVServer} {index : Nat}
    (h : Follows codec log (kv.replica index)) (hsame : kv.SameProgress after) :
    Follows codec log (after.replica index) where
  le := h.le
  tables := hsame.tables.trans h.tables
  applied := Int.le_trans (Int.le_of_eq hsame.lastApplied) h.applied
  just j hjust := h.just j (hsame.justApplied.symm.trans hjust)
  latest := Or.inl rfl

/-- A server that is started from a snapshot stands where the snapshot does. -/
theorem Stands.started {j : Nat} {bytes : Bytes} (h : Stands codec log (j, bytes)) :
    Follows codec log ((startKVServer codec bytes).replica j) := by
  have hempty : Follows codec log { latest := (j, bytes) } :=
    { (Follows.empty : Follows codec log {}) with latest := Or.inr h }
  exact { hempty.restart with latest := Or.inl rfl }

end Log

/-! ## The system -/

namespace System

variable {codec : Codec} {s s' : System n} {action : SystemAction n}

/-- The goroutine of an installed snapshot comes before the applier has passed its index, and
before the log is compacted further. -/
def InstallsInOrder (s : System n) : SystemAction n → Prop
  | .raft action => s.raft.InstallsAhead action ∧ s.raft.InstallsCurrent action
  | _ => True

instance (s : System n) (action : SystemAction n) : Decidable (s.InstallsInOrder action) :=
  match action with
  | .raft _ => inferInstanceAs (Decidable (_ ∧ _))
  | .request _ _ _ _ | .callFails _ | .callReturns _ | .check _ | .start _ | .await _ | .receive _
  | .timeOut _ | .remove _ _ | .apply _ | .takeSnapShot _ | .crash _ => instDecidableTrue

/-- What the server has taken from its channel. -/
def taken (s : System n) (p : Fin n) : ApplyChan Op :=
  ⟨(s.raft.peers p).applyCh.start, (s.raft.peers p).applyCh.msgs.take (s.servers p).consumed⟩

/-- The greatest index the server has been brought to. -/
def position (s : System n) (p : Fin n) : Int :=
  (s.taken p).reached

/-- The servers hold prefixes of the log, and every snapshot stands for one. -/
structure Replicates (codec : Codec) (trace : List (Action n Op)) (log : List Op) (s : System n) :
    Prop where
  run : RunsIf Cluster.step (fun t a => t.InstallsAhead a ∧ t.InstallsCurrent a) Cluster.initial
    trace s.raft
  delivered : ∀ (i : Nat) op, log[i]? = some op → s.raft.Delivered (i + 1) (some op)
  stands : ∀ p (index : Int) bytes, .snapshot p index bytes ∈ trace →
    ∃ j : Nat, index = j ∧ Stands codec log (j, bytes)
  fed : ∀ p, (s.servers p).consumed ≤ (s.raft.peers p).applyCh.msgs.length
  follows : ∀ p, ∃ m : Nat, s.position p = m ∧ Follows codec log ((s.servers p).replica m)
  computed : ∀ e ∈ s.applied, Computed log e

/-- A server takes the command that makes the log longer. -/
def AppliesFirst (s : System n) (action : SystemAction n) (log log' : List Op) : Prop :=
  ∃ p msg op, action = .apply p ∧ s.nextMsg p = some msg ∧ msg.commandValid = true ∧
    msg.command = some op ∧ log' = log ++ [op]

namespace Replicates

variable {trace : List (Action n Op)} {log : List Op}

theorem initial : Replicates codec [] [] (System.initial : System n) where
  run := .refl
  delivered i op hread := by cases hread
  stands _ _ _ hmem := by cases hmem
  fed _ := Nat.le_refl 0
  follows _ := ⟨0, rfl, Follows.empty⟩
  computed _ hmem := by cases hmem

/-- The Raft layer takes a step without a crash. -/
theorem layer (h : Replicates codec trace log s) {action : Action n Op} {raft : Cluster n Op}
    (hrun : s.raft.step action = .ok raft)
    (hallowed : s.raft.InstallsAhead action ∧ s.raft.InstallsCurrent action)
    (hcrash : ∀ p, action ≠ .crash p)
    (hsnapshot : ∀ p index bytes, action = .snapshot p index bytes →
      ∃ j : Nat, index = j ∧ Stands codec log (j, bytes)) :
    Replicates codec (trace ++ [action]) log { s with raft := raft } := by
  have hreach := h.run.reaches
  have hkept : ∀ p, (raft.peers p).applyCh.start = (s.raft.peers p).applyCh.start ∧
      (s.raft.peers p).applyCh.msgs <+: (raft.peers p).applyCh.msgs := by
    intro p
    rcases Cluster.channel_of_step hreach hrun p with ⟨_, hkept⟩ | ⟨heq, _⟩
    · exact hkept
    · exact absurd heq (hcrash p)
  refine ⟨h.run.tail hallowed hrun, fun i op hread => (h.delivered i op hread).step hreach hrun,
    ?_, fun p => Nat.le_trans (h.fed p) (hkept p).2.length_le, fun p => ?_, h.computed⟩
  · intro p index bytes hmem
    rcases List.mem_append.mp hmem with hold | hnew
    · exact h.stands p index bytes hold
    · exact hsnapshot p index bytes (List.mem_singleton.mp hnew).symm
  · have hposition : position { s with raft := raft } p = s.position p := by
      obtain ⟨rest, hmsgs⟩ := (hkept p).2
      simp only [position, taken]
      rw [(hkept p).1, ← hmsgs, List.take_append_of_le_length (h.fed p)]
    rw [hposition]
    exact h.follows p

/-- One server changes and stays where it is. -/
theorem server (h : Replicates codec trace log s) {p : Fin n} {kv : KVServer}
    (hconsumed : kv.consumed = (s.servers p).consumed)
    (hfollows : ∀ m, Follows codec log ((s.servers p).replica m) →
      Follows codec log (kv.replica m)) :
    Replicates codec trace log { s with servers := Function.update s.servers p kv } := by
  refine { h with fed := fun q => ?_, follows := fun q => ?_ }
  · by_cases hq : q = p
    · subst hq
      simpa [hconsumed] using h.fed q
    · simpa [Function.update_of_ne hq] using h.fed q
  · obtain ⟨m, hposition, hold⟩ := h.follows q
    refine ⟨m, ?_, ?_⟩
    · rw [← hposition]
      simp only [position, taken]
      by_cases hq : q = p
      · subst hq
        rw [Function.update_self, hconsumed]
      · rw [Function.update_of_ne hq]
    · by_cases hq : q = p
      · subst hq
        simpa using hfollows m hold
      · simpa [Function.update_of_ne hq] using hold

theorem calls (h : Replicates codec trace log s) (clerks : Int → Clerk) (calls : List (Call n)) :
    Replicates codec trace log { s with clerks := clerks, calls := calls } :=
  { h with }

theorem handler (h : Replicates codec trace log s) {call call' : Call n} {kv : KVServer}
    {raft : Cluster n Op} (turn : HandlerTurn s call call' kv raft) (calls : List (Call n)) :
    ∃ trace', Replicates codec trace' log { s with
      raft := raft
      servers := Function.update s.servers call.server kv
      calls := calls } := by
  have hsame := turn.sameProgress
  rcases turn.raft_cases with rfl | hrun
  · exact ⟨trace, (h.server hsame.consumed fun m hold => hold.sameProgress hsame).calls _ _⟩
  · have hlayer := h.layer hrun ⟨trivial, trivial⟩ (fun _ hcrash => by cases hcrash)
      fun _ _ _ hsnapshot => by cases hsnapshot
    exact ⟨_, (hlayer.server hsame.consumed fun m hold => hold.sameProgress hsame).calls _ _⟩

/-! ### Messages -/

/-- The next message of a server is a command for the index after its own, or a snapshot of a
later part of the log. -/
theorem nextMsg_cases (h : Replicates codec trace log s) {p : Fin n} {msg : ApplyMsg Op}
    (next : s.nextMsg p = some msg) {m : Nat} (hposition : s.position p = m) :
    (msg.commandValid = true ∧ msg.commandIndex = m + 1) ∨
    (msg.commandValid = false ∧ msg.snapshotValid = true ∧ ∃ j : Nat, msg.snapshotIndex = j ∧
      m < j ∧ Stands codec log (j, msg.snapshot)) := by
  have hdelivering := Cluster.delivering_of_reachable h.run.reaches p
  have hput := (ApplyChan.put_of_read next).1
  have hmem : msg ∈ (s.raft.peers p).applyCh.msgs := List.mem_of_getElem? next
  rcases Bool.eq_false_or_eq_true msg.commandValid with hcommand | hcommand
  · refine Or.inl ⟨hcommand, ?_⟩
    rw [hdelivering.gapless _ _ hput hcommand, ← hposition]
    rfl
  · have hsnapshot : msg.snapshotValid = true := by
      have hlabel := hdelivering.labelled msg hmem
      simpa [hcommand] using hlabel
    have hrising := (Cluster.newer_of_runs (h.run.imp fun _ _ hboth => hboth.1) p).rising _ _ hput
      hsnapshot
    obtain ⟨q, htaken⟩ := (Cluster.labelled_of_runs (h.run.imp fun _ _ hboth => hboth.2) p).given
      msg hmem hsnapshot
    obtain ⟨j, hindex, hstands⟩ := h.stands q _ _ htaken
    refine Or.inr ⟨hcommand, hsnapshot, j, hindex, ?_, hstands⟩
    have hbelow : s.position p < msg.snapshotIndex := hrising
    omega

/-- The server moves on by one message. -/
theorem advance (h : Replicates codec trace log s) {p : Fin n} {msg : ApplyMsg Op}
    (next : s.nextMsg p = some msg) {after : KVServer}
    (hconsumed : after.consumed = (s.servers p).consumed + 1) {m : Nat}
    (hposition : s.position p = m) (m' : Nat) (hindex : max (m : Int) msg.index = m')
    (hfollows : Follows codec log (after.replica m')) {new : List (Applied n)}
    (hcomputed : ∀ e ∈ new, Computed log e) :
    Replicates codec trace log { s with
      servers := Function.update s.servers p after
      applied := s.applied ++ new } := by
  refine { h with fed := fun q => ?_, follows := fun q => ?_, computed := fun e hmem => ?_ }
  · by_cases hq : q = p
    · subst hq
      have hlt := (List.getElem?_eq_some_iff.mp next).1
      simpa [hconsumed] using Nat.succ_le_of_lt hlt
    · simpa [Function.update_of_ne hq] using h.fed q
  · by_cases hq : q = p
    · subst hq
      refine ⟨m', ?_, by simpa using hfollows⟩
      simp only [position, taken, Function.update_self]
      rw [hconsumed, (ApplyChan.put_of_read next).2, ApplyChan.reached_put, ← hindex, ← hposition]
      rfl
    · obtain ⟨k, hk, hold⟩ := h.follows q
      refine ⟨k, ?_, by simpa [Function.update_of_ne hq] using hold⟩
      rw [← hk]
      simp only [position, taken, Function.update_of_ne hq]
  · rcases List.mem_append.mp hmem with hold | hnew
    · exact h.computed e hold
    · exact hcomputed e hnew

/-- A longer log, of which the new operation has just been delivered. -/
theorem extend (h : Replicates codec trace log s) {op : Op}
    (hdelivered : s.raft.Delivered (log.length + 1) (some op)) :
    Replicates codec trace (log ++ [op]) s := by
  have hgrows : log <+: log ++ [op] := List.prefix_append log [op]
  refine ⟨h.run, fun i op' hread => ?_, fun p index bytes hmem => ?_, h.fed, fun p => ?_,
    fun e hmem => (h.computed e hmem).extend hgrows⟩
  · rcases Table.read_concat hread with hold | ⟨rfl, rfl⟩
    · exact h.delivered i op' hold
    · exact hdelivered
  · obtain ⟨j, hindex, hstands⟩ := h.stands p index bytes hmem
    exact ⟨j, hindex, hstands.extend hgrows⟩
  · obtain ⟨m, hposition, hfollows⟩ := h.follows p
    exact ⟨m, hposition, hfollows.extend hgrows⟩

/-- What is delivered at an index of the log is the operation there. -/
theorem read_eq (h : Replicates codec trace log s) {m : Nat} (hlt : m < log.length) {op : Op}
    (hdelivered : s.raft.Delivered (m + 1) (some op)) : log[m]? = some op := by
  have hread := List.getElem?_eq_getElem hlt
  obtain ⟨A, hrefines⟩ := exists_refines h.run.reaches
  have hcommitted := (h.delivered m _ hread).committed hrefines
  have hsame := hcommitted.unique hrefines.valid (hdelivered.committed hrefines)
  rw [hread, hsame]

/-- The command after a server's index, with the log made long enough to hold it. -/
theorem command (h : Replicates codec trace log s) {m : Nat} {op : Op} (hm : m ≤ log.length)
    (hdelivered : s.raft.Delivered (m + 1) (some op)) :
    ∃ log', Replicates codec trace log' s ∧ log'[m]? = some op ∧
      (log' = log ∨ log' = log ++ [op]) := by
  rcases Nat.lt_or_eq_of_le hm with hlt | rfl
  · exact ⟨log, h, h.read_eq hlt hdelivered, Or.inl rfl⟩
  · exact ⟨log ++ [op], h.extend hdelivered, List.getElem?_concat_length, Or.inr rfl⟩

theorem apply (h : Replicates codec trace log s) {p : Fin n} {msg : ApplyMsg Op}
    {after : KVServer} {isLeader : Bool} (next : s.nextMsg p = some msg)
    (run : (s.servers p).applyMsg codec msg isLeader = .ok after) :
    ∃ log', (log' = log ∨ ∃ op, msg.commandValid = true ∧ msg.command = some op ∧
        log' = log ++ [op]) ∧ Replicates codec trace log' { s with
      servers := Function.update s.servers p after
      applied := s.applied ++ (s.servers p).carried p msg } := by
  have hconsumed := KVServer.applyMsg_consumed run
  obtain ⟨m, hposition, hfollows⟩ := h.follows p
  rcases h.nextMsg_cases next hposition with
    ⟨hvalid, hindex⟩ | ⟨hother, hvalid, j, hindex, hlt, hstands⟩
  · have hlater : (s.servers p).lastApplied < msg.commandIndex := by
      have hle : (s.servers p).lastApplied ≤ m := hfollows.applied
      omega
    obtain ⟨op, hop⟩ := KVServer.exists_command hvalid hlater run
    have hdelivered : s.raft.Delivered (m + 1) (some op) :=
      ⟨_, msg, Or.inl ⟨p, rfl⟩, List.mem_of_getElem? next, hvalid, hindex, hop⟩
    obtain ⟨log', hlog', hread, hgrows⟩ := h.command hfollows.le hdelivered
    have hfollows' : Follows codec log' ((s.servers p).replica m) := by
      obtain ⟨m', hm', hfollows'⟩ := hlog'.follows p
      obtain rfl : m' = m := Int.ofNat.inj (hm'.symm.trans hposition)
      exact hfollows'
    refine ⟨log', hgrows.imp_right fun heq => ⟨op, hvalid, hop, heq⟩,
      hlog'.advance next hconsumed hposition (m + 1) ?_ ?_ fun e hmem => ?_⟩
    · rw [ApplyMsg.index, if_pos hvalid, hindex]
      omega
    · rw [KVServer.applyMsg_of_command hvalid, hop, hindex] at run
      exact { hfollows'.command hread run with latest := Or.inl rfl }
    · obtain ⟨hplace, hcommand, hunseen, hreply⟩ := KVServer.carried_cases hmem
      have htables : (s.servers p).tables = Tables.replay (log'.take m) := hfollows'.tables
      rw [htables] at hunseen hreply
      obtain rfl := Option.some.inj (hop.symm.trans hcommand)
      exact ⟨m, hplace.symm.trans hindex, hread, Tables.not_seen_replay.mp hunseen, hreply⟩
  · have hnone : (s.servers p).carried p msg = [] := by
      simp [KVServer.carried, KVServer.carriesOut, hother]
    rw [hnone]
    refine ⟨log, Or.inl rfl, h.advance next hconsumed hposition j ?_ ?_ fun e hmem => by
      cases hmem⟩
    · rw [ApplyMsg.index, hother, if_neg Bool.false_ne_true, hindex]
      omega
    · rw [KVServer.applyMsg_of_snapshot hother hvalid, hindex] at run
      exact { hfollows.snapshot hstands (Nat.le_of_lt hlt) run with latest := Or.inl rfl }

/-! ### Snapshots and crashes -/

theorem takeSnapShot (h : Replicates codec trace log s) {p : Fin n}
    (hrun : s.takeSnapShot codec p = .ok s') : ∃ trace', Replicates codec trace' log s' := by
  obtain ⟨m, hposition, hfollows⟩ := h.follows p
  have hcleared : ∀ k, Follows codec log ((s.servers p).replica k) →
      Follows codec log (KVServer.replica { s.servers p with justApplied := none } k) :=
    fun k hold => { hold with just := fun _ hnone => by cases hnone }
  unfold System.takeSnapShot at hrun
  dsimp only at hrun
  split at hrun
  · next index hjust =>
      split at hrun
      · next bytes hencoded =>
          obtain ⟨raft, hstep, rfl⟩ := Outcome.map_eq_ok.mp hrun
          refine ⟨_, (h.layer hstep ⟨trivial, trivial⟩ (fun _ hcrash => by cases hcrash) ?_).server
            rfl hcleared⟩
          intro q other bytes' heq
          cases heq
          have hindex : index = m := hfollows.just index hjust
          exact ⟨m, hindex, hfollows.stands (hindex ▸ hjust) hencoded⟩
      · cases hrun
        exact ⟨trace, h.server rfl hcleared⟩
  · cases hrun

/-- What is persisted of a peer starts a server at the compaction point of the log. -/
theorem restored (h : Replicates codec trace log s) {p : Fin n} {first : LogEntry Op}
    (hfirst : (s.raft.peers p).log.head? = some first) :
    ∃ m : Nat, first.index = m ∧
      Follows codec log ((startKVServer codec (s.raft.peers p).snapshot).replica m) := by
  rcases (Cluster.pairedAll_of_runs h.run.runs).peers p first hfirst with
    ⟨_, hzero, hnone⟩ | ⟨before, after, t, q, htrace, _, _⟩
  · refine ⟨0, hzero, ?_⟩
    rw [hnone]
    exact Follows.empty
  · obtain ⟨j, hindex, hstands⟩ := h.stands q first.index (s.raft.peers p).snapshot (by
      rw [htrace]
      simp)
    exact ⟨j, hindex, hstands.started⟩

/-- A server that has crashed starts at the compaction point of its log, with the snapshot
that was taken there. -/
theorem crash (h : Replicates codec trace log s) {p : Fin n} {raft : Cluster n Op}
    (hrun : s.raft.step (.crash p) = .ok raft) :
    ∃ trace', Replicates codec trace' log { s with
      raft := raft
      servers := Function.update s.servers p
        (startKVServer codec (s.raft.peers p).persister.snapshot) } := by
  have hreach := h.run.reaches
  obtain ⟨first, hfirst, hchannel, hothers⟩ := Cluster.crash_channel hreach hrun
  obtain ⟨m, hindex, hstarted⟩ := h.restored hfirst
  have hsnapshot : (s.raft.peers p).persister.snapshot = (s.raft.peers p).snapshot := by
    rw [← Persister.decode_snapshot]
    exact congrArg Stable.snapshot (Cluster.durable_of_reachable hreach p).coherent
  have hallowed : s.raft.InstallsAhead (.crash p) ∧ s.raft.InstallsCurrent (.crash p) :=
    ⟨trivial, trivial⟩
  refine ⟨trace ++ [.crash p], h.run.tail hallowed hrun,
    fun i op hread => (h.delivered i op hread).step hreach hrun, fun q index bytes hmem => ?_,
    fun q => ?_, fun q => ?_, h.computed⟩
  · rcases List.mem_append.mp hmem with hold | hnew
    · exact h.stands q index bytes hold
    · cases List.mem_singleton.mp hnew
  · by_cases hq : q = p
    · subst hq
      have hzero : (startKVServer codec (s.raft.peers q).persister.snapshot).consumed = 0 := by
        unfold startKVServer KVServer.restoreSnapShot
        split <;> rfl
      simp [hzero]
    · simpa [Function.update_of_ne hq, hothers q hq] using h.fed q
  · by_cases hq : q = p
    · subst hq
      refine ⟨m, ?_, by simpa [hsnapshot] using hstarted⟩
      simp only [position, taken, hchannel, List.take_nil]
      exact hindex
    · obtain ⟨k, hk, hold⟩ := h.follows q
      refine ⟨k, ?_, by simpa [Function.update_of_ne hq] using hold⟩
      rw [← hk]
      simp only [position, taken, Function.update_of_ne hq, hothers q hq]

theorem turn (h : Replicates codec trace log s) (hallowed : s.InstallsInOrder action)
    (hturn : Turn codec s action s') (hother : ∀ p, action ≠ .takeSnapShot p) :
    ∃ trace' log', Replicates codec trace' log' s' ∧
      (log' = log ∨ s.AppliesFirst action log log') := by
  cases hturn with
  | raft internal run =>
      refine ⟨_, log, h.layer run hallowed ?_ ?_, Or.inl rfl⟩
      · rintro p rfl
        cases internal
      · rintro p index bytes rfl
        cases internal
  | send serves seq pending => exact ⟨trace, log, h.calls _ _, Or.inl rfl⟩
  | returned served seq pending => exact ⟨trace, log, h.calls _ _, Or.inl rfl⟩
  | handler found turn =>
      obtain ⟨trace', h'⟩ := h.handler turn _
      exact ⟨trace', log, h', Or.inl rfl⟩
  | @server _ p kv raft applied turn =>
      cases turn with
      | remove found =>
          rw [List.append_nil]
          refine ⟨trace, log, h.server rfl fun m hold => ?_, Or.inl rfl⟩
          exact hold.sameProgress ⟨rfl, rfl, rfl, rfl⟩
      | apply next run =>
          obtain ⟨log', hgrows, h'⟩ := h.apply next run
          refine ⟨trace, log', h', hgrows.imp_right ?_⟩
          rintro ⟨op, hvalid, hop, heq⟩
          exact ⟨p, _, op, rfl, next, hvalid, hop, heq⟩
      | takeSnapShot => exact absurd rfl (hother p)
      | skipSnapShot => exact absurd rfl (hother p)
      | crash run =>
          rw [List.append_nil]
          obtain ⟨trace', h'⟩ := h.crash run
          exact ⟨trace', log, h', Or.inl rfl⟩

/-- Only the first server to apply a command makes the log longer. -/
theorem step (h : Replicates codec trace log s) (hallowed : s.InstallsInOrder action)
    (hstep : s.step codec action = .ok s') :
    ∃ trace' log', Replicates codec trace' log' s' ∧
      (log' = log ∨ s.AppliesFirst action log log') := by
  by_cases hsnapshot : ∃ p, action = .takeSnapShot p
  · obtain ⟨p, rfl⟩ := hsnapshot
    obtain ⟨trace', h'⟩ := h.takeSnapShot hstep
    exact ⟨trace', log, h', Or.inl rfl⟩
  · exact h.turn hallowed (step_turn hstep) fun p heq => hsnapshot ⟨p, heq⟩

end Replicates

/-- The service as a machine with a cluster in it. -/
def host (codec : Codec) : Host n Op (System n) (SystemAction n) where
  step := step codec
  cluster := System.raft
  setNet := fun s net => { s with raft := { s.raft with net := net } }
  setNet_self := fun _ => rfl
  asked := fun
    | .raft action => some action
    | _ => none

/-- Every server holds what the operations up to its index make of empty tables, and every reply
was computed from the operations before it. -/
structure FollowsLog (s : System n) (log : List Op) : Prop where
  delivered : ∀ (i : Nat) op, log[i]? = some op → s.raft.Delivered (i + 1) (some op)
  servers : ∀ p, ∃ m : Nat, m ≤ log.length ∧ s.position p = m ∧
    (s.servers p).tables = Tables.replay (log.take m)
  computed : ∀ e ∈ s.applied, Computed log e

theorem Replicates.followsLog {trace : List (Action n Op)} {log : List Op}
    (h : Replicates codec trace log s) : s.FollowsLog log where
  delivered := h.delivered
  servers := by
    intro p
    obtain ⟨m, hposition, hfollows⟩ := h.follows p
    exact ⟨m, hfollows.le, hposition, hfollows.tables⟩
  computed := h.computed

/-- There is one list of delivered operations that only grows along the run, and all servers
follow it after every action, whatever commands, snapshots and restarts have brought them there. -/
theorem replicas_follow_one_log {actions : List (SharedAction (SystemAction n))}
    {s : Shared n Op (System n)}
    (hrun : RunsIf (Shared.step (host codec)) (Shared.Meets (host codec) InstallsInOrder)
      (Shared.start (host codec) initial) actions s) :
    ∃ logs : Nat → List Op, (∀ i j, i ≤ j → logs i <+: logs j) ∧
      ∀ i t, RunsIf (Shared.step (host codec)) (Shared.Meets (host codec) InstallsInOrder)
        (Shared.start (host codec) initial) (actions.take i) t → t.base.FollowsLog (logs i) := by
  let follows (t : Shared n Op (System n)) (log : List Op) : Prop :=
    ∃ trace, Replicates codec trace log t.base
  have hstart : follows (Shared.start (host codec) initial) [] := ⟨[], Replicates.initial⟩
  have hstep : ∀ {t action t' log}, follows t log → t.Meets (host codec) InstallsInOrder action →
      t.step (host codec) action = .ok t' → ∃ log', log <+: log' ∧ follows t' log' := by
    rintro t action t' log ⟨trace, h⟩ hmeets hstep
    cases action with
    | encode k =>
        have hsame : t'.base = t.base := Shared.encode_asBuilt hstep hmeets
        exact ⟨log, List.prefix_refl log, trace, hsame ▸ h⟩
    | own action full =>
        obtain ⟨trace', log', h', rfl | ⟨_, _, op, _, _, _, _, rfl⟩⟩ :=
          h.step hmeets (Shared.step_own hstep)
        · exact ⟨log', List.prefix_refl log', trace', h'⟩
        · exact ⟨log ++ [op], List.prefix_append log [op], trace', h'⟩
  obtain ⟨logs, hgrows, hlogs⟩ := RunsIf.exists_growing (· <+: ·) List.prefix_refl
    List.IsPrefix.trans hstart hstep hrun
  refine ⟨logs, hgrows, fun i t ht => ?_⟩
  obtain ⟨trace, h⟩ := hlogs i t ht
  exact h.followsLog

/-- A codec for the tables after one write. -/
def codecOfWrite : Codec :=
  Codec.only (Tables.replay [⟨.opPut, "x", "a", 1, 0⟩])

/-- Server 0 takes a snapshot after the first command and hands it to server 2, which has
heard of nothing.  Server 0 crashes and starts again from the snapshot. -/
def handOver : List (SharedAction (SystemAction 3)) :=
  electServer.map (.own · false) ++
  Shared.promptly (host codecOfWrite) [.request 1 .opPut "x" "a", .check 0, .start 0, .await 0,
    .raft (.sendLogTicketCore 0), .raft (.deliver 1)] ++
  [.raft (.answer 1), .raft (.applyCollect 0), .raft (.applyLock 0), .raft (.applySend 0),
    .raft (.applyFinish 0), .apply 0, .takeSnapShot 0, .raft (.sendLogTicketCore 0),
    .raft (.sendSnapShot 0 0), .raft (.deliver 3), .raft (.installLock 2 0),
    .raft (.installSend 2), .raft (.installFinish 2), .apply 2, .crash 0].map (.own · false)

theorem handOver_runs : RunHolds (guarded (Shared.step (host codecOfWrite))
    (Shared.Meets (host codecOfWrite) InstallsInOrder)) handOver
    (Shared.start (host codecOfWrite) initial)
    fun s => s.base.position 0 = 1 ∧ s.base.position 2 = 1 := by
  decide +kernel

/-- Afterwards both servers stand behind the command and hold the same. -/
theorem replicas_follow_one_log_handed_over : ∃ (codec : Codec) (s : Shared 3 Op (System 3)),
    RunsIf (Shared.step (host codec)) (Shared.Meets (host codec) InstallsInOrder)
      (Shared.start (host codec) initial) handOver s ∧ s.base.position 0 = 1 ∧
      s.base.position 2 = 1 ∧ (s.base.servers 0).tables = (s.base.servers 2).tables := by
  obtain ⟨s, hrun, hfirst, hsecond⟩ := handOver_runs.exists_runsIf
  obtain ⟨logs, _, hlogs⟩ := replicas_follow_one_log hrun
  have hfollows := hlogs handOver.length s (by rw [List.take_length]; exact hrun)
  obtain ⟨m, _, hm, htables⟩ := hfollows.servers 0
  obtain ⟨k, _, hk, htables'⟩ := hfollows.servers 2
  obtain rfl : m = k := Int.ofNat.inj (hm.symm.trans (hfirst.trans (hsecond.symm.trans hk)))
  exact ⟨codecOfWrite, s, hrun, hfirst, hsecond, htables.trans htables'.symm⟩

end System

end KvRaft

end DistributedLabs
