import DistributedLabs.KvRaft.Effects
import DistributedLabs.Library.Session

/-!
# Replaying the committed operations

The command branch of `ApplyTicket` folds the committed operations into the tables.
An operation is carried out when its number is the largest of its client so far, and
otherwise answered from the table.  Snapshots carry the tables from one server to
another and across restarts; since a snapshot holds what the fold computes, a server
that has started from one goes on with the same fold.
-/

namespace DistributedLabs.KvRaft

open DistributedLabs.Library
open DistributedLabs.Library.Session (Fresh fresh FirstsRise key)

/-! ## The fold -/

/-- The tables after the operations have been applied one by one, from empty tables. -/
def Tables.replay (ops : List Op) : Tables :=
  ops.foldl (fun tables op => (tables.apply op).1) {}

/-! What an operation is for is said on the values of the keys: a `Put` sets the value of its
key, an `Append` extends it, and a `Get` reads it. -/

def Op.effect (op : Op) (values : String → Option String) : String → Option String :=
  match op.op with
  | .opGet => values
  | .opPut => Function.update values op.key (some op.value)
  | .opAppend => Function.update values op.key (some ((values op.key).getD "" ++ op.value))

def Op.answer (op : Op) (values : String → Option String) : ClientRequestReply :=
  match op.op, values op.key with
  | .opGet, none => ⟨.noKey, ""⟩
  | .opGet, some value => ⟨.ok, value⟩
  | .opPut, _ | .opAppend, _ => ⟨.ok, ""⟩

/-- The values after the operations, when no key had one before. -/
def valuesAfter (ops : List Op) : String → Option String :=
  ops.foldl (fun values op => op.effect values) fun _ => none

/-- The values of the keys in a store. -/
def values (store : AList fun _ : String => String) (key : String) : Option String :=
  store.lookup key

theorem values_insert (store : AList fun _ : String => String) (key value : String) :
    values (store.insert key value) = Function.update (values store) key (some value) := by
  funext other
  by_cases hother : other = key
  · subst hother
    simp [values]
  · simp [values, AList.lookup_insert_ne hother, Function.update_of_ne hother]

/-- `ApplyToStateMachine` has the effect of the operation. -/
theorem values_applyToStateMachine (store : AList fun _ : String => String) (op : Op) :
    values (applyToStateMachine store op).1 = op.effect (values store) := by
  obtain ⟨kind, key, value, clientId, reqSeq⟩ := op
  cases kind with
  | opGet => rfl
  | opPut => exact values_insert store key value
  | opAppend => exact values_insert store key _

theorem answer_applyToStateMachine (store : AList fun _ : String => String) (op : Op) :
    (applyToStateMachine store op).2 = op.answer (values store) := by
  obtain ⟨kind, key, value, clientId, reqSeq⟩ := op
  cases kind with
  | opGet =>
      simp only [applyToStateMachine, stateMachineGet, Op.answer, values]
      cases store.lookup key <;> rfl
  | opPut => rfl
  | opAppend => rfl

namespace Tables

theorem replay_concat (ops : List Op) (op : Op) :
    replay (ops ++ [op]) = ((replay ops).apply op).1 := by
  simp [replay]

theorem apply_of_seen {tables : Tables} {op : Op} (h : tables.Seen op.clientId op.reqSeq) :
    tables.apply op = (tables, tables.clientLastReqRest.lookup op.clientId) :=
  if_pos h

theorem apply_of_not_seen {tables : Tables} {op : Op}
    (h : ¬ tables.Seen op.clientId op.reqSeq) :
    tables.apply op = (tables.record op, some (applyToStateMachine tables.store op).2) :=
  if_neg h

theorem seen_record {tables : Tables} {op : Op} {clientId reqSeq : Int} :
    (tables.record op).Seen clientId reqSeq ↔
      if clientId = op.clientId then reqSeq ≤ op.reqSeq else tables.Seen clientId reqSeq := by
  unfold Seen Tables.record
  split
  · next hclient =>
      subst hclient
      simp
  · next hclient => simp [AList.lookup_insert_ne hclient]

/-- The table of the largest numbers remembers every operation. -/
theorem seen_replay {ops : List Op} {clientId reqSeq : Int} :
    (replay ops).Seen clientId reqSeq ↔
      ∃ op ∈ ops, op.clientId = clientId ∧ reqSeq ≤ op.reqSeq := by
  induction ops using List.reverseRecOn generalizing clientId reqSeq with
  | nil => simp [replay, Seen]
  | append_singleton ops last ih =>
      rw [replay_concat]
      simp only [List.mem_append, List.mem_singleton, or_and_right, exists_or, exists_eq_left]
      by_cases hseen : (replay ops).Seen last.clientId last.reqSeq
      · rw [apply_of_seen hseen, ih]
        obtain ⟨op, hmem, hclient, hle⟩ := ih.mp hseen
        refine ⟨Or.inl, fun hany => hany.elim id fun hlast => ?_⟩
        exact ⟨op, hmem, hclient.trans hlast.1, Int.le_trans hlast.2 hle⟩
      · rw [apply_of_not_seen hseen, seen_record]
        split
        · next hclient =>
            subst hclient
            refine ⟨fun hle => Or.inr ⟨rfl, hle⟩, fun hany => ?_⟩
            rcases hany with ⟨op, hmem, hclient, hle⟩ | ⟨_, hle⟩
            · by_contra hgt
              exact hseen (ih.mpr ⟨op, hmem, hclient, by omega⟩)
            · exact hle
        · next hclient =>
            rw [ih]
            refine ⟨Or.inl, fun hany => hany.elim id fun hlast => ?_⟩
            exact absurd hlast.1.symm hclient

/-- An operation is answered from the table unless it is fresh. -/
theorem not_seen_replay {ops : List Op} {op : Op} :
    ¬ (replay ops).Seen op.clientId op.reqSeq ↔ Fresh Op.clientId Op.reqSeq ops op := by
  rw [seen_replay]
  refine ⟨fun hnone earlier hmem hclient => ?_, fun hfresh => ?_⟩
  · by_contra hle
    exact hnone ⟨earlier, hmem, hclient, Int.not_lt.mp hle⟩
  · rintro ⟨earlier, hmem, hclient, hle⟩
    exact absurd (hfresh earlier hmem hclient) (Int.not_lt.mpr hle)

theorem replay_concat_of_fresh {ops : List Op} {op : Op}
    (h : Fresh Op.clientId Op.reqSeq ops op) : replay (ops ++ [op]) = (replay ops).record op := by
  rw [replay_concat, apply_of_not_seen (not_seen_replay.mpr h)]

theorem replay_concat_of_not_fresh {ops : List Op} {op : Op}
    (h : ¬ Fresh Op.clientId Op.reqSeq ops op) : replay (ops ++ [op]) = replay ops := by
  rw [replay_concat, apply_of_seen (not_not.mp (not_seen_replay.not.mpr h))]

/-- The store is what the fresh operations make of it. -/
theorem values_replay (ops : List Op) :
    values (replay ops).store = valuesAfter (fresh Op.clientId Op.reqSeq ops) := by
  induction ops using List.reverseRecOn with
  | nil => rfl
  | append_singleton ops last ih =>
      rw [Session.fresh_concat]
      split
      · next hfresh =>
          rw [replay_concat_of_fresh hfresh, valuesAfter, List.foldl_append, ← valuesAfter, ← ih]
          exact values_applyToStateMachine _ last
      · next hstale => rw [replay_concat_of_not_fresh hstale, List.append_nil, ih]

/-- The last reply of a client stays until a request with a larger number is applied. -/
theorem lastReply_replay {past mid : List Op} {op : Op}
    (hfresh : Fresh Op.clientId Op.reqSeq past op)
    (hlatest : ∀ later ∈ mid, later.clientId = op.clientId → later.reqSeq ≤ op.reqSeq) :
    (replay (past ++ op :: mid)).clientLastReqRest.lookup op.clientId =
      some (applyToStateMachine (replay past).store op).2 := by
  induction mid using List.reverseRecOn with
  | nil =>
      rw [replay_concat_of_fresh hfresh]
      exact AList.lookup_insert _
  | append_singleton mid last ih =>
      have ih := ih fun later hmem => hlatest later (List.mem_append_left _ hmem)
      rw [← List.cons_append, ← List.append_assoc]
      by_cases hlast : Fresh Op.clientId Op.reqSeq (past ++ op :: mid) last
      · have hclient : op.clientId ≠ last.clientId := by
          intro hsame
          have hlt := hlast op (by simp) hsame
          have hle := hlatest last (by simp) hsame.symm
          omega
        rw [replay_concat_of_fresh hlast, Tables.record, AList.lookup_insert_ne hclient]
        exact ih
      · rw [replay_concat_of_not_fresh hlast]
        exact ih

end Tables

/-! ## The command branch -/

namespace KVServer

variable {kv after : KVServer}

/-- A command above `lastApplied` is applied, whoever is told about it. -/
theorem applyCommand_later {index : Int} {op : Op} {isLeader : Bool}
    (hrun : kv.applyCommand index (some op) isLeader = .ok after)
    (hlater : kv.lastApplied < index) :
    after.tables = (kv.tables.apply op).1 ∧ after.lastApplied = index ∧
      after.justApplied = some index := by
  unfold applyCommand at hrun
  rw [if_neg (Int.not_le.mpr hlater)] at hrun
  dsimp only at hrun
  split at hrun
  · exact notify_keeps hrun
  · cases hrun
    exact ⟨rfl, rfl, rfl⟩

end KVServer

/-- One pass through the command branch: the operation, the tables before and after it, and
the reply it produces. -/
structure Pass where
  op : Op
  before : Tables
  after : Tables
  reply : Option ClientRequestReply

/-- The passes of a server in order.  Between two of them its handlers may run, which touch
neither the tables nor `lastApplied`. -/
inductive Passes (kv : KVServer) : List Pass → KVServer → Prop where
  | refl : Passes kv [] kv
  | command {past : List Pass} {mid after : KVServer} {index : Int} {op : Op} {isLeader : Bool}
      (before : Passes kv past mid) (later : mid.lastApplied < index)
      (run : mid.applyCommand index (some op) isLeader = .ok after) :
      Passes kv (past ++ [⟨op, mid.tables, after.tables, (mid.tables.apply op).2⟩]) after
  | handlers {past : List Pass} {mid after : KVServer} (before : Passes kv past mid)
      (tables : after.tables = mid.tables) (applied : after.lastApplied = mid.lastApplied) :
      Passes kv past after

theorem Passes.replay {passes : List Pass} {kv : KVServer} (h : Passes {} passes kv) :
    kv.tables = Tables.replay (passes.map Pass.op) := by
  induction h with
  | refl => rfl
  | command before later run ih =>
      rw [(KVServer.applyCommand_later run later).1, ih, List.map_append, List.map_singleton,
        Tables.replay_concat]
  | handlers before tables applied ih => exact tables.trans ih

/-- Each pass applies its operation to what the earlier ones have left. -/
theorem Passes.pass {passes : List Pass} {kv : KVServer} (h : Passes {} passes kv)
    {past rest : List Pass} {pass : Pass} (hsplit : passes = past ++ pass :: rest) :
    pass.before = Tables.replay (past.map Pass.op) ∧
      (pass.after, pass.reply) = pass.before.apply pass.op := by
  induction h generalizing rest with
  | refl => simp at hsplit
  | command before later run ih =>
      cases rest using List.reverseRecOn with
      | nil =>
          obtain ⟨rfl, hpass⟩ := List.append_inj' hsplit rfl
          obtain rfl := List.singleton_inj.mp hpass
          refine ⟨before.replay, ?_⟩
          rw [(KVServer.applyCommand_later run later).1]
      | append_singleton rest last =>
          rw [← List.cons_append, ← List.append_assoc] at hsplit
          exact ih (List.append_inj' hsplit rfl).1
  | handlers before tables applied ih => exact ih hsplit

/-- The operations that take effect are those whose number is larger than every earlier number
of their client; the store is what they make of it; each request is among them once if the
clients number their requests upwards; and a repeat of the latest request of a client
produces the reply of its first application. -/
theorem exactly_once {passes : List Pass} {kv : KVServer} (h : Passes {} passes kv) :
    (∀ past pass rest, passes = past ++ pass :: rest →
      (Fresh Op.clientId Op.reqSeq (past.map Pass.op) pass.op →
        values pass.after.store = pass.op.effect (values pass.before.store) ∧
        pass.reply = some (pass.op.answer (values pass.before.store))) ∧
      (¬ Fresh Op.clientId Op.reqSeq (past.map Pass.op) pass.op →
        pass.after.store = pass.before.store)) ∧
    values kv.tables.store = valuesAfter (fresh Op.clientId Op.reqSeq (passes.map Pass.op)) ∧
    (FirstsRise Op.clientId Op.reqSeq (passes.map Pass.op) → ∀ pass ∈ passes,
      ((fresh Op.clientId Op.reqSeq (passes.map Pass.op)).map (key Op.clientId Op.reqSeq)).count
        (pass.op.clientId, pass.op.reqSeq) = 1) ∧
    ∀ past first mid again rest, passes = past ++ first :: mid ++ again :: rest →
      Fresh Op.clientId Op.reqSeq (past.map Pass.op) first.op →
      again.op.clientId = first.op.clientId → again.op.reqSeq = first.op.reqSeq →
      (∀ pass ∈ mid, pass.op.clientId = first.op.clientId →
        pass.op.reqSeq ≤ first.op.reqSeq) →
      again.reply = first.reply := by
  refine ⟨fun past pass rest hsplit => ?_, ?_, fun hrise pass hmem => ?_, ?_⟩
  · obtain ⟨hbefore, hpass⟩ := h.pass hsplit
    refine ⟨fun hfresh => ?_, fun hstale => ?_⟩
    · rw [← Tables.not_seen_replay, ← hbefore] at hfresh
      rw [Tables.apply_of_not_seen hfresh] at hpass
      obtain ⟨hafter, hreply⟩ := Prod.mk.inj hpass
      rw [hafter, hreply, answer_applyToStateMachine]
      exact ⟨values_applyToStateMachine _ pass.op, rfl⟩
    · rw [← Tables.not_seen_replay, not_not, ← hbefore] at hstale
      rw [Tables.apply_of_seen hstale] at hpass
      exact congrArg Tables.store (Prod.mk.inj hpass).1
  · rw [h.replay]
    exact Tables.values_replay _
  · exact Session.count_fresh_of_firstsRise hrise (List.mem_map_of_mem hmem)
  · intro past first mid again rest hsplit hfresh hclient hnumber hlatest
    obtain ⟨hbefore, hpass⟩ := h.pass hsplit
    rw [List.append_assoc, List.cons_append] at hsplit
    obtain ⟨hbefore', hpass'⟩ := h.pass hsplit
    have hseen : again.before.Seen again.op.clientId again.op.reqSeq := by
      rw [hbefore, Tables.seen_replay]
      exact ⟨first.op, by simp, hclient.symm, Int.le_of_eq hnumber⟩
    rw [Tables.apply_of_seen hseen] at hpass
    rw [Tables.apply_of_not_seen (hbefore' ▸ Tables.not_seen_replay.mpr hfresh)] at hpass'
    rw [(Prod.mk.inj hpass).2, (Prod.mk.inj hpass').2, hbefore, hbefore', hclient, List.map_append,
      List.map_cons]
    refine Tables.lastReply_replay hfresh fun later hlater hsame => ?_
    obtain ⟨pass, hmem, rfl⟩ := List.mem_map.mp hlater
    exact hlatest pass hmem hsame

def appendA : Op :=
  ⟨.opAppend, "x", "a", 1, 0⟩

def appendB : Op :=
  ⟨.opAppend, "x", "b", 2, 0⟩

/-- The repeat of an append leaves the store alone and produces the first reply. -/
theorem exactly_once_repeated_append : ∃ first second third kv,
    Passes {} [first, second, third] kv ∧
    [first, second, third].map Pass.op = [appendA, appendB, appendA] ∧
    values kv.tables.store = valuesAfter [appendA, appendB] ∧
    values kv.tables.store "x" = some "ab" ∧ third.reply = first.reply := by
  have hfirst : ({} : KVServer).applyCommand 1 (some appendA) false = .ok _ := rfl
  have hpassed := Passes.command .refl (by decide) hfirst
  have hsecond := Passes.command hpassed (by decide)
    (rfl : KVServer.applyCommand _ 2 (some appendB) false = .ok _)
  have hthird := Passes.command hsecond (by decide)
    (rfl : KVServer.applyCommand _ 3 (some appendA) false = .ok _)
  obtain ⟨_, hstore, _, hrepeat⟩ := exactly_once hthird
  exact ⟨_, _, _, _, hthird, rfl, hstore, (congrFun hstore "x").trans (by decide),
    hrepeat [] _ [_] _ [] rfl (fun _ hmem => by cases hmem) rfl rfl (by decide)⟩

/-! ## Snapshots and restarts -/

/-- A server, the index of the last message it was fed, and its latest snapshot with the
index it was taken at. -/
structure Replica where
  kv : KVServer := {}
  index : Nat := 0
  latest : Nat × Bytes := (0, [])

/-- Servers that are fed one committed log, and every snapshot one of them has taken. -/
structure Fleet (ι : Type) where
  replicas : ι → Replica := fun _ => {}
  taken : List (Nat × Bytes) := []

section Fleet

variable {ι : Type} [DecidableEq ι]

def Fleet.setReplica (s : Fleet ι) (p : ι) (replica : Replica) : Fleet ι :=
  { s with replicas := Function.update s.replicas p replica }

/-- What can happen to one of the servers: it gets the next command, or a snapshot that is not
behind it; it takes a snapshot at the command just applied; it is started again from its latest
snapshot; or its handlers run. -/
inductive Feeds (codec : Codec) (log : List Op) (s : Fleet ι) : Fleet ι → Prop where
  | command {p : ι} {op : Op} {isLeader : Bool} {after : KVServer}
      (next : log[(s.replicas p).index]? = some op)
      (run : (s.replicas p).kv.applyMsg codec
        { commandValid := true, command := some op, commandIndex := (s.replicas p).index + 1 }
        isLeader = .ok after) :
      Feeds codec log s (s.setReplica p
        { s.replicas p with kv := after, index := (s.replicas p).index + 1 })
  | snapshot {p : ι} {j : Nat} {bytes : Bytes} {term : Int} {isLeader : Bool} {after : KVServer}
      (made : (j, bytes) ∈ s.taken) (ahead : (s.replicas p).index ≤ j)
      (run : (s.replicas p).kv.applyMsg codec
        { snapshotValid := true, snapshot := bytes, snapshotIndex := j, snapshotTerm := term }
        isLeader = .ok after) :
      Feeds codec log s (s.setReplica p ⟨after, j, (j, bytes)⟩)
  | takeSnapShot {p : ι} {j : Nat} {bytes : Bytes}
      (applied : (s.replicas p).kv.justApplied = some (j : Int))
      (encoded : codec.encode (s.replicas p).kv.tables = some bytes) :
      Feeds codec log s { s.setReplica p
        { s.replicas p with
          kv := { (s.replicas p).kv with justApplied := none }
          latest := (j, bytes) } with taken := s.taken ++ [(j, bytes)] }
  | restart {p : ι} :
      Feeds codec log s (s.setReplica p
        { s.replicas p with
          kv := startKVServer codec (s.replicas p).latest.2
          index := (s.replicas p).latest.1 })
  | handlers {p : ι} {after : KVServer} (tables : after.tables = (s.replicas p).kv.tables)
      (applied : after.lastApplied = (s.replicas p).kv.lastApplied)
      (just : after.justApplied = (s.replicas p).kv.justApplied) :
      Feeds codec log s (s.setReplica p { s.replicas p with kv := after })

/-- The snapshot stands for the commands up to its index. -/
structure Stands (codec : Codec) (log : List Op) (snapshot : Nat × Bytes) : Prop where
  le : snapshot.1 ≤ log.length
  nonempty : snapshot.2 ≠ []
  tables : codec.decode snapshot.2 = Tables.replay (log.take snapshot.1)

/-- The server has applied the commands up to its index, and none above it. -/
structure Follows (codec : Codec) (log : List Op) (replica : Replica) : Prop where
  le : replica.index ≤ log.length
  tables : replica.kv.tables = Tables.replay (log.take replica.index)
  applied : replica.kv.lastApplied ≤ replica.index
  just : ∀ j, replica.kv.justApplied = some j → j = replica.index
  latest : replica.latest = (0, []) ∨ Stands codec log replica.latest

variable {codec : Codec} {log : List Op} {replica : Replica}

theorem Follows.empty : Follows codec log {} := by
  refine ⟨Nat.zero_le _, rfl, ?_, fun _ hjust => (by cases hjust), Or.inl rfl⟩
  show (-1 : Int) ≤ 0
  decide

/-- The guard on `lastApplied` lets the next command through. -/
theorem Follows.command (h : Follows codec log replica) {op : Op} {isLeader : Bool}
    {after : KVServer} (hnext : log[replica.index]? = some op)
    (hrun : replica.kv.applyMsg codec
      { commandValid := true, command := some op, commandIndex := replica.index + 1 }
      isLeader = .ok after) :
    Follows codec log { replica with kv := after, index := replica.index + 1 } := by
  obtain ⟨hlt, hop⟩ := List.getElem?_eq_some_iff.mp hnext
  have happly : KVServer.applyCommand
      { replica.kv with consumed := replica.kv.consumed + 1, justApplied := none }
      (replica.index + 1) (some op) isLeader = .ok after := hrun
  obtain ⟨htables, happlied, hjust⟩ :=
    KVServer.applyCommand_later happly (Int.lt_add_one_of_le h.applied)
  refine ⟨hlt, ?_, Int.le_of_eq happlied, ?_, h.latest⟩
  · rw [htables, List.take_add_one, hnext, Option.toList_some, Tables.replay_concat]
    exact congrArg (fun tables => (Tables.apply tables op).1) h.tables
  · intro j hj
    exact Option.some.inj (hj.symm.trans hjust)

/-- A restored snapshot does not move `lastApplied`, which stays below the new index. -/
theorem Follows.snapshot (h : Follows codec log replica) {j : Nat} {bytes : Bytes} {term : Int}
    {isLeader : Bool} {after : KVServer} (hstands : Stands codec log (j, bytes))
    (hahead : replica.index ≤ j)
    (hrun : replica.kv.applyMsg codec
      { snapshotValid := true, snapshot := bytes, snapshotIndex := j, snapshotTerm := term }
      isLeader = .ok after) :
    Follows codec log ⟨after, j, (j, bytes)⟩ := by
  have hrestored : after = KVServer.restoreSnapShot codec
      { replica.kv with consumed := replica.kv.consumed + 1, justApplied := none } bytes := by
    cases hrun
    rfl
  rw [KVServer.restoreSnapShot, if_neg hstands.nonempty] at hrestored
  subst hrestored
  refine ⟨hstands.le, hstands.tables, ?_, fun _ hnone => (by cases hnone), Or.inr hstands⟩
  exact Int.le_trans h.applied (Int.ofNat_le.mpr hahead)

theorem Follows.stands (h : Follows codec log replica) {j : Nat} {bytes : Bytes}
    (happlied : replica.kv.justApplied = some (j : Int))
    (hencoded : codec.encode replica.kv.tables = some bytes) : Stands codec log (j, bytes) := by
  obtain rfl : j = replica.index := Int.ofNat.inj (h.just j happlied)
  exact ⟨h.le, codec.encode_ne_nil hencoded, (codec.decode_encode hencoded).trans h.tables⟩

/-- A server starts with the tables of its latest snapshot, or with empty ones. -/
theorem Follows.restart (h : Follows codec log replica) :
    Follows codec log { replica with
      kv := startKVServer codec replica.latest.2
      index := replica.latest.1 } := by
  rcases h.latest with hnone | hstands
  · obtain ⟨kv, index, latest⟩ := replica
    cases hnone
    exact Follows.empty
  · have hstarted : startKVServer codec replica.latest.2 =
        { tables := codec.decode replica.latest.2 } := by
      rw [startKVServer, KVServer.restoreSnapShot, if_neg hstands.nonempty]
    rw [hstarted]
    refine ⟨hstands.le, hstands.tables, ?_, fun _ hnone => (by cases hnone), Or.inr hstands⟩
    show (-1 : Int) ≤ replica.latest.1
    omega

/-- Every server follows the log, and every snapshot stands for a part of it. -/
structure Fleet.Valid (codec : Codec) (log : List Op) (s : Fleet ι) : Prop where
  follows : ∀ p, Follows codec log (s.replicas p)
  stands : ∀ snapshot ∈ s.taken, Stands codec log snapshot

variable {s s' : Fleet ι}

theorem Fleet.Valid.setReplica (h : s.Valid codec log) (p : ι) {replica : Replica}
    (hreplica : Follows codec log replica) : (s.setReplica p replica).Valid codec log := by
  refine ⟨fun q => ?_, h.stands⟩
  simp only [Fleet.setReplica]
  by_cases hq : q = p
  · subst hq
    rw [Function.update_self]
    exact hreplica
  · rw [Function.update_of_ne hq]
    exact h.follows q

theorem Fleet.Valid.feeds (h : s.Valid codec log) (hstep : Feeds codec log s s') :
    s'.Valid codec log := by
  cases hstep with
  | @command p op isLeader after next run =>
      exact h.setReplica p ((h.follows p).command next run)
  | @snapshot p j bytes term isLeader after made ahead run =>
      exact h.setReplica p ((h.follows p).snapshot (h.stands _ made) ahead run)
  | @takeSnapShot p j bytes applied encoded =>
      have hfollows := h.follows p
      have hstands := hfollows.stands applied encoded
      have hreplica : Follows codec log { s.replicas p with
          kv := { (s.replicas p).kv with justApplied := none }
          latest := (j, bytes) } :=
        ⟨hfollows.le, hfollows.tables, hfollows.applied, fun _ hnone => (by cases hnone),
          Or.inr hstands⟩
      refine ⟨(h.setReplica p hreplica).follows, fun snapshot hmem => ?_⟩
      rcases List.mem_append.mp hmem with hold | hnew
      · exact h.stands snapshot hold
      · rw [List.mem_singleton.mp hnew]
        exact hstands
  | @restart p => exact h.setReplica p (h.follows p).restart
  | @handlers p after tables applied just =>
      have hfollows := h.follows p
      refine h.setReplica p ⟨hfollows.le, tables.trans hfollows.tables, ?_, ?_, hfollows.latest⟩
      · exact applied ▸ hfollows.applied
      · intro j hj
        exact hfollows.just j (just ▸ hj)

/-- However a server came to its index, by commands, by snapshots of any servers or by
restarts, it has the tables that the commands up to this index make of empty ones. -/
theorem replay_equals_restore (h : Relation.ReflTransGen (Feeds codec log) ({} : Fleet ι) s)
    (p : ι) : (s.replicas p).kv.tables = Tables.replay (log.take (s.replicas p).index) := by
  have hvalid : s.Valid codec log := by
    induction h with
    | refl => exact ⟨fun _ => Follows.empty, fun _ hmem => by cases hmem⟩
    | tail _ last ih => exact ih.feeds last
  exact (hvalid.follows p).tables

/-- One server applies a command and takes a snapshot; the other one is given the snapshot and
started again from it. -/
theorem replay_equals_restore_after_restart : ∃ s : Fleet Bool,
    Relation.ReflTransGen (Feeds Codec.unary [appendA]) {} s ∧ (s.replicas false).index = 1 ∧
    (s.replicas false).kv.tables = Tables.replay [appendA] := by
  obtain ⟨s₁, hcommand, happlied, hother⟩ : ∃ s₁ : Fleet Bool, Feeds Codec.unary [appendA] {} s₁ ∧
      (s₁.replicas true).kv.justApplied = some ((1 : Nat) : Int) ∧ s₁.replicas false = {} :=
    ⟨_, .command (p := true) rfl (rfl : KVServer.applyMsg Codec.unary {} _ false = .ok _), rfl, rfl⟩
  obtain ⟨s₂, bytes, htake, hmade, hother₂⟩ : ∃ (s₂ : Fleet Bool) (bytes : Bytes),
      Feeds Codec.unary [appendA] s₁ s₂ ∧ (1, bytes) ∈ s₂.taken ∧ s₂.replicas false = {} :=
    ⟨_, _, .takeSnapShot happlied rfl, List.mem_append_right _ (List.mem_singleton.mpr rfl), hother⟩
  have hrestored : (s₂.replicas false).kv.applyMsg Codec.unary
      { snapshotValid := true, snapshot := bytes, snapshotIndex := (1 : Nat), snapshotTerm := 1 }
      false = .ok _ := rfl
  obtain ⟨s₃, hsnapshot, hlatest⟩ : ∃ s₃ : Fleet Bool, Feeds Codec.unary [appendA] s₂ s₃ ∧
      (s₃.replicas false).latest.1 = 1 :=
    ⟨_, .snapshot hmade (by rw [hother₂]; exact Nat.zero_le 1) hrestored, rfl⟩
  obtain ⟨s₄, hrestart, hindex⟩ : ∃ s₄ : Fleet Bool, Feeds Codec.unary [appendA] s₃ s₄ ∧
      (s₄.replicas false).index = 1 :=
    ⟨_, .restart (p := false), hlatest⟩
  have hrun : Relation.ReflTransGen (Feeds Codec.unary [appendA]) {} s₄ :=
    ((Relation.ReflTransGen.single hcommand).tail htake |>.tail hsnapshot).tail hrestart
  have htables := replay_equals_restore hrun false
  rw [hindex] at htables
  exact ⟨s₄, hrun, hindex, htables⟩

end Fleet

end DistributedLabs.KvRaft
