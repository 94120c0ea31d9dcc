import DistributedLabs.KvRaft.Effects
import DistributedLabs.KvRaft.Turns

/-!
# The apply loop never waits for a handler

`ApplyTicket` puts a reply on a channel of capacity one while it holds `kv.mu`.  A server
is run on its own here, with whatever messages Raft may hand it, whatever `GetState` may
say, and handlers that ask for, read and remove channels at any time.  A reply is only
ever put on a channel of an index that is not above `lastApplied`, and the next one is for
an index above it.
-/

namespace DistributedLabs.KvRaft

open DistributedLabs.Library

/-! ## One server and its handlers -/

inductive ServerAction where
  /-- `ApplyTicket` takes a message, and is told whether the server leads. -/
  | applyMsg (msg : ApplyMsg Op) (isLeader : Bool)
  /-- The end of the turn of `ApplyTicket`. -/
  | takeSnapShot
  /-- A handler asks for the channel of the index that `Start` gave it. -/
  | getNotifyChannel (index : Int)
  /-- A handler that waits for `index` takes what is on the channel. -/
  | receive (index : Int) (channel : Nat)
  | timeOut (index : Int)
  /-- A goroutine that a handler has left behind removes its index. -/
  | remove (j : Nat)

namespace KVServer

def step (codec : Codec) (kv : KVServer) : ServerAction → Outcome KVServer
  | .applyMsg msg isLeader => kv.applyMsg codec msg isLeader
  | .takeSnapShot => .ok { kv with justApplied := none }
  | .getNotifyChannel index => .ok (kv.getNotifyChannel index).1
  | .receive index channel => (kv.receive channel).map fun (after, _) => after.scheduleRemoval index
  | .timeOut index => .ok (kv.scheduleRemoval index)
  | .remove j =>
      match kv.removals[j]? with
      | some index =>
          .ok ({ kv with removals := kv.removals.eraseIdx j }.removeNotifyChannel index)
      | none => .blocked

/-- Whatever lies on a channel was put there for an index up to the bound. -/
def ToldUpTo (bound : Int) (kv : KVServer) : Prop :=
  kv.Wired fun index _ => index ≤ bound

section

variable {bound : Int} {kv : KVServer}

/-- The channel of an index above the bound is empty. -/
theorem ToldUpTo.empty (h : kv.ToldUpTo bound) {index : Int} (hlater : bound < index) :
    (kv.getNotifyChannel index).1.channels[(kv.getNotifyChannel index).2]? =
      some ⟨index, none⟩ := by
  obtain ⟨hwired, _, hnames⟩ :=
    Wired.getNotifyChannel h (rfl : kv.getNotifyChannel index = (_, _))
  unfold Names at hnames
  rw [List.getElem?_map] at hnames
  obtain ⟨⟨found, content⟩, hfound, rfl⟩ := Option.map_eq_some_iff.mp hnames
  cases content with
  | none => exact hfound
  | some reply =>
      have hle := hwired.contents _ (List.mem_of_getElem? hfound) reply rfl
      exact absurd hlater (Int.not_lt.mpr hle)

theorem ToldUpTo.notify_ne_blocked (h : kv.ToldUpTo bound) {index : Int} (hlater : bound < index)
    (reply : Option ClientRequestReply) : kv.notify index reply ≠ .blocked := by
  intro hblocked
  unfold notify at hblocked
  dsimp only at hblocked
  rw [h.empty hlater] at hblocked
  cases hblocked

end

/-! ## What the steps keep -/

/-- Replies were only left for indexes that have been applied. -/
def Told (kv : KVServer) : Prop :=
  kv.ToldUpTo kv.lastApplied

variable {codec : Codec} {kv after : KVServer}

theorem Told.congr (h : kv.Told) (hmap : after.notifyChannel = kv.notifyChannel)
    (hchannels : after.channels = kv.channels) (hle : kv.lastApplied ≤ after.lastApplied) :
    after.Told :=
  (Wired.congr h hmap hchannels).imp fun _ _ hindex => hindex.trans hle

theorem Told.getNotifyChannel (h : kv.Told) (index : Int) :
    (kv.getNotifyChannel index).1.Told := by
  have hwired := (Wired.getNotifyChannel h (rfl : kv.getNotifyChannel index = (_, _))).1
  exact hwired.imp fun _ _ hle => (getNotifyChannel_lastApplied kv index).symm ▸ hle

theorem Told.receive (h : kv.Told) {channel : Nat} {reply : ClientRequestReply}
    (hrun : kv.receive channel = .ok (after, reply)) : after.Told := by
  unfold KVServer.receive at hrun
  split at hrun
  · next index content hfound =>
      cases hrun
      have hnames : kv.Names channel index := by
        simp [Names, hfound]
      exact Wired.setContent h hnames fun _ hnone => (by cases hnone)
  · cases hrun
  · cases hrun

theorem Told.applyMsg (h : kv.Told) {msg : ApplyMsg Op} {isLeader : Bool}
    (hrun : kv.applyMsg codec msg isLeader = .ok after) : after.Told := by
  rcases applyMsg_cases hrun with
    ⟨op, applied, _, _, hlater, _, hmap, hchannels, hlast, hafter⟩ | ⟨hmap, hchannels, hlast, _⟩
  · have htold : applied.Told := h.congr hmap hchannels (hlast ▸ hlater.le)
    rcases hafter with rfl | ⟨_, hnotify⟩
    · exact htold
    · have hwired := (Wired.notify htold (Int.le_of_eq hlast.symm) hnotify).1
      rw [← (notify_keeps hnotify).2.1] at hwired
      exact hwired
  · exact h.congr hmap hchannels hlast.ge

theorem Told.step (h : kv.Told) {action : ServerAction} (hrun : kv.step codec action = .ok after) :
    after.Told := by
  cases action with
  | applyMsg msg isLeader => exact h.applyMsg hrun
  | takeSnapShot =>
      cases hrun
      exact h.congr rfl rfl le_rfl
  | getNotifyChannel index =>
      cases hrun
      exact h.getNotifyChannel index
  | receive index channel =>
      obtain ⟨⟨taken, reply⟩, htaken, rfl⟩ := Outcome.map_eq_ok.mp hrun
      exact (h.receive htaken).congr rfl rfl le_rfl
  | timeOut index =>
      cases hrun
      exact h.congr rfl rfl le_rfl
  | remove j =>
      simp only [KVServer.step] at hrun
      split at hrun
      · next index _ =>
          cases hrun
          have hleft : Told { kv with removals := kv.removals.eraseIdx j } := h.congr rfl rfl le_rfl
          exact Wired.removeNotifyChannel hleft index
      · cases hrun

theorem told_of_reaches {bytes : Bytes}
    (hreach : Reaches (KVServer.step codec) (startKVServer codec bytes) kv) : kv.Told :=
  hreach.invariant (wired_startKVServer codec bytes) fun htold hstep => htold.step hstep

/-- `ApplyTicket` waits only where it notifies. -/
theorem applyMsg_blocked {msg : ApplyMsg Op} {isLeader : Bool}
    (h : kv.applyMsg codec msg isLeader = .blocked) :
    ∃ (applied : KVServer) (reply : Option ClientRequestReply),
      kv.lastApplied < msg.commandIndex ∧ applied.notifyChannel = kv.notifyChannel ∧
        applied.channels = kv.channels ∧ applied.notify msg.commandIndex reply = .blocked := by
  unfold applyMsg at h
  dsimp only at h
  split at h
  · unfold applyCommand at h
    split at h
    · cases h
    · next hlater =>
        split at h
        · cases h
        · dsimp only at h
          split at h
          · refine ⟨_, _, Int.not_le.mp hlater, ?_, ?_, h⟩
            all_goals rfl
          · cases h
  · split at h
    · cases h
    · cases h

theorem Told.applyMsg_ne_blocked (h : kv.Told) (msg : ApplyMsg Op) (isLeader : Bool) :
    kv.applyMsg codec msg isLeader ≠ .blocked := by
  intro hblocked
  obtain ⟨applied, reply, hlater, hmap, hchannels, hnotify⟩ := applyMsg_blocked hblocked
  have htold : applied.ToldUpTo kv.lastApplied := Wired.congr h hmap hchannels
  exact htold.notify_ne_blocked hlater reply hnotify

/-- Every turn of `ApplyTicket` comes to its end, and the channel on which it would put a
reply is empty. -/
theorem notify_never_blocks {bytes : Bytes}
    (hreach : Reaches (KVServer.step codec) (startKVServer codec bytes) kv) (msg : ApplyMsg Op)
    (isLeader : Bool) :
    kv.applyMsg codec msg isLeader ≠ .blocked ∧
      (kv.lastApplied < msg.commandIndex →
        (kv.getNotifyChannel msg.commandIndex).1.channels[
            (kv.getNotifyChannel msg.commandIndex).2]? = some ⟨msg.commandIndex, none⟩) := by
  have htold := told_of_reaches hreach
  exact ⟨htold.applyMsg_ne_blocked msg isLeader, fun hlater => htold.empty hlater⟩

/-- `Put(x, v)` of client 1 as the command at `index`. -/
def putMsg (index reqSeq : Int) (value : String) : ApplyMsg Op where
  commandValid := true
  command := some ⟨.opPut, "x", value, 1, reqSeq⟩
  commandIndex := index

/-- Index 1 is applied after its handler gave up, another handler asks for it again, and
Raft hands it over a second time. -/
def leftUnread : List ServerAction :=
  [.getNotifyChannel 1, .timeOut 1, .applyMsg (putMsg 1 1 "a") true, .remove 0,
    .getNotifyChannel 1, .applyMsg (putMsg 1 1 "a") true]

theorem notify_never_blocks_leftUnread : ∃ kv,
    Runs (KVServer.step .unary) (startKVServer .unary []) leftUnread kv ∧
      kv.channels = [⟨1, some (some { err := .ok })⟩, ⟨1, none⟩] ∧
      kv.applyMsg .unary (putMsg 2 2 "b") true ≠ .blocked ∧
      (kv.getNotifyChannel 2).1.channels[(kv.getNotifyChannel 2).2]? = some ⟨2, none⟩ := by
  have hchecked : RunHolds (KVServer.step .unary) leftUnread (startKVServer .unary []) fun kv =>
      kv.lastApplied = 1 ∧ kv.channels = [⟨1, some (some { err := .ok })⟩, ⟨1, none⟩] := by
    decide +kernel
  obtain ⟨kv, hrun, hlast, hchannels⟩ := hchecked.exists_runs
  obtain ⟨hblocked, hempty⟩ := notify_never_blocks hrun.reaches (putMsg 2 2 "b") true
  refine ⟨kv, hrun, hchannels, hblocked, hempty ?_⟩
  rw [hlast]
  decide

end KVServer

/-! ## The servers of the system -/

namespace System

variable {n : Nat} {codec : Codec} {s s' : System n} {action : SystemAction n}

/-- A handler of the system is one of the handlers of a server that is run on its own. -/
theorem HandlerTurn.server_reaches {call call' : Call n} {kv : KVServer} {raft : Cluster n Op}
    (turn : HandlerTurn s call call' kv raft) :
    Reaches (KVServer.step codec) (s.servers call.server) kv := by
  cases turn with
  | duplicate sent seen => exact .refl
  | checked sent => exact .refl
  | refused alive run => exact .refl
  | started alive run => exact .refl
  | await alive started run =>
      exact .single ⟨.getNotifyChannel _, congrArg Outcome.ok (congrArg Prod.fst run)⟩
  | @receive index term channel after reply alive waiting run =>
      exact .single ⟨.receive index channel, Outcome.map_eq_ok.mpr ⟨_, run, rfl⟩⟩
  | @timeOut index term channel alive waiting => exact .single ⟨.timeOut index, rfl⟩

/-- A server goes on, or it is started again from a snapshot. -/
def GoesOn (codec : Codec) (kv kv' : KVServer) : Prop :=
  Reaches (KVServer.step codec) kv kv' ∨ ∃ bytes, kv' = startKVServer codec bytes

theorem goesOn_update {servers : Fin n → KVServer} {q : Fin n} {kv : KVServer}
    (h : GoesOn codec (servers q) kv) (p : Fin n) :
    GoesOn codec (servers p) (Function.update servers q kv p) := by
  by_cases hp : p = q
  · subst hp
    rw [Function.update_self]
    exact h
  · rw [Function.update_of_ne hp]
    exact Or.inl .refl

theorem ServerTurn.goesOn {p : Fin n} {kv : KVServer} {raft : Cluster n Op}
    {applied : List (Applied n)} (turn : ServerTurn codec s p action kv raft applied) :
    GoesOn codec (s.servers p) kv := by
  cases turn with
  | @remove j index found =>
      refine Or.inl (.single ⟨.remove j, ?_⟩)
      simp only [KVServer.step, found]
  | apply next run => exact Or.inl (.single ⟨.applyMsg _ _, run⟩)
  | takeSnapShot encoded run => exact Or.inl (.single ⟨.takeSnapShot, rfl⟩)
  | skipSnapShot => exact Or.inl (.single ⟨.takeSnapShot, rfl⟩)
  | crash run => exact Or.inr ⟨_, rfl⟩

theorem Turn.goesOn (turn : Turn codec s action s') (p : Fin n) :
    GoesOn codec (s.servers p) (s'.servers p) := by
  cases turn with
  | raft internal run => exact Or.inl .refl
  | send serves seq pending => exact Or.inl .refl
  | returned served seq pending => exact Or.inl .refl
  | handler found turn => exact goesOn_update (Or.inl turn.server_reaches) p
  | server turn => exact goesOn_update turn.goesOn p

/-- Since it was last started, each server of the system has run as a server on its own. -/
theorem server_of_reaches (hreach : Reaches (step codec) initial s) (p : Fin n) :
    ∃ bytes, Reaches (KVServer.step codec) (startKVServer codec bytes) (s.servers p) := by
  have hstart : startKVServer codec [] = {} := by
    unfold startKVServer KVServer.restoreSnapShot
    exact if_pos rfl
  refine hreach.invariant (P := fun t => ∃ bytes,
    Reaches (KVServer.step codec) (startKVServer codec bytes) (t.servers p)) ⟨[], ?_⟩ ?_
  · rw [hstart]
    exact .refl
  intro t action t' ⟨bytes, hserver⟩ hstep
  rcases (step_turn hstep).goesOn p with hgoes | ⟨bytes', hstarted⟩
  · exact ⟨bytes, hserver.trans hgoes⟩
  · rw [hstarted]
    exact ⟨bytes', .refl⟩

/-- In the system too, `ApplyTicket` waits only for the next message. -/
theorem apply_ne_blocked (hreach : Reaches (step codec) initial s) {p : Fin n}
    {msg : ApplyMsg Op} (hnext : s.nextMsg p = some msg) : s.apply codec p ≠ .blocked := by
  obtain ⟨bytes, hserver⟩ := server_of_reaches hreach p
  intro hblocked
  simp only [apply, hnext, Outcome.map_eq_blocked] at hblocked
  exact (KVServer.told_of_reaches hserver).applyMsg_ne_blocked _ _ hblocked

end System

end DistributedLabs.KvRaft
