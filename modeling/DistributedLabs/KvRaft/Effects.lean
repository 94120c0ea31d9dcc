import DistributedLabs.KvRaft.System

/-!
# What the functions of a server keep

The tables of a server only hold replies that were computed when an operation was
carried out.  A notify channel is reached only under the index it was made for, and
what lies on it was put there for that index.
-/

namespace DistributedLabs.KvRaft

open DistributedLabs.Library

variable {n : Nat}

/-! ## Tables -/

/-- The tables hold the last operation of each client and the reply computed for it. -/
def Known (applied : List (Applied n)) (tables : Tables) : Prop :=
  ∀ clientId maxReq, tables.clientMaxReq.lookup clientId = some maxReq →
    ∃ e ∈ applied, e.op.clientId = clientId ∧ e.op.reqSeq = maxReq ∧
      tables.clientLastReqRest.lookup clientId = some e.reply

/-- The reply was computed for this operation or a later one of the client. -/
def Answers (applied : List (Applied n)) (op : Op) (reply : ClientRequestReply) : Prop :=
  ∃ e ∈ applied, e.op.clientId = op.clientId ∧ op.reqSeq ≤ e.op.reqSeq ∧ e.reply = reply

section Tables

variable {applied applied' : List (Applied n)} {tables : Tables}

theorem Answers.mono {op : Op} {reply : ClientRequestReply} (h : Answers applied op reply)
    (hsub : applied ⊆ applied') : Answers applied' op reply := by
  obtain ⟨e, hmem, hrest⟩ := h
  exact ⟨e, hsub hmem, hrest⟩

theorem Known.mono (h : Known applied tables) (hsub : applied ⊆ applied') :
    Known applied' tables := by
  intro clientId maxReq hmax
  obtain ⟨e, hmem, hrest⟩ := h clientId maxReq hmax
  exact ⟨e, hsub hmem, hrest⟩

theorem Known.empty : Known applied {} := by
  intro clientId maxReq hmax
  rw [AList.lookup_empty] at hmax
  cases hmax

theorem Known.seen (h : Known applied tables) {op : Op}
    (hseen : tables.Seen op.clientId op.reqSeq) :
    ∃ reply, tables.clientLastReqRest.lookup op.clientId = some reply ∧
      Answers applied op reply := by
  obtain ⟨maxReq, hmax, hle⟩ := hseen
  obtain ⟨e, hmem, hclient, rfl, hreply⟩ := h op.clientId maxReq hmax
  exact ⟨e.reply, hreply, e, hmem, hclient, hle, rfl⟩

theorem Known.record (h : Known applied tables) {e : Applied n} (hmem : e ∈ applied)
    (hreply : e.reply = (applyToStateMachine tables.store e.op).2) :
    Known applied (tables.record e.op) := by
  intro clientId maxReq hmax
  by_cases hclient : clientId = e.op.clientId
  · subst hclient
    rw [Tables.record, AList.lookup_insert] at hmax
    refine ⟨e, hmem, rfl, Option.some.inj hmax, ?_⟩
    rw [Tables.record, AList.lookup_insert, hreply]
  · rw [Tables.record, AList.lookup_insert_ne hclient] at hmax
    rw [Tables.record, AList.lookup_insert_ne hclient]
    exact h clientId maxReq hmax

/-- Applying an operation answers it, from the tables or by carrying it out. -/
theorem Known.apply (h : Known applied tables) {op : Op}
    (hnew : ¬ tables.Seen op.clientId op.reqSeq → ∃ e ∈ applied, e.op = op ∧
      e.reply = (applyToStateMachine tables.store op).2) :
    Known applied (tables.apply op).1 ∧
      ∃ reply, (tables.apply op).2 = some reply ∧ Answers applied op reply := by
  unfold Tables.apply
  split
  · next hseen => exact ⟨h, h.seen hseen⟩
  · next hunseen =>
      obtain ⟨e, hmem, rfl, hreply⟩ := hnew hunseen
      exact ⟨h.record hmem hreply, _, rfl, e, hmem, rfl, Int.le_refl _, hreply⟩

end Tables

/-! ## Notify channels -/

namespace KVServer

/-- The channel `j` was made for `index`. -/
def Names (kv : KVServer) (j : Nat) (index : Int) : Prop :=
  (kv.channels.map NotifyChannel.index)[j]? = some index

/-- No channel is lost or made for another index. -/
def KeepsChannels (kv kv' : KVServer) : Prop :=
  kv.channels.map NotifyChannel.index <+: kv'.channels.map NotifyChannel.index

theorem Names.kept {kv kv' : KVServer} {j : Nat} {index : Int} (h : kv.Names j index)
    (keeps : kv.KeepsChannels kv') : kv'.Names j index := by
  obtain ⟨rest, hrest⟩ := keeps
  unfold Names
  rw [← hrest, List.getElem?_append_left (List.getElem?_eq_some_iff.mp h).1]
  exact h

/-- The map leads to channels of the right index, and what lies on a channel is `good`. -/
structure Wired (good : Int → Option ClientRequestReply → Prop) (kv : KVServer) : Prop where
  handles : ∀ index j, kv.notifyChannel.lookup index = some j → kv.Names j index
  contents : ∀ channel ∈ kv.channels, ∀ reply, channel.content = some reply →
    good channel.index reply

variable {good good' : Int → Option ClientRequestReply → Prop} {kv after : KVServer}

theorem Wired.imp (h : Wired good kv) (himp : ∀ index reply, good index reply → good' index reply) :
    Wired good' kv :=
  ⟨h.handles, fun channel hmem reply hreply => himp _ _ (h.contents channel hmem reply hreply)⟩

/-- The same channels under the same names. -/
theorem Wired.congr (h : Wired good kv) (hmap : after.notifyChannel = kv.notifyChannel)
    (hchannels : after.channels = kv.channels) : Wired good after := by
  refine ⟨fun index j hlookup => ?_, fun channel hmem => ?_⟩
  · rw [Names, hchannels]
    exact h.handles index j (hmap ▸ hlookup)
  · exact h.contents channel (hchannels ▸ hmem)

/-- A server that starts has no channels. -/
theorem wired_startKVServer (codec : Codec) (bytes : Bytes) :
    (startKVServer codec bytes).Wired good := by
  have hempty : (startKVServer codec bytes).notifyChannel = ∅ ∧
      (startKVServer codec bytes).channels = [] := by
    unfold startKVServer restoreSnapShot
    split <;> exact ⟨rfl, rfl⟩
  refine ⟨fun index j hlookup => ?_, fun channel hmem => ?_⟩
  · rw [hempty.1, AList.lookup_empty] at hlookup
    cases hlookup
  · rw [hempty.2] at hmem
    cases hmem

theorem Wired.getNotifyChannel (h : Wired good kv) {index : Int} {j : Nat}
    (hrun : kv.getNotifyChannel index = (after, j)) :
    Wired good after ∧ kv.KeepsChannels after ∧ after.Names j index := by
  unfold KVServer.getNotifyChannel at hrun
  split at hrun
  · next channel hlookup =>
      cases hrun
      exact ⟨h, List.prefix_refl _, h.handles index j hlookup⟩
  · cases hrun
    have hkeeps : kv.KeepsChannels { kv with
        notifyChannel := kv.notifyChannel.insert index kv.channels.length
        channels := kv.channels ++ [({ index := index } : NotifyChannel)] } := by
      simp [KeepsChannels]
    have hnames : Names { kv with
        notifyChannel := kv.notifyChannel.insert index kv.channels.length
        channels := kv.channels ++ [({ index := index } : NotifyChannel)] }
        kv.channels.length index := by
      simp [Names]
    refine ⟨⟨fun other j hlookup => ?_, fun channel hmem reply hreply => ?_⟩, hkeeps, hnames⟩
    · by_cases hother : other = index
      · subst hother
        rw [AList.lookup_insert] at hlookup
        cases hlookup
        exact hnames
      · rw [AList.lookup_insert_ne hother] at hlookup
        exact (h.handles other j hlookup).kept hkeeps
    · rcases List.mem_append.mp hmem with hold | hnew
      · exact h.contents channel hold reply hreply
      · rw [List.mem_singleton.mp hnew] at hreply
        cases hreply

theorem keeps_setContent (kv : KVServer) (j : Nat)
    (content : Option (Option ClientRequestReply)) :
    kv.KeepsChannels (kv.setContent j content) := by
  have hsame : (kv.setContent j content).channels.map NotifyChannel.index =
      kv.channels.map NotifyChannel.index := by
    refine List.ext_getElem? fun i => ?_
    simp only [KVServer.setContent, List.getElem?_map, List.getElem?_modify]
    cases kv.channels[i]? with
    | none => rfl
    | some channel => by_cases hi : j = i <;> simp [hi]
  rw [KeepsChannels, hsame]

/-- What is put on a channel has to be good for its index. -/
theorem Wired.setContent (h : Wired good kv) {j : Nat} {index : Int} (hnames : kv.Names j index)
    {content : Option (Option ClientRequestReply)}
    (hgood : ∀ reply, content = some reply → good index reply) :
    Wired good (kv.setContent j content) := by
  refine ⟨fun other i hlookup => (h.handles other i hlookup).kept (keeps_setContent kv j content),
    fun channel hmem reply hreply => ?_⟩
  obtain ⟨i, hi⟩ := List.mem_iff_getElem?.mp hmem
  simp only [KVServer.setContent, List.getElem?_modify] at hi
  obtain ⟨old, hold, rfl⟩ := Option.map_eq_some_iff.mp hi
  by_cases hj : j = i
  · subst hj
    simp only [if_true] at hreply ⊢
    have hindex : old.index = index := by
      simpa [Names, hold] using hnames
    rw [hindex]
    exact hgood reply hreply
  · simp only [if_neg hj] at hreply ⊢
    exact h.contents old (List.mem_of_getElem? hold) reply hreply

theorem Wired.removeNotifyChannel (h : Wired good kv) (index : Int) :
    Wired good (kv.removeNotifyChannel index) := by
  refine ⟨fun other j hlookup => ?_, h.contents⟩
  by_cases hother : other = index
  · subst hother
    rw [KVServer.removeNotifyChannel, AList.lookup_erase] at hlookup
    cases hlookup
  · rw [KVServer.removeNotifyChannel, AList.lookup_erase_ne hother] at hlookup
    exact h.handles other j hlookup

theorem Wired.notify (h : Wired good kv) {index : Int} {reply : Option ClientRequestReply}
    (hgood : good index reply) (hrun : kv.notify index reply = .ok after) :
    Wired good after ∧ kv.KeepsChannels after := by
  unfold KVServer.notify at hrun
  cases hfound : kv.getNotifyChannel index with
  | mk named channel =>
      obtain ⟨hwired, hkeeps, hnames⟩ := h.getNotifyChannel hfound
      simp only [hfound] at hrun
      split at hrun
      · cases hrun
        refine ⟨hwired.setContent hnames fun other hother => ?_,
          hkeeps.trans (keeps_setContent _ _ _)⟩
        rw [← Option.some.inj hother]
        exact hgood
      · cases hrun

/-- A handler gets what lies on its channel. -/
theorem Wired.receive (h : Wired good kv) {j : Nat} {index : Int} (hnames : kv.Names j index)
    {reply : ClientRequestReply} (hrun : kv.receive j = .ok (after, reply)) :
    Wired good after ∧ kv.KeepsChannels after ∧ good index (some reply) := by
  unfold KVServer.receive at hrun
  split at hrun
  · next other content hfound =>
      cases hrun
      have hindex : other = index := by
        simpa [Names, hfound] using hnames
      refine ⟨h.setContent hnames fun _ hnone => (by cases hnone), keeps_setContent _ _ _, ?_⟩
      rw [← hindex]
      exact h.contents _ (List.mem_of_getElem? hfound) _ rfl
  · cases hrun
  · cases hrun

/-! ## Channels and tables -/

@[simp]
theorem getNotifyChannel_tables (kv : KVServer) (index : Int) :
    (kv.getNotifyChannel index).1.tables = kv.tables := by
  unfold getNotifyChannel
  split <;> rfl

theorem notify_tables {index : Int} {reply : Option ClientRequestReply}
    (hrun : kv.notify index reply = .ok after) : after.tables = kv.tables := by
  unfold notify at hrun
  dsimp only at hrun
  split at hrun
  · cases hrun
    exact getNotifyChannel_tables kv index
  · cases hrun

@[simp]
theorem getNotifyChannel_lastApplied (kv : KVServer) (index : Int) :
    (kv.getNotifyChannel index).1.lastApplied = kv.lastApplied := by
  unfold getNotifyChannel
  split <;> rfl

theorem notify_keeps {index : Int} {reply : Option ClientRequestReply}
    (hrun : kv.notify index reply = .ok after) :
    after.tables = kv.tables ∧ after.lastApplied = kv.lastApplied ∧
      after.justApplied = kv.justApplied := by
  have hjust : (kv.getNotifyChannel index).1.justApplied = kv.justApplied := by
    unfold getNotifyChannel
    split <;> rfl
  refine ⟨notify_tables hrun, ?_⟩
  unfold notify at hrun
  dsimp only at hrun
  split at hrun
  · cases hrun
    exact ⟨getNotifyChannel_lastApplied kv index, hjust⟩
  · cases hrun

theorem receive_tables {j : Nat} {reply : ClientRequestReply}
    (hrun : kv.receive j = .ok (after, reply)) : after.tables = kv.tables := by
  unfold receive at hrun
  split at hrun
  · cases hrun
    rfl
  · cases hrun
  · cases hrun

/-! ## Messages -/

/-- A server carries out the command of the message. -/
theorem mem_carried {p : Fin n} {msg : ApplyMsg Op} {e : Applied n} (h : e ∈ kv.carried p msg) :
    msg.commandValid = true ∧ msg.commandIndex = e.index ∧ msg.command = some e.op := by
  obtain ⟨op, hop, rfl⟩ := List.mem_map.mp h
  have hcarries := Option.mem_toList.mp hop
  simp only [carriesOut] at hcarries
  split at hcarries
  · next hvalid => exact ⟨hvalid.1, rfl, (Option.filter_eq_some_iff.mp hcarries).1⟩
  · cases hcarries

/-- After a command has been applied the tables answer it. -/
theorem known_applied {applied : List (Applied n)} (h : Known applied kv.tables) (p : Fin n)
    {msg : ApplyMsg Op} {op : Op} (hvalid : msg.commandValid = true)
    (hcommand : msg.command = some op) (hlater : kv.lastApplied < msg.commandIndex) :
    Known (applied ++ kv.carried p msg) (kv.tables.apply op).1 ∧
      ∃ reply, (kv.tables.apply op).2 = some reply ∧
        Answers (applied ++ kv.carried p msg) op reply := by
  refine (h.mono (List.subset_append_left _ _)).apply fun hunseen => ?_
  have hcarried : kv.carried p msg =
      [⟨p, msg.commandIndex, op, (applyToStateMachine kv.tables.store op).2⟩] := by
    simp [carried, carriesOut, hvalid, hlater, hcommand, hunseen]
  rw [hcarried]
  exact ⟨_, List.mem_append_right _ (List.mem_singleton.mpr rfl), rfl, rfl⟩

/-- A message is a command to apply, or it changes at most the tables. -/
theorem applyMsg_cases {codec : Codec} {msg : ApplyMsg Op} {isLeader : Bool}
    (h : kv.applyMsg codec msg isLeader = .ok after) :
    (∃ op applied, msg.commandValid = true ∧ msg.command = some op ∧
      kv.lastApplied < msg.commandIndex ∧ applied.tables = (kv.tables.apply op).1 ∧
      applied.notifyChannel = kv.notifyChannel ∧ applied.channels = kv.channels ∧
      applied.lastApplied = msg.commandIndex ∧
      (after = applied ∨ (isLeader = true ∧
        applied.notify msg.commandIndex (kv.tables.apply op).2 = .ok after))) ∨
    (after.notifyChannel = kv.notifyChannel ∧ after.channels = kv.channels ∧
      after.lastApplied = kv.lastApplied ∧
      (after.tables = kv.tables ∨ (msg.snapshotValid = true ∧ msg.snapshot ≠ [] ∧
        after.tables = codec.decode msg.snapshot))) := by
  unfold applyMsg at h
  dsimp only at h
  split at h
  · next hvalid =>
      unfold applyCommand at h
      split at h
      · cases h
        exact Or.inr ⟨rfl, rfl, rfl, Or.inl rfl⟩
      · next hlater =>
          split at h
          · cases h
          · next op hcommand =>
              have hlater := Int.not_le.mp hlater
              dsimp only at h
              split at h
              · next hleader =>
                  refine Or.inl ⟨op, _, hvalid, hcommand, hlater, ?_, ?_, ?_, ?_,
                    Or.inr ⟨hleader, h⟩⟩
                  all_goals rfl
              · cases h
                refine Or.inl ⟨op, _, hvalid, hcommand, hlater, ?_, ?_, ?_, ?_, Or.inl rfl⟩
                all_goals rfl
  · split at h
    · next hvalid =>
        cases h
        unfold restoreSnapShot
        split
        · exact Or.inr ⟨rfl, rfl, rfl, Or.inl rfl⟩
        · next hbytes => exact Or.inr ⟨rfl, rfl, rfl, Or.inr ⟨hvalid, hbytes, rfl⟩⟩
    · cases h
      exact Or.inr ⟨rfl, rfl, rfl, Or.inl rfl⟩

end KVServer

end DistributedLabs.KvRaft
