import DistributedLabs.Raft.Safety

/-!
# The order of the messages on a channel

The applier and the goroutines of installed snapshots put messages on the channel
in turns.  A command always follows the greatest index put on the channel before
it.  A snapshot is only known to be newer than what came before when its goroutine
finds its index above `lastApplied`, which the source does not check.
-/

namespace DistributedLabs

open DistributedLabs.Library

variable {n : Nat} {C : Type}

/-! ## Channels -/

namespace ApplyChan

variable {channel : ApplyChan C} {msg : ApplyMsg C}

/-- The greatest index the service has been brought to. -/
def reached (channel : ApplyChan C) : Int :=
  channel.msgs.foldl (fun index msg => max index msg.index) channel.start

/-- The index of the last message. -/
def lastIndex (channel : ApplyChan C) : Int :=
  (channel.msgs.getLast?.map ApplyMsg.index).getD channel.start

/-- What was on the channel before some message of it, and that message. -/
def Put (channel : ApplyChan C) (before : ApplyChan C) (msg : ApplyMsg C) : Prop :=
  before.start = channel.start ∧ before.msgs ++ [msg] <+: channel.msgs

/-- A command continues from the greatest index before it. -/
def Gapless (channel : ApplyChan C) : Prop :=
  ∀ before msg, channel.Put before msg → msg.commandValid = true →
    msg.commandIndex = before.reached + 1

/-- A snapshot is newer than everything before it. -/
def Rising (channel : ApplyChan C) : Prop :=
  ∀ before msg, channel.Put before msg → msg.snapshotValid = true →
    before.reached < msg.snapshotIndex

/-- A command is one after the message before it, and a snapshot is newer than
every message before it. -/
def Ordered (channel : ApplyChan C) : Prop :=
  ∀ before msg, channel.Put before msg →
    (msg.commandValid = true → msg.commandIndex = before.lastIndex + 1) ∧
    (msg.snapshotValid = true → ∀ earlier ∈ before.msgs, earlier.index < msg.snapshotIndex)

/-- The channel with one more message. -/
def put (channel : ApplyChan C) (msg : ApplyMsg C) : ApplyChan C :=
  { channel with msgs := channel.msgs ++ [msg] }

theorem reached_put (channel : ApplyChan C) (msg : ApplyMsg C) :
    (channel.put msg).reached = max channel.reached msg.index := by
  simp [reached, put]

theorem lastIndex_put (channel : ApplyChan C) (msg : ApplyMsg C) :
    (channel.put msg).lastIndex = msg.index := by
  simp [lastIndex, put]

theorem not_put_nil (start : Int) (before : ApplyChan C) :
    ¬ (⟨start, []⟩ : ApplyChan C).Put before msg := by
  rintro ⟨_, hfront⟩
  simpa using hfront.length_le

/-- A message of the longer channel is the new one or was there before. -/
theorem put_cases {before : ApplyChan C} {new : ApplyMsg C}
    (h : (channel.put new).Put before msg) :
    channel.Put before msg ∨ (before = channel ∧ msg = new) := by
  obtain ⟨hstart, hfront⟩ := h
  rcases List.prefix_concat_iff.mp hfront with heq | hfront
  · obtain ⟨hmsgs, hlast⟩ := List.append_inj' heq rfl
    refine Or.inr ⟨?_, List.singleton_inj.mp hlast⟩
    cases before
    cases hmsgs
    cases hstart
    rfl
  · exact Or.inl ⟨hstart, hfront⟩

theorem Gapless.put (h : channel.Gapless)
    (hnew : msg.commandValid = true → msg.commandIndex = channel.reached + 1) :
    (channel.put msg).Gapless := by
  intro before other hput hvalid
  rcases put_cases hput with hold | ⟨rfl, rfl⟩
  · exact h before other hold hvalid
  · exact hnew hvalid

theorem Rising.put (h : channel.Rising)
    (hnew : msg.snapshotValid = true → channel.reached < msg.snapshotIndex) :
    (channel.put msg).Rising := by
  intro before other hput hvalid
  rcases put_cases hput with hold | ⟨rfl, rfl⟩
  · exact h before other hold hvalid
  · exact hnew hvalid

theorem le_foldl_max (msgs : List (ApplyMsg C)) (start : Int) :
    start ≤ msgs.foldl (fun index msg => max index msg.index) start ∧
      ∀ msg ∈ msgs, msg.index ≤ msgs.foldl (fun index msg => max index msg.index) start := by
  induction msgs generalizing start with
  | nil => simp
  | cons head rest ih =>
      obtain ⟨hstart, hrest⟩ := ih (max start head.index)
      refine ⟨by simp only [List.foldl_cons]; omega, fun msg hmem => ?_⟩
      rcases List.mem_cons.mp hmem with rfl | hin
      · simp only [List.foldl_cons]
        omega
      · exact hrest msg hin

theorem le_reached (hmem : msg ∈ channel.msgs) : msg.index ≤ channel.reached :=
  (le_foldl_max channel.msgs channel.start).2 msg hmem

/-- Every message is a command or a snapshot. -/
def Labelled (channel : ApplyChan C) : Prop :=
  ∀ msg ∈ channel.msgs, msg.commandValid = true ∨ msg.snapshotValid = true

theorem Labelled.put (h : channel.Labelled)
    (hnew : msg.commandValid = true ∨ msg.snapshotValid = true) : (channel.put msg).Labelled := by
  intro other hmem
  rcases List.mem_append.mp hmem with hold | hlast
  · exact h other hold
  · rw [List.mem_singleton.mp hlast]
    exact hnew

theorem Put.trans {before first : ApplyChan C} {new : ApplyMsg C} (h : channel.Put before new)
    (hfirst : before.Put first msg) : channel.Put first msg :=
  ⟨hfirst.1.trans h.1, hfirst.2.trans ((List.prefix_append before.msgs [new]).trans h.2)⟩

/-- On a gapless and rising channel the last index is the greatest. -/
theorem reached_eq_lastIndex (gapless : channel.Gapless) (rising : channel.Rising)
    (labelled : channel.Labelled) : channel.reached = channel.lastIndex := by
  obtain ⟨start, msgs⟩ := channel
  rcases List.eq_nil_or_concat msgs with rfl | ⟨front, last, rfl⟩
  · rfl
  · have hput : ApplyChan.Put ⟨start, front.concat last⟩ ⟨start, front⟩ last :=
      ⟨rfl, by simp⟩
    have heq : (⟨start, front.concat last⟩ : ApplyChan C) = put ⟨start, front⟩ last := by
      simp [put]
    rw [heq, reached_put, lastIndex_put]
    rcases Bool.eq_false_or_eq_true last.commandValid with hcommand | hcommand
    · have hnext := gapless _ _ hput hcommand
      simp only [ApplyMsg.index, hcommand, if_true]
      omega
    · have hlabel := labelled last (by simp)
      simp only [hcommand, Bool.false_eq_true, false_or] at hlabel
      have hnewer := rising _ _ hput hlabel
      simp only [ApplyMsg.index, hcommand, Bool.false_eq_true, if_false]
      omega

theorem ordered (gapless : channel.Gapless) (rising : channel.Rising)
    (labelled : channel.Labelled) : channel.Ordered := by
  intro before msg hput
  refine ⟨fun hcommand => ?_, fun hsnapshot earlier hmem => ?_⟩
  · rw [← reached_eq_lastIndex (fun first other hfirst => gapless first other (hput.trans hfirst))
      (fun first other hfirst => rising first other (hput.trans hfirst))
      (fun other hmem => labelled other (hput.2.subset (List.mem_append_left _ hmem)))]
    exact gapless before msg hput hcommand
  · exact Int.lt_of_le_of_lt (le_reached hmem) (rising before msg hput hsnapshot)

end ApplyChan

/-! ## Taking turns -/

/-- The entries carry consecutive indexes. -/
def Consecutive (first : Int) (entries : List (LogEntry C)) : Prop :=
  ∀ (k : Nat) (entry : LogEntry C), entries[k]? = some entry → entry.index = first + k

/-- The batch the applier works on. -/
def Applier.batch : Applier C → Option (List (LogEntry C))
  | top | parked => none
  | collected toApply | waiting toApply | sending toApply _ => some toApply

/-- The applier is not sending. -/
def Applier.Idle : Applier C → Prop
  | sending _ _ => False
  | _ => True

/-- Who may send, and how far the service is ahead of `lastApplied`. -/
inductive Turn (reached lastApplied : Int) : SeqMu C → Applier C → Prop where
  | free {applier : Applier C} (idle : applier.Idle) (settled : reached = lastApplied) :
      Turn reached lastApplied .free applier
  | stuck {applier : Applier C} (idle : applier.Idle) (settled : reached = lastApplied) :
      Turn reached lastApplied .applier applier
  | sending {sent rest : List (LogEntry C)}
      (numbered : Consecutive (lastApplied + 1) (sent ++ rest))
      (ahead : reached = lastApplied + sent.length) :
      Turn reached lastApplied .applier (.sending (sent ++ rest) rest)
  | install {index : Int} {msg : ApplyMsg C} {applier : Applier C} (idle : applier.Idle)
      (settled : reached = lastApplied) (label : msg.snapshotValid = true)
      (other : msg.commandValid = false) (bears : msg.snapshotIndex = index) :
      Turn reached lastApplied (.install index msg) applier
  | installed {index : Int} {applier : Applier C} (idle : applier.Idle)
      (ahead : reached = max lastApplied index) :
      Turn reached lastApplied (.installed index) applier

/-- The batch is not empty and the turn fits what is on the channel. -/
structure Delivering (rf : Raft n C) : Prop where
  batch : ∀ toApply, rf.applier.batch = some toApply →
    toApply ≠ [] ∧ ∃ first, Consecutive first toApply
  turn : Turn rf.applyCh.reached rf.lastApplied rf.applySeqMu rf.applier
  gapless : rf.applyCh.Gapless
  labelled : rf.applyCh.Labelled

/-! ## Signals -/

section Signals

variable {reached lastApplied : Int} {mu : SeqMu C} {applier applier' : Applier C}

theorem Applier.Signalled.idle (h : Raft.Applier.Signalled applier applier')
    (hidle : applier.Idle) : applier'.Idle := by
  rcases h with rfl | rfl | rfl
  · exact hidle
  · cases applier <;> trivial
  · cases applier <;> trivial

theorem Applier.Signalled.batch (h : Raft.Applier.Signalled applier applier') :
    applier'.batch = applier.batch := by
  rcases h with rfl | rfl | rfl
  · rfl
  · cases applier <;> rfl
  · cases applier <;> rfl

theorem Turn.signalled (h : Turn reached lastApplied mu applier)
    (hsignalled : Raft.Applier.Signalled applier applier') :
    Turn reached lastApplied mu applier' := by
  cases h with
  | free idle settled => exact .free (Applier.Signalled.idle hsignalled idle) settled
  | stuck idle settled => exact .stuck (Applier.Signalled.idle hsignalled idle) settled
  | sending numbered ahead =>
      rcases hsignalled with rfl | rfl | rfl <;> exact .sending numbered ahead
  | install idle settled label other bears =>
      exact .install (Applier.Signalled.idle hsignalled idle) settled label other bears
  | installed idle ahead => exact .installed (Applier.Signalled.idle hsignalled idle) ahead

/-- An applier that is not sending may stop anywhere else. -/
theorem Turn.park (h : Turn reached lastApplied mu applier) (hidle : applier.Idle)
    (hidle' : applier'.Idle) : Turn reached lastApplied mu applier' := by
  cases h with
  | free _ settled => exact .free hidle' settled
  | stuck _ settled => exact .stuck hidle' settled
  | sending numbered ahead => exact hidle.elim
  | install _ settled label other bears => exact .install hidle' settled label other bears
  | installed _ ahead => exact .installed hidle' ahead

theorem Turn.settled (h : Turn reached lastApplied .free applier) :
    applier.Idle ∧ reached = lastApplied := by
  cases h with
  | free idle settled => exact ⟨idle, settled⟩

/-- What is known while the applier sends. -/
theorem Turn.of_sending {toApply rest : List (LogEntry C)}
    (h : Turn reached lastApplied mu (.sending toApply rest)) :
    mu = .applier ∧ ∃ sent, toApply = sent ++ rest ∧
      Consecutive (lastApplied + 1) (sent ++ rest) ∧ reached = lastApplied + sent.length := by
  cases h with
  | free idle => exact idle.elim
  | stuck idle => exact idle.elim
  | install idle => exact idle.elim
  | installed idle => exact idle.elim
  | sending numbered ahead => exact ⟨rfl, _, rfl, numbered, ahead⟩

end Signals

/-! ## Every move keeps the turns -/

namespace Delivering

variable {rf rf' : Raft n C} {A : Protocol n C} {p : Fin n}

theorem quiet (h : Delivering rf) (hquiet : Quiet rf rf') : Delivering rf' := by
  have hsignalled : Raft.Applier.Signalled rf.applier rf'.applier := by
    rcases hquiet.applier with heq | heq
    · exact Or.inl heq
    · exact Or.inr (Or.inl heq)
  refine ⟨?_, ?_, ?_, ?_⟩
  · rw [Applier.Signalled.batch hsignalled]
    exact h.batch
  · rw [hquiet.applyCh, hquiet.lastApplied, hquiet.applySeqMu]
    exact h.turn.signalled hsignalled
  · rw [hquiet.applyCh]
    exact h.gapless
  · rw [hquiet.applyCh]
    exact h.labelled

/-- What the applier collects is numbered from `lastApplied`. -/
theorem collected {f c : Nat} (hpeer : PeerRel A p rf f c) {first : LogEntry C}
    (hfirst : rf.getFirstLog = some first) (hpending : ¬ rf.NothingToApply first)
    {toApply : List (LogEntry C)} (htoApply : rf.collectEntries first.index = some toApply) :
    Consecutive (rf.lastApplied + 1) toApply := by
  obtain ⟨a, ha, hf, rfl⟩ := hpeer.collected hfirst hpending htoApply
  intro k entry hentry
  rw [List.getElem?_map] at hentry
  obtain ⟨j, hj, rfl⟩ := Option.map_eq_some_iff.mp hentry
  obtain ⟨_, rfl⟩ := List.getElem?_eq_some_iff.mp hj
  simp only [entryAt, List.getElem_range]
  omega

theorem applyCollect (h : Delivering rf) (hreps : Reps A p rf)
    (hrun : rf.applyCollect = .ok rf') : Delivering rf' := by
  obtain ⟨f, c, hpeer, _⟩ := hreps
  have hturn := h.turn
  obtain ⟨htop, first, hfirst, ⟨_, rfl⟩ | ⟨hpending, toApply, htoApply, rfl⟩⟩ :=
    Raft.applyCollect_cases hrun
  · exact ⟨fun _ hbatch => (by cases hbatch), hturn.park (by rw [htop]; trivial) trivial,
      h.gapless, h.labelled⟩
  · refine ⟨fun batch hbatch => ?_, hturn.park (by rw [htop]; trivial) ?_, h.gapless, h.labelled⟩
    · dsimp only at hbatch
      split at hbatch
      · cases hbatch
      · next hempty =>
          cases hbatch
          exact ⟨fun hnil => hempty (by rw [hnil]; rfl), rf.lastApplied + 1,
            collected hpeer hfirst hpending htoApply⟩
    · dsimp only
      split <;> trivial

theorem applyLock (h : Delivering rf) (hrun : rf.applyLock = .ok rf') : Delivering rf' := by
  obtain ⟨toApply, firstLog, hcollected, hfree, hfirst, hcases⟩ := Raft.applyLock_cases hrun
  have hbatch := h.batch
  have hturn := h.turn
  rw [hcollected] at hbatch
  rw [hfree] at hturn
  obtain ⟨_, hsettled⟩ := hturn.settled
  rcases hcases with ⟨_, rfl⟩ | ⟨_, rfl⟩ | ⟨hnext, rfl⟩
  · refine ⟨hbatch, ?_, h.gapless, h.labelled⟩
    dsimp only
    rw [hfree]
    exact .free trivial hsettled
  · exact ⟨fun _ hnone => (by cases hnone), .stuck trivial hsettled, h.gapless, h.labelled⟩
  · obtain ⟨_, first, hnumbered⟩ := hbatch toApply rfl
    have hzero : firstLog.index = first + (0 : Nat) := hnumbered 0 firstLog hfirst
    have hstart : first = rf.lastApplied + 1 := by omega
    rw [hstart] at hnumbered
    refine ⟨hbatch, ?_, h.gapless, h.labelled⟩
    have hturn' : Turn rf.applyCh.reached rf.lastApplied .applier
        (.sending ([] ++ toApply) toApply) :=
      .sending hnumbered (by simpa using hsettled)
    exact hturn'

/-- The next entry of a batch is one above everything sent before it. -/
theorem applySend (h : Delivering rf) (hrun : rf.applySend = .ok rf') : Delivering rf' := by
  obtain ⟨toApply, entry, rest, hsending, rfl⟩ := Raft.applySend_cases hrun
  have hbatch := h.batch
  have hturn := h.turn
  rw [hsending] at hbatch hturn
  obtain ⟨hmu, sent, rfl, hnumbered, hahead⟩ := hturn.of_sending
  have hindex : entry.index = rf.applyCh.reached + 1 := by
    have hread := hnumbered sent.length entry (by simp)
    omega
  have hreached : (rf.applyCh.put (Raft.commandMsg entry)).reached =
      rf.lastApplied + (sent ++ [entry]).length := by
    rw [ApplyChan.reached_put, List.length_append, List.length_singleton]
    simp only [Raft.commandMsg, ApplyMsg.index, if_true]
    omega
  have hsplit : sent ++ entry :: rest = (sent ++ [entry]) ++ rest := by simp
  rw [hsplit] at hnumbered
  have hturn' : Turn (rf.applyCh.put (Raft.commandMsg entry)).reached rf.lastApplied rf.applySeqMu
      (.sending (sent ++ entry :: rest) rest) := by
    rw [hmu, hsplit]
    exact .sending hnumbered hreached
  exact ⟨hbatch, hturn', h.gapless.put fun _ => hindex, h.labelled.put (Or.inl rfl)⟩

theorem applyFinish (h : Delivering rf) (hrun : rf.applyFinish = .ok rf') : Delivering rf' := by
  obtain ⟨toApply, hsending, applied, rfl, happlied⟩ := Raft.applyFinish_cases hrun
  have hturn := h.turn
  rw [hsending] at hturn
  obtain ⟨_, sent, rfl, hnumbered, hahead⟩ := hturn.of_sending
  rw [List.append_nil] at hnumbered happlied
  refine ⟨fun _ hnone => (by cases hnone), .free trivial ?_, h.gapless, h.labelled⟩
  show rf.applyCh.reached = applied
  rcases happlied with ⟨rfl, rfl⟩ | ⟨last, hlast, rfl⟩
  · simpa using hahead
  · have hnonempty : sent ≠ [] := fun hnil => by simp [hnil] at hlast
    have hpos := List.length_pos_iff.mpr hnonempty
    rw [List.getLast?_eq_getElem?] at hlast
    have hindex := hnumbered _ last hlast
    omega

theorem installLock (h : Delivering rf) {k : Nat} (hrun : rf.installLock k = .ok rf') :
    Delivering rf' := by
  obtain ⟨install, _, hfree, rfl⟩ := Raft.installLock_cases hrun
  have hturn := h.turn
  rw [hfree] at hturn
  obtain ⟨hidle, hsettled⟩ := hturn.settled
  exact ⟨h.batch, .install hidle hsettled rfl rfl rfl, h.gapless, h.labelled⟩

theorem installSend (h : Delivering rf) (hrun : rf.installSend = .ok rf') : Delivering rf' := by
  obtain ⟨index, msg, hinstall, rfl⟩ := Raft.installSend_cases hrun
  have hturn := h.turn
  rw [hinstall] at hturn
  cases hturn with
  | install idle settled label other bears =>
      refine ⟨h.batch, .installed idle ?_, h.gapless.put ?_, h.labelled.put (Or.inr label)⟩
      · show (rf.applyCh.put msg).reached = _
        rw [ApplyChan.reached_put, settled, ApplyMsg.index, other]
        simp [bears, Raft.send]
      · intro hcommand
        rw [other] at hcommand
        cases hcommand

theorem installFinish (h : Delivering rf) (hrun : rf.installFinish = .ok rf') :
    Delivering rf' := by
  obtain ⟨index, hinstalled, applier, hsignalled, rfl⟩ := Raft.installFinish_cases hrun
  have hturn := h.turn
  rw [hinstalled] at hturn
  cases hturn with
  | installed idle ahead =>
      refine ⟨?_, .free (Applier.Signalled.idle hsignalled idle) ahead, h.gapless, h.labelled⟩
      show ∀ toApply, applier.batch = some toApply → _
      rw [Applier.Signalled.batch hsignalled]
      exact h.batch

/-- A new incarnation has an empty channel that starts where it has applied the log. -/
theorem make (hdurable : rf.Durable) {incarnation : Nat}
    (hrun : Raft.make p rf.persister incarnation = some rf') : Delivering rf' := by
  obtain ⟨first, last, _, _, hmake⟩ := hdurable.make_eq p incarnation
  obtain rfl := Option.some.inj (hmake.symm.trans hrun)
  exact {
    batch := fun _ hnone => by cases hnone
    turn := .free trivial rfl
    gapless := fun before msg hput => absurd hput (ApplyChan.not_put_nil _ before)
    labelled := fun msg hmem => by cases hmem }

theorem newPeer : Delivering (Cluster.newPeer : Raft n C) where
  batch := fun _ hnone => by cases hnone
  turn := .free trivial rfl
  gapless := fun before _ hput => absurd hput (ApplyChan.not_put_nil _ before)
  labelled := fun msg hmem => by cases hmem

theorem move (h : Delivering rf) (hreps : Reps A p rf) (hdurable : rf.Durable)
    {net : List (Flight n C)} {action : Action n C} (hmove : PeerMove net p rf action rf') :
    Delivering rf' := by
  cases hmove with
  | operation op _ run => exact h.quiet (Quiet.operation run)
  | concludeElection election counted run => exact h.quiet (Quiet.concludeElection run)
  | sendLogTicketCore run sends => exact h.quiet (Quiet.sendLogTicketCore run sends)
  | sendSnapShot sends => exact h.quiet { Quiet.refl rf with }
  | applyCollect run => exact h.applyCollect hreps run
  | applyLock run => exact h.applyLock run
  | applySend run => exact h.applySend run
  | applyFinish run => exact h.applyFinish run
  | installLock run => exact h.installLock run
  | installSend run => exact h.installSend run
  | installFinish run => exact h.installFinish run
  | crash run => exact Delivering.make hdurable run

end Delivering

/-! ## Moves and the channel -/

/-- What a move does to the channel and to the mutex that guards it. -/
inductive ChannelMove (p : Fin n) (rf : Raft n C) (action : Action n C) (rf' : Raft n C) :
    Prop where
  | still (channel : rf'.applyCh = rf.applyCh)
      (mutex : rf'.applySeqMu = rf.applySeqMu ∨ ∀ index msg, rf'.applySeqMu ≠ .install index msg)
  | command {toApply rest : List (LogEntry C)} {entry : LogEntry C}
      (sending : rf.applier = .sending toApply (entry :: rest))
      (channel : rf'.applyCh = rf.applyCh.put (Raft.commandMsg entry))
      (mutex : rf'.applySeqMu = rf.applySeqMu)
  | prepare {k : Nat} {install : Install} (lock : action = .installLock p k)
      (found : rf.installs[k]? = some install) (free : rf.applySeqMu = .free)
      (channel : rf'.applyCh = rf.applyCh)
      (mutex : rf'.applySeqMu = .install install.snapShotIndex (rf.snapshotMsg install))
  | snapshot {index : Int} {msg : ApplyMsg C} (prepared : rf.applySeqMu = .install index msg)
      (channel : rf'.applyCh = rf.applyCh.put msg) (mutex : rf'.applySeqMu = .installed index)
  | restart {start : Int} (channel : rf'.applyCh = ⟨start, []⟩) (mutex : rf'.applySeqMu = .free)

section Moves

variable {rf rf' : Raft n C} {p : Fin n} {action : Action n C}

theorem Quiet.channelMove (h : Quiet rf rf') : ChannelMove p rf action rf' :=
  .still h.applyCh (Or.inl h.applySeqMu)

theorem PeerMove.channelMove (hdurable : rf.Durable) {net : List (Flight n C)}
    (hmove : PeerMove net p rf action rf') : ChannelMove p rf action rf' := by
  cases hmove with
  | operation op _ run => exact (Quiet.operation run).channelMove
  | concludeElection election counted run => exact (Quiet.concludeElection run).channelMove
  | sendLogTicketCore run sends => exact (Quiet.sendLogTicketCore run sends).channelMove
  | sendSnapShot sends => exact .still rfl (Or.inl rfl)
  | applyCollect run =>
      obtain ⟨_, first, _, ⟨_, rfl⟩ | ⟨_, _, _, rfl⟩⟩ := Raft.applyCollect_cases run
      · exact .still rfl (Or.inl rfl)
      · exact .still rfl (Or.inl rfl)
  | applyLock run =>
      obtain ⟨_, _, _, _, _, ⟨_, rfl⟩ | ⟨_, rfl⟩ | ⟨_, rfl⟩⟩ := Raft.applyLock_cases run
      · exact .still rfl (Or.inl rfl)
      · exact .still rfl (Or.inr fun _ _ hmu => by cases hmu)
      · exact .still rfl (Or.inr fun _ _ hmu => by cases hmu)
  | applySend run =>
      obtain ⟨toApply, entry, rest, hsending, rfl⟩ := Raft.applySend_cases run
      exact .command hsending rfl rfl
  | applyFinish run =>
      obtain ⟨_, _, _, rfl, _⟩ := Raft.applyFinish_cases run
      exact .still rfl (Or.inr fun _ _ hmu => by cases hmu)
  | installLock run =>
      obtain ⟨install, hinstall, hfree, rfl⟩ := Raft.installLock_cases run
      exact .prepare rfl hinstall hfree rfl rfl
  | installSend run =>
      obtain ⟨index, msg, hinstall, rfl⟩ := Raft.installSend_cases run
      exact .snapshot hinstall rfl rfl
  | installFinish run =>
      obtain ⟨_, _, _, _, rfl⟩ := Raft.installFinish_cases run
      exact .still rfl (Or.inr fun _ _ hmu => by cases hmu)
  | crash run =>
      obtain ⟨first, last, _, _, hmake⟩ := hdurable.make_eq p (rf.incarnation + 1)
      obtain rfl := Option.some.inj (hmake.symm.trans run)
      exact .restart rfl rfl

end Moves

/-! ## Snapshots that are newer -/

/-- A snapshot on its way to the channel is newer than everything on it. -/
structure Newer (rf : Raft n C) : Prop where
  prepared : ∀ index msg, rf.applySeqMu = .install index msg → rf.applyCh.reached < index
  rising : rf.applyCh.Rising

/-- The only step that needs the condition is the one that takes the mutex. -/
theorem Newer.move {rf rf' : Raft n C} {p : Fin n} {action : Action n C} (h : Newer rf)
    (hdelivering : Delivering rf) (hmove : ChannelMove p rf action rf')
    (hahead : ∀ k install, action = .installLock p k → rf.installs[k]? = some install →
      rf.lastApplied < install.snapShotIndex) : Newer rf' := by
  have hturn := hdelivering.turn
  cases hmove with
  | still channel mutex =>
      refine ⟨fun index msg hmu => ?_, by rw [channel]; exact h.rising⟩
      rcases mutex with hsame | hnone
      · rw [channel]
        exact h.prepared index msg (hsame ▸ hmu)
      · exact absurd hmu (hnone index msg)
  | command sending channel mutex =>
      rw [sending] at hturn
      refine ⟨fun index msg hmu => ?_, ?_⟩
      · rw [mutex, hturn.of_sending.1] at hmu
        cases hmu
      · rw [channel]
        exact h.rising.put fun hvalid => by cases hvalid
  | @prepare k install lock found free channel mutex =>
      rw [free] at hturn
      refine ⟨fun index msg hmu => ?_, by rw [channel]; exact h.rising⟩
      rw [mutex] at hmu
      cases hmu
      rw [channel]
      exact hturn.settled.2 ▸ hahead k install lock found
  | @snapshot index msg prepared channel mutex =>
      have hnewer := h.prepared index msg prepared
      rw [prepared] at hturn
      refine ⟨fun _ _ hmu => (by rw [mutex] at hmu; cases hmu), ?_⟩
      rw [channel]
      refine h.rising.put fun _ => ?_
      cases hturn with
      | install _ _ _ _ bears => exact bears.symm ▸ hnewer
  | restart channel mutex =>
      refine ⟨fun _ _ hmu => (by rw [mutex] at hmu; cases hmu), fun before _ hput => ?_⟩
      rw [channel] at hput
      exact absurd hput (ApplyChan.not_put_nil _ before)

namespace Cluster

variable {s s' : Cluster n C}

theorem delivering_of_reachable (hreach : Reachable s) (p : Fin n) : Delivering (s.peers p) := by
  refine peer_of_reachable hreach p Delivering.newPeer fun before h hmove => ?_
  obtain ⟨A, hrefines⟩ := exists_refines before
  exact h.move (hrefines.peers p) (durable_of_reachable before p) hmove

/-- What holds of every channel in use holds of the closed ones too. -/
theorem channel_of_runs {allowed : Cluster n C → Action n C → Prop}
    {P : List (Action n C) → ApplyChan C → Prop} {actions : List (Action n C)}
    (hrun : RunsIf step allowed initial actions s)
    (hlive : ∀ {past t}, RunsIf step allowed initial past t → ∀ p, P past (t.peers p).applyCh)
    (hlater : ∀ {past channel} action, P past channel → P (past ++ [action]) channel)
    {channel : ApplyChan C} (hchannel : s.Channel channel) : P actions channel := by
  rcases hchannel with ⟨p, rfl⟩ | ⟨p, hmem⟩
  · exact hlive hrun p
  · induction hrun with
    | refl => cases hmem
    | tail before permitted taken ih =>
        rcases step_past taken with hsame | ⟨q, hcrash⟩
        · rw [hsame] at hmem
          exact hlater _ (ih hmem)
        · rw [hcrash] at hmem
          rcases List.mem_append.mp hmem with hold | hnew
          · exact hlater _ (ih hold)
          · obtain ⟨rfl, rfl⟩ := Prod.mk.inj (List.mem_singleton.mp hnew)
            exact hlater _ (hlive before p)

/-- In every run a command continues from the greatest index put on its channel before. -/
theorem gapless_of_runs {actions : List (Action n C)} (hrun : Runs step initial actions s)
    {channel : ApplyChan C} (hchannel : s.Channel channel) : channel.Gapless :=
  channel_of_runs (P := fun _ => ApplyChan.Gapless) hrun
    (fun hbefore p => (delivering_of_reachable hbefore.reaches p).gapless) (fun _ h => h) hchannel

/-- The goroutine of an installed snapshot takes the mutex while `lastApplied` is still
below its index. -/
def InstallsAhead (s : Cluster n C) : Action n C → Prop
  | .installLock p k => ∀ install ∈ (s.peers p).installs[k]?,
      (s.peers p).lastApplied < install.snapShotIndex
  | _ => True

instance (s : Cluster n C) (action : Action n C) : Decidable (s.InstallsAhead action) :=
  match action with
  | .installLock p k => inferInstanceAs (Decidable (∀ install ∈ (s.peers p).installs[k]?, _))
  | .start _ _ | .ticker _ | .concludeElection _ _ | .sendLogTicketCore _ | .sendSnapShot _ _
  | .deliver _ | .answer _ | .fail _ | .snapshot _ _ _ | .applyCollect _ | .applyLock _
  | .applySend _ | .applyFinish _ | .installSend _ | .installFinish _ | .crash _ =>
      instDecidableTrue

theorem newer_of_runs {actions : List (Action n C)}
    (hrun : RunsIf step InstallsAhead initial actions s) (p : Fin n) : Newer (s.peers p) := by
  refine peer_of_runsIf (P := fun _ => Newer) hrun p ?_ (fun _ h => h) ?_
  · exact ⟨fun _ _ hmu => (by cases hmu),
      fun before _ hput => absurd hput (ApplyChan.not_put_nil _ before)⟩
  · intro past t action rf' before permitted h hmove
    refine h.move (delivering_of_reachable before.reaches p)
      (hmove.channelMove (durable_of_reachable before.reaches p)) ?_
    rintro k install rfl hinstall
    exact permitted install hinstall

/-- While no snapshot goroutine comes too late, every channel is in order. -/
theorem ordered_apply_stream {actions : List (Action n C)}
    (hrun : RunsIf step InstallsAhead initial actions s) {channel : ApplyChan C}
    (hchannel : s.Channel channel) : channel.Ordered := by
  refine channel_of_runs (P := fun _ => ApplyChan.Ordered) hrun ?_ (fun _ h => h) hchannel
  intro past t hbefore p
  have hdelivering := delivering_of_reachable hbefore.reaches p
  exact ApplyChan.ordered hdelivering.gapless (newer_of_runs hbefore p).rising
    hdelivering.labelled

/-- The leader compacts at 1 and at 2, and peer 2 installs both snapshots. -/
def installTwo : List (Action 3 Nat) :=
  electFirst ++ [.start 0 (some 5), .start 0 (some 6), .sendLogTicketCore 0, .deliver 1, .answer 1,
    .applyCollect 0, .applyLock 0, .applySend 0, .applySend 0, .applyFinish 0,
    .snapshot 0 1 [1], .sendLogTicketCore 0, .sendSnapShot 0 0, .deliver 3,
    .snapshot 0 2 [2], .sendLogTicketCore 0, .sendSnapShot 0 0, .deliver 5]

/-- In the order of their installation the snapshots reach the service in order. -/
theorem ordered_apply_stream_in_turn : ∃ (s : Cluster 3 Nat) (actions : List (Action 3 Nat)),
    RunsIf step InstallsAhead initial actions s ∧ (s.peers 2).applyCh.msgs.length = 2 ∧
      (s.peers 2).applyCh.Ordered := by
  have hchecked : RunHolds (guarded step InstallsAhead) (installTwo ++
      [.installLock 2 0, .installSend 2, .installFinish 2, .installLock 2 0, .installSend 2])
      initial fun s => (s.peers 2).applyCh.msgs.length = 2 := by
    decide +kernel
  obtain ⟨s, hrun, hlength⟩ := hchecked.exists_runsIf
  exact ⟨s, _, hrun, hlength, ordered_apply_stream hrun (Or.inl ⟨2, rfl⟩)⟩

/-- The goroutine of the second snapshot takes the mutex first, and the service is moved
back from 2 to 1. -/
theorem apply_stream_moves_back : ∃ (s : Cluster 3 Nat) (channel : ApplyChan Nat),
    Reachable s ∧ s.Channel channel ∧ channel.msgs.map ApplyMsg.index = [2, 1] ∧
      ¬ channel.Ordered := by
  have hchecked : RunHolds step (installTwo ++
      [.installLock 2 1, .installSend 2, .installFinish 2, .installLock 2 0, .installSend 2])
      initial fun s => (s.peers 2).applyCh = ⟨0, [
        { snapshotValid := true, snapshot := [2], snapshotIndex := 2, snapshotTerm := 1 },
        { snapshotValid := true, snapshot := [2], snapshotIndex := 1, snapshotTerm := 1 }]⟩ := by
    decide +kernel
  obtain ⟨s, hreach, hchannel⟩ := hchecked.exists_reaches
  refine ⟨s, _, hreach, Or.inl ⟨2, hchannel⟩, rfl, fun hordered => ?_⟩
  have hback := (hordered ⟨0, [_]⟩ _ ⟨rfl, List.prefix_refl _⟩).2 rfl _ (List.mem_singleton.mpr rfl)
  exact absurd hback (by decide)

end Cluster

end DistributedLabs
