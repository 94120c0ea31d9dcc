import DistributedLabs.Raft.Provenance

/-!
# What a service may rely on

`Start` returns an index and a term.  The command is at that index of the committed
log exactly as long as the entry there has that term: a leader of another term may
have written something else to the index.
-/

namespace DistributedLabs

open DistributedLabs.Library
open DistributedLabs.Library.Replication

variable {n : Nat} {C : Type}

/-- The leader of `term` wrote `data` at `index` of its log. -/
def WrittenAt (A : Protocol n C) (index term : Int) (data : Option C) : Prop :=
  ∃ front, front ++ [⟨term, data⟩] <+: A.leaderLog term ∧ index = front.length + 1

theorem WrittenAt.grows {A A' : Protocol n C} (grows : Grows A A') {index term : Int}
    {data : Option C} (h : WrittenAt A index term data) : WrittenAt A' index term data := by
  obtain ⟨front, hfront, hindex⟩ := h
  exact ⟨front, hfront.trans (grows.leaderLog term), hindex⟩

section Peers

variable {A : Protocol n C} {p : Fin n} {rf rf' : Raft n C} {f c : Nat}

/-- An entry with a command was written by the leader of its term. -/
theorem PeerRel.written (valid : Valid A) (h : PeerRel A p rf f c) {index : Int}
    {entry : LogEntry C} (hentry : rf.logAt index = some entry) (hdata : entry.data ≠ none) :
    WrittenAt A index entry.term entry.data := by
  obtain ⟨i, rfl, _, hi, rfl⟩ := h.logAt_inv hentry
  have hlt : ¬ i ≤ f := fun hle => hdata (if_pos hle)
  obtain ⟨j, rfl⟩ : ∃ j, i = j + 1 := ⟨i - 1, by omega⟩
  have htake := List.take_append_getElem hi
  have hsound := (valid.log_wf p).sound ((A.log p).take j) (A.log p)[j] (by
    rw [htake]
    exact List.take_prefix _ _)
  have hread : entryAt f (A.log p) (j + 1) =
      ⟨(A.log p)[j].term, (j + 1 : Nat), (A.log p)[j].data⟩ := by
    simp only [entryAt, if_neg hlt, lastTerm_take_succ hi, Nat.add_sub_cancel,
      List.getElem?_eq_getElem hi, Option.bind_some]
  rw [hread]
  exact ⟨(A.log p).take j, hsound, by rw [take_length_of_le (Nat.le_of_lt hi)]; rfl⟩

/-- Below the commit index, an entry of the term in which `data` was written there is it. -/
theorem PeerRel.command_eq (valid : Valid A) (h : PeerRel A p rf f c) {index : Int}
    {entry : LogEntry C} {data command : Option C} (hentry : rf.logAt index = some entry)
    (hindex : index ≤ max f c) (hwritten : WrittenAt A index entry.term data)
    (hcommitted : CommittedAt A index command) : command = data := by
  obtain ⟨i, rfl, _, hi, hread⟩ := h.logAt_inv hentry
  obtain ⟨front, hfront, hlength⟩ := hwritten
  have hi' : (front ++ [(⟨entry.term, data⟩ : Entry (Option C))]).length = i := by
    simp only [List.length_append, List.length_singleton]
    omega
  have hheld : (A.log p).take i = front ++ [⟨entry.term, data⟩] := by
    have hsame := (valid.log_wf p).sound.take_eq
      ((valid.leaderLog_sound entry.term).shorten hfront) hi hi'.ge (by
        rw [← hi', List.take_length, hi', lastTerm_concat, hread]
        rfl)
    rwa [← hi', List.take_length, hi'] at hsame
  have hown : Committed A (A.term p) ((A.log p).take i) := by
    rcases le_max_iff.mp (Int.ofNat_le.mp hindex) with hle | hle
    · exact h.base.shorten (List.take_prefix_take_left hle)
    · exact h.committed.shorten (List.take_prefix_take_left hle)
  rw [hheld] at hown
  exact hcommitted.unique valid ⟨_, front, _, hown, hlength, rfl⟩

/-- What `Start` does when it takes the command. -/
theorem Raft.start_accepted {command : Option C} {index term : Int}
    (hrun : rf.start p command = some (rf', index, term, true)) :
    ∃ last, rf.getLastLog = some last ∧ index = last.index + 1 ∧
      rf'.log = rf.log ++ [⟨term, index, command⟩] := by
  unfold Raft.start at hrun
  split at hrun
  · cases hrun
  · obtain ⟨last, hlast, hrun⟩ := Option.bind_eq_some_iff.mp hrun
    cases hrun
    exact ⟨last, hlast, rfl, rfl⟩

/-- The command is in the log at the index and term that `Start` returned. -/
theorem PeerRel.start_logAt (h : PeerRel A p rf f c) {command : Option C} {index term : Int}
    (hrun : rf.start p command = some (rf', index, term, true)) :
    rf'.logAt index = some ⟨term, index, command⟩ := by
  obtain ⟨last, hlast, hindex, hlog⟩ := Raft.start_accepted hrun
  rw [h.last] at hlast
  obtain rfl := Option.some.inj hlast
  have hfirst : rf'.getFirstLog = some (entryAt f (A.log p) f) := by
    rw [Raft.getFirstLog_eq, hlog, h.log, List.head?_append, compact_head?]
    rfl
  have hoffset : index - (entryAt f (A.log p) f).index = (rf.log.length : Nat) := by
    have hbase := h.base_le
    rw [hindex, h.log, compact_length]
    simp only [entryAt]
    omega
  rw [Raft.logAt, hfirst, Option.bind_eq_bind, Option.bind_some, hoffset, Slice.get_natCast, hlog]
  exact List.getElem?_concat_length

/-- `Start` returns an index above everything the channel has delivered. -/
theorem Reps.start_above (h : Reps A p rf) {command : Option C} {index term : Int}
    (hrun : rf.start p command = some (rf', index, term, true)) {msg : ApplyMsg C}
    (hmem : msg ∈ rf.applyCh.msgs) : msg.index < index := by
  obtain ⟨f, c, hpeer, hchannel⟩ := h
  obtain ⟨last, hlast, hindex, _⟩ := Raft.start_accepted hrun
  rw [hpeer.last] at hlast
  obtain rfl := Option.some.inj hlast
  have hle := (hchannel.given msg hmem).1
  have hbase := hpeer.base_le
  have hcommit := hpeer.commit_le
  simp only [entryAt] at hindex
  omega

/-- A command is delivered where it was written, unless the entry there has changed terms. -/
theorem Reps.delivered_eq (valid : Valid A) (h : Reps A p rf) {msg : ApplyMsg C}
    (hmem : msg ∈ rf.applyCh.msgs) (hvalid : msg.commandValid = true) {entry : LogEntry C}
    (hentry : rf.logAt msg.commandIndex = some entry) {data : Option C}
    (hwritten : WrittenAt A msg.commandIndex entry.term data) : msg.command = data := by
  obtain ⟨f, c, hpeer, hchannel⟩ := h
  obtain ⟨hle, hcommitted⟩ := hchannel.given msg hmem
  rw [ApplyMsg.index, if_pos hvalid] at hle
  exact hpeer.command_eq valid hentry hle hwritten (hcommitted hvalid)

end Peers

namespace Cluster

variable {s s' : Cluster n C} {p : Fin n}

/-- `Start` is an action of the cluster. -/
theorem step_start {command : Option C} {after : Raft n C} {result : Int × Int × Bool}
    (hrun : (s.peers p).start p command = some (after, result)) :
    s.step (.start p command) = .ok (s.setPeer p after) := by
  simp [step, onPeer, hrun, Outcome.ofOption, Outcome.map]

/-- A crash starts the next incarnation. -/
theorem crash_incarnation (hreach : Reachable s) (hstep : s.step (.crash p) = .ok s') :
    (s'.peers p).incarnation = (s.peers p).incarnation + 1 := by
  obtain ⟨made, hmade, rfl⟩ := Outcome.map_eq_ok.mp hstep
  obtain ⟨first, last, _, _, hmake⟩ := (durable_of_reachable hreach p).make_eq p
    ((s.peers p).incarnation + 1)
  obtain rfl := Option.some.inj (hmake.symm.trans (Outcome.ofOption_eq_ok.mp hmade))
  simp [setPeer, Raft.restarted]

theorem Delivered.step (hreach : Reachable s) {action : Action n C}
    (hstep : s.step action = .ok s') {index : Int} {command : Option C}
    (h : s.Delivered index command) : s'.Delivered index command := by
  obtain ⟨channel, msg, hchannel, hmem, hrest⟩ := h
  rcases hchannel with ⟨p, rfl⟩ | ⟨p, hpast⟩
  · rcases channel_of_step hreach hstep p with ⟨_, _, hmsgs⟩ | ⟨rfl, _⟩
    · exact ⟨_, msg, Or.inl ⟨p, rfl⟩, hmsgs.subset hmem, hrest⟩
    · obtain ⟨made, _, rfl⟩ := Outcome.map_eq_ok.mp hstep
      exact ⟨_, msg, Or.inr ⟨p, List.mem_append_right _ (List.mem_singleton.mpr rfl)⟩, hmem, hrest⟩
  · refine ⟨channel, msg, Or.inr ⟨p, ?_⟩, hmem, hrest⟩
    rcases step_past hstep with hsame | ⟨q, hcrash⟩
    · rw [hsame]
      exact hpast
    · rw [hcrash]
      exact List.mem_append_left _ hpast

/-- A crash finds the bytes of some `Snapshot` in the persister, or none. -/
theorem persisted_of_runs {actions : List (Action n C)} (hrun : Runs step initial actions s)
    (p : Fin n) : Snapshotted actions (s.peers p).persister.snapshot := by
  have hcoherent := congrArg Stable.snapshot (durable_of_reachable hrun.reaches p).coherent
  rw [Persister.decode_snapshot] at hcoherent
  rw [hcoherent]
  exact snapshot_of_runs hrun p

end Cluster

end DistributedLabs
