import DistributedLabs.Raft.Refinement.Leader

/-!
# Delivery, compaction and restarts as steps of the protocol

None of these changes the replicated log.  A batch holds committed entries, and a
peer only compacts what it has delivered.
-/

namespace DistributedLabs

open DistributedLabs.Library
open DistributedLabs.Library.Replication

variable {n : Nat} {C : Type} {A : Protocol n C} {p : Fin n} {rf rf' : Raft n C} {f c : Nat}

/-! ## Batches -/

theorem committedAt_entryAt {full : List (Entry (Option C))} {U : Int} {i : Nat}
    (hcommitted : Committed A U (full.take c)) (hf : f < i) (hc : i ≤ c)
    (hlength : c ≤ full.length) :
    CommittedAt A (entryAt f full i).index (entryAt f full i).data := by
  obtain ⟨k, rfl⟩ : ∃ k, i = k + 1 := ⟨i - 1, by omega⟩
  have hk : k < full.length := by omega
  refine ⟨U, full.take k, full[k], ?_, ?_, ?_⟩
  · rw [List.take_append_getElem hk]
    exact hcommitted.shorten (List.take_prefix_take_left hc)
  · rw [take_length_of_le (Nat.le_of_lt hk)]
    rfl
  · simp [entryAt, Nat.not_le.mpr hf, List.getElem?_eq_getElem hk]

/-- The applier collects the entries from `lastApplied` up to the commit index. -/
theorem PeerRel.collectEntries (h : PeerRel A p rf f c) {a : Nat} (ha : rf.lastApplied = a)
    (hf : f ≤ a) : rf.collectEntries f =
      some ((List.range (c - a)).map fun k => entryAt f (A.log p) (a + 1 + k)) := by
  unfold Raft.collectEntries
  rw [h.commit, ha, show ((c : Int) - a).toNat = c - a by omega]
  refine Slice.mapM_eq_some_map fun k hk => ?_
  have hk' : k < c - a := List.mem_range.mp hk
  have hle := h.commit_le
  rw [h.log, show (a : Int) + 1 + k - f = ((a + 1 + k : Nat) : Int) - f by omega]
  exact compact_get (by omega) (by omega)

/-- What the applier has collected when there was something to apply. -/
theorem PeerRel.collected (h : PeerRel A p rf f c) {first : LogEntry C}
    (hfirst : rf.getFirstLog = some first) (hpending : ¬rf.NothingToApply first)
    {toApply : List (LogEntry C)} (htoApply : rf.collectEntries first.index = some toApply) :
    ∃ a : Nat, rf.lastApplied = a ∧ f ≤ a ∧
      toApply = (List.range (c - a)).map fun k => entryAt f (A.log p) (a + 1 + k) := by
  rw [h.first] at hfirst
  obtain rfl := Option.some.inj hfirst
  simp only [Raft.NothingToApply, entryAt, h.commit, not_or, Int.not_le, Int.not_lt] at hpending
  obtain ⟨a, ha⟩ := Int.eq_ofNat_of_zero_le (show 0 ≤ rf.lastApplied by omega)
  have hf : f ≤ a := by omega
  simp only [entryAt] at htoApply
  rw [h.collectEntries ha hf] at htoApply
  exact ⟨a, ha, hf, (Option.some.inj htoApply).symm⟩

theorem Reps.applyCollect (h : Reps A p rf) (hrun : rf.applyCollect = .ok rf') : Reps A p rf' := by
  obtain ⟨f, c, hpeer, hchannel⟩ := h
  obtain ⟨htop, first, hfirst, ⟨_, rfl⟩ | ⟨hpending, toApply, htoApply, rfl⟩⟩ :=
    Raft.applyCollect_cases hrun
  · refine ⟨f, c, { hpeer with }, hchannel.congr ?_ rfl rfl rfl⟩
    rw [htop]
    rfl
  · refine ⟨f, c, { hpeer with }, { hchannel with batch := fun entry hmem => ?_ }⟩
    obtain ⟨a, ha, hf, rfl⟩ := hpeer.collected hfirst hpending htoApply
    split at hmem
    · cases hmem
    · obtain ⟨k, hk, rfl⟩ := List.mem_map.mp hmem
      have hk' : k < c - a := List.mem_range.mp hk
      refine ⟨by simp only [entryAt]; omega, ?_⟩
      exact committedAt_entryAt hpeer.committed (by omega) (by omega) hpeer.commit_le

theorem Reps.applyLock (h : Reps A p rf) (hrun : rf.applyLock = .ok rf') : Reps A p rf' := by
  obtain ⟨f, c, hpeer, hchannel⟩ := h
  have hsubset := Raft.applyLock_entries hrun
  have hbatch := fun entry hmem => hchannel.batch entry (hsubset hmem)
  obtain ⟨toApply, firstLog, _, _, _, hcases⟩ := Raft.applyLock_cases hrun
  rcases hcases with ⟨_, rfl⟩ | ⟨_, rfl⟩ | ⟨_, rfl⟩
  · exact ⟨f, c, { hpeer with }, { hchannel with batch := hbatch }⟩
  · exact ⟨f, c, { hpeer with }, { hchannel with batch := hbatch, seq := trivial }⟩
  · exact ⟨f, c, { hpeer with }, { hchannel with batch := hbatch, seq := trivial }⟩

theorem Reps.applySend (h : Reps A p rf) (hrun : rf.applySend = .ok rf') : Reps A p rf' := by
  obtain ⟨f, c, hpeer, hchannel⟩ := h
  obtain ⟨hsubset, entry, hentry, hmsgs⟩ := Raft.applySend_entries hrun
  obtain ⟨toApply, _, rest, _, rfl⟩ := Raft.applySend_cases hrun
  refine ⟨f, c, { hpeer with }, { hchannel with
    batch := fun other hmem => hchannel.batch other (hsubset hmem)
    given := fun msg hmem => ?_ }⟩
  rw [hmsgs] at hmem
  rcases List.mem_append.mp hmem with hold | hnew
  · exact hchannel.given msg hold
  · rw [List.mem_singleton.mp hnew]
    obtain ⟨hle, hcommitted⟩ := hchannel.batch entry hentry
    exact ⟨hle, fun _ => hcommitted⟩

theorem Reps.applyFinish (h : Reps A p rf) (hrun : rf.applyFinish = .ok rf') : Reps A p rf' := by
  obtain ⟨f, c, hpeer, hchannel⟩ := h
  obtain ⟨toApply, _, applied, rfl, _⟩ := Raft.applyFinish_cases hrun
  exact ⟨f, c, { hpeer with }, { hchannel with
    batch := fun entry hmem => by cases hmem
    seq := trivial }⟩

/-! ## Installed snapshots -/

theorem Reps.installLock (h : Reps A p rf) {k : Nat} (hrun : rf.installLock k = .ok rf') :
    Reps A p rf' := by
  obtain ⟨f, c, hpeer, hchannel⟩ := h
  obtain ⟨install, hinstall, _, rfl⟩ := Raft.installLock_cases hrun
  exact ⟨f, c, { hpeer with }, { hchannel with
    installs := fun other hmem => hchannel.installs other (List.mem_of_mem_eraseIdx hmem)
    seq := ⟨hchannel.installs install (List.mem_of_getElem? hinstall), rfl, rfl⟩ }⟩

theorem Reps.installSend (h : Reps A p rf) (hrun : rf.installSend = .ok rf') : Reps A p rf' := by
  obtain ⟨f, c, hpeer, hchannel⟩ := h
  obtain ⟨index, msg, hinstall, rfl⟩ := Raft.installSend_cases hrun
  have hseq := hchannel.seq
  rw [hinstall] at hseq
  obtain ⟨hle, hindex, hcommand⟩ := hseq
  refine ⟨f, c, { hpeer with }, { hchannel with given := fun other hmem => ?_, seq := hle }⟩
  rcases List.mem_append.mp hmem with hold | hnew
  · exact hchannel.given other hold
  · rw [List.mem_singleton.mp hnew]
    refine ⟨by omega, fun hvalid => ?_⟩
    rw [hcommand] at hvalid
    cases hvalid

/-- A delivered snapshot raises the commit index no further than the compaction point. -/
theorem Reps.installFinish (h : Reps A p rf) (hrun : rf.installFinish = .ok rf') :
    Reps A p rf' := by
  obtain ⟨f, c, hpeer, hchannel⟩ := h
  obtain ⟨index, hinstalled, applier, hsignalled, rfl⟩ := Raft.installFinish_cases hrun
  have hseq := hchannel.seq
  rw [hinstalled] at hseq
  have hle : index ≤ f := hseq
  have happlier : applier.entries = rf.applier.entries := Applier.entries_signalled hsignalled
  have hbase := hpeer.base_le
  have hcommit := hpeer.commit_le
  obtain ⟨c', hc', hcases⟩ : ∃ c' : Nat, max (c : Int) index = c' ∧
      (c' = c ∨ (c ≤ c' ∧ c' ≤ f)) :=
    ⟨(max (c : Int) index).toNat, by omega, by omega⟩
  refine ⟨f, c', { hpeer with commit := ?_, commit_le := by omega, committed := ?_ }, ?_⟩
  · rw [hpeer.commit]
    exact hc'
  · rcases hcases with rfl | ⟨_, hf⟩
    · exact hpeer.committed
    · exact hpeer.base.shorten (List.take_prefix_take_left hf)
  · refine ChannelRel.mono (Grows.refl A) (Nat.le_refl f) (show c ≤ c' by omega)
      { hchannel with batch := ?_, seq := trivial }
    rw [happlier]
    exact hchannel.batch

/-! ## Compaction -/

/-- The service only asks to compact what it was given. -/
theorem ChannelRel.given_le (h : ChannelRel A rf f c) {index : Int} (hgiven : rf.Given index) :
    index ≤ max f c := by
  rcases hgiven with rfl | ⟨msg, hmem, rfl⟩
  · have hstart := h.start
    omega
  · exact (h.given msg hmem).1

/-- A snapshot that compacts the log does so at a committed entry. -/
theorem PeerRel.serviceSnapshot (h : PeerRel A p rf f c) (hchannel : ChannelRel A rf f c)
    {index : Int} {bytes : Bytes} (hgiven : rf.Given index)
    (hrun : rf.serviceSnapshot index bytes = some rf') :
    rf' = rf ∨ ∃ i : Nat, index = i ∧ f < i ∧ i ≤ c ∧ rf' = ({ rf with
      log := compact i (A.log p)
      snapshot := bytes }).persist := by
  rcases Raft.serviceSnapshot_cases hrun with rfl | ⟨first, last, entry, rest, hfirst, hlast,
    hlow, hhigh, hentry, hrest, rfl⟩
  · exact Or.inl rfl
  · rw [h.first] at hfirst
    obtain rfl := Option.some.inj hfirst
    rw [h.last] at hlast
    obtain rfl := Option.some.inj hlast
    simp only [entryAt] at hlow hhigh hentry hrest
    have hle := hchannel.given_le hgiven
    obtain ⟨i, rfl⟩ := Int.eq_ofNat_of_zero_le (show 0 ≤ index by omega)
    have hf : f ≤ i := by omega
    have hi : i ≤ (A.log p).length := by omega
    rw [h.log, compact_get hf hi] at hentry
    obtain rfl := Option.some.inj hentry
    have hmove := compact_move hf hi
    rw [h.log] at hrest
    rw [hrest] at hmove
    refine Or.inr ⟨i, rfl, by omega, by omega, ?_⟩
    rw [← Option.some.inj hmove]
    rfl

theorem Reps.serviceSnapshot (h : Reps A p rf) {index : Int} {bytes : Bytes}
    (hgiven : rf.Given index) (hrun : rf.serviceSnapshot index bytes = some rf') :
    Reps A p rf' := by
  obtain ⟨f, c, hpeer, hchannel⟩ := h
  rcases hpeer.serviceSnapshot hchannel hgiven hrun with rfl | ⟨i, _, hf, hc, rfl⟩
  · exact ⟨f, c, hpeer, hchannel⟩
  · refine ⟨i, c,
      { hpeer with log := rfl, base_le := Nat.le_trans hc hpeer.commit_le, base := ?_ }, ?_⟩
    · exact hpeer.committed.shorten (List.take_prefix_take_left hc)
    · exact ChannelRel.mono (Grows.refl A) (Nat.le_of_lt hf) (Nat.le_refl c)
        (hchannel.congr rfl rfl rfl rfl)

/-! ## Restarts -/

theorem Reps.make (valid : Valid A) (h : Reps A p rf) (hdurable : rf.Durable)
    {incarnation : Nat} (hrun : Raft.make p rf.persister incarnation = some rf') :
    ∃ A', StepsBy p A A' ∧ Reps A' p rf' := by
  obtain ⟨f, c, hpeer, hchannel⟩ := h
  obtain ⟨hsteps, hpeer'⟩ := hpeer.stepDown valid
  obtain ⟨first, last, hfirst, hlast, hmake⟩ := hdurable.make_eq p incarnation
  obtain rfl := Option.some.inj (hmake.symm.trans hrun)
  rw [hpeer.log, compact_head?] at hfirst
  obtain rfl := Option.some.inj hfirst
  have hstable := hdurable.coherent
  refine ⟨_, hsteps, f, f, ?_, ?_⟩
  · exact {
      term := (congrArg Stable.currentTerm hstable).trans hpeer'.term
      vote := (congrArg Stable.voteFor hstable).trans hpeer'.vote
      role := hpeer'.role
      log := (congrArg Stable.log hstable).trans hpeer'.log
      base_le := hpeer'.base_le
      base := hpeer'.base
      commit := rfl
      commit_le := hpeer'.base_le
      committed := hpeer'.base
      matched := fun hleader => by simp at hleader
      next := fun hleader => by simp at hleader
      sends := fun dst hmem => by cases hmem }
  · exact {
      batch := fun entry hmem => by cases hmem
      given := fun msg hmem => by cases hmem
      start := Int.le_refl _
      installs := fun install hmem => by cases hmem
      seq := trivial }

end DistributedLabs
