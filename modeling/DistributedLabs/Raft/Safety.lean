import DistributedLabs.Raft.Encoding
import DistributedLabs.Raft.Refinement.Simulation

/-!
# Safety of a cluster

The properties of the replicated log, read back on the peers: at most one leader
for each term, logs that agree up to a common entry, leaders that hold what
earlier leaders committed, and one command for each index.  All but the first hold
as long as every log request is encoded as it was built; a request that is encoded
after its slots have been overwritten breaks each of them.
-/

namespace DistributedLabs

open DistributedLabs.Library
open DistributedLabs.Library.Replication

variable {n : Nat} {C : Type}

/-- The entry a peer holds at a log index. -/
def Raft.logAt (rf : Raft n C) (index : Int) : Option (LogEntry C) := do
  let first ← rf.getFirstLog
  Slice.get rf.log (index - first.index)

/-- A channel of some incarnation of some peer. -/
def Cluster.Channel (s : Cluster n C) (channel : ApplyChan C) : Prop :=
  (∃ p, (s.peers p).applyCh = channel) ∨ ∃ p, (p, channel) ∈ s.past

section Reading

variable {A : Protocol n C} {p : Fin n} {rf : Raft n C} {f c : Nat}

theorem PeerRel.logAt_eq (h : PeerRel A p rf f c) {i : Nat} (hf : f ≤ i)
    (hi : i ≤ (A.log p).length) : rf.logAt i = some (entryAt f (A.log p) i) := by
  rw [Raft.logAt, h.first, h.log]
  exact compact_get hf hi

theorem PeerRel.logAt_inv (h : PeerRel A p rf f c) {index : Int} {entry : LogEntry C}
    (hentry : rf.logAt index = some entry) : ∃ i : Nat, index = i ∧ f ≤ i ∧
      i ≤ (A.log p).length ∧ entry = entryAt f (A.log p) i := by
  rw [Raft.logAt, h.first, h.log] at hentry
  obtain ⟨i, hf, hi, hoffset, rfl⟩ := compact_get_inv h.base_le hentry
  simp only [entryAt] at hoffset
  exact ⟨i, by omega, hf, hi, rfl⟩

/-- Entries at one position of logs that agree up to it. -/
theorem entryAt_of_take_eq {f g i : Nat} {left right : List (Entry (Option C))}
    (heq : left.take i = right.take i) :
    (entryAt f left i).term = (entryAt g right i).term ∧
      (f < i → g < i → (entryAt f left i).data = (entryAt g right i).data) := by
  refine ⟨by simp only [entryAt, heq], fun hf hg => ?_⟩
  have hlt : i - 1 < i := by omega
  have hread : left[i - 1]? = right[i - 1]? := by
    have htake := congrArg (·[i - 1]?) heq
    simpa [List.getElem?_take_of_lt hlt] using htake
  simp [entryAt, Nat.not_le.mpr hf, Nat.not_le.mpr hg, hread]

/-- What one peer holds up to an entry and another one has as well, that one has compacted
or holds in the same form; at a compaction point only the term is stored. -/
theorem PeerRel.compacted_or_held (h : PeerRel A p rf f c) {A' : Protocol n C} {q : Fin n}
    {rf' : Raft n C} {f' c' : Nat} (h' : PeerRel A' q rf' f' c') {i : Nat}
    (hi : i ≤ (A.log p).length) (hpre : (A.log p).take i <+: A'.log q) {first : LogEntry C}
    (hfirst : rf.getFirstLog = some first) :
    (∃ first', rf'.getFirstLog = some first' ∧ (i : Int) ≤ first'.index) ∨
      ∃ entry', rf'.logAt i = some entry' ∧ entry'.index = i ∧
        entry'.term = (entryAt f (A.log p) i).term ∧
        (first.index < i → entry'.data = (entryAt f (A.log p) i).data) := by
  by_cases hcompacted : i ≤ f'
  · exact Or.inl ⟨_, h'.first, Int.ofNat_le.mpr hcompacted⟩
  · have hlength : i ≤ (A'.log q).length := by
      rw [← take_length_of_le hi]
      exact hpre.length_le
    have hsame : (A'.log q).take i = (A.log p).take i := by
      have htake := List.prefix_iff_eq_take.mp hpre
      rw [take_length_of_le hi] at htake
      exact htake.symm
    obtain ⟨hterms, hdata⟩ := entryAt_of_take_eq (f := f') (g := f) hsame
    refine Or.inr ⟨_, h'.logAt_eq (by omega) hlength, rfl, hterms, fun hlt => ?_⟩
    rw [h.first] at hfirst
    obtain rfl := Option.some.inj hfirst
    exact hdata (by omega) (Int.ofNat_lt.mp hlt)

theorem CommittedAt.unique (valid : Valid A) {index : Int} {left right : Option C}
    (hleft : CommittedAt A index left) (hright : CommittedAt A index right) : left = right := by
  obtain ⟨U, x, e, hx, hxi, rfl⟩ := hleft
  obtain ⟨V, y, d, hy, hyi, rfl⟩ := hright
  have hlength : (x ++ [e]).length = (y ++ [d]).length := by
    simp only [List.length_append, List.length_singleton]
    omega
  have heq : x ++ [e] = y ++ [d] := by
    rcases valid.committed_total hx hy with hpre | hpre
    · exact hpre.eq_of_length hlength
    · exact (hpre.eq_of_length hlength.symm).symm
  obtain ⟨_, hlast⟩ := List.append_inj' heq rfl
  rw [List.singleton_inj.mp hlast]

end Reading

namespace Cluster

variable {s s' : Cluster n C} {p q : Fin n}

/-- The peers of a cluster of three are written as numerals. -/
instance neZeroThree : @NeZero Nat Zero.ofOfNat0 3 :=
  ⟨Nat.succ_ne_zero 2⟩

/-- Peer 0 of three wins the first term with the vote of peer 1. -/
def electFirst : List (Action 3 Nat) :=
  [.ticker 0, .deliver 0, .answer 0, .concludeElection 0 0]

/-- Peer 0 commits its first command with the help of peer 1. -/
def commitFirst : List (Action 3 Nat) :=
  electFirst ++ [.start 0 (some 7), .sendLogTicketCore 0, .deliver 1, .answer 1]

/-- Two peers that lead in one term, at any moments of a run, are the same peer. -/
theorem election_safety (hreach : Reachable s) (hrun : Reaches step s s')
    (hp : (s.peers p).state = .leader) (hq : (s'.peers q).state = .leader)
    (hterm : (s.peers p).currentTerm = (s'.peers q).currentTerm) : p = q := by
  obtain ⟨A, h⟩ := exists_refines hreach
  obtain ⟨A', hsteps, h'⟩ := h.reaches hreach hrun
  obtain ⟨f, c, hpeer, _⟩ := h.peers p
  obtain ⟨f', c', hpeer', _⟩ := h'.peers q
  obtain ⟨m, hm, hleader, _⟩ := h.valid.leader (hpeer.leader_iff.mp hp)
  obtain ⟨m', hm', hleader', _⟩ := h'.valid.leader (hpeer'.leader_iff.mp hq)
  rw [hpeer.term, hpeer'.term] at hterm
  have hkept := (hsteps.grows h.valid).mandate hm
  rw [hterm] at hkept
  obtain rfl := Option.some.inj (hkept.symm.trans hm')
  exact hleader.symm.trans hleader'

theorem election_safety_first_term : ∃ s s' : Cluster 3 Nat, Reachable s ∧ Reaches step s s' ∧
    (s.peers 0).state = .leader ∧ (s'.peers 0).state = .leader ∧ (0 : Fin 3) = 0 := by
  have hchecked : RunHolds step electFirst initial fun s => (s.peers 0).state = .leader ∧
      RunHolds step [.start 0 (some 7)] s fun s' => (s'.peers 0).state = .leader ∧
        (s.peers 0).currentTerm = (s'.peers 0).currentTerm := by
    decide +kernel
  obtain ⟨s, hreach, hs, hrest⟩ := hchecked.exists_reaches
  obtain ⟨s', hrun, hs', hterm⟩ := hrest.exists_reaches
  exact ⟨s, s', hreach, hrun, hs, hs', election_safety hreach hrun hs hs' hterm⟩

/-- Some channel has delivered the command for the index. -/
def Delivered (s : Cluster n C) (index : Int) (command : Option C) : Prop :=
  ∃ channel msg, s.Channel channel ∧ msg ∈ channel.msgs ∧ msg.commandValid = true ∧
    msg.commandIndex = index ∧ msg.command = command

/-- What is delivered is in the committed log. -/
theorem Delivered.committed {A : Protocol n C} (hrefines : Refines A s) {index : Int}
    {command : Option C} (h : s.Delivered index command) : CommittedAt A index command := by
  obtain ⟨channel, msg, hchannel, hmem, hvalid, rfl, rfl⟩ := h
  rcases hchannel with ⟨p, rfl⟩ | ⟨p, hpast⟩
  · obtain ⟨f, c, _, hgiven⟩ := hrefines.peers p
    exact (hgiven.given msg hmem).2 hvalid
  · exact hrefines.past _ hpast msg hmem hvalid

end Cluster

namespace SharedCluster

open Cluster (electFirst commitFirst)

variable {s s' : SharedCluster n C} {p q : Fin n}

/-! ## Logs that agree -/

/-- Logs that have an entry of one term at `k` agree wherever both have an entry up to `k`. -/
theorem log_matching (hbuilt : BuiltReachable s) {k j : Int} {atP atQ : LogEntry C}
    {belowP belowQ : LogEntry C} (hp : (s.base.peers p).logAt k = some atP)
    (hq : (s.base.peers q).logAt k = some atQ) (hterm : atP.term = atQ.term) (hj : j ≤ k)
    (hjp : (s.base.peers p).logAt j = some belowP)
    (hjq : (s.base.peers q).logAt j = some belowQ) :
    belowP.term = belowQ.term ∧ ∀ firstP firstQ, (s.base.peers p).getFirstLog = some firstP →
      (s.base.peers q).getFirstLog = some firstQ → firstP.index < j → firstQ.index < j →
      belowP.data = belowQ.data := by
  obtain ⟨A, h⟩ := exists_refines hbuilt.reachable
  obtain ⟨f, c, hpeer, _⟩ := h.peers p
  obtain ⟨f', c', hpeer', _⟩ := h.peers q
  obtain ⟨i, rfl, hf, hi, rfl⟩ := hpeer.logAt_inv hp
  obtain ⟨i', heq, hf', hi', rfl⟩ := hpeer'.logAt_inv hq
  obtain rfl : i = i' := Int.ofNat.inj heq
  have hsame := (h.valid.log_wf p).sound.take_eq (h.valid.log_wf q).sound hi hi' hterm
  obtain ⟨m, rfl, hmf, hm, rfl⟩ := hpeer.logAt_inv hjp
  obtain ⟨m', heq, hmf', hm', rfl⟩ := hpeer'.logAt_inv hjq
  obtain rfl : m = m' := Int.ofNat.inj heq
  have hle : m ≤ i := Int.ofNat_le.mp hj
  have hbelow : (A.log p).take m = (A.log q).take m := by
    have htake := congrArg (List.take m) hsame
    rwa [List.take_take, List.take_take, Nat.min_eq_left hle] at htake
  obtain ⟨hterms, hdata⟩ := entryAt_of_take_eq (f := f) (g := f') hbelow
  refine ⟨hterms, fun firstP firstQ hfirstP hfirstQ hltP hltQ => ?_⟩
  rw [hpeer.first] at hfirstP
  obtain rfl := Option.some.inj hfirstP
  rw [hpeer'.first] at hfirstQ
  obtain rfl := Option.some.inj hfirstQ
  exact hdata (Int.ofNat_lt.mp hltP) (Int.ofNat_lt.mp hltQ)

theorem log_matching_first_entry : ∃ s : SharedCluster 3 Nat, BuiltReachable s ∧
    ∃ atP atQ, (s.base.peers 0).logAt 1 = some atP ∧ (s.base.peers 1).logAt 1 = some atQ ∧
      atP.term = atQ.term := by
  have hchecked : RunHolds Cluster.step commitFirst Cluster.initial fun s =>
      (s.peers 0).logAt 1 = some ⟨1, 1, some 7⟩ ∧ (s.peers 1).logAt 1 = some ⟨1, 1, some 7⟩ := by
    decide +kernel
  obtain ⟨t, hreach, hp, hq⟩ := hchecked.exists_reaches
  obtain ⟨s, hbuilt, rfl⟩ := reachable_iff.mp hreach
  exact ⟨s, hbuilt, _, _, hp, hq, (log_matching hbuilt hp hq rfl (Int.le_refl 1) hp hq).1⟩

/-- After a late encoding peers 2 and 3 agree at index 2 and not at index 1. -/
theorem overwritten_logs_disagree : ∃ s : SharedCluster 7 Nat, Reaches step initial s ∧
    (s.base.peers 2).logAt 2 = some ⟨1, 2, some 12⟩ ∧
    (s.base.peers 3).logAt 2 = some ⟨1, 2, some 12⟩ ∧
    (s.base.peers 2).logAt 1 = some ⟨2, 1, some 21⟩ ∧
    (s.base.peers 3).logAt 1 = some ⟨1, 1, some 11⟩ := by
  have hchecked : RunHolds step encodeLate initial fun s =>
      (s.base.peers 2).logAt 2 = some ⟨1, 2, some 12⟩ ∧
      (s.base.peers 3).logAt 2 = some ⟨1, 2, some 12⟩ ∧
      (s.base.peers 2).logAt 1 = some ⟨2, 1, some 21⟩ ∧
      (s.base.peers 3).logAt 1 = some ⟨1, 1, some 11⟩ := by
    decide +kernel
  exact hchecked.exists_reaches

/-! ## What later leaders hold -/

/-- What a peer counts as committed, as a leader does when its commit loop has raised the
commit index, is there for every leader of a larger term, at whatever moment that leader
is looked at: it is compacted, or it is the same entry.  At the own compaction point only
the term of the entry is still stored. -/
theorem leader_completeness (hbuilt : BuiltReachable s) {k : Int} {entry first : LogEntry C}
    (hk : k ≤ (s.base.peers p).commitIndex) (hfirst : (s.base.peers p).getFirstLog = some first)
    (hentry : (s.base.peers p).logAt k = some entry)
    (hmoment : BuiltRun s s' ∨ (BuiltReachable s' ∧ BuiltRun s' s))
    (hq : (s'.base.peers q).state = .leader)
    (hterm : (s.base.peers p).currentTerm < (s'.base.peers q).currentTerm) :
    (∃ first', (s'.base.peers q).getFirstLog = some first' ∧ k ≤ first'.index) ∨
      ∃ entry', (s'.base.peers q).logAt k = some entry' ∧ entry'.term = entry.term ∧
        (first.index < k → entry'.data = entry.data) := by
  obtain ⟨A, A', B, h, h', growsA, grows', validB⟩ : ∃ A A' B : Protocol n C, Refines A s.base ∧
      Refines A' s'.base ∧ Grows A B ∧ Grows A' B ∧ Valid B := by
    rcases hmoment with hafter | ⟨hbuilt', hbefore⟩
    · obtain ⟨A, h⟩ := exists_refines hbuilt.reachable
      obtain ⟨A', hsteps, h'⟩ := h.reaches hbuilt.reachable hafter.reaches
      exact ⟨A, A', A', h, h', hsteps.grows h.valid, Grows.refl A', h'.valid⟩
    · obtain ⟨A', h'⟩ := exists_refines hbuilt'.reachable
      obtain ⟨A, hsteps, h⟩ := h'.reaches hbuilt'.reachable hbefore.reaches
      exact ⟨A, A', A, h, h', Grows.refl A, hsteps.grows h'.valid, h.valid⟩
  obtain ⟨f, c, hpeer, _⟩ := h.peers p
  obtain ⟨f', c', hpeer', _⟩ := h'.peers q
  obtain ⟨m, hm, _, hlog⟩ := h'.valid.leader (hpeer'.leader_iff.mp hq)
  rw [hpeer.term, hpeer'.term] at hterm
  have hheld : (A.log p).take c <+: A'.log q := by
    rw [hlog]
    exact h'.valid.committed_held validB grows' (hpeer.committed.grows growsA) hterm hm
  obtain ⟨i, rfl, hf, hi, rfl⟩ := hpeer.logAt_inv hentry
  rw [hpeer.commit] at hk
  have hic : i ≤ c := Int.ofNat_le.mp hk
  have hpre : (A.log p).take i <+: A'.log q :=
    (List.take_prefix_take_left hic).trans hheld
  rcases hpeer.compacted_or_held hpeer' hi hpre hfirst with hcompacted |
    ⟨entry', hat, _, hterms, hdata⟩
  · exact Or.inl hcompacted
  · exact Or.inr ⟨entry', hat, hterms, hdata⟩

theorem leader_completeness_second_term : ∃ s s' : SharedCluster 3 Nat, BuiltReachable s ∧
    BuiltRun s s' ∧ (s.base.peers 0).state = .leader ∧ (s'.base.peers 1).state = .leader ∧
    (s.base.peers 0).currentTerm < (s'.base.peers 1).currentTerm ∧
    ((∃ first', (s'.base.peers 1).getFirstLog = some first' ∧ 1 ≤ first'.index) ∨
      ∃ entry', (s'.base.peers 1).logAt 1 = some entry' ∧ entry'.term = 1 ∧
        ((0 : Int) < 1 → entry'.data = some 7)) := by
  have hchecked : RunHolds Cluster.step commitFirst Cluster.initial fun s =>
      ((s.peers 0).state = .leader ∧
        1 ≤ (s.peers 0).commitIndex ∧ (s.peers 0).getFirstLog = some ⟨-1, 0, none⟩ ∧
        (s.peers 0).logAt 1 = some ⟨1, 1, some 7⟩) ∧
      RunHolds Cluster.step [.ticker 1, .deliver 3, .answer 3, .concludeElection 1 0] s fun s' =>
        (s'.peers 1).state = .leader ∧
          (s.peers 0).currentTerm < (s'.peers 1).currentTerm := by
    decide +kernel
  obtain ⟨t, hrun, ⟨hleader, hk, hfirst, hentry⟩, hrest⟩ := hchecked.exists_runs
  obtain ⟨t', hrun', hleader', hterm⟩ := hrest.exists_runs
  obtain ⟨past, s, hs, _, rfl, hsettled⟩ := settled_initial.exists_runs hrun
  obtain ⟨future, s', hs', _, rfl, _⟩ := hsettled.exists_runs hrun'
  exact ⟨s, s', ⟨past, hs⟩, ⟨future, hs'⟩, hleader, hleader', hterm,
    leader_completeness ⟨past, hs⟩ hk hfirst hentry (Or.inl ⟨future, hs'⟩) hleader' hterm⟩

/-- Peer 3 leads term 3 and has committed its entry of index 1.  Peer 2 leads term 4 with
another one there. -/
theorem later_leader_lacks_committed : ∃ s s' : SharedCluster 7 Nat, Reaches step initial s ∧
    Reaches step s s' ∧
    ((s.base.peers 3).state = .leader ∧ (s.base.peers 3).currentTerm = 3 ∧
      (s.base.peers 3).commitIndex = 3 ∧ (s.base.peers 3).logAt 1 = some ⟨1, 1, some 11⟩) ∧
    (s'.base.peers 2).state = .leader ∧ (s'.base.peers 2).currentTerm = 4 ∧
      (s'.base.peers 2).logAt 1 = some ⟨2, 1, some 21⟩ := by
  have hchecked : RunHolds step commitOver initial fun s =>
      ((s.base.peers 3).state = .leader ∧ (s.base.peers 3).currentTerm = 3 ∧
        (s.base.peers 3).commitIndex = 3 ∧ (s.base.peers 3).logAt 1 = some ⟨1, 1, some 11⟩) ∧
      RunHolds step (own [.ticker 2, .deliver 34, .deliver 35, .deliver 36, .answer 34, .answer 34,
        .answer 34, .concludeElection 2 0]) s fun s' =>
        (s'.base.peers 2).state = .leader ∧ (s'.base.peers 2).currentTerm = 4 ∧
          (s'.base.peers 2).logAt 1 = some ⟨2, 1, some 21⟩ := by
    decide +kernel
  obtain ⟨s, hreach, hleads, hrest⟩ := hchecked.exists_reaches
  obtain ⟨s', hrun, hleads'⟩ := hrest.exists_reaches
  exact ⟨s, s', hreach, hrun, hleads, hleads'⟩

/-! ## What is delivered -/

/-- Whatever two channels deliver for one index is the same command. -/
theorem state_machine_safety (hbuilt : BuiltReachable s) {left right : ApplyChan C}
    (hleft : s.base.Channel left) (hright : s.base.Channel right) {msg msg' : ApplyMsg C}
    (hmsg : msg ∈ left.msgs) (hmsg' : msg' ∈ right.msgs) (hvalid : msg.commandValid = true)
    (hvalid' : msg'.commandValid = true) (hindex : msg.commandIndex = msg'.commandIndex) :
    msg.command = msg'.command := by
  obtain ⟨A, h⟩ := exists_refines hbuilt.reachable
  have hcommitted := Cluster.Delivered.committed h ⟨left, msg, hleft, hmsg, hvalid, hindex, rfl⟩
  have hcommitted' := Cluster.Delivered.committed h ⟨right, msg', hright, hmsg', hvalid', rfl, rfl⟩
  exact hcommitted.unique h.valid hcommitted'

theorem state_machine_safety_first_index : ∃ s : SharedCluster 3 Nat, BuiltReachable s ∧
    ∃ msg ∈ (s.base.peers 0).applyCh.msgs, ∃ msg' ∈ (s.base.peers 1).applyCh.msgs,
      msg.commandIndex = msg'.commandIndex ∧ msg.command = msg'.command := by
  have hchecked : RunHolds Cluster.step (commitFirst ++ [.sendLogTicketCore 0, .deliver 2,
        .applyCollect 0, .applyLock 0, .applySend 0, .applyCollect 1, .applyLock 1, .applySend 1])
      Cluster.initial fun s => Raft.commandMsg ⟨1, 1, some 7⟩ ∈ (s.peers 0).applyCh.msgs ∧
        Raft.commandMsg ⟨1, 1, some 7⟩ ∈ (s.peers 1).applyCh.msgs := by
    decide +kernel
  obtain ⟨t, hreach, hmsg, hmsg'⟩ := hchecked.exists_reaches
  obtain ⟨s, hbuilt, rfl⟩ := reachable_iff.mp hreach
  exact ⟨s, hbuilt, _, hmsg, _, hmsg', rfl, state_machine_safety hbuilt (Or.inl ⟨0, rfl⟩)
    (Or.inl ⟨1, rfl⟩) hmsg hmsg' rfl rfl rfl⟩

/-- Peers 2 and 3 deliver different commands for index 1. -/
theorem commands_differ_at_one_index : ∃ s : SharedCluster 7 Nat, Reaches step initial s ∧
    Raft.commandMsg ⟨2, 1, some 21⟩ ∈ (s.base.peers 2).applyCh.msgs ∧
    Raft.commandMsg ⟨1, 1, some 11⟩ ∈ (s.base.peers 3).applyCh.msgs := by
  have hchecked : RunHolds step (followOver ++ own [.applyCollect 2, .applyLock 2, .applySend 2,
        .applyCollect 3, .applyLock 3, .applySend 3]) initial fun s =>
      Raft.commandMsg ⟨2, 1, some 21⟩ ∈ (s.base.peers 2).applyCh.msgs ∧
        Raft.commandMsg ⟨1, 1, some 11⟩ ∈ (s.base.peers 3).applyCh.msgs := by
    decide +kernel
  exact hchecked.exists_reaches

end SharedCluster

end DistributedLabs
