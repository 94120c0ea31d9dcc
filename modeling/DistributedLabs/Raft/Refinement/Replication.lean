import DistributedLabs.Raft.Refinement.Election

/-!
# Copying a leader's log as steps of the protocol

A request that a peer takes in either finds its entries in the log already, or
the log is cut and replaced by the part of the leader's log that the request
covers.  Nothing committed is cut off, because the leader of a later term holds
everything that was committed before.
-/

namespace DistributedLabs

open DistributedLabs.Library
open DistributedLabs.Library.Replication

variable {n : Nat} {C : Type} {A : Protocol n C} {p src : Fin n} {rf rf' : Raft n C} {f c : Nat}

/-! ## Committed parts -/

theorem PeerRel.base_written (valid : Valid A) (h : PeerRel A p rf f c) {T : Int}
    {m : Mandate (Fin n)} (hterm : A.term p ≤ T) (hm : A.mandate T = some m) :
    (A.log p).take f <+: A.leaderLog T :=
  valid.committed_leaderLog (h.base.later hterm) hm

theorem PeerRel.committed_written (valid : Valid A) (h : PeerRel A p rf f c) {T : Int}
    {m : Mandate (Fin n)} (hterm : A.term p ≤ T) (hm : A.mandate T = some m) :
    (A.log p).take c <+: A.leaderLog T :=
  valid.committed_leaderLog (h.committed.later hterm) hm

theorem take_length_of_le {α : Type} {k : Nat} {items : List α} (hk : k ≤ items.length) :
    (items.take k).length = k := by
  simpa using hk

/-- Of two parts of one log, one of which is not in `full`, the part of `full` is shorter. -/
theorem take_shorter {α : Type} {full x whole : List α} {k : Nat} (hk : k ≤ full.length)
    (hfull : full.take k <+: whole) (hx : x <+: whole) (hdiffers : ¬ x <+: full) :
    k ≤ x.length ∧ x.take k = full.take k := by
  rcases List.prefix_or_prefix_of_prefix hfull hx with hin | hout
  · have hlength := hin.length_le
    rw [take_length_of_le hk] at hlength
    refine ⟨hlength, ?_⟩
    have heq := List.prefix_iff_eq_take.mp hin
    rw [take_length_of_le hk] at heq
    exact heq.symm
  · exact absurd (hout.trans (List.take_prefix k full)) hdiffers

/-- Both indexes may be raised to the end of a part that is committed. -/
theorem PeerRel.commits (h : PeerRel A p rf f c) (hcommits : Raft.Commits rf rf') {c' : Nat}
    (hindex : rf'.commitIndex = c') (hle : c' ≤ (A.log p).length)
    (hcommitted : Committed A (A.term p) ((A.log p).take c')) : PeerRel A p rf' f c' := by
  rw [hcommits.eq]
  exact { h with commit := hindex, commit_le := hle, committed := hcommitted }

theorem ChannelRel.commits (h : ChannelRel A rf f c) (hcommits : Raft.Commits rf rf') {c' : Nat}
    (hle : c ≤ c') : ChannelRel A rf' f c' := by
  have happlier : rf'.applier.entries = rf.applier.entries := by
    rcases hcommits.applier with heq | heq
    · rw [heq]
    · rw [heq, Applier.entries_wake]
  rw [hcommits.eq]
  exact ChannelRel.mono (Grows.refl A) (Nat.le_refl f) hle (h.congr happlier rfl rfl rfl)

/-! ## Log requests -/

/-- The loop cuts numbered entries right after the compaction point. -/
theorem trimEntries_number {k : Nat} {entries : List (Entry (Option C))} (hk : k ≤ f)
    (hf : f < k + entries.length) :
    Raft.trimEntries (f : Int) (number (k + 1) entries) =
      some (number (f + 1) (entries.drop (f - k))) := by
  induction entries generalizing k with
  | nil => simp at hf; omega
  | cons entry rest ih =>
      rw [List.length_cons] at hf
      simp only [number, Raft.trimEntries]
      split
      · next hgt =>
          obtain rfl : k = f := by omega
          simp [number]
      · next hle =>
          have hnext := ih (k := k + 1) (by omega) (by omega)
          rw [show f - k = f - (k + 1) + 1 by omega, List.drop_succ_cons, ← hnext]
          simp

/-- What the splice sees is again a part of the leader's log, and the same one. -/
theorem LogRel.trimmed (valid : Valid A) (hpeer : PeerRel A p rf f c)
    {args effective : SendLogArgs n C}
    {front entries : List (Entry (Option C))} (h : LogRel A src args front entries)
    (hterm : A.term p ≤ args.term)
    (htrimmed : Raft.Trimmed (entryAt f (A.log p) f) args effective) :
    effective.term = args.term ∧ ∃ front' entries', LogRel A src effective front' entries' ∧
      front' ++ entries' = front ++ entries ∧ (f ≤ front'.length ∨ entries' = []) ∧
      (front'.length ≤ front.length ∨ front'.length ≤ (A.log p).length) := by
  cases htrimmed with
  | whole above =>
      refine ⟨rfl, front, entries, h, rfl, ?_, Or.inl (Nat.le_refl _)⟩
      rcases above with hle | hnil
      · rw [h.prevIndex] at hle
        exact Or.inl (Int.ofNat_le.mp hle)
      · rw [h.numbered] at hnil
        exact Or.inr (number_eq_nil_iff.mp hnil)
  | @cut lastEntry below last above =>
      obtain ⟨m, hm, hleader⟩ := h.mandate
      have hbelow : front.length < f := by
        rw [h.prevIndex] at below
        exact Int.ofNat_lt.mp below
      have habove : f < front.length + entries.length := by
        rw [h.numbered, number_getLast?] at last
        obtain ⟨entry, _, rfl⟩ := Option.map_eq_some_iff.mp last
        simp only [entryAt] at above
        omega
      have hbase : (A.log p).take f = (front ++ entries).take f := by
        have hin := hpeer.base_written valid hterm hm
        refine (List.prefix_of_prefix_length_le hin
          ((List.take_prefix f _).trans h.written) ?_).eq_of_length ?_
        · rw [take_length_of_le hpeer.base_le, take_length_of_le (by simp; omega)]
        · rw [take_length_of_le hpeer.base_le, take_length_of_le (by simp; omega)]
      have hparts : (front ++ entries).take f ++ (front ++ entries).drop f = front ++ entries :=
        List.take_append_drop f _
      have hlength : ((front ++ entries).take f).length = f := take_length_of_le (by simp; omega)
      refine ⟨rfl, (front ++ entries).take f, (front ++ entries).drop f, ?_, hparts,
        Or.inl (by rw [hlength]), Or.inr (by rw [hlength]; exact hpeer.base_le)⟩
      exact {
        mandate := ⟨m, hm, hleader⟩
        written := by rw [hparts]; exact h.written
        prevIndex := by rw [hlength]; rfl
        prevTerm := by rw [← hbase]; rfl
        numbered := by
          rw [hlength, h.numbered]
          simp only [entryAt]
          rw [trimEntries_number (Nat.le_of_lt hbelow) habove, Option.getD_some,
            List.drop_append, List.drop_of_length_le (Nat.le_of_lt hbelow), List.nil_append]
        commit := by rw [hparts]; exact h.commit }

/-- A log that passes the check of `PrevLogTerm` agrees with the leader up to there. -/
theorem PeerRel.front_held (valid : Valid A) (h : PeerRel A p rf f c) {args : SendLogArgs n C}
    {front entries : List (Entry (Option C))} (hlog : LogRel A src args front entries)
    (hterm : A.term p ≤ args.term) (hcovered : front.length ≤ (A.log p).length)
    (hagrees : rf.prevLogAgrees (entryAt f (A.log p) f) args = some true) :
    front <+: A.log p := by
  obtain ⟨m, hm, _⟩ := hlog.mandate
  have hfront : front <+: A.leaderLog args.term :=
    (List.prefix_append front entries).trans hlog.written
  by_cases hlow : front.length ≤ f
  · refine (List.prefix_of_prefix_length_le hfront (h.base_written valid hterm hm) ?_).trans
      (List.take_prefix f _)
    rw [take_length_of_le h.base_le]
    exact hlow
  · unfold Raft.prevLogAgrees at hagrees
    rw [if_pos (by rw [hlog.prevIndex]; simp only [entryAt]; omega)] at hagrees
    obtain ⟨entry, hentry, hsame⟩ := Option.bind_eq_some_iff.mp hagrees
    rw [h.log, hlog.prevIndex] at hentry
    simp only [entryAt] at hentry
    rw [compact_get (by omega) hcovered] at hentry
    obtain rfl := Option.some.inj hentry
    have hlast : lastTerm ((A.log p).take front.length) = lastTerm front := by
      simpa [entryAt, hlog.prevTerm] using hsame
    exact (valid.log_wf p).sound.extends ((valid.leaderLog_sound args.term).shorten hfront)
      hcovered hlast

/-- The last entry sent has the index and the term of the end of the part. -/
theorem LogRel.lastEntry {args : SendLogArgs n C} {front entries : List (Entry (Option C))}
    {lastEntry : LogEntry C} (h : LogRel A src args front entries)
    (hlast : args.entries.getLast? = some lastEntry) :
    lastEntry.index = (front ++ entries).length ∧
      lastEntry.term = lastTerm (front ++ entries) := by
  rw [h.numbered, number_getLast?] at hlast
  obtain ⟨entry, hentry, rfl⟩ := Option.map_eq_some_iff.mp hlast
  refine ⟨?_, by simp [lastTerm, List.getLast?_append, hentry]⟩
  simp only [List.length_append]
  omega

/-- Whether the last entry is held decides whether the log has all of them. -/
theorem PeerRel.holdsEntry (valid : Valid A) (h : PeerRel A p rf f c)
    {args : SendLogArgs n C} {front entries : List (Entry (Option C))} {lastEntry : LogEntry C}
    (hlog : LogRel A src args front entries) (hlow : f ≤ front.length)
    (hlast : args.entries.getLast? = some lastEntry) :
    ∃ holds, rf.holdsEntry (entryAt f (A.log p) f) lastEntry = some holds ∧
      (holds = true ↔ front ++ entries <+: A.log p) := by
  obtain ⟨hindex, hterm⟩ := hlog.lastEntry hlast
  unfold Raft.holdsEntry
  rw [h.last]
  simp only [Option.bind_eq_bind, Option.bind_some, entryAt, hindex, h.log]
  by_cases hle : (front ++ entries).length ≤ (A.log p).length
  · have hge : ((A.log p).length : Int) ≥ (front ++ entries).length := Int.ofNat_le.mpr hle
    have hf : f ≤ (front ++ entries).length := by
      rw [List.length_append]
      omega
    simp only [if_pos hge, compact_get hf hle, Option.bind_some, entryAt, hterm]
    refine ⟨_, rfl, ?_⟩
    rw [decide_eq_true_iff]
    constructor
    · exact (valid.log_wf p).sound.extends
        ((valid.leaderLog_sound args.term).shorten hlog.written) hle
    · intro hprefix
      rw [← List.prefix_iff_eq_take.mp hprefix]
  · have hlt : ¬ ((A.log p).length : Int) ≥ (front ++ entries).length := by omega
    simp only [if_neg hlt]
    refine ⟨false, rfl, ?_⟩
    simp only [Bool.false_eq_true, false_iff]
    exact fun hprefix => hle hprefix.length_le

/-- The log stays if it has the entries; otherwise it becomes the part sent. -/
theorem PeerRel.merge (valid : Valid A) (h : PeerRel A p rf f c) {args : SendLogArgs n C}
    {front entries : List (Entry (Option C))} {log : List (LogEntry C)}
    (hlog : LogRel A src args front entries) (hfront : front <+: A.log p)
    (hlow : f ≤ front.length ∨ entries = [])
    (hmerged : rf.mergeEntries (entryAt f (A.log p) f) args = some log) :
    (log = compact f (A.log p) ∧ front ++ entries <+: A.log p) ∨
      (log = compact f (front ++ entries) ∧ f ≤ front.length ∧
        ¬ front ++ entries <+: A.log p) := by
  have hnonempty : ∀ {lastEntry}, args.entries.getLast? = some lastEntry → f ≤ front.length := by
    intro lastEntry hlast
    rcases hlow with hle | rfl
    · exact hle
    · rw [hlog.numbered] at hlast
      cases hlast
  unfold Raft.mergeEntries at hmerged
  cases hlast : args.entries.getLast? with
  | none =>
      simp only [hlast, Option.some.injEq] at hmerged
      have hnil : entries = [] := by
        rw [hlog.numbered, List.getLast?_eq_none_iff] at hlast
        exact number_eq_nil_iff.mp hlast
      subst hnil
      exact Or.inl ⟨hmerged.symm.trans h.log, by rw [List.append_nil]; exact hfront⟩
  | some lastEntry =>
      have hf := hnonempty hlast
      obtain ⟨holds, hholds, hiff⟩ := h.holdsEntry valid hlog hf hlast
      simp only [hlast, hholds, Option.bind_eq_bind, Option.bind_some] at hmerged
      cases holds with
      | true =>
          simp only [if_true, Option.some.injEq] at hmerged
          exact Or.inl ⟨hmerged.symm.trans h.log, hiff.mp rfl⟩
      | false =>
          simp only [Bool.false_eq_true, if_false] at hmerged
          refine Or.inr ⟨?_, hf, fun hprefix => by cases hiff.mpr hprefix⟩
          rw [h.log, hlog.prevIndex, hlog.numbered] at hmerged
          simp only [entryAt] at hmerged
          rw [compact_high hf hfront.length_le, ← List.prefix_iff_eq_take.mp hfront,
            Option.bind_some, compact_append hf] at hmerged
          exact (Option.some.inj hmerged).symm

/-! ## Copying -/

theorem PeerRel.leaveCandidate (h : PeerRel A p rf f c) (hnot : A.role p ≠ .leader) :
    rf.leaveCandidate = { rf with state := .follower } := by
  unfold Raft.leaveCandidate
  rw [h.role]
  cases hrole : A.role p with
  | follower => simp [stateOf]
  | candidate => simp [stateOf]
  | leader => exact absurd hrole hnot

/-- A peer that has a part of its leader's log may acknowledge it. -/
theorem PeerRel.hold (valid : Valid A) (h : PeerRel A p rf f c) {x : List (Entry (Option C))}
    (hwritten : x <+: A.leaderLog (A.term p)) (hheld : x <+: A.log p) :
    ∃ A', StepsBy p A A' ∧ PeerRel A' p rf f c ∧ x.length ≤ A'.ack (A.term p) p ∧
      A'.term p = A.term p ∧ A'.log p = A.log p := by
  have hx := List.prefix_iff_eq_take.mp hwritten
  have step := Step.acknowledge (p := p) hwritten.length_le (hx ▸ hheld)
  have grows := step.grows valid
  refine ⟨_, step.stepsBy, ?_, by simp, rfl, rfl⟩
  exact {
    term := h.term
    vote := h.vote
    role := h.role
    log := h.log
    base_le := h.base_le
    base := h.base.grows grows
    commit := h.commit
    commit_le := h.commit_le
    committed := h.committed.grows grows
    matched := fun hleader i =>
      Int.le_trans (h.matched hleader i) (Int.ofNat_le.mpr (grows.ack _ i))
    next := h.next
    sends := h.sends }

/-- A peer may take over a part of its leader's log that it does not have. -/
theorem PeerRel.copy (valid : Valid A) (h : PeerRel A p rf f c) {x : List (Entry (Option C))}
    {f' : Nat} (hwritten : x <+: A.leaderLog (A.term p)) (hdiffers : ¬ x <+: A.log p)
    (hf : f' ≤ x.length) (hbase : Committed A (A.term p) (x.take f'))
    (hc : c ≤ x.length) (hsame : x.take c = (A.log p).take c) :
    ∃ A', StepsBy p A A' ∧
      PeerRel A' p { rf with state := .follower, log := compact f' x } f' c ∧
      x.length ≤ A'.ack (A.term p) p ∧ A'.term p = A.term p ∧ A'.log p = x := by
  have hx := List.prefix_iff_eq_take.mp hwritten
  have step := Step.adopt (p := p) hwritten.length_le (hx ▸ hdiffers)
  have grows := step.grows valid
  refine ⟨_, step.stepsBy, ?_, by simp, rfl, by simp [← hx]⟩
  exact {
    term := h.term
    vote := h.vote
    role := by simp [stateOf]
    log := by simp [← hx]
    base_le := by simpa [← hx] using hf
    base := by simpa [← hx] using hbase.grows grows
    commit := h.commit
    commit_le := by simpa [← hx] using hc
    committed := by simpa [← hx, hsame] using h.committed.grows grows
    matched := fun hleader => by simp at hleader
    next := fun hleader => by simp at hleader
    sends := h.sends }

/-- Taking in a request is a step of the protocol. -/
theorem PeerRel.splice (valid : Valid A) (h : PeerRel A p rf f c) {args : SendLogArgs n C}
    {front entries : List (Entry (Option C))} {log : List (LogEntry C)}
    (hterm : A.term p = args.term) (hne : src ≠ p)
    (hlog : LogRel A src args front entries) (hfront : front <+: A.log p)
    (hlow : f ≤ front.length ∨ entries = [])
    (hmerged : rf.mergeEntries (entryAt f (A.log p) f) args = some log) :
    ∃ A', StepsBy p A A' ∧
      PeerRel A' p { rf.leaveCandidate with log := log } f c ∧
      (front ++ entries).length ≤ A'.ack (A.term p) p ∧ A'.term p = A.term p ∧
      front ++ entries <+: A'.log p := by
  obtain ⟨m, hm, hleader⟩ := hlog.mandate
  rw [← hterm] at hm
  have hwritten : front ++ entries <+: A.leaderLog (A.term p) := hterm ▸ hlog.written
  have hnot := valid.not_leader hm (hleader ▸ hne)
  rw [h.leaveCandidate hnot]
  rcases h.merge valid hlog hfront hlow hmerged with ⟨rfl, hheld⟩ | ⟨rfl, hf, hdiffers⟩
  · obtain ⟨hsteps₁, hpeer₁⟩ := h.stepDown valid
    obtain ⟨A₂, hsteps₂, hpeer₂, hack, hterm₂, hlog₂⟩ :=
      hpeer₁.hold (hsteps₁.valid valid) hwritten hheld
    refine ⟨A₂, hsteps₁.trans hsteps₂, { hpeer₂ with log := ?_ }, hack, hterm₂, ?_⟩
    · rw [hlog₂]
    · rw [hlog₂]
      exact hheld
  · obtain ⟨hc, hsame⟩ := take_shorter h.commit_le
      (h.committed_written valid (Int.le_refl _) hm) hwritten hdiffers
    have hbase : (front ++ entries).take f = (A.log p).take f := by
      rw [List.take_append_of_le_length hf]
      exact ((List.prefix_iff_eq_take.mp hfront) ▸ List.take_take).trans (by
        rw [Nat.min_eq_left hf])
    obtain ⟨A', hsteps, hpeer', hack, hterm', hlog'⟩ := h.copy valid hwritten hdiffers
      (by rw [List.length_append]; omega) (hbase ▸ h.base) hc hsame
    exact ⟨A', hsteps, hpeer', hack, hterm', hlog' ▸ List.prefix_refl _⟩

/-- Following the leader's commit index stays inside the part it sent. -/
theorem PeerRel.followCommit (h : PeerRel A p rf f c) (hchannel : ChannelRel A rf f c)
    {z : List (Entry (Option C))} (hz : z <+: A.log p) (hcommitted : Committed A (A.term p) z)
    (hrun : rf.followCommit z.length = some rf') : Reps A p rf' := by
  obtain ⟨hcommits, hcases⟩ := Raft.followCommit_cases hrun
  rcases hcases with hsame | ⟨last, hlast, hindex⟩
  · exact ⟨f, c, h.commits hcommits (hsame.trans h.commit) h.commit_le h.committed,
      hchannel.commits hcommits (Nat.le_refl c)⟩
  · rw [h.last] at hlast
    obtain rfl := Option.some.inj hlast
    have hle := hz.length_le
    have hindex' : rf'.commitIndex = z.length := by
      rw [hindex]
      simp only [entryAt]
      omega
    refine ⟨f, z.length, h.commits hcommits hindex' hle ?_, hchannel.commits hcommits ?_⟩
    · rw [← List.prefix_iff_eq_take.mp hz]
      exact hcommitted
    · have hmono := hcommits.le
      rw [h.commit, hindex'] at hmono
      exact Int.ofNat_le.mp hmono

theorem Reps.requestSendLog (valid : Valid A) (h : Reps A p rf) (hne : src ≠ p)
    {args : SendLogArgs n C} {reply : SendLogReply} {front entries : List (Entry (Option C))}
    (hlog : LogRel A src args front entries)
    (hrun : rf.requestSendLog args = some (rf', reply)) :
    ∃ A', StepsBy p A A' ∧ Reps A' p rf' ∧
      (reply.success = true → (front ++ entries).length ≤ A'.ack args.term p) := by
  obtain ⟨A₁, hsteps₁, hreps₁⟩ := h.catchUp valid args.term
  have valid₁ := hsteps₁.valid valid
  have hlog₁ := hlog.grows (hsteps₁.grows valid)
  cases Raft.requestSendLog_outcome hrun with
  | stale => exact ⟨A, StepsBy.refl p A, h, fun hsuccess => by cases hsuccess⟩
  | refused reached => exact ⟨A₁, hsteps₁, hreps₁, fun hsuccess => by cases hsuccess⟩
  | below reached hfirst hlast lower =>
      have hterm := hreps₁.catchUp_term reached
      obtain ⟨f, c, hpeer, hchannel⟩ := hreps₁
      obtain ⟨m, hm, _⟩ := hlog₁.mandate
      rw [hpeer.first] at hfirst
      obtain rfl := Option.some.inj hfirst
      rw [(hlog₁.lastEntry hlast).1] at lower
      have hheld : front ++ entries <+: A₁.log p := by
        refine (List.prefix_of_prefix_length_le hlog₁.written
          (hpeer.base_written valid₁ (Int.le_of_eq hterm) hm) ?_).trans (List.take_prefix f _)
        rw [take_length_of_le hpeer.base_le]
        exact Int.ofNat_le.mp lower
      obtain ⟨A₂, hsteps₂, hpeer₂, hack, _, _⟩ :=
        hpeer.hold valid₁ (hterm ▸ hlog₁.written) hheld
      exact ⟨A₂, hsteps₁.trans hsteps₂,
        ⟨f, c, hpeer₂, hchannel.carry (hsteps₂.grows valid₁) rfl rfl rfl rfl⟩,
        fun _ => hterm ▸ hack⟩
  | @taken _ _ _ log _ reached hfirst hlast covered trimmed agrees merged followed =>
      have hterm := hreps₁.catchUp_term reached
      obtain ⟨f, c, hpeer, hchannel⟩ := hreps₁
      rw [hpeer.first] at hfirst
      obtain rfl := Option.some.inj hfirst
      rw [hpeer.last] at hlast
      obtain rfl := Option.some.inj hlast
      rw [hlog₁.prevIndex] at covered
      have hcovered : front.length ≤ (A₁.log p).length := Int.ofNat_le.mp covered
      obtain ⟨heff, front', entries', hlog', hparts, hlow, hreach⟩ :=
        hlog₁.trimmed valid₁ hpeer (Int.le_of_eq hterm) trimmed
      have hterm' := hterm.trans heff.symm
      have hfront := hpeer.front_held valid₁ hlog' (Int.le_of_eq hterm') (by omega) agrees
      obtain ⟨A₂, hsteps₂, hpeer₂, hack, hterm₂, hheld⟩ :=
        hpeer.splice valid₁ hterm' hne hlog' hfront hlow merged
      obtain ⟨z, hz, hcommitted, hcommit⟩ := hlog₁.commit
      rw [hparts] at hack hheld
      have hcommitted₂ : Committed A₂ (A₂.term p) z := by
        rw [hterm₂, hterm]
        exact hcommitted.grows (hsteps₂.grows valid₁)
      rw [hcommit] at followed
      have hspliced : PeerRel A₂ p
          ({ (rf.catchUp args.term).leaveCandidate with log := log }).persist f c :=
        { hpeer₂ with }
      exact ⟨A₂, hsteps₁.trans hsteps₂, hspliced.followCommit
        (hchannel.carry (hsteps₂.grows valid₁) rfl rfl rfl rfl) (hz.trans hheld)
        hcommitted₂ followed, fun _ => hterm ▸ hack⟩

/-! ## Snapshot requests -/

/-- Whether the snapshot is covered decides whether the log has its part. -/
theorem PeerRel.coversSnapShot (valid : Valid A) (h : PeerRel A p rf f c)
    {args : RequestSnapShotArgs n} {front : List (Entry (Option C))} {covers : Bool}
    (hsnap : SnapShotRel A src args front) (hterm : A.term p ≤ args.term)
    (hcovers : rf.coversSnapShot args = some covers) :
    covers = true ↔ front <+: A.log p := by
  obtain ⟨m, hm, _⟩ := hsnap.mandate
  obtain ⟨first, last, hfirst, hlast, hcases⟩ := Raft.coversSnapShot_cases hcovers
  rw [h.first] at hfirst
  obtain rfl := Option.some.inj hfirst
  rw [h.last] at hlast
  obtain rfl := Option.some.inj hlast
  rw [hsnap.lastIndex, hsnap.lastTerm, h.log] at hcases
  simp only [entryAt, Int.ofNat_le, Int.ofNat_lt] at hcases
  rcases hcases with ⟨hle, rfl⟩ | ⟨hlt, hle, entry, hentry, hiff⟩ | ⟨_, hlt, rfl⟩
  · simp only [true_iff]
    refine (List.prefix_of_prefix_length_le hsnap.written
      (h.base_written valid hterm hm) ?_).trans (List.take_prefix f _)
    rw [take_length_of_le h.base_le]
    exact hle
  · rw [compact_get (Nat.le_of_lt hlt) hle] at hentry
    obtain rfl := Option.some.inj hentry
    rw [hiff]
    simp only [entryAt]
    constructor
    · exact (valid.log_wf p).sound.extends
        ((valid.leaderLog_sound args.term).shorten hsnap.written) hle
    · intro hprefix
      rw [← List.prefix_iff_eq_take.mp hprefix]
  · simp only [Bool.false_eq_true, false_iff]
    intro hprefix
    exact absurd hprefix.length_le (Nat.not_le.mpr hlt)

theorem Reps.requestInstallSnapShot (valid : Valid A) (h : Reps A p rf) (hne : src ≠ p)
    {args : RequestSnapShotArgs n} {reply : RequestSnapShotReply}
    {front : List (Entry (Option C))} (hsnap : SnapShotRel A src args front)
    (hrun : rf.requestInstallSnapShot args = some (rf', reply)) :
    ∃ A', StepsBy p A A' ∧ Reps A' p rf' ∧
      (reply.term ≤ args.term → front.length ≤ A'.ack args.term p) := by
  obtain ⟨A₁, hsteps₁, hreps₁⟩ := h.catchUp valid args.term
  have valid₁ := hsteps₁.valid valid
  have hsnap₁ := hsnap.grows (hsteps₁.grows valid)
  cases Raft.requestInstallSnapShot_outcome hrun with
  | stale lower =>
      exact ⟨A, StepsBy.refl p A, h.persist, fun hle => absurd hle (Int.not_le.mpr lower)⟩
  | covered reached covers =>
      have hterm := hreps₁.catchUp_term reached
      obtain ⟨f, c, hpeer, hchannel⟩ := hreps₁
      obtain ⟨m, hm, hleader⟩ := hsnap₁.mandate
      have hheld := (hpeer.coversSnapShot valid₁ hsnap₁ (Int.le_of_eq hterm) covers).mp rfl
      rw [hpeer.leaveCandidate (valid₁.not_leader (hterm ▸ hm) (hleader ▸ hne))]
      obtain ⟨hsteps₂, hpeer₂⟩ := hpeer.stepDown valid₁
      obtain ⟨A₃, hsteps₃, hpeer₃, hack, _, _⟩ :=
        hpeer₂.hold (hsteps₂.valid valid₁) (hterm ▸ hsnap₁.written) hheld
      have hsteps := hsteps₂.trans hsteps₃
      exact ⟨A₃, hsteps₁.trans hsteps,
        ⟨f, c, { hpeer₃ with }, hchannel.carry (hsteps.grows valid₁) rfl rfl rfl rfl⟩,
        fun _ => hterm ▸ hack⟩
  | replaced reached covers =>
      have hterm := hreps₁.catchUp_term reached
      obtain ⟨f, c, hpeer, hchannel⟩ := hreps₁
      obtain ⟨m, hm, hleader⟩ := hsnap₁.mandate
      have hdiffers : ¬ front <+: A₁.log p := fun hheld => by
        cases (hpeer.coversSnapShot valid₁ hsnap₁ (Int.le_of_eq hterm) covers).mpr hheld
      rw [hpeer.leaveCandidate (valid₁.not_leader (hterm ▸ hm) (hleader ▸ hne))]
      obtain ⟨hc, hsame⟩ := take_shorter hpeer.commit_le
        (hpeer.committed_written valid₁ (Int.le_of_eq hterm) hm) hsnap₁.written hdiffers
      obtain ⟨hf, _⟩ := take_shorter hpeer.base_le
        (hpeer.base_written valid₁ (Int.le_of_eq hterm) hm) hsnap₁.written hdiffers
      obtain ⟨A₂, hsteps₂, hpeer₂, hack, _, hlog₂⟩ := hpeer.copy valid₁
        (hterm ▸ hsnap₁.written) hdiffers (Nat.le_refl front.length)
        (by rw [List.take_length, hterm]; exact hsnap₁.committed) hc hsame
      refine ⟨A₂, hsteps₁.trans hsteps₂, ⟨front.length, c, { hpeer₂ with log := ?_ }, ?_⟩,
        fun _ => hterm ▸ hack⟩
      · rw [hlog₂]
        simp [Raft.replaceLog, Raft.persist, compact, number, hsnap₁.lastIndex, hsnap₁.lastTerm]
      · have hmono := ChannelRel.mono (hsteps₂.grows valid₁) hf (Nat.le_refl c) hchannel
        refine { hmono with installs := fun install hmem => ?_ }
        rcases List.mem_append.mp hmem with hold | hnew
        · exact hmono.installs install hold
        · rw [List.mem_singleton.mp hnew]
          exact Int.le_of_eq hsnap₁.lastIndex

end DistributedLabs
