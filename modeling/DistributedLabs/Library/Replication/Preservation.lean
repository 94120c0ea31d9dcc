import DistributedLabs.Library.Replication.Invariant

/-!
# Every step keeps the records consistent

The clauses are taken in turn.  `Grows` says that a step only adds to the
records, which is what lets every statement about a record survive the steps of
all other members.
-/

namespace DistributedLabs.Library.Replication

open Function (update)

/-- Records are added to, never changed. -/
structure Grows {ι α : Type} (s s' : State ι α) : Prop where
  term : ∀ p, s.term p ≤ s'.term p
  stood : ∀ {T c l}, s.stood T c = some l → s'.stood T c = some l
  ballot : ∀ {T v b}, s.ballot T v = some b → s'.ballot T v = some b
  mandate : ∀ {T m}, s.mandate T = some m → s'.mandate T = some m
  leaderLog : ∀ T, s.leaderLog T <+: s'.leaderLog T
  ack : ∀ T v, s.ack T v ≤ s'.ack T v

theorem Grows.refl {ι α : Type} (s : State ι α) : Grows s s :=
  ⟨fun _ => Int.le_refl _, id, id, id, fun _ => List.prefix_refl _, fun _ _ => Nat.le_refl _⟩

theorem Grows.trans {ι α : Type} {s t u : State ι α} (first : Grows s t) (second : Grows t u) :
    Grows s u :=
  ⟨fun p => Int.le_trans (first.term p) (second.term p),
    fun h => second.stood (first.stood h),
    fun h => second.ballot (first.ballot h),
    fun h => second.mandate (first.mandate h),
    fun T => (first.leaderLog T).trans (second.leaderLog T),
    fun T v => Nat.le_trans (first.ack T v) (second.ack T v)⟩

theorem Grows.sound {ι α : Type} {s s' : State ι α} (grows : Grows s s')
    {log : List (Entry α)} (hsound : Sound s log) : Sound s' log :=
  fun pre e h => (hsound pre e h).trans (grows.leaderLog e.term)

theorem Grows.wellFormed {ι α : Type} {s s' : State ι α} (grows : Grows s s')
    {log : List (Entry α)} (hwf : WellFormed s log) : WellFormed s' log :=
  ⟨grows.sound hwf.sound, hwf.sorted⟩

theorem Grows.broken {ι α : Type} {s s' : State ι α} (grows : Grows s s')
    {x : List (Entry α)} {low high high' : Int} (hle : high ≤ high')
    (hbroken : Broken s x low high) : Broken s' x low high' := by
  obtain ⟨T, m, l, hlow, hhigh, hm, hl, hx⟩ := hbroken
  exact ⟨T, m, l, hlow, Int.le_trans hhigh hle, grows.mandate hm, grows.stood hl, hx⟩

section

variable {ι α : Type} [Fintype ι] [DecidableEq ι] {s s' : State ι α} {p : ι}

/-! ## Records grow -/

theorem Step.term_le (step : Step p s s') (q : ι) : s.term q ≤ s'.term q := by
  by_cases hq : q = p
  · subst hq
    cases step with
    | advance higher => simpa using Int.le_of_lt higher
    | stand higher => simpa using Int.le_of_lt higher
    | _ => exact Int.le_refl _
  · cases step <;> simp [Function.update_of_ne hq]

/-- A candidate that gathers a majority finds its term without a leader. -/
theorem Valid.no_mandate (valid : Valid s) {quorum : Finset ι}
    (hcandidate : s.role p = .candidate) (hmajority : Majority quorum)
    (hgranted : ∀ v ∈ quorum, ∃ l, s.ballot (s.term p) v = some (p, l)) :
    s.mandate (s.term p) = none := by
  cases hm : s.mandate (s.term p) with
  | none => rfl
  | some m =>
      exact absurd (valid.mandate_unique hm hmajority hgranted)
        (valid.unelected hcandidate hm)

theorem Step.stood_keep (valid : Valid s) (step : Step p s s') {T : Int} {c : ι}
    {l : List (Entry α)} (h : s.stood T c = some l) : s'.stood T c = some l := by
  cases step with
  | stand higher => exact record_keeps (valid.stood_none higher) h
  | _ => exact h

theorem Step.ballot_keep (valid : Valid s) (step : Step p s s') {T : Int} {v : ι}
    {b : ι × List (Entry α)} (h : s.ballot T v = some b) : s'.ballot T v = some b := by
  cases step with
  | stand higher => exact record_keeps (valid.ballot_none higher) h
  | grant free standing current => exact record_keeps (valid.unvoted free) h
  | _ => exact h

theorem Step.mandate_keep (valid : Valid s) (step : Step p s s') {T : Int} {m : Mandate ι}
    (h : s.mandate T = some m) : s'.mandate T = some m := by
  cases step with
  | win candidate majority granted =>
      have hnone := valid.no_mandate candidate majority granted
      have hne : T ≠ s.term p := by
        rintro rfl
        rw [hnone] at h
        cases h
      simpa [Function.update_of_ne hne] using h
  | _ => exact h

theorem Step.leaderLog_grow (valid : Valid s) (step : Step p s s') (T : Int) :
    s.leaderLog T <+: s'.leaderLog T := by
  cases step with
  | win candidate majority granted =>
      by_cases hT : T = s.term p
      · subst hT
        rw [valid.unled (valid.no_mandate candidate majority granted)]
        exact List.nil_prefix
      · simp [Function.update_of_ne hT]
  | append leader =>
      by_cases hT : T = s.term p
      · subst hT
        obtain ⟨m, _, _, hlog⟩ := valid.leader leader
        simp [← hlog]
      · simp [Function.update_of_ne hT]
  | _ => exact List.prefix_refl _

theorem Step.ack_grow (valid : Valid s) (step : Step p s s') (T : Int) (v : ι) :
    s.ack T v ≤ s'.ack T v := by
  have hshort := valid.ack_short T v
  cases step with
  | win candidate majority granted =>
      rcases record_cases s.ack (s.term p) p (s.log p).length T v with ⟨rfl, rfl, h⟩ | ⟨_, h⟩
      · rw [valid.unled (valid.no_mandate candidate majority granted)] at hshort
        simpa [h] using Nat.le_trans hshort (Nat.zero_le _)
      · exact Nat.le_of_eq h.symm
  | append leader =>
      rcases record_cases s.ack (s.term p) p ((s.log p).length + 1) T v with
        ⟨rfl, rfl, h⟩ | ⟨_, h⟩
      · obtain ⟨m, _, _, hlog⟩ := valid.leader leader
        rw [← hlog] at hshort
        simpa [h] using Nat.le_succ_of_le hshort
      · exact Nat.le_of_eq h.symm
  | @acknowledge m short holds =>
      rcases record_cases s.ack (s.term p) p (max (s.ack (s.term p) p) m) T v with
        ⟨rfl, rfl, _⟩ | ⟨_, h⟩
      · simp
      · exact Nat.le_of_eq h.symm
  | @adopt m short differs =>
      rcases record_cases s.ack (s.term p) p (max (s.ack (s.term p) p) m) T v with
        ⟨rfl, rfl, _⟩ | ⟨_, h⟩
      · simp
      · exact Nat.le_of_eq h.symm
  | _ => exact Nat.le_refl _

theorem Step.grows (valid : Valid s) (step : Step p s s') : Grows s s' where
  term := step.term_le
  stood := step.stood_keep valid
  ballot := step.ballot_keep valid
  mandate := step.mandate_keep valid
  leaderLog := step.leaderLog_grow valid
  ack := step.ack_grow valid

/-! ## Votes and candidacies -/

theorem Step.term_nonneg (valid : Valid s) (step : Step p s s') (q : ι) : 0 ≤ s'.term q :=
  Int.le_trans (valid.term_nonneg q) (step.term_le q)

theorem Step.ballot_le (valid : Valid s) (step : Step p s s') {T : Int} {v : ι}
    {b : ι × List (Entry α)} (h : s'.ballot T v = some b) : T ≤ s'.term v := by
  have hterm := step.term_le v
  cases step with
  | @stand T' higher =>
      rcases record_cases s.ballot T' p (some (p, s.log p)) T v with ⟨rfl, rfl, _⟩ | ⟨_, hold⟩
      · simp
      · exact Int.le_trans (valid.ballot_le (hold.symm.trans h)) hterm
  | @grant c l free standing current =>
      rcases record_cases s.ballot (s.term p) p (some (c, s.log p)) T v with
        ⟨rfl, rfl, _⟩ | ⟨_, hold⟩
      · exact Int.le_refl _
      · exact valid.ballot_le (hold.symm.trans h)
  | _ => exact Int.le_trans (valid.ballot_le h) hterm

theorem Step.vote_ballot (valid : Valid s) (step : Step p s s') {v c : ι}
    (h : s'.vote v = some c) : ∃ l, s'.ballot (s'.term v) v = some (c, l) := by
  by_cases hv : v = p
  · subst hv
    cases step with
    | advance higher => simp at h
    | stand higher => exact ⟨s.log v, by simp_all⟩
    | grant free standing current => exact ⟨s.log v, by simp_all⟩
    | _ => exact valid.vote_ballot h
  · have hkeep : ∀ {l}, s.ballot (s.term v) v = some (c, l) →
        s'.ballot (s.term v) v = some (c, l) := step.ballot_keep valid
    cases step with
    | advance higher =>
        simp only [Function.update_of_ne hv] at h ⊢
        exact valid.vote_ballot h
    | stand higher =>
        simp only [Function.update_of_ne hv] at h ⊢
        obtain ⟨l, hl⟩ := valid.vote_ballot h
        exact ⟨l, hkeep hl⟩
    | grant free standing current =>
        simp only [Function.update_of_ne hv] at h
        obtain ⟨l, hl⟩ := valid.vote_ballot h
        exact ⟨l, hkeep hl⟩
    | _ => exact valid.vote_ballot h

theorem Step.unvoted (valid : Valid s) (step : Step p s s') {v : ι}
    (h : s'.vote v = none) : s'.ballot (s'.term v) v = none := by
  by_cases hv : v = p
  · subst hv
    cases step with
    | advance higher => simpa using valid.ballot_none higher
    | stand higher => simp at h
    | grant free standing current => simp at h
    | _ => exact valid.unvoted h
  · cases step with
    | advance higher =>
        simp only [Function.update_of_ne hv] at h ⊢
        exact valid.unvoted h
    | stand higher =>
        simp only [Function.update_of_ne hv] at h ⊢
        rw [record_of_ne _ _ _ _ hv]
        exact valid.unvoted h
    | grant free standing current =>
        simp only [Function.update_of_ne hv] at h
        simp only [record_of_ne _ _ _ _ hv]
        exact valid.unvoted h
    | _ => exact valid.unvoted h

theorem Step.stood_le (valid : Valid s) (step : Step p s s') {T : Int} {c : ι}
    {l : List (Entry α)} (h : s'.stood T c = some l) : 0 < T ∧ T ≤ s'.term c := by
  have hterm := step.term_le c
  cases step with
  | @stand T' higher =>
      rcases record_cases s.stood T' p (some (s.log p)) T c with ⟨rfl, rfl, _⟩ | ⟨_, hold⟩
      · exact ⟨Int.lt_of_le_of_lt (valid.term_nonneg c) higher, by simp⟩
      · obtain ⟨hpos, hle⟩ := valid.stood_le (hold.symm.trans h)
        exact ⟨hpos, Int.le_trans hle hterm⟩
  | _ =>
      obtain ⟨hpos, hle⟩ := valid.stood_le h
      exact ⟨hpos, Int.le_trans hle hterm⟩

theorem Step.stood_lt (valid : Valid s) (step : Step p s s') {T : Int} {c : ι}
    {l : List (Entry α)} (h : s'.stood T c = some l) : ∀ e ∈ l, e.term < T := by
  cases step with
  | @stand T' higher =>
      rcases record_cases s.stood T' p (some (s.log p)) T c with ⟨rfl, rfl, hnew⟩ | ⟨_, hold⟩
      · obtain rfl : s.log c = l := Option.some.inj (hnew.symm.trans h)
        intro e he
        exact Int.lt_of_le_of_lt (valid.log_le e he) higher
      · exact valid.stood_lt (hold.symm.trans h)
  | _ => exact valid.stood_lt h

theorem Step.candidate (valid : Valid s) (step : Step p s s') {c : ι}
    (h : s'.role c = .candidate) : s'.stood (s'.term c) c = some (s'.log c) := by
  by_cases hc : c = p
  · subst hc
    cases step with
    | stand higher => simp
    | acknowledge short holds => exact valid.candidate h
    | append leader =>
        rw [leader] at h
        cases h
    | _ => simp at h
  · cases step with
    | stand higher =>
        simp only [Function.update_of_ne hc] at h ⊢
        rw [record_of_ne _ _ _ _ hc]
        exact valid.candidate h
    | acknowledge short holds => exact valid.candidate h
    | append leader =>
        simp only [Function.update_of_ne hc]
        exact valid.candidate h
    | _ =>
        simp only [Function.update_of_ne hc] at h ⊢
        exact valid.candidate h

theorem Step.unelected (valid : Valid s) (step : Step p s s') {c : ι} {m : Mandate ι}
    (h : s'.role c = .candidate) (hm : s'.mandate (s'.term c) = some m) : m.leader ≠ c := by
  by_cases hc : c = p
  · subst hc
    cases step with
    | stand higher =>
        simp only [Function.update_self] at hm
        obtain ⟨l, own, hstood, _, _⟩ := valid.leaderLog hm
        rintro rfl
        exact absurd (valid.stood_le hstood).2 (Int.not_le.mpr higher)
    | acknowledge short holds => exact valid.unelected h hm
    | append leader =>
        rw [leader] at h
        cases h
    | _ => simp at h
  · cases step with
    | win candidate majority granted =>
        simp only [Function.update_of_ne hc] at h
        by_cases hT : s.term c = s.term p
        · simp only [hT, Function.update_self] at hm
          obtain rfl := Option.some.inj hm
          exact fun heq => hc heq.symm
        · simp only [Function.update_of_ne hT] at hm
          exact valid.unelected h hm
    | acknowledge short holds => exact valid.unelected h hm
    | append leader => exact valid.unelected h hm
    | _ =>
        simp only [Function.update_of_ne hc] at h hm
        exact valid.unelected h hm

theorem Step.ballot_current (valid : Valid s) (step : Step p s s') {T : Int} {v c : ι}
    {l : List (Entry α)} (h : s'.ballot T v = some (c, l)) :
    ∃ lc, s'.stood T c = some lc ∧ UpToDate lc l := by
  have hold : s.ballot T v = some (c, l) → ∃ lc, s'.stood T c = some lc ∧ UpToDate lc l := by
    intro hb
    obtain ⟨lc, hlc, hcur⟩ := valid.ballot_current hb
    exact ⟨lc, step.stood_keep valid hlc, hcur⟩
  cases step with
  | @stand T' higher =>
      rcases record_cases s.ballot T' p (some (p, s.log p)) T v with
        ⟨rfl, rfl, hnew⟩ | ⟨_, hsame⟩
      · have hpair := Option.some.inj (hnew.symm.trans h)
        cases hpair
        exact ⟨s.log v, by simp, UpToDate.refl _⟩
      · exact hold (hsame.symm.trans h)
  | @grant c' l' free standing current =>
      rcases record_cases s.ballot (s.term p) p (some (c', s.log p)) T v with
        ⟨rfl, rfl, hnew⟩ | ⟨_, hsame⟩
      · have hpair := Option.some.inj (hnew.symm.trans h)
        cases hpair
        exact ⟨l', standing, current⟩
      · exact hold (hsame.symm.trans h)
  | _ => exact hold h

/-! ## Mandates and leader logs -/

theorem Step.quorum (valid : Valid s) (step : Step p s s') {T : Int} {m : Mandate ι}
    (h : s'.mandate T = some m) :
    Majority m.quorum ∧ ∀ v ∈ m.quorum, ∃ l, s'.ballot T v = some (m.leader, l) := by
  have hold : s.mandate T = some m →
      Majority m.quorum ∧ ∀ v ∈ m.quorum, ∃ l, s'.ballot T v = some (m.leader, l) := by
    intro hm
    obtain ⟨hmajority, hvotes⟩ := valid.quorum hm
    refine ⟨hmajority, fun v hv => ?_⟩
    obtain ⟨l, hl⟩ := hvotes v hv
    exact ⟨l, step.ballot_keep valid hl⟩
  cases step with
  | win candidate majority granted =>
      by_cases hT : T = s.term p
      · subst hT
        simp only [Function.update_self] at h
        obtain rfl := Option.some.inj h
        exact ⟨majority, granted⟩
      · simp only [Function.update_of_ne hT] at h
        exact hold h
  | _ => exact hold h

theorem Step.leaderLog (valid : Valid s) (step : Step p s s') {T : Int} {m : Mandate ι}
    (h : s'.mandate T = some m) :
    ∃ l own, s'.stood T m.leader = some l ∧ s'.leaderLog T = l ++ own ∧
      ∀ e ∈ own, e.term = T := by
  cases step with
  | @stand T' higher =>
      obtain ⟨l, own, hstood, heq, hown⟩ := valid.leaderLog h
      exact ⟨l, own, record_keeps (valid.stood_none higher) hstood, heq, hown⟩
  | win candidate majority granted =>
      by_cases hT : T = s.term p
      · subst hT
        simp only [Function.update_self] at h
        obtain rfl := Option.some.inj h
        exact ⟨s.log p, [], valid.candidate candidate, by simp, by simp⟩
      · simp only [Function.update_of_ne hT] at h ⊢
        exact valid.leaderLog h
  | @append d leader =>
      obtain ⟨l, own, hstood, heq, hown⟩ := valid.leaderLog h
      by_cases hT : T = s.term p
      · subst hT
        obtain ⟨m', _, _, hlog⟩ := valid.leader leader
        refine ⟨l, own ++ [⟨s.term p, d⟩], hstood, ?_, ?_⟩
        · simp [hlog, heq]
        · intro e he
          rcases List.mem_append.mp he with hold | hnew
          · exact hown e hold
          · rw [List.mem_singleton.mp hnew]
      · exact ⟨l, own, hstood, by simpa [Function.update_of_ne hT] using heq, hown⟩
  | _ => exact valid.leaderLog h

theorem Step.unled (valid : Valid s) (step : Step p s s') {T : Int}
    (h : s'.mandate T = none) : s'.leaderLog T = [] := by
  cases step with
  | win candidate majority granted =>
      by_cases hT : T = s.term p
      · subst hT
        simp at h
      · simp only [Function.update_of_ne hT] at h ⊢
        exact valid.unled h
  | append leader =>
      have hT : T ≠ s.term p := by
        rintro rfl
        obtain ⟨m, hm, _, _⟩ := valid.leader leader
        rw [show s.mandate (s.term p) = none from h] at hm
        cases hm
      simpa [Function.update_of_ne hT] using valid.unled h
  | _ => exact valid.unled h

theorem Step.leader (valid : Valid s) (step : Step p s s') {q : ι}
    (h : s'.role q = .leader) :
    ∃ m, s'.mandate (s'.term q) = some m ∧ m.leader = q ∧
      s'.log q = s'.leaderLog (s'.term q) := by
  by_cases hq : q = p
  · subst hq
    cases step with
    | @win quorum candidate majority granted => exact ⟨⟨q, quorum⟩, by simp, rfl, by simp⟩
    | append leader =>
        obtain ⟨m, hm, hlead, _⟩ := valid.leader leader
        exact ⟨m, hm, hlead, by simp⟩
    | acknowledge short holds => exact valid.leader h
    | _ => simp at h
  · cases step with
    | win candidate majority granted =>
        simp only [Function.update_of_ne hq] at h
        obtain ⟨m, hm, hlead, hlog⟩ := valid.leader h
        have hT : s.term q ≠ s.term p := by
          intro hT
          rw [hT, valid.no_mandate candidate majority granted] at hm
          cases hm
        refine ⟨m, ?_, hlead, ?_⟩
        · simpa [Function.update_of_ne hT] using hm
        · simpa [Function.update_of_ne hT] using hlog
    | append leader =>
        have hT : s.term q ≠ s.term p := fun hT => hq (valid.leader_unique leader h hT)
        simp only [Function.update_of_ne hq, Function.update_of_ne hT]
        exact valid.leader h
    | acknowledge short holds => exact valid.leader h
    | _ =>
        simp only [Function.update_of_ne hq] at h ⊢
        exact valid.leader h

/-! ## The logs themselves -/

theorem Step.log_wf (valid : Valid s) (step : Step p s s') (q : ι) :
    WellFormed s' (s'.log q) := by
  have grows := step.grows valid
  have hold : WellFormed s' (s.log q) := grows.wellFormed (valid.log_wf q)
  by_cases hq : q = p
  · subst hq
    cases step with
    | @append d leader =>
        simp only [Function.update_self]
        refine ⟨fun pre e hpre => ?_, ?_⟩
        · rcases List.prefix_concat_iff.mp hpre with heq | hin
          · obtain ⟨_, hlast⟩ := List.append_inj' heq rfl
            obtain rfl : e = ⟨s.term q, d⟩ := by simpa using hlast
            simpa using hpre
          · exact hold.sound pre e hin
        · refine List.pairwise_append.mpr ⟨hold.sorted, List.pairwise_singleton _ _, ?_⟩
          intro e he last hlast
          rw [List.mem_singleton.mp hlast]
          exact valid.log_le e he
    | @adopt m short differs =>
        simp only [Function.update_self]
        exact (grows.wellFormed (valid.leaderLog_wf _)).shorten ( List.take_prefix m _)
    | _ => exact hold
  · cases step with
    | append leader => simpa only [Function.update_of_ne hq] using hold
    | adopt short differs => simpa only [Function.update_of_ne hq] using hold
    | _ => exact hold

theorem Step.stood_wf (valid : Valid s) (step : Step p s s') {T : Int} {c : ι}
    {l : List (Entry α)} (h : s'.stood T c = some l) : WellFormed s' l := by
  have grows := step.grows valid
  cases step with
  | @stand T' higher =>
      rcases record_cases s.stood T' p (some (s.log p)) T c with ⟨rfl, rfl, hnew⟩ | ⟨_, hold⟩
      · obtain rfl := Option.some.inj (hnew.symm.trans h)
        exact grows.wellFormed (valid.log_wf c)
      · exact grows.wellFormed (valid.stood_wf (hold.symm.trans h))
  | _ => exact grows.wellFormed (valid.stood_wf h)

/-- A vote found after a step was cast before it, or is cast now with the current log. -/
theorem Step.ballot_cases (step : Step p s s') {T : Int} {v c : ι} {l : List (Entry α)}
    (h : s'.ballot T v = some (c, l)) :
    s.ballot T v = some (c, l) ∨
      (l = s.log v ∧ (s.term v < T ∨
        (T = s.term v ∧ s.vote v = none ∧ s'.mandate = s.mandate))) := by
  cases step with
  | @stand T' higher =>
      rcases record_cases s.ballot T' p (some (p, s.log p)) T v with
        ⟨rfl, rfl, hnew⟩ | ⟨_, hold⟩
      · cases Option.some.inj (hnew.symm.trans h)
        exact Or.inr ⟨rfl, Or.inl higher⟩
      · exact Or.inl (hold.symm.trans h)
  | @grant c' l' free standing current =>
      rcases record_cases s.ballot (s.term p) p (some (c', s.log p)) T v with
        ⟨rfl, rfl, hnew⟩ | ⟨_, hold⟩
      · cases Option.some.inj (hnew.symm.trans h)
        exact Or.inr ⟨rfl, Or.inr ⟨rfl, free, rfl⟩⟩
      · exact Or.inl (hold.symm.trans h)
  | _ => exact Or.inl h

theorem Step.ballot_wf (valid : Valid s) (step : Step p s s') {T : Int} {v c : ι}
    {l : List (Entry α)} (h : s'.ballot T v = some (c, l)) : WellFormed s' l := by
  have grows := step.grows valid
  rcases step.ballot_cases h with hold | ⟨rfl, _⟩
  · exact grows.wellFormed (valid.ballot_wf hold)
  · exact grows.wellFormed (valid.log_wf v)

theorem Step.log_le (valid : Valid s) (step : Step p s s') {q : ι} :
    ∀ e ∈ s'.log q, e.term ≤ s'.term q := by
  intro e he
  have hterm := step.term_le q
  by_cases hq : q = p
  · subst hq
    cases step with
    | append leader =>
        simp only [Function.update_self] at he
        rcases List.mem_append.mp he with hold | hnew
        · exact valid.log_le e hold
        · rw [List.mem_singleton.mp hnew]
    | adopt short differs =>
        simp only [Function.update_self] at he
        exact valid.leaderLog_le _ e (List.mem_of_mem_take he)
    | _ => exact Int.le_trans (valid.log_le e he) hterm
  · cases step with
    | append leader =>
        simp only [Function.update_of_ne hq] at he
        exact valid.log_le e he
    | adopt short differs =>
        simp only [Function.update_of_ne hq] at he
        exact valid.log_le e he
    | _ => exact Int.le_trans (valid.log_le e he) hterm

/-! ## Acknowledgements -/

theorem Step.ack_short (valid : Valid s) (step : Step p s s') (T : Int) (v : ι) :
    s'.ack T v ≤ (s'.leaderLog T).length := by
  have hold : s.ack T v ≤ (s'.leaderLog T).length :=
    Nat.le_trans (valid.ack_short T v) (step.leaderLog_grow valid T).length_le
  cases step with
  | win candidate majority granted =>
      rcases record_cases s.ack (s.term p) p (s.log p).length T v with ⟨rfl, rfl, _⟩ | ⟨_, h⟩
      · simp
      · exact Nat.le_trans (Nat.le_of_eq h) hold
  | append leader =>
      rcases record_cases s.ack (s.term p) p ((s.log p).length + 1) T v with
        ⟨rfl, rfl, _⟩ | ⟨_, h⟩
      · simp
      · exact Nat.le_trans (Nat.le_of_eq h) hold
  | @acknowledge m short holds =>
      rcases record_cases s.ack (s.term p) p (max (s.ack (s.term p) p) m) T v with
        ⟨rfl, rfl, _⟩ | ⟨_, h⟩
      · simpa using ⟨hold, short⟩
      · exact Nat.le_trans (Nat.le_of_eq h) hold
  | @adopt m short differs =>
      rcases record_cases s.ack (s.term p) p (max (s.ack (s.term p) p) m) T v with
        ⟨rfl, rfl, _⟩ | ⟨_, h⟩
      · simpa using ⟨hold, short⟩
      · exact Nat.le_trans (Nat.le_of_eq h) hold
  | _ => exact hold

theorem Step.ack_le (valid : Valid s) (step : Step p s s') {T : Int} {v : ι}
    (h : 0 < s'.ack T v) : T ≤ s'.term v := by
  have hterm := step.term_le v
  cases step with
  | win candidate majority granted =>
      rcases record_cases s.ack (s.term p) p (s.log p).length T v with ⟨rfl, rfl, _⟩ | ⟨_, hold⟩
      · exact Int.le_refl _
      · exact valid.ack_le (Nat.lt_of_lt_of_eq h hold)
  | append leader =>
      rcases record_cases s.ack (s.term p) p ((s.log p).length + 1) T v with
        ⟨rfl, rfl, _⟩ | ⟨_, hold⟩
      · exact Int.le_refl _
      · exact valid.ack_le (Nat.lt_of_lt_of_eq h hold)
  | @acknowledge m short holds =>
      rcases record_cases s.ack (s.term p) p (max (s.ack (s.term p) p) m) T v with
        ⟨rfl, rfl, _⟩ | ⟨_, hold⟩
      · exact Int.le_refl _
      · exact valid.ack_le (Nat.lt_of_lt_of_eq h hold)
  | @adopt m short differs =>
      rcases record_cases s.ack (s.term p) p (max (s.ack (s.term p) p) m) T v with
        ⟨rfl, rfl, _⟩ | ⟨_, hold⟩
      · exact Int.le_refl _
      · exact valid.ack_le (Nat.lt_of_lt_of_eq h hold)
  | _ => exact Int.le_trans (valid.ack_le h) hterm

/-- What is acknowledged after a step was acknowledged before it, or is held now. -/
theorem Step.acked_cases (valid : Valid s) (step : Step p s s') {T : Int} {v : ι}
    {x : List (Entry α)} (h : Acked s' T v x) :
    Acked s T v x ∨ (T = s'.term v ∧ x <+: s'.log v) := by
  have hold : x.length ≤ s.ack T v → Acked s T v x := fun hlen =>
    ⟨List.prefix_of_prefix_length_le h.1 (step.leaderLog_grow valid T)
      (Nat.le_trans hlen (valid.ack_short T v)), hlen⟩
  obtain ⟨hx, hlen⟩ := h
  cases step with
  | win candidate majority granted =>
      rcases record_cases s.ack (s.term p) p (s.log p).length T v with ⟨rfl, rfl, _⟩ | ⟨_, hsame⟩
      · exact Or.inr ⟨rfl, by simpa using hx⟩
      · exact Or.inl (hold (Nat.le_trans hlen (Nat.le_of_eq hsame)))
  | append leader =>
      rcases record_cases s.ack (s.term p) p ((s.log p).length + 1) T v with
        ⟨rfl, rfl, _⟩ | ⟨_, hsame⟩
      · exact Or.inr ⟨rfl, by simpa using hx⟩
      · exact Or.inl (hold (Nat.le_trans hlen (Nat.le_of_eq hsame)))
  | @acknowledge m short holds =>
      rcases record_cases s.ack (s.term p) p (max (s.ack (s.term p) p) m) T v with
        ⟨rfl, rfl, hnew⟩ | ⟨_, hsame⟩
      · rcases Nat.le_total x.length (s.ack (s.term v) v) with hle | hgt
        · exact Or.inl (hold hle)
        · have hm : x.length ≤ m ∨ x.length ≤ s.ack (s.term v) v := by
            simpa [or_comm] using Nat.le_trans hlen (Nat.le_of_eq hnew)
          rcases hm with hm | hle
          · exact Or.inr ⟨rfl, (List.prefix_take_iff.mpr ⟨hx, hm⟩).trans holds⟩
          · exact Or.inl (hold hle)
      · exact Or.inl (hold (Nat.le_trans hlen (Nat.le_of_eq hsame)))
  | @adopt m short differs =>
      rcases record_cases s.ack (s.term p) p (max (s.ack (s.term p) p) m) T v with
        ⟨rfl, rfl, hnew⟩ | ⟨_, hsame⟩
      · have hm : x.length ≤ s.ack (s.term v) v ∨ x.length ≤ m := by
          simpa using Nat.le_trans hlen (Nat.le_of_eq hnew)
        rcases hm with hle | hm
        · exact Or.inl (hold hle)
        · exact Or.inr ⟨rfl, by simpa using List.prefix_take_iff.mpr ⟨hx, hm⟩⟩
      · exact Or.inl (hold (Nat.le_trans hlen (Nat.le_of_eq hsame)))
  | _ => exact Or.inl (hold hlen)

/-- A step drops an acknowledged prefix only for a leader elected without it. -/
theorem Step.log_keep (valid : Valid s) (step : Step p s s') {T : Int} {v : ι}
    {x : List (Entry α)} (hack : Acked s T v x) (hx : x <+: s.log v) :
    x <+: s'.log v ∨ Broken s' x T (s'.term v) := by
  by_cases hv : v = p
  · subst hv
    cases step with
    | append leader =>
        simp only [Function.update_self]
        exact Or.inl (hx.trans (List.prefix_append _ _))
    | @adopt m short differs =>
        simp only [Function.update_self]
        have hcompare : x <+: s.leaderLog (s.term v) →
            x <+: (s.leaderLog (s.term v)).take m := by
          intro hin
          rcases List.prefix_or_prefix_of_prefix hin ( List.take_prefix m _) with hle | hge
          · exact hle
          · exact absurd (hge.trans hx) differs
        rcases Int.lt_trichotomy T (s.term v) with hlt | rfl | hgt
        · obtain ⟨mandate, hm⟩ : ∃ mandate, s.mandate (s.term v) = some mandate := by
            refine valid.exists_mandate fun hnil => differs ?_
            rw [hnil]
            simp
          obtain ⟨l, own, hstood, heq, _⟩ := valid.leaderLog hm
          by_cases hl : x <+: l
          · refine Or.inl (hcompare ?_)
            rw [heq]
            exact hl.trans (List.prefix_append _ _)
          · exact Or.inr ⟨s.term v, mandate, l, hlt, Int.le_refl _, hm, hstood, hl⟩
        · exact Or.inl (hcompare hack.1)
        · have hzero : s.ack T v = 0 := by
            rcases Nat.eq_zero_or_pos (s.ack T v) with hz | hpos
            · exact hz
            · exact absurd (valid.ack_le hpos) (Int.not_le.mpr hgt)
          obtain rfl : x = [] := List.eq_nil_of_length_eq_zero (by
            have := hack.2
            omega)
          exact Or.inl List.nil_prefix
    | _ => exact Or.inl hx
  · cases step with
    | append leader => exact Or.inl (by simpa only [Function.update_of_ne hv] using hx)
    | adopt short differs => exact Or.inl (by simpa only [Function.update_of_ne hv] using hx)
    | _ => exact Or.inl hx

theorem Step.kept (valid : Valid s) (step : Step p s s') {T : Int} {v : ι}
    {x : List (Entry α)} (h : Acked s' T v x) :
    x <+: s'.log v ∨ Broken s' x T (s'.term v) := by
  rcases step.acked_cases valid h with hack | ⟨_, hnow⟩
  · rcases valid.kept hack with hx | hbroken
    · exact step.log_keep valid hack hx
    · exact Or.inr ((step.grows valid).broken (step.term_le v) hbroken)
  · exact Or.inl hnow

theorem Step.kept_ballot (valid : Valid s) (step : Step p s s') {T T' : Int} {v c : ι}
    {x l : List (Entry α)} (hack' : Acked s' T v x) (hlt : T < T')
    (hballot : s'.ballot T' v = some (c, l)) (hdecisive : Decisive s' T' v) :
    x <+: l ∨ Broken s' x T (T' - 1) := by
  have grows := step.grows valid
  rcases step.acked_cases valid hack' with hack | ⟨hnow, _⟩
  · rcases step.ballot_cases hballot with hold | ⟨rfl, hwhen⟩
    · have hbefore : Decisive s T' v := fun m hm => hdecisive m (grows.mandate hm)
      rcases valid.kept_ballot hack hlt hold hbefore with hx | hbroken
      · exact Or.inl hx
      · exact Or.inr (grows.broken (Int.le_refl _) hbroken)
    · rcases valid.kept hack with hx | hbroken
      · exact Or.inl hx
      · refine Or.inr ?_
        rcases hwhen with hearly | ⟨rfl, hfree, hsame⟩
        · exact grows.broken (by omega) hbroken
        · obtain ⟨T'', m, l, hlow, hhigh, hm, hl, hx⟩ := hbroken
          have hne : T'' ≠ s.term v := by
            rintro rfl
            have hin := hdecisive m (by rw [hsame]; exact hm)
            obtain ⟨_, hvotes⟩ := valid.quorum hm
            obtain ⟨l', hl'⟩ := hvotes v hin
            rw [valid.unvoted hfree] at hl'
            cases hl'
          exact ⟨T'', m, l, hlow, by omega, grows.mandate hm, grows.stood hl, hx⟩
  · exact absurd (step.ballot_le valid hballot) (by omega)

/-! ## Whole runs -/

theorem Step.valid (valid : Valid s) (step : Step p s s') : Valid s' where
  term_nonneg := step.term_nonneg valid
  ballot_le := step.ballot_le valid
  vote_ballot := step.vote_ballot valid
  unvoted := step.unvoted valid
  stood_le := step.stood_le valid
  stood_lt := step.stood_lt valid
  candidate := step.candidate valid
  unelected := step.unelected valid
  ballot_current := step.ballot_current valid
  quorum := step.quorum valid
  leaderLog := step.leaderLog valid
  unled := step.unled valid
  leader := step.leader valid
  log_wf := step.log_wf valid
  stood_wf := step.stood_wf valid
  ballot_wf := step.ballot_wf valid
  log_le := step.log_le valid
  ack_short := step.ack_short valid
  ack_le := step.ack_le valid
  kept := step.kept valid
  kept_ballot := step.kept_ballot valid

theorem Steps.valid (valid : Valid s) (steps : Steps s s') : Valid s' := by
  induction steps with
  | refl => exact valid
  | tail _ last ih =>
      obtain ⟨_, step⟩ := last
      exact step.valid ih

theorem Steps.grows (valid : Valid s) (steps : Steps s s') : Grows s s' := by
  induction steps with
  | refl => exact Grows.refl s
  | tail before last ih =>
      obtain ⟨_, step⟩ := last
      exact ih.trans (step.grows (Steps.valid valid before))

/-! ## Runs of a single member -/

/-- Any number of steps of `p`. -/
def StepsBy (p : ι) : State ι α → State ι α → Prop :=
  Relation.ReflTransGen (Step p)

theorem Step.stepsBy (step : Step p s s') : StepsBy p s s' :=
  Relation.ReflTransGen.single step

theorem StepsBy.refl (p : ι) (s : State ι α) : StepsBy p s s :=
  Relation.ReflTransGen.refl

theorem StepsBy.trans {s'' : State ι α} (first : StepsBy p s s') (second : StepsBy p s' s'') :
    StepsBy p s s'' :=
  Relation.ReflTransGen.trans first second

theorem StepsBy.steps (h : StepsBy p s s') : Steps s s' := by
  induction h with
  | refl => exact Relation.ReflTransGen.refl
  | tail _ last ih => exact ih.tail ⟨p, last⟩

theorem StepsBy.valid (valid : Valid s) (h : StepsBy p s s') : Valid s' :=
  Steps.valid valid h.steps

theorem StepsBy.grows (valid : Valid s) (h : StepsBy p s s') : Grows s s' :=
  Steps.grows valid h.steps

/-- `s` and `s'` give `q` the same term, vote, role and log. -/
structure SameFor (q : ι) (s s' : State ι α) : Prop where
  term : s'.term q = s.term q
  vote : s'.vote q = s.vote q
  role : s'.role q = s.role q
  log : s'.log q = s.log q

omit [Fintype ι] [DecidableEq ι] in
theorem SameFor.trans {q : ι} {s'' : State ι α} (first : SameFor q s s')
    (second : SameFor q s' s'') : SameFor q s s'' :=
  ⟨second.term.trans first.term, second.vote.trans first.vote,
    second.role.trans first.role, second.log.trans first.log⟩

theorem Step.frame (step : Step p s s') {q : ι} (hq : q ≠ p) : SameFor q s s' := by
  cases step <;> exact ⟨by simp [hq], by simp [hq], by simp [hq], by simp [hq]⟩

theorem StepsBy.frame (h : StepsBy p s s') {q : ι} (hq : q ≠ p) : SameFor q s s' := by
  induction h with
  | refl => exact ⟨rfl, rfl, rfl, rfl⟩
  | tail _ last ih => exact ih.trans (last.frame hq)

end

end DistributedLabs.Library.Replication
