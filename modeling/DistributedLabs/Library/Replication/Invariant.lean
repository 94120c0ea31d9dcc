import DistributedLabs.Library.Replication.State

/-!
# What the records say

Each clause below is about the records of one kind.  Together they are kept by
every step, and the clauses `Kept` and `KeptBallot` carry the later argument: a
member that acknowledged a prefix in some term still holds it, unless a leader of
a later term it has reached was elected without that prefix.
-/

namespace DistributedLabs.Library.Replication

variable {ι α : Type}

/-! ## The clauses -/

/-- Every prefix that ends in a term's entry is a prefix of that term's leader log. -/
def Sound (s : State ι α) (log : List (Entry α)) : Prop :=
  ∀ pre entry, pre ++ [entry] <+: log → pre ++ [entry] <+: s.leaderLog entry.term

def Sorted (log : List (Entry α)) : Prop :=
  log.Pairwise (fun first second => first.term ≤ second.term)

structure WellFormed (s : State ι α) (log : List (Entry α)) : Prop where
  sound : Sound s log
  sorted : Sorted log

/-- Some leader elected after `low` and no later than `high` lacked `x`. -/
def Broken (s : State ι α) (x : List (Entry α)) (low high : Int) : Prop :=
  ∃ T m l, low < T ∧ T ≤ high ∧ s.mandate T = some m ∧
    s.stood T m.leader = some l ∧ ¬ x <+: l

/-- `v` acknowledged the prefix `x` in term `T`. -/
def Acked (s : State ι α) (T : Int) (v : ι) (x : List (Entry α)) : Prop :=
  x <+: s.leaderLog T ∧ x.length ≤ s.ack T v

/-- A vote that is still open or that decided its election. -/
def Decisive (s : State ι α) (T : Int) (v : ι) : Prop :=
  ∀ m, s.mandate T = some m → v ∈ m.quorum

structure Valid [Fintype ι] (s : State ι α) : Prop where
  term_nonneg : ∀ p, 0 ≤ s.term p
  ballot_le : ∀ {T v b}, s.ballot T v = some b → T ≤ s.term v
  vote_ballot : ∀ {v c}, s.vote v = some c → ∃ l, s.ballot (s.term v) v = some (c, l)
  unvoted : ∀ {v}, s.vote v = none → s.ballot (s.term v) v = none
  stood_le : ∀ {T c l}, s.stood T c = some l → 0 < T ∧ T ≤ s.term c
  stood_lt : ∀ {T c l}, s.stood T c = some l → ∀ e ∈ l, e.term < T
  candidate : ∀ {c}, s.role c = .candidate → s.stood (s.term c) c = some (s.log c)
  unelected : ∀ {c m}, s.role c = .candidate → s.mandate (s.term c) = some m → m.leader ≠ c
  ballot_current : ∀ {T v c l}, s.ballot T v = some (c, l) →
    ∃ lc, s.stood T c = some lc ∧ UpToDate lc l
  quorum : ∀ {T m}, s.mandate T = some m →
    Majority m.quorum ∧ ∀ v ∈ m.quorum, ∃ l, s.ballot T v = some (m.leader, l)
  leaderLog : ∀ {T m}, s.mandate T = some m →
    ∃ l own, s.stood T m.leader = some l ∧ s.leaderLog T = l ++ own ∧
      ∀ e ∈ own, e.term = T
  unled : ∀ {T}, s.mandate T = none → s.leaderLog T = []
  leader : ∀ {p}, s.role p = .leader →
    ∃ m, s.mandate (s.term p) = some m ∧ m.leader = p ∧
      s.log p = s.leaderLog (s.term p)
  log_wf : ∀ p, WellFormed s (s.log p)
  stood_wf : ∀ {T c l}, s.stood T c = some l → WellFormed s l
  ballot_wf : ∀ {T v c l}, s.ballot T v = some (c, l) → WellFormed s l
  log_le : ∀ {p}, ∀ e ∈ s.log p, e.term ≤ s.term p
  ack_short : ∀ T v, s.ack T v ≤ (s.leaderLog T).length
  ack_le : ∀ {T v}, 0 < s.ack T v → T ≤ s.term v
  kept : ∀ {T v x}, Acked s T v x → x <+: s.log v ∨ Broken s x T (s.term v)
  kept_ballot : ∀ {T T' v x c l}, Acked s T v x → T < T' →
    s.ballot T' v = some (c, l) → Decisive s T' v →
    x <+: l ∨ Broken s x T (T' - 1)

theorem valid_initial [Fintype ι] : Valid (initial : State ι α) where
  term_nonneg _ := Int.le_refl 0
  ballot_le h := by cases h
  vote_ballot h := by cases h
  unvoted _ := rfl
  stood_le h := by cases h
  stood_lt h := by cases h
  candidate h := by cases h
  unelected h := by cases h
  ballot_current h := by cases h
  quorum h := by cases h
  leaderLog h := by cases h
  unled _ := rfl
  leader h := by cases h
  log_wf _ := ⟨fun pre entry h => by simp [initial] at h, List.Pairwise.nil⟩
  stood_wf h := by cases h
  ballot_wf h := by cases h
  log_le e he := by cases he
  ack_short _ _ := Nat.le_refl 0
  ack_le h := absurd h (Nat.lt_irrefl 0)
  kept h := Or.inl (by simpa [initial] using h.1)
  kept_ballot _ _ h := by cases h

/-! ## Consequences that need no step -/

namespace Valid

variable [Fintype ι] {s : State ι α}

theorem leaderLog_sorted (valid : Valid s) (T : Int) : Sorted (s.leaderLog T) := by
  cases hm : s.mandate T with
  | none =>
      rw [valid.unled hm]
      exact List.Pairwise.nil
  | some m =>
      obtain ⟨l, own, hstood, heq, hown⟩ := valid.leaderLog hm
      rw [heq]
      refine List.pairwise_append.mpr ⟨(valid.stood_wf hstood).sorted, ?_, ?_⟩
      · exact List.pairwise_of_forall_mem_list fun a ha b hb => by
          rw [hown a ha, hown b hb]
      · intro a ha b hb
        rw [hown b hb]
        exact Int.le_of_lt (valid.stood_lt hstood a ha)

theorem leaderLog_le (valid : Valid s) (T : Int) : ∀ e ∈ s.leaderLog T, e.term ≤ T := by
  intro e he
  cases hm : s.mandate T with
  | none =>
      rw [valid.unled hm] at he
      cases he
  | some m =>
      obtain ⟨l, own, hstood, heq, hown⟩ := valid.leaderLog hm
      rw [heq] at he
      rcases List.mem_append.mp he with hl | ho
      · exact Int.le_of_lt (valid.stood_lt hstood e hl)
      · exact Int.le_of_eq (hown e ho)

theorem leaderLog_sound (valid : Valid s) (T : Int) : Sound s (s.leaderLog T) := by
  intro pre e hpre
  cases hm : s.mandate T with
  | none =>
      rw [valid.unled hm] at hpre
      simp at hpre
  | some m =>
      obtain ⟨l, own, hstood, heq, hown⟩ := valid.leaderLog hm
      have hboth := hpre
      rw [heq] at hboth
      rcases List.prefix_or_prefix_of_prefix hboth (List.prefix_append l own) with hin | hout
      · exact (valid.stood_wf hstood).sound pre e hin
      · obtain ⟨mid, hmid⟩ := hout
        cases mid using List.reverseRecOn with
        | nil =>
            rw [List.append_nil] at hmid
            exact (valid.stood_wf hstood).sound pre e (hmid ▸ List.prefix_refl l)
        | append_singleton mid last =>
            rw [← List.append_assoc] at hmid
            obtain ⟨hfront, hlast⟩ := List.append_inj' hmid rfl
            obtain rfl : last = e := by simpa using hlast
            rw [← hmid, List.append_assoc, List.prefix_append_right_inj] at hboth
            have hterm := hown last (hboth.subset (by simp))
            rw [hterm]
            exact hpre

theorem leaderLog_wf (valid : Valid s) (T : Int) : WellFormed s (s.leaderLog T) :=
  ⟨valid.leaderLog_sound T, valid.leaderLog_sorted T⟩

/-- A term with a nonempty leader log was won. -/
theorem exists_mandate (valid : Valid s) {T : Int} (hne : s.leaderLog T ≠ []) :
    ∃ m, s.mandate T = some m := by
  cases hm : s.mandate T with
  | none => exact absurd (valid.unled hm) hne
  | some m => exact ⟨m, rfl⟩

theorem mandate_pos (valid : Valid s) {T : Int} {m : Mandate ι} (hm : s.mandate T = some m) :
    0 < T := by
  obtain ⟨l, own, hstood, _, _⟩ := valid.leaderLog hm
  exact (valid.stood_le hstood).1

/-- Two members never both win one term. -/
theorem mandate_unique [DecidableEq ι] (valid : Valid s) {T : Int} {m : Mandate ι} {p : ι}
    {quorum : Finset ι} (hm : s.mandate T = some m) (hmajority : Majority quorum)
    (hgranted : ∀ v ∈ quorum, ∃ l, s.ballot T v = some (p, l)) : m.leader = p := by
  obtain ⟨hold, hvotes⟩ := valid.quorum hm
  obtain ⟨v, hvold, hvnew⟩ := hold.exists_common hmajority
  obtain ⟨l, hl⟩ := hvotes v hvold
  obtain ⟨l', hl'⟩ := hgranted v hvnew
  rw [hl] at hl'
  exact congrArg Prod.fst (Option.some.inj hl')

/-- A member that has not reached a term has no records there. -/
theorem stood_none (valid : Valid s) {T : Int} {c : ι} (hlt : s.term c < T) :
    s.stood T c = none := by
  cases h : s.stood T c with
  | none => rfl
  | some l => exact absurd (valid.stood_le h).2 (Int.not_le.mpr hlt)

theorem ballot_none (valid : Valid s) {T : Int} {v : ι} (hlt : s.term v < T) :
    s.ballot T v = none := by
  cases h : s.ballot T v with
  | none => rfl
  | some b => exact absurd (valid.ballot_le h) (Int.not_le.mpr hlt)

/-- Two leaders of one term are the same member. -/
theorem leader_unique (valid : Valid s) {p q : ι} (hp : s.role p = .leader)
    (hq : s.role q = .leader) (hterm : s.term q = s.term p) : q = p := by
  obtain ⟨m, hm, hlead, _⟩ := valid.leader hp
  obtain ⟨m', hm', hlead', _⟩ := valid.leader hq
  rw [hterm, hm] at hm'
  obtain rfl := Option.some.inj hm'
  exact hlead'.symm.trans hlead

/-- Nobody but the winner of a term leads in it. -/
theorem not_leader (valid : Valid s) {p : ι} {m : Mandate ι}
    (hm : s.mandate (s.term p) = some m) (hne : m.leader ≠ p) : s.role p ≠ .leader := by
  intro hrole
  obtain ⟨m', hm', hleader, _⟩ := valid.leader hrole
  obtain rfl := Option.some.inj (hm.symm.trans hm')
  exact hne hleader

end Valid

theorem WellFormed.shorten {s : State ι α} {small large : List (Entry α)}
    (hwf : WellFormed s large) (hpre : small <+: large) : WellFormed s small :=
  ⟨fun pre e h => hwf.sound pre e (h.trans hpre), hwf.sorted.sublist hpre.sublist⟩

end DistributedLabs.Library.Replication
