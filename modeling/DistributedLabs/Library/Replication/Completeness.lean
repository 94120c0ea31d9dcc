import DistributedLabs.Library.Replication.Preservation

/-!
# Later leaders hold what was chosen

A prefix is chosen in a term when it ends in an entry of that term and a majority
acknowledged it there.  Every leader of a later term was elected with it: the
majority that acknowledged and the majority that voted share a member, and that
member held the prefix when it voted, because the leaders in between did.
-/

namespace DistributedLabs.Library.Replication

variable {ι α : Type}

/-! ## Comparing logs by the term of one entry -/

theorem Sound.last {s : State ι α} {log : List (Entry α)} {entry : Entry α}
    (hsound : Sound s (log ++ [entry])) : log ++ [entry] <+: s.leaderLog entry.term :=
  hsound log entry (List.prefix_refl _)

/-- Two logs whose entries at one position carry the same term agree up to it. -/
theorem Sound.take_eq {s : State ι α} {left right : List (Entry α)} {i : Nat}
    (hleft : Sound s left) (hright : Sound s right)
    (hl : i ≤ left.length) (hr : i ≤ right.length)
    (hterm : lastTerm (left.take i) = lastTerm (right.take i)) :
    left.take i = right.take i := by
  have hlength : (left.take i).length = (right.take i).length := by
    rw [List.length_take_of_le hl, List.length_take_of_le hr]
  have inLeft : left.take i <+: left := List.take_prefix i left
  have inRight : right.take i <+: right := List.take_prefix i right
  revert hlength hterm inLeft inRight
  generalize left.take i = a
  generalize right.take i = b
  intro hterm hlength inLeft inRight
  cases a using List.reverseRecOn with
  | nil =>
      exact (List.eq_nil_of_length_eq_zero hlength.symm).symm
  | append_singleton a x =>
      cases b using List.reverseRecOn with
      | nil => simp at hlength
      | append_singleton b y =>
          have hx := hleft a x inLeft
          have hy := hright b y inRight
          rw [lastTerm_concat, lastTerm_concat] at hterm
          rw [hterm] at hx
          exact (List.prefix_of_prefix_length_le hx hy hlength.le).eq_of_length hlength

theorem Sound.shorten {s : State ι α} {log x : List (Entry α)} (hsound : Sound s log)
    (hx : x <+: log) : Sound s x :=
  fun pre entry h => hsound pre entry (h.trans hx)

/-- A log that has the term of the last entry of `x` at that position extends `x`. -/
theorem Sound.extends {s : State ι α} {log x : List (Entry α)} (hlog : Sound s log)
    (hx : Sound s x) (hlen : x.length ≤ log.length)
    (hterm : lastTerm (log.take x.length) = lastTerm x) : x <+: log := by
  have heq := hlog.take_eq hx hlen (Nat.le_refl _) (by rw [List.take_length]; exact hterm)
  rw [List.take_length] at heq
  rw [← heq]
  exact List.take_prefix _ _

/-- Entries are only written in terms that were won, and those are positive. -/
theorem Valid.lastTerm_pos [Fintype ι] {s : State ι α} (valid : Valid s) {log : List (Entry α)}
    (hsound : Sound s log) (hne : log ≠ []) : 0 < lastTerm log := by
  cases log using List.reverseRecOn with
  | nil => exact absurd rfl hne
  | append_singleton log entry =>
      rw [lastTerm_concat]
      have hwritten := hsound.last
      obtain ⟨m, hm⟩ := valid.exists_mandate (T := entry.term) fun hnil => by
        rw [hnil] at hwritten
        simpa using hwritten.length_le
      exact valid.mandate_pos hm

theorem Sorted.le_lastTerm {log : List (Entry α)} (hsorted : Sorted log) {entry : Entry α}
    (hmem : entry ∈ log) : entry.term ≤ lastTerm log := by
  cases log using List.reverseRecOn with
  | nil => cases hmem
  | append_singleton log last =>
      rw [lastTerm_concat]
      rcases List.mem_append.mp hmem with hin | hend
      · exact (List.pairwise_append.mp hsorted).2.2 entry hin last (by simp)
      · rw [List.mem_singleton.mp hend]

/-- Along a log the terms do not decrease, from the term before its first entry on. -/
theorem Valid.lastTerm_mono [Fintype ι] {s : State ι α} (valid : Valid s)
    {x log : List (Entry α)} (hlog : WellFormed s log) (hx : x <+: log) :
    lastTerm x ≤ lastTerm log := by
  cases x using List.reverseRecOn with
  | nil =>
      cases log with
      | nil => exact Int.le_refl _
      | cons entry rest =>
          have hpos := valid.lastTerm_pos hlog.sound (List.cons_ne_nil entry rest)
          rw [lastTerm_nil]
          omega
  | append_singleton x entry =>
      rw [lastTerm_concat]
      exact hlog.sorted.le_lastTerm
        (hx.subset (List.mem_append_right x (List.mem_singleton_self _)))

/-- The last entry of a log is of a term that its owner has reached. -/
theorem Valid.lastTerm_le [Fintype ι] {s : State ι α} (valid : Valid s) (p : ι) :
    lastTerm (s.log p) ≤ s.term p := by
  have hreached := valid.log_le (p := p)
  have hnonneg := valid.term_nonneg p
  generalize s.log p = log at hreached
  cases log using List.reverseRecOn with
  | nil =>
      rw [lastTerm_nil]
      omega
  | append_singleton log entry =>
      rw [lastTerm_concat]
      exact hreached entry (List.mem_append_right log (List.mem_singleton_self _))

/-! ## Chosen and committed prefixes -/

section

variable [Fintype ι]

/-- A majority acknowledged `x`, which ends in an entry of term `T`, in term `T`. -/
structure Chosen (s : State ι α) (T : Int) (x : List (Entry α)) : Prop where
  ends : lastTerm x = T
  written : x <+: s.leaderLog T
  majority : ∃ quorum : Finset ι, Majority quorum ∧ ∀ v ∈ quorum, x.length ≤ s.ack T v

/-- `x` is part of something chosen no later than in term `U`. -/
def Committed (s : State ι α) (U : Int) (x : List (Entry α)) : Prop :=
  x = [] ∨ ∃ T y, 0 < T ∧ T ≤ U ∧ Chosen s T y ∧ x <+: y

theorem Committed.nil (s : State ι α) (U : Int) : Committed s U [] :=
  Or.inl rfl

theorem Committed.shorten {s : State ι α} {U : Int} {x y : List (Entry α)}
    (h : Committed s U y) (hpre : x <+: y) : Committed s U x := by
  rcases h with rfl | ⟨T, z, hpos, hle, hz, hy⟩
  · exact Or.inl (List.prefix_nil.mp hpre)
  · exact Or.inr ⟨T, z, hpos, hle, hz, hpre.trans hy⟩

theorem Committed.later {s : State ι α} {U V : Int} {x : List (Entry α)}
    (h : Committed s U x) (hle : U ≤ V) : Committed s V x := by
  rcases h with rfl | ⟨T, y, hpos, hT, hy, hx⟩
  · exact Or.inl rfl
  · exact Or.inr ⟨T, y, hpos, Int.le_trans hT hle, hy, hx⟩

theorem Chosen.grows {s s' : State ι α} (grows : Grows s s') {T : Int} {x : List (Entry α)}
    (h : Chosen s T x) : Chosen s' T x := by
  obtain ⟨hends, hwritten, quorum, hmajority, hacks⟩ := h
  exact ⟨hends, hwritten.trans (grows.leaderLog T), quorum, hmajority,
    fun v hv => Nat.le_trans (hacks v hv) (grows.ack T v)⟩

theorem Committed.grows {s s' : State ι α} (grows : Grows s s') {U : Int}
    {x : List (Entry α)} (h : Committed s U x) : Committed s' U x := by
  rcases h with rfl | ⟨T, y, hpos, hle, hy, hx⟩
  · exact Or.inl rfl
  · exact Or.inr ⟨T, y, hpos, hle, hy.grows grows, hx⟩

variable [DecidableEq ι] {s : State ι α}

/-- The voter that links the two majorities held the chosen prefix when it voted. -/
theorem Valid.linking_voter (valid : Valid s) {T T' : Int} {x : List (Entry α)}
    {m : Mandate ι} (hchosen : Chosen s T x) (hm : s.mandate T' = some m) (hlt : T < T')
    (earlier : ∀ T'' m'' l'', T < T'' → T'' < T' → s.mandate T'' = some m'' →
      s.stood T'' m''.leader = some l'' → x <+: l'') :
    ∃ v l, s.ballot T' v = some (m.leader, l) ∧ x <+: l := by
  obtain ⟨quorum, hmajority, hacks⟩ := hchosen.majority
  obtain ⟨hvoters, hvotes⟩ := valid.quorum hm
  obtain ⟨v, hvack, hvvote⟩ := hmajority.exists_common hvoters
  obtain ⟨l, hl⟩ := hvotes v hvvote
  have hdecisive : Decisive s T' v := by
    intro m' hm'
    rw [hm] at hm'
    obtain rfl := Option.some.inj hm'
    exact hvvote
  refine ⟨v, l, hl, ?_⟩
  rcases valid.kept_ballot ⟨hchosen.written, hacks v hvack⟩ hlt hl hdecisive with hx | hbroken
  · exact hx
  · obtain ⟨T'', m'', l'', hlow, hhigh, hm'', hl'', hx⟩ := hbroken
    exact absurd (earlier T'' m'' l'' hlow (by omega) hm'' hl'') hx

omit [DecidableEq ι] in
/-- An up-to-date log inherits a prefix that every leader in between held. -/
theorem Valid.inherit (valid : Valid s) {T T' : Int} {c : ι} {x l lv : List (Entry α)}
    (hpos : 0 < T) (hends : lastTerm x = T) (hstood : s.stood T' c = some l)
    (hvoter : WellFormed s lv) (hx : x <+: lv) (hcurrent : UpToDate l lv)
    (earlier : ∀ T'' m'' l'', T < T'' → T'' < T' → s.mandate T'' = some m'' →
      s.stood T'' m''.leader = some l'' → x <+: l'') : x <+: l := by
  have hxlast : T ≤ lastTerm lv := by
    cases x using List.reverseRecOn with
    | nil =>
        rw [lastTerm_nil] at hends
        omega
    | append_singleton x e =>
        rw [lastTerm_concat] at hends
        rw [← hends]
        exact hvoter.sorted.le_lastTerm (hx.subset (by simp))
  cases l using List.reverseRecOn with
  | nil =>
      rcases hcurrent with hlt | ⟨heq, _⟩
      · rw [lastTerm_nil] at hlt
        omega
      · rw [lastTerm_nil] at heq
        omega
  | append_singleton l e =>
      have hwritten := (valid.stood_wf hstood).sound.last
      rcases hcurrent with hlt | ⟨heq, hlen⟩
      · rw [lastTerm_concat] at hlt
        obtain ⟨m, hm⟩ := valid.exists_mandate (T := e.term) (by
          intro hnil
          rw [hnil] at hwritten
          simp at hwritten)
        obtain ⟨le, own, hle, hlog, _⟩ := valid.leaderLog hm
        have hbefore : e.term < T' := valid.stood_lt hstood e (by simp)
        have hxe : x <+: le := earlier e.term m le (by omega) hbefore hm hle
        have hlead : le <+: s.leaderLog e.term := by
          rw [hlog]
          exact List.prefix_append _ _
        rcases List.prefix_or_prefix_of_prefix hlead hwritten with hin | hout
        · exact hxe.trans hin
        · exact absurd (valid.stood_lt hle e (hout.subset (by simp))) (Int.lt_irrefl _)
      · cases lv using List.reverseRecOn with
        | nil =>
            rw [lastTerm_nil] at hxlast
            omega
        | append_singleton lv ev =>
            rw [lastTerm_concat, lastTerm_concat] at heq
            have hvwritten := hvoter.sound.last
            rw [← heq] at hvwritten
            exact hx.trans (List.prefix_of_prefix_length_le hvwritten hwritten hlen)

/-- Every leader of a later term was elected with every chosen prefix. -/
theorem Valid.complete (valid : Valid s) {T : Int} {x : List (Entry α)}
    (hpos : 0 < T) (hchosen : Chosen s T x) {T' : Int} {m : Mandate ι} {l : List (Entry α)}
    (hlt : T < T') (hm : s.mandate T' = some m) (hl : s.stood T' m.leader = some l) :
    x <+: l := by
  obtain ⟨k, hk⟩ : ∃ k : Nat, T' = T + 1 + k := ⟨(T' - T - 1).toNat, by omega⟩
  induction k using Nat.strongRecOn generalizing T' m l with
  | _ k ih =>
      have earlier : ∀ T'' m'' l'', T < T'' → T'' < T' → s.mandate T'' = some m'' →
          s.stood T'' m''.leader = some l'' → x <+: l'' := by
        intro T'' m'' l'' hlow hhigh hm'' hl''
        exact ih (T'' - T - 1).toNat (by omega) hlow hm'' hl'' (by omega)
      obtain ⟨v, lv, hballot, hx⟩ := valid.linking_voter hchosen hm hlt earlier
      obtain ⟨lc, hlc, hcurrent⟩ := valid.ballot_current hballot
      obtain rfl := Option.some.inj (hl.symm.trans hlc)
      exact valid.inherit hpos hchosen.ends hl (valid.ballot_wf hballot) hx hcurrent earlier

/-- At every moment a leader holds whatever is ever committed in an earlier term. -/
theorem Valid.committed_held {s' : State ι α} (valid : Valid s) (valid' : Valid s')
    (grows : Grows s s') {U T : Int} {x : List (Entry α)} {m : Mandate ι}
    (hcommitted : Committed s' U x) (hlt : U < T) (hm : s.mandate T = some m) :
    x <+: s.leaderLog T := by
  rcases hcommitted with rfl | ⟨T', y, hpos, hle, hy, hx⟩
  · exact List.nil_prefix
  · obtain ⟨l, own, hl, heq, _⟩ := valid.leaderLog hm
    have hstood := valid'.complete hpos hy (Int.lt_of_le_of_lt hle hlt)
      (grows.mandate hm) (grows.stood hl)
    rw [heq]
    exact hx.trans (hstood.trans (List.prefix_append _ _))

/-- A leader's log contains everything committed up to its own term. -/
theorem Valid.committed_leaderLog (valid : Valid s) {U : Int} {x : List (Entry α)}
    {m : Mandate ι} (hcommitted : Committed s U x) (hm : s.mandate U = some m) :
    x <+: s.leaderLog U := by
  rcases hcommitted with rfl | ⟨T, y, hpos, hle, hy, hx⟩
  · exact List.nil_prefix
  · rcases Int.lt_or_eq_of_le hle with hlt | rfl
    · exact valid.committed_held valid (Grows.refl s)
        (Or.inr ⟨T, y, hpos, Int.le_refl T, hy, hx⟩) hlt hm
    · exact hx.trans hy.written

/-- Any two committed prefixes are prefixes of one log. -/
theorem Valid.committed_total (valid : Valid s) {U V : Int} {x y : List (Entry α)}
    (hx : Committed s U x) (hy : Committed s V y) : x <+: y ∨ y <+: x := by
  rcases hx with rfl | ⟨T, z, hposT, hT, hz, hxz⟩
  · exact Or.inl List.nil_prefix
  · rcases hy with rfl | ⟨T', z', hposT', hT', hz', hyz⟩
    · exact Or.inr List.nil_prefix
    · have nonempty : ∀ {t : Int} {w : List (Entry α)}, 0 < t → Chosen s t w →
          ∃ m, s.mandate t = some m := by
        intro t w hpos hw
        refine valid.exists_mandate fun hnil => ?_
        obtain rfl := List.prefix_nil.mp (hnil ▸ hw.written)
        have hends := hw.ends
        rw [lastTerm_nil] at hends
        omega
      rcases Int.le_total T T' with hle | hle
      · obtain ⟨m, hm⟩ := nonempty hposT' hz'
        exact List.prefix_or_prefix_of_prefix
          (valid.committed_leaderLog (Or.inr ⟨T, z, hposT, hle, hz, hxz⟩) hm)
          (hyz.trans hz'.written)
      · obtain ⟨m, hm⟩ := nonempty hposT hz
        exact List.prefix_or_prefix_of_prefix (hxz.trans hz.written)
          (valid.committed_leaderLog (Or.inr ⟨T', z', hposT', hle, hz', hyz⟩) hm)

end

end DistributedLabs.Library.Replication
