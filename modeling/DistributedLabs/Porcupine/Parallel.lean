import DistributedLabs.Library.Table
import DistributedLabs.Porcupine.Verdict

/-!
# Checking the parts of a history at the same time

One goroutine checks each part of the history and sends its verdict.  The caller collects the
verdicts until one is negative, all are there or the time is up; then it tells the goroutines
to stop.  If it was asked for partial linearizations, it waits for all of them first.
-/

namespace DistributedLabs.Porcupine

open DistributedLabs.Library

variable {S I O : Type}

inductive CheckResult where
  | unknown
  | ok
  | illegal
  deriving DecidableEq

/-- A goroutine of `checkParallel`. -/
inductive Worker (S I O : Type) where
  | running (search : Search S I O)
  | returned (ok : Bool) (longest : Longest)
  | sent (longest : Longest)

/-- Where `checkParallel` is: in its loop, waiting for the other goroutines, or at its end. -/
inductive Phase where
  | collecting
  | draining
  | done
  deriving DecidableEq

/-- The variables of `checkParallel`. -/
structure Parallel (S I O : Type) where
  workers : List (Worker S I O)
  results : List Bool := []
  kill : Bool := false
  ok : Bool := true
  timedOut : Bool := false
  count : Nat := 0
  phase : Phase := .collecting

inductive ParallelAction where
  | turn (i : Nat)
  | send (i : Nat)
  | receive
  | timeout

/-- The state in which the loop of `checkSingle` starts. -/
def Search.start (model : Filled S I O) (history : List (Entry I O)) : Search S I O :=
  Search.initial model history (history.length / 2)

/-- The different sequences that the operations point to, in any order. -/
def Longest.partials (longest : Longest) : List (List Int) :=
  longest.refs.reduceOption.dedup.filterMap fun ref => longest.seqs[ref]?

namespace Parallel

def initial (model : Filled S I O) (history : List (List (Entry I O))) : Parallel S I O where
  workers := history.map fun subhistory => .running (Search.start model subhistory)

/-- The loop is left. -/
def leave (computeInfo : Bool) (c : Parallel S I O) : Parallel S I O :=
  { c with phase := if computeInfo ∧ c.count < c.workers.length then .draining else .done }

/-- A verdict is received in the loop. -/
def collect (computeInfo : Bool) (c : Parallel S I O) (result : Bool) (results : List Bool) :
    Parallel S I O :=
  let c := { c with results := results, count := c.count + 1, ok := c.ok && result }
  if !c.ok && !computeInfo then leave computeInfo { c with kill := true }
  else if c.count ≥ c.workers.length then leave computeInfo c
  else c

def receive (computeInfo : Bool) (c : Parallel S I O) : Outcome (Parallel S I O) :=
  match c.results, c.phase with
  | result :: results, .collecting => .ok (c.collect computeInfo result results)
  | _ :: results, .draining =>
      .ok (leave computeInfo { c with results := results, count := c.count + 1 })
  | _, _ => .blocked

def step (model : Filled S I O) (computeInfo : Bool) (timeout : Int) (c : Parallel S I O) :
    ParallelAction → Outcome (Parallel S I O)
  | .turn i =>
      match c.workers[i]? with
      | some (.running search) =>
          match search.turn model computeInfo c.kill with
          | none => .panic
          | some (.again next) => .ok { c with workers := c.workers.set i (.running next) }
          | some (.stop (ok, longest)) =>
              .ok { c with workers := c.workers.set i (.returned ok longest) }
      | _ => .blocked
  | .send i =>
      match c.workers[i]? with
      | some (.returned ok longest) =>
          .ok { c with
            workers := c.workers.set i (.sent longest)
            results := c.results ++ [ok] }
      | _ => .blocked
  | .receive => c.receive computeInfo
  | .timeout =>
      if 0 < timeout ∧ c.phase = .collecting then
        .ok (leave computeInfo { c with timedOut := true, kill := true })
      else .blocked

def result (c : Parallel S I O) : CheckResult :=
  if !c.ok then .illegal
  else if c.timedOut then .unknown
  else .ok

/-- What is returned for each part if partial linearizations were asked for. -/
def partialLinearizations (c : Parallel S I O) : List (List (List Int)) :=
  c.workers.map fun
    | .sent longest => longest.partials
    | _ => []

end Parallel

/-! ## Goroutines -/

variable {model : Filled S I O} {computeInfo : Bool} {timeout : Int}

/-- What a goroutine will tell, and a bound on the steps it takes.  Once it is told to stop it
may tell anything. -/
inductive Worker.Ranked (model : Filled S I O) (computeInfo kill verdict : Bool) :
    Worker S I O → Nat → Prop where
  | running {search : Search S I O} {turns : Nat}
      (stops : kill = false → ∃ longest,
        Stops (Search.turn model computeInfo false) (verdict, longest) turns search) :
      Ranked model computeInfo kill verdict (.running search) (turns + 3)
  | returned {ok : Bool} {longest : Longest} (sound : kill = false → ok = verdict) :
      Ranked model computeInfo kill verdict (.returned ok longest) 2
  | sent {longest : Longest} : Ranked model computeInfo kill verdict (.sent longest) 1

namespace Worker.Ranked

variable {kill verdict : Bool} {w : Worker S I O} {rank : Nat}

/-- The goroutine is told to stop. -/
theorem killed (h : Ranked model computeInfo kill verdict w rank) :
    Ranked model computeInfo true verdict w rank := by
  cases h with
  | running stops => exact .running fun heq => by cases heq
  | returned sound => exact .returned fun heq => by cases heq
  | sent => exact .sent

/-- Told to stop, the goroutine does so in its next turn. -/
theorem turn_killed (model : Filled S I O) (computeInfo : Bool) (search : Search S I O) :
    ∃ result, search.turn model computeInfo true = some (.stop result) := by
  unfold Search.turn
  split
  · exact ⟨_, rfl⟩
  · exact ⟨_, rfl⟩

/-- A turn of the goroutine leads to fewer turns. -/
theorem turn {search : Search S I O}
    (h : Ranked model computeInfo kill verdict (.running search) rank) :
    ∃ r, search.turn model computeInfo kill = some r ∧ match r with
      | .again next => ∃ less < rank, Ranked model computeInfo kill verdict (.running next) less
      | .stop (ok, longest) =>
          ∃ less < rank, Ranked model computeInfo kill verdict (.returned ok longest) less := by
  cases h with
  | running stops =>
      cases kill with
      | true =>
          obtain ⟨⟨ok, longest⟩, hturn⟩ := turn_killed model computeInfo search
          exact ⟨_, hturn, 2, by omega, .returned fun heq => by cases heq⟩
      | false =>
          obtain ⟨longest, hstops⟩ := stops rfl
          cases hstops with
          | stop last => exact ⟨_, last, 2, by omega, .returned fun _ => rfl⟩
          | @again _ _ turns first rest =>
              exact ⟨_, first, turns + 3, by omega, .running fun _ => ⟨longest, rest⟩⟩

end Worker.Ranked

/-! ## Invariant -/

theorem sum_set_lt {ranks : List Nat} {i rank less : Nat} (hread : ranks[i]? = some rank)
    (hless : less < rank) : (ranks.set i less).sum < ranks.sum := by
  induction ranks generalizing i with
  | nil => cases hread
  | cons first rest ih =>
      cases i with
      | zero =>
          obtain rfl := Option.some.inj hread
          simp only [List.set_cons_zero, List.sum_cons]
          omega
      | succ i =>
          simp only [List.set_cons_succ, List.sum_cons]
          have hrest : (rest.set i less).sum < rest.sum := ih hread
          omega

/-- The goroutines have these ranks. -/
structure Ranks (model : Filled S I O) (computeInfo kill : Bool) (verdict : Nat → Bool)
    (workers : List (Worker S I O)) (ranks : List Nat) : Prop where
  length : ranks.length = workers.length
  ranked : ∀ (i : Nat) (w : Worker S I O), workers[i]? = some w → ∃ rank, ranks[i]? = some rank ∧
    w.Ranked model computeInfo kill (verdict i) rank

theorem Ranks.killed {kill : Bool} {verdict : Nat → Bool} {workers : List (Worker S I O)}
    {ranks : List Nat} (h : Ranks model computeInfo kill verdict workers ranks) :
    Ranks model computeInfo true verdict workers ranks where
  length := h.length
  ranked i w hw := by
    obtain ⟨rank, hrank, hranked⟩ := h.ranked i w hw
    exact ⟨rank, hrank, hranked.killed⟩

/-- A goroutine takes a step. -/
theorem Ranks.set {kill : Bool} {verdict : Nat → Bool} {workers : List (Worker S I O)}
    {ranks : List Nat} (h : Ranks model computeInfo kill verdict workers ranks) {i less : Nat}
    {w : Worker S I O} (hless : w.Ranked model computeInfo kill (verdict i) less) :
    Ranks model computeInfo kill verdict (workers.set i w) (ranks.set i less) where
  length := by rw [List.length_set, List.length_set, h.length]
  ranked j found hfound := by
    rcases Table.read_set hfound with ⟨rfl, rfl⟩ | ⟨hne, hold⟩
    · have hlt : j < ranks.length := by
        rw [h.length, ← List.length_set]
        exact (List.getElem?_eq_some_iff.mp hfound).1
      exact ⟨less, List.getElem?_set_self hlt, hless⟩
    · rw [List.getElem?_set_ne (Ne.symm hne)]
      exact h.ranked j found hold

def Worker.isSent : Worker S I O → Bool
  | .sent _ => true
  | _ => false

/-- The goroutines have sent their verdicts in this order, and the first of them were
received. -/
structure Reported (verdict : Nat → Bool) (order : List Nat) (c : Parallel S I O) : Prop where
  nodup : order.Nodup
  sent : ∀ i, i ∈ order ↔ ∃ w, c.workers[i]? = some w ∧ w.isSent = true
  length : c.results.length + c.count = order.length
  results : c.kill = false → c.results = (order.drop c.count).map verdict

namespace Reported

variable {verdict : Nat → Bool} {order : List Nat} {c : Parallel S I O}

theorem lt_length (h : Reported verdict order c) {i : Nat} (hmem : i ∈ order) :
    i < c.workers.length := by
  obtain ⟨w, hw, _⟩ := (h.sent i).mp hmem
  exact (List.getElem?_eq_some_iff.mp hw).1

theorem subperm (h : Reported verdict order c) (k : Nat) :
    (order.take k).Subperm (List.range c.workers.length) :=
  (h.nodup.sublist (List.take_sublist k order)).subperm fun _ hmem =>
    List.mem_range.mpr (h.lt_length (List.mem_of_mem_take hmem))

theorem count_lt (h : Reported verdict order c) (hresults : c.results ≠ []) :
    c.count < c.workers.length := by
  have hle := (h.subperm order.length).length_le
  rw [List.take_length, List.length_range] at hle
  have hpos := List.length_pos_iff.mpr hresults
  have hlength := h.length
  omega

/-- If as many were received as there are goroutines, all of them were. -/
theorem all_received (h : Reported verdict order c) (hcount : c.workers.length ≤ c.count) {i : Nat}
    (hi : i < c.workers.length) : i ∈ order.take c.count := by
  have hlength : (List.range c.workers.length).length ≤ (order.take c.count).length := by
    have horder := h.length
    rw [List.length_range, List.length_take]
    omega
  exact ((h.subperm c.count).perm_of_length_le hlength).mem_iff.mpr (List.mem_range.mpr hi)

/-- The next verdict is received. -/
theorem next (h : Reported verdict order c) {result : Bool} {results : List Bool}
    (hresults : c.results = result :: results) :
    ∃ i, order.take (c.count + 1) = order.take c.count ++ [i] ∧
      (c.kill = false → result = verdict i ∧
        results = (order.drop (c.count + 1)).map verdict) := by
  have hlt : c.count < order.length := by
    have hlength := h.length
    rw [hresults, List.length_cons] at hlength
    omega
  refine ⟨order[c.count], (List.take_concat_get' order c.count hlt).symm, fun hkill => ?_⟩
  have hread := h.results hkill
  rw [hresults, List.drop_eq_getElem_cons hlt, List.map_cons] at hread
  exact List.cons.inj hread

/-- A goroutine goes on without sending. -/
theorem set (h : Reported verdict order c) {i : Nat} {old w : Worker S I O}
    (hold : c.workers[i]? = some old) (hunsent : old.isSent = false) (hw : w.isSent = false) :
    Reported verdict order { c with workers := c.workers.set i w } where
  nodup := h.nodup
  length := h.length
  results := h.results
  sent j := by
    rw [h.sent]
    constructor
    · rintro ⟨found, hfound, hsent⟩
      refine ⟨found, ?_, hsent⟩
      rw [List.getElem?_set_ne]
      · exact hfound
      · rintro rfl
        obtain rfl := Option.some.inj (hfound.symm.trans hold)
        rw [hsent] at hunsent
        cases hunsent
    · rintro ⟨found, hfound, hsent⟩
      rcases Table.read_set hfound with ⟨rfl, rfl⟩ | ⟨_, hread⟩
      · rw [hsent] at hw
        cases hw
      · exact ⟨found, hread, hsent⟩

/-- A goroutine sends its verdict. -/
theorem send (h : Reported verdict order c) {i : Nat} {ok : Bool} {longest : Longest}
    (hold : c.workers[i]? = some (.returned ok longest)) (hok : c.kill = false → ok = verdict i) :
    Reported verdict (order ++ [i])
      { c with workers := c.workers.set i (.sent longest), results := c.results ++ [ok] } where
  nodup := by
    refine List.nodup_append.mpr ⟨h.nodup, List.nodup_singleton i, fun a ha b hb heq => ?_⟩
    rw [heq, List.mem_singleton.mp hb] at ha
    obtain ⟨w, hw, hsent⟩ := (h.sent i).mp ha
    obtain rfl := Option.some.inj (hw.symm.trans hold)
    cases hsent
  sent j := by
    rw [List.mem_append, h.sent, List.mem_singleton]
    constructor
    · rintro (⟨found, hfound, hsent⟩ | rfl)
      · refine ⟨found, ?_, hsent⟩
        rw [List.getElem?_set_ne]
        · exact hfound
        · rintro rfl
          obtain rfl := Option.some.inj (hfound.symm.trans hold)
          cases hsent
      · exact ⟨.sent longest, List.getElem?_set_self (List.getElem?_eq_some_iff.mp hold).1, rfl⟩
    · rintro ⟨found, hfound, hsent⟩
      rcases Table.read_set hfound with ⟨rfl, _⟩ | ⟨_, hread⟩
      · exact .inr rfl
      · exact .inl ⟨found, hread, hsent⟩
  length := by
    have hlength := h.length
    simp only [List.length_append, List.length_singleton]
    omega
  results hkill := by
    have hle : c.count ≤ order.length := h.length ▸ Nat.le_add_left _ _
    change c.results ++ [ok] = ((order ++ [i]).drop c.count).map verdict
    rw [List.drop_append_of_le_length hle, List.map_append, ← h.results hkill, hok hkill]
    rfl

end Reported

/-- What holds of `checkParallel` throughout. -/
structure Sound (model : Filled S I O) (computeInfo : Bool) (timeout : Int) (verdict : Nat → Bool)
    (n : Nat) (order ranks : List Nat) (c : Parallel S I O) : Prop where
  length : c.workers.length = n
  ranks : Ranks model computeInfo c.kill verdict c.workers ranks
  reported : Reported verdict order c
  collecting : c.phase = .collecting → c.kill = false ∧ c.timedOut = false ∧
    c.ok = (order.take c.count).all verdict ∧ (n ≠ 0 → c.count < n)
  draining : c.phase = .draining → c.count < n
  left : c.phase ≠ .collecting → (c.ok = false → ∃ i < n, verdict i = false) ∧
    (c.ok = true → c.timedOut = true ∨ ∀ i < n, verdict i = true) ∧
    (n ≠ 0 ∨ c.timedOut = true)
  timedOut : c.timedOut = true → 0 < timeout

/-- A bound on the steps that are left. -/
def potential (ranks : List Nat) (c : Parallel S I O) : Nat :=
  ranks.sum + (c.workers.length - c.count) + if c.phase = .collecting then 1 else 0

namespace Sound

variable {verdict : Nat → Bool} {n : Nat} {order ranks : List Nat} {c c' : Parallel S I O}

/-- A goroutine takes a step and does not send. -/
theorem set (h : Sound model computeInfo timeout verdict n order ranks c) {i rank less : Nat}
    {old w : Worker S I O} (hold : c.workers[i]? = some old) (hunsent : old.isSent = false)
    (hw : w.isSent = false) (hrank : ranks[i]? = some rank) (hless : less < rank)
    (hranked : w.Ranked model computeInfo c.kill (verdict i) less) :
    ∃ ranks', Sound model computeInfo timeout verdict n order ranks'
        { c with workers := c.workers.set i w } ∧
      potential ranks' { c with workers := c.workers.set i w } < potential ranks c := by
  refine ⟨ranks.set i less, ⟨?_, h.ranks.set hranked, h.reported.set hold hunsent hw, h.collecting,
    h.draining, h.left, h.timedOut⟩, ?_⟩
  · rw [List.length_set]
    exact h.length
  · have hsum := sum_set_lt hrank hless
    simp only [potential, List.length_set]
    omega

theorem turn (h : Sound model computeInfo timeout verdict n order ranks c) {i : Nat}
    (hstep : c.step model computeInfo timeout (.turn i) = .ok c') :
    ∃ ranks', Sound model computeInfo timeout verdict n order ranks' c' ∧
      potential ranks' c' < potential ranks c := by
  cases hold : c.workers[i]? with
  | none => simp [Parallel.step, hold] at hstep
  | some w =>
      cases w with
      | returned ok longest => simp [Parallel.step, hold] at hstep
      | sent longest => simp [Parallel.step, hold] at hstep
      | running search =>
          obtain ⟨rank, hrank, hranked⟩ := h.ranks.ranked i _ hold
          obtain ⟨r, hturn, hr⟩ := hranked.turn
          cases r with
          | again next =>
              obtain ⟨less, hless, hnext⟩ := hr
              simp only [Parallel.step, hold, hturn] at hstep
              cases hstep
              exact h.set hold rfl rfl hrank hless hnext
          | stop result =>
              obtain ⟨less, hless, hnext⟩ := hr
              simp only [Parallel.step, hold, hturn] at hstep
              cases hstep
              exact h.set hold rfl rfl hrank hless hnext

theorem send (h : Sound model computeInfo timeout verdict n order ranks c) {i : Nat}
    (hstep : c.step model computeInfo timeout (.send i) = .ok c') :
    ∃ order' ranks', Sound model computeInfo timeout verdict n order' ranks' c' ∧
      potential ranks' c' < potential ranks c := by
  cases hold : c.workers[i]? with
  | none => simp [Parallel.step, hold] at hstep
  | some w =>
      cases w with
      | running search => simp [Parallel.step, hold] at hstep
      | sent longest => simp [Parallel.step, hold] at hstep
      | returned ok longest =>
          simp only [Parallel.step, hold] at hstep
          cases hstep
          obtain ⟨rank, hrank, hranked⟩ := h.ranks.ranked i _ hold
          cases hranked with
          | returned sound =>
              have hle : c.count ≤ order.length := h.reported.length ▸ Nat.le_add_left _ _
              refine ⟨order ++ [i], ranks.set i 1, ⟨?_, h.ranks.set .sent,
                h.reported.send hold sound, fun hphase => ?_, h.draining, h.left, h.timedOut⟩, ?_⟩
              · rw [List.length_set]
                exact h.length
              · have hcollecting := h.collecting hphase
                rw [← List.take_append_of_le_length hle] at hcollecting
                exact hcollecting
              · have hsum := sum_set_lt hrank (by decide : 1 < 2)
                simp only [potential, List.length_set]
                omega

/-- The loop is left. -/
theorem leave (hlength : c.workers.length = n)
    (hranks : Ranks model computeInfo c.kill verdict c.workers ranks)
    (hreported : Reported verdict order c)
    (hfailed : c.ok = false → ∃ i < n, verdict i = false)
    (hpassed : c.ok = true → c.timedOut = true ∨ ∀ i < n, verdict i = true)
    (hsome : n ≠ 0 ∨ c.timedOut = true) (htimedOut : c.timedOut = true → 0 < timeout) :
    Sound model computeInfo timeout verdict n order ranks (c.leave computeInfo) where
  length := hlength
  ranks := hranks
  reported := ⟨hreported.nodup, hreported.sent, hreported.length, hreported.results⟩
  collecting hphase := by
    unfold Parallel.leave at hphase
    split at hphase <;> cases hphase
  draining hphase := by
    by_cases hmore : computeInfo = true ∧ c.count < c.workers.length
    · exact hlength ▸ hmore.2
    · simp [Parallel.leave, hmore] at hphase
  left _ := ⟨hfailed, hpassed, hsome⟩
  timedOut := htimedOut

theorem potential_leave (computeInfo : Bool) (c : Parallel S I O) :
    potential ranks (c.leave computeInfo) = ranks.sum + (c.workers.length - c.count) := by
  have hphase : (c.leave computeInfo).phase ≠ .collecting := by
    unfold Parallel.leave
    split <;> simp
  rw [potential, if_neg hphase]
  rfl

/-- A verdict is taken from the channel. -/
theorem reported_next (h : Reported verdict order c) {result ok : Bool} {results : List Bool}
    (hresults : c.results = result :: results) {phase : Phase} :
    Reported verdict order
      { c with results := results, count := c.count + 1, ok := ok, phase := phase } := by
  obtain ⟨i, _, hnext⟩ := h.next hresults
  refine ⟨h.nodup, h.sent, ?_, fun hkill => (hnext hkill).2⟩
  have hlength := h.length
  rw [hresults, List.length_cons] at hlength
  simp only
  omega

/-- A negative verdict was received. -/
theorem exists_failed (h : Reported verdict order c) (hlength : c.workers.length = n) {k : Nat}
    (hall : (order.take k).all verdict = false) : ∃ i < n, verdict i = false := by
  obtain ⟨i, hmem, hi⟩ := List.all_eq_false.mp hall
  exact ⟨i, hlength ▸ h.lt_length (List.mem_of_mem_take hmem), by simpa using hi⟩

theorem collect (h : Sound model computeInfo timeout verdict n order ranks c) {result : Bool}
    {results : List Bool} (hresults : c.results = result :: results)
    (hphase : c.phase = .collecting) :
    Sound model computeInfo timeout verdict n order ranks (c.collect computeInfo result results) ∧
      potential ranks (c.collect computeInfo result results) < potential ranks c := by
  obtain ⟨hkill, htimedOut, hok, _⟩ := h.collecting hphase
  have hlt := h.reported.count_lt (by rw [hresults]; exact List.cons_ne_nil _ _)
  have hn : n ≠ 0 := Nat.ne_of_gt (h.length ▸ Nat.zero_lt_of_lt hlt)
  obtain ⟨i, htake, hnext⟩ := h.reported.next hresults
  have hall : (c.ok && result) = (order.take (c.count + 1)).all verdict := by
    rw [htake, List.all_append, hok, (hnext hkill).1]
    simp
  have hreported : Reported verdict order
      { c with results := results, count := c.count + 1, ok := c.ok && result } :=
    reported_next h.reported hresults
  have hfailed (hnot : (c.ok && result) = false) : ∃ i < n, verdict i = false :=
    exists_failed h.reported h.length (hall.symm.trans hnot)
  have hpotential : ranks.sum + (c.workers.length - (c.count + 1)) + 1 < potential ranks c := by
    rw [potential, if_pos hphase]
    omega
  unfold Parallel.collect
  dsimp only
  split
  · next hstop =>
      have hnot : (c.ok && result) = false := by
        rw [Bool.and_eq_true, Bool.not_eq_true'] at hstop
        exact hstop.1
      refine ⟨leave h.length h.ranks.killed ⟨hreported.nodup, hreported.sent, hreported.length,
        fun heq => by cases heq⟩ (fun _ => hfailed hnot) (fun heq => ?_) (.inl hn) h.timedOut, ?_⟩
      · exact absurd heq (by simp [hnot])
      · rw [potential_leave]
        exact Nat.lt_of_succ_lt hpotential
  · split
    · next hmany =>
        refine ⟨leave h.length h.ranks hreported hfailed (fun heq => .inr fun j hj => ?_)
          (.inl hn) h.timedOut, ?_⟩
        · have hmem := hreported.all_received hmany (h.length.symm ▸ hj)
          exact List.all_eq_true.mp (hall.symm.trans heq) j hmem
        · rw [potential_leave]
          exact Nat.lt_of_succ_lt hpotential
    · next hfew =>
        refine ⟨⟨h.length, h.ranks, hreported, fun _ => ⟨hkill, htimedOut, hall, fun _ => ?_⟩,
          fun hdraining => ?_, fun hleft => absurd hphase hleft, h.timedOut⟩, ?_⟩
        · exact h.length ▸ Nat.lt_of_not_le hfew
        · exact absurd (hphase.symm.trans hdraining) (by decide)
        · simp only [potential, hphase, if_true] at hpotential ⊢
          exact hpotential

theorem receive (h : Sound model computeInfo timeout verdict n order ranks c)
    (hstep : c.receive computeInfo = .ok c') :
    Sound model computeInfo timeout verdict n order ranks c' ∧
      potential ranks c' < potential ranks c := by
  cases hresults : c.results with
  | nil =>
      unfold Parallel.receive at hstep
      rw [hresults] at hstep
      cases hstep
  | cons result results =>
      cases hphase : c.phase with
      | collecting =>
          simp only [Parallel.receive, hresults, hphase] at hstep
          cases hstep
          exact h.collect hresults hphase
      | draining =>
          simp only [Parallel.receive, hresults, hphase] at hstep
          cases hstep
          have hleft := h.left (by rw [hphase]; decide)
          have hlt := h.reported.count_lt (by rw [hresults]; exact List.cons_ne_nil _ _)
          refine ⟨leave h.length h.ranks (reported_next h.reported hresults) hleft.1 hleft.2.1
            hleft.2.2 h.timedOut, ?_⟩
          rw [potential_leave, potential]
          simp only
          omega
      | done =>
          simp only [Parallel.receive, hresults, hphase] at hstep
          cases hstep

theorem timeout_step (h : Sound model computeInfo timeout verdict n order ranks c)
    (hstep : c.step model computeInfo timeout .timeout = .ok c') :
    Sound model computeInfo timeout verdict n order ranks c' ∧
      potential ranks c' < potential ranks c := by
  simp only [Parallel.step] at hstep
  split at hstep
  · next hcan =>
      cases hstep
      obtain ⟨_, _, hok, _⟩ := h.collecting hcan.2
      refine ⟨leave h.length h.ranks.killed ⟨h.reported.nodup, h.reported.sent, h.reported.length,
        fun heq => by cases heq⟩
        (fun hnot => exists_failed h.reported h.length (hok.symm.trans hnot))
        (fun _ => .inl rfl) (.inr rfl) (fun _ => hcan.1), ?_⟩
      rw [potential_leave, potential, if_pos hcan.2]
      exact Nat.lt_succ_self _
  · cases hstep

/-- Every step keeps the invariant and leaves fewer steps. -/
theorem step (h : Sound model computeInfo timeout verdict n order ranks c)
    {action : ParallelAction} (hstep : c.step model computeInfo timeout action = .ok c') :
    ∃ order' ranks', Sound model computeInfo timeout verdict n order' ranks' c' ∧
      potential ranks' c' < potential ranks c := by
  cases action with
  | turn i => exact ⟨order, h.turn hstep⟩
  | send i => exact h.send hstep
  | receive => exact ⟨order, ranks, h.receive hstep⟩
  | timeout => exact ⟨order, ranks, h.timeout_step hstep⟩

/-- No goroutine panics. -/
theorem ne_panic (h : Sound model computeInfo timeout verdict n order ranks c)
    (action : ParallelAction) : c.step model computeInfo timeout action ≠ .panic := by
  cases action with
  | turn i =>
      cases hold : c.workers[i]? with
      | none => simp [Parallel.step, hold]
      | some w =>
          cases w with
          | returned ok longest => simp [Parallel.step, hold]
          | sent longest => simp [Parallel.step, hold]
          | running search =>
              obtain ⟨rank, _, hranked⟩ := h.ranks.ranked i _ hold
              obtain ⟨r, hturn, _⟩ := hranked.turn
              cases r <;> simp [Parallel.step, hold, hturn]
  | send i =>
      simp only [Parallel.step]
      split <;> simp
  | receive =>
      simp only [Parallel.step, Parallel.receive]
      split <;> simp
  | timeout =>
      simp only [Parallel.step]
      split <;> simp

/-- As long as it is not done, something can happen, unless there is nothing to check. -/
theorem exists_step (h : Sound model computeInfo timeout verdict n order ranks c)
    (hphase : c.phase ≠ .done) (hn : n ≠ 0) :
    ∃ action c', c.step model computeInfo timeout action = .ok c' := by
  by_cases hall : ∀ (i : Nat) (w : Worker S I O), c.workers[i]? = some w → w.isSent = true
  · -- all verdicts were sent, and not all of them were received
    have hlt : c.count < n := by
      cases hwhere : c.phase with
      | collecting => exact (h.collecting hwhere).2.2.2 hn
      | draining => exact h.draining hwhere
      | done => exact absurd hwhere hphase
    have hsub : List.range n ⊆ order := fun i hi => by
      have hi' : i < c.workers.length := h.length ▸ List.mem_range.mp hi
      exact (h.reported.sent i).mpr ⟨_, List.getElem?_eq_getElem hi',
        hall i _ (List.getElem?_eq_getElem hi')⟩
    have hle := (List.nodup_range.subperm hsub).length_le
    rw [List.length_range] at hle
    cases hresults : c.results with
    | nil =>
        have hlength := h.reported.length
        rw [hresults, List.length_nil] at hlength
        omega
    | cons result results =>
        refine ⟨.receive, ?_⟩
        cases hwhere : c.phase with
        | collecting | draining =>
            exact ⟨_, by simp only [Parallel.step, Parallel.receive, hresults, hwhere]; rfl⟩
        | done => exact absurd hwhere hphase
  · push Not at hall
    obtain ⟨i, w, hw, hunsent⟩ := hall
    cases w with
    | sent longest => exact absurd rfl hunsent
    | returned ok longest => exact ⟨.send i, _, by simp only [Parallel.step, hw]; rfl⟩
    | running search =>
        obtain ⟨rank, _, hranked⟩ := h.ranks.ranked i _ hw
        obtain ⟨r, hturn, _⟩ := hranked.turn
        cases r with
        | again next => exact ⟨.turn i, _, by simp only [Parallel.step, hw, hturn]; rfl⟩
        | stop result => exact ⟨.turn i, _, by simp only [Parallel.step, hw, hturn]; rfl⟩

theorem result (h : Sound model computeInfo timeout verdict n order ranks c)
    (hphase : c.phase = .done) :
    match c.result with
      | .ok => ∀ i < n, verdict i = true
      | .illegal => ∃ i < n, verdict i = false
      | .unknown => 0 < timeout := by
  obtain ⟨hfailed, hpassed, _⟩ := h.left (by rw [hphase]; decide)
  unfold Parallel.result
  cases hok : c.ok with
  | false => exact hfailed hok
  | true =>
      cases htimedOut : c.timedOut with
      | true => exact h.timedOut htimedOut
      | false => exact (hpassed hok).resolve_left (by simp [htimedOut])

end Sound

/-! ## Runs -/

section Runs

variable {parts : List (List (Operation I O))} {entries : List (List (Entry I O))}

/-- Whether the part is linearizable. -/
noncomputable def partVerdict (model : Filled S I O) (parts : List (List (Operation I O)))
    (i : Nat) : Bool :=
  open Classical in decide (∀ part ∈ parts[i]?, Linearizable model.object (operations part))

theorem partVerdict_iff {i : Nat} {part : List (Operation I O)} (hread : parts[i]? = some part) :
    partVerdict model parts i = true ↔ Linearizable model.object (operations part) := by
  simp [partVerdict, hread]

theorem all_linearizable (h : ∀ i < parts.length, partVerdict model parts i = true) :
    ∀ part ∈ parts, Linearizable model.object (operations part) := by
  intro part hmem
  obtain ⟨i, hread⟩ := List.mem_iff_getElem?.mp hmem
  exact (partVerdict_iff hread).mp (h i (List.getElem?_eq_some_iff.mp hread).1)

theorem exists_not_linearizable (h : ∃ i < parts.length, partVerdict model parts i = false) :
    ∃ part ∈ parts, ¬ Linearizable model.object (operations part) := by
  obtain ⟨i, hi, hfalse⟩ := h
  refine ⟨parts[i], List.getElem_mem hi, fun hlinearizable => ?_⟩
  rw [(partVerdict_iff (List.getElem?_eq_getElem hi)).mpr hlinearizable] at hfalse
  cases hfalse

theorem search_start_stops (hequal : model.EqualSound)
    (hmakes : List.Forall₂ MakesEntries parts entries)
    (htimed : ∀ part ∈ parts, ∀ op ∈ part, ¬ op.ret < op.call) (computeInfo : Bool) {i : Nat}
    {subhistory : List (Entry I O)} (hread : entries[i]? = some subhistory) :
    ∃ longest turns, Stops (Search.turn model computeInfo false)
      (partVerdict model parts i, longest) turns (Search.start model subhistory) := by
  obtain ⟨hi, rfl⟩ := List.getElem?_eq_some_iff.mp hread
  have hi' : i < parts.length := hmakes.length_eq ▸ hi
  have hpart : MakesEntries parts[i] entries[i] := (List.forall₂_iff_get.mp hmakes).2 i hi' hi
  have htimes : ∀ op ∈ parts[i], ¬ op.ret < op.call := htimed _ (List.getElem_mem hi')
  obtain ⟨verdict, s, longest, turns, hstops, hverdict, _⟩ :=
    checkSingle_stops hequal hpart htimes computeInfo
  have hsame : verdict = partVerdict model parts i := by
    rw [Bool.eq_iff_iff, verdict_iff hpart htimes hverdict,
      partVerdict_iff (List.getElem?_eq_getElem hi')]
  have hhalf : entries[i].length / 2 = parts[i].length := by
    rw [hpart.length_eq]
    omega
  rw [hsame] at hstops
  refine ⟨longest, turns, ?_⟩
  rw [Search.start, hhalf]
  exact hstops

theorem exists_sound_initial (hequal : model.EqualSound)
    (hmakes : List.Forall₂ MakesEntries parts entries)
    (htimed : ∀ part ∈ parts, ∀ op ∈ part, ¬ op.ret < op.call) (computeInfo : Bool)
    (timeout : Int) :
    ∃ ranks, Sound model computeInfo timeout (partVerdict model parts) parts.length [] ranks
      (Parallel.initial model entries) := by
  have hworker : ∀ i : Fin entries.length, ∃ turns, ∃ longest,
      Stops (Search.turn model computeInfo false) (partVerdict model parts i, longest) turns
        (Search.start model entries[i]) := by
    intro i
    obtain ⟨longest, turns, hstops⟩ := search_start_stops hequal hmakes htimed computeInfo
      (List.getElem?_eq_getElem i.isLt)
    exact ⟨turns, longest, hstops⟩
  choose turns longest hstops using hworker
  refine ⟨List.ofFn fun i => turns i + 3, ?_, ⟨?_, fun i w hw => ?_⟩,
    ⟨List.nodup_nil, fun i => ?_, rfl, fun _ => rfl⟩, fun _ => ⟨rfl, rfl, rfl, fun hn => ?_⟩,
    fun hphase => (by cases hphase), fun hleft => absurd rfl hleft, fun heq => by cases heq⟩
  · rw [Parallel.initial, List.length_map, hmakes.length_eq]
  · rw [Parallel.initial, List.length_ofFn, List.length_map]
  · obtain ⟨subhistory, hread, rfl⟩ := Option.map_eq_some_iff.mp (List.getElem?_map ▸ hw)
    obtain ⟨hi, rfl⟩ := List.getElem?_eq_some_iff.mp hread
    refine ⟨turns ⟨i, hi⟩ + 3, by simp [hi], .running fun _ => ⟨_, hstops ⟨i, hi⟩⟩⟩
  · constructor
    · intro hmem
      cases hmem
    · rintro ⟨w, hw, hsent⟩
      obtain ⟨subhistory, _, rfl⟩ := Option.map_eq_some_iff.mp (List.getElem?_map ▸ hw)
      cases hsent
  · exact Nat.pos_of_ne_zero hn

/-- Along a run the invariant holds, and the run is not longer than the bound at its start. -/
theorem sound_of_runs {verdict : Nat → Bool} {n : Nat} {ranks : List Nat} {c c' : Parallel S I O}
    (hsound : Sound model computeInfo timeout verdict n [] ranks c)
    {actions : List ParallelAction}
    (hrun : Runs (Parallel.step model computeInfo timeout) c actions c') :
    ∃ order ranks', Sound model computeInfo timeout verdict n order ranks' c' ∧
      potential ranks' c' + actions.length ≤ potential ranks c := by
  induction hrun with
  | refl => exact ⟨[], ranks, hsound, Nat.le_refl _⟩
  | tail _ _ taken ih =>
      obtain ⟨order, ranks', hsound', hle⟩ := ih
      obtain ⟨order', ranks'', hsound'', hlt⟩ := hsound'.step taken
      refine ⟨order', ranks'', hsound'', ?_⟩
      rw [List.length_append, List.length_singleton]
      omega

/-- The answer that is returned. -/
theorem Sound.answer {order ranks : List Nat} {c : Parallel S I O}
    (h : Sound model computeInfo timeout (partVerdict model parts) parts.length order ranks c)
    (hphase : c.phase = .done) :
    match c.result with
      | .ok => ∀ part ∈ parts, Linearizable model.object (operations part)
      | .illegal => ∃ part ∈ parts, ¬ Linearizable model.object (operations part)
      | .unknown => 0 < timeout := by
  have hresult := h.result hphase
  split at hresult
  · exact all_linearizable hresult
  · exact exists_not_linearizable hresult
  · exact hresult

/-- However the goroutines are scheduled, `checkParallel` takes a bounded number of steps, does
not panic, and is not stuck unless there is nothing to check and no time limit.  Its answer is
right: all parts are linearizable, or one is not, or the time was up. -/
theorem checkParallel_decides (hequal : model.EqualSound)
    (hmakes : List.Forall₂ MakesEntries parts entries)
    (htimed : ∀ part ∈ parts, ∀ op ∈ part, ¬ op.ret < op.call) (computeInfo : Bool)
    (timeout : Int) :
    ∃ bound, ∀ actions c,
      Runs (Parallel.step model computeInfo timeout) (Parallel.initial model entries) actions c →
      actions.length ≤ bound ∧
      (∀ action, c.step model computeInfo timeout action ≠ .panic) ∧
      (c.phase ≠ .done → (∃ action c', c.step model computeInfo timeout action = .ok c') ∨
        parts = []) ∧
      (c.phase = .done → (parts ≠ [] ∨ 0 < timeout) ∧ match c.result with
        | .ok => ∀ part ∈ parts, Linearizable model.object (operations part)
        | .illegal => ∃ part ∈ parts, ¬ Linearizable model.object (operations part)
        | .unknown => 0 < timeout) := by
  obtain ⟨ranks, hsound⟩ := exists_sound_initial hequal hmakes htimed computeInfo timeout
  refine ⟨potential ranks (Parallel.initial model entries), fun actions c hrun => ?_⟩
  obtain ⟨order, ranks', h, hle⟩ := sound_of_runs hsound hrun
  refine ⟨Nat.le_trans (Nat.le_add_left _ _) hle, h.ne_panic, fun hphase => ?_, fun hphase => ?_⟩
  · by_cases hempty : parts = []
    · exact .inr hempty
    · exact .inl (h.exists_step hphase fun hzero => hempty (List.length_eq_zero_iff.mp hzero))
  · refine ⟨(h.left (by rw [hphase]; decide)).2.2.imp (fun hn hempty => ?_) h.timedOut,
      h.answer hphase⟩
    exact hn (List.length_eq_zero_iff.mpr hempty)

/-- The stale read is checked beside a part that is linearizable. -/
theorem checkParallel_decides_two_parts : ∃ bound, ∀ actions c,
    Runs (Parallel.step Models.kvModel.fillDefault false 0)
      (Parallel.initial Models.kvModel.fillDefault
        [makeEntries staleRead, makeEntries (staleRead.take 2)])
      actions c →
    actions.length ≤ bound ∧ (c.phase = .done → c.result ≠ .unknown) := by
  have hmakes : List.Forall₂ MakesEntries [staleRead, staleRead.take 2]
      [makeEntries staleRead, makeEntries (staleRead.take 2)] :=
    .cons (makeEntries_makes _) (.cons (makeEntries_makes _) .nil)
  obtain ⟨bound, h⟩ := checkParallel_decides
    (fillDefault_equalSound (show Models.kvModel.equal = none from rfl)) hmakes (by decide) false 0
  refine ⟨bound, fun actions c hrun => ?_⟩
  obtain ⟨hbound, _, _, hdone⟩ := h actions c hrun
  refine ⟨hbound, fun hphase hunknown => ?_⟩
  have hanswer := (hdone hphase).2
  rw [hunknown] at hanswer
  exact absurd hanswer (by decide)

end Runs

/-! ## Operations -/

/-- Where `checkOperations` starts to check the parts. -/
def ChecksOperations [DecidableEq S] (model : Model S I O) (history : List (Operation I O))
    (c : Parallel S I O) : Prop :=
  ∃ entries, List.Forall₂ MakesEntries (model.fillDefault.partition history) entries ∧
    c = Parallel.initial model.fillDefault entries

/-- What `checkOperations` returns. -/
theorem ChecksOperations.answer [DecidableEq S] {model : Model S I O}
    {history : List (Operation I O)} {c c' : Parallel S I O}
    (hequal : model.fillDefault.EqualSound) (hstart : ChecksOperations model history c)
    (htimed : ∀ part ∈ model.fillDefault.partition history, ∀ op ∈ part, ¬ op.ret < op.call)
    {verbose : Bool} {timeout : Int}
    (hrun : Reaches (Parallel.step model.fillDefault verbose timeout) c c')
    (hphase : c'.phase = .done) :
    match c'.result with
      | .ok => ∀ part ∈ model.fillDefault.partition history,
          Linearizable model.object (operations part)
      | .illegal => ∃ part ∈ model.fillDefault.partition history,
          ¬ Linearizable model.object (operations part)
      | .unknown => 0 < timeout := by
  obtain ⟨entries, hmakes, rfl⟩ := hstart
  obtain ⟨ranks, hsound⟩ := exists_sound_initial hequal hmakes htimed verbose timeout
  obtain ⟨actions, hruns⟩ := hrun.exists_runs
  obtain ⟨order, ranks', h, _⟩ := sound_of_runs hsound hruns
  exact h.answer hphase

end DistributedLabs.Porcupine
