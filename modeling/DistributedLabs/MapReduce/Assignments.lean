import DistributedLabs.MapReduce.Workers
import Mathlib.Data.List.InsertIdx

/-!
# Timers and reports of earlier assignments

Timers and reports name a job, not the assignment they belong to.  A job that was handed out
again can be taken from its worker by the timer or the failure of an earlier one.  When this
does not happen, a job stays with the worker of its last assignment until that worker has
reported or its own timer has fired.
-/

namespace DistributedLabs.MapReduce

open DistributedLabs.Library

/-! ## The state of one job -/

namespace Coordinator

variable {c c' : Coordinator}

def stateOf (c : Coordinator) (job : MRJobType × Nat) : Option MRJobState :=
  (c.allJob job.1)[job.2]?.map Job.jobState

theorem read_restate (jobs : List Job) (i j : Nat) (state : MRJobState) :
    (jobs.modify i fun job => { job with jobState := state })[j]?.map Job.jobState =
      if j = i then (jobs[j]?.map Job.jobState).map fun _ => state
      else jobs[j]?.map Job.jobState := by
  rw [List.getElem?_modify]
  cases jobs[j]? with
  | none => simp
  | some job =>
      by_cases hij : i = j
      · simp [hij]
      · simp [hij, Ne.symm hij]

theorem stateOf_setJobState (c : Coordinator) (jobType : MRJobType) (i : Nat) (state : MRJobState)
    (job : MRJobType × Nat) :
    (c.setJobState jobType i state).stateOf job =
      if job = (jobType, i) then (c.stateOf job).map fun _ => state else c.stateOf job := by
  obtain ⟨other, j⟩ := job
  cases jobType <;> cases other <;> simp [stateOf, setJobState, allJob, read_restate]

theorem stateOf_setJobState_of_ne {jobType : MRJobType} {i : Nat} {job : MRJobType × Nat}
    (h : job ≠ (jobType, i)) (state : MRJobState) :
    (c.setJobState jobType i state).stateOf job = c.stateOf job := by
  rw [stateOf_setJobState, if_neg h]

theorem stateOf_checkAllState (c : Coordinator) (args : JobFinishArgs) (job : MRJobType × Nat) :
    (c.checkAllState args).stateOf job = c.stateOf job := by
  obtain ⟨jobType, i⟩ := job
  rw [stateOf, stateOf, allJob_checkAllState]

theorem stateOf_eq {jobType : MRJobType} {i : Nat} {job : Job}
    (h : (c.allJob jobType)[i]? = some job) : c.stateOf (jobType, i) = some job.jobState := by
  rw [stateOf, h]
  rfl

/-- The report of a success finishes a job that is being done, and leaves a finished job. -/
theorem reportJobResult_finishes {args : JobFinishArgs} (hid : 0 ≤ args.jobId)
    (hsuccess : args.success = true)
    (hstate : c.stateOf (args.jobType, args.jobId.toNat) = some .doing ∨
      c.stateOf (args.jobType, args.jobId.toNat) = some .finished) :
    ∃ c', c.reportJobResult args = .ok c' ∧
      c'.stateOf (args.jobType, args.jobId.toNat) = some .finished := by
  cases hfound : (c.allJob args.jobType)[args.jobId.toNat]? with
  | none => simp [stateOf, hfound] at hstate
  | some job =>
      have hget : Slice.get (c.allJob args.jobType) args.jobId = some job := by
        rw [Slice.get, if_pos hid, hfound]
      have hheard : ¬(args.jobType = .terminalJob ∨ args.jobType = .waitJob) := by
        rintro (htype | htype) <;> simp [htype, allJob] at hfound
      simp only [stateOf_eq hfound, Option.some.injEq] at hstate
      simp only [reportJobResult, if_neg hheard, hget, hsuccess, Bool.true_eq_false, if_false]
      rcases hstate with hdoing | hfinished
      · refine ⟨_, if_pos hdoing, ?_⟩
        rw [stateOf_checkAllState, stateOf_setJobState, if_pos rfl, stateOf_eq hfound]
        rfl
      · refine ⟨c, if_neg (by simp [hfinished]), ?_⟩
        rw [stateOf_eq hfound, hfinished]

theorem timers_of_reportJobResult {args : JobFinishArgs} (h : c.reportJobResult args = .ok c') :
    c'.timers = c.timers := by
  rcases reportJobResult_cases h with ⟨_, rfl⟩ | ⟨job, _, ⟨_, rfl⟩ | ⟨_, ⟨_, rfl⟩ | ⟨_, rfl⟩⟩⟩
  · rfl
  · rfl
  · exact timers_setJobState ..
  · rw [timers_checkAllState, timers_setJobState]

end Coordinator

/-! ## The numbering -/

namespace System

variable {s s' : System} {action : SystemAction}

/-- Timers, replies and reports carry the number of the assignment of their job. -/
structure Numbered (s : System) : Prop where
  timers : s.coordinator.timers.map some = s.owners.map fun a => s.assignments[a]?
  nodup : s.owners.Nodup
  carried : ∀ jobType jobId a, s.Carries jobType jobId (some a) →
    ∃ i : Nat, jobId = i ∧ s.assignments[a]? = some (jobType, i)

theorem Numbered.owner (h : s.Numbered) {a : Nat} (ha : a ∈ s.owners) :
    ∃ job, s.assignments[a]? = some job := by
  have hmem : s.assignments[a]? ∈ s.coordinator.timers.map some := by
    rw [h.timers]
    exact List.mem_map.mpr ⟨a, ha, rfl⟩
  obtain ⟨job, _, hjob⟩ := List.mem_map.mp hmem
  exact ⟨job, hjob.symm⟩

theorem Numbered.owner_lt (h : s.Numbered) {a : Nat} (ha : a ∈ s.owners) :
    a < s.assignments.length := by
  obtain ⟨job, hjob⟩ := h.owner ha
  exact (List.getElem?_eq_some_iff.mp hjob).1

theorem Numbered.eq_of_owner (h : s.Numbered) {j k a : Nat} (hj : s.owners[j]? = some a)
    (hk : s.owners[k]? = some a) : j = k :=
  (List.getElem?_inj (List.getElem?_eq_some_iff.mp hj).1 h.nodup).mp (hj.trans hk.symm)

/-- The timer `k` is that of its owner. -/
theorem Numbered.timer (h : s.Numbered) {k : Nat} {job : MRJobType × Nat}
    (htimer : s.coordinator.timers[k]? = some job) :
    ∃ a, s.owners[k]? = some a ∧ s.assignments[a]? = some job := by
  have hread := congrArg (fun jobs => jobs[k]?) h.timers
  simp only [List.getElem?_map, htimer, Option.map_some] at hread
  obtain ⟨a, ha, hjob⟩ := Option.map_eq_some_iff.mp hread.symm
  exact ⟨a, ha, hjob⟩

theorem Turn.assignments (h : Turn s action s') (htyped : s.coordinator.Typed) :
    s.assignments <+: s'.assignments := by
  cases h with
  | getJob workers =>
      rcases s.getJob_cases htyped with ⟨jobType, i, job, reply, _, _, _, _, heq⟩ | ⟨reply, _, heq⟩
      · rw [heq]
        exact List.prefix_append _ _
      · rw [heq]
  | worker workers reports => exact List.prefix_refl _
  | reported found run => exact List.prefix_refl _
  | fired run => exact List.prefix_refl _

theorem Numbered.carried_of_step (h : s.Numbered) (htyped : s.coordinator.Typed)
    (hstep : s.step action = .ok s') (jobType : MRJobType) (jobId : Int) (a : Nat)
    (hcarries : s'.Carries jobType jobId (some a)) :
    ∃ i : Nat, jobId = i ∧ s'.assignments[a]? = some (jobType, i) := by
  rcases carries_of_step hstep hcarries with hold | ⟨hafter, hown, rfl, rfl⟩ | ⟨_, _, hnone⟩
  · obtain ⟨i, rfl, hjob⟩ := h.carried jobType jobId a hold
    refine ⟨i, rfl, ?_⟩
    obtain ⟨more, hmore⟩ := (step_turn hstep).assignments htyped
    rw [← hmore, List.getElem?_append_left (List.getElem?_eq_some_iff.mp hjob).1]
    exact hjob
  · refine ⟨_, rfl, ?_⟩
    rw [hafter]
    rcases s.getJob_cases htyped with
      ⟨jobType, i, job, reply, _, _, rfl, rfl, heq⟩ | ⟨reply, _, heq⟩
    · rw [heq] at hown ⊢
      obtain rfl := Option.some.inj hown
      exact List.getElem?_concat_length
    · rw [heq] at hown
      cases hown
  · cases hnone

theorem Numbered.step (h : s.Numbered) (htyped : s.coordinator.Typed)
    (hstep : s.step action = .ok s') : s'.Numbered := by
  have hcarried := h.carried_of_step htyped hstep
  cases step_turn hstep with
  | worker workers reports => exact ⟨h.timers, h.nodup, hcarried⟩
  | getJob workers =>
      rcases s.getJob_cases htyped with ⟨jobType, i, job, reply, _, _, _, _, heq⟩ | ⟨reply, _, heq⟩
      · refine ⟨?_, ?_, hcarried⟩
        · rw [heq]
          have hold : (s.owners.map fun a => (s.assignments ++ [(jobType, i)])[a]?) =
              s.owners.map fun a => s.assignments[a]? :=
            List.map_congr_left fun a ha => List.getElem?_append_left (h.owner_lt ha)
          simp only [Coordinator.startTimer, Coordinator.timers_setJobState, List.map_append, hold,
            h.timers, List.map_singleton, List.getElem?_concat_length]
        · rw [heq]
          refine List.nodup_append.mpr ⟨h.nodup, List.nodup_singleton _, fun a ha b hb => ?_⟩
          rw [List.mem_singleton.mp hb]
          exact (h.owner_lt ha).ne
      · rw [heq] at hcarried ⊢
        exact ⟨h.timers, h.nodup, hcarried⟩
  | reported found run =>
      refine ⟨?_, h.nodup, hcarried⟩
      rw [Coordinator.timers_of_reportJobResult run]
      exact h.timers
  | @fired k c run =>
      have htimers : c.timers = s.coordinator.timers.eraseIdx k := by
        obtain ⟨_, _, _, _, _, ⟨_, rfl⟩ | ⟨_, rfl⟩⟩ := Coordinator.timeOut_cases run
        · rfl
        · rfl
      refine ⟨?_, h.nodup.sublist (List.eraseIdx_sublist _ _), hcarried⟩
      rw [htimers, ← List.eraseIdx_map, ← List.eraseIdx_map, h.timers]

theorem numbered_of_reaches {files : List String} {nReduce : Nat}
    (h : Reaches System.step (start files nReduce) s) : s.Numbered := by
  induction h with
  | refl =>
      refine ⟨rfl, List.nodup_nil, fun jobType jobId a hcarries => ?_⟩
      rcases hcarries with ⟨worker, reply, hworker, _⟩ | ⟨report, hmem, _⟩
      · cases hworker
      · cases hmem
  | tail before last ih =>
      obtain ⟨action, hstep⟩ := last
      exact ih.step (Coordinator.typed_of_reaches (coordinator_of_reaches before)) hstep

/-! ## The last assignment of a job -/

/-- No later assignment is for the same job. -/
def Current (s : System) (a : Nat) : Prop :=
  ∀ job ∈ s.assignments.drop (a + 1), s.assignments[a]? ≠ some job

instance (s : System) (a : Nat) : Decidable (s.Current a) :=
  inferInstanceAs (Decidable (∀ job ∈ s.assignments.drop (a + 1), s.assignments[a]? ≠ some job))

theorem Current.not_lt {a b : Nat} {job : MRJobType × Nat} (h : s.Current a)
    (ha : s.assignments[a]? = some job) (hb : s.assignments[b]? = some job) : ¬a < b := by
  intro hlt
  refine h job ?_ ha
  refine List.mem_of_getElem? (i := b - (a + 1)) ?_
  rw [List.getElem?_drop, show a + 1 + (b - (a + 1)) = b by omega]
  exact hb

theorem Current.eq {a b : Nat} {job : MRJobType × Nat} (ha : s.Current a) (hb : s.Current b)
    (hjob : s.assignments[a]? = some job) (hjob' : s.assignments[b]? = some job) : a = b :=
  Nat.le_antisymm (Nat.not_lt.mp (hb.not_lt hjob' hjob)) (Nat.not_lt.mp (ha.not_lt hjob hjob'))

/-- An assignment stays the last one of its job when another job is assigned. -/
theorem Current.append {t : System} {a : Nat} {job other : MRJobType × Nat} (h : s.Current a)
    (happend : t.assignments = s.assignments ++ [job]) (hother : s.assignments[a]? = some other)
    (hne : other ≠ job) : t.Current a := by
  obtain ⟨hlt, _⟩ := List.getElem?_eq_some_iff.mp hother
  intro later hlater
  rw [happend, List.drop_append_of_le_length hlt] at hlater
  rw [happend, List.getElem?_append_left hlt]
  rcases List.mem_append.mp hlater with hbefore | hlast
  · exact h later hbefore
  · rw [hother, List.mem_singleton.mp hlast]
    exact fun heq => hne (Option.some.inj heq)

/-- The timer of the assignment has not fired and its worker has not reported. -/
def Open (s : System) (a : Nat) : Prop :=
  a ∈ s.owners ∧ a ∉ s.handled

/-- Nobody but the worker and the timer of the last assignment takes back a job that is being
done. -/
def TakesOwn (s : System) : SystemAction → Prop
  | .timeOut k => ∀ a ∈ s.owners[k]?, ∀ job ∈ s.assignments[a]?,
      s.coordinator.stateOf job = some .doing → s.Current a
  | .reportJobResult k => ∀ report ∈ s.reports[k]?, report.args.success = false →
      s.coordinator.stateOf (report.args.jobType, report.args.jobId.toNat) = some .doing →
      ∃ a ∈ report.assignment, s.Current a
  | .getJob _ | .getJobFails _ | .getJobUnheard | .processJob _ _ => True

instance (s : System) (action : SystemAction) : Decidable (s.TakesOwn action) :=
  match action with
  | .timeOut k => inferInstanceAs (Decidable (∀ a ∈ s.owners[k]?, ∀ job ∈ s.assignments[a]?,
      s.coordinator.stateOf job = some .doing → s.Current a))
  | .reportJobResult k => inferInstanceAs (Decidable (∀ report ∈ s.reports[k]?,
      report.args.success = false →
      s.coordinator.stateOf (report.args.jobType, report.args.jobId.toNat) = some .doing →
      ∃ a ∈ report.assignment, s.Current a))
  | .getJob _ | .getJobFails _ | .getJobUnheard | .processJob _ _ => instDecidableTrue

/-- A job stays with the worker of an open assignment, which is the last one. -/
def Held (s : System) : Prop :=
  ∀ a job, s.Open a → s.assignments[a]? = some job → s.Current a ∧
    (s.coordinator.stateOf job = some .doing ∨ s.coordinator.stateOf job = some .finished)

namespace Held

/-- The job of the last assignment is not that of another open one. -/
theorem ne_job (h : s.Held) {a b : Nat} {job other : MRJobType × Nat} (hopen : s.Open a)
    (hother : s.assignments[a]? = some other) (hne : a ≠ b) (hcurrent : s.Current b)
    (hjob : s.assignments[b]? = some job) : other ≠ job := by
  rintro rfl
  exact hne ((h a other hopen hother).1.eq hcurrent hother hjob)

theorem assigned (h : s.Held) (hnumbered : s.Numbered) {jobType : MRJobType} {i : Nat} {job : Job}
    (hjob : (s.coordinator.allJob jobType)[i]? = some job) (hstate : job.jobState = .unFinish)
    (workers : Nat → WorkerState) :
    Held { s with
      coordinator := (s.coordinator.setJobState jobType i .doing).startTimer jobType i
      assignments := s.assignments ++ [(jobType, i)]
      owners := s.owners ++ [s.assignments.length]
      workers := workers } := by
  have hunfinish : s.coordinator.stateOf (jobType, i) = some .unFinish := by
    rw [Coordinator.stateOf_eq hjob, hstate]
  intro a other hopen hother
  rcases List.mem_append.mp hopen.1 with hold | hnew
  · have hlt := hnumbered.owner_lt hold
    have hother : s.assignments[a]? = some other := by
      rw [← hother]
      exact (List.getElem?_append_left hlt).symm
    obtain ⟨hcurrent, hkept⟩ := h a other ⟨hold, hopen.2⟩ hother
    have hne : other ≠ (jobType, i) := by
      rintro rfl
      rw [hunfinish] at hkept
      simp at hkept
    constructor
    · exact hcurrent.append rfl hother hne
    · have hsame : (s.coordinator.setJobState jobType i .doing).stateOf other =
          s.coordinator.stateOf other := Coordinator.stateOf_setJobState_of_ne hne _
      rw [← hsame] at hkept
      exact hkept
  · obtain rfl := List.mem_singleton.mp hnew
    obtain rfl : (jobType, i) = other := by
      simpa using hother
    constructor
    · intro later hlater
      simp at hlater
    · left
      show (s.coordinator.setJobState jobType i .doing).stateOf (jobType, i) = _
      rw [Coordinator.stateOf_setJobState, if_pos rfl, hunfinish]
      rfl

theorem reported (h : s.Held) (hnumbered : s.Numbered) {k : Nat} {report : Report}
    {c : Coordinator} (found : s.reports[k]? = some report)
    (run : s.coordinator.reportJobResult report.args = .ok c)
    (hown : s.TakesOwn (.reportJobResult k)) :
    Held { s with
      coordinator := c
      reports := s.reports.eraseIdx k
      handled := report.assignment.toList ++ s.handled } := by
  intro a other hopen hother
  have hbefore : s.Open a := ⟨hopen.1, fun hmem => hopen.2 (List.mem_append_right _ hmem)⟩
  obtain ⟨hcurrent, hkept⟩ := h a other hbefore hother
  refine ⟨hcurrent, ?_⟩
  rcases Coordinator.reportJobResult_cases run with
    ⟨_, rfl⟩ | ⟨job, hget, ⟨_, rfl⟩ | ⟨hdoing, ⟨hfailed, rfl⟩ | ⟨_, rfl⟩⟩⟩
  · exact hkept
  · exact hkept
  · have hstate := Coordinator.stateOf_eq (Slice.read_of_get hget)
    rw [hdoing] at hstate
    obtain ⟨b, hb, hlast⟩ := hown report found hfailed hstate
    obtain ⟨i, hid, hjob⟩ := hnumbered.carried report.args.jobType report.args.jobId b
      (.inr ⟨report, List.mem_of_getElem? found, rfl, rfl, hb⟩)
    have hne : a ≠ b := by
      rintro rfl
      exact hopen.2 (List.mem_append_left _ (Option.mem_toList.mpr hb))
    rw [Coordinator.stateOf_setJobState_of_ne]
    · exact hkept
    · rw [hid, Int.toNat_natCast]
      exact h.ne_job hbefore hother hne hlast hjob
  · rw [Coordinator.stateOf_checkAllState, Coordinator.stateOf_setJobState]
    split
    · right
      rcases hkept with hkept | hkept
      · rw [hkept]
        rfl
      · rw [hkept]
        rfl
    · exact hkept

theorem fired (h : s.Held) (hnumbered : s.Numbered) {k : Nat} {c : Coordinator}
    (run : s.coordinator.timeOut k = .ok c) (hown : s.TakesOwn (.timeOut k)) :
    Held { s with coordinator := c, owners := s.owners.eraseIdx k } := by
  intro a other hopen hother
  have hbefore : s.Open a := ⟨List.eraseIdx_subset hopen.1, hopen.2⟩
  obtain ⟨hcurrent, hkept⟩ := h a other hbefore hother
  refine ⟨hcurrent, ?_⟩
  obtain ⟨jobType, i, job, htimer, hjob, ⟨hdoing, rfl⟩ | ⟨_, rfl⟩⟩ := Coordinator.timeOut_cases run
  · obtain ⟨b, hb, hassigned⟩ := hnumbered.timer htimer
    have hstate := Coordinator.stateOf_eq hjob
    rw [hdoing] at hstate
    have hlast := hown b hb (jobType, i) hassigned hstate
    have hne : a ≠ b := by
      rintro rfl
      obtain ⟨j, hj, hread⟩ := List.mem_eraseIdx_iff_getElem?.mp hopen.1
      exact hj (hnumbered.eq_of_owner hread hb)
    show (s.coordinator.setJobState jobType i .unFinish).stateOf other = _ ∨
      (s.coordinator.setJobState jobType i .unFinish).stateOf other = _
    rw [Coordinator.stateOf_setJobState_of_ne (h.ne_job hbefore hother hne hlast hassigned)]
    exact hkept
  · exact hkept

theorem step (h : s.Held) (hnumbered : s.Numbered) (htyped : s.coordinator.Typed)
    (hown : s.TakesOwn action) (hstep : s.step action = .ok s') : s'.Held := by
  cases step_turn hstep with
  | worker workers reports => exact h
  | getJob workers =>
      rcases s.getJob_cases htyped with
        ⟨jobType, i, job, reply, hjob, hstate, _, _, heq⟩ | ⟨reply, _, heq⟩
      · rw [heq]
        exact h.assigned hnumbered hjob hstate workers
      · rw [heq]
        exact h
  | reported found run => exact h.reported hnumbered found run hown
  | fired run => exact h.fired hnumbered run hown

end Held

theorem held_of_runsIf {files : List String} {nReduce : Nat} {actions : List SystemAction}
    (hrun : RunsIf step TakesOwn (start files nReduce) actions s) : s.Held := by
  induction hrun with
  | refl =>
      intro a job hopen
      cases hopen.1
  | tail before permitted taken ih =>
      exact ih.step (numbered_of_reaches before.reaches)
        (Coordinator.typed_of_reaches (coordinator_of_reaches before.reaches)) permitted taken

/-- In a run in which nobody else takes it back, the success of an assignment that is still
open finishes its job. -/
theorem success_finishes {files : List String} {nReduce : Nat} {actions : List SystemAction}
    (hrun : RunsIf step TakesOwn (start files nReduce) actions s) {k a : Nat} {report : Report}
    (hreport : s.reports[k]? = some report) (hassigned : report.assignment = some a)
    (hsuccess : report.args.success = true) (hopen : s.Open a) :
    ∃ s', s.step (.reportJobResult k) = .ok s' ∧
      s'.coordinator.stateOf (report.args.jobType, report.args.jobId.toNat) = some .finished := by
  obtain ⟨i, hid, hjob⟩ := (numbered_of_reaches hrun.reaches).carried report.args.jobType
    report.args.jobId a (.inr ⟨report, List.mem_of_getElem? hreport, rfl, rfl, hassigned⟩)
  obtain ⟨_, hstate⟩ := held_of_runsIf hrun a _ hopen hjob
  have hnat : report.args.jobId.toNat = i := by
    rw [hid, Int.toNat_natCast]
  rw [← hnat] at hstate
  obtain ⟨c, hc, hfinished⟩ := Coordinator.reportJobResult_finishes
    (hid ▸ Int.natCast_nonneg i) hsuccess hstate
  refine ⟨{ s with
    coordinator := c
    reports := s.reports.eraseIdx k
    handled := report.assignment.toList ++ s.handled }, ?_, hfinished⟩
  simp only [step, hreport, hc, Outcome.map]

/-- Worker 0 fails at the only map job; its timer is still set when the job goes to worker 1. -/
def failedAndGiven : List SystemAction :=
  [.getJob 0, .processJob 0 false, .reportJobResult 0, .getJob 1]

/-- Worker 1 reports its success in time. -/
theorem success_finishes_in_time : ∃ s s',
    RunsIf step TakesOwn (start ["a.txt"] 1) (failedAndGiven ++ [.processJob 1 true]) s ∧
      s.Open 1 ∧ s.step (.reportJobResult 0) = .ok s' ∧
      s'.coordinator.stateOf (.mapJob, 0) = some .finished := by
  have hchecked : RunHolds (guarded step TakesOwn) (failedAndGiven ++ [.processJob 1 true])
      (start ["a.txt"] 1) fun s =>
      (1 ∈ s.owners ∧ 1 ∉ s.handled) ∧ s.reports[0]? = some ⟨⟨.mapJob, true, 0⟩, some 1⟩ := by
    decide +kernel
  obtain ⟨s, hrun, hopen, hreport⟩ := hchecked.exists_runsIf
  obtain ⟨s', hstep, hfinished⟩ := success_finishes hrun hreport rfl rfl hopen
  exact ⟨s, s', hrun, hopen, hstep, hfinished⟩

/-- The run leaves the success of worker 1 on its way, and it is ignored although the timer of
worker 1 has not fired. -/
def LosesSuccess (actions : List SystemAction) : Prop :=
  ∃ s s', Runs step (start ["a.txt"] 1) actions s ∧ s.Open 1 ∧
    s.reports = [⟨⟨.mapJob, true, 0⟩, some 1⟩] ∧ s.step (.reportJobResult 0) = .ok s' ∧
    s'.coordinator.stateOf (.mapJob, 0) = some .unFinish

theorem losesSuccess_of_runHolds {actions : List SystemAction}
    (h : RunHolds step actions (start ["a.txt"] 1) fun s =>
      ((1 ∈ s.owners ∧ 1 ∉ s.handled) ∧ s.reports = [⟨⟨.mapJob, true, 0⟩, some 1⟩]) ∧
      RunHolds step [.reportJobResult 0] s fun s' =>
        s'.coordinator.stateOf (.mapJob, 0) = some .unFinish) :
    LosesSuccess actions := by
  obtain ⟨s, hrun, ⟨hopen, hreports⟩, hrest⟩ := h.exists_runs
  obtain ⟨s', hstep, hlost⟩ := hrest.exists_step
  exact ⟨s, s', hrun, hopen, hreports, hstep, hlost⟩

/-- The timer of worker 0 fires while worker 1 does the job, or worker 0 reports its failure
after its time is up. -/
theorem earlier_assignment_takes_job :
    LosesSuccess (failedAndGiven ++ [.timeOut 0, .processJob 1 true]) ∧
    LosesSuccess [.getJob 0, .timeOut 0, .getJob 1, .processJob 0 false, .reportJobResult 0,
      .processJob 1 true] := by
  constructor
  · exact losesSuccess_of_runHolds (by decide +kernel)
  · exact losesSuccess_of_runHolds (by decide +kernel)

end System

end DistributedLabs.MapReduce
