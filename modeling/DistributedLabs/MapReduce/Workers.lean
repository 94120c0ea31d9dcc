import DistributedLabs.MapReduce.Coordinator
import Mathlib.Logic.Function.Basic

/-!
# Workers and the coordinator

A worker asks for a job, does what the reply says and reports how it went, in a loop.  Calls
may fail.  A failed `GetJob` leaves the reply as it was made, and the worker goes on with it;
the coordinator may have served the call all the same, or serve it later.  A report is on its
way until the coordinator handles it, which it may never do; the worker does not look at the
answer.

Assignments are numbered in the order in which they are made.  The number goes along with the
reply, the report and the timer, and nothing depends on it.
-/

namespace DistributedLabs.MapReduce

open DistributedLabs.Library

inductive WorkerState where
  | asking
  | processing (reply : ExampleReply) (assignment : Option Nat)
  | stopped

structure Report where
  args : JobFinishArgs
  assignment : Option Nat
  deriving DecidableEq, Repr

structure System where
  coordinator : Coordinator
  workers : Nat → WorkerState
  /-- The reports that have not been handled. -/
  reports : List Report
  /-- The job of each assignment. -/
  assignments : List (MRJobType × Nat)
  /-- The assignment of each timer of the coordinator. -/
  owners : List Nat
  /-- The assignments whose reports have been handled. -/
  handled : List Nat

inductive SystemAction where
  | getJob (worker : Nat)
  | getJobFails (worker : Nat)
  /-- The coordinator serves a call that has failed. -/
  | getJobUnheard
  | processJob (worker : Nat) (result : Bool)
  | reportJobResult (k : Nat)
  | timeOut (k : Nat)
  deriving DecidableEq, Repr

/-- Whether the worker may stop, and whether it reports success.  How a map or a reduce job
goes is up to the files and functions it works with. -/
def processJob (reply : ExampleReply) (result : Bool) : Bool × Bool :=
  match reply.jobType with
  | .terminalJob => (true, true)
  | .mapJob | .reduceJob => (false, result)
  | .waitJob | .unknownJob => (false, true)

namespace System

def start (files : List String) (nReduce : Nat) : System where
  coordinator := makeCoordinator files nReduce
  workers := fun _ => .asking
  reports := []
  assignments := []
  owners := []
  handled := []

def setWorker (s : System) (worker : Nat) (state : WorkerState) : System :=
  { s with workers := Function.update s.workers worker state }

/-- `GetJob`, and the number of the assignment if there is one. -/
def getJob (s : System) : System × ExampleReply × Option Nat :=
  let (c, reply) := s.coordinator.getJob
  match reply.jobType with
  | .mapJob | .reduceJob =>
      ({ s with
          coordinator := c
          assignments := s.assignments ++ [(reply.jobType, reply.jobId)]
          owners := s.owners ++ [s.assignments.length] },
        reply, some s.assignments.length)
  | .unknownJob | .terminalJob | .waitJob => ({ s with coordinator := c }, reply, none)

def step (s : System) : SystemAction → Outcome System
  | .getJob worker =>
      match s.workers worker with
      | .asking =>
          let (asked, reply, assignment) := s.getJob
          .ok (asked.setWorker worker (.processing reply assignment))
      | _ => .blocked
  | .getJobFails worker =>
      match s.workers worker with
      | .asking => .ok (s.setWorker worker (.processing {} none))
      | _ => .blocked
  | .getJobUnheard => .ok s.getJob.1
  | .processJob worker result =>
      match s.workers worker with
      | .processing reply assignment =>
          let (canTerminal, success) := processJob reply result
          let report : Report := ⟨⟨reply.jobType, success, reply.jobId⟩, assignment⟩
          let sent := { s with reports := s.reports ++ [report] }
          .ok (sent.setWorker worker (if canTerminal then .stopped else .asking))
      | _ => .blocked
  | .reportJobResult k =>
      match s.reports[k]? with
      | some report =>
          (s.coordinator.reportJobResult report.args).map fun c =>
            { s with
              coordinator := c
              reports := s.reports.eraseIdx k
              handled := report.assignment.toList ++ s.handled }
      | none => .blocked
  | .timeOut k =>
      (s.coordinator.timeOut k).map fun c =>
        { s with coordinator := c, owners := s.owners.eraseIdx k }

/-! ## What a step does -/

variable {s s' : System} {action : SystemAction}

/-- The coordinator hands out a job under a new number, or tells the worker to wait or to
stop. -/
theorem getJob_cases (s : System) (htyped : s.coordinator.Typed) :
    (∃ jobType i job reply, (s.coordinator.allJob jobType)[i]? = some job ∧
      job.jobState = .unFinish ∧ reply.jobType = jobType ∧ reply.jobId = i ∧
      s.getJob =
        ({ s with
            coordinator := (s.coordinator.setJobState jobType i .doing).startTimer jobType i
            assignments := s.assignments ++ [(jobType, i)]
            owners := s.owners ++ [s.assignments.length] },
          reply, some s.assignments.length)) ∨
    ∃ reply, (reply.jobType = .terminalJob ∨ reply.jobType = .waitJob) ∧
      s.getJob = (s, reply, none) := by
  rcases s.coordinator.getJob_cases with
    ⟨i, job, _, hjob, hstate, heq⟩ | ⟨i, job, _, hjob, hstate, heq⟩ | heq
  · have htype := htyped .mapJob job (List.mem_of_getElem? hjob)
    rw [htype] at heq
    refine .inl ⟨.mapJob, i, job, _, hjob, hstate, ?_, ?_, by unfold getJob; rw [heq]⟩
    all_goals rfl
  · have htype := htyped .reduceJob job (List.mem_of_getElem? hjob)
    rw [htype] at heq
    refine .inl ⟨.reduceJob, i, job, _, hjob, hstate, ?_, ?_, by unfold getJob; rw [heq]⟩
    all_goals rfl
  · cases hdone : s.coordinator.reduceJobFinish with
    | true =>
        rw [hdone] at heq
        exact .inr ⟨{ jobType := .terminalJob }, .inl rfl, by unfold getJob; rw [heq]; rfl⟩
    | false =>
        rw [hdone] at heq
        exact .inr ⟨{ jobType := .waitJob }, .inr rfl, by unfold getJob; rw [heq]; rfl⟩

/-- What an action does to the coordinator and the numbering. -/
inductive Turn (s : System) : SystemAction → System → Prop where
  | worker {action : SystemAction} (workers : Nat → WorkerState) (reports : List Report) :
      Turn s action { s with workers := workers, reports := reports }
  | getJob {action : SystemAction} (workers : Nat → WorkerState) :
      Turn s action { s.getJob.1 with workers := workers }
  | reported {k : Nat} {report : Report} {c : Coordinator} (found : s.reports[k]? = some report)
      (run : s.coordinator.reportJobResult report.args = .ok c) :
      Turn s (.reportJobResult k) { s with
        coordinator := c
        reports := s.reports.eraseIdx k
        handled := report.assignment.toList ++ s.handled }
  | fired {k : Nat} {c : Coordinator} (run : s.coordinator.timeOut k = .ok c) :
      Turn s (.timeOut k) { s with coordinator := c, owners := s.owners.eraseIdx k }

theorem step_turn (h : s.step action = .ok s') : Turn s action s' := by
  cases action with
  | getJob worker =>
      simp only [step] at h
      split at h
      · cases h
        exact .getJob _
      · cases h
  | getJobFails worker =>
      simp only [step] at h
      split at h
      · cases h
        exact .worker _ _
      · cases h
  | getJobUnheard =>
      cases h
      exact .getJob _
  | processJob worker result =>
      simp only [step] at h
      split at h
      · cases h
        exact .worker _ _
      · cases h
  | reportJobResult k =>
      simp only [step] at h
      split at h
      · next report found =>
          obtain ⟨c, run, rfl⟩ := Outcome.map_eq_ok.mp h
          exact .reported found run
      · cases h
  | timeOut k =>
      obtain ⟨c, run, rfl⟩ := Outcome.map_eq_ok.mp h
      exact .fired run

theorem getJob_coordinator (s : System) : s.getJob.1.coordinator = s.coordinator.getJob.1 := by
  unfold getJob
  dsimp only
  split <;> rfl

/-- The coordinator takes at most one step of its own. -/
theorem Turn.coordinator (h : Turn s action s') :
    Reaches Coordinator.step s.coordinator s'.coordinator := by
  cases h with
  | worker workers reports => exact .refl
  | getJob workers =>
      exact .single ⟨.getJob, congrArg Outcome.ok s.getJob_coordinator.symm⟩
  | reported found run => exact .single ⟨.reportJobResult _, run⟩
  | fired run => exact .single ⟨.timeOut _, run⟩

theorem coordinator_of_reaches {files : List String} {nReduce : Nat}
    (h : Reaches step (start files nReduce) s) :
    Reaches Coordinator.step (makeCoordinator files nReduce) s.coordinator := by
  refine h.invariant (P := fun t : System =>
    Reaches Coordinator.step (makeCoordinator files nReduce) t.coordinator) .refl ?_
  intro t action t' hbefore hstep
  exact hbefore.trans (step_turn hstep).coordinator

/-! ## What workers and reports carry -/

/-- A worker does this job or a report about it is on its way. -/
def Carries (s : System) (jobType : MRJobType) (jobId : Int) (assignment : Option Nat) : Prop :=
  (∃ worker reply, s.workers worker = .processing reply assignment ∧ reply.jobType = jobType ∧
    reply.jobId = jobId) ∨
  ∃ report ∈ s.reports, report.args.jobType = jobType ∧ report.args.jobId = jobId ∧
    report.assignment = assignment

theorem Carries.congr {jobType : MRJobType} {jobId : Int} {assignment : Option Nat}
    (h : s'.Carries jobType jobId assignment) (hworkers : s'.workers = s.workers)
    (hreports : s'.reports ⊆ s.reports) : s.Carries jobType jobId assignment := by
  rcases h with ⟨worker, reply, hworker, hrest⟩ | ⟨report, hmem, hrest⟩
  · exact .inl ⟨worker, reply, hworkers ▸ hworker, hrest⟩
  · exact .inr ⟨report, hreports hmem, hrest⟩

/-- Only the worker whose state is set may carry something new. -/
theorem Carries.setWorker {worker : Nat} {state : WorkerState} {jobType : MRJobType} {jobId : Int}
    {assignment : Option Nat} (h : (s.setWorker worker state).Carries jobType jobId assignment) :
    s.Carries jobType jobId assignment ∨
      ∃ reply, state = .processing reply assignment ∧ reply.jobType = jobType ∧
        reply.jobId = jobId := by
  rcases h with ⟨other, reply, hother, hrest⟩ | hreport
  · by_cases heq : other = worker
    · subst heq
      simp only [System.setWorker, Function.update_self] at hother
      exact .inr ⟨reply, hother, hrest⟩
    · simp only [System.setWorker, Function.update_of_ne heq] at hother
      exact .inl (.inl ⟨other, reply, hother, hrest⟩)
  · exact .inl (.inr hreport)

/-- Only the report that is added may carry something new. -/
theorem Carries.report {report : Report} {jobType : MRJobType} {jobId : Int}
    {assignment : Option Nat}
    (h : ({ s with reports := s.reports ++ [report] } : System).Carries jobType jobId assignment) :
    s.Carries jobType jobId assignment ∨
      report.args.jobType = jobType ∧ report.args.jobId = jobId ∧
        report.assignment = assignment := by
  rcases h with hworker | ⟨other, hmem, hrest⟩
  · exact .inl (.inl hworker)
  · rcases List.mem_append.mp hmem with hold | hnew
    · exact .inl (.inr ⟨other, hold, hrest⟩)
    · obtain rfl := List.mem_singleton.mp hnew
      exact .inr hrest

theorem getJob_workers (s : System) : s.getJob.1.workers = s.workers ∧
    s.getJob.1.reports = s.reports := by
  unfold getJob
  dsimp only
  split <;> exact ⟨rfl, rfl⟩

/-- What is carried was carried before, or it is what `GetJob` has just replied, or a reply
that was never filled in. -/
theorem carries_of_step {jobType : MRJobType} {jobId : Int} {assignment : Option Nat}
    (hstep : s.step action = .ok s') (h : s'.Carries jobType jobId assignment) :
    s.Carries jobType jobId assignment ∨
      (s'.assignments = s.getJob.1.assignments ∧ s.getJob.2.2 = assignment ∧
        s.getJob.2.1.jobType = jobType ∧ s.getJob.2.1.jobId = jobId) ∨
      ((∃ worker, action = .getJobFails worker) ∧ jobType = .unknownJob ∧ assignment = none) := by
  cases action with
  | getJob worker =>
      simp only [step] at hstep
      split at hstep
      · cases hstep
        rcases h.setWorker with hold | ⟨reply, hstate, htype, hid⟩
        · exact .inl (hold.congr s.getJob_workers.1 (s.getJob_workers.2 ▸ List.Subset.refl _))
        · cases hstate
          exact .inr (.inl ⟨rfl, rfl, htype, hid⟩)
      · cases hstep
  | getJobFails worker =>
      simp only [step] at hstep
      split at hstep
      · cases hstep
        rcases h.setWorker with hold | ⟨reply, hstate, htype, _⟩
        · exact .inl hold
        · cases hstate
          exact .inr (.inr ⟨⟨worker, rfl⟩, htype.symm, rfl⟩)
      · cases hstep
  | getJobUnheard =>
      cases hstep
      exact .inl (h.congr s.getJob_workers.1 (s.getJob_workers.2 ▸ List.Subset.refl _))
  | processJob worker result =>
      simp only [step] at hstep
      split at hstep
      · next reply own hworker =>
          cases hstep
          rcases h.setWorker with hold | ⟨other, hstate, _⟩
          · rcases hold.report with hold | ⟨htype, hid, hown⟩
            · exact .inl hold
            · exact .inl (.inl ⟨worker, reply, hown ▸ hworker, htype, hid⟩)
          · split at hstate <;> cases hstate
      · cases hstep
  | reportJobResult k =>
      simp only [step] at hstep
      split at hstep
      · obtain ⟨c, _, rfl⟩ := Outcome.map_eq_ok.mp hstep
        exact .inl (h.congr rfl (List.eraseIdx_subset))
      · cases hstep
  | timeOut k =>
      obtain ⟨c, _, rfl⟩ := Outcome.map_eq_ok.mp hstep
      exact .inl (h.congr rfl (List.Subset.refl _))

/-! ## Reports are handled in range -/

/-- The coordinator ignores reports of this type, or there is such a job. -/
def Known (c : Coordinator) (jobType : MRJobType) (jobId : Int) : Prop :=
  (jobType = .terminalJob ∨ jobType = .waitJob) ∨
    (0 ≤ jobId ∧ jobId < (c.allJob jobType).length)

theorem Known.reaches {c c' : Coordinator} {jobType : MRJobType} {jobId : Int}
    (h : Known c jobType jobId) (hreach : Reaches Coordinator.step c c') :
    Known c' jobType jobId := by
  refine hreach.invariant (P := fun c => Known c jobType jobId) h fun hbefore hstep => ?_
  unfold Known
  rw [((Coordinator.moved_of_step hstep).phaseMoves jobType).length_eq]
  exact hbefore

/-- What `GetJob` replies is known. -/
theorem known_getJob (htyped : s.coordinator.Typed) :
    Known s.coordinator s.getJob.2.1.jobType s.getJob.2.1.jobId := by
  rcases s.getJob_cases htyped with
    ⟨jobType, i, job, reply, hjob, _, rfl, rfl, heq⟩ | ⟨reply, hignored, heq⟩
  · rw [heq]
    exact .inr ⟨Int.natCast_nonneg _, Int.ofNat_lt.mpr (List.getElem?_eq_some_iff.mp hjob).1⟩
  · rw [heq]
    exact .inl hignored

/-- No call of `GetJob` fails. -/
def Answered (_ : System) : SystemAction → Prop
  | .getJobFails _ => False
  | .getJob _ | .getJobUnheard | .processJob _ _ | .reportJobResult _ | .timeOut _ => True

instance (s : System) (action : SystemAction) : Decidable (s.Answered action) :=
  match action with
  | .getJobFails _ => instDecidableFalse
  | .getJob _ | .getJobUnheard | .processJob _ _ | .reportJobResult _ | .timeOut _ =>
      instDecidableTrue

theorem known_of_runsIf {files : List String} {nReduce : Nat} {actions : List SystemAction}
    (hrun : RunsIf step Answered (start files nReduce) actions s) {jobType : MRJobType}
    {jobId : Int} {assignment : Option Nat} (h : s.Carries jobType jobId assignment) :
    Known s.coordinator jobType jobId := by
  induction hrun generalizing jobType jobId assignment with
  | refl =>
      rcases h with ⟨worker, reply, hworker, _⟩ | ⟨report, hmem, _⟩
      · cases hworker
      · cases hmem
  | @tail past t t' action before permitted taken ih =>
      refine Known.reaches ?_ (step_turn taken).coordinator
      rcases carries_of_step taken h with hold | ⟨_, _, rfl, rfl⟩ | ⟨⟨worker, rfl⟩, _⟩
      · exact ih hold
      · exact known_getJob (Coordinator.typed_of_reaches (coordinator_of_reaches before.reaches))
      · cases permitted

theorem reportJobResult_ne_panic_of_ignored {c : Coordinator} {args : JobFinishArgs}
    (h : args.jobType = .terminalJob ∨ args.jobType = .waitJob) :
    c.reportJobResult args ≠ .panic := by
  unfold Coordinator.reportJobResult
  rw [if_pos h]
  exact Outcome.ok_ne_panic c

theorem step_ne_panic {files : List String} {nReduce : Nat} {actions : List SystemAction}
    (hrun : RunsIf step Answered (start files nReduce) actions s) (action : SystemAction) :
    s.step action ≠ .panic := by
  have hreach := coordinator_of_reaches hrun.reaches
  cases action with
  | getJob | getJobFails | processJob =>
      simp only [step]
      split
      · exact Outcome.ok_ne_panic _
      · exact Outcome.blocked_ne_panic
  | getJobUnheard => exact Outcome.ok_ne_panic _
  | reportJobResult k =>
      simp only [step]
      split
      · next report found =>
          rw [Ne, Outcome.map_eq_panic]
          have hmem := List.mem_of_getElem? found
          rcases known_of_runsIf hrun (.inr ⟨report, hmem, rfl, rfl, rfl⟩) with hignored | hin
          · exact reportJobResult_ne_panic_of_ignored hignored
          · exact Coordinator.reportJobResult_ne_panic hin
      · exact Outcome.blocked_ne_panic
  | timeOut k =>
      simp only [step]
      rw [Ne, Outcome.map_eq_panic]
      exact Coordinator.timeOut_ne_panic (Coordinator.timersInRange_of_reaches hreach) k

/-- If every worker gets its replies, each report on its way is ignored or is for a job there
is, however long it takes, and nothing makes the coordinator panic. -/
theorem reports_in_range {files : List String} {nReduce : Nat} {actions : List SystemAction}
    (hrun : RunsIf step Answered (start files nReduce) actions s) :
    (∀ report ∈ s.reports,
      (report.args.jobType = .terminalJob ∨ report.args.jobType = .waitJob) ∨
        s.coordinator.InRange (.reportJobResult report.args)) ∧
    ∀ action, s.step action ≠ .panic := by
  refine ⟨fun report hmem => ?_, step_ne_panic hrun⟩
  exact known_of_runsIf hrun (.inr ⟨report, hmem, rfl, rfl, rfl⟩)

/-- Worker 0 fails at the only map job, worker 1 is told to wait, and a third call is served
unheard; both reports are on their way. -/
theorem reports_in_range_of_two : ∃ s,
    RunsIf step Answered (start ["a.txt"] 1) [.getJob 0, .getJob 1, .processJob 0 false,
      .processJob 1 true, .getJobUnheard] s ∧
    s.reports = [⟨⟨.mapJob, false, 0⟩, some 0⟩, ⟨⟨.waitJob, true, 0⟩, none⟩] ∧
    (∀ report ∈ s.reports,
      (report.args.jobType = .terminalJob ∨ report.args.jobType = .waitJob) ∨
        s.coordinator.InRange (.reportJobResult report.args)) ∧
    ∀ action, s.step action ≠ .panic := by
  have hchecked : RunHolds (guarded step Answered) [.getJob 0, .getJob 1, .processJob 0 false,
      .processJob 1 true, .getJobUnheard] (start ["a.txt"] 1) fun s =>
      s.reports = [⟨⟨.mapJob, false, 0⟩, some 0⟩, ⟨⟨.waitJob, true, 0⟩, none⟩] := by
    decide +kernel
  obtain ⟨s, hrun, hsent⟩ := hchecked.exists_runsIf
  exact ⟨s, hrun, hsent, reports_in_range hrun⟩

/-- A call of `GetJob` fails; the worker reports success at a job of unknown type, for which
the coordinator has no jobs. -/
theorem failed_getJob_panics : ∃ s,
    Runs step (start ["a.txt"] 1) [.getJobFails 0, .processJob 0 true] s ∧
    s.reports = [⟨⟨.unknownJob, true, 0⟩, none⟩] ∧
    s.coordinator.allJob .unknownJob = [] ∧ s.step (.reportJobResult 0) = .panic := by
  have hchecked : RunHolds step [.getJobFails 0, .processJob 0 true] (start ["a.txt"] 1) fun s =>
      s.reports = [⟨⟨.unknownJob, true, 0⟩, none⟩] ∧ s.coordinator.allJob .unknownJob = [] ∧
        (s.step (.reportJobResult 0)).panics = true := by
    decide +kernel
  obtain ⟨s, hrun, hsent, hjobs, hpanics⟩ := hchecked.exists_runs
  exact ⟨s, hrun, hsent, hjobs, Outcome.panics_iff.mp hpanics⟩

end System

end DistributedLabs.MapReduce
