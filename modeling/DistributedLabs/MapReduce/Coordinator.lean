import DistributedLabs.Library.Machine
import DistributedLabs.Library.Slice
import DistributedLabs.Library.Table

/-!
# The MapReduce coordinator

Workers ask for jobs and report how they went.  A timer that is started with each
assignment takes the job back if it is still being done when the timer fires; late reports
and timers of earlier assignments are common.  Reduce jobs are handed out when all map jobs
are finished.
-/

namespace DistributedLabs.MapReduce

open DistributedLabs.Library

inductive MRJobType where
  | unknownJob
  | mapJob
  | reduceJob
  | terminalJob
  | waitJob
  deriving DecidableEq, Repr

inductive MRJobState where
  | unknownState
  | unFinish
  | doing
  | finished
  deriving DecidableEq, Repr

structure Job where
  jobType : MRJobType
  jobState : MRJobState
  jobId : Nat
  operateFileName : String := ""
  deriving DecidableEq, Repr

/-- The reply of `GetJob`. -/
structure ExampleReply where
  jobType : MRJobType := .unknownJob
  jobId : Nat := 0
  mapJobFileName : String := ""
  mapJobId : Nat := 0
  nReduce : Nat := 0
  reduceJobId : Nat := 0
  deriving DecidableEq, Repr

structure JobFinishArgs where
  jobType : MRJobType
  success : Bool
  jobId : Int
  deriving DecidableEq, Repr

structure Coordinator where
  nReduce : Nat
  mapJobFinish : Bool
  mapJob : List Job
  reduceJobFinish : Bool
  reduceJob : List Job
  /-- The jobs whose timers have not fired. -/
  timers : List (MRJobType × Nat)
  deriving DecidableEq, Repr

def makeCoordinator (files : List String) (nReduce : Nat) : Coordinator where
  nReduce := nReduce
  mapJobFinish := false
  mapJob := files.mapIdx fun i fileName => ⟨.mapJob, .unFinish, i, fileName⟩
  reduceJobFinish := false
  reduceJob := (List.range nReduce).map fun i => ⟨.reduceJob, .unFinish, i, ""⟩
  timers := []

/-- The index and the job of the first job that nobody does, counting from `i`. -/
def findUnFinish : List Job → Nat → Option (Nat × Job)
  | [], _ => none
  | job :: rest, i => if job.jobState ≠ .unFinish then findUnFinish rest (i + 1) else some (i, job)

namespace Coordinator

/-- The slices in `allJob` are those of `mapJob` and `reduceJob`; there are none for the
other types. -/
def allJob (c : Coordinator) : MRJobType → List Job
  | .mapJob => c.mapJob
  | .reduceJob => c.reduceJob
  | .unknownJob | .terminalJob | .waitJob => []

/-- `c.allJob[jobType][jobId].JobState = state`, which is seen in both places. -/
def setJobState (c : Coordinator) (jobType : MRJobType) (jobId : Nat) (state : MRJobState) :
    Coordinator :=
  match jobType with
  | .mapJob =>
      { c with mapJob := c.mapJob.modify jobId fun job => { job with jobState := state } }
  | .reduceJob =>
      { c with reduceJob := c.reduceJob.modify jobId fun job => { job with jobState := state } }
  | .unknownJob | .terminalJob | .waitJob => c

def startTimer (c : Coordinator) (jobType : MRJobType) (jobId : Nat) : Coordinator :=
  { c with timers := c.timers ++ [(jobType, jobId)] }

def getJob (c : Coordinator) : Coordinator × ExampleReply :=
  match if c.mapJobFinish then none else findUnFinish c.mapJob 0 with
  | some (i, job) =>
      ((c.setJobState .mapJob i .doing).startTimer job.jobType i,
        { mapJobFileName := job.operateFileName
          jobType := job.jobType
          jobId := i
          nReduce := c.nReduce })
  | none =>
      match if c.mapJobFinish then findUnFinish c.reduceJob 0 else none with
      | some (i, job) =>
          ((c.setJobState .reduceJob i .doing).startTimer job.jobType i,
            { jobType := job.jobType, jobId := i })
      | none =>
          if c.reduceJobFinish then (c, { jobType := .terminalJob })
          else (c, { jobType := .waitJob })

/-- The goroutine behind a timer that fires. -/
def timeOut (c : Coordinator) (k : Nat) : Outcome Coordinator :=
  match c.timers[k]? with
  | none => .blocked
  | some (jobType, jobId) =>
      match (c.allJob jobType)[jobId]? with
      | none => .panic
      | some job =>
          let fired := { c with timers := c.timers.eraseIdx k }
          if job.jobState = .doing then .ok (fired.setJobState jobType jobId .unFinish)
          else .ok fired

def checkAllState (c : Coordinator) (args : JobFinishArgs) : Coordinator :=
  let mapJobAllFinish :=
    if args.jobType = .mapJob then (c.allJob .mapJob).all (fun job => job.jobState = .finished)
    else true
  let reduceJobAllFinish :=
    if args.jobType = .reduceJob then
      (c.allJob .reduceJob).all (fun job => job.jobState = .finished)
    else true
  let c := if args.jobType = .mapJob ∧ mapJobAllFinish then { c with mapJobFinish := true } else c
  if args.jobType = .reduceJob ∧ reduceJobAllFinish then { c with reduceJobFinish := true } else c

def reportJobResult (c : Coordinator) (args : JobFinishArgs) : Outcome Coordinator :=
  if args.jobType = .terminalJob ∨ args.jobType = .waitJob then .ok c
  else
    match Slice.get (c.allJob args.jobType) args.jobId with
    | none => .panic
    | some job =>
        if args.success = false then
          if job.jobState = .doing then
            .ok (c.setJobState args.jobType args.jobId.toNat .unFinish)
          else .ok c
        else if job.jobState = .doing then
          .ok ((c.setJobState args.jobType args.jobId.toNat .finished).checkAllState args)
        else .ok c

def done (c : Coordinator) : Bool :=
  c.reduceJobFinish

end Coordinator

inductive Action where
  | getJob
  | reportJobResult (args : JobFinishArgs)
  | timeOut (k : Nat)
  deriving DecidableEq, Repr

def Coordinator.step (c : Coordinator) : Action → Outcome Coordinator
  | .getJob => .ok c.getJob.1
  | .reportJobResult args => c.reportJobResult args
  | .timeOut k => c.timeOut k

/-! ## What a step does -/

theorem findUnFinish_eq_some {jobs : List Job} {start i : Nat} {job : Job}
    (h : findUnFinish jobs start = some (i, job)) :
    start ≤ i ∧ jobs[i - start]? = some job ∧ job.jobState = .unFinish := by
  induction jobs generalizing start with
  | nil => cases h
  | cons first rest ih =>
      unfold findUnFinish at h
      split at h
      · obtain ⟨hle, hjob, hstate⟩ := ih h
        refine ⟨by omega, ?_, hstate⟩
        rw [show i - start = i - (start + 1) + 1 by omega, List.getElem?_cons_succ]
        exact hjob
      · next hstate =>
          cases h
          rw [Nat.sub_self]
          exact ⟨Nat.le_refl _, rfl, not_not.mp hstate⟩

namespace Coordinator

/-- A step leaves the jobs as they are, hands one out, takes one back, or finishes one.
A reduce job is handed out only after the map phase.  Timers are dropped, or started for a
job there is. -/
inductive Moved (c : Coordinator) : Coordinator → Prop where
  | idle : Moved c c
  | assign {jobType : MRJobType} {i : Nat} {job : Job}
      (hjob : (c.allJob jobType)[i]? = some job) (hstate : job.jobState = .unFinish)
      (hturn : jobType = .reduceJob → c.mapJobFinish = true) :
      Moved c (c.setJobState jobType i .doing)
  | giveUp {jobType : MRJobType} {i : Nat} {job : Job}
      (hjob : (c.allJob jobType)[i]? = some job) (hstate : job.jobState = .doing) :
      Moved c (c.setJobState jobType i .unFinish)
  | finish {args : JobFinishArgs} {i : Nat} {job : Job}
      (hjob : (c.allJob args.jobType)[i]? = some job) (hstate : job.jobState = .doing) :
      Moved c ((c.setJobState args.jobType i .finished).checkAllState args)
  | retime {c' : Coordinator} (h : Moved c c') {timers : List (MRJobType × Nat)}
      (htimers : ∀ timer ∈ timers, timer ∈ c'.timers ∨
        ∃ jobType job, (c.allJob jobType)[timer.2]? = some job ∧ timer.1 = job.jobType) :
      Moved c { c' with timers := timers }

theorem setJobState_timers (c : Coordinator) (timers : List (MRJobType × Nat))
    (jobType : MRJobType) (jobId : Nat) (state : MRJobState) :
    setJobState { c with timers := timers } jobType jobId state =
      { c.setJobState jobType jobId state with timers := timers } := by
  cases jobType <;> rfl

theorem timers_setJobState (c : Coordinator) (jobType : MRJobType) (jobId : Nat)
    (state : MRJobState) : (c.setJobState jobType jobId state).timers = c.timers := by
  cases jobType <;> rfl

/-- A map job is handed out during the map phase, a reduce job after it, or no job. -/
theorem getJob_cases (c : Coordinator) :
    (∃ i job, c.mapJobFinish = false ∧ (c.allJob .mapJob)[i]? = some job ∧
        job.jobState = .unFinish ∧
        c.getJob = ((c.setJobState .mapJob i .doing).startTimer job.jobType i,
          { mapJobFileName := job.operateFileName, jobType := job.jobType, jobId := i,
            nReduce := c.nReduce })) ∨
      (∃ i job, c.mapJobFinish = true ∧ (c.allJob .reduceJob)[i]? = some job ∧
        job.jobState = .unFinish ∧
        c.getJob = ((c.setJobState .reduceJob i .doing).startTimer job.jobType i,
          { jobType := job.jobType, jobId := i })) ∨
      c.getJob = (c, { jobType := if c.reduceJobFinish then .terminalJob else .waitJob }) := by
  unfold getJob
  split
  · next i job hfound =>
      split at hfound
      · cases hfound
      · next hlasts =>
          obtain ⟨_, hjob, hstate⟩ := findUnFinish_eq_some hfound
          exact .inl ⟨i, job, Bool.eq_false_iff.mpr hlasts, hjob, hstate, rfl⟩
  · split
    · next i job hfound =>
        split at hfound
        · next hturn =>
            obtain ⟨_, hjob, hstate⟩ := findUnFinish_eq_some hfound
            exact .inr (.inl ⟨i, job, hturn, hjob, hstate, rfl⟩)
        · cases hfound
    · refine .inr (.inr ?_)
      split
      · rfl
      · rfl

/-- The timer that is started with an assignment. -/
theorem Moved.assigned {c : Coordinator} {jobType : MRJobType} {i : Nat} {job : Job}
    (hjob : (c.allJob jobType)[i]? = some job) (hstate : job.jobState = .unFinish)
    (hturn : jobType = .reduceJob → c.mapJobFinish = true) :
    Moved c ((c.setJobState jobType i .doing).startTimer job.jobType i) := by
  refine (Moved.assign hjob hstate hturn).retime fun timer htimer => ?_
  rcases List.mem_append.mp htimer with hold | hnew
  · exact .inl hold
  · obtain rfl := List.mem_singleton.mp hnew
    exact .inr ⟨jobType, job, hjob, rfl⟩

theorem moved_getJob (c : Coordinator) : Moved c c.getJob.1 := by
  rcases c.getJob_cases with
    ⟨i, job, _, hjob, hstate, heq⟩ | ⟨i, job, hturn, hjob, hstate, heq⟩ | heq
  · rw [heq]
    exact .assigned hjob hstate (by intro h; cases h)
  · rw [heq]
    exact .assigned hjob hstate fun _ => hturn
  · rw [heq]
    exact .idle

/-- A timer that fires takes back a job that is being done. -/
theorem timeOut_cases {c c' : Coordinator} {k : Nat} (h : c.timeOut k = .ok c') :
    ∃ jobType jobId job, c.timers[k]? = some (jobType, jobId) ∧
      (c.allJob jobType)[jobId]? = some job ∧
      (job.jobState = .doing ∧ c' = { c.setJobState jobType jobId .unFinish with
          timers := c.timers.eraseIdx k } ∨
        job.jobState ≠ .doing ∧ c' = { c with timers := c.timers.eraseIdx k }) := by
  unfold timeOut at h
  split at h
  · cases h
  · next jobType jobId htimer =>
      split at h
      · cases h
      · next job hjob =>
          refine ⟨jobType, jobId, job, htimer, hjob, ?_⟩
          dsimp only at h
          split at h
          · next hstate =>
              cases h
              exact .inl ⟨hstate, setJobState_timers _ _ _ _ _⟩
          · next hstate =>
              cases h
              exact .inr ⟨hstate, rfl⟩

/-- A report is ignored, or it is about a job that there is; it changes only a job that is
being done. -/
theorem reportJobResult_cases {c c' : Coordinator} {args : JobFinishArgs}
    (h : c.reportJobResult args = .ok c') :
    (args.jobType = .terminalJob ∨ args.jobType = .waitJob) ∧ c' = c ∨
      ∃ job, Slice.get (c.allJob args.jobType) args.jobId = some job ∧
        (job.jobState ≠ .doing ∧ c' = c ∨
          job.jobState = .doing ∧
            (args.success = false ∧ c' = c.setJobState args.jobType args.jobId.toNat .unFinish ∨
              args.success = true ∧
                c' = (c.setJobState args.jobType args.jobId.toNat
                  .finished).checkAllState args)) := by
  unfold reportJobResult at h
  split at h
  · next hignored =>
      cases h
      exact .inl ⟨hignored, rfl⟩
  · split at h
    · cases h
    · next job hget =>
        refine .inr ⟨job, hget, ?_⟩
        split at h
        · next hfailed =>
            split at h
            · next hstate =>
                cases h
                exact .inr ⟨hstate, .inl ⟨hfailed, rfl⟩⟩
            · next hstate =>
                cases h
                exact .inl ⟨hstate, rfl⟩
        · next hsuccess =>
            split at h
            · next hstate =>
                cases h
                exact .inr ⟨hstate, .inr ⟨eq_true_of_ne_false hsuccess, rfl⟩⟩
            · next hstate =>
                cases h
                exact .inl ⟨hstate, rfl⟩

theorem moved_of_timeOut {c c' : Coordinator} {k : Nat} (h : c.timeOut k = .ok c') :
    Moved c c' := by
  obtain ⟨jobType, jobId, job, _, hjob, ⟨hstate, rfl⟩ | ⟨_, rfl⟩⟩ := timeOut_cases h
  · refine (Moved.giveUp hjob hstate).retime fun timer htimer => .inl ?_
    rw [timers_setJobState]
    exact List.eraseIdx_subset htimer
  · exact Moved.idle.retime fun timer htimer => .inl (List.eraseIdx_subset htimer)

theorem moved_of_reportJobResult {c c' : Coordinator} {args : JobFinishArgs}
    (h : c.reportJobResult args = .ok c') : Moved c c' := by
  rcases reportJobResult_cases h with ⟨_, rfl⟩ | ⟨job, hget, ⟨_, rfl⟩ | ⟨hstate, hdone⟩⟩
  · exact .idle
  · exact .idle
  · have hjob : (c.allJob args.jobType)[args.jobId.toNat]? = some job := Slice.read_of_get hget
    rcases hdone with ⟨_, rfl⟩ | ⟨_, rfl⟩
    · exact .giveUp hjob hstate
    · exact .finish hjob hstate

theorem moved_of_step {c c' : Coordinator} {action : Action} (h : c.step action = .ok c') :
    Moved c c' := by
  cases action with
  | getJob =>
      cases h
      exact c.moved_getJob
  | reportJobResult args => exact moved_of_reportJobResult h
  | timeOut k => exact moved_of_timeOut h

end Coordinator

/-! ## One phase

The jobs of a phase and its flag change in the same way for both phases.
-/

def AllFinished (jobs : List Job) : Prop :=
  ∀ job ∈ jobs, job.jobState = .finished

instance decidableAllFinished (jobs : List Job) : Decidable (AllFinished jobs) :=
  inferInstanceAs (Decidable (∀ job ∈ jobs, job.jobState = .finished))

/-- What a step may do to the jobs and the flag of a phase. -/
inductive PhaseMove (jobs : List Job) (flag : Bool) : List Job → Bool → Prop where
  | idle : PhaseMove jobs flag jobs flag
  | restate {i : Nat} {job : Job} {state : MRJobState} (hjob : jobs[i]? = some job)
      (hopen : job.jobState ≠ .finished) (hstate : state ≠ .finished) :
      PhaseMove jobs flag (jobs.set i { job with jobState := state }) flag
  | finish {i : Nat} {job : Job} (hjob : jobs[i]? = some job) (hopen : job.jobState ≠ .finished) :
      PhaseMove jobs flag (jobs.set i { job with jobState := .finished })
        (flag || decide (AllFinished (jobs.set i { job with jobState := .finished })))

namespace PhaseMove

variable {jobs jobs' : List Job} {flag flag' : Bool}

/-- The flag says whether all jobs are finished. -/
theorem flag_iff (h : PhaseMove jobs flag jobs' flag') (hflag : flag = true ↔ AllFinished jobs) :
    flag' = true ↔ AllFinished jobs' := by
  cases h with
  | idle => exact hflag
  | @restate i job state hjob hopen hstate =>
      have hbefore : ¬AllFinished jobs := fun hall => hopen (hall job (List.mem_of_getElem? hjob))
      have hafter : ¬AllFinished (jobs.set i { job with jobState := state }) := fun hall =>
        hstate (hall _ (List.mem_set (List.getElem?_eq_some_iff.mp hjob).1 _))
      exact iff_of_false (hflag.not.mpr hbefore) hafter
  | @finish i job hjob hopen =>
      have hbefore : ¬AllFinished jobs := fun hall => hopen (hall job (List.mem_of_getElem? hjob))
      have hclear : flag = false := Bool.eq_false_iff.mpr (hflag.not.mpr hbefore)
      rw [hclear, Bool.false_or, decide_eq_true_iff]

theorem flag_mono (h : PhaseMove jobs flag jobs' flag') (hflag : flag = true) : flag' = true := by
  cases h with
  | idle | restate => exact hflag
  | finish => rw [hflag, Bool.true_or]

/-- A finished job stays as it is. -/
theorem finished_kept (h : PhaseMove jobs flag jobs' flag') {i : Nat} {job : Job}
    (hjob : jobs[i]? = some job) (hstate : job.jobState = .finished) : jobs'[i]? = some job := by
  cases h with
  | idle => exact hjob
  | restate hother hopen _ | finish hother hopen =>
      rw [List.getElem?_set_ne ?_]
      · exact hjob
      · rintro rfl
        obtain rfl := Option.some.inj (hother.symm.trans hjob)
        exact hopen hstate

/-- Jobs keep their type. -/
theorem typed (h : PhaseMove jobs flag jobs' flag') {jobType : MRJobType}
    (htyped : ∀ job ∈ jobs, job.jobType = jobType) : ∀ job ∈ jobs', job.jobType = jobType := by
  cases h with
  | idle => exact htyped
  | restate hjob _ _ | finish hjob _ =>
      intro other hother
      rcases List.mem_or_eq_of_mem_set hother with hold | rfl
      · exact htyped other hold
      · have hsame := htyped _ (List.mem_of_getElem? hjob)
        exact hsame

theorem length_eq (h : PhaseMove jobs flag jobs' flag') : jobs'.length = jobs.length := by
  cases h with
  | idle => rfl
  | restate | finish => exact List.length_set

end PhaseMove

namespace Coordinator

/-- The flag of a phase; there is none for the other types. -/
def allFinish (c : Coordinator) : MRJobType → Bool
  | .mapJob => c.mapJobFinish
  | .reduceJob => c.reduceJobFinish
  | .unknownJob | .terminalJob | .waitJob => false

/-- What a step does to the jobs and the flag of each phase. -/
def PhaseMoves (c c' : Coordinator) : Prop :=
  ∀ jobType, PhaseMove (c.allJob jobType) (c.allFinish jobType) (c'.allJob jobType)
    (c'.allFinish jobType)

theorem allJob_setJobState {c : Coordinator} {jobType : MRJobType} {i : Nat} {job : Job}
    (h : (c.allJob jobType)[i]? = some job) (state : MRJobState) (other : MRJobType) :
    (c.setJobState jobType i state).allJob other = if other = jobType then
      (c.allJob jobType).set i { job with jobState := state } else c.allJob other := by
  rw [← Table.modify_of_read h fun job => { job with jobState := state }]
  cases jobType <;> cases other <;> simp [setJobState, allJob]

theorem allFinish_setJobState (c : Coordinator) (jobType : MRJobType) (i : Nat)
    (state : MRJobState) (other : MRJobType) :
    (c.setJobState jobType i state).allFinish other = c.allFinish other := by
  cases jobType <;> cases other <;> rfl

/-- The flag of the reported phase is raised when all its jobs are finished. -/
theorem checkAllState_eq (c : Coordinator) (args : JobFinishArgs) :
    c.checkAllState args = { c with
      mapJobFinish := c.mapJobFinish || decide (.mapJob = args.jobType ∧ AllFinished c.mapJob)
      reduceJobFinish := c.reduceJobFinish ||
        decide (.reduceJob = args.jobType ∧ AllFinished c.reduceJob) } := by
  have hall (jobs : List Job) :
      (jobs.all fun job => job.jobState = .finished) = decide (AllFinished jobs) := by
    rw [Bool.eq_iff_iff, decide_eq_true_iff]
    simp [AllFinished]
  cases htype : args.jobType with
  | mapJob =>
      by_cases hphase : AllFinished c.mapJob <;>
        simp [checkAllState, htype, allJob, hall, hphase]
  | reduceJob =>
      by_cases hphase : AllFinished c.reduceJob <;>
        simp [checkAllState, htype, allJob, hall, hphase]
  | unknownJob | terminalJob | waitJob => simp [checkAllState, htype]

theorem allJob_checkAllState (c : Coordinator) (args : JobFinishArgs) (jobType : MRJobType) :
    (c.checkAllState args).allJob jobType = c.allJob jobType := by
  rw [checkAllState_eq]
  cases jobType <;> rfl

theorem allFinish_checkAllState (c : Coordinator) (args : JobFinishArgs) {jobType : MRJobType}
    (hphase : jobType = .mapJob ∨ jobType = .reduceJob) :
    (c.checkAllState args).allFinish jobType = (c.allFinish jobType ||
      decide (jobType = args.jobType ∧ AllFinished (c.allJob jobType))) := by
  rw [checkAllState_eq]
  rcases hphase with rfl | rfl <;> rfl

theorem phaseMoves_restate {c : Coordinator} {jobType : MRJobType} {i : Nat} {job : Job}
    {state : MRJobState} (hjob : (c.allJob jobType)[i]? = some job)
    (hopen : job.jobState ≠ .finished) (hstate : state ≠ .finished) :
    PhaseMoves c (c.setJobState jobType i state) := by
  intro other
  rw [allJob_setJobState hjob, allFinish_setJobState]
  split
  · next hsame =>
      rw [hsame]
      exact .restate hjob hopen hstate
  · exact .idle

theorem phaseMoves_finish {c : Coordinator} {args : JobFinishArgs} {i : Nat} {job : Job}
    (hjob : (c.allJob args.jobType)[i]? = some job) (hopen : job.jobState ≠ .finished) :
    PhaseMoves c ((c.setJobState args.jobType i .finished).checkAllState args) := by
  intro other
  by_cases hphase : other = .mapJob ∨ other = .reduceJob
  · rw [allJob_checkAllState, allFinish_checkAllState _ _ hphase, allJob_setJobState hjob,
      allFinish_setJobState]
    by_cases hsame : other = args.jobType
    · subst hsame
      simp only [if_pos, true_and]
      exact .finish hjob hopen
    · simp only [hsame, if_false, false_and, decide_false, Bool.or_false]
      exact .idle
  · cases other with
    | mapJob | reduceJob => simp at hphase
    | unknownJob | terminalJob | waitJob => exact .idle

theorem Moved.phaseMoves {c c' : Coordinator} (h : Moved c c') : PhaseMoves c c' := by
  induction h with
  | idle => exact fun _ => .idle
  | assign hjob hstate _ => exact phaseMoves_restate hjob (by simp [hstate]) (by decide)
  | giveUp hjob hstate => exact phaseMoves_restate hjob (by simp [hstate]) (by decide)
  | finish hjob hstate => exact phaseMoves_finish hjob (by simp [hstate])
  | retime _ _ ih => exact ih

/-- No reduce job is touched while the map phase lasts and none has been handed out. -/
theorem Moved.reduceJob_eq {c c' : Coordinator} (h : Moved c c') (hmap : c.mapJobFinish = false)
    (hwaits : ∀ job ∈ c.reduceJob, job.jobState = .unFinish) : c'.reduceJob = c.reduceJob := by
  have hidle {jobType : MRJobType} {i : Nat} {job : Job}
      (hjob : (c.allJob jobType)[i]? = some job) (hstate : job.jobState = .doing) :
      jobType ≠ .reduceJob := by
    rintro rfl
    have hunfinish := hwaits job (List.mem_of_getElem? hjob)
    rw [hstate] at hunfinish
    cases hunfinish
  have hother {jobType : MRJobType} (hne : jobType ≠ .reduceJob) (i : Nat) (state : MRJobState) :
      (c.setJobState jobType i state).reduceJob = c.reduceJob := by
    cases jobType with
    | reduceJob => exact absurd rfl hne
    | mapJob | unknownJob | terminalJob | waitJob => rfl
  induction h with
  | idle => rfl
  | assign hjob hstate hturn =>
      refine hother (fun htype => ?_) _ _
      rw [hturn htype] at hmap
      cases hmap
  | giveUp hjob hstate => exact hother (hidle hjob hstate) _ _
  | finish hjob hstate =>
      exact (allJob_checkAllState _ _ .reduceJob).trans (hother (hidle hjob hstate) _ _)
  | retime _ _ ih => exact ih

/-! ## The barrier -/

/-- The flags say whether the jobs of their phase are finished, and no reduce job has left
`UnFinish` while the map phase lasts. -/
structure Barrier (c : Coordinator) : Prop where
  mapFlag : c.mapJobFinish = true ↔ AllFinished c.mapJob
  reduceFlag : c.reduceJobFinish = true ↔ AllFinished c.reduceJob
  waits : c.mapJobFinish = false → ∀ job ∈ c.reduceJob, job.jobState = .unFinish
  mapTyped : ∀ job ∈ c.mapJob, job.jobType = .mapJob
  reduceTyped : ∀ job ∈ c.reduceJob, job.jobType = .reduceJob
  reduceSome : c.reduceJob ≠ []

theorem barrier_makeCoordinator {files : List String} {nReduce : Nat} (hfiles : files ≠ [])
    (hreduce : 1 ≤ nReduce) : (makeCoordinator files nReduce).Barrier := by
  have hmap {job : Job} (hjob : job ∈ (makeCoordinator files nReduce).mapJob) :
      job.jobType = .mapJob ∧ job.jobState = .unFinish := by
    obtain ⟨i, hi, rfl⟩ := List.mem_mapIdx.mp hjob
    exact ⟨rfl, rfl⟩
  have hred {job : Job} (hjob : job ∈ (makeCoordinator files nReduce).reduceJob) :
      job.jobType = .reduceJob ∧ job.jobState = .unFinish := by
    obtain ⟨i, _, rfl⟩ := List.mem_map.mp hjob
    exact ⟨rfl, rfl⟩
  have hopen {jobs : List Job} (hsome : jobs ≠ []) (hall : ∀ job ∈ jobs, job.jobState = .unFinish) :
      false = true ↔ AllFinished jobs := by
    obtain ⟨job, hjob⟩ := List.exists_mem_of_ne_nil jobs hsome
    refine iff_of_false Bool.false_ne_true fun hfinished => ?_
    have hstate := hfinished job hjob
    rw [hall job hjob] at hstate
    cases hstate
  have hmapSome : (makeCoordinator files nReduce).mapJob ≠ [] := by
    simpa [makeCoordinator] using hfiles
  have hredSome : (makeCoordinator files nReduce).reduceJob ≠ [] := by
    simp only [makeCoordinator, ne_eq, List.map_eq_nil_iff, List.range_eq_nil]
    omega
  exact ⟨hopen hmapSome fun job hjob => (hmap hjob).2, hopen hredSome fun job hjob => (hred hjob).2,
    fun _ job hjob => (hred hjob).2, fun job hjob => (hmap hjob).1, fun job hjob => (hred hjob).1,
    hredSome⟩

theorem Barrier.step {c c' : Coordinator} {action : Action} (h : c.Barrier)
    (hstep : c.step action = .ok c') : c'.Barrier := by
  have hmoved := moved_of_step hstep
  have hmap := hmoved.phaseMoves .mapJob
  have hreduce := hmoved.phaseMoves .reduceJob
  refine ⟨hmap.flag_iff h.mapFlag, hreduce.flag_iff h.reduceFlag, fun hlasts => ?_,
    hmap.typed h.mapTyped, hreduce.typed h.reduceTyped, fun hnil => ?_⟩
  · have hbefore : c.mapJobFinish = false := by
      refine Bool.eq_false_iff.mpr fun hdone => ?_
      have hover : c'.mapJobFinish = true := hmap.flag_mono hdone
      rw [hover] at hlasts
      cases hlasts
    rw [hmoved.reduceJob_eq hbefore (h.waits hbefore)]
    exact h.waits hbefore
  · have hlength : c'.reduceJob.length = c.reduceJob.length := hreduce.length_eq
    rw [hnil, List.length_nil] at hlength
    exact h.reduceSome (List.length_eq_zero_iff.mp hlength.symm)

theorem barrier_of_runs {files : List String} {nReduce : Nat} {actions : List Action}
    {c : Coordinator} (hfiles : files ≠ []) (hreduce : 1 ≤ nReduce)
    (h : Runs step (makeCoordinator files nReduce) actions c) : c.Barrier := by
  induction h with
  | refl => exact barrier_makeCoordinator hfiles hreduce
  | tail _ _ taken ih => exact ih.step taken

/-- The map phase is over once a reduce job is not `UnFinish`. -/
theorem Barrier.mapJobFinish_of_left {c : Coordinator} (h : c.Barrier) {job : Job}
    (hjob : job ∈ c.reduceJob) (hstate : job.jobState ≠ .unFinish) : c.mapJobFinish = true := by
  cases hmap : c.mapJobFinish with
  | true => rfl
  | false => exact absurd (h.waits hmap job hjob) hstate

theorem Barrier.reply_cases {c : Coordinator} (h : c.Barrier) :
    c.getJob.2.jobType = .mapJob ∧ c.mapJobFinish = false ∨
    c.getJob.2.jobType = .reduceJob ∧ c.mapJobFinish = true ∧ c.reduceJobFinish = false ∨
    c.getJob.2.jobType = .terminalJob ∧ c.reduceJobFinish = true ∨
    c.getJob.2.jobType = .waitJob ∧ c.reduceJobFinish = false := by
  rcases c.getJob_cases with
    ⟨i, job, hlasts, hjob, _, heq⟩ | ⟨i, job, hturn, hjob, hstate, heq⟩ | heq
  · rw [heq]
    exact .inl ⟨h.mapTyped job (List.mem_of_getElem? hjob), hlasts⟩
  · rw [heq]
    have hmem : job ∈ c.reduceJob := List.mem_of_getElem? hjob
    refine .inr (.inl ⟨h.reduceTyped job hmem, hturn, Bool.eq_false_iff.mpr fun hdone => ?_⟩)
    exact absurd (hstate.symm.trans (h.reduceFlag.mp hdone job hmem)) (by decide)
  · rw [heq]
    cases hdone : c.reduceJobFinish with
    | true => exact .inr (.inr (.inl ⟨rfl, rfl⟩))
    | false => exact .inr (.inr (.inr ⟨rfl, rfl⟩))

/-- A worker is told to stop when all reduce jobs are finished. -/
theorem Barrier.terminal_iff {c : Coordinator} (h : c.Barrier) :
    c.getJob.2.jobType = .terminalJob ↔ AllFinished c.reduceJob := by
  rw [← h.reduceFlag]
  constructor
  · intro hreply
    rcases h.reply_cases with ⟨htype, _⟩ | ⟨htype, _⟩ | ⟨_, hdone⟩ | ⟨htype, _⟩
    · exact absurd (htype.symm.trans hreply) (by decide)
    · exact absurd (htype.symm.trans hreply) (by decide)
    · exact hdone
    · exact absurd (htype.symm.trans hreply) (by decide)
  · intro hdone
    obtain ⟨job, hjob⟩ := List.exists_mem_of_ne_nil _ h.reduceSome
    have hleft : job.jobState ≠ .unFinish := by
      rw [h.reduceFlag.mp hdone job hjob]
      decide
    have hmap := h.mapJobFinish_of_left hjob hleft
    rcases h.reply_cases with ⟨_, hlasts⟩ | ⟨_, _, hnot⟩ | ⟨htype, _⟩ | ⟨_, hnot⟩
    · exact absurd (hmap.symm.trans hlasts) (by decide)
    · exact absurd (hdone.symm.trans hnot) (by decide)
    · exact htype
    · exact absurd (hdone.symm.trans hnot) (by decide)

theorem finished_of_reaches {c later : Coordinator} (h : Reaches step c later)
    {jobType : MRJobType} {i : Nat} {job : Job} (hjob : (c.allJob jobType)[i]? = some job)
    (hstate : job.jobState = .finished) : (later.allJob jobType)[i]? = some job := by
  refine h.invariant (P := fun c => (c.allJob jobType)[i]? = some job) hjob ?_
  intro before action after hbefore hstep
  exact ((moved_of_step hstep).phaseMoves jobType).finished_kept hbefore hstate

/-- In every run: a finished job stays finished; no reduce job has left `UnFinish` and no
reply carries a reduce job before all map jobs are finished; the flags, `Done` and the
replies that stop workers say exactly when all jobs of the phase are finished. -/
theorem phase_barrier {files : List String} {nReduce : Nat} (hfiles : files ≠ [])
    (hreduce : 1 ≤ nReduce) {actions : List Action} {c : Coordinator}
    (h : Runs step (makeCoordinator files nReduce) actions c) :
    (∀ later, Reaches step c later → ∀ (jobType : MRJobType) (i : Nat) (job : Job),
      (c.allJob jobType)[i]? = some job → job.jobState = .finished →
      (later.allJob jobType)[i]? = some job) ∧
    (∀ job ∈ c.reduceJob, job.jobState ≠ .unFinish → AllFinished c.mapJob) ∧
    (c.getJob.2.jobType = .reduceJob → AllFinished c.mapJob) ∧
    (c.mapJobFinish = true ↔ AllFinished c.mapJob) ∧
    (c.done = true ↔ AllFinished c.reduceJob) ∧
    (c.getJob.2.jobType = .terminalJob ↔ AllFinished c.reduceJob) := by
  have hbarrier := barrier_of_runs hfiles hreduce h
  refine ⟨fun later hlater jobType i job hjob hstate => finished_of_reaches hlater hjob hstate,
    fun job hjob hleft => hbarrier.mapFlag.mp (hbarrier.mapJobFinish_of_left hjob hleft),
    fun hreply => ?_, hbarrier.mapFlag, hbarrier.reduceFlag, hbarrier.terminal_iff⟩
  rcases hbarrier.reply_cases with ⟨htype, _⟩ | ⟨_, hmap, _⟩ | ⟨htype, _⟩ | ⟨htype, _⟩
  · exact absurd (htype.symm.trans hreply) (by decide)
  · exact hbarrier.mapFlag.mp hmap
  · exact absurd (htype.symm.trans hreply) (by decide)
  · exact absurd (htype.symm.trans hreply) (by decide)

/-- A map job times out and is given again; the report of the first worker still counts.
The reduce job is finished after that. -/
theorem phase_barrier_late_report :
    ∃ c, Runs step (makeCoordinator ["a.txt"] 1)
        [.getJob, .timeOut 0, .getJob, .reportJobResult ⟨.mapJob, true, 0⟩, .getJob, .timeOut 0,
          .reportJobResult ⟨.reduceJob, true, 0⟩] c ∧
      AllFinished c.mapJob ∧ c.done = true ∧
      (c.getJob.2.jobType = .terminalJob ↔ AllFinished c.reduceJob) := by
  have hchecked : RunHolds step
      [.getJob, .timeOut 0, .getJob, .reportJobResult ⟨.mapJob, true, 0⟩, .getJob, .timeOut 0,
        .reportJobResult ⟨.reduceJob, true, 0⟩] (makeCoordinator ["a.txt"] 1)
      (fun c => c.mapJobFinish = true ∧ c.done = true) := by
    decide +kernel
  obtain ⟨c, hrun, hmap, hdone⟩ := hchecked.exists_runs
  obtain ⟨_, _, _, hmapFlag, _, hterminal⟩ := phase_barrier (by decide) (by decide) hrun
  exact ⟨c, hrun, hmapFlag.mp hmap, hdone, hterminal⟩

/-! ## No step panics -/

/-- A report is for a job there is. -/
def InRange (c : Coordinator) : Action → Prop
  | .reportJobResult args => 0 ≤ args.jobId ∧ args.jobId < (c.allJob args.jobType).length
  | .getJob | .timeOut _ => True

/-- Timers are for jobs there are. -/
def TimersInRange (c : Coordinator) : Prop :=
  ∀ timer ∈ c.timers, timer.2 < (c.allJob timer.1).length

theorem timers_checkAllState (c : Coordinator) (args : JobFinishArgs) :
    (c.checkAllState args).timers = c.timers := by
  simp only [checkAllState, apply_ite Coordinator.timers, ite_self]

theorem Moved.timers_cases {c c' : Coordinator} (h : Moved c c') :
    ∀ timer ∈ c'.timers, timer ∈ c.timers ∨
      ∃ jobType job, (c.allJob jobType)[timer.2]? = some job ∧ timer.1 = job.jobType := by
  induction h with
  | idle => exact fun _ htimer => .inl htimer
  | assign | giveUp =>
      rw [timers_setJobState]
      exact fun _ htimer => .inl htimer
  | finish =>
      rw [timers_checkAllState, timers_setJobState]
      exact fun _ htimer => .inl htimer
  | retime _ htimers ih =>
      intro timer htimer
      rcases htimers timer htimer with hold | hnew
      · exact ih timer hold
      · exact .inr hnew

/-- The jobs of a phase have its type. -/
def Typed (c : Coordinator) : Prop :=
  ∀ jobType, ∀ job ∈ c.allJob jobType, job.jobType = jobType

theorem typed_makeCoordinator (files : List String) (nReduce : Nat) :
    (makeCoordinator files nReduce).Typed := by
  intro jobType job hjob
  cases jobType with
  | mapJob =>
      obtain ⟨i, hi, rfl⟩ := List.mem_mapIdx.mp hjob
      rfl
  | reduceJob =>
      obtain ⟨i, _, rfl⟩ := List.mem_map.mp hjob
      rfl
  | unknownJob | terminalJob | waitJob => cases hjob

theorem Typed.step {c c' : Coordinator} {action : Action} (h : c.Typed)
    (hstep : c.step action = .ok c') : c'.Typed := by
  intro jobType
  exact ((moved_of_step hstep).phaseMoves jobType).typed (h jobType)

theorem TimersInRange.step {c c' : Coordinator} {action : Action} (h : c.TimersInRange)
    (htyped : c.Typed) (hstep : c.step action = .ok c') : c'.TimersInRange := by
  have hmoved := moved_of_step hstep
  intro timer htimer
  rw [(hmoved.phaseMoves _).length_eq]
  rcases hmoved.timers_cases timer htimer with hold | ⟨jobType, job, hjob, htype⟩
  · exact h timer hold
  · rw [htype, htyped jobType job (List.mem_of_getElem? hjob)]
    exact (List.getElem?_eq_some_iff.mp hjob).1

theorem typed_of_reaches {files : List String} {nReduce : Nat} {c : Coordinator}
    (h : Reaches step (makeCoordinator files nReduce) c) : c.Typed :=
  h.invariant (typed_makeCoordinator files nReduce) fun htyped hstep => htyped.step hstep

theorem timersInRange_of_reaches {files : List String} {nReduce : Nat} {c : Coordinator}
    (h : Reaches step (makeCoordinator files nReduce) c) : c.TimersInRange := by
  induction h with
  | refl =>
      intro timer htimer
      cases htimer
  | tail before last ih =>
      obtain ⟨action, hstep⟩ := last
      exact ih.step (typed_of_reaches before) hstep

theorem reportJobResult_ne_panic {c : Coordinator} {args : JobFinishArgs}
    (h : c.InRange (.reportJobResult args)) : c.reportJobResult args ≠ .panic := by
  obtain ⟨job, hget⟩ := Slice.exists_get h.1 h.2
  unfold reportJobResult
  rw [hget]
  dsimp only
  repeat' split
  all_goals exact Outcome.ok_ne_panic _

theorem timeOut_ne_panic {c : Coordinator} (h : c.TimersInRange) (k : Nat) :
    c.timeOut k ≠ .panic := by
  unfold timeOut
  split
  · exact Outcome.blocked_ne_panic
  · next jobType jobId htimer =>
      have hin : jobId < (c.allJob jobType).length := h _ (List.mem_of_getElem? htimer)
      rw [List.getElem?_eq_getElem hin]
      dsimp only
      split
      · exact Outcome.ok_ne_panic _
      · exact Outcome.ok_ne_panic _

/-- Whatever happened before, no request, report of an existing job or timer panics. -/
theorem step_ne_panic {files : List String} {nReduce : Nat} {c : Coordinator}
    (h : Reaches step (makeCoordinator files nReduce) c) {action : Action}
    (hin : c.InRange action) : c.step action ≠ .panic := by
  cases action with
  | getJob => exact Outcome.ok_ne_panic _
  | reportJobResult args => exact reportJobResult_ne_panic hin
  | timeOut k => exact timeOut_ne_panic (timersInRange_of_reaches h) k

end Coordinator

end DistributedLabs.MapReduce
