import DistributedLabs.MapReduce.Assignments

/-!
# What replies and finished jobs rest on

A worker with a map job has the file of that job and the number of reduce jobs.  A worker with
a reduce job got it after the map phase.  A job is finished because a worker reported success
for it.
-/

namespace DistributedLabs.MapReduce

open DistributedLabs.Library

/-! ## The coordinator -/

theorem PhaseMove.operateFileName_eq {jobs jobs' : List Job} {flag flag' : Bool}
    (h : PhaseMove jobs flag jobs' flag') :
    jobs'.map Job.operateFileName = jobs.map Job.operateFileName := by
  have hset {i : Nat} {job : Job} (hjob : jobs[i]? = some job) (state : MRJobState) :
      (jobs.set i { job with jobState := state }).map Job.operateFileName =
        jobs.map Job.operateFileName := by
    rw [List.map_set]
    refine Table.set_of_read ?_
    rw [List.getElem?_map, hjob]
    rfl
  cases h with
  | idle => rfl
  | restate hjob _ _ => exact hset hjob _
  | finish hjob _ => exact hset hjob _

namespace Coordinator

variable {c c' : Coordinator} {files : List String} {nReduce : Nat}

/-- The jobs are those that were set up for the files and the number of reduce jobs. -/
structure Posed (files : List String) (nReduce : Nat) (c : Coordinator) : Prop where
  fileNames : c.mapJob.map Job.operateFileName = files
  reduceJobs : c.reduceJob.length = nReduce
  nReduce : c.nReduce = nReduce

theorem posed_makeCoordinator (files : List String) (nReduce : Nat) :
    (makeCoordinator files nReduce).Posed files nReduce := by
  refine ⟨?_, ?_, rfl⟩
  · refine List.ext_getElem? fun i => ?_
    simp [makeCoordinator, Function.comp_def]
  · simp [makeCoordinator]

theorem nReduce_setJobState (c : Coordinator) (jobType : MRJobType) (i : Nat)
    (state : MRJobState) : (c.setJobState jobType i state).nReduce = c.nReduce := by
  cases jobType <;> rfl

theorem Moved.nReduce_eq (h : Moved c c') : c'.nReduce = c.nReduce := by
  induction h with
  | idle => rfl
  | assign | giveUp => exact nReduce_setJobState ..
  | finish =>
      simp only [checkAllState, apply_ite Coordinator.nReduce, ite_self]
      exact nReduce_setJobState ..
  | retime _ _ ih => exact ih

theorem Posed.step {action : Action} (h : c.Posed files nReduce) (hstep : c.step action = .ok c') :
    c'.Posed files nReduce := by
  have hmoved := moved_of_step hstep
  constructor
  · exact (hmoved.phaseMoves .mapJob).operateFileName_eq.trans h.fileNames
  · exact (hmoved.phaseMoves .reduceJob).length_eq.trans h.reduceJobs
  · exact hmoved.nReduce_eq.trans h.nReduce

theorem posed_of_reaches (h : Reaches step (makeCoordinator files nReduce) c) :
    c.Posed files nReduce :=
  h.invariant (posed_makeCoordinator files nReduce) fun hposed hstep => hposed.step hstep

/-- What a worker may rely on when it has this reply. -/
def Serves (files : List String) (nReduce : Nat) (c : Coordinator) (reply : ExampleReply) : Prop :=
  (reply.jobType = .mapJob →
    files[reply.jobId]? = some reply.mapJobFileName ∧ reply.nReduce = nReduce) ∧
  (reply.jobType = .reduceJob → reply.jobId < nReduce ∧ c.mapJobFinish = true)

theorem Serves.step {reply : ExampleReply} {action : Action} (h : c.Serves files nReduce reply)
    (hstep : c.step action = .ok c') : c'.Serves files nReduce reply := by
  refine ⟨h.1, fun htype => ⟨(h.2 htype).1, ?_⟩⟩
  exact (moved_of_step hstep).phaseMoves .mapJob |>.flag_mono (h.2 htype).2

theorem Serves.reaches {reply : ExampleReply} (h : c.Serves files nReduce reply)
    (hreach : Reaches Coordinator.step c c') : c'.Serves files nReduce reply :=
  hreach.invariant (P := fun c => c.Serves files nReduce reply) h fun hserves hstep =>
    hserves.step hstep

theorem serves_getJob (hposed : c.Posed files nReduce) (htyped : c.Typed) :
    c.Serves files nReduce c.getJob.2 := by
  rcases c.getJob_cases with ⟨i, job, _, hjob, _, heq⟩ | ⟨i, job, hturn, hjob, _, heq⟩ | heq
  · have htype := htyped .mapJob job (List.mem_of_getElem? hjob)
    have hfile : files[i]? = some job.operateFileName := by
      rw [← hposed.fileNames, List.getElem?_map]
      exact congrArg (Option.map Job.operateFileName) hjob
    rw [heq]
    refine ⟨fun _ => ⟨hfile, hposed.nReduce⟩, fun hreduce => ?_⟩
    cases htype.symm.trans hreduce
  · have htype := htyped .reduceJob job (List.mem_of_getElem? hjob)
    have hlt : i < c.reduceJob.length := (List.getElem?_eq_some_iff.mp hjob).1
    rw [heq]
    refine ⟨fun hmap => ?_, fun _ => ⟨hposed.reduceJobs ▸ hlt, hturn⟩⟩
    cases htype.symm.trans hmap
  · rw [heq]
    constructor
    · intro hmap
      dsimp only at hmap
      split at hmap <;> cases hmap
    · intro hreduce
      dsimp only at hreduce
      split at hreduce <;> cases hreduce

/-- A job whose state is set to another one is not finished by that. -/
theorem stateOf_of_restate {jobType : MRJobType} {i : Nat} {state : MRJobState}
    {job : MRJobType × Nat} (hstate : state ≠ .finished)
    (h : (c.setJobState jobType i state).stateOf job = some .finished) :
    c.stateOf job = some .finished := by
  rw [stateOf_setJobState] at h
  split at h
  · obtain ⟨_, _, heq⟩ := Option.map_eq_some_iff.mp h
    exact absurd heq hstate
  · exact h

theorem stateOf_getJob {job : MRJobType × Nat} (h : c.getJob.1.stateOf job = some .finished) :
    c.stateOf job = some .finished := by
  rcases c.getJob_cases with ⟨i, _, _, _, _, heq⟩ | ⟨i, _, _, _, _, heq⟩ | heq
  · rw [heq] at h
    exact stateOf_of_restate (by decide) h
  · rw [heq] at h
    exact stateOf_of_restate (by decide) h
  · rw [heq] at h
    exact h

theorem stateOf_timeOut {k : Nat} {job : MRJobType × Nat} (hrun : c.timeOut k = .ok c')
    (h : c'.stateOf job = some .finished) : c.stateOf job = some .finished := by
  obtain ⟨jobType, i, _, _, _, ⟨_, rfl⟩ | ⟨_, rfl⟩⟩ := timeOut_cases hrun
  · change (c.setJobState jobType i .unFinish).stateOf job = _ at h
    exact stateOf_of_restate (by decide) h
  · exact h

/-- A report finishes at most the job it is about, and only if it reports success. -/
theorem stateOf_reportJobResult {args : JobFinishArgs} {job : MRJobType × Nat}
    (hrun : c.reportJobResult args = .ok c') (h : c'.stateOf job = some .finished) :
    c.stateOf job = some .finished ∨
      args.success = true ∧ job = (args.jobType, args.jobId.toNat) := by
  rcases reportJobResult_cases hrun with
    ⟨_, rfl⟩ | ⟨_, _, ⟨_, rfl⟩ | ⟨_, ⟨_, rfl⟩ | ⟨hsuccess, rfl⟩⟩⟩
  · exact .inl h
  · exact .inl h
  · exact .inl (stateOf_of_restate (by decide) h)
  · rw [stateOf_checkAllState] at h
    by_cases hjob : job = (args.jobType, args.jobId.toNat)
    · exact .inr ⟨hsuccess, hjob⟩
    · rw [stateOf_setJobState_of_ne hjob] at h
      exact .inl h

end Coordinator

/-! ## Workers and reports -/

namespace System

variable {s s' : System} {action : SystemAction} {files : List String} {nReduce : Nat}

/-- A worker has the job it had, or `GetJob` has just replied, or the call has failed. -/
theorem processing_of_step (hstep : s.step action = .ok s') {worker : Nat} {reply : ExampleReply}
    {assignment : Option Nat} (h : s'.workers worker = .processing reply assignment) :
    (s.workers worker = .processing reply assignment ∧
        ∀ result, action ≠ .processJob worker result) ∨
      s.workers worker = .asking ∧ (reply = s.coordinator.getJob.2 ∨ reply = {}) := by
  have hset {t : System} {other : Nat} {state : WorkerState}
      (h : (t.setWorker other state).workers worker = .processing reply assignment) :
      worker = other ∧ state = .processing reply assignment ∨
        worker ≠ other ∧ t.workers worker = .processing reply assignment := by
    by_cases heq : worker = other
    · subst heq
      simp only [System.setWorker, Function.update_self] at h
      exact .inl ⟨rfl, h⟩
    · simp only [System.setWorker, Function.update_of_ne heq] at h
      exact .inr ⟨heq, h⟩
  cases action with
  | getJob other =>
      simp only [step] at hstep
      split at hstep
      · next hasking =>
          cases hstep
          rcases hset h with ⟨rfl, hstate⟩ | ⟨_, hold⟩
          · cases hstate
            refine .inr ⟨hasking, .inl ?_⟩
            unfold getJob
            dsimp only
            split <;> rfl
          · rw [s.getJob_workers.1] at hold
            exact .inl ⟨hold, by simp⟩
      · cases hstep
  | getJobFails other =>
      simp only [step] at hstep
      split at hstep
      · next hasking =>
          cases hstep
          rcases hset h with ⟨rfl, hstate⟩ | ⟨_, hold⟩
          · cases hstate
            exact .inr ⟨hasking, .inr rfl⟩
          · exact .inl ⟨hold, by simp⟩
      · cases hstep
  | getJobUnheard =>
      cases hstep
      rw [s.getJob_workers.1] at h
      exact .inl ⟨h, by simp⟩
  | processJob other result =>
      simp only [step] at hstep
      split at hstep
      · cases hstep
        rcases hset h with ⟨_, hstate⟩ | ⟨hne, hold⟩
        · split at hstate <;> cases hstate
        · refine .inl ⟨hold, fun result' heq => ?_⟩
          cases heq
          exact hne rfl
      · cases hstep
  | reportJobResult k =>
      simp only [step] at hstep
      split at hstep
      · obtain ⟨c, _, rfl⟩ := Outcome.map_eq_ok.mp hstep
        exact .inl ⟨h, by simp⟩
      · cases hstep
  | timeOut k =>
      obtain ⟨c, _, rfl⟩ := Outcome.map_eq_ok.mp hstep
      exact .inl ⟨h, by simp⟩

/-- A worker asks because it did or because it has returned from its job. -/
theorem asking_of_step (hstep : s.step action = .ok s') {worker : Nat}
    (h : s'.workers worker = .asking) :
    s.workers worker = .asking ∨ ∃ result, action = .processJob worker result := by
  have hset {t : System} {other : Nat} {state : WorkerState}
      (h : (t.setWorker other state).workers worker = .asking) :
      worker = other ∨ t.workers worker = .asking := by
    by_cases heq : worker = other
    · exact .inl heq
    · simp only [System.setWorker, Function.update_of_ne heq] at h
      exact .inr h
  cases action with
  | getJob other =>
      simp only [step] at hstep
      split at hstep
      · next hasking =>
          cases hstep
          rcases hset h with rfl | hold
          · exact .inl hasking
          · rw [s.getJob_workers.1] at hold
            exact .inl hold
      · cases hstep
  | getJobFails other =>
      simp only [step] at hstep
      split at hstep
      · next hasking =>
          cases hstep
          rcases hset h with rfl | hold
          · exact .inl hasking
          · exact .inl hold
      · cases hstep
  | getJobUnheard =>
      cases hstep
      rw [s.getJob_workers.1] at h
      exact .inl h
  | processJob other result =>
      simp only [step] at hstep
      split at hstep
      · cases hstep
        rcases hset h with rfl | hold
        · exact .inr ⟨result, rfl⟩
        · exact .inl hold
      · cases hstep
  | reportJobResult k =>
      simp only [step] at hstep
      split at hstep
      · obtain ⟨c, _, rfl⟩ := Outcome.map_eq_ok.mp hstep
        exact .inl h
      · cases hstep
  | timeOut k =>
      obtain ⟨c, _, rfl⟩ := Outcome.map_eq_ok.mp hstep
      exact .inl h

theorem serves_of_reaches (h : Reaches step (start files nReduce) s) {worker : Nat}
    {reply : ExampleReply} {assignment : Option Nat}
    (hworker : s.workers worker = .processing reply assignment) :
    s.coordinator.Serves files nReduce reply := by
  induction h generalizing reply assignment with
  | refl => cases hworker
  | @tail t t' before last ih =>
      obtain ⟨action, hstep⟩ := last
      have hcoordinator := coordinator_of_reaches before
      refine Coordinator.Serves.reaches ?_ (step_turn hstep).coordinator
      rcases processing_of_step hstep hworker with ⟨hold, _⟩ | ⟨_, rfl | rfl⟩
      · exact ih hold
      · exact Coordinator.serves_getJob (Coordinator.posed_of_reaches hcoordinator)
          (Coordinator.typed_of_reaches hcoordinator)
      · exact ⟨by simp, by simp⟩

/-- A job that a step finishes was reported as a success. -/
theorem finished_of_step (hstep : s.step action = .ok s') {job : MRJobType × Nat}
    (h : s'.coordinator.stateOf job = some .finished) :
    s.coordinator.stateOf job = some .finished ∨
      ∃ report ∈ s.reports, report.args.success = true ∧
        job = (report.args.jobType, report.args.jobId.toNat) := by
  cases step_turn hstep with
  | worker => exact .inl h
  | getJob workers =>
      change s.getJob.1.coordinator.stateOf job = _ at h
      rw [getJob_coordinator] at h
      exact .inl (Coordinator.stateOf_getJob h)
  | reported found run =>
      rcases Coordinator.stateOf_reportJobResult run h with hold | hnew
      · exact .inl hold
      · exact .inr ⟨_, List.mem_of_getElem? found, hnew⟩
  | fired run => exact .inl (Coordinator.stateOf_timeOut run h)

/-- A report was there before, or the worker with that job has just returned. -/
theorem report_of_step (hstep : s.step action = .ok s') {report : Report}
    (h : report ∈ s'.reports) :
    report ∈ s.reports ∨ ∃ worker result reply assignment, action = .processJob worker result ∧
      s.workers worker = .processing reply assignment ∧
      report.args = ⟨reply.jobType, (processJob reply result).2, reply.jobId⟩ := by
  cases action with
  | getJob worker =>
      simp only [step] at hstep
      split at hstep
      · cases hstep
        exact .inl (s.getJob_workers.2 ▸ h)
      · cases hstep
  | getJobFails worker =>
      simp only [step] at hstep
      split at hstep
      · cases hstep
        exact .inl h
      · cases hstep
  | getJobUnheard =>
      cases hstep
      exact .inl (s.getJob_workers.2 ▸ h)
  | processJob worker result =>
      simp only [step] at hstep
      split at hstep
      · next reply assignment hworker =>
          cases hstep
          rcases List.mem_append.mp h with hold | hnew
          · exact .inl hold
          · obtain rfl := List.mem_singleton.mp hnew
            exact .inr ⟨worker, result, reply, assignment, rfl, hworker, rfl⟩
      · cases hstep
  | reportJobResult k =>
      simp only [step] at hstep
      split at hstep
      · obtain ⟨c, _, rfl⟩ := Outcome.map_eq_ok.mp hstep
        exact .inl (List.eraseIdx_subset h)
      · cases hstep
  | timeOut k =>
      obtain ⟨c, _, rfl⟩ := Outcome.map_eq_ok.mp hstep
      exact .inl h

end System

end DistributedLabs.MapReduce
