import DistributedLabs.MapReduce.Calls
import DistributedLabs.MapReduce.Completion

/-!
# From input files to output files

Every file under the name of an intermediate or an output file is complete at every moment.
When the coordinator is done, the output files together hold the lines of the sequential
program.  This takes a reduce function that does not care for the order of the values, outputs
from which nothing is decoded, and workers that notice every failure: a reduce job that goes on
after a failed read or a failed `fmt.Fprintf` gives its name to a file that lacks lines.
-/

namespace DistributedLabs.MapReduce

open DistributedLabs.Library

/-! ## What the files hold together -/

namespace App

variable {app : App} {files : List String} {nReduce : Nat} {dir : Directory}

theorem Complete.lines (h : app.Complete files nReduce dir) (hfree : OrderFree app.reducef)
    {jobId : Nat} {text : String} (hjob : jobId < nReduce)
    (hread : dir.outputText jobId = some text) :
    ∃ lines, text = printText lines ∧
      lines.Perm (reducedLines app.reducef (app.partPairs files nReduce jobId)) := by
  obtain ⟨pairs, hpairs, rfl⟩ := h.outputs jobId text hjob hread
  refine ⟨app.lines pairs, rfl, ?_⟩
  exact (printLines_perm app.sort hfree pairs).trans (reducedLines_perm hfree hpairs)

/-- These are outputs of the map function for the files. -/
def Maps (app : App) (files : List String) (outputs : List (List KeyValue)) : Prop :=
  List.Forall₂ (fun file kva => ∃ content, app.inputs file = some content ∧
    kva.Perm (app.mapf file content)) files outputs

end App

/-! ## Whole runs -/

namespace Execution

variable {app : App} {files : List String} {nReduce : Nat} {e e' : Execution}

/-- Progress is in the directory, and so is what was reported as a success. -/
structure Sound (app : App) (files : List String) (nReduce : Nat) (e : Execution) : Prop where
  complete : app.Complete files nReduce e.directory
  fits : ∀ worker reply assignment, e.system.workers worker = .processing reply assignment →
    app.Fits files nReduce e.directory reply (e.progress worker)
  apart : ∀ first second reply reply' assignment assignment',
    e.system.workers first = .processing reply assignment →
    e.system.workers second = .processing reply' assignment' → first ≠ second →
    ∀ mine ∈ (e.progress first).temp reply.jobId, ∀ other ∈ (e.progress second).temp reply'.jobId,
      mine.name ≠ other.name
  reported : ∀ report ∈ e.system.reports, report.args.success = true →
    app.JobDone files nReduce e.directory report.args.jobType report.args.jobId.toNat
  finished : ∀ jobType jobId, e.system.coordinator.stateOf (jobType, jobId) = some .finished →
    app.JobDone files nReduce e.directory jobType jobId

theorem sound_start (app : App) (files : List String) (nReduce : Nat) :
    (start files nReduce).Sound app files nReduce := by
  constructor
  · constructor
    · intro mapId index text _ hread
      cases hread
    · intro jobId text _ hread
      cases hread
  · intro worker reply assignment hworker
    cases hworker
  · intro first second reply reply' assignment assignment' hfirst
    cases hfirst
  · intro report hreport
    cases hreport
  · intro jobType jobId hstate
    exfalso
    obtain ⟨job, hjob, hfinished⟩ := Option.map_eq_some_iff.mp hstate
    have hunfinished : job.jobState = .unFinish := by
      cases jobType with
      | mapJob =>
          obtain ⟨i, _, rfl⟩ := List.mem_mapIdx.mp (List.mem_of_getElem? hjob)
          rfl
      | reduceJob =>
          obtain ⟨i, _, rfl⟩ := List.mem_map.mp (List.mem_of_getElem? hjob)
          rfl
      | unknownJob | terminalJob | waitJob => cases hjob
    rw [hunfinished] at hfinished
    cases hfinished

/-- After the map phase the files of all map jobs are there. -/
theorem Sound.maps (h : e.Sound app files nReduce)
    (hran : Reaches (step app) (start files nReduce) e) (hfiles : files ≠ [])
    (hreduce : 1 ≤ nReduce)
    (hmap : e.system.coordinator.mapJobFinish = true) :
    ∀ mapId < files.length, app.JobDone files nReduce e.directory .mapJob mapId := by
  intro mapId hlt
  have hcoordinator := System.coordinator_of_reaches (system_of_reaches hran)
  obtain ⟨actions, hruns⟩ := hcoordinator.exists_runs
  have hall := (Coordinator.barrier_of_runs hfiles hreduce hruns).mapFlag.mp hmap
  have hposed := Coordinator.posed_of_reaches hcoordinator
  have hlength : mapId < e.system.coordinator.mapJob.length := by
    rw [← hposed.fileNames, List.length_map] at hlt
    exact hlt
  refine h.finished .mapJob mapId ?_
  rw [Coordinator.stateOf_eq (List.getElem?_eq_getElem hlength)]
  exact congrArg some (hall _ (List.getElem_mem hlength))

theorem Sound.call {worker : Nat} {reply : ExampleReply} {assignment : Option Nat}
    {dir' : Directory} {progress' : Progress} (hfiles : files ≠ []) (hreduce : 1 ≤ nReduce)
    (hten : nReduce ≤ 10) (hquiet : app.Quiet files nReduce) (h : e.Sound app files nReduce)
    (hran : Reaches (step app) (start files nReduce) e)
    (hworker : e.system.workers worker = .processing reply assignment)
    (hcalled : app.Called e.directory reply (e.progress worker) dir' progress') :
    Sound app files nReduce
      { e with directory := dir', progress := Function.update e.progress worker progress' } := by
  obtain ⟨hmap, hreduces⟩ := System.serves_of_reaches (system_of_reaches hran) hworker
  have hadvances := hcalled.advances hreduce hten hquiet hmap
    (fun htype => ⟨(hreduces htype).1, h.maps hran hfiles hreduce (hreduces htype).2⟩) h.complete
    (h.fits worker reply assignment hworker)
  -- the temporary file of another worker is neither the one this worker had nor a new one
  have hother {other : Nat} {reply' : ExampleReply} {assignment' : Option Nat}
      (hprocessing : e.system.workers other = .processing reply' assignment')
      (hne : other ≠ worker) :
      ∀ mine ∈ progress'.temp reply.jobId, ∀ temp ∈ (e.progress other).temp reply'.jobId,
        mine.name ≠ temp.name := by
    intro mine hmine temp htemp hname
    rcases hadvances.own mine hmine with hold | hnew
    · exact h.apart worker other reply reply' assignment assignment' hworker hprocessing hne.symm
        mine hold temp htemp hname
    · obtain ⟨text, hread⟩ := (h.fits other reply' assignment' hprocessing).read_temp htemp
      rw [← hname, hnew] at hread
      cases hread
  refine ⟨hadvances.complete, ?_, ?_, ?_, ?_⟩
  · intro other reply' assignment' hprocessing
    by_cases hne : other = worker
    · subst hne
      cases hworker.symm.trans hprocessing
      dsimp only
      rw [Function.update_self]
      exact hadvances.fits
    · dsimp only
      rw [Function.update_of_ne hne]
      refine (h.fits other reply' assignment' hprocessing).keeps hadvances.keeps ?_
      intro mine hmine temp htemp
      exact h.apart other worker reply' reply assignment' assignment hprocessing hworker hne
        mine hmine temp htemp
  · intro first second reply₁ reply₂ assignment₁ assignment₂ hfirst hsecond hne mine hmine temp
      htemp
    dsimp only at hfirst hsecond hmine htemp
    by_cases hone : first = worker
    · subst hone
      cases hworker.symm.trans hfirst
      rw [Function.update_self] at hmine
      rw [Function.update_of_ne hne.symm] at htemp
      exact hother hsecond hne.symm mine hmine temp htemp
    · rw [Function.update_of_ne hone] at hmine
      by_cases htwo : second = worker
      · subst htwo
        cases hworker.symm.trans hsecond
        rw [Function.update_self] at htemp
        exact (hother hfirst hne temp htemp mine hmine).symm
      · rw [Function.update_of_ne htwo] at htemp
        exact h.apart first second reply₁ reply₂ assignment₁ assignment₂ hfirst hsecond hne
          mine hmine temp htemp
  · intro report hreport hsuccess
    exact (h.reported report hreport hsuccess).keeps hadvances.keeps
  · intro jobType jobId hstate
    exact (h.finished jobType jobId hstate).keeps hadvances.keeps

theorem Sound.system {action : SystemAction} {s : System} {progress : Nat → Progress}
    (h : e.Sound app files nReduce) (hran : Reaches (step app) (start files nReduce) e)
    (hstep : e.system.step action = .ok s)
    (hsame : ∀ worker, (∀ result, action ≠ .processJob worker result) →
      progress worker = e.progress worker)
    (hreturn : ∀ worker result, action = .processJob worker result → progress worker = .entered ∧
      (e.system.workers worker).Returns (e.progress worker) result) :
    Sound app files nReduce { e with system := s, progress := progress } := by
  have hidle {worker : Nat} (hasking : e.system.workers worker = .asking) :
      progress worker = .entered := by
    by_cases hreturns : ∃ result, action = .processJob worker result
    · obtain ⟨result, heq⟩ := hreturns
      exact (hreturn worker result heq).1
    · rw [hsame worker fun result heq => hreturns ⟨result, heq⟩]
      exact entered_of_asking hran hasking
  -- a worker has the job and the progress it had, or it has just got a job
  have hold {worker : Nat} {reply : ExampleReply} {assignment : Option Nat}
      (hworker : s.workers worker = .processing reply assignment) :
      (e.system.workers worker = .processing reply assignment ∧
        progress worker = e.progress worker) ∨ progress worker = .entered := by
    rcases System.processing_of_step hstep hworker with ⟨hbefore, hother⟩ | ⟨hasking, _⟩
    · exact .inl ⟨hbefore, hsame worker hother⟩
    · exact .inr (hidle hasking)
  refine ⟨h.complete, ?_, ?_, ?_, ?_⟩
  · intro worker reply assignment hworker
    dsimp only
    rcases hold hworker with ⟨hbefore, heq⟩ | heq
    · rw [heq]
      exact h.fits worker reply assignment hbefore
    · rw [heq]
      trivial
  · intro first second reply reply' assignment assignment' hfirst hsecond hne mine hmine other
      hother
    dsimp only at hmine hother
    rcases hold hfirst with ⟨hbefore, heq⟩ | heq
    · rcases hold hsecond with ⟨hbefore', heq'⟩ | heq'
      · rw [heq] at hmine
        rw [heq'] at hother
        exact h.apart first second reply reply' assignment assignment' hbefore hbefore' hne
          mine hmine other hother
      · rw [heq'] at hother
        cases hother
    · rw [heq] at hmine
      cases hmine
  · intro report hreport hsuccess
    rcases System.report_of_step hstep hreport with
      hbefore | ⟨worker, result, reply, assignment, heq, hworker, hargs⟩
    · exact h.reported report hbefore hsuccess
    · obtain ⟨_, hreturns⟩ := hreturn worker result heq
      have hfits := h.fits worker reply assignment hworker
      rw [hworker] at hreturns
      rw [hargs] at hsuccess ⊢
      exact hfits.jobDone hreturns hsuccess
  · intro jobType jobId hstate
    rcases System.finished_of_step hstep hstate with hbefore | ⟨report, hreport, hsuccess, heq⟩
    · exact h.finished jobType jobId hbefore
    · obtain ⟨rfl, rfl⟩ := Prod.mk.inj heq
      exact h.reported report hreport hsuccess

theorem Sound.step {action : ExecutionAction} (hfiles : files ≠ []) (hreduce : 1 ≤ nReduce)
    (hten : nReduce ≤ 10) (hquiet : app.Quiet files nReduce) (h : e.Sound app files nReduce)
    (hran : Reaches (step app) (start files nReduce) e) (hnoticed : e.Noticed action)
    (hstep : e.step app action = .ok e') : e'.Sound app files nReduce := by
  rcases step_cases hstep with
    ⟨worker, call, reply, assignment, dir, progress, rfl, hworker, hcall, rfl⟩ |
      ⟨own, s, progress, _, hsystem, hsame, hreturn, rfl⟩
  · exact h.call hfiles hreduce hten hquiet hran hworker (App.called_of_call hnoticed hcall)
  · exact h.system hran hsystem hsame hreturn

theorem sound_of_runs {actions : List ExecutionAction} (hfiles : files ≠ []) (hreduce : 1 ≤ nReduce)
    (hten : nReduce ≤ 10) (hquiet : app.Quiet files nReduce)
    (h : RunsIf (step app) Noticed (start files nReduce) actions e) :
    e.Sound app files nReduce := by
  induction h with
  | refl => exact sound_start app files nReduce
  | tail before permitted taken ih =>
      exact ih.step hfiles hreduce hten hquiet before.reaches permitted taken

/-- Worker 0 cannot print its only line, does not notice it and reports success. -/
example : RunHolds (step countTea) (begun ++ [.call 0 .encode, .call 0 .renameInterMediate,
    .call 0 .leaveLoop, .system (.processJob 0 true), .system (.reportJobResult 0),
    .system (.getJob 0), .call 0 .glob, .call 0 .openFile,
    .call 0 (.createOutput ⟨['7'], by simp, rfl⟩), .call 0 (.printFails ""),
    .call 0 .renameOutput, .system (.processJob 0 true), .system (.reportJobResult 0)])
    (start ["a.txt"] 1) fun e => e.system.coordinator.done = true ∧
      e.directory.outputText 0 = some "" := by
  decide +kernel

end Execution

end DistributedLabs.MapReduce
