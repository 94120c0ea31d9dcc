import DistributedLabs.MapReduce.Execution
import Mathlib.Algebra.Order.BigOperators.Group.List
import Mathlib.Algebra.Order.Group.Nat

/-!
# The computation can always be completed

Workers may have stopped for good and reports may be lost.  When the timers have fired, one
further worker that does what is left, job by job, completes the computation.  No call of
`GetJob` has failed so far: the report that follows such a failure can stop the coordinator.
-/

namespace DistributedLabs.MapReduce

open DistributedLabs.Library

/-! ## One worker does a job -/

/-- There is always a number that makes the name of a temporary file new. -/
theorem Directory.exists_create (dir : Directory) (origin : Decimal → Origin) {base : Name}
    (hname : ∀ random, (origin random).name = base ++ random.chars) :
    ∃ random created, dir.create (origin random) = some created := by
  let long := (dir.files.map fun file => file.origin.name.length).sum
  let random : Decimal := ⟨List.replicate (long + 1) '1', by simp, by simp⟩
  have hnew : dir.read (origin random).name = none := by
    rw [Option.eq_none_iff_forall_ne_some]
    intro text hread
    obtain ⟨file, hfile, hfound, _⟩ := Directory.read_eq_some.mp hread
    have hle : file.origin.name.length ≤ long :=
      List.le_sum_of_mem (List.mem_map.mpr ⟨file, hfile, rfl⟩)
    have hlength : (origin random).name.length = base.length + (long + 1) := by
      rw [hname, List.length_append, List.length_replicate]
    rw [hfound, hlength] at hle
    omega
  refine ⟨random, dir.put (origin random) "", if_neg ?_⟩
  rw [hnew]
  exact Bool.false_ne_true

namespace App

variable {app : App} {dir : Directory} {reply : ExampleReply}

/-- What one worker can come to in its job by its own calls, when it notices what fails. -/
def Works (app : App) (reply : ExampleReply) :
    Directory × Progress → Directory × Progress → Prop :=
  ReachesIf (fun state => app.call state.1 reply state.2) fun _ call => call.Noticed

theorem Works.single {state : Directory × Progress} {dir' : Directory} {progress' : Progress}
    (call : Call) (h : app.call state.1 reply state.2 call = .ok (dir', progress'))
    (hnoticed : call.Noticed) : app.Works reply state (dir', progress') :=
  Relation.ReflTransGen.single ⟨call, hnoticed, h⟩

theorem works_encoding (app : App) {file : InterMediateFile} {random : Decimal} {text : String}
    (pairs : List KeyValue) (imap : List InterMediateFile)
    (hread : dir.read (Origin.mapTemp reply.jobId file.index random).name = some text) :
    ∃ dir', app.Works reply (dir, .encoding file random pairs imap) (dir', .mapping imap) := by
  induction pairs generalizing dir text with
  | nil =>
      refine ⟨(dir.remove (Origin.mapTemp reply.jobId file.index random).name).put
        (.interMediate reply.jobId file.index) text, Works.single .renameInterMediate ?_ trivial⟩
      simp only [App.call, Directory.rename, hread, Option.map_some]
  | cons pair pairs ih =>
      have hwritten : (dir.write (Origin.mapTemp reply.jobId file.index random).name
          (app.encode pair)).read (Origin.mapTemp reply.jobId file.index random).name =
          some (text ++ app.encode pair) := by
        rw [Directory.read_write, if_pos rfl, hread]
        rfl
      obtain ⟨dir', hrest⟩ := ih hwritten
      exact ⟨dir', (Works.single .encode rfl trivial).trans hrest⟩

theorem works_mapping (app : App) (dir : Directory) (reply : ExampleReply)
    (imap : List InterMediateFile) :
    ∃ dir', app.Works reply (dir, .mapping imap) (dir', .returned true) := by
  induction imap generalizing dir with
  | nil => exact ⟨dir, Works.single .leaveLoop rfl trivial⟩
  | cons file imap ih =>
      obtain ⟨random, created, hcreate⟩ :=
        dir.exists_create (.mapTemp reply.jobId file.index) fun _ => rfl
      have hfirst : app.Works reply (dir, .mapping (file :: imap))
          (created, .encoding file random file.pairs imap) := by
        refine Works.single (.createInterMediate 0 random) ?_ trivial
        simp only [App.call, List.getElem?_cons_zero, hcreate, List.eraseIdx_cons_zero]
      have hread : created.read (Origin.mapTemp reply.jobId file.index random).name = some "" := by
        rw [(Directory.create_eq_some hcreate).2, if_pos rfl]
      obtain ⟨renamed, hencoded⟩ := works_encoding app file.pairs imap hread
      obtain ⟨dir', hrest⟩ := ih renamed
      exact ⟨dir', (hfirst.trans hencoded).trans hrest⟩

theorem works_map {content : String} (htype : reply.jobType = .mapJob)
    (hinput : app.inputs reply.mapJobFileName = some content) :
    ∃ dir', app.Works reply (dir, .entered) (dir', .returned true) := by
  obtain ⟨dir', hrest⟩ := works_mapping app dir reply
    (processMapJob reply.nReduce reply.jobId (app.mapf reply.mapJobFileName content))
  refine ⟨dir', (Works.single (.openInput (app.mapf reply.mapJobFileName content)) ?_
    trivial).trans hrest⟩
  simp only [App.call, if_pos htype, hinput, if_pos (List.Perm.refl _)]

theorem works_reading (app : App) (reply : ExampleReply) {names : List Name}
    (tempPairs : List KeyValue) (hnames : ∀ name ∈ names, ∃ text, dir.read name = some text) :
    ∃ tempPairs', app.Works reply (dir, .reading names tempPairs)
      (dir, .reading [] tempPairs') := by
  induction names generalizing tempPairs with
  | nil => exact ⟨tempPairs, .refl⟩
  | cons name names ih =>
      obtain ⟨text, hread⟩ := hnames name List.mem_cons_self
      obtain ⟨tempPairs', hrest⟩ := ih (tempPairs ++ app.decode text)
        fun other hother => hnames other (List.mem_cons_of_mem _ hother)
      refine ⟨tempPairs', (Works.single .openFile ?_ trivial).trans hrest⟩
      simp only [App.call, hread]

theorem works_printing (app : App) {random : Decimal} {text : String} (lines : List Line)
    (hread : dir.read (Origin.reduceTemp reply.jobId random).name = some text) :
    ∃ dir', app.Works reply (dir, .printing random lines) (dir', .returned true) := by
  induction lines generalizing dir text with
  | nil =>
      refine ⟨(dir.remove (Origin.reduceTemp reply.jobId random).name).put
        (.output reply.jobId) text, Works.single .renameOutput ?_ trivial⟩
      simp only [App.call, Directory.rename, hread, Option.map_some]
  | cons line lines ih =>
      have hwritten : (dir.write (Origin.reduceTemp reply.jobId random).name
          (printText [line])).read (Origin.reduceTemp reply.jobId random).name =
          some (text ++ printText [line]) := by
        rw [Directory.read_write, if_pos rfl, hread]
        rfl
      obtain ⟨dir', hrest⟩ := ih hwritten
      exact ⟨dir', (Works.single .print rfl trivial).trans hrest⟩

theorem works_reduce (htype : reply.jobType = .reduceJob) :
    ∃ dir', app.Works reply (dir, .entered) (dir', .returned true) := by
  by_cases hnone : ((dir.selected reply.jobId).map fun file => file.origin.name).length = 0
  · refine ⟨dir, Works.single .glob ?_ trivial⟩
    simp only [App.call, if_pos htype, if_pos hnone]
  · have hfound : app.Works reply (dir, .entered)
        (dir, .reading ((dir.selected reply.jobId).map fun file => file.origin.name) []) := by
      refine Works.single .glob ?_ trivial
      simp only [App.call, if_pos htype, if_neg hnone]
    have hnames : ∀ name ∈ (dir.selected reply.jobId).map (fun file => file.origin.name),
        ∃ text, dir.read name = some text := by
      intro name hname
      obtain ⟨file, hfile, rfl⟩ := List.mem_map.mp hname
      exact ⟨file.text,
        Directory.read_eq_some.mpr ⟨file, (Directory.mem_selected.mp hfile).1, rfl, rfl⟩⟩
    obtain ⟨tempPairs, hread⟩ := works_reading app reply [] hnames
    obtain ⟨random, created, hcreate⟩ :=
      dir.exists_create (.reduceTemp reply.jobId) fun _ => rfl
    have hcreated : app.Works reply (dir, .reading [] tempPairs)
        (created, .printing random (app.lines tempPairs)) := by
      refine Works.single (.createOutput random) ?_ trivial
      simp only [App.call, hcreate]
    have htemp : created.read (Origin.reduceTemp reply.jobId random).name = some "" := by
      rw [(Directory.create_eq_some hcreate).2, if_pos rfl]
    obtain ⟨dir', hrest⟩ := works_printing app (app.lines tempPairs) htemp
    exact ⟨dir', ((hfound.trans hread).trans hcreated).trans hrest⟩

end App

/-! ## What is left to do -/

theorem exists_findUnFinish {jobs : List Job} {job : Job} (hjob : job ∈ jobs)
    (hstate : job.jobState = .unFinish) (start : Nat) :
    ∃ found, findUnFinish jobs start = some found := by
  induction jobs generalizing start with
  | nil => cases hjob
  | cons first rest ih =>
      unfold findUnFinish
      split
      · next hfirst =>
          rcases List.mem_cons.mp hjob with rfl | hrest
          · exact absurd hstate hfirst
          · exact ih hrest (start + 1)
      · exact ⟨_, rfl⟩

/-- The number of jobs of a phase that are not finished. -/
def unfinished (jobs : List Job) : Nat :=
  jobs.countP fun job => job.jobState ≠ .finished

/-- Setting the state of a job that is not finished. -/
theorem unfinished_set {jobs : List Job} {i : Nat} {job : Job} (hjob : jobs[i]? = some job)
    (hopen : job.jobState ≠ .finished) (state : MRJobState) :
    unfinished (jobs.set i { job with jobState := state }) + 1 =
      unfinished jobs + if state = .finished then 0 else 1 := by
  obtain ⟨hlt, rfl⟩ := List.getElem?_eq_some_iff.mp hjob
  have hpos : 0 < unfinished jobs :=
    List.countP_pos_iff.mpr ⟨jobs[i], List.getElem_mem hlt, decide_eq_true hopen⟩
  unfold unfinished at hpos ⊢
  rw [List.countP_set hlt, if_pos (decide_eq_true hopen)]
  simp only [ne_eq, decide_not, Bool.not_eq_true', decide_eq_false_iff_not, ite_not] at hpos ⊢
  split <;> omega

theorem PhaseMove.unfinished_le {jobs jobs' : List Job} {flag flag' : Bool}
    (h : PhaseMove jobs flag jobs' flag') : unfinished jobs' ≤ unfinished jobs := by
  cases h with
  | idle => exact Nat.le_refl _
  | @restate i job state hjob hopen hstate =>
      have := unfinished_set hjob hopen state
      rw [if_neg hstate] at this
      omega
  | finish hjob hopen =>
      have := unfinished_set hjob hopen .finished
      rw [if_pos rfl] at this
      omega

namespace Coordinator

variable {c c' : Coordinator} {files : List String} {nReduce : Nat}

/-- The number of jobs that are not finished. -/
def left (c : Coordinator) : Nat :=
  unfinished c.mapJob + unfinished c.reduceJob

theorem left_of_step {action : Action} (h : c.step action = .ok c') : c'.left ≤ c.left := by
  have hmoves := (moved_of_step h).phaseMoves
  exact Nat.add_le_add (hmoves .mapJob).unfinished_le (hmoves .reduceJob).unfinished_le

theorem left_finish_lt {jobType : MRJobType} {i : Nat} {job : Job}
    (hjob : (c.allJob jobType)[i]? = some job) (hopen : job.jobState ≠ .finished)
    (args : JobFinishArgs) :
    ((c.setJobState jobType i .finished).checkAllState args).left < c.left := by
  have hfewer := unfinished_set hjob hopen .finished
  rw [if_pos rfl] at hfewer
  have hleft (c : Coordinator) : c.left =
      unfinished (c.allJob .mapJob) + unfinished (c.allJob .reduceJob) := rfl
  rw [hleft, hleft, allJob_checkAllState, allJob_checkAllState, allJob_setJobState hjob,
    allJob_setJobState hjob]
  cases jobType with
  | mapJob | reduceJob =>
      simp only [if_true, reduceCtorEq, if_false]
      omega
  | unknownJob | terminalJob | waitJob => cases hjob

/-- A report of success about a job that is being done leaves less to do. -/
theorem exists_report_lt {args : JobFinishArgs} {job : Job}
    (htype : args.jobType = .mapJob ∨ args.jobType = .reduceJob) (hid : 0 ≤ args.jobId)
    (hsuccess : args.success = true)
    (hjob : (c.allJob args.jobType)[args.jobId.toNat]? = some job)
    (hdoing : job.jobState = .doing) :
    ∃ c', c.reportJobResult args = .ok c' ∧ c'.left < c.left := by
  obtain ⟨c', hrun, _⟩ := reportJobResult_finishes hid hsuccess
    (.inl ((stateOf_eq hjob).trans (congrArg some hdoing)))
  refine ⟨c', hrun, ?_⟩
  rcases reportJobResult_cases hrun with ⟨hignored, _⟩ | ⟨found, hget, hcases⟩
  · rcases htype with hmap | hreduce
    · rw [hmap] at hignored
      simp at hignored
    · rw [hreduce] at hignored
      simp at hignored
  · obtain rfl : found = job := Option.some.inj ((Slice.read_of_get hget).symm.trans hjob)
    rcases hcases with ⟨hother, _⟩ | ⟨_, ⟨hfailed, _⟩ | ⟨_, rfl⟩⟩
    · exact absurd hdoing hother
    · rw [hsuccess] at hfailed
      cases hfailed
    · refine left_finish_lt hjob ?_ args
      rw [hdoing]
      decide

theorem read_setJobState {jobType : MRJobType} {i : Nat} {job : Job}
    (hjob : (c.allJob jobType)[i]? = some job) (state : MRJobState) :
    ((c.setJobState jobType i state).allJob jobType)[i]? =
      some { job with jobState := state } := by
  rw [allJob_setJobState hjob, if_pos rfl]
  exact List.getElem?_set_self (List.getElem?_eq_some_iff.mp hjob).1

/-! ## Timers -/

/-- A job that is being done has a timer, and every job has a state. -/
structure Timed (c : Coordinator) : Prop where
  timer : ∀ job, c.stateOf job = some .doing → job ∈ c.timers
  known : ∀ job, c.stateOf job ≠ some .unknownState

theorem timed_makeCoordinator (files : List String) (nReduce : Nat) :
    (makeCoordinator files nReduce).Timed := by
  have hstate (job : MRJobType × Nat) (state : MRJobState)
      (h : (makeCoordinator files nReduce).stateOf job = some state) : state = .unFinish := by
    obtain ⟨jobType, i⟩ := job
    obtain ⟨found, hfound, rfl⟩ := Option.map_eq_some_iff.mp h
    cases jobType with
    | mapJob =>
        obtain ⟨_, _, rfl⟩ := List.mem_mapIdx.mp (List.mem_of_getElem? hfound)
        rfl
    | reduceJob =>
        obtain ⟨_, _, rfl⟩ := List.mem_map.mp (List.mem_of_getElem? hfound)
        rfl
    | unknownJob | terminalJob | waitJob => cases hfound
  constructor
  · intro job hdoing
    cases hstate job _ hdoing
  · intro job hunknown
    cases hstate job _ hunknown

/-- Setting the state of one job, with timers that still cover what is being done. -/
theorem Timed.restate {jobType : MRJobType} {i : Nat} {state : MRJobState}
    {timers : List (MRJobType × Nat)} (h : c.Timed) (hstate : state ≠ .unknownState)
    (htimers : ∀ job, job ≠ (jobType, i) → job ∈ c.timers → job ∈ timers)
    (hown : state = .doing → (jobType, i) ∈ timers) :
    Timed { c.setJobState jobType i state with timers := timers } := by
  have hcases (job : MRJobType × Nat) (found : MRJobState)
      (hfound : (c.setJobState jobType i state).stateOf job = some found) :
      job = (jobType, i) ∧ state = found ∨ job ≠ (jobType, i) ∧ c.stateOf job = some found := by
    by_cases hjob : job = (jobType, i)
    · rw [stateOf_setJobState, if_pos hjob] at hfound
      obtain ⟨_, _, heq⟩ := Option.map_eq_some_iff.mp hfound
      exact .inl ⟨hjob, heq⟩
    · rw [stateOf_setJobState, if_neg hjob] at hfound
      exact .inr ⟨hjob, hfound⟩
  constructor
  · intro job hdoing
    rcases hcases job _ hdoing with ⟨rfl, heq⟩ | ⟨hne, hold⟩
    · exact hown heq
    · exact htimers job hne (h.timer job hold)
  · intro job hunknown
    rcases hcases job _ hunknown with ⟨_, heq⟩ | ⟨_, hold⟩
    · exact hstate heq
    · exact h.known job hold

theorem Timed.getJob (h : c.Timed) (htyped : c.Typed) : c.getJob.1.Timed := by
  have hassigned {jobType : MRJobType} {i : Nat} :
      ((c.setJobState jobType i .doing).startTimer jobType i).Timed := by
    unfold startTimer
    rw [timers_setJobState]
    refine h.restate (by decide) (fun job _ hold => List.mem_append_left _ hold) fun _ => ?_
    exact List.mem_append_right _ (List.mem_singleton.mpr rfl)
  rcases c.getJob_cases with ⟨i, job, _, hjob, _, heq⟩ | ⟨i, job, _, hjob, _, heq⟩ | heq
  · rw [heq, htyped .mapJob job (List.mem_of_getElem? hjob)]
    exact hassigned
  · rw [heq, htyped .reduceJob job (List.mem_of_getElem? hjob)]
    exact hassigned
  · rw [heq]
    exact h

theorem mem_eraseIdx_of_ne {timers : List (MRJobType × Nat)} {k : Nat} {fired job : MRJobType × Nat}
    (hfired : timers[k]? = some fired) (hjob : job ∈ timers) (hne : job ≠ fired) :
    job ∈ timers.eraseIdx k := by
  obtain ⟨hk, rfl⟩ := List.getElem?_eq_some_iff.mp hfired
  rcases List.mem_cons.mp ((List.getElem_cons_eraseIdx_perm hk).mem_iff.mpr hjob) with heq | hrest
  · exact absurd heq hne
  · exact hrest

theorem Timed.timeOut {k : Nat} (h : c.Timed) (hrun : c.timeOut k = .ok c') : c'.Timed := by
  obtain ⟨jobType, i, job, htimer, hjob, ⟨_, rfl⟩ | ⟨hidle, rfl⟩⟩ := timeOut_cases hrun
  · refine h.restate (by decide) (fun other hne hold => ?_) fun hdoing => ?_
    · exact mem_eraseIdx_of_ne htimer hold hne
    · cases hdoing
  · refine ⟨fun other hdoing => mem_eraseIdx_of_ne htimer (h.timer other hdoing) ?_, h.known⟩
    rintro rfl
    change c.stateOf (jobType, i) = some .doing at hdoing
    rw [stateOf_eq hjob] at hdoing
    exact hidle (Option.some.inj hdoing)

theorem Timed.reportJobResult {args : JobFinishArgs} (h : c.Timed)
    (hrun : c.reportJobResult args = .ok c') : c'.Timed := by
  have hrestate (state : MRJobState) (hdoing : state ≠ .doing) (hunknown : state ≠ .unknownState) :
      (c.setJobState args.jobType args.jobId.toNat state).Timed := by
    have htimed : Timed { c.setJobState args.jobType args.jobId.toNat state with
        timers := c.timers } :=
      h.restate hunknown (fun _ _ hold => hold) fun heq => absurd heq hdoing
    rw [← timers_setJobState c args.jobType args.jobId.toNat state] at htimed
    exact htimed
  rcases reportJobResult_cases hrun with
    ⟨_, rfl⟩ | ⟨_, _, ⟨_, rfl⟩ | ⟨_, ⟨_, rfl⟩ | ⟨_, rfl⟩⟩⟩
  · exact h
  · exact h
  · exact hrestate .unFinish (by decide) (by decide)
  · have hfinish := hrestate .finished (by decide) (by decide)
    constructor
    · intro job hdoing
      rw [stateOf_checkAllState] at hdoing
      rw [timers_checkAllState]
      exact hfinish.timer job hdoing
    · intro job
      rw [stateOf_checkAllState]
      exact hfinish.known job

theorem timed_of_reaches (h : Reaches step (makeCoordinator files nReduce) c) : c.Timed := by
  induction h with
  | refl => exact timed_makeCoordinator files nReduce
  | @tail t t' before last ih =>
      obtain ⟨action, hstep⟩ := last
      cases action with
      | getJob =>
          cases hstep
          exact ih.getJob (typed_of_reaches before)
      | reportJobResult args => exact ih.reportJobResult hstep
      | timeOut k => exact ih.timeOut hstep

/-- When no timer is running and not all jobs are finished, `GetJob` hands out a job. -/
theorem Timed.getJob_assigns (h : c.Timed) (hbarrier : c.Barrier) (htimers : c.timers = [])
    (hleft : c.reduceJobFinish = false) :
    c.getJob.2.jobType = .mapJob ∨ c.getJob.2.jobType = .reduceJob := by
  -- a job that is not finished waits for a worker
  have hwaits (jobType : MRJobType) (hnot : ¬AllFinished (c.allJob jobType)) :
      ∃ found, findUnFinish (c.allJob jobType) 0 = some found := by
    simp only [AllFinished, not_forall] at hnot
    obtain ⟨job, hjob, hopen⟩ := hnot
    refine exists_findUnFinish hjob ?_ 0
    obtain ⟨i, hi⟩ := List.mem_iff_getElem?.mp hjob
    have hstate := stateOf_eq hi
    cases hcase : job.jobState with
    | unFinish => rfl
    | unknownState =>
        rw [hcase] at hstate
        exact absurd hstate (h.known _)
    | doing =>
        rw [hcase] at hstate
        have htimer := h.timer _ hstate
        rw [htimers] at htimer
        cases htimer
    | finished => exact absurd hcase hopen
  cases hmap : c.mapJobFinish with
  | false =>
      obtain ⟨⟨i, job⟩, hfound⟩ := hwaits .mapJob fun hall => by
        rw [hbarrier.mapFlag.mpr hall] at hmap
        cases hmap
      refine .inl ?_
      have hjob := (findUnFinish_eq_some hfound).2.1
      change findUnFinish c.mapJob 0 = _ at hfound
      simp only [Coordinator.getJob, hmap, Bool.false_eq_true, if_false, hfound]
      exact hbarrier.mapTyped job (List.mem_of_getElem? hjob)
  | true =>
      obtain ⟨⟨i, job⟩, hfound⟩ := hwaits .reduceJob fun hall => by
        rw [hbarrier.reduceFlag.mpr hall] at hleft
        cases hleft
      refine .inr ?_
      have hjob := (findUnFinish_eq_some hfound).2.1
      change findUnFinish c.reduceJob 0 = _ at hfound
      simp only [Coordinator.getJob, hmap, if_true, hfound]
      exact hbarrier.reduceTyped job (List.mem_of_getElem? hjob)

theorem left_of_reaches (h : Reaches step c c') : c'.left ≤ c.left := by
  induction h with
  | refl => exact Nat.le_refl _
  | tail _ last ih =>
      obtain ⟨action, hstep⟩ := last
      exact (left_of_step hstep).trans ih

end Coordinator

/-! ## The workers -/

namespace System

variable {s s' : System} {files : List String} {nReduce worker : Nat}

theorem getJob_reply (s : System) : s.getJob.2.1 = s.coordinator.getJob.2 := by
  unfold getJob
  dsimp only
  split <;> rfl

/-- All workers from some number on have never done anything. -/
theorem exists_asking (h : Reaches step (start files nReduce) s) :
    ∃ bound, ∀ worker, bound ≤ worker → s.workers worker = .asking := by
  induction h with
  | refl => exact ⟨0, fun _ _ => rfl⟩
  | @tail t t' _ last ih =>
      obtain ⟨action, hstep⟩ := last
      obtain ⟨bound, hbound⟩ := ih
      have hset {u : System} (hworkers : u.workers = t.workers) (other : Nat) (state : WorkerState)
          (worker : Nat) (hle : max bound (other + 1) ≤ worker) :
          (u.setWorker other state).workers worker = .asking := by
        have hne : worker ≠ other := by omega
        simp only [System.setWorker, Function.update_of_ne hne, hworkers]
        exact hbound worker (by omega)
      cases action with
      | getJob other =>
          simp only [step] at hstep
          split at hstep
          · cases hstep
            exact ⟨_, hset t.getJob_workers.1 other _⟩
          · cases hstep
      | getJobFails other =>
          simp only [step] at hstep
          split at hstep
          · cases hstep
            exact ⟨_, hset rfl other _⟩
          · cases hstep
      | getJobUnheard =>
          cases hstep
          rw [t.getJob_workers.1]
          exact ⟨bound, hbound⟩
      | processJob other result =>
          simp only [step] at hstep
          split at hstep
          · cases hstep
            exact ⟨_, hset rfl other _⟩
          · cases hstep
      | reportJobResult k =>
          simp only [step] at hstep
          split at hstep
          · obtain ⟨c, _, rfl⟩ := Outcome.map_eq_ok.mp hstep
            exact ⟨bound, hbound⟩
          · cases hstep
      | timeOut k =>
          obtain ⟨c, _, rfl⟩ := Outcome.map_eq_ok.mp hstep
          exact ⟨bound, hbound⟩

/-- A timer fires. -/
theorem exists_fired (h : Reaches step (start files nReduce) s)
    (htimers : s.coordinator.timers ≠ []) :
    ∃ c, s.step (.timeOut 0) = .ok { s with coordinator := c, owners := s.owners.eraseIdx 0 } ∧
      c.timers = s.coordinator.timers.tail := by
  have hrange := Coordinator.timersInRange_of_reaches (coordinator_of_reaches h)
  have hpanic := Coordinator.timeOut_ne_panic hrange 0
  cases hrun : s.coordinator.timeOut 0 with
  | panic => exact absurd hrun hpanic
  | blocked =>
      unfold Coordinator.timeOut at hrun
      split at hrun
      · next hnone => exact absurd (List.getElem?_eq_none_iff.mp hnone) (by simp [htimers])
      · split at hrun
        · cases hrun
        · dsimp only at hrun
          split at hrun <;> cases hrun
  | ok c =>
      refine ⟨c, by simp only [step, hrun]; rfl, ?_⟩
      obtain ⟨_, _, _, _, _, ⟨_, rfl⟩ | ⟨_, rfl⟩⟩ := Coordinator.timeOut_cases hrun
      · exact List.eraseIdx_zero
      · exact List.eraseIdx_zero

/-- A worker that asks when no timer is running gets a job, unless all are finished. -/
theorem exists_assigned (hfiles : files ≠ []) (hreduce : 1 ≤ nReduce)
    (h : Reaches step (start files nReduce) s) (htimers : s.coordinator.timers = [])
    (hleft : s.coordinator.done = false) (hasking : s.workers worker = .asking) :
    ∃ s' reply assignment job, s.step (.getJob worker) = .ok s' ∧
      s'.workers worker = .processing reply assignment ∧
      (reply.jobType = .mapJob ∨ reply.jobType = .reduceJob) ∧
      (s'.coordinator.allJob reply.jobType)[reply.jobId]? = some job ∧ job.jobState = .doing := by
  have hcoordinator := coordinator_of_reaches h
  obtain ⟨actions, hruns⟩ := hcoordinator.exists_runs
  have hassigns := (Coordinator.timed_of_reaches hcoordinator).getJob_assigns
    (Coordinator.barrier_of_runs hfiles hreduce hruns) htimers hleft
  rw [← getJob_reply] at hassigns
  rcases s.getJob_cases (Coordinator.typed_of_reaches hcoordinator) with
    ⟨jobType, i, job, reply, hjob, _, htype, rfl, heq⟩ | ⟨reply, hnone, heq⟩
  · rw [heq] at hassigns
    refine ⟨s.getJob.1.setWorker worker (.processing reply (some s.assignments.length)), reply, _,
      { job with jobState := .doing }, ?_, Function.update_self .., hassigns, ?_, rfl⟩
    · simp only [step, hasking, heq]
    · rw [htype, heq]
      change ((s.coordinator.setJobState jobType reply.jobId .doing).allJob jobType)[_]? = _
      exact Coordinator.read_setJobState hjob .doing
  · rw [heq] at hassigns
    rcases hnone with hterminal | hwait
    · rw [hterminal] at hassigns
      simp at hassigns
    · rw [hwait] at hassigns
      simp at hassigns

/-- A worker that returns and reports in time leaves less to do. -/
theorem exists_reported {reply : ExampleReply} {assignment : Option Nat} {job : Job}
    (hworker : s.workers worker = .processing reply assignment)
    (htype : reply.jobType = .mapJob ∨ reply.jobType = .reduceJob)
    (hjob : (s.coordinator.allJob reply.jobType)[reply.jobId]? = some job)
    (hdoing : job.jobState = .doing) :
    ∃ returned reported, s.step (.processJob worker true) = .ok returned ∧
      returned.step (.reportJobResult s.reports.length) = .ok reported ∧
      reported.workers worker = .asking ∧ reported.coordinator.left < s.coordinator.left := by
  have hprocess : processJob reply true = (false, true) := by
    unfold processJob
    rcases htype with hmap | hreduce
    · rw [hmap]
    · rw [hreduce]
  let args : JobFinishArgs := ⟨reply.jobType, true, reply.jobId⟩
  have hreport : ∃ c, s.coordinator.reportJobResult args = .ok c ∧ c.left < s.coordinator.left :=
    Coordinator.exists_report_lt htype (Int.natCast_nonneg _) rfl hjob hdoing
  obtain ⟨c, hrun, hlt⟩ := hreport
  let returned : System :=
    System.setWorker { s with reports := s.reports ++ [⟨args, assignment⟩] } worker .asking
  refine ⟨returned, { returned with
    coordinator := c
    reports := returned.reports.eraseIdx s.reports.length
    handled := assignment.toList ++ s.handled }, ?_, ?_, Function.update_self .., hlt⟩
  · simp only [step, hworker, hprocess]
    rfl
  · have hlast : returned.reports[s.reports.length]? = some ⟨args, assignment⟩ :=
      List.getElem?_concat_length
    have hsame : returned.coordinator = s.coordinator := rfl
    simp only [step, hlast, hsame, hrun]
    rfl

end System

/-! ## To the end -/

namespace Execution

variable {app : App} {e : Execution} {files : List String} {nReduce worker : Nat}

/-- Calls of `GetJob` are answered, and workers notice what fails. -/
def Smooth (e : Execution) (action : ExecutionAction) : Prop :=
  e.Answered action ∧ e.Noticed action

theorem moves_system {action : SystemAction} {s : System} (h : e.system.step action = .ok s)
    (hanswered : e.system.Answered action)
    (hreturn : ∀ worker result, action ≠ .processJob worker result) :
    MovesIf (step app) Smooth e { e with system := s } := by
  refine ⟨.system action, ⟨hanswered, trivial⟩, ?_⟩
  cases action with
  | processJob worker result => exact absurd rfl (hreturn worker result)
  | getJob | getJobFails | getJobUnheard | reportJobResult | timeOut =>
      simp only [step, h]
      rfl

theorem moves_return {s : System} (h : e.system.step (.processJob worker true) = .ok s)
    (hprogress : e.progress worker = .returned true) :
    MovesIf (step app) Smooth e
      { e with system := s, progress := Function.update e.progress worker .entered } := by
  refine ⟨.system (.processJob worker true), ⟨trivial, trivial⟩, ?_⟩
  have hreturns : (e.system.workers worker).Returns (e.progress worker) true := by
    rw [hprogress]
    cases e.system.workers worker with
    | processing reply assignment => exact fun _ => rfl
    | asking | stopped => trivial
  simp only [step, if_pos hreturns, h]
  rfl

/-- A worker does its calls while nobody else does anything. -/
theorem reaches_of_works {reply : ExampleReply} {assignment : Option Nat} {dir : Directory}
    {progress : Progress} (hworker : e.system.workers worker = .processing reply assignment)
    (h : app.Works reply (e.directory, e.progress worker) (dir, progress)) :
    ReachesIf (step app) Smooth e
      { e with directory := dir, progress := Function.update e.progress worker progress } := by
  have hworks : ∀ state, app.Works reply (e.directory, e.progress worker) state →
      ReachesIf (step app) Smooth e
        { e with directory := state.1, progress := Function.update e.progress worker state.2 } := by
    intro state hstate
    induction hstate with
    | refl =>
        rw [Function.update_eq_self]
        exact .refl
    | @tail before after _ last ih =>
        obtain ⟨call, hnoticed, hcall⟩ := last
        refine ih.tail ⟨.call worker call, ⟨trivial, hnoticed⟩, ?_⟩
        simp only [step, hworker, Function.update_self, hcall, Outcome.map, Function.update_idem]
  exact hworks (dir, progress) h

theorem coordinator_of_reaches {e' : Execution} (h : Reaches (step app) e e') :
    Reaches Coordinator.step e.system.coordinator e'.system.coordinator := by
  induction h with
  | refl => exact .refl
  | tail _ last ih =>
      obtain ⟨action, hstep⟩ := last
      rcases step_cases hstep with
        ⟨_, _, _, _, _, _, _, _, _, rfl⟩ | ⟨_, _, _, _, hsystem, _, _, rfl⟩
      · exact ih
      · exact ih.trans (System.step_turn hsystem).coordinator

/-- All timers fire. -/
theorem exists_timers_fired (h : Reaches (step app) (start files nReduce) e) :
    ∃ e', ReachesIf (step app) Smooth e e' ∧ e'.system.coordinator.timers = [] ∧
      e'.system.workers = e.system.workers := by
  induction hcount : e.system.coordinator.timers.length generalizing e with
  | zero => exact ⟨e, .refl, List.length_eq_zero_iff.mp hcount, rfl⟩
  | succ n ih =>
      have hsome : e.system.coordinator.timers ≠ [] := by
        intro hnone
        rw [hnone] at hcount
        cases hcount
      obtain ⟨c, hstep, htail⟩ := System.exists_fired (system_of_reaches h) hsome
      have hmoves : MovesIf (step app) Smooth e { e with system := { e.system with
          coordinator := c, owners := e.system.owners.eraseIdx 0 } } :=
        moves_system hstep trivial (by simp)
      have hfewer : c.timers.length = n := by
        rw [htail, List.length_tail, hcount]
        rfl
      obtain ⟨e', hrest, hnone, hworkers⟩ := ih (h.tail hmoves.moves) hfewer
      exact ⟨e', .head hmoves hrest, hnone, hworkers⟩

/-- A worker gets a job, does it and reports it. -/
theorem exists_job_done (hfiles : files ≠ []) (hreduce : 1 ≤ nReduce)
    (hinputs : ∀ file ∈ files, (app.inputs file).isSome = true)
    (h : Reaches (step app) (start files nReduce) e)
    (htimers : e.system.coordinator.timers = []) (hleft : e.system.coordinator.done = false)
    (hasking : e.system.workers worker = .asking) :
    ∃ e', ReachesIf (step app) Smooth e e' ∧ e'.system.workers worker = .asking ∧
      e'.system.coordinator.left < e.system.coordinator.left := by
  obtain ⟨s, reply, assignment, job, hget, hworker, htype, hjob, hdoing⟩ :=
    System.exists_assigned hfiles hreduce (system_of_reaches h) htimers hleft hasking
  have hassigned : MovesIf (step app) Smooth e { e with system := s } :=
    moves_system hget trivial (by simp)
  have hentered := entered_of_asking h hasking
  obtain ⟨hmap, _⟩ := System.serves_of_reaches (system_of_reaches (h.tail hassigned.moves)) hworker
  have hworks : ∃ dir, app.Works reply (e.directory, e.progress worker) (dir, .returned true) := by
    rw [hentered]
    rcases htype with htype | htype
    · have hfile := List.mem_of_getElem? (hmap htype).1
      obtain ⟨content, hinput⟩ := Option.isSome_iff_exists.mp (hinputs _ hfile)
      exact App.works_map htype hinput
    · exact App.works_reduce htype
  obtain ⟨dir, hworks⟩ := hworks
  obtain ⟨returned, reported, hreturn, hreport, hagain, hlt⟩ :=
    System.exists_reported hworker htype hjob hdoing
  let worked : Execution :=
    ⟨s, dir, Function.update e.progress worker (.returned true)⟩
  have hworked : ReachesIf (step app) Smooth { e with system := s } worked :=
    reaches_of_works (e := { e with system := s }) hworker hworks
  let again : Execution := ⟨returned, dir, Function.update worked.progress worker .entered⟩
  have hreturned : MovesIf (step app) Smooth worked again :=
    moves_return (e := worked) hreturn (Function.update_self ..)
  have hreported : MovesIf (step app) Smooth again { again with system := reported } :=
    moves_system (e := again) hreport trivial (by simp)
  refine ⟨_, ((Relation.ReflTransGen.head hassigned hworked).tail hreturned).tail hreported,
    hagain, hlt.trans_le ?_⟩
  exact Coordinator.left_of_reaches (System.step_turn hget).coordinator

theorem exists_done (hfiles : files ≠ []) (hreduce : 1 ≤ nReduce)
    (hinputs : ∀ file ∈ files, (app.inputs file).isSome = true)
    (h : Reaches (step app) (start files nReduce) e) :
    ∃ e', ReachesIf (step app) Smooth e e' ∧ e'.system.coordinator.done = true := by
  obtain ⟨bound, hbound⟩ := System.exists_asking (system_of_reaches h)
  have hasking := hbound bound (Nat.le_refl _)
  clear hbound
  -- by induction on the number of jobs that are left, one worker does them one after another
  induction hcount : e.system.coordinator.left using Nat.strong_induction_on generalizing e with
  | _ n ih =>
      obtain ⟨fired, hfired, htimers, hworkers⟩ := exists_timers_fired h
      cases hdone : fired.system.coordinator.done with
      | true => exact ⟨fired, hfired, hdone⟩
      | false =>
          obtain ⟨after, hafter, hagain, hlt⟩ := exists_job_done hfiles hreduce hinputs
            (h.trans hfired.reaches) htimers hdone (hworkers ▸ hasking)
          have hfewer : after.system.coordinator.left < n := by
            have hmono := Coordinator.left_of_reaches (coordinator_of_reaches hfired.reaches)
            omega
          obtain ⟨e', hrest, hdone'⟩ :=
            ih _ hfewer ((h.trans hfired.reaches).trans hafter.reaches) hagain rfl
          exact ⟨e', (hfired.trans hafter).trans hrest, hdone'⟩

/-- A run in which every call of `GetJob` is answered meets no panic, and it can be completed:
no worker that has stopped, no report that is lost and no job that was given up keeps the
coordinator from being done. -/
theorem can_complete {actions : List ExecutionAction} (hfiles : files ≠ []) (hreduce : 1 ≤ nReduce)
    (hinputs : ∀ file ∈ files, (app.inputs file).isSome = true)
    (h : RunsIf (step app) Answered (start files nReduce) actions e) :
    (∀ action, e.step app action ≠ .panic) ∧
      ∃ more e', RunsIf (step app) Answered e more e' ∧ e'.system.coordinator.done = true := by
  obtain ⟨e', hreach, hdone⟩ := exists_done hfiles hreduce hinputs h.reaches
  obtain ⟨more, hmore⟩ := hreach.exists_runsIf
  exact ⟨step_ne_panic h, more, e', hmore.imp fun _ _ hsmooth => hsmooth.1, hdone⟩

end Execution

/-! ## Counting one word in one file -/

/-- A text with a mark before each character. -/
def marked (text : List Char) : List Char :=
  text.flatMap fun c => ['.', c]

/-- The texts that end in a comma. -/
def readMarked : List Char → List Char → List (List Char)
  | '.' :: c :: rest, text => readMarked rest (text ++ [c])
  | ',' :: rest, text => text :: readMarked rest []
  | _, _ => []

def pairUp : List (List Char) → List KeyValue
  | key :: value :: rest => ⟨String.ofList key, String.ofList value⟩ :: pairUp rest
  | _ => []

def encodeMarked (pair : KeyValue) : String :=
  String.ofList (marked pair.key.toList ++ ',' :: (marked pair.value.toList ++ [',']))

theorem readMarked_marked (text rest before : List Char) :
    readMarked (marked text ++ ',' :: rest) before = (before ++ text) :: readMarked rest [] := by
  induction text generalizing before with
  | nil =>
      rw [List.append_nil]
      rfl
  | cons c text ih =>
      change readMarked (marked text ++ ',' :: rest) (before ++ [c]) = _
      rw [ih, List.append_assoc]
      rfl

theorem pairUp_readMarked (pairs : List KeyValue) :
    pairUp (readMarked (String.join (pairs.map encodeMarked)).toList []) = pairs := by
  induction pairs with
  | nil => rfl
  | cons pair pairs ih =>
      rw [List.map_cons, String.join_cons, String.toList_append, encodeMarked, String.toList_ofList,
        List.append_assoc, List.cons_append, List.append_assoc, readMarked_marked, List.cons_append,
        List.nil_append, readMarked_marked, pairUp]
      simp only [List.nil_append, String.ofList_toList, ih]

/-- Every file holds the word `tea`. -/
def countTea : App where
  mapf _ content := [⟨content, "1"⟩]
  reducef _ values := toString values.length
  inputs _ := some "tea"
  sort := .insertion
  encode := encodeMarked
  decode text := pairUp (readMarked text.toList [])
  decode_encode := pairUp_readMarked

/-- Worker 0 gets the map job and creates a file. -/
def begun : List ExecutionAction :=
  [.system (.getJob 0), .call 0 (.openInput [⟨"tea", "1"⟩]),
    .call 0 (.createInterMediate 0 ⟨['7'], by simp, rfl⟩)]

theorem Execution.can_complete_begun : ∃ e more e',
    RunsIf (Execution.step countTea) Execution.Answered (Execution.start ["a.txt"] 1) begun e ∧
      e.directory.read "mr-0-07".toList = some "" ∧ (∀ action, e.step countTea action ≠ .panic) ∧
      RunsIf (Execution.step countTea) Execution.Answered e more e' ∧
      e'.system.coordinator.done = true := by
  have hchecked : RunHolds (guarded (Execution.step countTea) Execution.Answered) begun
      (Execution.start ["a.txt"] 1) fun e => e.directory.read "mr-0-07".toList = some "" := by
    decide +kernel
  obtain ⟨e, hrun, hread⟩ := hchecked.exists_runsIf
  obtain ⟨hsafe, more, e', hmore, hdone⟩ := Execution.can_complete (by simp) (by decide)
    (fun _ _ => rfl) hrun
  exact ⟨e, more, e', hrun, hread, hsafe, hmore, hdone⟩

end DistributedLabs.MapReduce
