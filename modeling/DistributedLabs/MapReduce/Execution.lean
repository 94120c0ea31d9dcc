import DistributedLabs.MapReduce.FileSystem
import DistributedLabs.MapReduce.Replies

/-!
# Jobs and their files

The workers do their jobs call by call in the directory they share, in any order among each
other.  A worker may stop at any call and never take another step, and a worker whose job has
been given to another one goes on with it all the same.  A call may fail.  Most failures end the
job, but two go unnoticed: `processJob` does not look at the error of `fmt.Fprintf`, and it takes
every error of the decoder, a failed read among them, for the end of the file.
-/

namespace DistributedLabs.MapReduce

open DistributedLabs.Library

/-- The functions of an application, the input files that can be read, and what the packages
`sort` and `encoding/json` do with pairs.  Pairs that have been encoded are decoded again. -/
structure App where
  /-- The pairs that the map function gives, each time in an order of its own. -/
  mapf : String → String → List KeyValue
  reducef : String → List String → String
  inputs : String → Option String
  sort : ByKeySort
  encode : KeyValue → String
  /-- The pairs before an error. -/
  decode : String → List KeyValue
  decode_encode : ∀ pairs, decode (String.join (pairs.map encode)) = pairs

/-! ## One job -/

/-- How far a worker is in `processJob`. -/
inductive Progress where
  | entered
  /-- At the loop over `imap`, with the files it has not come to. -/
  | mapping (imap : List InterMediateFile)
  /-- In the loop, with the pairs that have not been encoded. -/
  | encoding (file : InterMediateFile) (random : Decimal) (pairs : List KeyValue)
      (imap : List InterMediateFile)
  /-- At the loop over the files that were found. -/
  | reading (files : List Name) (tempPairs : List KeyValue)
  | printing (random : Decimal) (lines : List Line)
  | returned (result : Bool)

inductive Call where
  /-- The map function gives these pairs. -/
  | openInput (kva : List KeyValue)
  /-- The next round of the loop over `imap`, which may come to its entries in any order. -/
  | createInterMediate (k : Nat) (random : Decimal)
  | encode
  | renameInterMediate
  | leaveLoop
  | glob
  | openFile
  | createOutput (random : Decimal)
  | print
  | renameOutput
  /-- A call fails, perhaps after a part of a write, and the job with it. -/
  | fails (torn : String)
  /-- A file is opened, and reading it fails after some pairs. -/
  | readFails (count : Nat)
  /-- A line is not printed, or a part of it only. -/
  | printFails (torn : String)

/-- The worker notices it if the call fails. -/
def Call.Noticed : Call → Prop
  | .readFails _ | .printFails _ => False
  | _ => True

instance (call : Call) : Decidable call.Noticed :=
  match call with
  | .readFails _ | .printFails _ => instDecidableFalse
  | .openInput _ | .createInterMediate _ _ | .encode | .renameInterMediate | .leaveLoop | .glob
  | .openFile | .createOutput _ | .print | .renameOutput | .fails _ => instDecidableTrue

namespace Progress

def result : Progress → Option Bool
  | .returned result => some result
  | _ => none

/-- The temporary file that the worker has opened. -/
def temp (jobId : Nat) : Progress → Option Origin
  | .encoding file random _ _ => some (.mapTemp jobId file.index random)
  | .printing random _ => some (.reduceTemp jobId random)
  | _ => none

/-- Whether the next call is one that ends the job if it fails. -/
def fallible : Progress → Bool
  | .mapping [] | .printing _ (_ :: _) | .returned _ => false
  | _ => true

end Progress

def Directory.writeTorn (dir : Directory) (temp : Option Origin) (torn : String) : Directory :=
  match temp with
  | some origin => dir.write origin.name torn
  | none => dir

/-- The lines of a reduce job that has read these pairs. -/
def App.lines (app : App) (tempPairs : List KeyValue) : List Line :=
  printLines app.reducef (reduceCalls (app.sort.sort tempPairs) 0)

/-- What the next call of the worker writes. -/
def App.pending (app : App) : Progress → String
  | .encoding _ _ (pair :: _) _ => app.encode pair
  | .printing _ (line :: _) => printText [line]
  | _ => ""

/-- One call in `processJob`. -/
def App.call (app : App) (dir : Directory) (reply : ExampleReply) (progress : Progress) :
    Call → Outcome (Directory × Progress)
  | .openInput kva =>
      match progress with
      | .entered =>
          if reply.jobType = .mapJob then
            match app.inputs reply.mapJobFileName with
            | none => .ok (dir, .returned false)
            | some content =>
                if kva.Perm (app.mapf reply.mapJobFileName content) then
                  .ok (dir, .mapping (processMapJob reply.nReduce reply.jobId kva))
                else .blocked
          else .blocked
      | _ => .blocked
  | .createInterMediate k random =>
      match progress with
      | .mapping imap =>
          match imap[k]? with
          | none => .blocked
          | some file =>
              match dir.create (.mapTemp reply.jobId file.index random) with
              | none => .blocked
              | some created => .ok (created, .encoding file random file.pairs (imap.eraseIdx k))
      | _ => .blocked
  | .encode =>
      match progress with
      | .encoding file random (pair :: pairs) imap =>
          .ok (dir.write (Origin.mapTemp reply.jobId file.index random).name (app.encode pair),
            .encoding file random pairs imap)
      | _ => .blocked
  | .renameInterMediate =>
      match progress with
      | .encoding file random [] imap =>
          match dir.rename (Origin.mapTemp reply.jobId file.index random).name
              (.interMediate reply.jobId file.index) with
          | none => .ok (dir, .returned false)
          | some renamed => .ok (renamed, .mapping imap)
      | _ => .blocked
  | .leaveLoop =>
      match progress with
      | .mapping [] => .ok (dir, .returned true)
      | _ => .blocked
  | .glob =>
      match progress with
      | .entered =>
          if reply.jobType = .reduceJob then
            let files := (dir.selected reply.jobId).map fun file => file.origin.name
            if files.length = 0 then .ok (dir, .returned true) else .ok (dir, .reading files [])
          else .blocked
      | _ => .blocked
  | .openFile =>
      match progress with
      | .reading (name :: files) tempPairs =>
          match dir.read name with
          | none => .ok (dir, .returned false)
          | some text => .ok (dir, .reading files (tempPairs ++ app.decode text))
      | _ => .blocked
  | .createOutput random =>
      match progress with
      | .reading [] tempPairs =>
          match dir.create (.reduceTemp reply.jobId random) with
          | none => .blocked
          | some created => .ok (created, .printing random (app.lines tempPairs))
      | _ => .blocked
  | .print =>
      match progress with
      | .printing random (line :: lines) =>
          .ok (dir.write (Origin.reduceTemp reply.jobId random).name (printText [line]),
            .printing random lines)
      | _ => .blocked
  | .renameOutput =>
      match progress with
      | .printing random [] =>
          match dir.rename (Origin.reduceTemp reply.jobId random).name (.output reply.jobId) with
          | none => .ok (dir, .returned false)
          | some renamed => .ok (renamed, .returned true)
      | _ => .blocked
  | .fails torn =>
      if progress.fallible ∧ torn.toList.isPrefixOf (app.pending progress).toList then
        .ok (dir.writeTorn (progress.temp reply.jobId) torn, .returned false)
      else .blocked
  | .readFails count =>
      match progress with
      | .reading (name :: files) tempPairs =>
          match dir.read name with
          | none => .blocked
          | some text => .ok (dir, .reading files (tempPairs ++ (app.decode text).take count))
      | _ => .blocked
  | .printFails torn =>
      match progress with
      | .printing random (_ :: lines) =>
          if torn.toList.isPrefixOf (app.pending progress).toList then
            .ok (dir.write (Origin.reduceTemp reply.jobId random).name torn,
              .printing random lines)
          else .blocked
      | _ => .blocked

/-- What a call does to the directory and to the progress of its worker, if the worker notices
failures. -/
inductive App.Called (app : App) (dir : Directory) (reply : ExampleReply) :
    Progress → Directory → Progress → Prop where
  | gaveUp (progress : Progress) : Called app dir reply progress dir (.returned false)
  | failed (progress : Progress) (torn : String) :
      Called app dir reply progress (dir.writeTorn (progress.temp reply.jobId) torn)
        (.returned false)
  | openedInput {content : String} {kva : List KeyValue} (htype : reply.jobType = .mapJob)
      (hinput : app.inputs reply.mapJobFileName = some content)
      (hkva : kva.Perm (app.mapf reply.mapJobFileName content)) :
      Called app dir reply .entered dir
        (.mapping (processMapJob reply.nReduce reply.jobId kva))
  | createdInterMediate {imap : List InterMediateFile} {k : Nat} {file : InterMediateFile}
      {random : Decimal} {created : Directory} (hfile : imap[k]? = some file)
      (hcreate : dir.create (.mapTemp reply.jobId file.index random) = some created) :
      Called app dir reply (.mapping imap) created
        (.encoding file random file.pairs (imap.eraseIdx k))
  | encoded (file : InterMediateFile) (random : Decimal) (pair : KeyValue) (pairs : List KeyValue)
      (imap : List InterMediateFile) :
      Called app dir reply (.encoding file random (pair :: pairs) imap)
        (dir.write (Origin.mapTemp reply.jobId file.index random).name (app.encode pair))
        (.encoding file random pairs imap)
  | renamedInterMediate {file : InterMediateFile} {random : Decimal} {renamed : Directory}
      {imap : List InterMediateFile}
      (hrename : dir.rename (Origin.mapTemp reply.jobId file.index random).name
        (.interMediate reply.jobId file.index) = some renamed) :
      Called app dir reply (.encoding file random [] imap) renamed (.mapping imap)
  | leftLoop : Called app dir reply (.mapping []) dir (.returned true)
  | foundNone (htype : reply.jobType = .reduceJob) (hnone : dir.selected reply.jobId = []) :
      Called app dir reply .entered dir (.returned true)
  | found (htype : reply.jobType = .reduceJob) :
      Called app dir reply .entered dir
        (.reading ((dir.selected reply.jobId).map fun file => file.origin.name) [])
  | openedFile {name : Name} {text : String} {names : List Name} {tempPairs : List KeyValue}
      (hread : dir.read name = some text) :
      Called app dir reply (.reading (name :: names) tempPairs) dir
        (.reading names (tempPairs ++ app.decode text))
  | createdOutput {random : Decimal} {created : Directory} {tempPairs : List KeyValue}
      (hcreate : dir.create (.reduceTemp reply.jobId random) = some created) :
      Called app dir reply (.reading [] tempPairs) created (.printing random (app.lines tempPairs))
  | printed (random : Decimal) (line : Line) (lines : List Line) :
      Called app dir reply (.printing random (line :: lines))
        (dir.write (Origin.reduceTemp reply.jobId random).name (printText [line]))
        (.printing random lines)
  | renamedOutput {random : Decimal} {renamed : Directory}
      (hrename : dir.rename (Origin.reduceTemp reply.jobId random).name (.output reply.jobId) =
        some renamed) :
      Called app dir reply (.printing random []) renamed (.returned true)

theorem App.called_of_call {app : App} {dir dir' : Directory} {reply : ExampleReply}
    {progress progress' : Progress} {call : Call} (hnoticed : call.Noticed)
    (h : app.call dir reply progress call = .ok (dir', progress')) :
    app.Called dir reply progress dir' progress' := by
  cases call with
  | openInput kva =>
      simp only [App.call] at h
      split at h
      · split at h
        · next htype =>
            split at h
            · cases h
              exact .gaveUp _
            · next hinput =>
                split at h
                · next hkva =>
                    cases h
                    exact .openedInput htype hinput hkva
                · cases h
        · cases h
      · cases h
  | createInterMediate k random =>
      simp only [App.call] at h
      split at h
      · split at h
        · cases h
        · next hfile =>
            split at h
            · cases h
            · next hcreate =>
                cases h
                exact .createdInterMediate hfile hcreate
      · cases h
  | encode =>
      simp only [App.call] at h
      split at h
      · cases h
        exact .encoded _ _ _ _ _
      · cases h
  | renameInterMediate =>
      simp only [App.call] at h
      split at h
      · split at h
        · cases h
          exact .gaveUp _
        · next hrename =>
            cases h
            exact .renamedInterMediate hrename
      · cases h
  | leaveLoop =>
      simp only [App.call] at h
      split at h
      · cases h
        exact .leftLoop
      · cases h
  | glob =>
      simp only [App.call] at h
      split at h
      · split at h
        · next htype =>
            split at h
            · next hnone =>
                cases h
                exact .foundNone htype (List.map_eq_nil_iff.mp (List.length_eq_zero_iff.mp hnone))
            · cases h
              exact .found htype
        · cases h
      · cases h
  | openFile =>
      simp only [App.call] at h
      split at h
      · split at h
        · cases h
          exact .gaveUp _
        · next hread =>
            cases h
            exact .openedFile hread
      · cases h
  | createOutput random =>
      simp only [App.call] at h
      split at h
      · split at h
        · cases h
        · next hcreate =>
            cases h
            exact .createdOutput hcreate
      · cases h
  | print =>
      simp only [App.call] at h
      split at h
      · cases h
        exact .printed _ _ _
      · cases h
  | renameOutput =>
      simp only [App.call] at h
      split at h
      · split at h
        · cases h
          exact .gaveUp _
        · next hrename =>
            cases h
            exact .renamedOutput hrename
      · cases h
  | fails torn =>
      simp only [App.call] at h
      split at h
      · cases h
        exact .failed _ torn
      · cases h
  | readFails | printFails => cases hnoticed

theorem App.call_ne_panic (app : App) (dir : Directory) (reply : ExampleReply)
    (progress : Progress) (call : Call) : app.call dir reply progress call ≠ .panic := by
  intro hpanic
  cases call <;> simp only [App.call] at hpanic <;> repeat' split at hpanic
  all_goals cases hpanic

/-! ## All jobs -/

structure Execution where
  system : System
  directory : Directory
  progress : Nat → Progress

inductive ExecutionAction where
  | system (action : SystemAction)
  | call (worker : Nat) (call : Call)

/-- A map or reduce job has the result with which the worker has returned. -/
def WorkerState.Returns (state : WorkerState) (progress : Progress) (result : Bool) : Prop :=
  match state with
  | .processing reply _ =>
      reply.jobType = .mapJob ∨ reply.jobType = .reduceJob → progress.result = some result
  | .asking | .stopped => True

instance (state : WorkerState) (progress : Progress) (result : Bool) :
    Decidable (state.Returns progress result) :=
  match state with
  | .processing reply _ => inferInstanceAs (Decidable
      (reply.jobType = .mapJob ∨ reply.jobType = .reduceJob → progress.result = some result))
  | .asking | .stopped => instDecidableTrue

namespace Execution

def start (files : List String) (nReduce : Nat) : Execution where
  system := System.start files nReduce
  directory := .empty
  progress := fun _ => .entered

def step (app : App) (e : Execution) : ExecutionAction → Outcome Execution
  | .system (.processJob worker result) =>
      if (e.system.workers worker).Returns (e.progress worker) result then
        (e.system.step (.processJob worker result)).map fun s =>
          { e with system := s, progress := Function.update e.progress worker .entered }
      else .blocked
  | .system action => (e.system.step action).map fun s => { e with system := s }
  | .call worker call =>
      match e.system.workers worker with
      | .processing reply _ =>
          (app.call e.directory reply (e.progress worker) call).map fun done =>
            { e with
              directory := done.1
              progress := Function.update e.progress worker done.2 }
      | _ => .blocked

/-- Workers notice what fails. -/
def Noticed (_ : Execution) : ExecutionAction → Prop
  | .call _ call => call.Noticed
  | .system _ => True

/-- No call of `GetJob` fails. -/
def Answered (e : Execution) : ExecutionAction → Prop
  | .call _ _ => True
  | .system action => e.system.Answered action

instance (e : Execution) (action : ExecutionAction) : Decidable (e.Noticed action) :=
  match action with
  | .call _ call => inferInstanceAs (Decidable call.Noticed)
  | .system _ => instDecidableTrue

instance (e : Execution) (action : ExecutionAction) : Decidable (e.Answered action) :=
  match action with
  | .call _ _ => instDecidableTrue
  | .system action => inferInstanceAs (Decidable (e.system.Answered action))

variable {app : App} {e e' : Execution} {action : ExecutionAction}

/-- A worker makes a call, or the workers and the coordinator take a step; then a worker that
returns has the result of its job and starts afresh. -/
theorem step_cases (h : e.step app action = .ok e') :
    (∃ worker call reply assignment dir progress, action = .call worker call ∧
      e.system.workers worker = .processing reply assignment ∧
      app.call e.directory reply (e.progress worker) call = .ok (dir, progress) ∧
      e' = { e with directory := dir, progress := Function.update e.progress worker progress }) ∨
    ∃ own s progress, action = .system own ∧ e.system.step own = .ok s ∧
      (∀ worker, (∀ result, own ≠ .processJob worker result) →
        progress worker = e.progress worker) ∧
      (∀ worker result, own = .processJob worker result → progress worker = .entered ∧
        (e.system.workers worker).Returns (e.progress worker) result) ∧
      e' = { e with system := s, progress := progress } := by
  cases action with
  | call worker call =>
      simp only [step] at h
      split at h
      · next reply assignment hworker =>
          obtain ⟨⟨dir, progress⟩, hcall, rfl⟩ := Outcome.map_eq_ok.mp h
          exact .inl ⟨worker, call, reply, assignment, dir, progress, rfl, hworker, hcall, rfl⟩
      · cases h
  | system action =>
      refine .inr ?_
      cases action with
      | processJob worker result =>
          simp only [step] at h
          split at h
          · next hreturns =>
              obtain ⟨s, hstep, rfl⟩ := Outcome.map_eq_ok.mp h
              refine ⟨_, s, _, rfl, hstep, fun other hother => ?_, fun other result' heq => ?_,
                rfl⟩
              · refine Function.update_of_ne ?_ _ _
                rintro rfl
                exact hother result rfl
              · cases heq
                exact ⟨Function.update_self .., hreturns⟩
          · cases h
      | getJobUnheard =>
          cases h
          refine ⟨.getJobUnheard, _, e.progress, rfl, rfl, fun _ _ => rfl, fun _ _ heq => ?_, rfl⟩
          cases heq
      | getJob | getJobFails | reportJobResult | timeOut =>
          obtain ⟨s, hstep, rfl⟩ := Outcome.map_eq_ok.mp h
          refine ⟨_, s, _, rfl, hstep, fun _ _ => rfl, fun _ _ heq => ?_, rfl⟩
          cases heq

/-- The calls of the workers do not concern the coordinator. -/
theorem system_of_reaches {files : List String} {nReduce : Nat}
    (h : Reaches (step app) (start files nReduce) e) :
    Reaches System.step (System.start files nReduce) e.system := by
  induction h with
  | refl => exact .refl
  | @tail t t' _ last ih =>
      obtain ⟨action, hstep⟩ := last
      rcases step_cases hstep with
        ⟨_, _, _, _, _, _, _, _, _, rfl⟩ | ⟨own, s, _, _, hsystem, _, _, rfl⟩
      · exact ih
      · exact ih.tail ⟨own, hsystem⟩

/-- If every call of `GetJob` is answered, nothing makes the coordinator panic, and the workers
never do. -/
theorem step_ne_panic {files : List String} {nReduce : Nat} {actions : List ExecutionAction}
    (h : RunsIf (step app) Answered (start files nReduce) actions e) (action : ExecutionAction) :
    e.step app action ≠ .panic := by
  have hsystem : ∃ own, RunsIf System.step System.Answered (System.start files nReduce) own
      e.system := by
    induction h with
    | refl => exact ⟨[], .refl⟩
    | tail _ permitted taken ih =>
        obtain ⟨past, hpast⟩ := ih
        rcases step_cases taken with
          ⟨_, _, _, _, _, _, _, _, _, rfl⟩ | ⟨own, s, _, rfl, hstep, _, _, rfl⟩
        · exact ⟨past, hpast⟩
        · exact ⟨past ++ [own], hpast.tail permitted hstep⟩
  obtain ⟨own, hruns⟩ := hsystem
  cases action with
  | call worker call =>
      simp only [step]
      split
      · rw [Ne, Outcome.map_eq_panic]
        exact app.call_ne_panic e.directory _ _ call
      · exact Outcome.blocked_ne_panic
  | system action =>
      have hne := System.step_ne_panic hruns action
      cases action with
      | processJob worker result =>
          simp only [step]
          split
          · rw [Ne, Outcome.map_eq_panic]
            exact hne
          · exact Outcome.blocked_ne_panic
      | getJob | getJobFails | getJobUnheard | reportJobResult | timeOut =>
          simp only [step]
          rw [Ne, Outcome.map_eq_panic]
          exact hne

/-- A worker that asks for a job has not begun with it. -/
theorem entered_of_asking {files : List String} {nReduce : Nat}
    (h : Reaches (step app) (start files nReduce) e) {worker : Nat}
    (hasking : e.system.workers worker = .asking) : e.progress worker = .entered := by
  induction h with
  | refl => rfl
  | @tail t t' _ last ih =>
      obtain ⟨action, hstep⟩ := last
      rcases step_cases hstep with
        ⟨other, _, _, _, _, _, _, hother, _, rfl⟩ |
          ⟨own, s, progress, _, hsystem, hsame, hreturn, rfl⟩
      · have hne : worker ≠ other := by
          rintro rfl
          cases hother.symm.trans hasking
        dsimp only
        rw [Function.update_of_ne hne]
        exact ih hasking
      · by_cases hreturns : ∃ result, own = .processJob worker result
        · obtain ⟨result, heq⟩ := hreturns
          exact (hreturn worker result heq).1
        · rcases System.asking_of_step hsystem hasking with hbefore | hnow
          · dsimp only
            rw [hsame worker fun result heq => hreturns ⟨result, heq⟩]
            exact ih hbefore
          · exact absurd hnow hreturns

end Execution

end DistributedLabs.MapReduce
