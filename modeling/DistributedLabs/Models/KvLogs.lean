import DistributedLabs.KvRaft.Linearizable
import DistributedLabs.KvSrv.Linearizable
import DistributedLabs.Models.KvCheck

/-!
# The logs of the test harness

The harness reads the clock before it calls a clerk and after the clerk has returned, and logs
the operation.  In the end it hands the log to the checker.  The logs of both services are never
found to be illegal, as long as their runs are orderly.
-/

namespace DistributedLabs.Models

open DistributedLabs.Library DistributedLabs.Porcupine

/-- The log of a history.  The clock is read before the call and after the return, so an operation
that is logged to have returned before another one was called has done so. -/
structure Logs (history : List (Library.Operation Nat KvInput KvOutput))
    (stamp : Library.Operation Nat KvInput KvOutput → Library.Operation Int KvInput KvOutput)
    (log : List (Porcupine.Operation KvInput KvOutput)) : Prop where
  perm : (history.map stamp).Perm (operations log)
  io : ∀ op, (stamp op).io = op.io
  earlier : ∀ before ∈ history, ∀ after ∈ history,
    (stamp before).ret < (stamp after).call → before.ret < after.call
  timed : ∀ op ∈ history, ¬ (stamp op).ret < (stamp op).call

variable {history : List (Library.Operation Nat KvInput KvOutput)}
  {stamp : Library.Operation Nat KvInput KvOutput → Library.Operation Int KvInput KvOutput}
  {log : List (Porcupine.Operation KvInput KvOutput)} {verbose : Bool} {timeout : Int}
  {c c' : Parallel String KvInput KvOutput}

theorem Logs.timed_log (h : Logs history stamp log) : ∀ op ∈ log, ¬ op.ret < op.call := by
  intro op hop
  have hmem : op.toOperation ∈ history.map stamp :=
    h.perm.mem_iff.mpr (List.mem_map_of_mem hop)
  obtain ⟨own, hown, heq⟩ := List.mem_map.mp hmem
  have htimed := h.timed own hown
  rw [heq] at htimed
  exact htimed

/-- The log of a linearizable history is not illegal. -/
theorem Logs.not_illegal (h : Logs history stamp log)
    (hlinearizable : Linearizable kvObject history)
    (hstart : ChecksOperations kvModel log c)
    (hcheck : Reaches (Parallel.step kvModel.fillDefault verbose timeout) c c')
    (hphase : c'.phase = .done) : c'.result ≠ .illegal := by
  intro hresult
  have hanswer := hstart.answer (fillDefault_equalSound rfl)
    (timed_partition h.timed_log) hcheck hphase
  rw [hresult] at hanswer
  obtain ⟨part, hpart, hnot⟩ := hanswer
  have hlog : Linearizable kvObject (operations log) :=
    (hlinearizable.map_times h.io h.earlier).perm h.perm
  exact hnot ((linearizable_kvObject_iff h.timed_log).mp hlog part hpart)

/-- The clock shows the number of the step. -/
def stampSteps (op : Library.Operation Nat KvInput KvOutput) :
    Library.Operation Int KvInput KvOutput :=
  ⟨op.input, op.call, op.output, op.ret⟩

/-- Such a log, in the order of the calls. -/
theorem logs_stampSteps (htimed : ∀ op ∈ history, op.call ≤ op.ret) :
    Logs history stampSteps (history.map fun op => ⟨stampSteps op, 0⟩) where
  perm := by
    rw [operations, List.map_map]
    exact .refl _
  io _ := rfl
  earlier _ _ _ _ hlt := Int.ofNat_lt.mp hlt
  timed op hop := Int.not_lt.mpr (Int.ofNat_le.mpr (htimed op hop))

/-- The check of a log with operations on one key. -/
theorem checksOperations_one_key (h : KvModel.partition log = [log]) :
    ChecksOperations kvModel log (Parallel.initial kvModel.fillDefault [makeEntries log]) := by
  refine ⟨_, ?_, rfl⟩
  change List.Forall₂ MakesEntries (KvModel.partition log) _
  rw [h]
  exact .cons (makeEntries_makes log) .nil

/-- When all clerks have returned, the log of the replicated service is not illegal. -/
theorem kvraft_log_not_illegal {n : Nat} {codec : KvRaft.Codec}
    {actions : List (SharedAction (KvRaft.SystemAction n))} {t : KvRaft.System.SharedRecord n}
    (hrun : KvRaft.System.OrderlyRun codec actions t)
    (hreturned : ∀ call ∈ t.base.2.calls, call.answer ≠ none)
    (hlog : Logs t.base.2.history stamp log) (hstart : ChecksOperations kvModel log c)
    (hcheck : Reaches (Parallel.step kvModel.fillDefault verbose timeout) c c')
    (hphase : c'.phase = .done) : c'.result ≠ .illegal := by
  obtain ⟨_, points, h⟩ := KvRaft.System.linearized_of_runs (Shared.runsIf_base hrun)
  exact hlog.not_illegal (h.tracks.linearizableTo.history hreturned) hstart hcheck hphase

def readBackLog : List (Porcupine.Operation KvInput KvOutput) :=
  [⟨⟨⟨1, "x", "a"⟩, 4, ⟨""⟩, 17⟩, 0⟩, ⟨⟨⟨0, "x", ""⟩, 18, ⟨"a"⟩, 31⟩, 0⟩]

/-- The log of a write and a read that have both returned, checked to the end. -/
theorem kvraft_log_not_illegal_read_back : ∃ (t : KvRaft.System.SharedRecord 3)
    (c c' : Parallel String KvInput KvOutput),
    KvRaft.System.OrderlyRun KvRaft.Codec.unary KvRaft.System.writeAndRead t ∧
    Logs t.base.2.history stampSteps readBackLog ∧ ChecksOperations kvModel readBackLog c ∧
    Reaches (Parallel.step kvModel.fillDefault true 0) c c' ∧ c'.phase = .done ∧
    c'.result ≠ .illegal := by
  obtain ⟨t, hrun, hhistory, hreturned⟩ := KvRaft.System.writeAndRead_runs.exists_runsIf
  have hlog : Logs t.base.2.history stampSteps readBackLog := by
    rw [hhistory]
    exact logs_stampSteps (by decide)
  have hpartition : KvModel.partition readBackLog = [readBackLog] := by decide +kernel
  have hstart := checksOperations_one_key hpartition
  have hcheck : RunHolds (Parallel.step kvModel.fillDefault true 0)
      [.turn 0, .turn 0, .turn 0, .send 0, .receive]
      (Parallel.initial kvModel.fillDefault [makeEntries readBackLog])
      fun c => c.phase = .done := by
    decide +kernel
  obtain ⟨c', hsteps, hphase⟩ := hcheck.exists_runs
  exact ⟨t, _, c', hrun, hlog, hstart, hsteps.reaches, hphase,
    kvraft_log_not_illegal hrun hreturned hlog hstart hsteps.reaches hphase⟩

/-- When all clerks have returned, and no reply of an append that found a value was lost, the log
of the single server is not illegal. -/
theorem kvsrv_log_not_illegal {actions : List KvSrv.NetAction}
    {t : KvSrv.System × Record Nat KvInput KvOutput}
    (hrun : RunsIf (recording KvSrv.System.netStep (KvSrv.System.event true))
      (fun t a => t.1.KeepsOld a) (KvSrv.System.initial, {}) actions t)
    (hreturned : ∀ call ∈ t.2.calls, call.answer ≠ none) (hlog : Logs t.2.history stamp log)
    (hstart : ChecksOperations kvModel log c)
    (hcheck : Reaches (Parallel.step kvModel.fillDefault verbose timeout) c c')
    (hphase : c'.phase = .done) : c'.result ≠ .illegal := by
  obtain ⟨points, h⟩ := KvSrv.System.linearized_of_runs true
    (RunsIf.imp hrun fun _ _ hkeeps _ => hkeeps)
  exact hlog.not_illegal (h.tracks.linearizableTo.history hreturned) hstart hcheck hphase

def appendsLog : List (Porcupine.Operation KvInput KvOutput) :=
  [⟨⟨⟨3, "x", "a"⟩, 0, ⟨""⟩, 4⟩, 0⟩, ⟨⟨⟨3, "x", "b"⟩, 5, ⟨"a"⟩, 7⟩, 0⟩]

/-- The log of two appends, of which the first was sent twice, checked to the end. -/
theorem kvsrv_log_not_illegal_first_lost :
    ∃ (t : KvSrv.System × Record Nat KvInput KvOutput) (actions : List KvSrv.NetAction)
      (c c' : Parallel String KvInput KvOutput),
      RunsIf (recording KvSrv.System.netStep (KvSrv.System.event true))
        (fun t a => t.1.KeepsOld a) (KvSrv.System.initial, {}) actions t ∧
      Logs t.2.history stampSteps appendsLog ∧ ChecksOperations kvModel appendsLog c ∧
      Reaches (Parallel.step kvModel.fillDefault true 0) c c' ∧ c'.phase = .done ∧
      c'.result ≠ .illegal := by
  have hchecked : RunHolds (guarded (recording KvSrv.System.netStep (KvSrv.System.event true))
      (fun t a => t.1.KeepsOld a))
      [.timely (.request 1 (.append "x" "a")), .timely (.execute 0), .timely (.lose 0),
        .timely (.execute 0), .timely (.receive 0), .timely (.request 1 (.append "x" "b")),
        .timely (.execute 1), .timely (.receive 1)] (KvSrv.System.initial, {})
      fun t : KvSrv.System × Record Nat KvInput KvOutput =>
        t.2.history = [⟨⟨3, "x", "a"⟩, 0, ⟨""⟩, 4⟩, ⟨⟨3, "x", "b"⟩, 5, ⟨"a"⟩, 7⟩] ∧
        ∀ call ∈ t.2.calls, call.answer ≠ none := by
    decide +kernel
  obtain ⟨t, hrun, hhistory, hreturned⟩ := hchecked.exists_runsIf
  have hlog : Logs t.2.history stampSteps appendsLog := by
    rw [hhistory]
    exact logs_stampSteps (by decide)
  have hpartition : KvModel.partition appendsLog = [appendsLog] := by decide +kernel
  have hstart := checksOperations_one_key hpartition
  have hcheck : RunHolds (Parallel.step kvModel.fillDefault true 0)
      [.turn 0, .turn 0, .turn 0, .send 0, .receive]
      (Parallel.initial kvModel.fillDefault [makeEntries appendsLog]) fun c => c.phase = .done := by
    decide +kernel
  obtain ⟨c', hsteps, hphase⟩ := hcheck.exists_runs
  exact ⟨t, _, _, c', hrun, hlog, hstart, hsteps.reaches, hphase,
    kvsrv_log_not_illegal hrun hreturned hlog hstart hsteps.reaches hphase⟩

end DistributedLabs.Models
