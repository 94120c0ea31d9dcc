import DistributedLabs.Models.Kv
import DistributedLabs.Porcupine.Parallel

/-!
# Checking the histories of key/value stores

The parts of a history are its operations on each key.  So the checker, which checks each part
against the model of one key, decides whether the history is linearizable to a store of all
keys.
-/

namespace DistributedLabs.Models

open DistributedLabs.Library DistributedLabs.Porcupine

namespace KvModel

variable {history : List (Porcupine.Operation KvInput KvOutput)} {key : String}

theorem byKey_concat (history : List (Porcupine.Operation KvInput KvOutput))
    (v : Porcupine.Operation KvInput KvOutput) :
    byKey (history ++ [v]) = (byKey history).insert v.input.key
      (((byKey history).lookup v.input.key).getD [] ++ [v]) := by
  simp [byKey, List.foldl_append]

/-- The map holds the operations of each key that has any. -/
theorem lookup_byKey (history : List (Porcupine.Operation KvInput KvOutput)) (key : String) :
    ((byKey history).lookup key).getD [] = history.filter (·.input.key = key) ∧
      (key ∈ byKey history ↔ ∃ v ∈ history, v.input.key = key) := by
  induction history using List.reverseRecOn with
  | nil =>
      refine ⟨rfl, fun hmem => absurd hmem (AList.notMem_empty key), ?_⟩
      rintro ⟨v, hmem, _⟩
      cases hmem
  | append_singleton history v ih =>
      rw [byKey_concat, List.filter_append]
      by_cases hkey : key = v.input.key
      · subst hkey
        refine ⟨?_, fun _ => ⟨v, by simp, rfl⟩, fun _ => (AList.mem_insert _).mpr (.inl rfl)⟩
        rw [AList.lookup_insert, Option.getD_some, ih.1]
        simp
      · constructor
        · rw [AList.lookup_insert_ne hkey, ih.1]
          simp [Ne.symm hkey]
        · rw [AList.mem_insert, ih.2]
          constructor
          · rintro (heq | ⟨w, hmem, hw⟩)
            · exact absurd heq hkey
            · exact ⟨w, List.mem_append_left _ hmem, hw⟩
          · rintro ⟨w, hmem, hw⟩
            rcases List.mem_append.mp hmem with hold | hnew
            · exact .inr ⟨w, hold, hw⟩
            · rw [List.mem_singleton.mp hnew] at hw
              exact absurd hw.symm hkey

/-- The parts are the operations of the keys. -/
theorem mem_partition {part : List (Porcupine.Operation KvInput KvOutput)} :
    part ∈ partition history ↔
      ∃ key, (∃ v ∈ history, v.input.key = key) ∧ part = history.filter (·.input.key = key) := by
  simp only [partition, List.mem_map, List.mem_insertionSort]
  constructor
  · rintro ⟨key, hkey, rfl⟩
    exact ⟨key, (lookup_byKey history key).2.mp hkey, (lookup_byKey history key).1⟩
  · rintro ⟨key, hkey, rfl⟩
    exact ⟨key, (lookup_byKey history key).2.mpr hkey, (lookup_byKey history key).1⟩

end KvModel

theorem operations_filter (history : List (Porcupine.Operation KvInput KvOutput)) (key : String) :
    operations (history.filter (·.input.key = key)) =
      onKey KvInput.key key (operations history) := by
  rw [operations, operations, onKey, List.filter_map]
  rfl

/-- A history is linearizable to the store if and only if its parts are linearizable to the
model of one key. -/
theorem linearizable_kvObject_iff {history : List (Porcupine.Operation KvInput KvOutput)}
    (htimed : ∀ op ∈ history, ¬ op.ret < op.call) :
    Linearizable kvObject (operations history) ↔
      ∀ part ∈ KvModel.partition history, Linearizable kvModel.object (operations part) := by
  rw [kvObject, linearizable_keyed_iff (timed_operations.mpr htimed)]
  constructor
  · intro hkeys part hpart
    obtain ⟨key, _, rfl⟩ := KvModel.mem_partition.mp hpart
    rw [operations_filter]
    exact hkeys key
  · intro hparts key
    by_cases hkey : ∃ v ∈ history, v.input.key = key
    · rw [← operations_filter]
      exact hparts _ (KvModel.mem_partition.mpr ⟨key, hkey, rfl⟩)
    · have hnone : history.filter (·.input.key = key) = [] := by
        refine List.filter_eq_nil_iff.mpr fun v hmem hv => hkey ⟨v, hmem, ?_⟩
        simpa using hv
      rw [← operations_filter, hnone]
      exact ⟨[], .refl _, .nil, kvModel.object.init, rfl⟩

theorem timed_partition {history : List (Porcupine.Operation KvInput KvOutput)}
    (htimed : ∀ op ∈ history, ¬ op.ret < op.call) :
    ∀ part ∈ kvModel.fillDefault.partition history, ∀ op ∈ part, ¬ op.ret < op.call := by
  intro part hpart op hop
  obtain ⟨key, _, rfl⟩ := KvModel.mem_partition.mp hpart
  exact htimed op (List.mem_of_mem_filter hop)

/-- Whatever the schedule, an answer of `checkOperations` about a history of a key/value store is
right for the store with all its keys. -/
theorem checkOperations_kv {history : List (Porcupine.Operation KvInput KvOutput)}
    (htimed : ∀ op ∈ history, ¬ op.ret < op.call) {verbose : Bool} {timeout : Int}
    {c c' : Parallel String KvInput KvOutput} (hstart : ChecksOperations kvModel history c)
    (hrun : Reaches (Parallel.step kvModel.fillDefault verbose timeout) c c')
    (hphase : c'.phase = .done) :
    match c'.result with
      | .ok => Linearizable kvObject (operations history)
      | .illegal => ¬ Linearizable kvObject (operations history)
      | .unknown => 0 < timeout := by
  have hanswer := hstart.answer (fillDefault_equalSound rfl) (timed_partition htimed) hrun hphase
  revert hanswer
  cases c'.result with
  | ok =>
      intro hall
      exact (linearizable_kvObject_iff htimed).mpr hall
  | illegal =>
      rintro ⟨part, hpart, hnot⟩ hlinearizable
      exact hnot ((linearizable_kvObject_iff htimed).mp hlinearizable part hpart)
  | unknown =>
      intro hpositive
      exact hpositive

/-- The stale read is found out. -/
theorem checkOperations_kv_stale_read : ∃ c c', ChecksOperations kvModel staleRead c ∧
    Reaches (Parallel.step kvModel.fillDefault false 0) c c' ∧ c'.phase = .done ∧
    ¬ Linearizable kvObject (operations staleRead) := by
  have hpartition : kvModel.fillDefault.partition staleRead = [staleRead] := by
    decide +kernel
  have hstart : ChecksOperations kvModel staleRead
      (Parallel.initial kvModel.fillDefault [makeEntries staleRead]) := by
    refine ⟨_, ?_, rfl⟩
    rw [hpartition]
    exact .cons (makeEntries_makes staleRead) .nil
  have hchecked : RunHolds (Parallel.step kvModel.fillDefault false 0)
      (List.replicate 7 (.turn 0) ++ [.send 0, .receive])
      (Parallel.initial kvModel.fillDefault [makeEntries staleRead])
      fun c => c.phase = .done ∧ c.result = .illegal := by
    decide +kernel
  obtain ⟨c', hrun, hphase, hresult⟩ := hchecked.exists_runs
  have hanswer := checkOperations_kv (by decide) hstart hrun.reaches hphase
  rw [hresult] at hanswer
  exact ⟨_, c', hstart, hrun.reaches, hphase, hanswer⟩

end DistributedLabs.Models
