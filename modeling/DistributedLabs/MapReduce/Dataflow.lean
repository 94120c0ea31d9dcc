import DistributedLabs.Library.Grouping
import DistributedLabs.Library.Table
import Mathlib.Data.List.Induction
import Mathlib.Data.List.Perm.Basic
import Mathlib.Data.String.Basic

/-!
# What the jobs compute

A map job splits its output by the hash of the keys and writes one file for each part that
is not empty.  A reduce job reads the files of its part, sorts the pairs and reduces each
run of equal keys.  The sequential program does the same with all pairs at once.

Files are read back as they were written, and sorting gives a sorted permutation.
-/

namespace DistributedLabs.MapReduce

open DistributedLabs.Library

structure KeyValue where
  key : String
  value : String
  deriving DecidableEq, Repr

/-- What `sort.Sort(ByKey(pairs))` leaves in the slice. -/
structure ByKeySort where
  sort : List KeyValue → List KeyValue
  perm : ∀ pairs, (sort pairs).Perm pairs
  sorted : ∀ pairs, (sort pairs).Pairwise fun first second => first.key ≤ second.key

/-! ## Map jobs -/

/-- The 32-bit FNV-1a hash. -/
def sum32a (bytes : List UInt8) : UInt32 :=
  bytes.foldl (fun hash byte => (hash ^^^ byte.toUInt32) * 16777619) 2166136261

def ihash (key : String) : Nat :=
  (sum32a key.toUTF8.toList &&& 0x7fffffff).toNat

/-- The reduce job of a key. -/
def part (nReduce : Nat) (key : String) : Nat :=
  ihash key % nReduce

/-- One round of the loop that splits the pairs. -/
def addPair (nReduce : Nat) (imap : AList fun _ : Nat => List KeyValue) (pair : KeyValue) :
    AList fun _ : Nat => List KeyValue :=
  let index := part nReduce pair.key
  imap.insert index ((imap.lookup index).getD [] ++ [pair])

def splitPairs (nReduce : Nat) (intermediate : List KeyValue) :
    AList fun _ : Nat => List KeyValue :=
  intermediate.foldl (addPair nReduce) ∅

/-- The file `mr-jobId-index`. -/
structure InterMediateFile where
  jobId : Nat
  index : Nat
  pairs : List KeyValue
  deriving DecidableEq, Repr

/-- The files a map job writes. -/
def processMapJob (nReduce jobId : Nat) (kva : List KeyValue) : List InterMediateFile :=
  (splitPairs nReduce kva).entries.map fun entry => ⟨jobId, entry.1, entry.2⟩

/-- All files, when the map jobs have given these outputs. -/
def interMediateFiles (nReduce : Nat) (outputs : List (List KeyValue)) : List InterMediateFile :=
  outputs.zipIdx.flatMap fun output => processMapJob nReduce output.2 output.1

/-- The files that match `mr-*-jobId`. -/
def glob (files : List InterMediateFile) (jobId : Nat) : List InterMediateFile :=
  files.filter fun file => file.index = jobId

/-! ## Reduce jobs -/

/-- `for j < len(tempPairs) && tempPairs[j].Key == key { j++ }` -/
def runEnd (tempPairs : List KeyValue) (key : String) (j : Nat) : Nat :=
  if h : j < tempPairs.length then
    if tempPairs[j].key = key then runEnd tempPairs key (j + 1) else j
  else j
termination_by tempPairs.length - j

theorem le_runEnd (tempPairs : List KeyValue) (key : String) (j : Nat) :
    j ≤ runEnd tempPairs key j := by
  induction j using runEnd.induct tempPairs key with
  | case1 j h hkey ih =>
      rw [runEnd, dif_pos h, if_pos hkey]
      omega
  | case2 j h hkey =>
      rw [runEnd, dif_pos h, if_neg hkey]
  | case3 j h =>
      rw [runEnd, dif_neg h]

/-- The values from `i` to `j`. -/
def collectValues (tempPairs : List KeyValue) (i j : Nat) : List String :=
  ((tempPairs.drop i).take (j - i)).map KeyValue.value

/-- The calls of `reducef` that the loop makes from `i` on: the key and the values. -/
def reduceCalls (tempPairs : List KeyValue) (i : Nat) : List (String × List String) :=
  if h : i < tempPairs.length then
    let j := runEnd tempPairs tempPairs[i].key (i + 1)
    (tempPairs[i].key, collectValues tempPairs i j) :: reduceCalls tempPairs j
  else []
termination_by tempPairs.length - i
decreasing_by
  have := le_runEnd tempPairs tempPairs[i].key (i + 1)
  omega

/-- A line of output. -/
structure Line where
  key : String
  output : String
  deriving DecidableEq, Repr

def printLines (reducef : String → List String → String) (calls : List (String × List String)) :
    List Line :=
  calls.map fun call => ⟨call.1, reducef call.1 call.2⟩

/-- The calls of `reducef` in a reduce job that has found these files. -/
def jobCalls (sort : ByKeySort) (files : List InterMediateFile) : List (String × List String) :=
  reduceCalls (sort.sort (files.flatMap InterMediateFile.pairs)) 0

/-- What a reduce job writes; there is no output if it finds no file. -/
def processReduceJob (sort : ByKeySort) (reducef : String → List String → String)
    (files : List InterMediateFile) : Option (List Line) :=
  if files.length = 0 then none else some (printLines reducef (jobCalls sort files))

/-- What `mrsequential` writes. -/
def mrsequential (sort : ByKeySort) (reducef : String → List String → String)
    (outputs : List (List KeyValue)) : List Line :=
  printLines reducef (reduceCalls (sort.sort outputs.flatten) 0)

/-- The lines of all reduce jobs, when each has found its files. -/
def distributedLines (sort : ByKeySort) (reducef : String → List String → String) (nReduce : Nat)
    (files : Nat → List InterMediateFile) : List Line :=
  (List.range nReduce).flatMap fun jobId => (processReduceJob sort reducef (files jobId)).getD []

/-- The calls of `reducef` in all reduce jobs. -/
def distributedCalls (sort : ByKeySort) (nReduce : Nat) (files : Nat → List InterMediateFile) :
    List (String × List String) :=
  (List.range nReduce).flatMap fun jobId => jobCalls sort (files jobId)

/-! ## The parts -/

theorem lookup_splitPairs (nReduce r : Nat) (pairs : List KeyValue) :
    ((splitPairs nReduce pairs).lookup r).getD [] =
      pairs.filter fun pair => part nReduce pair.key = r := by
  induction pairs using List.reverseRecOn with
  | nil => rfl
  | append_singleton pairs pair ih =>
      have hconcat : splitPairs nReduce (pairs ++ [pair]) =
          addPair nReduce (splitPairs nReduce pairs) pair := by
        simp [splitPairs]
      rw [hconcat, List.filter_append, ← ih]
      by_cases hr : r = part nReduce pair.key
      · subst hr
        simp [addPair]
      · rw [addPair, AList.lookup_insert_ne hr]
        simp [Ne.symm hr]

/-- The files of a part of one output hold its pairs of this part. -/
theorem pairs_processMapJob (nReduce jobId r : Nat) (kva : List KeyValue) :
    (glob (processMapJob nReduce jobId kva) r).flatMap InterMediateFile.pairs =
      kva.filter fun pair => part nReduce pair.key = r := by
  rw [← lookup_splitPairs, ← Table.flatMap_entries, glob, processMapJob, List.filter_map,
    List.flatMap_map]
  rfl

/-- The files of a part hold all pairs of this part. -/
theorem pairs_glob (nReduce r : Nat) (outputs : List (List KeyValue)) :
    (glob (interMediateFiles nReduce outputs) r).flatMap InterMediateFile.pairs =
      outputs.flatten.filter fun pair => part nReduce pair.key = r := by
  have hsplit : (glob (interMediateFiles nReduce outputs) r).flatMap InterMediateFile.pairs =
      outputs.zipIdx.flatMap fun output =>
        (glob (processMapJob nReduce output.2 output.1) r).flatMap InterMediateFile.pairs := by
    rw [glob, interMediateFiles, List.filter_flatMap, List.flatMap_assoc]
    rfl
  have houtputs : outputs.zipIdx.map Prod.fst = outputs := List.zipIdx_map_fst 0 outputs
  simp only [hsplit, pairs_processMapJob]
  nth_rewrite 2 [← houtputs]
  rw [List.filter_flatten, List.map_map]
  rfl

/-! ## The loop over runs -/

theorem runEnd_eq (tempPairs : List KeyValue) (key : String) (j : Nat) :
    runEnd tempPairs key j =
      j + ((tempPairs.drop j).takeWhile fun pair => pair.key = key).length := by
  induction j using runEnd.induct tempPairs key with
  | case1 j h hkey ih =>
      rw [runEnd, dif_pos h, if_pos hkey, ih, List.drop_eq_getElem_cons h]
      simp only [List.takeWhile_cons, hkey, decide_true, if_true, List.length_cons]
      omega
  | case2 j h hkey =>
      rw [runEnd, dif_pos h, if_neg hkey, List.drop_eq_getElem_cons h,
        List.takeWhile_cons_of_neg (by simp [hkey])]
      rfl
  | case3 j h =>
      rw [runEnd, dif_neg h, List.drop_eq_nil_of_le (by omega)]
      rfl

theorem reduceCalls_eq_runs (tempPairs : List KeyValue) (i : Nat) :
    reduceCalls tempPairs i =
      (Grouping.runs KeyValue.key (tempPairs.drop i)).map fun run =>
        (run.1, run.2.map KeyValue.value) := by
  induction i using reduceCalls.induct tempPairs with
  | case1 i h j ih =>
      have hend : j = i + 1 +
          ((tempPairs.drop (i + 1)).takeWhile fun pair => pair.key = tempPairs[i].key).length :=
        runEnd_eq tempPairs _ _
      have hdrop : tempPairs.drop j =
          (tempPairs.drop (i + 1)).dropWhile fun pair => pair.key = tempPairs[i].key := by
        rw [hend, ← List.drop_drop]
        exact (Grouping.split_at_takeWhile _ _).2
      have hvalues : collectValues tempPairs i j =
          (tempPairs[i] ::
            (tempPairs.drop (i + 1)).takeWhile fun pair => pair.key = tempPairs[i].key).map
              KeyValue.value := by
        rw [collectValues, List.drop_eq_getElem_cons h, hend, Nat.add_assoc,
          Nat.add_sub_cancel_left, Nat.add_comm 1, List.take_succ_cons,
          (Grouping.split_at_takeWhile _ _).1]
      rw [reduceCalls, dif_pos h, List.drop_eq_getElem_cons h, Grouping.runs, List.map_cons,
        ← hdrop, ← ih, ← hvalues]
  | case2 i h =>
      rw [reduceCalls, dif_neg h, List.drop_eq_nil_of_le (by omega), Grouping.runs]
      rfl

/-- The calls of the loop on sorted pairs: each key with its values. -/
theorem reduceCalls_perm (sort : ByKeySort) (pairs : List KeyValue) :
    (reduceCalls (sort.sort pairs) 0).Perm
      (Grouping.grouped KeyValue.key (fun key group => (key, group.map KeyValue.value))
        (sort.sort pairs)) := by
  rw [reduceCalls_eq_runs, List.drop_zero]
  have hruns := (Grouping.runs_perm_grouped (sort.sorted pairs)).map
    fun run : String × List KeyValue => (run.1, run.2.map KeyValue.value)
  rw [Grouping.grouped, List.map_map] at hruns
  exact hruns

/-! ## What both programs compute -/

/-- `reducef` does not depend on the order of the values. -/
def OrderFree (reducef : String → List String → String) : Prop :=
  ∀ key values values', values.Perm values' → reducef key values = reducef key values'

/-- One line for each key, from all its values. -/
def reducedLines (reducef : String → List String → String) (pairs : List KeyValue) : List Line :=
  Grouping.grouped KeyValue.key (fun key group => ⟨key, reducef key (group.map KeyValue.value)⟩)
    pairs

section

variable {reducef : String → List String → String}

theorem reducedLines_perm (hfree : OrderFree reducef) {pairs pairs' : List KeyValue}
    (h : pairs.Perm pairs') : (reducedLines reducef pairs).Perm (reducedLines reducef pairs') := by
  refine Grouping.grouped_perm (fun key group group' hgroup => ?_) h
  rw [hfree key _ _ (hgroup.map _)]

/-- Sorting and reducing the runs gives the lines. -/
theorem printLines_perm (sort : ByKeySort) (hfree : OrderFree reducef) (pairs : List KeyValue) :
    (printLines reducef (reduceCalls (sort.sort pairs) 0)).Perm (reducedLines reducef pairs) := by
  have hcalls := (reduceCalls_perm sort pairs).map
    fun call : String × List String => (⟨call.1, reducef call.1 call.2⟩ : Line)
  rw [Grouping.grouped, List.map_map] at hcalls
  exact hcalls.trans (reducedLines_perm hfree (sort.perm pairs))

theorem jobCalls_nil (sort : ByKeySort) : jobCalls sort [] = [] := by
  have hnil : sort.sort [] = [] := List.perm_nil.mp (sort.perm [])
  rw [jobCalls, List.flatMap_nil, hnil, reduceCalls]
  rfl

/-- A job without files and a job with none of the pairs write the same lines. -/
theorem processReduceJob_getD (sort : ByKeySort) (files : List InterMediateFile) :
    (processReduceJob sort reducef files).getD [] = printLines reducef (jobCalls sort files) := by
  unfold processReduceJob
  split
  · next hnone =>
      rw [List.length_eq_zero_iff.mp hnone, jobCalls_nil]
      rfl
  · rfl

variable {outputs : List (List KeyValue)} {nReduce : Nat} {files : Nat → List InterMediateFile}

/-- The pairs a reduce job reads, in any order of its files. -/
theorem pairs_perm {jobId : Nat}
    (hfiles : (files jobId).Perm (glob (interMediateFiles nReduce outputs) jobId)) :
    ((files jobId).flatMap InterMediateFile.pairs).Perm
      (outputs.flatten.filter fun pair => part nReduce pair.key = jobId) := by
  rw [← pairs_glob]
  exact hfiles.flatMap_right _

theorem part_lt (hreduce : 1 ≤ nReduce) (key : String) : part nReduce key < nReduce :=
  Nat.mod_lt _ hreduce

/-- The reduce jobs together write one line for each key. -/
theorem distributedLines_perm (sort : ByKeySort) (hfree : OrderFree reducef)
    (hreduce : 1 ≤ nReduce)
    (hfiles : ∀ jobId < nReduce,
      (files jobId).Perm (glob (interMediateFiles nReduce outputs) jobId)) :
    (distributedLines sort reducef nReduce files).Perm (reducedLines reducef outputs.flatten) := by
  have hjobs : (distributedLines sort reducef nReduce files).Perm
      ((List.range nReduce).flatMap fun jobId =>
        reducedLines reducef
          (outputs.flatten.filter fun pair => part nReduce pair.key = jobId)) := by
    refine List.Perm.flatMap_left _ fun jobId hjob => ?_
    rw [processReduceJob_getD]
    exact (printLines_perm sort hfree _).trans
      (reducedLines_perm hfree (pairs_perm (hfiles jobId (List.mem_range.mp hjob))))
  exact hjobs.trans (Grouping.grouped_parts_perm _ _ (part_lt hreduce))

/-- The keys of the calls are the keys of the pairs. -/
theorem distributedCalls_keys (sort : ByKeySort) (hreduce : 1 ≤ nReduce)
    (hfiles : ∀ jobId < nReduce,
      (files jobId).Perm (glob (interMediateFiles nReduce outputs) jobId)) :
    ((distributedCalls sort nReduce files).map Prod.fst).Perm
      (Grouping.keys KeyValue.key outputs.flatten) := by
  have hjobs : ((distributedCalls sort nReduce files).map Prod.fst).Perm
      ((List.range nReduce).flatMap fun jobId =>
        Grouping.keys KeyValue.key
          (outputs.flatten.filter fun pair => part nReduce pair.key = jobId)) := by
    rw [distributedCalls, List.map_flatMap]
    refine List.Perm.flatMap_left _ fun jobId hjob => ?_
    have hcalls :=
      (reduceCalls_perm sort ((files jobId).flatMap InterMediateFile.pairs)).map Prod.fst
    rw [Grouping.map_fst_grouped] at hcalls
    exact hcalls.trans (Grouping.keys_perm ((sort.perm _).trans
      (pairs_perm (hfiles jobId (List.mem_range.mp hjob)))))
  exact hjobs.trans (Grouping.keys_parts_perm _ (part_lt hreduce))

/-- A call has all values of its key. -/
theorem distributedCalls_values (sort : ByKeySort)
    (hfiles : ∀ jobId < nReduce,
      (files jobId).Perm (glob (interMediateFiles nReduce outputs) jobId))
    {call : String × List String} (hcall : call ∈ distributedCalls sort nReduce files) :
    call.2.Perm ((outputs.flatten.filter fun pair => pair.key = call.1).map KeyValue.value) := by
  obtain ⟨jobId, hjob, hmem⟩ := List.mem_flatMap.mp hcall
  obtain ⟨key, hkey, rfl⟩ := List.mem_map.mp ((reduceCalls_perm sort _).mem_iff.mp hmem)
  have hpairs := (sort.perm _).trans (pairs_perm (hfiles jobId (List.mem_range.mp hjob)))
  have hpart : part nReduce key = jobId :=
    (Grouping.mem_keys_part.mp ((Grouping.keys_perm hpairs).mem_iff.mp hkey)).2
  have hall : Grouping.withKey KeyValue.key key
      (outputs.flatten.filter fun pair => part nReduce pair.key = jobId) =
        Grouping.withKey KeyValue.key key outputs.flatten :=
    Grouping.withKey_part hpart
  have hgroup := hpairs.filter fun pair => pair.key = key
  rw [← Grouping.withKey, ← Grouping.withKey, hall] at hgroup
  exact hgroup.map KeyValue.value

/-- For a function that does not depend on the order of the values, the reduce jobs
together write the lines of the sequential program, and each key is reduced once, with
exactly its values. -/
theorem distributed_perm_sequential (sort sort' : ByKeySort) (hfree : OrderFree reducef)
    (outputs : List (List KeyValue)) (hreduce : 1 ≤ nReduce)
    (hfiles : ∀ jobId < nReduce,
      (files jobId).Perm (glob (interMediateFiles nReduce outputs) jobId)) :
    (distributedLines sort reducef nReduce files).Perm (mrsequential sort' reducef outputs) ∧
    (∀ pair ∈ outputs.flatten,
      ((distributedCalls sort nReduce files).map Prod.fst).count pair.key = 1) ∧
    ∀ call ∈ distributedCalls sort nReduce files,
      (∃ pair ∈ outputs.flatten, pair.key = call.1) ∧
      call.2.Perm ((outputs.flatten.filter fun pair => pair.key = call.1).map KeyValue.value) := by
  have hkeys := distributedCalls_keys sort hreduce hfiles
  refine ⟨?_, fun pair hpair => ?_,
    fun call hcall => ⟨?_, distributedCalls_values sort hfiles hcall⟩⟩
  · have hsequential : (mrsequential sort' reducef outputs).Perm
        (reducedLines reducef outputs.flatten) :=
      printLines_perm sort' hfree outputs.flatten
    exact (distributedLines_perm sort hfree hreduce hfiles).trans hsequential.symm
  · rw [hkeys.count_eq]
    exact List.count_eq_one_of_mem (Grouping.nodup_keys _)
      (Grouping.mem_keys.mpr ⟨pair, hpair, rfl⟩)
  · exact Grouping.mem_keys.mp (hkeys.mem_iff.mp (List.mem_map.mpr ⟨call, hcall, rfl⟩))

end

/-! ## Counting words -/

/-- Sorting by merging. -/
def ByKeySort.merge : ByKeySort where
  sort pairs := pairs.mergeSort fun first second => first.key ≤ second.key
  perm pairs := List.mergeSort_perm pairs _
  sorted pairs := by
    have htrans (a b c : KeyValue) (hab : decide (a.key ≤ b.key) = true)
        (hbc : decide (b.key ≤ c.key) = true) : decide (a.key ≤ c.key) = true :=
      decide_eq_true (le_trans (of_decide_eq_true hab) (of_decide_eq_true hbc))
    have htotal (a b : KeyValue) : (decide (a.key ≤ b.key) || decide (b.key ≤ a.key)) = true := by
      simpa using le_total a.key b.key
    exact (List.pairwise_mergeSort htrans htotal pairs).imp of_decide_eq_true

/-- Counting words in two texts with three reduce jobs. -/
theorem distributed_perm_sequential_word_count :
    (distributedLines ByKeySort.merge (fun _ values => toString values.length) 3
        (glob (interMediateFiles 3 [[⟨"a", "1"⟩, ⟨"b", "1"⟩], [⟨"a", "1"⟩]]))).Perm
      (mrsequential ByKeySort.merge (fun _ values => toString values.length)
        [[⟨"a", "1"⟩, ⟨"b", "1"⟩], [⟨"a", "1"⟩]]) ∧
    ((distributedCalls ByKeySort.merge 3
        (glob (interMediateFiles 3 [[⟨"a", "1"⟩, ⟨"b", "1"⟩], [⟨"a", "1"⟩]]))).map Prod.fst).count
      "a" = 1 := by
  have hfree : OrderFree fun _ values => toString values.length := by
    intro key values values' hperm
    dsimp only
    rw [hperm.length_eq]
  obtain ⟨hlines, honce, _⟩ := distributed_perm_sequential ByKeySort.merge ByKeySort.merge hfree
    [[⟨"a", "1"⟩, ⟨"b", "1"⟩], [⟨"a", "1"⟩]] (by decide : 1 ≤ 3) fun _ _ => List.Perm.refl _
  exact ⟨hlines, honce ⟨"a", "1"⟩ (by decide)⟩

end DistributedLabs.MapReduce
