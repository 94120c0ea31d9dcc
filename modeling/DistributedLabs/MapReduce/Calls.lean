import DistributedLabs.MapReduce.Execution

/-!
# What calls leave in the directory

What a worker has done so far is in the directory.  A call adds to it, leaves what others have
done, and gives a file its last name only when the file is complete.  A job that is done again
writes the same pairs again, perhaps in another order.
-/

namespace DistributedLabs.MapReduce

open DistributedLabs.Library

/-! ## What the files should hold -/

theorem splitPairs_ne_nil {nReduce index : Nat} {pairs found : List KeyValue}
    (h : (splitPairs nReduce pairs).lookup index = some found) : found ≠ [] := by
  induction pairs using List.reverseRecOn generalizing index found with
  | nil => cases h
  | append_singleton pairs pair ih =>
      have hconcat : splitPairs nReduce (pairs ++ [pair]) =
          addPair nReduce (splitPairs nReduce pairs) pair := by
        simp [splitPairs]
      rw [hconcat, addPair] at h
      by_cases hindex : index = part nReduce pair.key
      · subst hindex
        rw [AList.lookup_insert] at h
        cases h
        simp
      · rw [AList.lookup_insert_ne hindex] at h
        exact ih h

/-- A map job writes a file for each part in which it has pairs. -/
theorem mem_processMapJob {nReduce jobId : Nat} {kva : List KeyValue} {file : InterMediateFile} :
    file ∈ processMapJob nReduce jobId kva ↔
      file.jobId = jobId ∧ file.pairs ≠ [] ∧
        file.pairs = kva.filter fun pair => part nReduce pair.key = file.index := by
  rw [processMapJob, List.mem_map, ← lookup_splitPairs]
  constructor
  · rintro ⟨⟨index, pairs⟩, hentry, rfl⟩
    have hlookup := AList.mem_lookup_iff.mpr hentry
    rw [Option.mem_def] at hlookup
    exact ⟨rfl, splitPairs_ne_nil hlookup, by rw [hlookup]; rfl⟩
  · obtain ⟨fileId, index, pairs⟩ := file
    rintro ⟨rfl, hne, hpairs⟩
    dsimp only at hne hpairs
    cases hlookup : (splitPairs nReduce kva).lookup index with
    | none =>
        rw [hlookup] at hpairs
        exact absurd hpairs hne
    | some found =>
        rw [hlookup] at hpairs
        obtain rfl : pairs = found := hpairs
        exact ⟨⟨index, pairs⟩, AList.mem_lookup_iff.mp hlookup, rfl⟩

namespace App

variable (app : App) (files : List String) (nReduce : Nat)

/-- The output of a map job, if its file can be read. -/
def kva (jobId : Nat) : Option (List KeyValue) :=
  files[jobId]?.bind fun file => (app.inputs file).map (app.mapf file)

/-- What `mr-jobId-index` should hold. -/
def mapPart (jobId index : Nat) : List KeyValue :=
  ((app.kva files jobId).getD []).filter fun pair => part nReduce pair.key = index

/-- What the reduce job should read. -/
def partPairs (jobId : Nat) : List KeyValue :=
  (List.range files.length).flatMap fun mapId => app.mapPart files nReduce mapId jobId

def encodeAll (pairs : List KeyValue) : String :=
  String.join (pairs.map app.encode)

/-- Every file that has been given its last name is complete. -/
structure Complete (dir : Directory) : Prop where
  interMediates : ∀ mapId index text, index < nReduce →
    dir.read (Origin.interMediate mapId index).name = some text →
      ∃ pairs, pairs.Perm (app.mapPart files nReduce mapId index) ∧ text = app.encodeAll pairs
  outputs : ∀ jobId text, jobId < nReduce → dir.read (Origin.output jobId).name = some text →
    ∃ pairs, pairs.Perm (app.partPairs files nReduce jobId) ∧ text = printText (app.lines pairs)

/-- The intermediate file is there if it should hold anything. -/
def Written (dir : Directory) (mapId index : Nat) : Prop :=
  app.mapPart files nReduce mapId index ≠ [] →
    (dir.read (Origin.interMediate mapId index).name).isSome = true

/-- The files of the job are there. -/
def JobDone (dir : Directory) : MRJobType → Nat → Prop
  | .mapJob, jobId => (app.kva files jobId).isSome = true ∧
      ∀ index < nReduce, app.Written files nReduce dir jobId index
  | .reduceJob, jobId => jobId < nReduce ∧
      ((dir.read (Origin.output jobId).name).isSome = true ∨
        app.partPairs files nReduce jobId = [])
  | .unknownJob, _ | .terminalJob, _ | .waitJob, _ => True

/-- Nothing is decoded from an output. -/
def Quiet : Prop :=
  ∀ jobId pairs, jobId < nReduce → pairs.Perm (app.partPairs files nReduce jobId) →
    app.decode (printText (app.lines pairs)) = []

/-- What a reduce job should get out of a file. -/
def expected : Origin → List KeyValue
  | .interMediate mapId index => app.mapPart files nReduce mapId index
  | .output _ | .mapTemp _ _ _ | .reduceTemp _ _ => []

/-- What a worker has done so far is in the directory. -/
def Fits (dir : Directory) (reply : ExampleReply) : Progress → Prop
  | .entered => True
  | .mapping imap => reply.jobType = .mapJob ∧ (app.kva files reply.jobId).isSome = true ∧
      (∀ file ∈ imap, file.index < nReduce ∧
        file.pairs.Perm (app.mapPart files nReduce reply.jobId file.index)) ∧
      ∀ index < nReduce, (∃ file ∈ imap, file.index = index) ∨
        app.Written files nReduce dir reply.jobId index
  | .encoding file random pairs imap =>
      reply.jobType = .mapJob ∧ (app.kva files reply.jobId).isSome = true ∧
      (∀ other ∈ file :: imap, other.index < nReduce ∧
        other.pairs.Perm (app.mapPart files nReduce reply.jobId other.index)) ∧
      (∀ index < nReduce, (∃ other ∈ file :: imap, other.index = index) ∨
        app.Written files nReduce dir reply.jobId index) ∧
      ∃ encoded, encoded ++ pairs = file.pairs ∧
        dir.read (Origin.mapTemp reply.jobId file.index random).name =
          some (app.encodeAll encoded)
  | .reading names tempPairs => reply.jobType = .reduceJob ∧
      ∃ origins : List Origin, names = origins.map Origin.name ∧
        (∀ origin ∈ origins, origin.back = itoa reply.jobId) ∧
        (tempPairs ++ origins.flatMap (app.expected files nReduce)).Perm
          (app.partPairs files nReduce reply.jobId)
  | .printing random lines => reply.jobType = .reduceJob ∧
      ∃ pairs printed, pairs.Perm (app.partPairs files nReduce reply.jobId) ∧
        printed ++ lines = app.lines pairs ∧
        dir.read (Origin.reduceTemp reply.jobId random).name = some (printText printed)
  | .returned result => result = true →
      app.JobDone files nReduce dir reply.jobType reply.jobId

/-! ## Calls and the files of others -/

section

variable {app files nReduce} {dir dir' : Directory} {origin : Origin}

/-- No file that has been given its last name is touched. -/
def SameFinals (nReduce : Nat) (dir dir' : Directory) : Prop :=
  ∀ (origin : Origin) (jobId : Nat), jobId < nReduce → origin.back = itoa jobId →
    dir'.read origin.name = dir.read origin.name

/-- What a worker with this temporary file leaves to the others. -/
structure Keeps (nReduce : Nat) (own : Option Origin) (dir dir' : Directory) : Prop where
  interMediates : ∀ mapId index, index < nReduce →
    (dir.read (Origin.interMediate mapId index).name).isSome = true →
      (dir'.read (Origin.interMediate mapId index).name).isSome = true
  outputs : ∀ jobId, jobId < nReduce → (dir.read (Origin.output jobId).name).isSome = true →
    (dir'.read (Origin.output jobId).name).isSome = true
  temps : ∀ origin : Origin, origin.IsTemp → (∀ temp ∈ own, origin.name ≠ temp.name) →
    ∀ text, dir.read origin.name = some text → dir'.read origin.name = some text

theorem SameFinals.refl (dir : Directory) : SameFinals nReduce dir dir :=
  fun _ _ _ _ => Eq.refl _

theorem SameFinals.complete (h : SameFinals nReduce dir dir')
    (hcomplete : app.Complete files nReduce dir) : app.Complete files nReduce dir' := by
  constructor
  · intro mapId index text hindex hread
    rw [h (.interMediate mapId index) index hindex rfl] at hread
    exact hcomplete.interMediates mapId index text hindex hread
  · intro jobId text hjob hread
    rw [h (.output jobId) jobId hjob rfl] at hread
    exact hcomplete.outputs jobId text hjob hread

theorem SameFinals.keeps (h : SameFinals nReduce dir dir') {own : Option Origin}
    (htemps : ∀ origin : Origin, origin.IsTemp → (∀ temp ∈ own, origin.name ≠ temp.name) →
      ∀ text, dir.read origin.name = some text → dir'.read origin.name = some text) :
    Keeps nReduce own dir dir' := by
  constructor
  · intro mapId index hindex hread
    rw [h (.interMediate mapId index) index hindex rfl]
    exact hread
  · intro jobId hjob hread
    rw [h (.output jobId) jobId hjob rfl]
    exact hread
  · exact htemps

theorem Keeps.refl (own : Option Origin) (dir : Directory) : Keeps nReduce own dir dir :=
  (SameFinals.refl dir).keeps fun _ _ _ _ hread => hread

theorem sameFinals_create (hten : nReduce ≤ 10) (htemp : origin.IsTemp)
    (h : dir.create origin = some dir') : SameFinals nReduce dir dir' := by
  obtain ⟨_, hread⟩ := Directory.create_eq_some h
  intro other jobId hjob hback
  rw [hread, if_neg (htemp.name_ne (by omega) hback).symm]

theorem keeps_create (hten : nReduce ≤ 10) (htemp : origin.IsTemp)
    (h : dir.create origin = some dir') (own : Option Origin) : Keeps nReduce own dir dir' := by
  obtain ⟨hnew, hread⟩ := Directory.create_eq_some h
  refine (sameFinals_create hten htemp h).keeps fun other _ _ text hother => ?_
  rw [hread, if_neg]
  · exact hother
  · intro hname
    rw [hname, hnew] at hother
    cases hother

theorem sameFinals_write (hten : nReduce ≤ 10) (htemp : origin.IsTemp) (text : String) :
    SameFinals nReduce dir (dir.write origin.name text) := by
  intro other jobId hjob hback
  rw [Directory.read_write, if_neg (htemp.name_ne (by omega) hback).symm]

theorem keeps_write (dir : Directory) (hten : nReduce ≤ 10) (htemp : origin.IsTemp)
    (text : String) : Keeps nReduce (some origin) dir (dir.write origin.name text) := by
  refine (sameFinals_write hten htemp text).keeps fun other _ hown found hother => ?_
  rw [Directory.read_write, if_neg (hown origin rfl)]
  exact hother

/-- The directory after a temporary file has been given its last name. -/
theorem read_renamed {new : Origin} {text : String} (hten : nReduce ≤ 10) (htemp : origin.IsTemp)
    (h : dir.rename origin.name new = some dir') (htext : dir.read origin.name = some text)
    {other : Origin} {jobId : Nat} (hjob : jobId < nReduce) (hback : other.back = itoa jobId) :
    dir'.read other.name = if other.name = new.name then some text else dir.read other.name := by
  obtain ⟨found, hfound, hread⟩ := Directory.rename_eq_some h
  obtain rfl : found = text := Option.some.inj (hfound.symm.trans htext)
  rw [hread, if_neg (htemp.name_ne (by omega) hback).symm]

theorem read_renamed_temp {new : Origin} {jobId : Nat} (hten : nReduce ≤ 10)
    (hjob : jobId < nReduce) (hnew : new.back = itoa jobId)
    (h : dir.rename origin.name new = some dir') {other : Origin} (hother : other.IsTemp)
    (hne : other.name ≠ origin.name) : dir'.read other.name = dir.read other.name := by
  obtain ⟨_, _, hread⟩ := Directory.rename_eq_some h
  rw [hread, if_neg (hother.name_ne (by omega) hnew), if_neg hne]

section

variable {mapId index : Nat} {pairs : List KeyValue} (hten : nReduce ≤ 10)
  (hindex : index < nReduce) (htemp : origin.IsTemp)
  (hrename : dir.rename origin.name (.interMediate mapId index) = some dir')
  (htext : dir.read origin.name = some (app.encodeAll pairs))

include hten hindex htemp hrename htext

theorem read_interMediate_self :
    dir'.read (Origin.interMediate mapId index).name = some (app.encodeAll pairs) := by
  rw [read_renamed hten htemp hrename htext hindex rfl, if_pos rfl]

theorem Complete.rename_interMediate
    (hpairs : pairs.Perm (app.mapPart files nReduce mapId index))
    (h : app.Complete files nReduce dir) : app.Complete files nReduce dir' := by
  constructor
  · intro other part text hpart hread
    rw [read_renamed hten htemp hrename htext hpart rfl] at hread
    split at hread
    · next hname =>
        obtain ⟨rfl, rfl⟩ := Origin.interMediate_name_inj hname
        exact ⟨pairs, hpairs, (Option.some.inj hread).symm⟩
    · exact h.interMediates other part text hpart hread
  · intro jobId text hjob hread
    rw [read_renamed hten htemp hrename htext hjob rfl,
      if_neg (Origin.interMediate_name_ne_output mapId index jobId).symm] at hread
    exact h.outputs jobId text hjob hread

theorem Keeps.rename_interMediate : Keeps nReduce (some origin) dir dir' := by
  constructor
  · intro other part hpart hread
    rw [read_renamed hten htemp hrename htext hpart rfl]
    split
    · rfl
    · exact hread
  · intro jobId hjob hread
    rw [read_renamed hten htemp hrename htext hjob rfl,
      if_neg (Origin.interMediate_name_ne_output mapId index jobId).symm]
    exact hread
  · intro other hother hown text hread
    rw [read_renamed_temp hten hindex rfl hrename hother (hown origin rfl)]
    exact hread

end

section

variable {jobId : Nat} {pairs : List KeyValue} (hten : nReduce ≤ 10) (hjob : jobId < nReduce)
  (htemp : origin.IsTemp) (hrename : dir.rename origin.name (.output jobId) = some dir')
  (htext : dir.read origin.name = some (printText (app.lines pairs)))

include hten hjob htemp hrename htext

theorem read_output_self :
    dir'.read (Origin.output jobId).name = some (printText (app.lines pairs)) := by
  rw [read_renamed hten htemp hrename htext hjob rfl, if_pos rfl]

theorem Complete.rename_output (hpairs : pairs.Perm (app.partPairs files nReduce jobId))
    (h : app.Complete files nReduce dir) : app.Complete files nReduce dir' := by
  constructor
  · intro mapId index text hindex hread
    rw [read_renamed hten htemp hrename htext hindex rfl,
      if_neg (Origin.interMediate_name_ne_output mapId index jobId)] at hread
    exact h.interMediates mapId index text hindex hread
  · intro other text hother hread
    rw [read_renamed hten htemp hrename htext hother rfl] at hread
    split at hread
    · next hname =>
        obtain rfl := Origin.output_name_inj hname
        exact ⟨pairs, hpairs, (Option.some.inj hread).symm⟩
    · exact h.outputs other text hother hread

theorem Keeps.rename_output : Keeps nReduce (some origin) dir dir' := by
  constructor
  · intro mapId index hindex hread
    rw [read_renamed hten htemp hrename htext hindex rfl,
      if_neg (Origin.interMediate_name_ne_output mapId index jobId)]
    exact hread
  · intro other hother hread
    rw [read_renamed hten htemp hrename htext hother rfl]
    split
    · rfl
    · exact hread
  · intro other hother hown text hread
    rw [read_renamed_temp hten hjob rfl hrename hother (hown origin rfl)]
    exact hread

end

/-! ## What a worker has done stays done -/

theorem Written.keeps {own : Option Origin} (hkeeps : Keeps nReduce own dir dir')
    {mapId index : Nat}
    (hindex : index < nReduce) (h : app.Written files nReduce dir mapId index) :
    app.Written files nReduce dir' mapId index :=
  fun hne => hkeeps.interMediates mapId index hindex (h hne)

theorem JobDone.keeps {own : Option Origin} (hkeeps : Keeps nReduce own dir dir')
    {jobType : MRJobType} {jobId : Nat} (h : app.JobDone files nReduce dir jobType jobId) :
    app.JobDone files nReduce dir' jobType jobId := by
  cases jobType with
  | mapJob => exact ⟨h.1, fun index hindex => (h.2 index hindex).keeps hkeeps hindex⟩
  | reduceJob => exact ⟨h.1, h.2.imp_left (hkeeps.outputs jobId h.1)⟩
  | unknownJob | terminalJob | waitJob => trivial

theorem Fits.keeps {own : Option Origin} {reply : ExampleReply} {progress : Progress}
    (hkeeps : Keeps nReduce own dir dir')
    (hown : ∀ mine ∈ progress.temp reply.jobId, ∀ temp ∈ own, mine.name ≠ temp.name)
    (h : app.Fits files nReduce dir reply progress) :
    app.Fits files nReduce dir' reply progress := by
  cases progress with
  | entered => trivial
  | mapping imap =>
      obtain ⟨htype, hkva, himap, hwritten⟩ := h
      refine ⟨htype, hkva, himap, fun index hindex => ?_⟩
      exact (hwritten index hindex).imp_right fun hold => hold.keeps hkeeps hindex
  | encoding file random pairs imap =>
      obtain ⟨htype, hkva, himap, hwritten, encoded, hpairs, hread⟩ := h
      refine ⟨htype, hkva, himap, fun index hindex => ?_, encoded, hpairs, ?_⟩
      · exact (hwritten index hindex).imp_right fun hold => hold.keeps hkeeps hindex
      · exact hkeeps.temps (.mapTemp reply.jobId file.index random) trivial (hown _ rfl) _ hread
  | reading names tempPairs => exact h
  | printing random lines =>
      obtain ⟨htype, pairs, printed, hpairs, hlines, hread⟩ := h
      refine ⟨htype, pairs, printed, hpairs, hlines, ?_⟩
      exact hkeeps.temps (.reduceTemp reply.jobId random) trivial (hown _ rfl) _ hread
  | returned result => exact fun hresult => (h hresult).keeps hkeeps

theorem Fits.read_temp {reply : ExampleReply} {progress : Progress}
    (h : app.Fits files nReduce dir reply progress) (htemp : origin ∈ progress.temp reply.jobId) :
    ∃ text, dir.read origin.name = some text := by
  cases progress with
  | encoding file random pairs imap =>
      obtain ⟨_, _, _, _, encoded, _, hread⟩ := h
      cases htemp
      exact ⟨_, hread⟩
  | printing random lines =>
      obtain ⟨_, pairs, printed, _, _, hread⟩ := h
      cases htemp
      exact ⟨_, hread⟩
  | entered | mapping | reading | returned => cases htemp

/-- A worker that reports success has done its job. -/
theorem Fits.jobDone {reply : ExampleReply} {assignment : Option Nat} {progress : Progress}
    {result : Bool} (h : app.Fits files nReduce dir reply progress)
    (hreturns : (WorkerState.processing reply assignment).Returns progress result)
    (hsuccess : (processJob reply result).2 = true) :
    app.JobDone files nReduce dir reply.jobType (reply.jobId : Int).toNat := by
  have hdone (htype : reply.jobType = .mapJob ∨ reply.jobType = .reduceJob)
      (hresult : result = true) : app.JobDone files nReduce dir reply.jobType reply.jobId := by
    have hreturned := hreturns htype
    cases progress with
    | returned other =>
        cases hreturned
        exact h hresult
    | entered | mapping | encoding | reading | printing => cases hreturned
  rw [Int.toNat_natCast]
  unfold processJob at hsuccess
  cases htype : reply.jobType with
  | mapJob =>
      rw [htype] at hsuccess hdone
      exact hdone (.inl rfl) hsuccess
  | reduceJob =>
      rw [htype] at hsuccess hdone
      exact hdone (.inr rfl) hsuccess
  | unknownJob | terminalJob | waitJob => trivial

/-! ## What a reduce job finds -/

theorem lt_of_mapPart {mapId index : Nat} (h : app.mapPart files nReduce mapId index ≠ []) :
    mapId < files.length := by
  by_contra hlong
  refine h ?_
  rw [mapPart, kva, List.getElem?_eq_none (Nat.not_lt.mp hlong)]
  rfl

/-- The map job of a file that a reduce job finds. -/
def mapIdOf (jobId : Nat) : Origin → Option Nat
  | .interMediate mapId index => if index = jobId then some mapId else none
  | .output _ | .mapTemp _ _ _ | .reduceTemp _ _ => none

theorem mapIdOf_eq_some {jobId mapId : Nat} :
    mapIdOf jobId origin = some mapId ↔ origin = .interMediate mapId jobId := by
  cases origin with
  | interMediate other index =>
      simp only [mapIdOf, Option.ite_none_right_eq_some, Option.some.injEq,
        Origin.interMediate.injEq]
      exact and_comm
  | output | mapTemp | reduceTemp => simp [mapIdOf]

theorem flatMap_expected {jobId : Nat} {origins : List Origin} (hjob : jobId < 10)
    (h : ∀ origin ∈ origins, origin.back = itoa jobId) :
    origins.flatMap (app.expected files nReduce) =
      (origins.filterMap (mapIdOf jobId)).flatMap fun mapId =>
        app.mapPart files nReduce mapId jobId := by
  induction origins with
  | nil => rfl
  | cons first rest ih =>
      have hrest := ih fun origin horigin => h origin (List.mem_cons_of_mem _ horigin)
      rcases Origin.cases_of_back hjob (h first List.mem_cons_self) with ⟨mapId, rfl⟩ | rfl
      · rw [List.filterMap_cons_some (mapIdOf_eq_some.mpr rfl), List.flatMap_cons,
          List.flatMap_cons, hrest]
        rfl
      · rw [List.filterMap_cons_none rfl, List.flatMap_cons, hrest]
        rfl

theorem nodup_selected (dir : Directory) (jobId : Nat) :
    ((dir.selected jobId).map File.origin).Nodup := by
  refine List.Nodup.of_map Origin.name ?_
  rw [List.map_map, Directory.selected_eq]
  refine ((perm_byName _).map _).nodup_iff.mpr ?_
  exact dir.nodup.sublist (List.filter_sublist.map _)

/-- After the map phase the pattern finds the whole part. -/
theorem selected_perm {jobId : Nat} (hten : nReduce ≤ 10) (hjob : jobId < nReduce)
    (hmaps : ∀ mapId < files.length, app.JobDone files nReduce dir .mapJob mapId) :
    (((dir.selected jobId).map File.origin).flatMap (app.expected files nReduce)).Perm
      (app.partPairs files nReduce jobId) := by
  have hback : ∀ origin ∈ (dir.selected jobId).map File.origin, origin.back = itoa jobId := by
    intro origin horigin
    obtain ⟨file, hfile, rfl⟩ := List.mem_map.mp horigin
    exact (Directory.mem_selected.mp hfile).2
  have hlt : jobId < 10 := by omega
  rw [flatMap_expected hlt hback, partPairs]
  refine Grouping.flatMap_perm_of_mem_iff ?_ List.nodup_range fun mapId hpart => ?_
  · refine (nodup_selected dir jobId).filterMap fun first second mapId hfirst hsecond => ?_
    rw [mapIdOf_eq_some.mp hfirst, mapIdOf_eq_some.mp hsecond]
  · refine iff_of_true ?_ (List.mem_range.mpr (lt_of_mapPart hpart))
    -- the file is there, so the pattern finds it
    obtain ⟨text, hread⟩ :=
      Option.isSome_iff_exists.mp ((hmaps mapId (lt_of_mapPart hpart)).2 jobId hjob hpart)
    obtain ⟨file, hfile, hname, _⟩ := Directory.read_eq_some.mp hread
    have hfound : file.origin.back = itoa jobId := (Origin.back_eq_of_name hname).2
    refine List.mem_filterMap.mpr ⟨file.origin, List.mem_map.mpr ⟨file, ?_, rfl⟩, ?_⟩
    · exact Directory.mem_selected.mpr ⟨hfile, hfound⟩
    · rw [mapIdOf_eq_some]
      rcases Origin.cases_of_back hlt hfound with ⟨other, horigin⟩ | horigin
      · rw [horigin] at hname ⊢
        rw [(Origin.interMediate_name_inj hname).1]
      · rw [horigin] at hname
        exact absurd hname.symm (Origin.interMediate_name_ne_output mapId jobId jobId)

/-- A file that a reduce job has found gives what it should. -/
theorem decode_perm_expected {jobId : Nat} {text : String} (hten : nReduce ≤ 10)
    (hjob : jobId < nReduce) (hquiet : app.Quiet files nReduce)
    (hcomplete : app.Complete files nReduce dir) (hback : origin.back = itoa jobId)
    (hread : dir.read origin.name = some text) :
    (app.decode text).Perm (app.expected files nReduce origin) := by
  rcases Origin.cases_of_back (by omega) hback with ⟨mapId, rfl⟩ | rfl
  · obtain ⟨pairs, hpairs, rfl⟩ := hcomplete.interMediates mapId jobId text hjob hread
    rw [encodeAll, app.decode_encode]
    exact hpairs
  · obtain ⟨pairs, hpairs, rfl⟩ := hcomplete.outputs jobId text hjob hread
    rw [hquiet jobId pairs hjob hpairs]
    exact .nil

/-! ## One call -/

theorem encodeAll_concat (pairs : List KeyValue) (pair : KeyValue) :
    app.encodeAll (pairs ++ [pair]) = app.encodeAll pairs ++ app.encode pair := by
  simp [encodeAll, String.join_append]

theorem printText_append (lines lines' : List Line) :
    printText (lines ++ lines') = printText lines ++ printText lines' := by
  simp [printText, String.join_append]

variable {reply : ExampleReply} {progress progress' : Progress}

/-- The directory is still complete, the others find what they had, the worker's own progress
is in the directory, and its temporary file is the one it had or a new one. -/
structure Advances (app : App) (files : List String) (nReduce : Nat) (dir : Directory)
    (reply : ExampleReply) (progress : Progress) (dir' : Directory) (progress' : Progress) :
    Prop where
  complete : app.Complete files nReduce dir'
  keeps : Keeps nReduce (progress.temp reply.jobId) dir dir'
  fits : app.Fits files nReduce dir' reply progress'
  own : ∀ temp ∈ progress'.temp reply.jobId,
    temp ∈ progress.temp reply.jobId ∨ dir.read temp.name = none

theorem mem_imap {imap : List InterMediateFile} {k : Nat} {file other : InterMediateFile}
    (hfile : imap[k]? = some file) : other ∈ file :: imap.eraseIdx k ↔ other ∈ imap := by
  obtain ⟨hk, rfl⟩ := List.getElem?_eq_some_iff.mp hfile
  exact (List.getElem_cons_eraseIdx_perm hk).mem_iff

theorem part_index_lt (hreduce : 1 ≤ nReduce) {jobId : Nat} {kva : List KeyValue}
    {file : InterMediateFile} (h : file ∈ processMapJob nReduce jobId kva) :
    file.index < nReduce := by
  obtain ⟨_, hne, hpairs⟩ := mem_processMapJob.mp h
  obtain ⟨pair, hpair⟩ := List.exists_mem_of_ne_nil _ hne
  rw [hpairs] at hpair
  have hindex := of_decide_eq_true (List.mem_filter.mp hpair).2
  rw [← hindex]
  exact part_lt hreduce pair.key

section

variable (hten : nReduce ≤ 10) (hcomplete : app.Complete files nReduce dir)

include hcomplete

theorem advances_openedInput {content : String} {kva : List KeyValue} (hreduce : 1 ≤ nReduce)
    (htype : reply.jobType = .mapJob)
    (hserved : files[reply.jobId]? = some reply.mapJobFileName ∧ reply.nReduce = nReduce)
    (hinput : app.inputs reply.mapJobFileName = some content)
    (hkva : kva.Perm (app.mapf reply.mapJobFileName content)) :
    app.Advances files nReduce dir reply .entered dir
      (.mapping (processMapJob reply.nReduce reply.jobId kva)) := by
  obtain ⟨hfile, hcount⟩ := hserved
  have hoption : app.kva files reply.jobId = some (app.mapf reply.mapJobFileName content) := by
    rw [App.kva, hfile, Option.bind_some, hinput]
    rfl
  have hpart (index : Nat) : (kva.filter fun pair => part nReduce pair.key = index).Perm
      (app.mapPart files nReduce reply.jobId index) := by
    rw [mapPart, hoption]
    exact hkva.filter _
  refine ⟨hcomplete, Keeps.refl _ dir, ⟨htype, by rw [hoption]; rfl, ?_, ?_⟩,
    by simp [Progress.temp]⟩
  · intro file hmem
    rw [hcount] at hmem
    refine ⟨part_index_lt hreduce hmem, ?_⟩
    rw [(mem_processMapJob.mp hmem).2.2]
    exact hpart file.index
  · intro index hindex
    by_cases hnone : kva.filter (fun pair => part nReduce pair.key = index) = []
    · refine .inr fun hne => absurd ?_ hne
      rw [← List.nil_perm, ← hnone]
      exact hpart index
    · refine .inl ⟨⟨reply.jobId, index,
        kva.filter fun pair => part nReduce pair.key = index⟩, ?_, rfl⟩
      rw [hcount]
      exact mem_processMapJob.mpr ⟨rfl, hnone, rfl⟩

theorem advances_leftLoop (hfits : app.Fits files nReduce dir reply (.mapping [])) :
    app.Advances files nReduce dir reply (.mapping []) dir (.returned true) := by
  obtain ⟨htype, hkva, _, hwritten⟩ := hfits
  refine ⟨hcomplete, Keeps.refl _ dir, fun _ => ?_, by simp [Progress.temp]⟩
  rw [htype]
  refine ⟨hkva, fun index hindex => ?_⟩
  rcases hwritten index hindex with ⟨file, hfile, _⟩ | hold
  · cases hfile
  · exact hold

include hten

theorem advances_createdInterMediate {imap : List InterMediateFile} {k : Nat}
    {file : InterMediateFile} {random : Decimal} (hfile : imap[k]? = some file)
    (hcreate : dir.create (.mapTemp reply.jobId file.index random) = some dir')
    (hfits : app.Fits files nReduce dir reply (.mapping imap)) :
    app.Advances files nReduce dir reply (.mapping imap) dir'
      (.encoding file random file.pairs (imap.eraseIdx k)) := by
  have htemp : (Origin.mapTemp reply.jobId file.index random).IsTemp := trivial
  obtain ⟨hnew, hread⟩ := Directory.create_eq_some hcreate
  have hkeeps := keeps_create hten htemp hcreate none
  obtain ⟨htype, hkva, himap, hwritten⟩ := hfits
  refine ⟨(sameFinals_create hten htemp hcreate).complete hcomplete, hkeeps,
    ⟨htype, hkva, ?_, ?_, [], rfl, ?_⟩, ?_⟩
  · intro other hother
    exact himap other ((mem_imap hfile).mp hother)
  · intro index hindex
    rcases hwritten index hindex with ⟨other, hother, heq⟩ | hold
    · exact .inl ⟨other, (mem_imap hfile).mpr hother, heq⟩
    · exact .inr (hold.keeps hkeeps hindex)
  · rw [hread, if_pos rfl]
    rfl
  · intro temp hown
    cases hown
    exact .inr hnew

theorem advances_encoded {file : InterMediateFile} {random : Decimal} {pair : KeyValue}
    {pairs : List KeyValue} {imap : List InterMediateFile}
    (hfits : app.Fits files nReduce dir reply (.encoding file random (pair :: pairs) imap)) :
    app.Advances files nReduce dir reply (.encoding file random (pair :: pairs) imap)
      (dir.write (Origin.mapTemp reply.jobId file.index random).name (app.encode pair))
      (.encoding file random pairs imap) := by
  have htemp : (Origin.mapTemp reply.jobId file.index random).IsTemp := trivial
  have hkeeps := keeps_write dir hten htemp (app.encode pair)
  obtain ⟨htype, hkva, himap, hwritten, encoded, hpairs, hread⟩ := hfits
  refine ⟨(sameFinals_write hten htemp _).complete hcomplete, hkeeps,
    ⟨htype, hkva, himap, ?_, encoded ++ [pair], ?_, ?_⟩, fun temp hown => .inl hown⟩
  · intro index hindex
    exact (hwritten index hindex).imp_right fun hold => hold.keeps hkeeps hindex
  · rw [List.append_assoc]
    exact hpairs
  · rw [Directory.read_write, if_pos rfl, hread, encodeAll_concat]
    rfl

/-- The file that is renamed holds the whole part. -/
theorem advances_renamedInterMediate {file : InterMediateFile} {random : Decimal}
    {imap : List InterMediateFile}
    (hrename : dir.rename (Origin.mapTemp reply.jobId file.index random).name
      (.interMediate reply.jobId file.index) = some dir')
    (hfits : app.Fits files nReduce dir reply (.encoding file random [] imap)) :
    app.Advances files nReduce dir reply (.encoding file random [] imap) dir' (.mapping imap) := by
  have htemp : (Origin.mapTemp reply.jobId file.index random).IsTemp := trivial
  obtain ⟨htype, hkva, himap, hwritten, encoded, hpairs, hread⟩ := hfits
  obtain ⟨hindex, hpart⟩ := himap file List.mem_cons_self
  rw [List.append_nil] at hpairs
  rw [hpairs] at hread
  have hkeeps := Keeps.rename_interMediate hten hindex htemp hrename hread
  refine ⟨hcomplete.rename_interMediate hten hindex htemp hrename hread hpart, hkeeps,
    ⟨htype, hkva, fun other hother => himap other (List.mem_cons_of_mem _ hother), ?_⟩,
    by simp [Progress.temp]⟩
  intro index hlt
  rcases hwritten index hlt with ⟨other, hother, rfl⟩ | hold
  · rcases List.mem_cons.mp hother with rfl | hrest
    · refine .inr fun _ => ?_
      rw [read_interMediate_self hten hindex htemp hrename hread]
      rfl
    · exact .inl ⟨other, hrest, rfl⟩
  · exact .inr (hold.keeps hkeeps hlt)

/-- Without files there is nothing to reduce. -/
theorem advances_foundNone (htype : reply.jobType = .reduceJob) (hjob : reply.jobId < nReduce)
    (hmaps : ∀ mapId < files.length, app.JobDone files nReduce dir .mapJob mapId)
    (hnone : dir.selected reply.jobId = []) :
    app.Advances files nReduce dir reply .entered dir (.returned true) := by
  refine ⟨hcomplete, Keeps.refl _ dir, fun _ => ?_, by simp [Progress.temp]⟩
  have hperm := selected_perm hten hjob hmaps
  rw [hnone] at hperm
  rw [htype]
  exact ⟨hjob, .inr (List.nil_perm.mp hperm)⟩

theorem advances_found (htype : reply.jobType = .reduceJob) (hjob : reply.jobId < nReduce)
    (hmaps : ∀ mapId < files.length, app.JobDone files nReduce dir .mapJob mapId) :
    app.Advances files nReduce dir reply .entered dir
      (.reading ((dir.selected reply.jobId).map fun file => file.origin.name) []) := by
  refine ⟨hcomplete, Keeps.refl _ dir,
    ⟨htype, (dir.selected reply.jobId).map File.origin, ?_, ?_, ?_⟩, by simp [Progress.temp]⟩
  · rw [List.map_map]
    rfl
  · intro origin horigin
    obtain ⟨file, hfile, rfl⟩ := List.mem_map.mp horigin
    exact (Directory.mem_selected.mp hfile).2
  · exact selected_perm hten hjob hmaps

theorem advances_openedFile {name : Name} {text : String} {names : List Name}
    {tempPairs : List KeyValue} (hquiet : app.Quiet files nReduce) (hjob : reply.jobId < nReduce)
    (hread : dir.read name = some text)
    (hfits : app.Fits files nReduce dir reply (.reading (name :: names) tempPairs)) :
    app.Advances files nReduce dir reply (.reading (name :: names) tempPairs) dir
      (.reading names (tempPairs ++ app.decode text)) := by
  obtain ⟨htype, origins, hnames, hback, hperm⟩ := hfits
  refine ⟨hcomplete, Keeps.refl _ dir, ⟨htype, ?_⟩, by simp [Progress.temp]⟩
  cases origins with
  | nil => cases hnames
  | cons first rest =>
      obtain ⟨rfl, rfl⟩ := List.cons.inj hnames
      refine ⟨rest, rfl, fun origin horigin => hback origin (List.mem_cons_of_mem _ horigin), ?_⟩
      have hdecoded :=
        decode_perm_expected hten hjob hquiet hcomplete (hback first List.mem_cons_self) hread
      rw [List.append_assoc]
      exact ((hdecoded.append_right _).append_left _).trans hperm

theorem advances_createdOutput {random : Decimal} {tempPairs : List KeyValue}
    (hcreate : dir.create (.reduceTemp reply.jobId random) = some dir')
    (hfits : app.Fits files nReduce dir reply (.reading [] tempPairs)) :
    app.Advances files nReduce dir reply (.reading [] tempPairs) dir'
      (.printing random (app.lines tempPairs)) := by
  have htemp : (Origin.reduceTemp reply.jobId random).IsTemp := trivial
  obtain ⟨hnew, hread⟩ := Directory.create_eq_some hcreate
  obtain ⟨htype, origins, hnames, _, hperm⟩ := hfits
  obtain rfl : origins = [] := List.map_eq_nil_iff.mp hnames.symm
  rw [List.flatMap_nil, List.append_nil] at hperm
  refine ⟨(sameFinals_create hten htemp hcreate).complete hcomplete,
    keeps_create hten htemp hcreate none, ⟨htype, tempPairs, [], hperm, rfl, ?_⟩, ?_⟩
  · rw [hread, if_pos rfl]
    rfl
  · intro temp hown
    cases hown
    exact .inr hnew

theorem advances_printed {random : Decimal} {line : Line} {lines : List Line}
    (hfits : app.Fits files nReduce dir reply (.printing random (line :: lines))) :
    app.Advances files nReduce dir reply (.printing random (line :: lines))
      (dir.write (Origin.reduceTemp reply.jobId random).name (printText [line]))
      (.printing random lines) := by
  have htemp : (Origin.reduceTemp reply.jobId random).IsTemp := trivial
  obtain ⟨htype, pairs, printed, hperm, hlines, hread⟩ := hfits
  refine ⟨(sameFinals_write hten htemp _).complete hcomplete, keeps_write dir hten htemp _,
    ⟨htype, pairs, printed ++ [line], hperm, ?_, ?_⟩, fun temp hown => .inl hown⟩
  · rw [List.append_assoc]
    exact hlines
  · rw [Directory.read_write, if_pos rfl, hread, printText_append]
    rfl

theorem advances_renamedOutput {random : Decimal} (hjob : reply.jobId < nReduce)
    (hrename : dir.rename (Origin.reduceTemp reply.jobId random).name (.output reply.jobId) =
      some dir')
    (hfits : app.Fits files nReduce dir reply (.printing random [])) :
    app.Advances files nReduce dir reply (.printing random []) dir' (.returned true) := by
  have htemp : (Origin.reduceTemp reply.jobId random).IsTemp := trivial
  obtain ⟨htype, pairs, printed, hperm, hlines, hread⟩ := hfits
  rw [List.append_nil] at hlines
  rw [hlines] at hread
  refine ⟨hcomplete.rename_output hten hjob htemp hrename hread hperm,
    Keeps.rename_output hten hjob htemp hrename hread, fun _ => ?_, by simp [Progress.temp]⟩
  rw [htype]
  refine ⟨hjob, .inl ?_⟩
  rw [read_output_self hten hjob htemp hrename hread]
  rfl

theorem advances_failed (progress : Progress) (torn : String) :
    app.Advances files nReduce dir reply progress
      (dir.writeTorn (progress.temp reply.jobId) torn) (.returned false) := by
  have hfits (dir : Directory) : app.Fits files nReduce dir reply (.returned false) := by
    intro h
    cases h
  cases progress with
  | encoding file random pairs imap =>
      have htemp : (Origin.mapTemp reply.jobId file.index random).IsTemp := trivial
      exact ⟨(sameFinals_write hten htemp torn).complete hcomplete, keeps_write dir hten htemp torn,
        hfits _, by simp [Progress.temp]⟩
  | printing random lines =>
      have htemp : (Origin.reduceTemp reply.jobId random).IsTemp := trivial
      exact ⟨(sameFinals_write hten htemp torn).complete hcomplete, keeps_write dir hten htemp torn,
        hfits _, by simp [Progress.temp]⟩
  | entered | mapping | reading | returned =>
      exact ⟨hcomplete, Keeps.refl _ dir, hfits _, by simp [Progress.temp]⟩

end

theorem Called.advances (hreduce : 1 ≤ nReduce) (hten : nReduce ≤ 10)
    (hquiet : app.Quiet files nReduce)
    (hmap : reply.jobType = .mapJob →
      files[reply.jobId]? = some reply.mapJobFileName ∧ reply.nReduce = nReduce)
    (hreduces : reply.jobType = .reduceJob → reply.jobId < nReduce ∧
      ∀ mapId < files.length, app.JobDone files nReduce dir .mapJob mapId)
    (hcomplete : app.Complete files nReduce dir) (hfits : app.Fits files nReduce dir reply progress)
    (h : app.Called dir reply progress dir' progress') :
    app.Advances files nReduce dir reply progress dir' progress' := by
  cases h with
  | gaveUp =>
      refine ⟨hcomplete, Keeps.refl _ dir, ?_, by simp [Progress.temp]⟩
      intro hresult
      cases hresult
  | failed _ torn => exact advances_failed hten hcomplete progress torn
  | openedInput htype hinput hkva =>
      exact advances_openedInput hcomplete hreduce htype (hmap htype) hinput hkva
  | createdInterMediate hfile hcreate =>
      exact advances_createdInterMediate hten hcomplete hfile hcreate hfits
  | encoded => exact advances_encoded hten hcomplete hfits
  | renamedInterMediate hrename => exact advances_renamedInterMediate hten hcomplete hrename hfits
  | leftLoop => exact advances_leftLoop hcomplete hfits
  | foundNone htype hnone =>
      obtain ⟨hjob, hmaps⟩ := hreduces htype
      exact advances_foundNone hten hcomplete htype hjob hmaps hnone
  | found htype =>
      obtain ⟨hjob, hmaps⟩ := hreduces htype
      exact advances_found hten hcomplete htype hjob hmaps
  | openedFile hread =>
      exact advances_openedFile hten hcomplete hquiet (hreduces hfits.1).1 hread hfits
  | createdOutput hcreate => exact advances_createdOutput hten hcomplete hcreate hfits
  | printed => exact advances_printed hten hcomplete hfits
  | renamedOutput hrename =>
      exact advances_renamedOutput hten hcomplete (hreduces hfits.1).1 hrename hfits

end

end App

end DistributedLabs.MapReduce
