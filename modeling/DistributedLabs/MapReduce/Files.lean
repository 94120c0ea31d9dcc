import DistributedLabs.Library.Glob
import DistributedLabs.MapReduce.Dataflow
import Mathlib.Data.List.Flatten
import Mathlib.Data.List.Lex
import Mathlib.Data.List.Sort

/-!
# The files of the workers

All workers share one directory.  It holds the intermediate files, the output files, and
temporary files that were never renamed, because their worker was too slow or crashed.  A
reduce job finds its input by the pattern `mr-*-Y`.  The names are the texts that
`fmt.Sprintf` makes from the templates; `os.CreateTemp` appends digits to the name it is
given.
-/

namespace DistributedLabs.MapReduce

open DistributedLabs.Library

/-! ## Names -/

abbrev Name := List Char

/-- `strconv.Itoa` -/
def itoa (n : Nat) : Name :=
  Nat.toDigits 10 n

/-- `mr-%s-%s` -/
def mapInterMediateTemplate (first second : Name) : Name :=
  ['m', 'r', '-'] ++ first ++ '-' :: second

/-- `mr-out-%s` -/
def reduceFileTemplate (first : Name) : Name :=
  ['m', 'r', '-', 'o', 'u', 't', '-'] ++ first

/-- What `os.CreateTemp` appends. -/
structure Decimal where
  chars : Name
  ne_nil : chars ≠ []
  digits : chars.all Char.isDigit = true

/-- How a file came about. -/
inductive Origin where
  | interMediate (jobId index : Nat)
  | mapTemp (jobId index : Nat) (random : Decimal)
  | output (jobId : Nat)
  | reduceTemp (jobId : Nat) (random : Decimal)

namespace Origin

def name : Origin → Name
  | .interMediate jobId index => mapInterMediateTemplate (itoa jobId) (itoa index)
  | .mapTemp jobId index random =>
      mapInterMediateTemplate (itoa jobId) (itoa index) ++ random.chars
  | .output jobId => reduceFileTemplate (itoa jobId)
  | .reduceTemp jobId random => reduceFileTemplate (itoa jobId) ++ random.chars

/-- What stands in the place of the map job. -/
def front : Origin → Name
  | .interMediate jobId _ | .mapTemp jobId _ _ => itoa jobId
  | .output _ | .reduceTemp _ _ => ['o', 'u', 't']

/-- What stands in the place of the reduce job. -/
def back : Origin → Name
  | .interMediate _ index => itoa index
  | .mapTemp _ index random => itoa index ++ random.chars
  | .output jobId => itoa jobId
  | .reduceTemp jobId random => itoa jobId ++ random.chars

end Origin

structure File where
  origin : Origin
  text : String

/-! ## The directory -/

/-- No two files have the same name. -/
structure Directory where
  files : List File
  nodup : (files.map fun file => file.origin.name).Nodup

/-- A pattern as `filepath.Glob` reads it, when a star is its only special character. -/
def parsePattern (pattern : Name) : List (Glob.Token Char) :=
  pattern.map fun c => if c = '*' then .star else .char c

/-- Files in the order of their names. -/
def byName (files : List File) : List File :=
  files.insertionSort fun first second => first.origin.name ≤ second.origin.name

namespace Directory

def glob (dir : Directory) (pattern : Name) : List File :=
  byName (dir.files.filter fun file =>
    Glob.matchesPattern '/' (parsePattern pattern) file.origin.name)

/-- The files that the reduce job opens. -/
def selected (dir : Directory) (jobId : Nat) : List File :=
  dir.glob (mapInterMediateTemplate ['*'] (itoa jobId))

/-- The other files than the output file. -/
def withoutOutput (dir : Directory) (jobId : Nat) : Directory where
  files := dir.files.filter fun file => file.origin.name ≠ (Origin.output jobId).name
  nodup := dir.nodup.sublist (List.filter_sublist.map _)

/-- `os.Rename` to the output file, in place of a file of that name. -/
def writeOutput (dir : Directory) (jobId : Nat) (text : String) : Directory where
  files := (dir.withoutOutput jobId).files ++ [⟨.output jobId, text⟩]
  nodup := by
    rw [List.map_append, List.nodup_append]
    refine ⟨(dir.withoutOutput jobId).nodup, List.nodup_singleton _, ?_⟩
    intro name hname other hother
    obtain ⟨file, hfile, rfl⟩ := List.mem_map.mp hname
    rw [List.mem_singleton.mp hother]
    exact of_decide_eq_true (List.mem_filter.mp hfile).2

def outputText (dir : Directory) (jobId : Nat) : Option String :=
  (dir.files.find? fun file => file.origin.name = (Origin.output jobId).name).map File.text

end Directory

/-- `%v %v\n` for each line. -/
def printText (lines : List Line) : String :=
  String.join (lines.map fun line => line.key ++ " " ++ line.output ++ "\n")

/-- The pairs that are decoded from each file until an error. -/
def readPairs (decode : String → List KeyValue) (files : List File) : List KeyValue :=
  files.flatMap fun file => decode file.text

/-- `processJob` for a reduce job, when no call of the file system fails. -/
def Directory.reduceJob (decode : String → List KeyValue) (sort : ByKeySort)
    (reducef : String → List String → String) (dir : Directory) (jobId : Nat) : Directory :=
  let files := dir.selected jobId
  if files.length = 0 then dir
  else
    let tempPairs := sort.sort (readPairs decode files)
    dir.writeOutput jobId (printText (printLines reducef (reduceCalls tempPairs 0)))

/-! ## What the pattern finds -/

theorem isDigit_of_mem_itoa {n : Nat} {c : Char} (h : c ∈ itoa n) : c.isDigit = true :=
  Nat.isDigit_of_mem_toDigits (by decide) (by decide) h

theorem itoa_injective : Function.Injective itoa := by
  intro m n h
  rw [← Nat.ofDigitChars_ten_toDigits (n := m), ← Nat.ofDigitChars_ten_toDigits (n := n)]
  exact congrArg _ h

/-- A character that is no digit does not occur in a number. -/
theorem notMem_itoa {c : Char} (hc : c.isDigit = false) (n : Nat) : c ∉ itoa n := by
  intro hmem
  rw [isDigit_of_mem_itoa hmem] at hc
  cases hc

theorem notMem_itoa_append {c : Char} (hc : c.isDigit = false) (n : Nat) (random : Decimal) :
    c ∉ itoa n ++ random.chars := by
  rw [List.mem_append, not_or]
  refine ⟨notMem_itoa hc n, fun hmem => ?_⟩
  rw [List.all_eq_true.mp random.digits c hmem] at hc
  cases hc

namespace Origin

theorem name_eq (origin : Origin) :
    origin.name = mapInterMediateTemplate origin.front origin.back := by
  cases origin with
  | interMediate | output => rfl
  | mapTemp | reduceTemp =>
      simp [name, front, back, mapInterMediateTemplate, reduceFileTemplate]

theorem dash_notMem_back (origin : Origin) : '-' ∉ origin.back := by
  cases origin with
  | interMediate | output => exact notMem_itoa (by decide) _
  | mapTemp | reduceTemp => exact notMem_itoa_append (by decide) _ _

theorem slash_notMem_front (origin : Origin) : '/' ∉ origin.front := by
  cases origin with
  | interMediate | mapTemp => exact notMem_itoa (by decide) _
  | output | reduceTemp => exact (by decide : '/' ∉ ['o', 'u', 't'])

end Origin

theorem mapInterMediateTemplate_inj {first first' second second' : Name} (h : '-' ∉ second)
    (h' : '-' ∉ second')
    (heq : mapInterMediateTemplate first second = mapInterMediateTemplate first' second') :
    first = first' ∧ second = second' := by
  unfold mapInterMediateTemplate at heq
  rw [List.append_assoc, List.append_assoc, List.append_cancel_left_eq] at heq
  exact Glob.split_last h h' heq

theorem parsePattern_eq_of_notMem {chars : Name} (h : '*' ∉ chars) :
    parsePattern chars = chars.map .char := by
  refine List.map_congr_left fun c hc => if_neg ?_
  rintro rfl
  exact h hc

/-- The pattern of a reduce job finds the names that end in its number. -/
theorem matches_iff (origin : Origin) (jobId : Nat) :
    Glob.matchesPattern '/' (parsePattern (mapInterMediateTemplate ['*'] (itoa jobId)))
        origin.name = true ↔ origin.back = itoa jobId := by
  have hpattern : parsePattern (mapInterMediateTemplate ['*'] (itoa jobId)) =
      ['m', 'r', '-'].map .char ++ .star :: ('-' :: itoa jobId).map .char := by
    have hplain : '*' ∉ '-' :: itoa jobId := by
      rw [List.mem_cons, not_or]
      exact ⟨by decide, notMem_itoa (by decide) jobId⟩
    rw [← parsePattern_eq_of_notMem hplain]
    rfl
  rw [hpattern, Glob.matchesPattern_between, origin.name_eq]
  constructor
  · rintro ⟨mid, _, hname⟩
    have htemplate : mapInterMediateTemplate origin.front origin.back =
        mapInterMediateTemplate mid (itoa jobId) := by
      rw [hname, mapInterMediateTemplate, List.append_assoc]
    exact (mapInterMediateTemplate_inj origin.dash_notMem_back
      (notMem_itoa (by decide) jobId) htemplate).2
  · intro hback
    refine ⟨origin.front, origin.slash_notMem_front, ?_⟩
    rw [hback, mapInterMediateTemplate, List.append_assoc]

/-- The file has the number of the reduce job behind its last dash and is not one of the
intermediate files of the job. -/
def Origin.Collides (jobId : Nat) : Origin → Prop
  | .interMediate _ _ => False
  | .mapTemp _ index random => itoa index ++ random.chars = itoa jobId
  | .output other => other = jobId
  | .reduceTemp other random => itoa other ++ random.chars = itoa jobId

instance (jobId : Nat) (origin : Origin) : Decidable (origin.Collides jobId) :=
  match origin with
  | .interMediate _ _ => instDecidableFalse
  | .mapTemp _ _ _ | .reduceTemp _ _ => inferInstanceAs (Decidable (_ = itoa jobId))
  | .output _ => inferInstanceAs (Decidable (_ = jobId))

theorem Origin.back_eq_iff (origin : Origin) (jobId : Nat) :
    origin.back = itoa jobId ↔
      (∃ mapId, origin = .interMediate mapId jobId) ∨ origin.Collides jobId := by
  cases origin with
  | interMediate mapId index => simp [back, Collides, itoa_injective.eq_iff]
  | output other => simp [back, Collides, itoa_injective.eq_iff]
  | mapTemp | reduceTemp => simp [back, Collides]

/-! ## Files in order -/

theorem perm_byName (files : List File) : (byName files).Perm files :=
  List.perm_insertionSort _ files

theorem pairwise_byName (files : List File) :
    (byName files).Pairwise fun first second => first.origin.name ≤ second.origin.name := by
  have : Std.Total fun first second : File => first.origin.name ≤ second.origin.name :=
    ⟨fun first second => le_total first.origin.name second.origin.name⟩
  have : IsTrans File fun first second => first.origin.name ≤ second.origin.name :=
    ⟨fun _ _ _ => le_trans⟩
  exact List.pairwise_insertionSort _ files

theorem eq_of_name {files : List File} (hnodup : (files.map fun file => file.origin.name).Nodup)
    {file other : File} (hfile : file ∈ files) (hother : other ∈ files)
    (hname : file.origin.name = other.origin.name) : file = other :=
  List.inj_on_of_nodup_map hnodup hfile hother hname

/-- Leaving files out does not change the order of the others. -/
theorem byName_filter {files : List File} (keep : File → Bool)
    (hnodup : (files.map fun file => file.origin.name).Nodup) :
    (byName files).filter keep = byName (files.filter keep) := by
  refine List.Perm.eq_of_pairwise ?_ ((pairwise_byName _).filter _) (pairwise_byName _) ?_
  · intro first second hfirst hsecond hle hge
    refine eq_of_name hnodup ?_ ?_ (le_antisymm hle hge)
    · exact (perm_byName _).mem_iff.mp (List.mem_filter.mp hfirst).1
    · exact (List.mem_filter.mp ((perm_byName _).mem_iff.mp hsecond)).1
  · exact ((perm_byName files).filter keep).trans (perm_byName _).symm

/-- The same is read without some of the files exactly if no pairs are decoded from them. -/
theorem readPairs_filter_iff {decode : String → List KeyValue} {files : List File}
    {keep : File → Bool} : readPairs decode (files.filter keep) = readPairs decode files ↔
      ∀ file ∈ files, keep file = false → decode file.text = [] := by
  induction files with
  | nil => simp
  | cons file files ih =>
      have hcons : readPairs decode (file :: files) = decode file.text ++ readPairs decode files :=
        rfl
      rw [List.forall_mem_cons, ← ih, hcons]
      cases hkeep : keep file with
      | true =>
          rw [List.filter_cons_of_pos hkeep, show readPairs decode (file :: files.filter keep) =
            decode file.text ++ readPairs decode (files.filter keep) from rfl]
          simp
      | false =>
          rw [List.filter_cons_of_neg (by simp [hkeep])]
          -- fewer files give no more pairs, so that a further one can give none
          have hfewer : (readPairs decode (files.filter keep)).length ≤
              (readPairs decode files).length := (List.filter_sublist.flatMap _).length_le
          constructor
          · intro hsame
            have hlength := congrArg List.length hsame
            rw [List.length_append] at hlength
            have hnone : decode file.text = [] := List.length_eq_zero_iff.mp (by omega)
            rw [hnone, List.nil_append] at hsame
            exact ⟨fun _ => hnone, hsame⟩
          · rintro ⟨hnone, hsame⟩
            rw [hnone rfl, hsame, List.nil_append]

/-! ## Reduce jobs in a clear directory -/

namespace Directory

variable {dir : Directory} {jobId : Nat}

/-- Nothing but the intermediate files of the job ends in its number. -/
def Clear (dir : Directory) (jobId : Nat) : Prop :=
  ∀ file ∈ dir.files, ¬file.origin.Collides jobId

instance (dir : Directory) (jobId : Nat) : Decidable (dir.Clear jobId) :=
  inferInstanceAs (Decidable (∀ file ∈ dir.files, ¬file.origin.Collides jobId))

theorem selected_eq (dir : Directory) (jobId : Nat) :
    dir.selected jobId = byName (dir.files.filter fun file => file.origin.back = itoa jobId) := by
  unfold selected glob
  refine congrArg byName (List.filter_congr fun file _ => ?_)
  rw [Bool.eq_iff_iff, matches_iff, decide_eq_true_iff]

theorem mem_selected {file : File} :
    file ∈ dir.selected jobId ↔ file ∈ dir.files ∧ file.origin.back = itoa jobId := by
  rw [selected_eq, (perm_byName _).mem_iff, List.mem_filter, decide_eq_true_iff]

theorem mem_selected_iff_of_clear (h : dir.Clear jobId) {file : File} (hfile : file ∈ dir.files) :
    file ∈ dir.selected jobId ↔ ∃ mapId, file.origin = .interMediate mapId jobId := by
  rw [mem_selected, file.origin.back_eq_iff jobId, and_iff_right hfile]
  exact or_iff_left (h file hfile)

/-- Without the output file, its other files are selected in the same order. -/
theorem selected_withoutOutput (dir : Directory) (jobId : Nat) :
    (dir.withoutOutput jobId).selected jobId = (dir.selected jobId).filter
      fun file => file.origin.name ≠ (Origin.output jobId).name := by
  rw [selected_eq, selected_eq, byName_filter _ (dir.nodup.sublist (List.filter_sublist.map _))]
  exact congrArg byName (List.filter_comm _ _ _)

theorem back_of_name {origin : Origin} (h : origin.name = (Origin.output jobId).name) :
    origin.back = itoa jobId := by
  rw [Origin.name_eq, Origin.name_eq] at h
  exact (mapInterMediateTemplate_inj origin.dash_notMem_back
    (Origin.output jobId).dash_notMem_back h).2

theorem outputText_eq_some {text : String} : dir.outputText jobId = some text ↔
    ∃ file ∈ dir.files, file.origin.name = (Origin.output jobId).name ∧ file.text = text := by
  unfold outputText
  rw [Option.map_eq_some_iff]
  constructor
  · rintro ⟨file, hfind, htext⟩
    exact ⟨file, List.mem_of_find?_eq_some hfind, by simpa using List.find?_some hfind, htext⟩
  · rintro ⟨file, hfile, hname, htext⟩
    cases hfind : dir.files.find? fun file => file.origin.name = (Origin.output jobId).name with
    | none => exact absurd (decide_eq_true hname) (List.find?_eq_none.mp hfind file hfile)
    | some found =>
        have hfound : found.origin.name = (Origin.output jobId).name := by
          simpa using List.find?_some hfind
        refine ⟨file, congrArg some ?_, htext⟩
        exact eq_of_name dir.nodup (List.mem_of_find?_eq_some hfind) hfile (hfound.trans hname.symm)

/-- A job reads the same with its output file as without it exactly if nothing is decoded from
that file. -/
theorem readPairs_withoutOutput_iff {decode : String → List KeyValue} {text : String}
    (htext : dir.outputText jobId = some text) :
    readPairs decode (dir.selected jobId) =
      readPairs decode ((dir.withoutOutput jobId).selected jobId) ↔ decode text = [] := by
  rw [eq_comm, selected_withoutOutput, readPairs_filter_iff]
  obtain ⟨output, houtput, hname, rfl⟩ := outputText_eq_some.mp htext
  constructor
  · intro hall
    exact hall output (mem_selected.mpr ⟨houtput, back_of_name hname⟩) (by simp [hname])
  · intro hnone file hfile hkeep
    have hsame : file.origin.name = (Origin.output jobId).name := by simpa using hkeep
    rw [eq_of_name dir.nodup (mem_selected.mp hfile).1 houtput (hsame.trans hname.symm)]
    exact hnone

theorem outputText_writeOutput (dir : Directory) (jobId : Nat) (text : String) :
    (dir.writeOutput jobId text).outputText jobId = some text := by
  refine outputText_eq_some.mpr ⟨⟨.output jobId, text⟩, ?_, rfl, rfl⟩
  exact List.mem_append_right _ (List.mem_singleton.mpr rfl)

variable {decode : String → List KeyValue} {sort : ByKeySort}
  {reducef : String → List String → String}

/-- What a job that finds files writes into the output file. -/
theorem outputText_reduceJob (hfound : (dir.selected jobId).length ≠ 0) :
    (dir.reduceJob decode sort reducef jobId).outputText jobId = some (printText
      (printLines reducef
        (reduceCalls (sort.sort (readPairs decode (dir.selected jobId))) 0))) := by
  unfold reduceJob
  rw [if_neg hfound]
  exact outputText_writeOutput dir jobId _

/-- The file that is to be written does not count as the output of a job that finds no files. -/
theorem selected_withoutOutput_ne {text : String}
    (h : ((dir.withoutOutput jobId).reduceJob decode sort reducef jobId).outputText jobId =
      some text) : ((dir.withoutOutput jobId).selected jobId).length ≠ 0 := by
  intro hnone
  have hsame : (dir.withoutOutput jobId).reduceJob decode sort reducef jobId =
      dir.withoutOutput jobId := if_pos hnone
  rw [hsame] at h
  obtain ⟨file, hfile, hname, _⟩ := outputText_eq_some.mp h
  exact of_decide_eq_true (List.mem_filter.mp hfile).2 hname

/-- The files that a reduce job opens are its intermediate files exactly if the directory is
clear.  In a directory with the output that the job has written there before, doing the job again
reads the same pairs and writes the same output exactly if nothing is decoded from the text of
that output. -/
theorem reduce_repeatable (decode : String → List KeyValue) (sort : ByKeySort)
    (reducef : String → List String → String) (dir : Directory) (jobId : Nat) :
    ((∀ file ∈ dir.files,
      file ∈ dir.selected jobId ↔ ∃ mapId, file.origin = .interMediate mapId jobId) ↔
      dir.Clear jobId) ∧
    ∀ text, dir.outputText jobId = some text →
      ((dir.withoutOutput jobId).reduceJob decode sort reducef jobId).outputText jobId =
        some text →
      ((readPairs decode (dir.selected jobId) =
          readPairs decode ((dir.withoutOutput jobId).selected jobId) ∧
        (dir.reduceJob decode sort reducef jobId).outputText jobId = some text) ↔
      decode text = []) := by
  constructor
  · refine ⟨fun hexact file hfile hcollides => ?_, fun hclear _ => mem_selected_iff_of_clear hclear⟩
    have hback := (file.origin.back_eq_iff jobId).mpr (.inr hcollides)
    obtain ⟨mapId, horigin⟩ := (hexact file hfile).mp (mem_selected.mpr ⟨hfile, hback⟩)
    rw [horigin] at hcollides
    exact hcollides
  · intro text htext hwritten
    rw [← readPairs_withoutOutput_iff htext, and_iff_left_iff_imp]
    intro hread
    have hfound : (dir.selected jobId).length ≠ 0 := by
      obtain ⟨output, houtput, hname, _⟩ := outputText_eq_some.mp htext
      exact Nat.ne_of_gt (List.length_pos_of_mem
        (mem_selected.mpr ⟨houtput, back_of_name hname⟩))
    rw [outputText_reduceJob (selected_withoutOutput_ne hwritten)] at hwritten
    rw [outputText_reduceJob hfound, hread]
    exact hwritten

end Directory

/-! ## Counting one word -/

/-- Sorting by insertion. -/
def ByKeySort.insertion : ByKeySort where
  sort pairs := pairs.insertionSort fun first second => first.key ≤ second.key
  perm pairs := List.perm_insertionSort _ pairs
  sorted pairs := by
    have : Std.Total fun first second : KeyValue => first.key ≤ second.key :=
      ⟨fun first second => le_total first.key second.key⟩
    have : IsTrans KeyValue fun first second => first.key ≤ second.key :=
      ⟨fun _ _ _ => le_trans⟩
    exact List.pairwise_insertionSort _ pairs

/-- The pair of a word as the JSON encoder writes it. -/
def wordText (word : String) : String :=
  "\x7b\"Key\":\"" ++ word ++ "\",\"Value\":\"1\"\x7d\n"

/-- What the JSON decoder gets out of the files for the words `tea` and `null`.  In the output
`null 1` it finds a value, which leaves the pair empty, and then a number, which is an error;
in `tea 1` it finds an error at once. -/
def decodeWord (text : String) : List KeyValue :=
  if text = wordText "tea" then [⟨"tea", "1"⟩]
  else if text = wordText "null" then [⟨"null", "1"⟩]
  else if text = "null 1\n" then [⟨"", ""⟩]
  else []

def countWord (dir : Directory) (jobId : Nat) : Directory :=
  dir.reduceJob decodeWord .insertion (fun _ values => toString values.length) jobId

/-- An intermediate file of the reduce job 1, a file that was never renamed, and the output of
the reduce job 0. -/
def cleared : Directory where
  files := [⟨.interMediate 0 1, wordText "tea"⟩, ⟨.mapTemp 0 1 ⟨['2', '3'], by simp, rfl⟩, ""⟩,
    ⟨.output 0, "null 1\n"⟩]
  nodup := by decide +kernel

/-- The reduce job 1 is done twice. -/
theorem reduce_repeatable_cleared :
    (∀ file ∈ cleared.files,
      file ∈ cleared.selected 1 ↔ ∃ mapId, file.origin = .interMediate mapId 1) ∧
    (countWord cleared 1).outputText 1 = some "tea 1\n" ∧
    readPairs decodeWord ((countWord cleared 1).selected 1) =
      readPairs decodeWord (((countWord cleared 1).withoutOutput 1).selected 1) ∧
    (countWord (countWord cleared 1) 1).outputText 1 = some "tea 1\n" := by
  have hclear : cleared.Clear 1 := by decide +kernel
  have houtput : (countWord cleared 1).outputText 1 = some "tea 1\n" := by decide +kernel
  have hwritten : (countWord ((countWord cleared 1).withoutOutput 1) 1).outputText 1 =
      some "tea 1\n" := by decide +kernel
  have hrepeatable := Directory.reduce_repeatable decodeWord .insertion
    fun _ values => toString values.length
  have hselected := (hrepeatable cleared 1).1.mpr hclear
  obtain ⟨hread, hagain⟩ := ((hrepeatable (countWord cleared 1) 1).2 _ houtput hwritten).mpr
    (by decide +kernel)
  exact ⟨hselected, houtput, hread, hagain⟩

/-- The intermediate file of the reduce job 0. -/
def nullWord : Directory where
  files := [⟨.interMediate 0 0, wordText "null"⟩]
  nodup := by decide +kernel

/-- A file for `mr-0-1` that was never renamed, to whose name a 2 was appended. -/
def leftover : Directory where
  files := [⟨.mapTemp 0 1 ⟨['2'], by simp, rfl⟩, wordText "tea"⟩]
  nodup := by decide +kernel

/-- Doing the reduce job 0 again, it reads its own output and writes another one.  The reduce
job 12 reads what was never renamed. -/
theorem reduce_reads_other_files :
    ((countWord nullWord 0).selected 0).map (fun file => file.origin.name) =
      ["mr-0-0".toList, "mr-out-0".toList] ∧
    (countWord nullWord 0).outputText 0 = some "null 1\n" ∧
    (countWord (countWord nullWord 0) 0).outputText 0 = some " 1\nnull 1\n" ∧
    (leftover.selected 12).map (fun file => file.origin.name) = ["mr-0-12".toList] := by
  refine ⟨?_, ?_, ?_, ?_⟩
  all_goals decide +kernel

/-! ## The files of the data flow -/

/-- The intermediate files of the directory and what is decoded from them. -/
def Directory.interMediates (decode : String → List KeyValue) (dir : Directory) :
    List InterMediateFile :=
  dir.files.filterMap fun file =>
    match file.origin with
    | .interMediate jobId index => some ⟨jobId, index, decode file.text⟩
    | .mapTemp _ _ _ | .output _ | .reduceTemp _ _ => none

/-- What the job reads from a file. -/
def File.read (decode : String → List KeyValue) (file : File) : InterMediateFile :=
  match file.origin with
  | .interMediate jobId index => ⟨jobId, index, decode file.text⟩
  | .mapTemp jobId index _ => ⟨jobId, index, decode file.text⟩
  | .output jobId | .reduceTemp jobId _ => ⟨0, jobId, decode file.text⟩

section

variable {dir : Directory} {jobId : Nat} (decode : String → List KeyValue) (sort : ByKeySort)
  (reducef : String → List String → String)

theorem File.read_pairs (file : File) : (file.read decode).pairs = decode file.text := by
  unfold File.read
  cases file.origin with
  | interMediate | mapTemp | output | reduceTemp => rfl

/-- The files that the job of a clear directory reads are those of its part. -/
theorem Directory.Clear.read_perm (h : dir.Clear jobId) :
    ((dir.selected jobId).map (File.read decode)).Perm
      (MapReduce.glob (dir.interMediates decode) jobId) := by
  rw [selected_eq]
  refine ((perm_byName _).map _).trans (List.Perm.of_eq ?_)
  rw [MapReduce.glob, interMediates, List.filter_filterMap, ← List.filterMap_eq_map,
    List.filterMap_filter]
  refine List.filterMap_congr fun file hfile => ?_
  have hback := file.origin.back_eq_iff jobId
  have hclear := h file hfile
  obtain ⟨origin, text⟩ := file
  cases origin with
  | interMediate mapId index =>
      by_cases hindex : index = jobId
      · simp [File.read, Origin.back, hindex, Option.filter]
      · simp [Origin.back, hindex, itoa_injective.eq_iff, Option.filter]
  | mapTemp | output | reduceTemp =>
      have hother := hback.not.mpr (by simpa using hclear)
      simp [hother]

/-- A job in a clear directory computes what the job of its part computes in the data flow. -/
theorem Directory.Clear.reduceJob_eq (h : dir.Clear jobId) : ∃ files : List InterMediateFile,
    files.Perm (MapReduce.glob (dir.interMediates decode) jobId) ∧
      dir.reduceJob decode sort reducef jobId =
        match processReduceJob sort reducef files with
        | none => dir
        | some lines => dir.writeOutput jobId (printText lines) := by
  refine ⟨_, h.read_perm decode, ?_⟩
  have hpairs : ((dir.selected jobId).map (File.read decode)).flatMap InterMediateFile.pairs =
      readPairs decode (dir.selected jobId) := by
    rw [List.flatMap_map]
    exact List.flatMap_congr fun file _ => file.read_pairs decode
  unfold processReduceJob jobCalls reduceJob
  rw [hpairs, List.length_map]
  dsimp only
  split
  · rfl
  · rfl

end

end DistributedLabs.MapReduce
