import DistributedLabs.MapReduce.Files

/-!
# Calls of the file system

What the workers do with the directory they share: create a temporary file, write at its end,
give it another name, and read a file.  A directory is determined by what is read under each
name.  With at most ten reduce jobs a temporary file never has the name of a finished one.
-/

namespace DistributedLabs.MapReduce

/-! ## Calls -/

namespace Directory

def read (dir : Directory) (name : Name) : Option String :=
  (dir.files.find? fun file => file.origin.name = name).map File.text

/-- A file in place of the file of that name. -/
def put (dir : Directory) (origin : Origin) (text : String) : Directory where
  files := (dir.files.filter fun file => file.origin.name ≠ origin.name) ++ [⟨origin, text⟩]
  nodup := by
    rw [List.map_append, List.nodup_append]
    refine ⟨dir.nodup.sublist (List.filter_sublist.map _), List.nodup_singleton _, ?_⟩
    intro name hname other hother
    obtain ⟨file, hfile, rfl⟩ := List.mem_map.mp hname
    rw [List.mem_singleton.mp hother]
    exact of_decide_eq_true (List.mem_filter.mp hfile).2

def remove (dir : Directory) (name : Name) : Directory where
  files := dir.files.filter fun file => file.origin.name ≠ name
  nodup := dir.nodup.sublist (List.filter_sublist.map _)

/-- `os.CreateTemp`, if there is no file of that name. -/
def create (dir : Directory) (origin : Origin) : Option Directory :=
  if (dir.read origin.name).isSome then none else some (dir.put origin "")

/-- A write to a file that has been opened under this name. -/
def write (dir : Directory) (name : Name) (text : String) : Directory where
  files := dir.files.map fun file =>
    if file.origin.name = name then { file with text := file.text ++ text } else file
  nodup := by
    have hnames : (fun file : File => file.origin.name) ∘ (fun file : File =>
        if file.origin.name = name then { file with text := file.text ++ text } else file) =
        fun file => file.origin.name := by
      funext file
      dsimp only [Function.comp]
      split
      · rfl
      · rfl
    rw [List.map_map, hnames]
    exact dir.nodup

/-- `os.Rename` -/
def rename (dir : Directory) (old : Name) (new : Origin) : Option Directory :=
  (dir.read old).map fun text => (dir.remove old).put new text

def empty : Directory where
  files := []
  nodup := List.nodup_nil

/-! ## What is read after a call -/

variable {dir dir' : Directory} {name : Name} {origin : Origin} {text : String}

theorem of_find {file : File}
    (h : dir.files.find? (fun file => file.origin.name = name) = some file) :
    file ∈ dir.files ∧ file.origin.name = name := by
  have hname := List.find?_some h
  exact ⟨List.mem_of_find?_eq_some h, of_decide_eq_true hname⟩

theorem read_eq_some :
    dir.read name = some text ↔ ∃ file ∈ dir.files, file.origin.name = name ∧ file.text = text := by
  constructor
  · intro hread
    obtain ⟨file, hfind, htext⟩ := Option.map_eq_some_iff.mp hread
    obtain ⟨hfile, hname⟩ := of_find hfind
    exact ⟨file, hfile, hname, htext⟩
  · rintro ⟨file, hfile, rfl, rfl⟩
    cases hfind : dir.files.find? fun other => other.origin.name = file.origin.name with
    | none =>
        have := List.find?_eq_none.mp hfind file hfile
        simp at this
    | some other =>
        obtain ⟨hother, hname⟩ := of_find hfind
        rw [read, hfind, eq_of_name dir.nodup hother hfile hname]
        rfl

theorem read_remove (dir : Directory) (old name : Name) :
    (dir.remove old).read name = if name = old then none else dir.read name := by
  unfold read remove
  rw [List.find?_filter]
  split
  · next hname =>
      rw [List.find?_eq_none.mpr]
      · rfl
      · intro file _
        simp [hname]
  · next hname =>
      congr 2
      funext file
      by_cases hfile : file.origin.name = name
      · simp [hfile, hname]
      · simp [hfile]

theorem read_put (dir : Directory) (origin : Origin) (text : String) (name : Name) :
    (dir.put origin text).read name = if name = origin.name then some text else dir.read name := by
  have hfiles : (dir.put origin text).files =
      (dir.remove origin.name).files ++ [⟨origin, text⟩] := rfl
  rw [read, hfiles, List.find?_append, Option.map_or]
  change ((dir.remove origin.name).read name).or _ = _
  rw [read_remove]
  split
  · next hname => simp [hname]
  · next hname => simp [Ne.symm hname]

theorem read_write (dir : Directory) (opened : Name) (text : String) (name : Name) :
    (dir.write opened text).read name =
      if name = opened then (dir.read name).map (· ++ text) else dir.read name := by
  unfold read write
  rw [List.find?_map, Option.map_map]
  have hsame : (fun file : File => decide (file.origin.name = name)) ∘ (fun file : File =>
      if file.origin.name = opened then { file with text := file.text ++ text } else file) =
      fun file => decide (file.origin.name = name) := by
    funext file
    dsimp only [Function.comp]
    split
    · rfl
    · rfl
  rw [hsame]
  cases hfind : dir.files.find? fun file => file.origin.name = name with
  | none => split <;> rfl
  | some file =>
      simp only [Option.map_some, Function.comp, (of_find hfind).2]
      split
      · rfl
      · rfl

theorem create_eq_some (h : dir.create origin = some dir') :
    dir.read origin.name = none ∧
      ∀ name, dir'.read name = if name = origin.name then some "" else dir.read name := by
  unfold create at h
  split at h
  · cases h
  · next hnew =>
      cases h
      exact ⟨Option.not_isSome_iff_eq_none.mp hnew, dir.read_put origin ""⟩

theorem rename_eq_some {old : Name} (h : dir.rename old origin = some dir') :
    ∃ text, dir.read old = some text ∧
      ∀ name, dir'.read name = if name = origin.name then some text
        else if name = old then none else dir.read name := by
  obtain ⟨text, hread, rfl⟩ := Option.map_eq_some_iff.mp h
  refine ⟨text, hread, fun name => ?_⟩
  rw [read_put, read_remove]

end Directory

/-! ## Names of temporary files -/

namespace Origin

/-- The file has not been given its last name. -/
def IsTemp : Origin → Prop
  | .mapTemp _ _ _ | .reduceTemp _ _ => True
  | .interMediate _ _ | .output _ => False

theorem IsTemp.one_lt_length {origin : Origin} (h : origin.IsTemp) : 1 < origin.back.length := by
  have hlong (n : Nat) (random : Decimal) : 1 < (itoa n ++ random.chars).length := by
    have hnumber : 0 < (itoa n).length := List.length_pos_iff.mpr Nat.toDigits_ne_nil
    have hrandom : 0 < random.chars.length := List.length_pos_iff.mpr random.ne_nil
    rw [List.length_append]
    omega
  cases origin with
  | mapTemp _ index random => exact hlong index random
  | reduceTemp jobId random => exact hlong jobId random
  | interMediate | output => cases h

theorem length_itoa {n : Nat} (h : n < 10) : (itoa n).length = 1 := by
  rw [itoa, Nat.toDigits_of_lt_base h]
  rfl

/-- A file that ends in a number of one digit has been given its last name. -/
theorem cases_of_back {origin : Origin} {jobId : Nat} (hjob : jobId < 10)
    (h : origin.back = itoa jobId) :
    (∃ mapId, origin = .interMediate mapId jobId) ∨ origin = .output jobId := by
  have hlength : origin.back.length = 1 := by
    rw [h]
    exact length_itoa hjob
  cases origin with
  | interMediate mapId index => exact .inl ⟨mapId, congrArg _ (itoa_injective h)⟩
  | output other => exact .inr (congrArg _ (itoa_injective h))
  | mapTemp mapId index random =>
      have htemp : (mapTemp mapId index random).IsTemp := trivial
      have := htemp.one_lt_length
      omega
  | reduceTemp other random =>
      have htemp : (reduceTemp other random).IsTemp := trivial
      have := htemp.one_lt_length
      omega

theorem back_eq_of_name {origin other : Origin} (h : origin.name = other.name) :
    origin.front = other.front ∧ origin.back = other.back := by
  rw [name_eq, name_eq] at h
  exact mapInterMediateTemplate_inj origin.dash_notMem_back other.dash_notMem_back h

theorem IsTemp.name_ne {origin other : Origin} {jobId : Nat} (h : origin.IsTemp)
    (hjob : jobId < 10) (hback : other.back = itoa jobId) : origin.name ≠ other.name := by
  intro hname
  have := h.one_lt_length
  rw [(back_eq_of_name hname).2, hback, length_itoa hjob] at this
  omega

theorem interMediate_name_inj {mapId mapId' index index' : Nat}
    (h : (interMediate mapId index).name = (interMediate mapId' index').name) :
    mapId = mapId' ∧ index = index' := by
  obtain ⟨hfront, hback⟩ := back_eq_of_name h
  exact ⟨itoa_injective hfront, itoa_injective hback⟩

theorem output_name_inj {jobId jobId' : Nat} (h : (output jobId).name = (output jobId').name) :
    jobId = jobId' :=
  itoa_injective (back_eq_of_name h).2

theorem interMediate_name_ne_output (mapId index jobId : Nat) :
    (interMediate mapId index).name ≠ (output jobId).name := by
  intro hname
  have hfront : itoa mapId = ['o', 'u', 't'] := (back_eq_of_name hname).1
  refine notMem_itoa (c := 'o') (by decide) mapId ?_
  rw [hfront]
  decide

end Origin

end DistributedLabs.MapReduce
