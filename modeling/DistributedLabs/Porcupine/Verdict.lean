import DistributedLabs.Models.Kv
import DistributedLabs.Porcupine.Simulation

/-!
# The verdict on one history

`checkSingle` stops, and it returns true if and only if the history is linearizable.  If it is
not, and partial linearizations are computed, then each operation has the longest way to begin
that contains it.
-/

namespace DistributedLabs.Porcupine

open DistributedLabs.Library

variable {S I O : Type} {model : Filled S I O} {history : List (Operation I O)}
  {entries : List (Entry I O)} {computePartial : Bool}

theorem timed_operations :
    Timed (operations history) ↔ ∀ op ∈ history, ¬ op.ret < op.call := by
  simp [Timed, operations]

/-! ## The start -/

theorem linked_ordered (entries : List (Entry I O)) :
    Linked.Ordered (makeLinkedEntries entries).heap.links (entries.zipIdx.map Prod.snd) :=
  Linked.build_ordered (zipIdx_addresses_nodup entries)

theorem linked_root (entries : List (Entry I O)) :
    (makeLinkedEntries entries).root = (entries.zipIdx.map Prod.snd).head? :=
  Linked.build_root _

theorem remaining_nil (entries : List (Entry I O)) : remaining entries [] = entries.zipIdx := by
  simp [remaining]

theorem simulates_initial (hmakes : MakesEntries history entries)
    (htimed : ∀ op ∈ history, ¬ op.ret < op.call) :
    Simulates model history entries computePartial
      (Search.initial model entries history.length)
      ((space model history entries).start (Config.start history.length model.init)) where
  built := hmakes.built htimed _
  head := rfl
  listed := by
    have hnew : entries.length ∉ entries.zipIdx.map Prod.snd := by
      simp [List.zipIdx_map_snd]
    have hordered := (linked_ordered entries).insertBefore hnew
    rw [← linked_root] at hordered
    have hchain := hordered.chain
    rw [← remaining_nil] at hchain
    exact hchain
  view := ⟨[], remaining entries [], ⟨rfl, fun _ hmem => by cases hmem⟩, by
    rw [remaining_nil]
    exact linked_root entries, rfl⟩
  linearized := Bitset.newBitset_holds history.length
  state := rfl
  cache b state := ⟨fun hmem => (by cases hmem), fun ⟨_, hmem, _⟩ => by cases hmem⟩
  unwinds := .root rfl
  valid := ⟨List.length_replicate, fun ref hmem => by cases (List.mem_replicate.mp hmem).2⟩
  longest _ := rfl

/-! ## The end -/

/-- The longest sequences when the search stops. -/
def FinalLongest (computePartial : Bool) (verdict : Bool)
    (s : Space.Search (Config history.length S) Nat) (longest : Longest) : Prop :=
  match verdict with
  | true => ∃ before : Longest, before.Valid history.length ∧
      longest = before.fill (s.top.config.placed.map Int.ofNat)
  | false => computePartial = true →
      Longest.noteAll { refs := List.replicate history.length none } s.given = some longest

/-- The loop stops with the search. -/
theorem checkSingle_stops (hequal : model.EqualSound) (hmakes : MakesEntries history entries)
    (htimed : ∀ op ∈ history, ¬ op.ret < op.call) (computePartial : Bool) :
    ∃ verdict s longest turns,
      Stops (Search.turn model computePartial false) (verdict, longest) turns
        (Search.initial model entries history.length) ∧
      (space model history entries).Verdict (Config.start history.length model.init) verdict s ∧
      FinalLongest computePartial verdict s longest := by
  obtain ⟨verdict, s, turns, hstops, hverdict⟩ :=
    (space model history entries).search_stops (hmakes.lawful hequal)
      (Config.start history.length model.init)
  obtain ⟨⟨verdict', longest⟩, hstops', rfl, hlongest⟩ := Stops.simulated
    (fun s (t : Search S I O) => Simulates model history entries computePartial t s)
    (fun r (q : Bool × Longest) => q.1 = r.1 ∧ FinalLongest computePartial r.1 r.2 q.2)
    (fun hrel hturn => by
      obtain ⟨r, r', hconcrete, habstract, hmatch⟩ := hrel.turn hmakes
      obtain rfl := Option.some.inj (habstract.symm.trans hturn)
      cases hmatch with
      | again next => exact ⟨_, hconcrete, next⟩)
    (fun hrel hturn => by
      obtain ⟨r, r', hconcrete, habstract, hmatch⟩ := hrel.turn hmakes
      obtain rfl := Option.some.inj (habstract.symm.trans hturn)
      cases hmatch with
      | found last => exact ⟨_, hconcrete, rfl, _, last.valid, rfl⟩
      | exhausted last => exact ⟨_, hconcrete, rfl, last.longest⟩)
    hstops (simulates_initial hmakes htimed)
  exact ⟨verdict', s, longest, turns, hstops', hverdict, hlongest⟩

/-- The fuel is enough to count the entries, or it is used up. -/
theorem checkSingle_eq (hmakes : MakesEntries history entries) (computePartial : Bool)
    (fuel : Nat) :
    checkSingle model entries computePartial fuel =
      if entries.length ≤ fuel then
        loop (Search.turn model computePartial false) fuel
          (Search.initial model entries history.length)
      else .blocked := by
  have hlength := length_eq (linked_ordered entries).chain fuel
  rw [← linked_root, List.length_map, List.length_zipIdx] at hlength
  have hhalf : entries.length / 2 = history.length := by
    rw [hmakes.length_eq]
    omega
  simp only [checkSingle, hlength]
  by_cases hfuel : entries.length ≤ fuel
  · simp only [if_pos hfuel, hhalf]
  · simp only [if_neg hfuel]

theorem checkSingle_mono (hmakes : MakesEntries history entries) {computePartial : Bool}
    {fuel fuel' : Nat} {result : Bool × Longest}
    (h : checkSingle model entries computePartial fuel = .ok result) (hle : fuel ≤ fuel') :
    checkSingle model entries computePartial fuel' = .ok result := by
  rw [checkSingle_eq hmakes] at h ⊢
  split at h
  · next henough =>
      rw [if_pos (Nat.le_trans henough hle)]
      exact loop_mono h hle
  · cases h

theorem verdict_iff (hmakes : MakesEntries history entries)
    (htimed : ∀ op ∈ history, ¬ op.ret < op.call) {verdict : Bool}
    {s : Space.Search (Config history.length S) Nat}
    (h : (space model history entries).Verdict (Config.start history.length model.init) verdict s) :
    verdict = true ↔ Linearizable model.object (operations history) := by
  rw [linearizable_iff_start (timed_operations.mpr htimed)]
  have hlength : (operations history).length = history.length := List.length_map _
  rw [hlength]
  constructor
  · intro hfound
    obtain ⟨ids, hpath⟩ := h.reached.top.path
    have hplaced := (hmakes.path_iff.mp hpath).2.2
    refine ⟨ids, hmakes.start_iff.mp ⟨_, hpath⟩, ?_⟩
    rw [Config.start, List.nil_append] at hplaced
    exact hplaced ▸ hmakes.complete_iff.mp (h.found hfound)
  · rintro ⟨ids, hstart, hall⟩
    cases hverdict : verdict with
    | true => rfl
    | false =>
        obtain ⟨d, hpath⟩ := hmakes.start_iff.mpr hstart
        have hplaced : d.placed = ids := (hmakes.path_iff.mp hpath).2.2
        have hnot := (h.exhausted hverdict ids d hpath).1
        rw [hmakes.complete_iff.mpr (hplaced ▸ hall)] at hnot
        cases hnot

/-- `checkSingle` stops, and returns true if and only if the history is linearizable. -/
theorem checkSingle_decides (hequal : model.EqualSound) (hmakes : MakesEntries history entries)
    (htimed : ∀ op ∈ history, ¬ op.ret < op.call) (computePartial : Bool) :
    ∃ verdict longest bound,
      (∀ fuel ≥ bound, checkSingle model entries computePartial fuel = .ok (verdict, longest)) ∧
      (verdict = true ↔ Linearizable model.object (operations history)) := by
  obtain ⟨verdict, s, longest, turns, hstops, hverdict, _⟩ :=
    checkSingle_stops hequal hmakes htimed computePartial
  refine ⟨verdict, longest, entries.length + turns + 1, fun fuel hfuel => ?_,
    verdict_iff hmakes htimed hverdict⟩
  rw [checkSingle_eq hmakes, if_pos (by omega)]
  exact hstops.loop_eq (by omega)

/-- Without an equality of its own, a model compares states as they are. -/
theorem fillDefault_equalSound [DecidableEq S] {model : Model S I O} (h : model.equal = none) :
    model.fillDefault.EqualSound := by
  intro a b hequal
  have hsame : shallowEqual a b = true := by
    simpa [Model.fillDefault, h] using hequal
  obtain rfl := of_decide_eq_true hsame
  exact fun _ hlegal => hlegal

/-- A client reads a value, and another one that comes later does not. -/
def staleRead : List (Operation Models.KvInput Models.KvOutput) :=
  [{ input := ⟨1, "x", "a"⟩, call := 0, output := ⟨""⟩, ret := 9, clientId := 0 },
    { input := ⟨0, "x", ""⟩, call := 2, output := ⟨"a"⟩, ret := 3, clientId := 1 },
    { input := ⟨0, "x", ""⟩, call := 4, output := ⟨""⟩, ret := 5, clientId := 2 }]

deriving instance DecidableEq for Outcome

theorem checkSingle_staleRead :
    checkSingle Models.kvModel.fillDefault (makeEntries staleRead) true 20 =
      .ok (false, ⟨[[0, 1], [0]], [some 0, some 0, none]⟩) := by
  decide +kernel

/-- The checker finds that the stale read is not linearizable. -/
theorem checkSingle_decides_stale_read :
    (∀ fuel ≥ 20, ∃ longest, checkSingle Models.kvModel.fillDefault (makeEntries staleRead) true
      fuel = .ok (false, longest)) ∧
    ¬ Linearizable Models.kvModel.fillDefault.object (operations staleRead) := by
  have hmakes := makeEntries_makes staleRead
  have hequal : Models.kvModel.fillDefault.EqualSound := fillDefault_equalSound rfl
  obtain ⟨verdict, longest, bound, hstops, hverdict⟩ :=
    checkSingle_decides hequal hmakes (by decide) true
  refine ⟨fun fuel hfuel => ⟨_, checkSingle_mono hmakes checkSingle_staleRead hfuel⟩, ?_⟩
  have hmax := checkSingle_mono hmakes checkSingle_staleRead (Nat.le_max_left 20 bound)
  rw [hstops _ (Nat.le_max_right 20 bound)] at hmax
  obtain ⟨rfl, _⟩ := Prod.mk.inj (Outcome.ok.inj hmax)
  exact fun hlinearizable => Bool.false_ne_true (hverdict.mpr hlinearizable)

/-! ## The longest ways to begin -/

theorem Longest.Valid.found_fill {longest : Longest} {n : Nat} (h : longest.Valid n)
    (seq : List Int) {k : Nat} (hk : k < n) : (longest.fill seq).found k = some seq := by
  have hlt : k < longest.refs.length := h.length ▸ hk
  simp [Longest.found, Longest.view, Longest.fill, hlt]

/-- What is kept for the operations when the history is not linearizable. -/
theorem exhausted_longest (hmakes : MakesEntries history entries)
    {s : Space.Search (Config history.length S) Nat}
    (h : (space model history entries).Verdict (Config.start history.length model.init) false s)
    {longest : Longest}
    (hlongest : Longest.noteAll { refs := List.replicate history.length none } s.given =
      some longest) (k : Nat) :
    (∀ seq, longest.found k = some seq → ∃ ids, seq = ids.map Int.ofNat ∧ k ∈ ids ∧
      LinearizableStart model.object (operations history) ids) ∧
    ∀ ids, LinearizableStart model.object (operations history) ids → k ∈ ids →
      ∃ seq, longest.found k = some seq ∧ ids.length ≤ seq.length := by
  have hgiven : ∀ ids ∈ s.given, LinearizableStart model.object (operations history) ids := by
    intro ids hmem
    obtain ⟨labels, d, hpath, htrail⟩ := h.reached.given ids hmem
    have hplaced : d.placed = labels := (hmakes.path_iff.mp hpath).2.2
    have hids : ids = labels := htrail.trans hplaced
    exact hids ▸ hmakes.start_iff.mp ⟨d, hpath⟩
  have hbounded : ∀ ids ∈ s.given, ∀ id ∈ ids, id < history.length := by
    intro ids hmem id hid
    have hlt := (hgiven ids hmem).places.lt_length hid
    rwa [operations, List.length_map] at hlt
  obtain ⟨_, hrecords⟩ := Longest.records_of_noteAll hbounded hlongest
  refine ⟨fun seq hseq => ?_, fun ids hstart hk => ?_⟩
  · obtain ⟨ids, hmem, hk, rfl⟩ := hrecords.sound k seq hseq
    exact ⟨ids, rfl, hk, hgiven ids hmem⟩
  · obtain ⟨d, hpath⟩ := hmakes.start_iff.mpr hstart
    rcases (h.exhausted rfl ids d hpath).2 with rfl | ⟨trail, hmem, hperm⟩
    · cases hk
    · have hperm' : trail.Perm ids := hperm
      obtain ⟨seq, hseq, hle⟩ := hrecords.covers trail hmem k (hperm'.mem_iff.mpr hk)
      exact ⟨seq, hseq, hperm'.length_eq ▸ hle⟩

/-- Where the checker has to stop with partial linearizations, each is a longest one: it begins
the history with the operation in it, and no longer sequence does.  If the history is
linearizable, every operation points to a linearization of all of it. -/
theorem checkSingle_longest (hequal : model.EqualSound) (hmakes : MakesEntries history entries)
    (htimed : ∀ op ∈ history, ¬ op.ret < op.call) {fuel : Nat} {verdict : Bool} {longest : Longest}
    (hrun : checkSingle model entries true fuel = .ok (verdict, longest)) (k : Nat)
    (hk : k < history.length) :
    (verdict = false →
      (∀ seq, longest.found k = some seq → ∃ ids, seq = ids.map Int.ofNat ∧ k ∈ ids ∧
        LinearizableStart model.object (operations history) ids) ∧
      ∀ ids, LinearizableStart model.object (operations history) ids → k ∈ ids →
        ∃ seq, longest.found k = some seq ∧ ids.length ≤ seq.length) ∧
    (verdict = true → ∃ ids, longest.found k = some (ids.map Int.ofNat) ∧
      LinearizableStart model.object (operations history) ids ∧
      ids.Perm (List.range history.length)) := by
  obtain ⟨verdict', s, longest', turns, hstops, hverdict, hfinal⟩ :=
    checkSingle_stops hequal hmakes htimed true
  have hresult : (verdict, longest) = (verdict', longest') := by
    rw [checkSingle_eq hmakes] at hrun
    split at hrun
    · exact hstops.eq_of_loop hrun
    · cases hrun
  obtain ⟨rfl, rfl⟩ := Prod.mk.inj hresult
  constructor
  · rintro rfl
    exact exhausted_longest hmakes hverdict (hfinal rfl) k
  · rintro rfl
    obtain ⟨before, hvalid, rfl⟩ := hfinal
    obtain ⟨ids, hpath⟩ := hverdict.reached.top.path
    have hplaced : s.top.config.placed = ids := (hmakes.path_iff.mp hpath).2.2
    refine ⟨ids, ?_, hmakes.start_iff.mp ⟨_, hpath⟩, ?_⟩
    · rw [hvalid.found_fill _ hk, hplaced]
    · exact hplaced ▸ hmakes.complete_iff.mp (hverdict.found rfl)

/-- The stale read has no place, and the other operations are not kept from theirs. -/
theorem checkSingle_longest_stale_read : ∃ longest,
    checkSingle Models.kvModel.fillDefault (makeEntries staleRead) true 20 = .ok (false, longest) ∧
    longest.found 1 = some [0, 1] ∧ longest.found 2 = none ∧
    ∀ ids, LinearizableStart Models.kvModel.fillDefault.object (operations staleRead) ids →
      2 ∉ ids := by
  refine ⟨_, checkSingle_staleRead, rfl, rfl, fun ids hstart hmem => ?_⟩
  obtain ⟨hlongest, _⟩ := checkSingle_longest (fillDefault_equalSound rfl)
    (makeEntries_makes staleRead) (by decide) checkSingle_staleRead 2 (by decide)
  obtain ⟨seq, hseq, _⟩ := (hlongest rfl).2 ids hstart hmem
  cases hseq

end DistributedLabs.Porcupine
