import DistributedLabs.Porcupine.Checker

/-!
# The longest sequences

For each operation the checker keeps a pointer to the longest sequence it has seen so far
that contains the operation.
-/

namespace DistributedLabs.Porcupine.Longest

/-- The sequence that is pointed to. -/
def view (seqs : List (List Int)) (refs : List (Option Nat)) (k : Nat) : Option (List Int) :=
  (refs[k]?).join.bind fun ref => seqs[ref]?

def found (longest : Longest) (k : Nat) : Option (List Int) :=
  view longest.seqs longest.refs k

/-- The pointers lead somewhere. -/
def Pointing (seqs : List (List Int)) (refs : List (Option Nat)) : Prop :=
  ∀ ref, some ref ∈ refs → ref < seqs.length

structure Valid (longest : Longest) (n : Nat) : Prop where
  length : longest.refs.length = n
  pointing : Pointing longest.seqs longest.refs

/-- The views after some operations point to a new sequence. -/
structure Noted (before after : Nat → Option (List Int)) (ids : List Nat) (seq : List Int) :
    Prop where
  sound : ∀ k found, after k = some found → before k = some found ∨ (k ∈ ids ∧ found = seq)
  covers : ∀ k ∈ ids, ∃ found, after k = some found ∧ seq.length ≤ found.length
  grows : ∀ k found, before k = some found →
    ∃ longer, after k = some longer ∧ found.length ≤ longer.length

section Point

variable {seqs : List (List Int)} {refs : List (Option Nat)} {new k : Nat} {seq : List Int}

theorem view_set_self (hk : k < refs.length) (hnew : seqs[new]? = some seq) :
    view seqs (refs.set k (some new)) k = some seq := by
  simp [view, List.getElem?_set_self hk, hnew]

theorem view_set_of_ne {j : Nat} (hne : j ≠ k) :
    view seqs (refs.set k (some new)) j = view seqs refs j := by
  rw [view, view, List.getElem?_set_ne (Ne.symm hne)]

theorem Pointing.set (h : Pointing seqs refs) (hnew : seqs[new]? = some seq) :
    Pointing seqs (refs.set k (some new)) := by
  intro ref hmem
  rcases List.mem_or_eq_of_mem_set hmem with hold | heq
  · exact h ref hold
  · cases heq
    exact (List.getElem?_eq_some_iff.mp hnew).1

/-- The operation points to the new sequence, which is longer than the one before. -/
theorem noted_set (hk : k < refs.length) (hnew : seqs[new]? = some seq)
    (hlonger : ∀ old, view seqs refs k = some old → old.length ≤ seq.length) :
    Noted (view seqs refs) (view seqs (refs.set k (some new))) [k] seq where
  sound j other hother := by
    by_cases hj : j = k
    · subst hj
      rw [view_set_self hk hnew] at hother
      exact .inr ⟨List.mem_singleton.mpr rfl, (Option.some.inj hother).symm⟩
    · rw [view_set_of_ne hj] at hother
      exact .inl hother
  covers j hj := by
    obtain rfl := List.mem_singleton.mp hj
    exact ⟨seq, view_set_self hk hnew, Nat.le_refl _⟩
  grows j other hother := by
    by_cases hj : j = k
    · subst hj
      exact ⟨seq, view_set_self hk hnew, hlonger other hother⟩
    · exact ⟨other, (view_set_of_ne hj).trans hother, Nat.le_refl _⟩

/-- The operation points to a sequence that is as long. -/
theorem noted_keep {old : List Int} (hold : view seqs refs k = some old)
    (hlonger : seq.length ≤ old.length) : Noted (view seqs refs) (view seqs refs) [k] seq where
  sound _ _ hother := .inl hother
  covers j hj := by
    obtain rfl := List.mem_singleton.mp hj
    exact ⟨old, hold, hlonger⟩
  grows _ other hother := ⟨other, hother, Nat.le_refl _⟩

theorem point_noted (h : Pointing seqs refs) (hk : k < refs.length)
    (hnew : seqs[new]? = some seq) :
    ∃ refs', point seqs new seq.length refs k = some refs' ∧ refs'.length = refs.length ∧
      Pointing seqs refs' ∧ Noted (view seqs refs) (view seqs refs') [k] seq := by
  have hid : Int.toNat? (k : Int) = some k := rfl
  have hset : (refs.set k (some new)).length = refs.length := List.length_set
  cases hold : refs[k] with
  | none =>
      have hread : refs[k]? = some none := by rw [List.getElem?_eq_getElem hk, hold]
      refine ⟨refs.set k (some new), by simp [point, hid, hread], hset, h.set hnew,
        noted_set hk hnew fun old hview => ?_⟩
      simp [view, hread] at hview
  | some ref =>
      have hread : refs[k]? = some (some ref) := by rw [List.getElem?_eq_getElem hk, hold]
      have hlt : ref < seqs.length := h ref (List.mem_of_getElem? hread)
      have hview : view seqs refs k = some seqs[ref] := by
        simp [view, hread, List.getElem?_eq_getElem hlt]
      by_cases hlonger : seq.length > seqs[ref].length
      · refine ⟨refs.set k (some new), ?_, hset, h.set hnew, noted_set hk hnew fun old hview' => ?_⟩
        · simp [point, hid, hread, List.getElem?_eq_getElem hlt, hlonger]
        · obtain rfl := Option.some.inj (hview.symm.trans hview')
          exact Nat.le_of_lt hlonger
      · refine ⟨refs, ?_, rfl, h, noted_keep hview (Nat.le_of_not_lt hlonger)⟩
        simp [point, hid, hread, List.getElem?_eq_getElem hlt, hlonger]

theorem Noted.trans {before middle after : Nat → Option (List Int)} {ids : List Nat}
    (h : Noted before middle [k] seq) (h' : Noted middle after ids seq) :
    Noted before after (k :: ids) seq where
  sound j other hother := by
    rcases h'.sound j other hother with hmiddle | ⟨hj, heq⟩
    · refine (h.sound j other hmiddle).imp_right fun hnew => ⟨?_, hnew.2⟩
      exact List.mem_cons.mpr (.inl (List.mem_singleton.mp hnew.1))
    · exact .inr ⟨List.mem_cons_of_mem _ hj, heq⟩
  covers j hj := by
    rcases List.mem_cons.mp hj with rfl | hj
    · obtain ⟨found, hfound, hle⟩ := h.covers j (List.mem_singleton.mpr rfl)
      obtain ⟨longer, hlonger, hle'⟩ := h'.grows j found hfound
      exact ⟨longer, hlonger, Nat.le_trans hle hle'⟩
    · exact h'.covers j hj
  grows j other hother := by
    obtain ⟨found, hfound, hle⟩ := h.grows j other hother
    obtain ⟨longer, hlonger, hle'⟩ := h'.grows j found hfound
    exact ⟨longer, hlonger, Nat.le_trans hle hle'⟩

theorem points_noted (h : Pointing seqs refs) {ids : List Nat} (hids : ∀ id ∈ ids, id < refs.length)
    (hnew : seqs[new]? = some seq) :
    ∃ refs', (ids.map Int.ofNat).foldlM (point seqs new seq.length) refs = some refs' ∧
      refs'.length = refs.length ∧ Pointing seqs refs' ∧
      Noted (view seqs refs) (view seqs refs') ids seq := by
  induction ids generalizing refs with
  | nil =>
      exact ⟨refs, rfl, rfl, h, fun _ _ hother => .inl hother, fun _ hmem => (by cases hmem),
        fun _ other hother => ⟨other, hother, Nat.le_refl _⟩⟩
  | cons k rest ih =>
      obtain ⟨refs₁, hpoint, hlength₁, hpointing₁, hnoted₁⟩ :=
        point_noted h (hids k List.mem_cons_self) hnew
      obtain ⟨refs₂, hrest, hlength₂, hpointing₂, hnoted₂⟩ := ih hpointing₁ fun id hmem =>
        hlength₁ ▸ hids id (List.mem_cons_of_mem _ hmem)
      refine ⟨refs₂, ?_, hlength₂.trans hlength₁, hpointing₂, hnoted₁.trans hnoted₂⟩
      rw [List.map_cons, List.foldlM_cons]
      exact Option.bind_eq_some_iff.mpr ⟨refs₁, hpoint, hrest⟩

end Point

variable {longest : Longest} {n : Nat} {ids : List Nat}

/-- A new sequence does not change what the old pointers lead to. -/
theorem Pointing.view_append {seqs : List (List Int)} {refs : List (Option Nat)}
    (h : Pointing seqs refs) (seq : List Int) : view (seqs ++ [seq]) refs = view seqs refs := by
  funext k
  cases hread : (refs[k]?).join with
  | none => simp [view, hread]
  | some ref =>
      have hmem : some ref ∈ refs := List.mem_of_getElem? (Option.join_eq_some_iff.mp hread)
      simp [view, hread, List.getElem?_append_left (h ref hmem)]

theorem Valid.note (h : longest.Valid n) (hids : ∀ id ∈ ids, id < n) :
    ∃ longest', longest.note (ids.map Int.ofNat) = some longest' ∧ longest'.Valid n ∧
      Noted longest.found longest'.found ids (ids.map Int.ofNat) := by
  have hpointing : Pointing (longest.seqs ++ [ids.map Int.ofNat]) longest.refs := fun ref hmem => by
    rw [List.length_append]
    exact Nat.lt_add_right _ (h.pointing ref hmem)
  obtain ⟨refs', hrefs, hlength, hpointing', hnoted⟩ := points_noted hpointing
    (fun id hmem => h.length.symm ▸ hids id hmem) List.getElem?_concat_length
  refine ⟨⟨longest.seqs ++ [ids.map Int.ofNat], refs'⟩, ?_, ⟨hlength.trans h.length, hpointing'⟩,
    ?_⟩
  · exact Option.bind_eq_some_iff.mpr ⟨refs', hrefs, rfl⟩
  · rw [h.pointing.view_append] at hnoted
    exact hnoted

/-! ## All sequences -/

def noteAll (longest : Longest) (given : List (List Nat)) : Option Longest :=
  given.foldlM (fun longest ids => longest.note (ids.map Int.ofNat)) longest

theorem noteAll_concat {given : List (List Nat)} {longest' : Longest}
    (h : longest.noteAll given = some longest') (ids : List Nat) :
    longest.noteAll (given ++ [ids]) = longest'.note (ids.map Int.ofNat) := by
  rw [noteAll, List.foldlM_append]
  rw [noteAll] at h
  rw [h]
  simp

/-- What has been noted: each sequence contains the operation it is for, and no noted sequence
with that operation is longer. -/
structure Records (longest : Longest) (given : List (List Nat)) : Prop where
  sound : ∀ k found, longest.found k = some found →
    ∃ ids ∈ given, k ∈ ids ∧ found = ids.map Int.ofNat
  covers : ∀ ids ∈ given, ∀ k ∈ ids, ∃ found, longest.found k = some found ∧
    ids.length ≤ found.length

theorem records_of_noteAll {given : List (List Nat)} (hids : ∀ ids ∈ given, ∀ id ∈ ids, id < n)
    {longest' : Longest} (h : noteAll { refs := List.replicate n none } given = some longest') :
    longest'.Valid n ∧ longest'.Records given := by
  induction given using List.reverseRecOn generalizing longest' with
  | nil =>
      cases h
      have hview (k : Nat) : found { refs := List.replicate n none } k = none := by
        simp [found, view, List.getElem?_replicate]
      refine ⟨⟨List.length_replicate, fun ref hmem => ?_⟩, fun k seq hseq => ?_, fun _ hmem => by
        cases hmem⟩
      · cases (List.mem_replicate.mp hmem).2
      · rw [hview k] at hseq
        cases hseq
  | append_singleton given ids ih =>
      rw [noteAll, List.foldlM_append] at h
      obtain ⟨before, hbefore, hlast⟩ := Option.bind_eq_some_iff.mp h
      obtain ⟨hvalid, hrecords⟩ := ih
        (fun other hmem => hids other (List.mem_append_left _ hmem)) hbefore
      obtain ⟨after, hafter, hvalid', hnoted⟩ := hvalid.note
        (hids ids (List.mem_append_right _ List.mem_cons_self))
      have heq : some after = some longest' := by
        rw [← hafter, ← hlast]
        simp
      obtain rfl := Option.some.inj heq
      refine ⟨hvalid', fun k seq hseq => ?_, fun other hmem k hk => ?_⟩
      · rcases hnoted.sound k seq hseq with hold | ⟨hk, rfl⟩
        · obtain ⟨other, hmem, hother⟩ := hrecords.sound k seq hold
          exact ⟨other, List.mem_append_left _ hmem, hother⟩
        · exact ⟨ids, List.mem_append_right _ List.mem_cons_self, hk, rfl⟩
      · rcases List.mem_append.mp hmem with hold | hnew
        · obtain ⟨seq, hseq, hle⟩ := hrecords.covers other hold k hk
          obtain ⟨longer, hlonger, hle'⟩ := hnoted.grows k seq hseq
          exact ⟨longer, hlonger, Nat.le_trans hle hle'⟩
        · obtain rfl := List.mem_singleton.mp hnew
          obtain ⟨seq, hseq, hle⟩ := hnoted.covers k hk
          rw [List.length_map] at hle
          exact ⟨seq, hseq, hle⟩

end DistributedLabs.Porcupine.Longest
