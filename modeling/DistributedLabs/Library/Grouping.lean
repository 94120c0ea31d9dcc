import Mathlib.Data.List.Dedup
import Mathlib.Order.Defs.PartialOrder

/-!
# Grouping by key

The items with one key stand together in a list that is sorted by key.  Cutting the list
where the key changes then gives one group for each key, and splitting the items by their
keys first gives the same groups.
-/

namespace DistributedLabs.Library.Grouping

variable {α β κ : Type}

theorem split_at_takeWhile (p : α → Bool) (items : List α) :
    items.take (items.takeWhile p).length = items.takeWhile p ∧
      items.drop (items.takeWhile p).length = items.dropWhile p := by
  induction items with
  | nil => exact ⟨rfl, rfl⟩
  | cons first rest ih =>
      cases hp : p first with
      | true => simp [hp, ih]
      | false => simp [hp]

/-- Items that give nothing do not count. -/
theorem flatMap_filter_ne_nil (result : α → List β) (items : List α) :
    (items.filter fun item => !(result item).isEmpty).flatMap result = items.flatMap result := by
  induction items with
  | nil => rfl
  | cons item items ih =>
      cases hresult : result item with
      | nil => simp [hresult, ih]
      | cons first rest => simp [hresult, ih]

/-- Two lists that differ only in items that give nothing, and in the order. -/
theorem flatMap_perm_of_mem_iff {result : α → List β} {items items' : List α} (h : items.Nodup)
    (h' : items'.Nodup) (hmem : ∀ item, result item ≠ [] → (item ∈ items ↔ item ∈ items')) :
    (items.flatMap result).Perm (items'.flatMap result) := by
  rw [← flatMap_filter_ne_nil result items, ← flatMap_filter_ne_nil result items']
  refine List.Perm.flatMap_right _ ((List.perm_ext_iff_of_nodup (h.filter _) (h'.filter _)).mpr ?_)
  intro item
  rw [List.mem_filter, List.mem_filter]
  refine and_congr_left fun hresult => hmem item ?_
  simpa using hresult

section

variable [DecidableEq κ] (key : α → κ)

def withKey (k : κ) (items : List α) : List α :=
  items.filter fun item => key item = k

/-- The keys, each once. -/
def keys (items : List α) : List κ :=
  (items.map key).dedup

/-- One result for each key, from all its items. -/
def grouped (result : κ → List α → β) (items : List α) : List β :=
  (keys key items).map fun k => result k (withKey key k items)

/-- The maximal runs of items with one key. -/
def runs : List α → List (κ × List α)
  | [] => []
  | first :: rest =>
      (key first, first :: rest.takeWhile fun item => key item = key first) ::
        runs (rest.dropWhile fun item => key item = key first)
termination_by items => items.length
decreasing_by
  simp only [List.length_cons]
  exact Nat.lt_succ_of_le (List.dropWhile_sublist _).length_le

variable {key}

theorem mem_keys {items : List α} {k : κ} : k ∈ keys key items ↔ ∃ item ∈ items, key item = k := by
  simp [keys]

theorem nodup_keys (items : List α) : (keys key items).Nodup :=
  List.nodup_dedup _

theorem keys_perm {items items' : List α} (h : items.Perm items') :
    (keys key items).Perm (keys key items') :=
  (h.map key).dedup

theorem map_fst_grouped (result : κ → List α → β) (items : List α) :
    (grouped key (fun k group => (k, result k group)) items).map Prod.fst = keys key items := by
  rw [grouped, List.map_map]
  exact List.map_id _

/-- The order of the items does not matter if it does not matter for the result. -/
theorem grouped_perm {result : κ → List α → β}
    (hresult : ∀ k group group', group.Perm group' → result k group = result k group')
    {items items' : List α} (h : items.Perm items') :
    (grouped key result items).Perm (grouped key result items') := by
  have hsame : grouped key result items =
      (keys key items).map fun k => result k (withKey key k items') :=
    List.map_congr_left fun k _ => hresult k _ _ (h.filter _)
  rw [hsame]
  exact (keys_perm h).map _

/-! ## The first key and the others -/

theorem keys_cons_perm (first : α) (rest : List α) :
    (keys key (first :: rest)).Perm
      (key first :: keys key (rest.filter fun item => key item ≠ key first)) := by
  have hnodup : (key first :: keys key (rest.filter fun item => key item ≠ key first)).Nodup := by
    refine List.nodup_cons.mpr ⟨fun hmem => ?_, nodup_keys _⟩
    obtain ⟨item, hitem, heq⟩ := mem_keys.mp hmem
    simp [heq] at hitem
  refine (List.perm_ext_iff_of_nodup (nodup_keys _) hnodup).mpr fun k => ?_
  simp only [mem_keys, List.mem_cons, List.mem_filter, decide_eq_true_eq]
  constructor
  · rintro ⟨item, rfl | hitem, rfl⟩
    · exact .inl rfl
    · by_cases hk : key item = key first
      · exact .inl hk
      · exact .inr ⟨item, ⟨hitem, hk⟩, rfl⟩
  · rintro (rfl | ⟨item, ⟨hitem, _⟩, rfl⟩)
    · exact ⟨first, .inl rfl, rfl⟩
    · exact ⟨item, .inr hitem, rfl⟩

theorem withKey_of_ne {first : α} {k : κ} (h : k ≠ key first) (rest : List α) :
    withKey key k (rest.filter fun item => key item ≠ key first) =
      withKey key k (first :: rest) := by
  have hfirst : key first ≠ k := Ne.symm h
  unfold withKey
  rw [List.filter_filter, List.filter_cons_of_neg (by simp [hfirst])]
  refine List.filter_congr fun item _ => ?_
  by_cases hk : key item = k
  · simp [hk, h]
  · simp [hk]

theorem grouped_cons_perm (result : κ → List α → β) (first : α) (rest : List α) :
    (grouped key result (first :: rest)).Perm
      (result (key first) (first :: withKey key (key first) rest) ::
        grouped key result (rest.filter fun item => key item ≠ key first)) := by
  have hfirst : withKey key (key first) (first :: rest) =
      first :: withKey key (key first) rest := by
    simp [withKey]
  have hothers : grouped key result (rest.filter fun item => key item ≠ key first) =
      (keys key (rest.filter fun item => key item ≠ key first)).map fun k =>
        result k (withKey key k (first :: rest)) := by
    refine List.map_congr_left fun k hk => ?_
    obtain ⟨item, hitem, rfl⟩ := mem_keys.mp hk
    rw [withKey_of_ne (by simpa using (List.mem_filter.mp hitem).2)]
  rw [hothers, ← hfirst]
  exact (keys_cons_perm first rest).map _

/-! ## Splitting by key -/

theorem withKey_part {items : List α} {part : κ → Nat} {r : Nat} {k : κ} (h : part k = r) :
    withKey key k (items.filter fun item => part (key item) = r) = withKey key k items := by
  unfold withKey
  rw [List.filter_filter]
  refine List.filter_congr fun item _ => ?_
  by_cases hk : key item = k
  · simp [hk, h]
  · simp [hk]

theorem mem_keys_part {items : List α} {part : κ → Nat} {r : Nat} {k : κ} :
    k ∈ keys key (items.filter fun item => part (key item) = r) ↔
      k ∈ keys key items ∧ part k = r := by
  simp only [mem_keys, List.mem_filter, decide_eq_true_eq]
  constructor
  · rintro ⟨item, ⟨hmem, hpart⟩, rfl⟩
    exact ⟨⟨item, hmem, rfl⟩, hpart⟩
  · rintro ⟨⟨item, hmem, rfl⟩, hpart⟩
    exact ⟨item, ⟨hmem, hpart⟩, rfl⟩

/-- Every key is in exactly one part. -/
theorem keys_parts_perm (items : List α) {part : κ → Nat} {n : Nat} (hpart : ∀ k, part k < n) :
    ((List.range n).flatMap fun r =>
      keys key (items.filter fun item => part (key item) = r)).Perm (keys key items) := by
  have hnodup : ((List.range n).flatMap fun r =>
      keys key (items.filter fun item => part (key item) = r)).Nodup := by
    refine List.nodup_flatMap.mpr ⟨fun r _ => nodup_keys _, ?_⟩
    refine List.nodup_range.imp fun hne k hfirst hsecond => hne ?_
    exact (mem_keys_part.mp hfirst).2.symm.trans (mem_keys_part.mp hsecond).2
  refine (List.perm_ext_iff_of_nodup hnodup (nodup_keys _)).mpr fun k => ?_
  simp only [List.mem_flatMap, List.mem_range, mem_keys_part]
  constructor
  · rintro ⟨r, _, hkey, _⟩
    exact hkey
  · intro hkey
    exact ⟨part k, hpart k, hkey, rfl⟩

/-- Grouping the parts gives the groups of the whole. -/
theorem grouped_parts_perm (result : κ → List α → β) (items : List α) {part : κ → Nat} {n : Nat}
    (hpart : ∀ k, part k < n) :
    ((List.range n).flatMap fun r =>
      grouped key result (items.filter fun item => part (key item) = r)).Perm
      (grouped key result items) := by
  have hsame (r : Nat) : grouped key result (items.filter fun item => part (key item) = r) =
      (keys key (items.filter fun item => part (key item) = r)).map fun k =>
        result k (withKey key k items) :=
    List.map_congr_left fun k hk => by rw [withKey_part (mem_keys_part.mp hk).2]
  simp only [hsame]
  rw [← List.map_flatMap]
  exact (keys_parts_perm items hpart).map _

end

/-! ## Runs of a sorted list -/

section

variable [DecidableEq κ] [PartialOrder κ] {key : α → κ}

/-- The items with the smallest key stand at the front. -/
theorem takeWhile_eq_withKey {k : κ} {items : List α} (hlow : ∀ item ∈ items, k ≤ key item)
    (hsorted : items.Pairwise fun first second => key first ≤ key second) :
    (items.takeWhile fun item => key item = k) = withKey key k items ∧
      (items.dropWhile fun item => key item = k) = items.filter fun item => key item ≠ k := by
  induction items with
  | nil => exact ⟨rfl, rfl⟩
  | cons first rest ih =>
      obtain ⟨hfirst, hrest⟩ := List.pairwise_cons.mp hsorted
      obtain ⟨htake, hdrop⟩ := ih (fun item hitem => hlow item (List.mem_cons_of_mem _ hitem)) hrest
      by_cases hk : key first = k
      · simp only [withKey, List.takeWhile_cons, List.dropWhile_cons, List.filter_cons, hk,
          decide_true, if_true, ne_eq, not_true_eq_false, decide_false, Bool.false_eq_true,
          if_false]
        exact ⟨congrArg _ htake, hdrop⟩
      · have habove : ∀ item ∈ first :: rest, key item ≠ k := by
          intro item hitem heq
          rcases List.mem_cons.mp hitem with rfl | hlater
          · exact hk heq
          · have hle := hfirst item hlater
            rw [heq] at hle
            exact hk (le_antisymm hle (hlow first List.mem_cons_self))
        have hnone : withKey key k (first :: rest) = [] :=
          List.filter_eq_nil_iff.mpr fun item hitem => by simp [habove item hitem]
        have hall : ((first :: rest).filter fun item => key item ≠ k) = first :: rest :=
          List.filter_eq_self.mpr fun item hitem => by simp [habove item hitem]
        rw [hnone, hall]
        simp [hk]

/-- Cutting a sorted list where the key changes gives the groups. -/
theorem runs_perm_grouped {items : List α}
    (hsorted : items.Pairwise fun first second => key first ≤ key second) :
    (runs key items).Perm (grouped key (fun k group => (k, group)) items) := by
  induction items using runs.induct key with
  | case1 =>
      rw [runs]
      exact List.Perm.refl _
  | case2 first rest ih =>
      obtain ⟨hlow, hrest⟩ := List.pairwise_cons.mp hsorted
      obtain ⟨htake, hdrop⟩ := takeWhile_eq_withKey hlow hrest
      have hlater := ih (hrest.sublist (List.dropWhile_sublist _))
      rw [runs, htake]
      rw [hdrop] at hlater ⊢
      exact (hlater.cons _).trans (grouped_cons_perm _ first rest).symm

end

end DistributedLabs.Library.Grouping
