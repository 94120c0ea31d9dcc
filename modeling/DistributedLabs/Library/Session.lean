import Mathlib.Data.List.Count
import Mathlib.Data.List.Induction
import Mathlib.Data.List.Nodup

/-!
# Numbered requests of several clients

A request is fresh if no earlier request of its client has its number or a larger
one.  Serving exactly the fresh requests serves each request once, as long as a
request that comes for the first time has the largest number of its client so far.

A stricter server takes the requests of each client in order, without gaps.
-/

namespace DistributedLabs.Library.Session

variable {α κ : Type} (client : α → κ) (number : α → Int)

/-- Every earlier request of the client has a smaller number. -/
def Fresh (past : List α) (request : α) : Prop :=
  ∀ earlier ∈ past, client earlier = client request → number earlier < number request

/-- The client and the number of a request. -/
def key (request : α) : κ × Int :=
  (client request, number request)

/-- A request that comes for the first time has the largest number of its client so far. -/
def FirstsRise (requests : List α) : Prop :=
  ∀ past request rest, requests = past ++ request :: rest →
    key client number request ∉ past.map (key client number) → Fresh client number past request

instance decidableFresh [DecidableEq κ] (past : List α) (request : α) :
    Decidable (Fresh client number past request) :=
  inferInstanceAs (Decidable (∀ earlier ∈ past, _ → _))

/-- The requests that are fresh when they come one after the other, behind `past`. -/
def freshAfter [DecidableEq κ] (past : List α) : List α → List α
  | [] => []
  | request :: rest =>
      if Fresh client number past request then request :: freshAfter (past ++ [request]) rest
      else freshAfter (past ++ [request]) rest

def fresh [DecidableEq κ] (requests : List α) : List α :=
  freshAfter client number [] requests

variable {client number}

theorem Fresh.not_mem {past : List α} {request : α} (h : Fresh client number past request) :
    key client number request ∉ past.map (key client number) := by
  intro hmem
  obtain ⟨earlier, hearlier, hkey⟩ := List.mem_map.mp hmem
  obtain ⟨hclient, hnumber⟩ := Prod.mk.inj hkey
  exact absurd (h earlier hearlier hclient) (Int.not_lt.mpr (Int.le_of_eq hnumber.symm))

theorem FirstsRise.init {requests : List α} {last : α}
    (h : FirstsRise client number (requests ++ [last])) : FirstsRise client number requests := by
  intro past request rest heq hnew
  refine h past request (rest ++ [last]) ?_ hnew
  rw [heq, List.append_assoc, List.cons_append]

variable [DecidableEq κ]

theorem freshAfter_concat (past requests : List α) (request : α) :
    freshAfter client number past (requests ++ [request]) =
      freshAfter client number past requests ++
        if Fresh client number (past ++ requests) request then [request] else [] := by
  induction requests generalizing past with
  | nil => simp only [List.nil_append, freshAfter, List.append_nil]
  | cons first rest ih =>
      simp only [List.cons_append, freshAfter]
      rw [ih, List.append_assoc, List.singleton_append]
      split
      · rfl
      · rfl

/-- One more request is served if it is fresh. -/
theorem fresh_concat (requests : List α) (request : α) :
    fresh client number (requests ++ [request]) =
      fresh client number requests ++
        if Fresh client number requests request then [request] else [] :=
  freshAfter_concat [] requests request

theorem mem_of_mem_fresh {requests : List α} {request : α}
    (h : request ∈ fresh client number requests) : request ∈ requests := by
  induction requests using List.reverseRecOn with
  | nil => exact h
  | append_singleton requests last ih =>
      rw [fresh_concat] at h
      rcases List.mem_append.mp h with hold | hnew
      · exact List.mem_append_left _ (ih hold)
      · split at hnew
        · exact List.mem_append_right _ hnew
        · cases hnew

/-- No request is served twice. -/
theorem nodup_fresh (requests : List α) :
    ((fresh client number requests).map (key client number)).Nodup := by
  induction requests using List.reverseRecOn with
  | nil => exact List.nodup_nil
  | append_singleton requests last ih =>
      rw [fresh_concat]
      split
      · next hfresh =>
          rw [List.map_append, List.map_singleton]
          refine ih.append (List.nodup_singleton _) fun other hold hnew => ?_
          obtain rfl := List.mem_singleton.mp hnew
          obtain ⟨request, hmem, hkey⟩ := List.mem_map.mp hold
          exact hfresh.not_mem (List.mem_map.mpr ⟨request, mem_of_mem_fresh hmem, hkey⟩)
      · rw [List.append_nil]
        exact ih

/-- Every request is served. -/
theorem mem_fresh_of_firstsRise {requests : List α} (h : FirstsRise client number requests)
    {request : α} (hmem : request ∈ requests) :
    key client number request ∈ (fresh client number requests).map (key client number) := by
  induction requests using List.reverseRecOn generalizing request with
  | nil => cases hmem
  | append_singleton requests last ih =>
      rw [fresh_concat, List.map_append]
      rcases List.mem_append.mp hmem with hold | hnew
      · exact List.mem_append_left _ (ih h.init hold)
      · obtain rfl := List.mem_singleton.mp hnew
        by_cases hseen : key client number request ∈ requests.map (key client number)
        · obtain ⟨earlier, hearlier, hkey⟩ := List.mem_map.mp hseen
          rw [← hkey]
          exact List.mem_append_left _ (ih h.init hearlier)
        · rw [if_pos (h requests request [] rfl hseen)]
          exact List.mem_append_right _ (List.mem_singleton.mpr rfl)

theorem count_fresh_of_firstsRise {requests : List α} (h : FirstsRise client number requests)
    {request : α} (hmem : request ∈ requests) :
    ((fresh client number requests).map (key client number)).count (key client number request) =
      1 :=
  List.count_eq_one_of_mem (nodup_fresh requests) (mem_fresh_of_firstsRise h hmem)

/-! ## Serving in order -/

variable (client number)

def ofClient (c : κ) (requests : List α) : List α :=
  requests.filter fun request => client request = c

/-- The number of each request is how many requests of its client stand before it. -/
inductive InOrder : List α → Prop where
  | nil : InOrder []
  | concat {past : List α} {request : α} (before : InOrder past)
      (next : number request = (ofClient client (client request) past).length) :
      InOrder (past ++ [request])

variable {client number}

theorem ofClient_concat_self (requests : List α) (request : α) :
    ofClient client (client request) (requests ++ [request]) =
      ofClient client (client request) requests ++ [request] := by
  simp [ofClient, List.filter_append]

theorem ofClient_concat_of_ne {c : κ} {request : α} (h : client request ≠ c) (requests : List α) :
    ofClient client c (requests ++ [request]) = ofClient client c requests := by
  simp [ofClient, List.filter_append, h]

/-- The requests of each client are numbered from zero on. -/
theorem InOrder.numbers {requests : List α} (h : InOrder client number requests) (c : κ) :
    (ofClient client c requests).map number =
      (List.range (ofClient client c requests).length).map fun index : Nat => (index : Int) := by
  induction h with
  | nil => rfl
  | @concat past request _ next ih =>
      by_cases hclient : client request = c
      · subst hclient
        rw [ofClient_concat_self, List.map_append, ih, List.length_append, List.length_singleton,
          List.range_succ, List.map_append, List.map_singleton, List.map_singleton, next]
      · rw [ofClient_concat_of_ne hclient]
        exact ih

end DistributedLabs.Library.Session
